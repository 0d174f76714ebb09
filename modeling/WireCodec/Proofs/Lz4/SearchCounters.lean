import Mathlib
import WireCodec.Proofs.Lz4.FastRoundTrip

/-!
# The fast search never overflows its counters

On the machine, the search loop of the fast encoder keeps its count of misses in a 32-bit
word and its position in a machine word, and adds to both in every round.
`FastInput.searchWords` is that loop with both additions checked: a round whose addition
would leave its word stops the loop with `none`. The step is the count shifted right by
six, and the count starts at the acceleration shifted left by six, which wraps: an
acceleration that is a multiple of `2 ^ 26` starts the count at zero, and the position
stays where it is for 63 rounds.

The argument is an invariant of the rounds, `SearchRoom`: the position never passes the
end of the scan, the step stays below `2 ^ 26`, and once the count has passed
`2 ^ 32 - 64` every round has moved the position by the largest step, `2 ^ 26 - 1`. An
input of at most `maxInputSize < 2 ^ 31` bytes has room for fewer than 32 such rounds, so
neither addition ever wraps (`SearchRoom.fits`), and the checked loop returns what
`search` returns (`FastInput.searchWords_eq_search`).
-/

namespace WireCodec.Lz4

theorem toNat_add_one_of_lt {n : UInt32} (h : n.toNat + 1 < Nat.pow 2 32) :
    (n + 1).toNat = n.toNat + 1 := by
  rw [UInt32.toNat_add, UInt32.toNat_one]
  exact Nat.mod_eq_of_lt h

theorem toNat_shiftRight_six (x : UInt32) : (x >>> 6).toNat = x.toNat / 64 := by
  rw [UInt32.toNat_shiftRight]
  simp [Nat.shiftRight_eq_div_pow]

/-- A count started by a shift left by six is a multiple of 64 below `2 ^ 32`. -/
theorem toNat_shiftLeft_six_le (x : UInt32) : (x <<< 6).toNat ≤ 4294967232 := by
  rw [UInt32.toNat_shiftLeft]
  simp only [UInt32.reduceToNat, Nat.reduceMod, Nat.shiftLeft_eq, Nat.reducePow]
  omega

namespace FastInput

/-- The search loop on machine words: the count `searchNb` is a 32-bit word, and so are
positions (the narrowest address width the encoder is built for). A round adds `step` to
the position and one to the count before it looks at the end of the scan; if either
addition would wrap, the loop stops with `none`. Otherwise the round is that of
`search`. -/
def searchWords (I : FastInput) (table : FastTable) (forwardIp step : Nat) (searchNb : UInt32)
    (forwardH : Nat) : Option (FastTable × Option (Nat × Nat)) :=
  if hfit : forwardIp + step < Nat.pow 2 32 ∧ searchNb.toNat + 1 < Nat.pow 2 32 then
    if hend : I.scanEnd < forwardIp + step then some (table, none)
    else
      let matchPos := table.get forwardH
      let nextH := table.hashAt I.src (forwardIp + step)
      let table := table.put I.width forwardH forwardIp
      if reaches matchPos forwardIp && readU32 I.src matchPos == readU32 I.src forwardIp then
        some (table, some (forwardIp, matchPos))
      else I.searchWords table (forwardIp + step) (searchNb >>> 6).toNat (searchNb + 1) nextH
  else none
termination_by (I.scanEnd + 1 - forwardIp, Nat.pow 2 32 - searchNb.toNat)
decreasing_by
  have hcount := toNat_add_one_of_lt hfit.2
  rcases Nat.eq_zero_or_pos step with hs | hs
  · subst hs
    apply Prod.Lex.right'
    · omega
    · rw [hcount]; omega
  · apply Prod.Lex.left
    omega

end FastInput

/-- Where the search loop may stand before a round, in a scan that ends at `M`: the
position lies inside the scan, the step is below `2 ^ 26`, and once the count is `t` past
`2 ^ 32 - 63 = 4294967233` the step is the largest one, `2 ^ 26 - 1 = 67108863`, and the
position has moved by it in each of those `t` rounds. -/
structure SearchRoom (M forwardIp step searchNb : Nat) : Prop where
  pos_le : forwardIp ≤ M
  step_lt : step < 67108864
  late : ∀ t, searchNb = 4294967233 + t → 67108863 * t ≤ forwardIp ∧ step = 67108863

namespace SearchRoom

variable {M forwardIp step searchNb : Nat}

/-- A search starts with a step of one and a count of at most `2 ^ 32 - 64`. -/
theorem start (hip : forwardIp ≤ M) (hnb : searchNb ≤ 4294967232) :
    SearchRoom M forwardIp 1 searchNb :=
  ⟨hip, by omega, fun t ht => absurd ht (by omega)⟩

/-- In a scan of fewer than `2 ^ 31` positions neither addition of a round wraps: a count
past `2 ^ 32 - 64` has paid for each round beyond it with `2 ^ 26 - 1` positions, and
there are fewer than 32 of those. -/
theorem fits (room : SearchRoom M forwardIp step searchNb) (hM : M < Nat.pow 2 31) :
    forwardIp + step < Nat.pow 2 32 ∧ searchNb + 1 < Nat.pow 2 32 := by
  have hM' : M < 2147483648 := hM
  have hpos := room.pos_le
  have hstep := room.step_lt
  refine ⟨show forwardIp + step < 4294967296 by omega, show searchNb + 1 < 4294967296 from ?_⟩
  by_cases hlate : 4294967232 < searchNb
  · have hpaid := (room.late (searchNb - 4294967233) (by omega)).1
    omega
  · omega

/-- A round that goes on keeps the invariant: the step becomes the old count over 64,
which is the largest step exactly when the count has passed `2 ^ 32 - 64`. -/
theorem next (room : SearchRoom M forwardIp step searchNb) (hnext : forwardIp + step ≤ M)
    (hnb : searchNb + 1 < Nat.pow 2 32) :
    SearchRoom M (forwardIp + step) (searchNb / 64) (searchNb + 1) := by
  have hnb' : searchNb + 1 < 4294967296 := hnb
  refine ⟨hnext, by omega, fun t ht => ?_⟩
  cases t with
  | zero => exact ⟨Nat.zero_le _, by omega⟩
  | succ t =>
    obtain ⟨hpaid, hlargest⟩ := room.late t (by omega)
    rw [Nat.mul_succ]
    exact ⟨by omega, by omega⟩

end SearchRoom

namespace FastInput

/-- From a state inside `SearchRoom`, the loop on machine words returns, and returns what
`search` returns. -/
theorem searchWords_eq_search (I : FastInput) (hsmall : I.scanEnd < Nat.pow 2 31)
    (table : FastTable) (forwardIp step : Nat) (searchNb : UInt32) (forwardH : Nat)
    (room : SearchRoom I.scanEnd forwardIp step searchNb.toNat) :
    I.searchWords table forwardIp step searchNb forwardH =
      some (I.search table forwardIp step searchNb.toNat forwardH) := by
  -- one case per round of the loop; `SearchRoom.next` carries the invariant to the next round
  fun_induction I.searchWords table forwardIp step searchNb forwardH
  case case1 hfit hend =>
    rw [search]
    simp only [hend, if_true]
  case case2 hfit hend matchPos table' hfound =>
    rw [search]
    dsimp only
    rw [if_neg hend, if_pos hfound]
  case case3 hfit hend matchPos nextH table' hmiss ih =>
    simp only [toNat_shiftRight_six, toNat_add_one_of_lt hfit.2] at ih ⊢
    rw [ih (room.next (Nat.le_of_not_lt hend) hfit.2)]
    conv_rhs => rw [search]
    dsimp only
    rw [if_neg hend, if_neg hmiss]
  case case4 hfit =>
    exact absurd (room.fits hsmall) hfit

end FastInput

/-- Every search the fast encoder starts, with any acceleration `a`, runs on machine
words without wrapping its count or its position, and ends as `search` does: past the end
of the scan, or at an earlier occurrence within reach whose four bytes are the same. The
encoder's scan of an input of `len ≤ maxInputSize` bytes ends at `len - mfLimit + 1`, and
each of its searches starts at a position inside the scan with the count
`a << 6`, wrapped, of an acceleration of at least one. -/
theorem search_counters_fit (I : FastInput) (hend : I.scanEnd ≤ maxInputSize - mfLimit + 1)
    (a : UInt32) (table : FastTable) (ip forwardH : Nat) (hip : ip ≤ I.scanEnd) :
    I.searchWords table ip 1 (max a 1 <<< 6) forwardH =
        some (I.search table ip 1 (max a.toNat 1 * 64 % Nat.pow 2 32) forwardH) ∧
      ∀ ip' matchPos,
        (I.search table ip 1 (max a.toNat 1 * 64 % Nat.pow 2 32) forwardH).2 =
            some (ip', matchPos) →
          matchPos < ip' ∧ ip' ≤ matchPos + maxDistance ∧ Agree I.src ip' matchPos minMatch := by
  have hcount : (max a 1 <<< 6).toNat = max a.toNat 1 * 64 % Nat.pow 2 32 := by
    rw [UInt32.toNat_shiftLeft, UInt32.toNat_max]
    simp [Nat.shiftLeft_eq]
  have hroom : SearchRoom I.scanEnd ip 1 (max a 1 <<< 6).toNat :=
    SearchRoom.start hip (toNat_shiftLeft_six_le _)
  have hsmall : I.scanEnd < Nat.pow 2 31 := by
    simp only [maxInputSize, mfLimit] at hend
    exact show I.scanEnd < 2147483648 by omega
  refine ⟨?_, fun ip' matchPos hfound => (FastInput.search_some hfound).2.2⟩
  rw [FastInput.searchWords_eq_search I hsmall table ip 1 _ forwardH hroom, hcount]

/-- An acceleration of `2 ^ 26` wraps the count to zero, and the search still returns. -/
theorem search_counters_fit_wrapped :
    (⟨⟨#[1, 2, 3, 4, 5, 6, 7, 8, 9, 10, 11, 12, 13]⟩, .bits32, 2, 8⟩ : FastInput).scanEnd ≤
        maxInputSize - mfLimit + 1 ∧
      1 ≤ (⟨⟨#[1, 2, 3, 4, 5, 6, 7, 8, 9, 10, 11, 12, 13]⟩, .bits32, 2, 8⟩ : FastInput).scanEnd ∧
      ((⟨⟨#[1, 2, 3, 4, 5, 6, 7, 8, 9, 10, 11, 12, 13]⟩, .bits32, 2, 8⟩ : FastInput).searchWords
          ⟨#[], 12⟩ 1 1 (max (67108864 : UInt32) 1 <<< 6) 0 =
        some ((⟨⟨#[1, 2, 3, 4, 5, 6, 7, 8, 9, 10, 11, 12, 13]⟩, .bits32, 2, 8⟩ : FastInput).search
          ⟨#[], 12⟩ 1 1 (max (67108864 : UInt32).toNat 1 * 64 % Nat.pow 2 32) 0) ∧
      ∀ ip' matchPos,
        ((⟨⟨#[1, 2, 3, 4, 5, 6, 7, 8, 9, 10, 11, 12, 13]⟩, .bits32, 2, 8⟩ : FastInput).search
            ⟨#[], 12⟩ 1 1 (max (67108864 : UInt32).toNat 1 * 64 % Nat.pow 2 32) 0).2 =
            some (ip', matchPos) →
          matchPos < ip' ∧ ip' ≤ matchPos + maxDistance ∧
            Agree ⟨#[1, 2, 3, 4, 5, 6, 7, 8, 9, 10, 11, 12, 13]⟩ ip' matchPos minMatch) :=
  ⟨by decide, by decide, search_counters_fit _ (by decide) 67108864 ⟨#[], 12⟩ 1 0 (by decide)⟩

end WireCodec.Lz4
