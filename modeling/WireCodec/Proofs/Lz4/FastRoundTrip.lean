import WireCodec.Lz4.Fast
import WireCodec.Proofs.Lz4.Emitter

/-!
# The fast encoder's blocks decode to its input

The fast encoder finds candidates through a hash table that may hold anything, but it
takes a candidate only after comparing four bytes within `maxDistance`, and it extends a
match backwards and forwards over compared bytes only (`FastInput.search_some`,
`FastInput.agree_extendBack`, `agree_matchCount`). Every match it writes therefore copies
bytes equal to the ones it stands for, and the writer always has room for it. The main
statement, `compressFast_roundTrip`, is that a destination of `compressBound` bytes
receives a block of at most that size that decodes to the input; neither the address
width nor the acceleration, wrapped or not, enters the argument.
-/

namespace WireCodec.Lz4

namespace FastInput

/-- A search that stops with a match stops at a position from its start to the end of
the scan, on an earlier occurrence within reach whose four bytes are the same. -/
theorem search_some {I : FastInput} {table : FastTable}
    {forwardIp step searchNb forwardH ip matchPos : Nat}
    (h : (I.search table forwardIp step searchNb forwardH).2 = some (ip, matchPos)) :
    forwardIp ≤ ip ∧ ip ≤ I.scanEnd ∧ matchPos < ip ∧ ip ≤ matchPos + maxDistance ∧
      Agree I.src ip matchPos minMatch := by
  fun_induction I.search table forwardIp step searchNb forwardH
  case case1 => cases h
  case case2 hnext hfound =>
    simp only [Option.some.injEq, Prod.mk.injEq] at h
    obtain ⟨rfl, rfl⟩ := h
    simp only [reaches, Bool.and_eq_true, decide_eq_true_eq, beq_iff_eq] at hfound
    obtain ⟨⟨hlt, hle⟩, heq⟩ := hfound
    exact ⟨Nat.le_refl _, by omega, hlt, hle, (agree_of_readU32 heq).symm⟩
  case case3 ih =>
    obtain ⟨hfrom, hto, hlt, hle, hagree⟩ := ih h
    exact ⟨by omega, hto, hlt, hle, hagree⟩

/-- Extending a match backwards keeps its offset and covers agreeing bytes only. -/
theorem agree_extendBack {I : FastInput} {anchor ip matchPos p q : Nat} (h : anchor ≤ ip)
    (hpq : I.extendBack anchor ip matchPos = (p, q)) :
    anchor ≤ p ∧ p ≤ ip ∧ q ≤ matchPos ∧ ip - p = matchPos - q ∧ Agree I.src p q (ip - p) := by
  fun_induction I.extendBack anchor ip matchPos with
  | case1 ip matchPos hc ih =>
    obtain ⟨hap, hpi, hqm, hdiff, hagree⟩ := ih (by omega) hpq
    refine ⟨hap, by omega, by omega, by omega, ?_⟩
    -- one more byte, the one before the old start
    have hlast : Agree I.src (p + (ip - 1 - p)) (q + (ip - 1 - p)) 1 := by
      intro j hj
      rw [show p + (ip - 1 - p) + j = ip - 1 by omega,
        show q + (ip - 1 - p) + j = matchPos - 1 by omega]
      exact hc.2.2
    rw [show ip - p = ip - 1 - p + 1 by omega]
    exact hagree.append hlast
  | case2 =>
    cases hpq
    exact ⟨h, Nat.le_refl _, Nat.le_refl _, by omega, fun j hj => absurd hj (by omega)⟩

/-- The fixed facts of a fast encoder run: a match found before the end of the scan
has room for its four bytes before the match limit, and the limit leaves the last
literals. -/
structure Bounds (I : FastInput) : Prop where
  scanEnd_le : I.scanEnd + minMatch ≤ I.matchLimit
  matchLimit_le : I.matchLimit + lastLiterals ≤ I.src.size

/-- A match the encoder writes, starting on four agreeing bytes within reach: the writer
takes it, extended as far as the counter goes. -/
theorem writeSequence_match {I : FastInput} (hI : I.Bounds) {e : Emitter}
    {litStart ip matchPos : Nat} (he : e.Encodes I.src.data.toList litStart)
    (hls : litStart ≤ ip) (hmp : matchPos < ip) (hreach : ip ≤ matchPos + maxDistance)
    (hfour : Agree I.src ip matchPos minMatch) (hip : ip ≤ I.scanEnd) :
    ∃ e', e.writeSequence I.src litStart (ip - litStart) (ip - matchPos)
        (minMatch + matchCount I.width I.src (ip + minMatch) (matchPos + minMatch) I.matchLimit) =
          .ok e' ∧
      e'.Encodes I.src.data.toList
        (ip + (minMatch + matchCount I.width I.src (ip + minMatch) (matchPos + minMatch)
          I.matchLimit)) := by
  have hcount := @matchCount_le I.width I.src (ip + minMatch) (matchPos + minMatch) I.matchLimit
    (by have := hI.scanEnd_le; omega)
  have hagree := hfour.append (agree_matchCount I.width I.src (ip + minMatch)
    (matchPos + minMatch) I.matchLimit)
  have hlimit := hI.matchLimit_le
  exact he.writeSequence rfl hls (by omega) (by omega) (by omega) (Nat.le_add_right _ _)
    (by rw [ByteArray.length_data_toList]; omega)
    (by rw [Nat.sub_sub_self (Nat.le_of_lt hmp)]; exact hagree)

end FastInput

/-- Where a run of matches leaves the scan encodes the input up to the position it
names. -/
def FastStep.Encodes (t : List UInt8) : FastStep → Prop
  | .done e a => e.Encodes t a
  | .next _ e a => e.Encodes t a

namespace FastInput

/-- A run of matches, each found right after the previous one, is written whole. -/
theorem emitMatches_encodes {I : FastInput} (hI : I.Bounds) {table : FastTable} {e : Emitter}
    {litStart ip matchPos : Nat} (he : e.Encodes I.src.data.toList litStart)
    (hls : litStart ≤ ip) (hmp : matchPos < ip) (hreach : ip ≤ matchPos + maxDistance)
    (hfour : Agree I.src ip matchPos minMatch) (hip : ip ≤ I.scanEnd) :
    ∃ step, I.emitMatches table e litStart ip matchPos = .ok step ∧
      step.Encodes I.src.data.toList := by
  fun_induction I.emitMatches table e litStart ip matchPos
  case case1 hw' =>
    obtain ⟨e', hw, -⟩ := writeSequence_match hI he hls hmp hreach hfour hip
    rw [hw] at hw'
    cases hw'
  case case2 hw' _ _ =>
    obtain ⟨e', hw, he'⟩ := writeSequence_match hI he hls hmp hreach hfour hip
    rw [hw] at hw'
    cases hw'
    exact ⟨_, rfl, he'⟩
  case case3 hw' _ hnot _ _ _ _ hfound ih =>
    obtain ⟨e', hw, he'⟩ := writeSequence_match hI he hls hmp hreach hfour hip
    rw [hw] at hw'
    cases hw'
    -- the next match starts right where this one ends, on four agreeing bytes
    simp only [reaches, Bool.and_eq_true, decide_eq_true_eq, beq_iff_eq] at hfound
    obtain ⟨⟨hlt, hle⟩, heq⟩ := hfound
    exact ih he' (Nat.le_refl _) hlt hle (agree_of_readU32 heq).symm (by omega)
  case case4 hw' _ _ _ _ _ _ _ =>
    obtain ⟨e', hw, he'⟩ := writeSequence_match hI he hls hmp hreach hfour hip
    rw [hw] at hw'
    cases hw'
    exact ⟨_, rfl, he'⟩

/-- A match a search finds, moved back over agreeing bytes, starts between the pending
literals and where it was found, on four agreeing bytes within reach. -/
theorem extendBack_of_search {I : FastInput} {table : FastTable}
    {anchor ip step searchNb forwardH ip' matchPos : Nat} (hip : anchor < ip)
    (hs : (I.search table ip step searchNb forwardH).2 = some (ip', matchPos)) :
    anchor ≤ (I.extendBack anchor ip' matchPos).1 ∧ (I.extendBack anchor ip' matchPos).1 ≤ ip' ∧
      (I.extendBack anchor ip' matchPos).2 < (I.extendBack anchor ip' matchPos).1 ∧
      (I.extendBack anchor ip' matchPos).1 ≤ (I.extendBack anchor ip' matchPos).2 + maxDistance ∧
      Agree I.src (I.extendBack anchor ip' matchPos).1 (I.extendBack anchor ip' matchPos).2
        minMatch := by
  obtain ⟨hfrom, -, hlt, hle, hfour⟩ := search_some hs
  obtain ⟨hap, hpi, hqm, hdiff, hback⟩ :=
    @agree_extendBack I anchor ip' matchPos _ _ (by omega) rfl
  -- the bytes moved over and the four found agree, so the first four at the new start do
  have hjoin : Agree I.src (I.extendBack anchor ip' matchPos).1 (I.extendBack anchor ip' matchPos).2
      (ip' - (I.extendBack anchor ip' matchPos).1 + minMatch) := by
    refine hback.append ?_
    rw [Nat.add_sub_cancel' hpi, show (I.extendBack anchor ip' matchPos).2 +
      (ip' - (I.extendBack anchor ip' matchPos).1) = matchPos by omega]
    exact hfour
  exact ⟨hap, hpi, by omega, by omega, hjoin.mono (Nat.le_add_left _ _)⟩

/-- What follows a successful search: the match, moved back over agreeing bytes, and the
matches right after it are written. -/
theorem emitMatches_of_search {I : FastInput} (hI : I.Bounds) {table table' : FastTable}
    {e : Emitter} {anchor ip step searchNb forwardH ip' matchPos : Nat} (hip : anchor < ip)
    (he : e.Encodes I.src.data.toList anchor)
    (hs : (I.search table ip step searchNb forwardH).2 = some (ip', matchPos)) :
    ∃ r, I.emitMatches table' e anchor (I.extendBack anchor ip' matchPos).1
      (I.extendBack anchor ip' matchPos).2 = .ok r ∧ r.Encodes I.src.data.toList := by
  have hto := (search_some hs).2.1
  obtain ⟨hap, hpi, hlt, hle, hfour⟩ := extendBack_of_search hip hs
  exact emitMatches_encodes hI he hap hlt hle hfour (by omega)

/-- The scan from `anchor` writes every match it finds and closes the block with the
rest of the input. -/
theorem scan_encodes {I : FastInput} (hI : I.Bounds) {accel : Nat} {table : FastTable}
    {e : Emitter} {anchor ip : Nat} (hip : anchor < ip) (he : e.Encodes I.src.data.toList anchor) :
    ∃ out, I.scan accel table e anchor ip hip = .ok out ∧
      out.size ≤ I.src.size + I.src.size / 255 + 16 ∧ decompress out I.src.size = .ok I.src := by
  fun_induction I.scan accel table e anchor ip hip
  case case1 => exact he.finish rfl
  case case2 _ _ _ _ hip _ _ _ hs _ hm =>
    obtain ⟨r, hr, -⟩ := emitMatches_of_search hI hip he (congrArg Prod.snd hs)
    rw [hr] at hm
    cases hm
  case case3 _ _ _ _ hip _ _ _ hs _ _ hm =>
    obtain ⟨r, hr, henc⟩ := emitMatches_of_search hI hip he (congrArg Prod.snd hs)
    rw [hr] at hm
    cases hm
    exact Emitter.Encodes.finish henc rfl
  case case4 _ _ _ _ hip _ _ _ hs _ _ _ hm ih =>
    obtain ⟨r, hr, henc⟩ := emitMatches_of_search hI hip he (congrArg Prod.snd hs)
    rw [hr] at hm
    cases hm
    exact ih henc

end FastInput

/-- Into a destination with room for the input, a byte per 255 of it and 16 more, the
fast encoder writes a block of at most that size, which decodes to the input. -/
theorem compressFast_fits (w : AddressWidth) (src : ByteArray) (capacity : Nat)
    (acceleration : UInt32) (hsize : src.size ≤ maxInputSize)
    (hcap : src.size + src.size / 255 + 16 ≤ capacity) :
    ∃ block, compressFast w src capacity acceleration = .ok block ∧
      block.size ≤ src.size + src.size / 255 + 16 ∧ decompress block src.size = .ok src := by
  have he := @Emitter.encodes_empty src.data.toList capacity
    (by rw [ByteArray.length_data_toList]; exact hcap)
  unfold compressFast
  rw [if_neg (by omega)]
  dsimp only
  by_cases hshort : src.size < minLength
  · rw [if_pos hshort]
    exact Emitter.finish_literals hcap
  · rw [if_neg hshort]
    unfold minLength mfLimit at hshort
    refine FastInput.scan_encodes ⟨?_, ?_⟩ _ he
    · show src.size - mfLimit + 1 + minMatch ≤ src.size - lastLiterals
      unfold mfLimit minMatch lastLiterals
      omega
    · show src.size - lastLiterals + lastLiterals ≤ src.size
      unfold lastLiterals
      omega

/-- The fast encoder fills a destination of `compressBound` bytes or more with a block
of at most that size, for every input a block may hold, every address width and every
acceleration; the block decodes to the input. -/
theorem compressFast_roundTrip (w : AddressWidth) (src : ByteArray) (capacity : Nat)
    (acceleration : UInt32) (hsize : src.size ≤ maxInputSize)
    (hcap : compressBound src.size ≤ capacity) :
    ∃ block, compressFast w src capacity acceleration = .ok block ∧
      block.size ≤ compressBound src.size ∧ decompress block src.size = .ok src := by
  rw [compressBound_eq hsize] at hcap ⊢
  exact compressFast_fits w src capacity acceleration hsize hcap

/-- Sixteen bytes of a repeated pair, at no acceleration, into a destination of exactly
`compressBound` bytes. -/
theorem compressFast_roundTrip_pairs :
    (⟨#[97, 98, 97, 98, 97, 98, 97, 98, 97, 98, 97, 98, 97, 98, 97, 98]⟩ : ByteArray).size ≤
        maxInputSize ∧
      compressBound 16 ≤ 32 ∧
      ∃ block, compressFast .bits32
          ⟨#[97, 98, 97, 98, 97, 98, 97, 98, 97, 98, 97, 98, 97, 98, 97, 98]⟩ 32 0 = .ok block ∧
        block.size ≤ compressBound 16 ∧
        decompress block 16 = .ok ⟨#[97, 98, 97, 98, 97, 98, 97, 98, 97, 98, 97, 98, 97, 98, 97, 98]⟩ :=
  ⟨by decide, by decide, compressFast_roundTrip .bits32 _ 32 0 (by decide) (by decide)⟩

end WireCodec.Lz4
