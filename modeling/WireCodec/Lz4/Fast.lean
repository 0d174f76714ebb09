import WireCodec.Lz4.Count
import WireCodec.Lz4.Sequence

/-!
# The fast encoder

One pass over the input with a table that remembers, for each hash of four bytes, the
last position where they were seen. Each position is looked up and then recorded; a hit
within `maxDistance` whose four bytes really match starts a match, which is extended
backwards over pending literals and forwards as far as the bytes agree. After a match the
encoder records the position two bytes before its end and tries the position right after
it at once, so runs of matches need no search.

Misses make the scan skip ahead: the step grows by one every 64 misses (scaled by the
acceleration), so data that does not compress is crossed quickly. The scan stops
`mfLimit` bytes before the end, and the rest of the input closes the block as literals.
-/

namespace WireCodec.Lz4

/-- The position table of the fast encoder: for each hash, the last position seen. -/
structure FastTable where
  slots : Array Nat
  log : Nat

namespace FastTable

/-- An empty table sized for an input of `len` bytes: a wider hash below `limit64K`. -/
def forInput (len : Nat) : FastTable :=
  let log := if len < limit64K then 13 else 12
  ⟨Array.replicate (Nat.pow 2 log) 0, log⟩

/-- The hash of the four bytes at `pos`. -/
def hashAt (t : FastTable) (src : ByteArray) (pos : Nat) : Nat :=
  hash4 (readU32 src pos) t.log

/-- The position recorded under hash `h`. -/
def get (t : FastTable) (h : Nat) : Nat :=
  t.slots.getD h 0

/-- Records `pos` under hash `h`, as a table of width `w` holds it. -/
def put (t : FastTable) (w : AddressWidth) (h pos : Nat) : FastTable :=
  { t with slots := t.slots.set! h (w.store pos) }

end FastTable

/-- The fixed facts of one run of the fast encoder. -/
structure FastInput where
  src : ByteArray
  width : AddressWidth
  /-- The scan stops once a look-ahead position passes this one. -/
  scanEnd : Nat
  /-- Matches end at or before this position. -/
  matchLimit : Nat

/-- A candidate `matchPos` for `ip` is usable when it lies before `ip`, within
`maxDistance`. -/
def FastInput.reaches (matchPos ip : Nat) : Bool :=
  matchPos < ip && ip ≤ matchPos + maxDistance

/-- Looks for the next match from `forwardIp` on, the hash of which is `forwardH`.
`step` is the distance to the next position tried, and every 64 tries without a match
(the count starts at `searchNb`) make the step one longer. Returns the updated table,
the position of the match and its earlier occurrence, or `none` when the scan ends. -/
def FastInput.search (I : FastInput) (table : FastTable) (forwardIp step searchNb forwardH : Nat) :
    FastTable × Option (Nat × Nat) :=
  let ip := forwardIp
  let next := ip + step
  if I.scanEnd < next then (table, none)
  else
    let matchPos := table.get forwardH
    let nextH := table.hashAt I.src next
    let table := table.put I.width forwardH ip
    if FastInput.reaches matchPos ip && readU32 I.src matchPos == readU32 I.src ip then
      (table, some (ip, matchPos))
    else I.search table next (searchNb / 64) (searchNb + 1) nextH
termination_by (I.scanEnd + 1 - forwardIp, if step = 0 then 65 - min searchNb 64 else 0)
decreasing_by
  by_cases hs : step = 0
  · subst hs
    apply Prod.Lex.right'
    · omega
    · by_cases h64 : searchNb / 64 = 0
      · simp only [h64, if_true]; omega
      · simp only [h64, if_false, if_true]; omega
  · apply Prod.Lex.left; omega

/-- Moves a match start back over pending literals while the preceding bytes agree. -/
def FastInput.extendBack (I : FastInput) (anchor ip matchPos : Nat) : Nat × Nat :=
  if anchor < ip ∧ 0 < matchPos ∧ I.src.get! (ip - 1) = I.src.get! (matchPos - 1) then
    I.extendBack anchor (ip - 1) (matchPos - 1)
  else (ip, matchPos)
termination_by ip

theorem FastInput.le_extendBack (I : FastInput) (anchor ip matchPos : Nat) (h : anchor ≤ ip) :
    anchor ≤ (I.extendBack anchor ip matchPos).1 := by
  fun_induction I.extendBack anchor ip matchPos with
  | case1 ip mp hc ih => exact ih (by omega)
  | case2 => exact h

/-- Where the fast encoder stands after writing a run of matches: either the scan is
over, or it goes on with this table. Both carry the block so far and the first position
not yet covered. -/
inductive FastStep where
  | done (e : Emitter) (anchor : Nat)
  | next (table : FastTable) (e : Emitter) (anchor : Nat)

/-- Writes the match at `ip` (earlier occurrence `matchPos`) with the literals from
`litStart`, then keeps writing while the position right after a match matches at once. -/
def FastInput.emitMatches (I : FastInput) (table : FastTable) (e : Emitter)
    (litStart ip matchPos : Nat) : Except Error FastStep :=
  let len := minMatch + matchCount I.width I.src (ip + minMatch) (matchPos + minMatch) I.matchLimit
  match e.writeSequence I.src litStart (ip - litStart) (ip - matchPos) len with
  | .error err => .error err
  | .ok e =>
    let ip' := ip + len
    if I.scanEnd ≤ ip' then .ok (.done e ip')
    else
      let table := table.put I.width (table.hashAt I.src (ip' - 2)) (ip' - 2)
      let h := table.hashAt I.src ip'
      let candidate := table.get h
      let table := table.put I.width h ip'
      if FastInput.reaches candidate ip' && readU32 I.src candidate == readU32 I.src ip' then
        I.emitMatches table e ip' ip' candidate
      else .ok (.next table e ip')
termination_by I.scanEnd - ip
decreasing_by simp only [minMatch] at *; omega

theorem FastInput.emitMatches_next {I : FastInput} {table : FastTable} {e : Emitter}
    {litStart ip matchPos : Nat} {t' : FastTable} {e' : Emitter} {a : Nat}
    (h : I.emitMatches table e litStart ip matchPos = .ok (.next t' e' a)) :
    ip < a ∧ a < I.scanEnd := by
  fun_induction I.emitMatches table e litStart ip matchPos generalizing t' e' a with
  | case1 => simp at h
  | case2 => simp at h
  | case3 =>
    rename_i ih
    obtain ⟨ha, hb⟩ := ih h
    simp +zetaDelta only [minMatch] at ha
    exact ⟨by omega, hb⟩
  | case4 =>
    simp only [Except.ok.injEq, FastStep.next.injEq] at h
    obtain ⟨-, -, rfl⟩ := h
    simp +zetaDelta only [minMatch] at *
    omega

theorem FastInput.le_of_search {I : FastInput} {table : FastTable}
    {forwardIp step searchNb forwardH ip matchPos : Nat}
    (h : (I.search table forwardIp step searchNb forwardH).2 = some (ip, matchPos)) :
    forwardIp ≤ ip := by
  fun_induction I.search table forwardIp step searchNb forwardH with
  | case1 => simp at h
  | case2 =>
    simp only [Option.some.injEq, Prod.mk.injEq] at h
    omega
  | case3 =>
    rename_i ih
    have := ih h
    omega

/-- The scan from `anchor`, the start of the pending literals, looking for matches from
`ip` on. Each round finds a match, writes it and the matches that follow it at once, and
starts again one byte after the last of them; when the scan ends the pending bytes close
the block. -/
def FastInput.scan (I : FastInput) (accel : Nat) (table : FastTable) (e : Emitter)
    (anchor ip : Nat) (_hip : anchor < ip) : Except Error ByteArray :=
  -- the hypothesis and the two equations are read only by the termination proof
  match _hs : (I.search table ip 1 (accel * 64 % Nat.pow 2 32) (table.hashAt I.src ip)) with
  | (_, none) => e.finish I.src anchor (I.src.size - anchor)
  | (table, some (ip', matchPos)) =>
    match _hm : I.emitMatches table e anchor (I.extendBack anchor ip' matchPos).1
        (I.extendBack anchor ip' matchPos).2 with
    | .error err => .error err
    | .ok (.done e a) => e.finish I.src a (I.src.size - a)
    | .ok (.next table e a) => I.scan accel table e a (a + 1) (Nat.lt_succ_self a)
termination_by I.scanEnd - anchor
decreasing_by
  have h₁ := FastInput.le_of_search (congrArg Prod.snd _hs)
  have h₂ := I.le_extendBack anchor ip' matchPos (by omega)
  have h₃ := FastInput.emitMatches_next _hm
  omega

/-- Compresses `src` into one block for a destination of `capacity` bytes with the fast
encoder; an acceleration of zero counts as one. -/
def compressFast (w : AddressWidth) (src : ByteArray) (capacity : Nat) (acceleration : UInt32) :
    Except Error ByteArray :=
  let len := src.size
  if len > maxInputSize then .error (.inputTooLarge len maxInputSize)
  else if len < minLength then (Emitter.empty capacity).finish src 0 len
  else
    let I : FastInput := ⟨src, w, len - mfLimit + 1, len - lastLiterals⟩
    let table := FastTable.forInput len
    I.scan (max acceleration.toNat 1) (table.put w (table.hashAt src 0) 0) (Emitter.empty capacity)
      0 1 Nat.zero_lt_one

end WireCodec.Lz4
