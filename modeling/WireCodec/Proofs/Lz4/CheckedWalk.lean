import Mathlib
import WireCodec.Proofs.Lz4.CheckedReads
import WireCodec.Proofs.Lz4.HighRoundTrip

/-!
# The chain walk on checked machine operations

`HashChains.findWiderMatch` computes with natural numbers and reads with `get!`, so a
subtraction below zero or a read past the window would go unnoticed. Here the finder runs
again with every subtraction, table slot and window read checked
(`HashChains.findWiderMatch?`), counting the candidates the walk examines; a step that
would fault stops it with `none`.

The candidates come from tables that may hold anything, so the walk compares each with
`lowest` and `ip` before it subtracts or reads. What remains are the relations the source
relies on: the backward extension stays above `lowLimit`, so `candidate - back` and the two
byte positions before the match never go below zero; and in the jump over a repeated run,
the count `back` of pattern bytes below `next` stops at `lowest`, so the jump forward
`next + forward - runLen`, taken only when `runLen ≤ back + forward`, and the jump back
`next - aligned` with `aligned ≤ back` stay above zero, while `back - 1` is taken only when
rotating the pattern by `back` changes it, which a rotation by zero never does.

For a finder with tables of their sizes (`HashChains.Sound`) searched inside its window
(`Walk.InWindow`), the checked walk returns what the model returns after examining at most
the candidates it was allowed (`HashChains.walk?_eq`).
-/

namespace WireCodec.Lz4

/-- A hash of the chain heads indexes the head table. -/
theorem hash4_lt (word : UInt32) : hash4 word chainHashLog < Nat.pow 2 chainHashLog := by
  have hword : (word * prime32).toNat < 4294967296 := (word * prime32).toNat_lt
  have hshift : (32 - chainHashLog).toUInt32.toNat % 32 = 17 := rfl
  rw [hash4, UInt32.toNat_shiftRight, hshift, Nat.shiftRight_eq_div_pow]
  show (word * prime32).toNat / 131072 < 32768
  omega

namespace HashChains

/-- A finder whose tables have the sizes the source allocates, and whose positions to
index next, lowest match source and block start lie in its window. -/
structure Sound (c : HashChains) : Prop where
  head_size : c.head.size = Nat.pow 2 chainHashLog
  chain_size : c.chain.size = 65536
  base_le_next : c.base ≤ c.nextToUpdate
  base_le_lowLimit : c.base ≤ c.lowLimit
  base_le_dictLimit : c.base ≤ c.dictLimit

/-- A walk inside the window: the searched position and the lowest candidate lie in the
block, four bytes before the limit, which lies in the window. -/
structure Walk.InWindow (W : Walk) (c : HashChains) : Prop where
  base_le_lowLimit : c.base ≤ c.lowLimit
  lowLimit_le : c.lowLimit ≤ W.lowest
  base_le_low : c.base ≤ W.low
  low_le_ip : W.low ≤ W.ip
  reach_limit : W.ip + minMatch ≤ W.limit
  limit_le : W.limit ≤ c.base + W.window.size
  chain_size : c.chain.size = 65536

/-- The bounds every checked read of a walk rests on: the block lies above the base of the
window, and the searched word ends before the limit, inside the window. -/
theorem Walk.InWindow.bounds {W : Walk} {c : HashChains} (hW : W.InWindow c) :
    c.base ≤ c.lowLimit ∧ c.lowLimit ≤ W.lowest ∧ W.ip + 4 ≤ W.limit ∧
      W.limit ≤ c.base + W.window.size :=
  ⟨hW.base_le_lowLimit, hW.lowLimit_le, hW.reach_limit, hW.limit_le⟩

/-! ## Indexing -/

/-- `insertFrom` on the machine: the hash reads the word at the position's offset in the
window, and the table reads and writes are checked. -/
def insertFrom? (c : HashChains) (window : ByteArray) (index target : Nat) :
    Option HashChains :=
  if index < target then
    (checkedSub index c.base).bind fun offset =>
    (wordAt? window offset).bind fun word =>
    (slotAt? c.head (hash4 word chainHashLog)).bind fun previous =>
    (setAt? c.chain (index % 65536) (min (index - previous) maxDistance)).bind fun chain =>
    (setAt? c.head (hash4 word chainHashLog) (c.width.store index)).bind fun head =>
      { c with chain, head }.insertFrom? window (index + 1) target
  else some c
termination_by target - index

/-- `insert` on the machine. -/
def insert? (c : HashChains) (window : ByteArray) (target : Nat) : Option HashChains :=
  if c.nextToUpdate < target then
    (c.insertFrom? window c.nextToUpdate target).map fun c' => { c' with nextToUpdate := target }
  else some c

/-! ## The walk -/

/-- The byte `back + 1` places before the logical position `pos`, in a window starting at
logical position `base`: the offset `pos - base - back - 1` by checked subtractions, then a
checked read. -/
def backByte? (window : ByteArray) (pos base back : Nat) : Option UInt8 :=
  (checkedSub pos base).bind fun offset =>
  (checkedSub offset back).bind fun offset =>
  (checkedSub offset 1).bind fun offset =>
    byteAt? window offset

/-- `backCount` on the machine. As in the source, `candidate - back` is compared with the
low limit before the bytes before the two positions are read. -/
def backCount? (c : HashChains) (W : Walk) (candidate back : Nat) : Option Nat :=
  if back < W.ip - W.low then
    (checkedSub candidate back).bind fun reach =>
      if c.lowLimit < reach then
        (backByte? W.window W.ip c.base back).bind fun x =>
        (backByte? W.window candidate c.base back).bind fun y =>
          if x = y then c.backCount? W candidate (back + 1) else some back
      else some back
  else some back
termination_by W.ip - W.low - back

/-- One candidate examined on the machine: `some (forward, m)` when its four bytes are the
pattern and its extension `m` is longer than `bestLen`. -/
def examine? (c : HashChains) (W : Walk) (candidate bestLen : Nat) :
    Option (Option (Nat × ChainMatch)) :=
  (checkedSub candidate c.base).bind fun offset =>
  (wordAt? W.window offset).bind fun word =>
    if word = W.pattern then
      (checkedSub W.ip c.base).bind fun ipOffset =>
      (checkedSub W.limit c.base).bind fun limitOffset =>
      (matchCount? c.width W.window (ipOffset + minMatch) (offset + minMatch) limitOffset).bind
        fun count =>
      (c.backCount? W candidate 0).bind fun back =>
        if bestLen < minMatch + count + back then
          (checkedSub W.ip back).bind fun start =>
          (checkedSub W.ip candidate).map fun distance =>
            some (minMatch + count, ⟨start, distance, minMatch + count + back⟩)
        else some none
    else some none

/-- What the walk knows about a run at the searched position once a link of distance one
is met: an untested run is measured on the machine. -/
def repeatKnown? (c : HashChains) (W : Walk) : Repeat → Option Repeat
  | .untested =>
    if isRepeating W.pattern then
      (checkedSub W.ip c.base).bind fun ipOffset =>
      (checkedSub W.limit c.base).bind fun limitOffset =>
      (patternCount? c.width W.window (ipOffset + minMatch) limitOffset W.pattern).map fun n =>
        .confirmed (minMatch + n)
    else some .rejected
  | .confirmed runLen => some (.confirmed runLen)
  | .rejected => some .rejected

/-- The jump over a repeated run from `next`, whose four bytes are the pattern, for a run of
`runLen` bytes at the searched position: forward to where the rest of the run lines up
with it, or back to the start of the run below `next`, by a whole number of pattern
periods. -/
def runJump? (c : HashChains) (W : Walk) (next runLen : Nat) : Option Nat :=
  (checkedSub next c.base).bind fun offset =>
  (checkedSub W.limit c.base).bind fun limitOffset =>
  (patternCount? c.width W.window (offset + minMatch) limitOffset W.pattern).bind fun count =>
  (checkedSub W.lowest c.base).bind fun lowestOffset =>
  (reversePatternCount? W.window offset lowestOffset W.pattern).bind fun back =>
    if runLen ≤ back + (minMatch + count) ∧ minMatch + count ≤ runLen then
      checkedSub (next + (minMatch + count)) runLen
    else
      (if rotatePattern back W.pattern = W.pattern then some back else checkedSub back 1).bind
        fun aligned => checkedSub next aligned

/-- The step from `next` once the run at the searched position is known to be `runLen`
long: a jump when the four bytes at `next` are the pattern, else `next` itself. -/
def runStep? (c : HashChains) (W : Walk) (next runLen : Nat) (rep : Repeat) :
    Option (Option (Nat × Repeat)) :=
  if W.lowest ≤ next then
    (checkedSub next c.base).bind fun offset =>
    (wordAt? W.window offset).bind fun word =>
      if word = W.pattern then (c.runJump? W next runLen).map fun next => some (next, rep)
      else some (some (next, rep))
  else some (some (next, rep))

/-- `nextCandidate` on the machine: the chain slot is checked, and so are the subtractions
and reads of the jump over a repeated run. -/
def nextCandidate? (c : HashChains) (W : Walk) (candidate : Nat) (rep : Repeat) :
    Option (Option (Nat × Repeat)) :=
  (slotAt? c.chain (candidate % 65536)).bind fun delta =>
    if delta = 0 ∨ candidate < delta then some none
    else
      (checkedSub candidate delta).bind fun next =>
        if delta ≠ 1 then some (some (next, rep))
        else
          (c.repeatKnown? W rep).bind fun rep =>
            match rep with
            | .confirmed runLen => c.runStep? W next runLen rep
            | .untested => some (some (next, rep))
            | .rejected => some (some (next, rep))

/-- The walk on the machine, returning with its result how many candidates it examined. -/
def walk? (c : HashChains) (W : Walk) (candidate : Nat) (rep : Repeat) (bestLen : Nat)
    (best : Option ChainMatch) : Nat → Option (Option ChainMatch × Nat)
  | 0 => some (best, 0)
  | attempts + 1 =>
    if W.lowest ≤ candidate ∧ candidate < W.ip then
      (c.examine? W candidate bestLen).bind fun found =>
        match found with
        | none =>
          (c.nextCandidate? W candidate rep).bind fun next =>
            match next with
            | some (next, rep) =>
              (c.walk? W next rep bestLen best attempts).map (Prod.map id Nat.succ)
            | none => some (best, 1)
        | some (forward, m) =>
          if W.limit ≤ W.ip + forward then some (some m, 1)
          else
            (c.nextCandidate? W candidate rep).bind fun next =>
              match next with
              | some (next, rep) =>
                (c.walk? W next rep m.len (some m) attempts).map (Prod.map id Nat.succ)
              | none => some (some m, 1)
    else some (best, 0)

/-- `findWiderMatch` on the machine: indexing, the look-back `ip - low`, the word at `ip`
and the head slot are checked before the walk. -/
def findWiderMatch? (c : HashChains) (window : ByteArray) (ip low limit longest : Nat) :
    Option ((HashChains × Option ChainMatch) × Nat) :=
  (c.insert? window ip).bind fun c =>
    if low ≤ ip then
      (checkedSub ip c.base).bind fun offset =>
      (wordAt? window offset).bind fun pattern =>
      (slotAt? c.head (hash4 pattern chainHashLog)).bind fun candidate =>
        (c.walk? ⟨window, ip, low, limit, max c.lowLimit (ip - maxDistance), pattern⟩ candidate
          .untested longest none (levelParams c.level).attempts).map fun r => ((c, r.1), r.2)
    else none

/-! ## Indexing keeps the tables' sizes, and is safe in the window -/

section Indexing

variable (window : ByteArray)

theorem insertFrom_sizes (c : HashChains) (index target : Nat) :
    (c.insertFrom window index target).head.size = c.head.size ∧
      (c.insertFrom window index target).chain.size = c.chain.size ∧
      (c.insertFrom window index target).base = c.base ∧
      (c.insertFrom window index target).nextToUpdate = c.nextToUpdate ∧
      (c.insertFrom window index target).dictLimit = c.dictLimit ∧
      (c.insertFrom window index target).level = c.level := by
  fun_induction c.insertFrom window index target with
  | case1 c index _ _ _ _ ih =>
    obtain ⟨hhead, hchain, hbase, hnext, hdict, hlevel⟩ := ih
    rw [hhead, hchain, hbase, hnext, hdict, hlevel, Array.size_set!, Array.size_set!]
    exact ⟨rfl, rfl, rfl, rfl, rfl, rfl⟩
  | case2 => exact ⟨rfl, rfl, rfl, rfl, rfl, rfl⟩

theorem insert_level (c : HashChains) (target : Nat) : (c.insert window target).level = c.level := by
  rw [HashChains.insert]
  split
  · exact (insertFrom_sizes window c c.nextToUpdate target).2.2.2.2.2
  · rfl

/-- Indexing keeps a finder sound: it writes inside the tables and moves `nextToUpdate`
forward. -/
theorem Sound.insert {c : HashChains} (hc : c.Sound) (target : Nat) :
    (c.insert window target).Sound := by
  rw [HashChains.insert]
  split
  · rename_i hlt
    obtain ⟨hhead, hchain, hbase, -, hdict, -⟩ := insertFrom_sizes window c c.nextToUpdate target
    have hlow := (insertFrom_frame c window c.nextToUpdate target).2
    exact ⟨by rw [hhead, hc.head_size], by rw [hchain, hc.chain_size],
      by dsimp only; rw [hbase]; exact Nat.le_of_lt (Nat.lt_of_le_of_lt hc.base_le_next hlt),
      by dsimp only; rw [hbase, hlow]; exact hc.base_le_lowLimit,
      by dsimp only; rw [hbase, hdict]; exact hc.base_le_dictLimit⟩
  · exact hc

/-- Indexing from a position in the window up to a target three bytes before its end reads
and writes nothing outside the window and the tables. -/
theorem insertFrom?_eq (c : HashChains) (index target : Nat)
    (hhead : c.head.size = Nat.pow 2 chainHashLog) (hchain : c.chain.size = 65536)
    (hbase : c.base ≤ index) (hend : target + 3 ≤ c.base + window.size) :
    c.insertFrom? window index target = some (c.insertFrom window index target) := by
  -- the tables keep their sizes along the run, which the induction carries
  revert hhead hchain hbase hend
  fun_induction c.insertFrom window index target with
  | case1 c index hlt _ _ _ ih =>
    intro hhead hchain hbase hend
    have hslot := hash4_lt (readU32 window (index - c.base))
    rw [insertFrom?, if_pos hlt, checkedSub_of_le hbase, Option.bind_some,
      wordAt?_of_le (by omega), Option.bind_some, slotAt?_of_lt (by rw [hhead]; exact hslot),
      Option.bind_some, setAt?_of_lt _ (by rw [hchain]; exact Nat.mod_lt _ (by omega)),
      Option.bind_some, setAt?_of_lt _ (by rw [hhead]; exact hslot), Option.bind_some]
    exact ih (by rw [Array.size_set!]; exact hhead) (by rw [Array.size_set!]; exact hchain)
      (Nat.le_succ_of_le hbase) hend
  | case2 c index hge =>
    intro _ _ _ _
    rw [insertFrom?, if_neg hge]

theorem insert?_eq {c : HashChains} (hc : c.Sound) (target : Nat)
    (hend : target + 3 ≤ c.base + window.size) :
    c.insert? window target = some (c.insert window target) := by
  rw [insert?, insert]
  split
  · rw [insertFrom?_eq window c _ target hc.head_size hc.chain_size hc.base_le_next hend,
      Option.map_some]
  · rfl

end Indexing

/-! ## The checked walk computes the model's -/

section Walk

variable {c : HashChains} {W : Walk}

theorem backByte?_eq {window : ByteArray} {pos base back : Nat} (h : base + back < pos)
    (hpos : pos ≤ base + window.size) :
    backByte? window pos base back = some (window.get! (pos - base - back - 1)) := by
  rw [backByte?, checkedSub_of_le (by omega), Option.bind_some, checkedSub_of_le (by omega),
    Option.bind_some, checkedSub_of_le (by omega), Option.bind_some, byteAt?_of_lt (by omega)]

theorem backCount?_eq (hW : W.InWindow c) {candidate : Nat} (hlt : candidate < W.ip) (back : Nat)
    (hlow : c.lowLimit + back ≤ candidate) :
    c.backCount? W candidate back = some (c.backCount W candidate back) := by
  obtain ⟨hbase, -, hreach, hlimit⟩ := hW.bounds
  have hlowIp := hW.low_le_ip
  have hbaseLow := hW.base_le_low
  -- the extension keeps `lowLimit + back ≤ candidate`, which makes every subtraction safe
  fun_induction c.backCount W candidate back with
  | case1 back hc ih =>
    rw [backCount?, if_pos hc.1, checkedSub_of_le (by omega), Option.bind_some, if_pos hc.2.1,
      backByte?_eq (by omega) (by omega), Option.bind_some,
      backByte?_eq (by omega) (by omega), Option.bind_some,
      if_pos hc.2.2, ih (by omega)]
  | case2 back hc =>
    rw [backCount?]
    by_cases hback : back < W.ip - W.low
    · rw [if_pos hback, checkedSub_of_le (by omega), Option.bind_some]
      by_cases hreach' : c.lowLimit < candidate - back
      · rw [if_pos hreach', backByte?_eq (by omega) (by omega),
          Option.bind_some, backByte?_eq (by omega) (by omega),
          Option.bind_some, if_neg fun heq => hc ⟨hback, hreach', heq⟩]
      · rw [if_neg hreach']
    · rw [if_neg hback]

theorem examine?_eq (hW : W.InWindow c) {candidate : Nat}
    (hcand : W.lowest ≤ candidate ∧ candidate < W.ip) (bestLen : Nat) :
    c.examine? W candidate bestLen =
      some (if readU32 W.window (candidate - c.base) = W.pattern then
        if bestLen < minMatch + matchCount c.width W.window (W.ip - c.base + minMatch)
            (candidate - c.base + minMatch) (W.limit - c.base) + c.backCount W candidate 0 then
          some (minMatch + matchCount c.width W.window (W.ip - c.base + minMatch)
              (candidate - c.base + minMatch) (W.limit - c.base),
            ⟨W.ip - c.backCount W candidate 0, W.ip - candidate,
              minMatch + matchCount c.width W.window (W.ip - c.base + minMatch)
                (candidate - c.base + minMatch) (W.limit - c.base) + c.backCount W candidate 0⟩)
        else none
      else none) := by
  obtain ⟨hbase, hlowest, hreach, hlimit⟩ := hW.bounds
  have hlowIp := hW.low_le_ip
  rw [examine?, checkedSub_of_le (by omega), Option.bind_some, wordAt?_of_le (by omega),
    Option.bind_some]
  by_cases hpat : readU32 W.window (candidate - c.base) = W.pattern
  · have hback := c.backCount_le W candidate 0 (Nat.zero_le _)
    rw [if_pos hpat, if_pos hpat, checkedSub_of_le (by omega), Option.bind_some,
      checkedSub_of_le (by omega), Option.bind_some,
      matchCount?_eq c.width (by omega) (by omega), Option.bind_some,
      backCount?_eq hW hcand.2 0 (by omega), Option.bind_some]
    by_cases hlonger : bestLen < minMatch + matchCount c.width W.window (W.ip - c.base + minMatch)
        (candidate - c.base + minMatch) (W.limit - c.base) + c.backCount W candidate 0
    · rw [if_pos hlonger, if_pos hlonger, checkedSub_of_le (by omega), Option.bind_some,
        checkedSub_of_le (by omega), Option.map_some]
    · rw [if_neg hlonger, if_neg hlonger]
  · rw [if_neg hpat, if_neg hpat]

theorem rotatePattern_zero (pattern : UInt32) : rotatePattern 0 pattern = pattern := by
  simp [rotatePattern]

/-- The jump over a run from `next` is the model's: the count of pattern bytes below `next`
stops at `lowest`, so neither jump goes below zero, and `back - 1` is only taken for a
`back` that is not a multiple of four. -/
theorem runJump?_eq (hW : W.InWindow c) {next : Nat} (hlo : W.lowest ≤ next)
    (hnext : next < W.ip) (runLen : Nat) :
    c.runJump? W next runLen =
      some (if runLen ≤ reversePatternCount W.window (next - c.base) (W.lowest - c.base) W.pattern +
            (minMatch + patternCount c.width W.window (next - c.base + minMatch) (W.limit - c.base)
              W.pattern) ∧
          minMatch + patternCount c.width W.window (next - c.base + minMatch) (W.limit - c.base)
            W.pattern ≤ runLen then
        next + (minMatch + patternCount c.width W.window (next - c.base + minMatch)
          (W.limit - c.base) W.pattern) - runLen
      else
        next - if rotatePattern (reversePatternCount W.window (next - c.base) (W.lowest - c.base)
              W.pattern) W.pattern = W.pattern then
            reversePatternCount W.window (next - c.base) (W.lowest - c.base) W.pattern
          else reversePatternCount W.window (next - c.base) (W.lowest - c.base) W.pattern - 1) := by
  obtain ⟨hbase, hlowest, hreach, hlimit⟩ := hW.bounds
  have hback : reversePatternCount W.window (next - c.base) (W.lowest - c.base) W.pattern ≤
      next - W.lowest := by
    have := @reversePatternCount_le W.window (W.lowest - c.base) W.pattern (next - c.base) (by omega)
    omega
  rw [runJump?, checkedSub_of_le (by omega), Option.bind_some, checkedSub_of_le (by omega),
    Option.bind_some, patternCount?_eq c.width (by omega), Option.bind_some,
    checkedSub_of_le (by omega), Option.bind_some, reversePatternCount?_eq (by omega) (by omega),
    Option.bind_some]
  generalize reversePatternCount W.window (next - c.base) (W.lowest - c.base) W.pattern = back
    at hback ⊢
  generalize minMatch + patternCount c.width W.window (next - c.base + minMatch) (W.limit - c.base)
    W.pattern = forward
  by_cases hjump : runLen ≤ back + forward ∧ forward ≤ runLen
  · rw [if_pos hjump, if_pos hjump, checkedSub_of_le (by omega)]
  · rw [if_neg hjump, if_neg hjump]
    by_cases hrot : rotatePattern back W.pattern = W.pattern
    · rw [if_pos hrot, if_pos hrot, Option.bind_some, checkedSub_of_le (by omega)]
    · -- a rotation by zero leaves the pattern as it is, so here `back` is positive
      have hpos : 1 ≤ back := by
        rcases Nat.eq_zero_or_pos back with hzero | hpos
        · rw [hzero, rotatePattern_zero] at hrot
          exact absurd rfl hrot
        · exact hpos
      rw [if_neg hrot, if_neg hrot, checkedSub_of_le hpos, Option.bind_some,
        checkedSub_of_le (by omega)]

theorem runStep?_eq (hW : W.InWindow c) {next : Nat} (hnext : next < W.ip) (runLen : Nat)
    (rep : Repeat) :
    c.runStep? W next runLen rep =
      some (if W.lowest ≤ next ∧ readU32 W.window (next - c.base) = W.pattern then
        if runLen ≤ reversePatternCount W.window (next - c.base) (W.lowest - c.base) W.pattern +
              (minMatch + patternCount c.width W.window (next - c.base + minMatch)
                (W.limit - c.base) W.pattern) ∧
            minMatch + patternCount c.width W.window (next - c.base + minMatch) (W.limit - c.base)
              W.pattern ≤ runLen then
          some (next + (minMatch + patternCount c.width W.window (next - c.base + minMatch)
            (W.limit - c.base) W.pattern) - runLen, rep)
        else
          some (next - if rotatePattern (reversePatternCount W.window (next - c.base)
                (W.lowest - c.base) W.pattern) W.pattern = W.pattern then
              reversePatternCount W.window (next - c.base) (W.lowest - c.base) W.pattern
            else reversePatternCount W.window (next - c.base) (W.lowest - c.base) W.pattern - 1,
            rep)
      else some (next, rep)) := by
  obtain ⟨hbase, hlowest, hreach, hlimit⟩ := hW.bounds
  rw [runStep?]
  by_cases hlo : W.lowest ≤ next
  · rw [if_pos hlo, checkedSub_of_le (by omega), Option.bind_some, wordAt?_of_le (by omega),
      Option.bind_some]
    by_cases hpat : readU32 W.window (next - c.base) = W.pattern
    · rw [if_pos hpat, if_pos ⟨hlo, hpat⟩, runJump?_eq hW hlo hnext, Option.map_some]
      split_ifs <;> rfl
    · rw [if_neg hpat, if_neg fun h => hpat h.2]
  · rw [if_neg hlo, if_neg fun h => hlo h.1]

theorem nextCandidate?_eq (hW : W.InWindow c) {candidate : Nat}
    (hcand : W.lowest ≤ candidate ∧ candidate < W.ip) (rep : Repeat) :
    c.nextCandidate? W candidate rep = some (c.nextCandidate W candidate rep) := by
  obtain ⟨hbase, hlowest, hreach, hlimit⟩ := hW.bounds
  -- the run knowledge is split first, so that the model's two matches on it reduce
  cases rep
  all_goals
    rw [nextCandidate?, nextCandidate.eq_def, slotAt?_of_lt (by rw [hW.chain_size]; omega),
      Option.bind_some]
    simp only
    generalize c.chain.getD (candidate % 65536) 0 = delta
    -- the link is compared with the candidate before it is subtracted
    by_cases hstop : delta = 0 ∨ candidate < delta
    · rw [if_pos hstop, if_pos hstop]
    rw [if_neg hstop, if_neg hstop, checkedSub_of_le (by omega), Option.bind_some]
    by_cases hone : delta ≠ 1
    · rw [if_pos hone, if_pos hone]
    rw [if_neg hone, if_neg hone]
  · -- a link of distance one measures the run at the searched position once
    by_cases hrep : isRepeating W.pattern = true
    · rw [repeatKnown?, if_pos hrep, checkedSub_of_le (by omega), Option.bind_some,
        checkedSub_of_le (by omega), Option.bind_some, patternCount?_eq c.width (by omega),
        Option.map_some, Option.bind_some, if_pos hrep]
      simp only
      rw [runStep?_eq hW (by omega)]
    · rw [repeatKnown?, if_neg hrep, Option.bind_some, if_neg hrep]
  · rw [repeatKnown?, Option.bind_some]
    simp only
    rw [runStep?_eq hW (by omega)]
  · rw [repeatKnown?, Option.bind_some]

theorem map_fst_examinedOneMore (x : Option (Option ChainMatch × Nat)) :
    (x.map (Prod.map id Nat.succ)).map Prod.fst = x.map Prod.fst := by
  cases x <;> rfl

/-- Inside the window the checked walk finds what the model finds. -/
theorem walk?_map_fst (hW : W.InWindow c) (n : Nat) :
    ∀ candidate rep bestLen best,
      (c.walk? W candidate rep bestLen best n).map Prod.fst =
        some (c.walk W candidate rep bestLen best n) := by
  induction n with
  | zero => intro candidate rep bestLen best; rfl
  | succ n ih =>
    intro candidate rep bestLen best
    by_cases hcand : W.lowest ≤ candidate ∧ candidate < W.ip
    · rw [walk?, walk, if_pos hcand, if_pos hcand, examine?_eq hW hcand, Option.bind_some]
      simp only
      -- the walk goes on without the candidate, or the candidate extends the best match
      split
      · rename_i hfound
        rw [hfound]
        simp only
        rw [nextCandidate?_eq hW hcand, Option.bind_some]
        split
        · rename_i next rep' hnext
          rw [hnext]
          simp only
          rw [map_fst_examinedOneMore, ih]
        · rename_i hnext
          rw [hnext]
          rfl
      · rename_i forward m hfound
        rw [hfound]
        simp only
        by_cases hend : W.limit ≤ W.ip + forward
        · rw [if_pos hend, if_pos hend]
          rfl
        · rw [if_neg hend, if_neg hend, nextCandidate?_eq hW hcand, Option.bind_some]
          split
          · rename_i next rep' hnext
            rw [hnext]
            simp only
            rw [map_fst_examinedOneMore, ih]
          · rename_i hnext
            rw [hnext]
            rfl
    · rw [walk?, walk, if_neg hcand, if_neg hcand]
      rfl

/-- The walk examines one candidate a round, and has as many rounds as it was allowed. -/
theorem walk?_examined_le (n : Nat) :
    ∀ candidate rep bestLen best r, c.walk? W candidate rep bestLen best n = some r → r.2 ≤ n := by
  induction n with
  | zero =>
    intro candidate rep bestLen best r h
    rw [walk?, Option.some.injEq] at h
    rw [← h]
  | succ n ih =>
    intro candidate rep bestLen best r h
    -- a round ends with one candidate examined, or adds one to the rounds after it
    have hmore : ∀ x : Option (Option ChainMatch × Nat), x.map (Prod.map id Nat.succ) = some r →
        (∀ s, x = some s → s.2 ≤ n) → r.2 ≤ n + 1 := by
      intro x hx hle
      obtain ⟨s, hs, rfl⟩ := Option.map_eq_some_iff.mp hx
      exact Nat.succ_le_succ (hle s hs)
    rw [walk?] at h
    split_ifs at h with hcand
    · obtain ⟨found, -, h⟩ := Option.bind_eq_some_iff.mp h
      split at h
      · obtain ⟨next, -, h⟩ := Option.bind_eq_some_iff.mp h
        split at h
        · exact hmore _ h (ih _ _ _ _)
        · rw [← Option.some.inj h]
          omega
      · split_ifs at h
        · rw [← Option.some.inj h]
          omega
        · obtain ⟨next, -, h⟩ := Option.bind_eq_some_iff.mp h
          split at h
          · exact hmore _ h (ih _ _ _ _)
          · rw [← Option.some.inj h]
            omega
    · rw [← Option.some.inj h]
      omega

theorem walk?_eq (hW : W.InWindow c) (n candidate : Nat) (rep : Repeat) (bestLen : Nat)
    (best : Option ChainMatch) :
    ∃ k ≤ n, c.walk? W candidate rep bestLen best n =
      some (c.walk W candidate rep bestLen best n, k) := by
  obtain ⟨r, hr, hfst⟩ := Option.map_eq_some_iff.mp (walk?_map_fst hW n candidate rep bestLen best)
  refine ⟨r.2, walk?_examined_le n candidate rep bestLen best r hr, ?_⟩
  rw [hr, ← hfst]

end Walk

/-! ## The checked finder -/

/-- Every search keeps the finder sound. -/
theorem Sound.findWiderMatch {c : HashChains} (hc : c.Sound) (window : ByteArray)
    (ip low limit longest : Nat) : (c.findWiderMatch window ip low limit longest).1.Sound :=
  hc.insert window ip

/-- A search as the block encoder makes it, from a position between the low limit and
`mfLimit` bytes before the end of the window with the limit `lastLiterals` bytes before
it, faults nowhere, examines at most the level's number of candidates, and finds what the
model finds. -/
theorem findWiderMatch?_eq {c : HashChains} (hc : c.Sound) {window : ByteArray}
    {ip low limit : Nat} (hlow : c.lowLimit ≤ low) (hip : low ≤ ip)
    (hend : ip + mfLimit ≤ c.base + window.size) (hlimit : limit + lastLiterals = c.base + window.size)
    (longest : Nat) :
    ∃ k ≤ (levelParams c.level).attempts, c.findWiderMatch? window ip low limit longest =
      some (c.findWiderMatch window ip low limit longest, k) := by
  simp only [mfLimit, lastLiterals] at hend hlimit
  have hbase := hc.base_le_lowLimit
  have hc' := hc.insert window ip
  obtain ⟨hb, hl⟩ := insert_frame c window ip
  have hW : Walk.InWindow ⟨window, ip, low, limit,
      max (c.insert window ip).lowLimit (ip - maxDistance),
      readU32 window (ip - (c.insert window ip).base)⟩ (c.insert window ip) :=
    ⟨hc'.base_le_lowLimit, Nat.le_max_left _ _, by dsimp only; rw [hb]; omega, hip,
      by simp only [minMatch]; omega, by dsimp only; rw [hb]; omega, hc'.chain_size⟩
  obtain ⟨k, hk, hwalk⟩ := walk?_eq hW (levelParams (c.insert window ip).level).attempts
    ((c.insert window ip).head.getD (hash4 (readU32 window (ip - (c.insert window ip).base))
      chainHashLog) 0) .untested longest none
  refine ⟨k, by rw [← insert_level window c ip]; exact hk, ?_⟩
  rw [findWiderMatch?, insert?_eq window hc ip (by omega), Option.bind_some, if_pos hip,
    checkedSub_of_le (by rw [hb]; omega), Option.bind_some, wordAt?_of_le (by rw [hb]; omega),
    Option.bind_some, slotAt?_of_lt (by rw [hc'.head_size]; exact hash4_lt _), Option.bind_some,
    hwalk, Option.map_some]
  rfl

end HashChains

end WireCodec.Lz4
