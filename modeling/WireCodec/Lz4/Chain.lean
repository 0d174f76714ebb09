import WireCodec.Lz4.Count
import WireCodec.Lz4.Sequence

/-!
# Hash chains

The high-compression encoder indexes every position of its window. Positions are
logical: the byte at logical position `i` is `window[i - base]`, so history can be
dropped from the front of the window without renumbering. `head` maps a hash of four
bytes to the last position where they were seen, as the width stores a position, and
`chain` links each position to the previous one with the same hash, as a distance capped
at `maxDistance`, stored at the position modulo 2^16.

`findWiderMatch` walks the chain of a position, verifies each candidate byte by byte,
extends it forwards and backwards, and keeps the longest. On a run of one repeated byte
the chain is a ladder of distance-one links; the walk then jumps to the far end of the
run instead of climbing it a byte at a time.
-/

namespace WireCodec.Lz4

/-- Hash width of the chain heads. -/
def chainHashLog : Nat := 15

/-- Logical position of the first byte a fresh context indexes. Empty head slots hold
zero, which is then farther than `maxDistance` behind every real position. -/
def startIndex : Nat := 65536

/-- A match found by the chain walk: it covers `[start, start + len)` and copies from
`offset` bytes back. -/
structure ChainMatch where
  start : Nat
  offset : Nat
  len : Nat
  deriving DecidableEq, Repr

namespace ChainMatch

/-- First position after the match. -/
def stop (m : ChainMatch) : Nat := m.start + m.len

/-- Bytes saved by coding everything from `anchor` to the end of the match as this one
sequence rather than as literals. -/
def gain (m : ChainMatch) (anchor : Nat) : Int :=
  (m.stop - anchor : Nat) - (sequencePrice (m.start - anchor) m.len : Nat)

end ChainMatch

/-- The state of the high-compression match finder. -/
structure HashChains where
  width : AddressWidth
  head : Array Nat
  chain : Array Nat
  /-- Logical position of the first byte of the window. -/
  base : Nat
  /-- Logical position of the first byte of the block being encoded. -/
  dictLimit : Nat
  /-- No match reaches below this logical position. -/
  lowLimit : Nat
  /-- Positions from here on are not indexed yet. -/
  nextToUpdate : Nat
  /-- The clamped compression level. -/
  level : Int

namespace HashChains

/-- A fresh finder at the clamped `level`. -/
def fresh (width : AddressWidth) (level : Int) : HashChains :=
  { width, head := Array.replicate (Nat.pow 2 chainHashLog) 0, chain := Array.replicate 65536 0,
    base := startIndex, dictLimit := startIndex, lowLimit := startIndex,
    nextToUpdate := startIndex, level := clampLevel level }

/-- The hash of the four bytes at logical position `index`. -/
def hashAt (c : HashChains) (window : ByteArray) (index : Nat) : Nat :=
  hash4 (readU32 window (index - c.base)) chainHashLog

/-- Indexes the positions from `index` below `target`. -/
def insertFrom (c : HashChains) (window : ByteArray) (index target : Nat) : HashChains :=
  if index < target then
    let h := c.hashAt window index
    let previous := c.head.getD h 0
    let c := { c with
      chain := c.chain.set! (index % 65536) (min (index - previous) maxDistance),
      head := c.head.set! h (c.width.store index) }
    c.insertFrom window (index + 1) target
  else c
termination_by target - index

/-- Indexes every position below `target` not indexed yet. -/
def insert (c : HashChains) (window : ByteArray) (target : Nat) : HashChains :=
  if c.nextToUpdate < target then
    { c.insertFrom window c.nextToUpdate target with nextToUpdate := target }
  else c

/-- What the walk knows about a run of one repeated byte at the searched position. -/
inductive Repeat where
  | untested
  | confirmed (runLen : Nat)
  | rejected
  deriving DecidableEq, Repr

/-- The fixed facts of one chain walk: the window, the searched position `ip`, the
lowest start `low` a match may be extended back to, the end `limit` no match passes, and
the four bytes at `ip`. -/
structure Walk where
  window : ByteArray
  ip : Nat
  low : Nat
  limit : Nat
  lowest : Nat
  pattern : UInt32

/-- Extends a match of the candidate backwards: how many bytes before `ip` agree with
those before `candidate`, at most `lookBack`, never reaching `lowLimit`. -/
def backCount (c : HashChains) (W : Walk) (candidate back : Nat) : Nat :=
  if back < W.ip - W.low ∧ c.lowLimit < candidate - back ∧
      W.window.get! (W.ip - c.base - back - 1) = W.window.get! (candidate - c.base - back - 1) then
    c.backCount W candidate (back + 1)
  else back
termination_by W.ip - W.low - back

/-- The next candidate along the chain from `candidate`, jumping over a repeated-byte
run when the link has distance one. Returns the new run knowledge too; `none` ends the
walk. -/
def nextCandidate (c : HashChains) (W : Walk) (candidate : Nat) (rep : Repeat) :
    Option (Nat × Repeat) :=
  let delta := c.chain.getD (candidate % 65536) 0
  if delta = 0 ∨ candidate < delta then none
  else
    let next := candidate - delta
    if delta ≠ 1 then some (next, rep)
    else
      let rep : Repeat := match rep with
        | .untested =>
          if isRepeating W.pattern then
            .confirmed (minMatch + patternCount c.width W.window (W.ip - c.base + minMatch)
              (W.limit - c.base) W.pattern)
          else .rejected
        | r => r
      match rep with
      | .confirmed runLen =>
        if W.lowest ≤ next ∧ readU32 W.window (next - c.base) = W.pattern then
          let forward := minMatch + patternCount c.width W.window (next - c.base + minMatch)
            (W.limit - c.base) W.pattern
          let back := reversePatternCount W.window (next - c.base) (W.lowest - c.base) W.pattern
          if runLen ≤ back + forward ∧ forward ≤ runLen then some (next + forward - runLen, rep)
          else
            let aligned := if rotatePattern back W.pattern = W.pattern then back else back - 1
            some (next - aligned, rep)
        else some (next, rep)
      | _ => some (next, rep)

/-- Walks the chain from `candidate` with `attempts` candidates left, keeping the
longest verified match so far (`best`, longer than `bestLen`). -/
def walk (c : HashChains) (W : Walk) (candidate : Nat) (rep : Repeat) (bestLen : Nat)
    (best : Option ChainMatch) : Nat → Option ChainMatch
  | 0 => best
  | attempts + 1 =>
    if W.lowest ≤ candidate ∧ candidate < W.ip then
      let found :=
        if readU32 W.window (candidate - c.base) = W.pattern then
          let forward := minMatch + matchCount c.width W.window (W.ip - c.base + minMatch)
            (candidate - c.base + minMatch) (W.limit - c.base)
          let back := c.backCount W candidate 0
          if bestLen < forward + back then
            some (forward, ⟨W.ip - back, W.ip - candidate, forward + back⟩)
          else none
        else none
      match found with
      | some (forward, m) =>
        if W.limit ≤ W.ip + forward then some m
        else match c.nextCandidate W candidate rep with
          | none => some m
          | some (next, rep) => c.walk W next rep m.len (some m) attempts
      | none =>
        match c.nextCandidate W candidate rep with
        | none => best
        | some (next, rep) => c.walk W next rep bestLen best attempts
    else best

/-- Indexes up to `ip`, then searches the chain of `ip` for a match longer than
`longest` that may extend back to `low` and forward to `limit`. -/
def findWiderMatch (c : HashChains) (window : ByteArray) (ip low limit longest : Nat) :
    HashChains × Option ChainMatch :=
  let c := c.insert window ip
  let W : Walk := ⟨window, ip, low, limit, max c.lowLimit (ip - maxDistance),
    readU32 window (ip - c.base)⟩
  (c, c.walk W (c.head.getD (c.hashAt window ip) 0) .untested longest none
    (levelParams c.level).attempts)

end HashChains

end WireCodec.Lz4
