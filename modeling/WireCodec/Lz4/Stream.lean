import WireCodec.Lz4.HighCompression

/-!
# Streaming high-compression encoding

A stream encodes a sequence of blocks, each allowed to reach back into the bytes of the
blocks before it, or into a loaded dictionary. It keeps a window of those bytes and the
hash chains over them. Before a block is encoded the window is trimmed to the last
`dictionarySize` bytes; the positions stay logical, so trimming only moves `base`. When
the logical positions would pass the width's index limit the stream renumbers its
history from `startIndex`.

A block that does not fit its destination leaves the window as it was, and the finder
re-indexes the new block's positions on the next call.
-/

namespace WireCodec.Lz4

/-- A streaming high-compression encoder: the match finder and its window. -/
structure HcStream where
  chains : HashChains
  window : ByteArray

namespace HcStream

/-- A stream of width `w` at `level`. -/
def create (w : AddressWidth) (level : Int) : HcStream :=
  ⟨HashChains.fresh w level, ByteArray.empty⟩

/-- The stream with its history dropped and its level set to `level`. -/
def resetWith (s : HcStream) (level : Int) : HcStream :=
  create s.chains.width level

/-- The clamped compression level. -/
def level (s : HcStream) : Int :=
  s.chains.level

/-- The stream at another level, history kept. -/
def setLevel (s : HcStream) (level : Int) : HcStream :=
  { s with chains := { s.chains with level := clampLevel level } }

/-- Bytes of history the next block may refer to. -/
def historyLen (s : HcStream) : Nat :=
  min s.window.size dictionarySize

/-- The last `min n dictionarySize` bytes of the history (fewer if there are fewer). -/
def savedDict (s : HcStream) (n : Nat) : ByteArray :=
  let k := min (min n dictionarySize) s.window.size
  s.window.extract (s.window.size - k) s.window.size

/-- Makes the last `dictionarySize` bytes of `dict` the history, indexed from the base of
the chains, and reports their number. -/
def indexDictionary (s : HcStream) (dict : ByteArray) : HcStream × Nat :=
  let dict := dict.extract (dict.size - dictionarySize) dict.size
  let len := dict.size
  let c := { s.chains with dictLimit := s.chains.base + len, lowLimit := s.chains.base }
  let c := if minMatch ≤ len then c.insert dict (c.base + len - (minMatch - 1)) else c
  (⟨c, dict⟩, len)

/-- Starts over with `dict` as the history, at the current level. -/
def loadDict (s : HcStream) (dict : ByteArray) : HcStream × Nat :=
  (s.resetWith s.level).indexDictionary dict

/-- Keeps the last `dictionarySize` bytes of the window. -/
def trimHistory (s : HcStream) : HcStream :=
  let dropped := s.window.size - dictionarySize
  let c := { s.chains with base := s.chains.base + dropped }
  let c := { c with
    lowLimit := c.base, dictLimit := max c.dictLimit c.base, nextToUpdate := max c.nextToUpdate c.base }
  ⟨c, s.window.extract dropped s.window.size⟩

/-- The stream a block of `n` bytes is encoded from: its history trimmed, and renumbered
from `startIndex` when the positions would pass the width's index limit. -/
def prepare (s : HcStream) (n : Nat) : HcStream :=
  let s := s.trimHistory
  if s.chains.width.indexLimit < s.chains.base + s.window.size + n then
    ((s.resetWith s.level).indexDictionary s.window).1
  else s

/-- Encodes `src` after the window of the prepared stream `s`, the whole window being
history. On success the block joins the window; on failure the window is kept and the
positions of the block are indexed again on the next call. -/
def encodeNext (s : HcStream) (src : ByteArray) (capacity : Nat) :
    HcStream × Except Error ByteArray :=
  let c := { s.chains with dictLimit := s.chains.base + s.window.size }
  match c.compressBlock (s.window ++ src) capacity with
  | (c, .ok block) => (⟨c, s.window ++ src⟩, .ok block)
  | (c, .error e) =>
    (⟨{ c with nextToUpdate := min c.nextToUpdate c.dictLimit }, s.window⟩, .error e)

/-- Encodes `src` as the next block for a destination of `capacity` bytes. On success the
block joins the history; on failure the history is unchanged. -/
def compressContinue (s : HcStream) (src : ByteArray) (capacity : Nat) :
    HcStream × Except Error ByteArray :=
  if src.size > maxInputSize then (s, .error (.inputTooLarge src.size maxInputSize))
  else (s.prepare src.size).encodeNext src capacity

end HcStream

end WireCodec.Lz4
