/-!
# LZ4 block format: constants, hashing and level parameters

An LZ4 block is a series of sequences: a token byte whose high nibble is a literal run
length and whose low nibble is a match length minus four, optional length extensions
(bytes of 255 continue, the first smaller byte ends), the literals, a two-byte
little-endian offset and the match. The last sequence holds literals only.

This module fixes the numbers every encoder and the decoder agree on, the multiplicative
hash of four bytes, the worst-case block size `compressBound`, and the table that turns
a high-compression level into a search effort. Positions are natural numbers and bytes
are read from a `ByteArray`; out-of-range reads give zero, and the encoders only read
inside their input.
-/

namespace WireCodec.Lz4

/-- Shortest match the format can express. -/
def minMatch : Nat := 4

/-- A block ends with at least this many literals. -/
def lastLiterals : Nat := 5

/-- No match starts within this many bytes of the end of the input. -/
def mfLimit : Nat := 12

/-- Inputs shorter than this are stored as one literal run. -/
def minLength : Nat := mfLimit + 1

/-- Largest back-reference distance: offsets are 16-bit. -/
def maxDistance : Nat := 65535

/-- Largest input a single block may describe. -/
def maxInputSize : Nat := 0x7E000000

/-- The history a streaming encoder keeps and a dictionary decoder uses. -/
def dictionarySize : Nat := 65536

/-- Inputs below this size get the wider hash table of the fast encoder. -/
def limit64K : Nat := 65536 + (mfLimit - 1)

/-- Worst-case size of the block for an input of `len` bytes; zero when the input is too
large for one block. -/
def compressBound (len : Nat) : Nat :=
  if len > maxInputSize then 0 else len + len / 255 + 16

/-- Knuth's multiplicative constant for hashing four bytes. -/
def prime32 : UInt32 := 2654435761

/-- Hash of a four-byte word into `log` bits: the top bits of the word times `prime32`. -/
def hash4 (word : UInt32) (log : Nat) : Nat :=
  ((word * prime32) >>> (32 - log).toUInt32).toNat

/-- The four bytes at `pos`, read little-endian. -/
def readU32 (src : ByteArray) (pos : Nat) : UInt32 :=
  (src.get! pos).toUInt32 ||| (src.get! (pos + 1)).toUInt32 <<< 8 |||
    (src.get! (pos + 2)).toUInt32 <<< 16 ||| (src.get! (pos + 3)).toUInt32 <<< 24

/-- The address width an encoder is specialised for. The widths differ in how many bits of
a position their tables keep, in how many bytes one comparison step of the match counter
covers and in how far a streaming context may count positions before it restarts its
index space; the blocks they produce are the same. -/
inductive AddressWidth where
  | bits32
  | bits64
  deriving DecidableEq, Repr

namespace AddressWidth

/-- Bits of a position stored in a table. -/
def bits : AddressWidth → Nat
  | bits32 => 32
  | bits64 => 64

/-- A position as a table of the width holds it: its low `bits` bits. -/
def store (w : AddressWidth) (index : Nat) : Nat :=
  index % Nat.pow 2 w.bits

/-- Bytes compared in one step of the match counter. -/
def registerBytes : AddressWidth → Nat
  | bits32 => 4
  | bits64 => 8

/-- Logical position at which a streaming context restarts its index space. -/
def indexLimit : AddressWidth → Nat
  | bits32 => Nat.pow 2 31
  | bits64 => (Nat.pow 2 64 - 1) / 4

end AddressWidth

/-- Search effort of a high-compression level: how many chain candidates one search
examines, and how many following positions the lazy step tries. -/
structure LevelParams where
  attempts : Nat
  lookahead : Nat
  deriving DecidableEq, Repr

/-- Lowest, default and highest high-compression levels. -/
def levelMin : Int := 1
def levelDefault : Int := 9
def levelMax : Int := 12

/-- A level brought into `[levelMin, levelMax]`. -/
def clampLevel (level : Int) : Int :=
  max levelMin (min level levelMax)

/-- Search effort by clamped level (entries 1 to 12 are used). -/
def levelTable : Array LevelParams := #[
  ⟨2, 0⟩, ⟨2, 0⟩, ⟨2, 0⟩, ⟨4, 1⟩, ⟨8, 1⟩, ⟨16, 1⟩, ⟨32, 1⟩, ⟨64, 1⟩, ⟨128, 1⟩,
  ⟨256, 1⟩, ⟨96, 2⟩, ⟨512, 2⟩, ⟨16384, 3⟩]

/-- Search effort of a level, after clamping. -/
def levelParams (level : Int) : LevelParams :=
  levelTable.getD (clampLevel level).toNat ⟨2, 0⟩

theorem clampLevel_mem (level : Int) : levelMin ≤ clampLevel level ∧ clampLevel level ≤ levelMax := by
  unfold clampLevel levelMin levelMax; omega

end WireCodec.Lz4
