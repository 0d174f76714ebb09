import WireCodec.Lz4.Basic
import WireCodec.Lz4.Error

/-!
# Writing sequences

Both encoders describe their input as sequences and hand each one to an `Emitter`, which
appends its bytes to the block under construction: the token, the literal-length
extension, the literals, the little-endian offset and the match-length extension. The
emitter refuses a sequence when the destination could not also hold the shortest legal
ending after it, so a refused block never holds a half-written sequence.

`literalsPrice` and `sequencePrice` are the sizes of those encodings; the
high-compression encoder compares matches by them.
-/

namespace WireCodec.Lz4

/-- Bytes of length extension needed for a length field holding `n`: the field itself
holds up to 14, and 15 means that an extension follows. -/
def extensionLength (n : Nat) : Nat :=
  if 15 ≤ n then 1 + (n - 15) / 255 else 0

/-- Encoded size of a literal run of `n` bytes, token excluded. -/
def literalsPrice (n : Nat) : Nat :=
  n + extensionLength n

/-- Encoded size of one full sequence: token, literals, offset and match extension. -/
def sequencePrice (literals matchLen : Nat) : Nat :=
  3 + literalsPrice literals + extensionLength (matchLen - minMatch)

/-- `literalsPrice` of a 64-bit size, in wrapping 64-bit arithmetic. -/
def literalsPriceWord (n : UInt64) : UInt64 :=
  (literalsPrice n.toNat).toUInt64

/-- `sequencePrice` of 64-bit sizes, in wrapping 64-bit arithmetic. -/
def sequencePriceWord (literals matchLen : UInt64) : UInt64 :=
  (sequencePrice literals.toNat matchLen.toNat).toUInt64

/-- Appends `n` copies of `b`. -/
def pushRepeat (out : ByteArray) (b : UInt8) : Nat → ByteArray
  | 0 => out
  | n + 1 => pushRepeat (out.push b) b n

/-- Appends the extension bytes of a length field holding `n` (nothing below 15). -/
def pushExtension (out : ByteArray) (n : Nat) : ByteArray :=
  if 15 ≤ n then (pushRepeat out 255 ((n - 15) / 255)).push ((n - 15) % 255).toUInt8 else out

/-- The four bits a length field holds for `n`. -/
def nibble (n : Nat) : UInt8 :=
  (min n 15).toUInt8

/-- A block under construction: the bytes written so far and the size of the destination. -/
structure Emitter where
  out : ByteArray
  capacity : Nat

namespace Emitter

/-- An empty block for a destination of `capacity` bytes. -/
def empty (capacity : Nat) : Emitter :=
  ⟨ByteArray.empty, capacity⟩

/-- Appends the sequence made of the `len` literals of `src` at `start`, then a match of
`matchLen` bytes at distance `offset`. It fails, writing nothing, unless the destination
keeps room for the sequence and a closing run of `lastLiterals` bytes. -/
def writeSequence (e : Emitter) (src : ByteArray) (start len offset matchLen : Nat) :
    Except Error Emitter :=
  if e.out.size + sequencePrice len matchLen + lastLiterals + 1 > e.capacity then
    .error (.outputTooSmall e.capacity)
  else
    let code := matchLen - minMatch
    let out := e.out.push ((nibble len <<< 4) ||| nibble code)
    let out := pushExtension out len ++ src.extract start (start + len)
    let out := (out.push (offset % 256).toUInt8).push (offset / 256 % 256).toUInt8
    .ok { e with out := pushExtension out code }

/-- Appends the closing literal-only sequence of the `len` bytes of `src` at `start` and
returns the finished block. -/
def finish (e : Emitter) (src : ByteArray) (start len : Nat) : Except Error ByteArray :=
  if e.out.size + 1 + literalsPrice len > e.capacity then
    .error (.outputTooSmall e.capacity)
  else
    .ok (pushExtension (e.out.push (nibble len <<< 4)) len ++ src.extract start (start + len))

end Emitter

end WireCodec.Lz4
