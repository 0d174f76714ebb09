import WireCodec.Wire.Error
import WireCodec.Wire.Options
import WireCodec.Lz4.Fast
import WireCodec.Lz4.HighCompression

/-!
# The writer

A writer appends the wire forms of primitives: bytes as they are, integers of fixed
width in little-endian order, lengths and counts as LEB128 varints (seven bits per byte,
low bits first, the high bit marking that more follow), and strings and byte runs as
their length followed by their bytes. A four-byte slot can be reserved and patched later
with a value known only after what follows it is written.

A writer made for frames starts with a flag byte: `0` while the payload after it is
stored as it is. Compressing it, which can happen once, replaces the payload by one LZ4
block and the flag by `1` when that makes it shorter.
-/

namespace WireCodec.Wire

/-- Flag byte of a frame whose body is the stored payload. -/
def flagStored : UInt8 := 0

/-- Flag byte of a frame whose body is one LZ4 block. -/
def flagLz4 : UInt8 := 1

/-- Bytes written so far, and the frame state. -/
structure Writer where
  bytes : ByteArray
  /-- Where the payload starts: after the flag byte of a frame. -/
  start : Nat
  compressible : Bool
  finished : Bool

namespace Writer

/-- An empty writer. -/
def empty : Writer := ⟨ByteArray.empty, 0, false, false⟩

/-- A writer for a frame: the flag byte of a stored frame, then the payload. -/
def framed : Writer := ⟨ByteArray.empty.push flagStored, 1, true, false⟩

/-- Bytes written. -/
def len (w : Writer) : Nat := w.bytes.size

/-- Bytes of payload written, the flag byte of a frame excluded. -/
def payloadLen (w : Writer) : Nat := w.bytes.size - w.start

/-- Appends bytes. -/
def writeBytes (w : Writer) (b : ByteArray) : Writer :=
  { w with bytes := w.bytes ++ b }

/-- Appends one byte. -/
def writeU8 (w : Writer) (b : UInt8) : Writer :=
  { w with bytes := w.bytes.push b }

/-- `width` little-endian bytes of `n` (taken modulo `256 ^ width`). -/
def leBytes (n width : Nat) : ByteArray :=
  ⟨((List.range width).map fun i => (n / Nat.pow 256 i % 256).toUInt8).toArray⟩

/-- Appends `n` as `width` little-endian bytes. -/
def writeLE (w : Writer) (width n : Nat) : Writer :=
  w.writeBytes (leBytes n width)

/-- Appends an integer of `width` bytes in two's complement, little-endian. -/
def writeSigned (w : Writer) (width : Nat) (n : Int) : Writer :=
  w.writeLE width (n % (Nat.pow 2 (8 * width) : Nat)).toNat

/-- Appends a boolean as the byte `0` or `1`. -/
def writeBool (w : Writer) (b : Bool) : Writer :=
  w.writeU8 (if b then 1 else 0)

/-- The LEB128 bytes of `v`: seven bits per byte, low bits first, the high bit set on
every byte but the last. -/
def varintBytes (v : Nat) : List UInt8 :=
  if v < 128 then [v.toUInt8] else (v % 128 + 128).toUInt8 :: varintBytes (v / 128)
termination_by v
decreasing_by omega

/-- Appends `v` as a LEB128 varint. -/
def writeVarint (w : Writer) (v : Nat) : Writer :=
  w.writeBytes ⟨(varintBytes v).toArray⟩

/-- Appends a string: its UTF-8 length, then its UTF-8 bytes. -/
def writeStr (w : Writer) (s : String) : Writer :=
  (w.writeVarint s.utf8ByteSize).writeBytes s.toUTF8

/-- Appends a byte run: its length, then its bytes. -/
def writeByteRun (w : Writer) (b : ByteArray) : Writer :=
  (w.writeVarint b.size).writeBytes b

/-- Appends four zero bytes and returns where they start. -/
def reserveU32 (w : Writer) : Writer × Nat :=
  (w.writeLE 4 0, w.len)

/-- The text of the failure of `patchU32?`. -/
def patchFault : String := "patch outside committed bytes"

/-- Overwrites the four bytes at `pos` with `value`, little-endian; `none` unless they were
written already. -/
def patchU32? (w : Writer) (pos : Nat) (value : Nat) : Option Writer :=
  if pos + 4 ≤ w.len then
    let b := leBytes value 4
    some { w with bytes := (List.range 4).foldl (fun acc i => acc.set! (pos + i) (b.get! i)) w.bytes }
  else none

/-- Compresses the payload of a frame writer, once. Payloads shorter than the options'
minimum (and empty ones) stay stored, and so do payloads the block would not shrink.
Returns the writer after the call, which is finished unless the call was refused, and
the payload length, which a reader needs to size its output. -/
def compressLz4 (w : Writer) (o : CompressionOptions) : Writer × Except EncodeError Nat :=
  if !w.compressible || w.finished then (w, .error .notCompressible)
  else
    let w := { w with finished := true }
    let plain := w.payloadLen
    if plain < max o.minCompressSize 1 then (w, .ok plain)
    else
      let bound := Lz4.compressBound plain
      if bound = 0 then (w, .error (.lengthOverflow "lz4 payload" plain Lz4.maxInputSize))
      else
        let src := w.bytes.extract 1 w.bytes.size
        let block := match o.mode with
          | .fast acceleration => Lz4.compressFast .bits64 src bound acceleration
          | .high level => Lz4.compressHC .bits64 src bound level
        match block with
        | .error e => (w, .error (.compression e))
        | .ok block =>
          if block.size < plain then
            ({ w with bytes := ByteArray.empty.push flagLz4 ++ block }, .ok plain)
          else (w, .ok plain)

end Writer

end WireCodec.Wire
