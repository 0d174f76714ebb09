import WireCodec.Codec.Capacity
import WireCodec.Codec.Decode
import WireCodec.Codec.Carrier
import WireCodec.Lz4.Decode

/-!
# Serializing and deserializing

The entry points encode a value to bytes in a chosen representation and decode a value
from bytes, optionally framed and compressed.

Byte buffers, and optional byte buffers, are raw: serializing one hands its bytes over
as they are (an absent optional buffer is an error), and deserializing one takes the
source bytes as they are, whatever they hold. Every other type is encoded by its codec
after its schema is classified, and classification errors, such as a union with a
repeated tag anywhere it is reached, stop both directions before any byte is read or
written.

A frame is a flag byte and a body: flag `0` and the encoding itself, or another flag and
one LZ4 block of it. Decoding a frame needs the length of the encoding; a stored body
must have exactly that length, and a compressed one could not expand to more than 255
times its length and 12 bytes, so a longer claim is refused before anything is
decompressed.
-/

namespace WireCodec

open Wire

namespace Codec

/-- What a top-level call serializes: a value, or bytes with their layout. -/
inductive Input where
  | value (v : Value)
  | buffer (c : Carrier)

namespace Input

/-- The value, a buffer's bytes as a byte value. -/
def toValue : Input → Value
  | value v => v
  | buffer c => .bytes c.flatten

/-- The bytes a raw type hands over: none for an absent optional buffer. -/
def raw : Input → Option Carrier
  | buffer c => some c
  | value (.bytes b) => some (.slice b)
  | value (.some (.bytes b)) => some (.slice b)
  | value _ => none

end Input

/-- Encodes to a writer, a framed one when `framed`. -/
def encodeTo (cat : Catalog) (s : Schema) (input : Input) (framed : Bool) :
    Except EncodeError Writer :=
  let start := if framed then Writer.framed else Writer.empty
  if s.isRaw then
    match input.raw with
    | some c => .ok (start.writeBytes c.flatten)
    | none => .error (.valueRequired (s.typeName cat))
  else
    match classify cat s with
    | .error e => .error (.resolve e)
    | .ok _ => encode cat s input.toValue start

/-- Serializes to the representation `r`. -/
def serialize (cat : Catalog) (s : Schema) (input : Input) (r : Representation) :
    Except EncodeError Carrier :=
  if s.isRaw then
    match input.raw with
    | some c => .ok (c.convert r)
    | none => .error (.valueRequired (s.typeName cat))
  else do
    let w ← encodeTo cat s input false
    return (Carrier.slice w.bytes).convert r

/-- The value a raw type takes from the source bytes. -/
def rawValue (s : Schema) (b : ByteArray) : Value :=
  match s with
  | .option _ => .some (.bytes b)
  | _ => .bytes b

/-- Deserializes a value of schema `s` from the bytes of `c` under the options `o`.
Bytes after the value are ignored. -/
def deserialize (cat : Catalog) (s : Schema) (c : Carrier) (o : Option DecodeOptions) :
    Except DecodeError Value :=
  if s.isRaw then .ok (rawValue s c.flatten)
  else
    match classify cat s with
    | .error e => .error (.resolve e)
    | .ok _ => ((decodeValue cat s).run' (c.reader.mergeOptions o)).1

/-- Reads one value of schema `s` at the reader's position with the options `o` in force
for the call only: the reader's own options are back in force afterwards, whether the read
succeeded or failed. -/
def deserializeAt (cat : Catalog) (s : Schema) (o : Option DecodeOptions) : ReadM Value :=
  ExceptT.mk do
    let saved := (← get).options
    modify (·.mergeOptions o)
    let result ← (decodeValue cat s).run
    modify fun r => { r with options := saved }
    return result

/-- Deserializes from `len` bytes of `bytes` at `offset`; the range must lie inside. -/
def deserializeRange (cat : Catalog) (s : Schema) (bytes : ByteArray) (offset len : Nat) :
    Except DecodeError Value :=
  if offset + len ≤ bytes.size then
    deserialize cat s (.slice (bytes.extract offset (offset + len))) none
  else .error (.invalidRange offset len bytes.size)

/-- Deserializes from bytes that may be absent, which is an error. -/
def deserializeNullable (cat : Catalog) (s : Schema) (bytes : Option ByteArray) :
    Except DecodeError Value :=
  match bytes with
  | some b => deserialize cat s (.slice b) none
  | none => .error (.valueRequired (s.typeName cat))

/-- Serializes into a frame, compressed as `o` says; returns the frame and the length
of the encoding. -/
def serializeFramed (cat : Catalog) (s : Schema) (input : Input) (o : CompressionOptions) :
    Except EncodeError (ByteArray × Nat) := do
  let w ← encodeTo cat s input true
  let (w, plain) := w.compressLz4 o
  return (w.bytes, ← plain)

/-- The most bytes an LZ4 block of `compressed` bytes can decode to, stopping at the
largest 64-bit count. -/
def maxExpansion (compressed : Nat) : Nat :=
  satAdd (min (compressed * 255) wordMax) Lz4.mfLimit

/-- Deserializes from a frame whose encoding is `plainLen` bytes long. -/
def deserializeFramed (cat : Catalog) (s : Schema) (frame : ByteArray) (plainLen : Nat)
    (o : Option DecodeOptions) : Except DecodeError Value :=
  if frame.size = 0 then .error (.unexpectedEof 1 0)
  else
    let body := frame.extract 1 frame.size
    if frame.get! 0 = flagStored then
      if body.size ≠ plainLen then .error (.lengthMismatch "stored frame" plainLen body.size)
      else deserialize cat s (.slice body) o
    else if plainLen > maxExpansion body.size then
      .error (.lengthMismatch "lz4 frame" plainLen (maxExpansion body.size))
    else
      match Lz4.decompressExact body plainLen with
      | .error e => .error (.compression e)
      | .ok plain => deserialize cat s (.slice plain) o

/-- How a type is encoded at the top: whether it holds a union, and the initial buffer
size for a value. -/
def plan (cat : Catalog) (s : Schema) (v : Value) : Except ResolveError (Bool × Nat) := do
  let holdsUnion ← classify cat s
  return (holdsUnion, bufferCapacity cat s v holdsUnion)

end Codec

end WireCodec
