import WireCodec.Wire.Error
import WireCodec.Wire.Options
import WireCodec.Text.Utf8

/-!
# The reader

A reader walks one view of bytes: a single buffer, or several chunks read in order
without joining them. Every read checks first that the view holds enough bytes, and a
read that would pass the end fails with `unexpectedEof` and moves nothing.

A read is a step of `ReadM`, a state of the reader threaded through a computation that
may fail. The state after a failure is kept: a varint or a string whose length prefix
was read before its end ran out leaves the reader after the bytes it did read, and a
later read starts there.

A slice read from a buffer, or from inside one chunk with bytes to spare, is a borrowed
view; a slice gathered across chunks is a copy. The flag is part of what a slice read
returns.
-/

namespace WireCodec.Wire

/-- Where a reader's bytes are. -/
inductive Source where
  /-- One buffer. -/
  | contiguous (bytes : ByteArray)
  /-- Chunks read in order; the cursor is at byte `offset` of chunk `index`. -/
  | chunked (chunks : Array ByteArray) (index offset : Nat)

/-- A read cursor: the bytes, how many were consumed, the view's length, and the
settings of the reads. -/
structure Reader where
  source : Source
  position : Nat
  size : Nat
  options : DecodeOptions

/-- A read: from a reader, a result or an error, and the reader after it. -/
abbrev ReadM := ExceptT DecodeError (StateM Reader)

namespace Reader

/-- A reader over all of `bytes`. -/
def ofBytes (bytes : ByteArray) : Reader :=
  ⟨.contiguous bytes, 0, bytes.size, .none⟩

/-- A reader over `len` bytes of `bytes` from `offset`; the range must lie inside. -/
def ofRange (bytes : ByteArray) (offset len : Nat) : Except DecodeError Reader :=
  if offset + len ≤ bytes.size then .ok (ofBytes (bytes.extract offset (offset + len)))
  else .error (.invalidRange offset len bytes.size)

/-- A reader over the chunks in order, empty chunks included. -/
def ofChunks (chunks : Array ByteArray) : Reader :=
  ⟨.chunked chunks 0 0, 0, chunks.foldl (fun n c => n + c.size) 0, .none⟩

/-- Bytes not yet read. -/
def remaining (r : Reader) : Nat := r.size - r.position

/-- Whether the view is one buffer. -/
def isContiguous (r : Reader) : Bool :=
  match r.source with
  | .contiguous _ => true
  | .chunked .. => false

/-- The settings of `o`, where present, replace the reader's. -/
def mergeOptions (r : Reader) (o : Option DecodeOptions) : Reader :=
  match o with
  | some o => { r with options := r.options.merge o }
  | none => r

/-- Every timestamp read through the reader becomes UTC. -/
def inUtc (r : Reader) : Reader :=
  { r with options := { r.options with timeKind := some .utc } }

/-- How many elements are worth allocating for `count` elements of at least
`minSize` bytes: never more than the bytes left could hold. -/
def preallocation (r : Reader) (count minSize : Nat) : Nat :=
  min count (r.remaining / max minSize 1)

end Reader

/-- Gathers `need` bytes from the chunks starting at byte `offset` of chunk `index`,
moving to the next chunk whenever one is used up; returns the bytes and the cursor after
them. -/
def gather (chunks : Array ByteArray) (index offset need : Nat) (acc : ByteArray) :
    ByteArray × Nat × Nat :=
  if need = 0 then (acc, index, offset)
  else if h : index < chunks.size then
    let n := min (chunks[index].size - offset) need
    if offset + n < chunks[index].size then
      gather chunks index (offset + n) (need - n) (acc ++ chunks[index].extract offset (offset + n))
    else gather chunks (index + 1) 0 (need - n) (acc ++ chunks[index].extract offset (offset + n))
  else (acc, index, offset)
termination_by need + (chunks.size - index)
decreasing_by all_goals omega

namespace Reader

/-- Fails with `unexpectedEof` unless `needed` bytes are left. -/
def ensure (needed : Nat) : ReadM Unit := do
  let r ← get
  if needed > r.remaining then throw (.unexpectedEof needed r.remaining)

/-- Reads `n` bytes as a copy. -/
def readBytes (n : Nat) : ReadM ByteArray := do
  ensure n
  let r ← get
  match r.source with
  | .contiguous b =>
    set { r with position := r.position + n }
    return b.extract r.position (r.position + n)
  | .chunked cs i o =>
    let (out, i, o) := gather cs i o n ByteArray.empty
    set { r with source := .chunked cs i o, position := r.position + n }
    return out

/-- Reads `n` bytes, and whether they are a view into the source: always for a buffer,
and for chunks when the current chunk has more than `n` bytes left. -/
def readSlice (n : Nat) : ReadM (ByteArray × Bool) := do
  ensure n
  let r ← get
  match r.source with
  | .contiguous b =>
    set { r with position := r.position + n }
    return (b.extract r.position (r.position + n), true)
  | .chunked cs i o =>
    match cs[i]? with
    | some c =>
      if c.size - o > n then
        set { r with source := .chunked cs i (o + n), position := r.position + n }
        return (c.extract o (o + n), true)
      else return (← readBytes n, false)
    | none => return (← readBytes n, false)

/-- Skips `n` bytes. -/
def skip (n : Nat) : ReadM Unit := do
  let _ ← readSlice n

/-- Reads one byte. -/
def readU8 : ReadM Nat := do
  let b ← readBytes 1
  return (b.get! 0).toNat

/-- The number whose little-endian bytes are `b`. -/
def leValue (b : ByteArray) : Nat :=
  b.toList.foldr (fun x acc => acc * 256 + x.toNat) 0

/-- Reads an unsigned integer of `width` bytes, little-endian. -/
def readLE (width : Nat) : ReadM Nat := do
  return leValue (← readBytes width)

/-- The integer of `width` bytes whose two's complement form is `n`. -/
def signed (width n : Nat) : Int :=
  if n < Nat.pow 2 (8 * width - 1) then n else (n : Int) - (Nat.pow 2 (8 * width) : Nat)

/-- Reads a signed integer of `width` bytes, little-endian two's complement. -/
def readSigned (width : Nat) : ReadM Int := do
  return signed width (← readLE width)

/-- Reads a boolean; only the bytes `0` and `1` are booleans. -/
def readBool : ReadM Bool := do
  match ← readU8 with
  | 0 => return false
  | 1 => return true
  | b => throw (.invalidValue "bool" (.notBool b))

/-- Reads varint bytes from the `i`-th on, `acc` holding the value of those before. The
tenth byte may only be `0` or `1`, which keeps the value below `2 ^ 64`. -/
def varintFrom (start : Nat) (i acc : Nat) : ReadM Nat := do
  let byte ← readU8
  if i = 9 ∧ byte > 1 then throw (.malformedVarint start)
  let acc := acc + byte % 128 * Nat.pow 128 i
  if byte < 128 then return acc
  if h : 9 ≤ i then throw (.malformedVarint start)
  else varintFrom start (i + 1) acc
termination_by 10 - i

/-- Reads an unsigned LEB128 varint of at most ten bytes; a malformed one is reported at
the position where it started. -/
def readVarint : ReadM Nat := do
  varintFrom (← get).position 0 0

/-- Reads a length. -/
def readLen : ReadM Nat := readVarint

/-- Reads the element count of a collection named `typeName`, refused when it passes
the reader's cap. -/
def readCount (typeName : String) : ReadM Nat := do
  let count ← readLen
  match (← get).options.maxCollectionLen with
  | some max => if count > max then throw (.invalidValue typeName (.tooManyElements count max))
  | none => pure ()
  return count

/-- Reads a string: a length, then that many bytes of UTF-8. -/
def readString : ReadM String := do
  let len ← readLen
  let (bytes, _) ← readSlice len
  match Text.decodeUtf8 bytes with
  | .ok s => return s
  | .error e => throw (.invalidUtf8 e)

/-- Reads a byte run: a length, then that many bytes. -/
def readByteRun : ReadM (ByteArray × Bool) := do
  readSlice (← readLen)

end Reader

/-- Runs a read on a reader. -/
def ReadM.run' {α : Type} (x : ReadM α) (r : Reader) : Except DecodeError α × Reader :=
  (ExceptT.run x).run r

end WireCodec.Wire
