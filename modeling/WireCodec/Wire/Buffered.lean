import WireCodec.Wire.Pool
import WireCodec.Codec.Entry

/-!
# A writer over a pooled buffer

A writer keeps its bytes in one buffer rented from a pool (`BufferPool`). The buffer's
first `written` bytes are committed; the bytes after them are the span, room for the next
write, holding whatever earlier spans left there. A write asks for a span of at least the
room it needs (`getSpan`), fills its start (`fill`) and commits what it filled (`advance`).

A span too short grows the buffer (`grow`). When the room needed fits the buffer's
capacity, the buffer's length goes to the room needed, twice the bytes committed or 256,
whichever is largest, but never past the capacity. Otherwise a buffer of the room needed,
or of twice the capacity if that is more, is rented, the committed bytes are copied into
it, and the old buffer goes back to the pool.

Handing the bytes over ends the writer (`into`). As a vector, bytes that fill less than
half of the capacity are copied and the buffer goes back to the pool; otherwise the
buffer itself, cut to them, leaves the pool. A shared buffer and a sequence take that
vector; a growable buffer and a window copy the bytes.

`Writer` keeps the committed bytes only. `BufferedWriter.view` is that writer, and the
calls here are those of `Writer` seen through it.
-/

namespace WireCodec.Wire

/-- The least length a growing buffer reaches. -/
def minSpan : Nat := 256

/-- The longest LEB128 form of a 64-bit value. -/
def maxVarintLen : Nat := 10

/-- A writer over a pooled buffer. -/
structure BufferedWriter where
  buffer : PooledBuffer
  /-- How many bytes from the buffer's start are committed. -/
  written : Nat
  /-- Where the payload starts: after the flag byte of a frame. -/
  start : Nat
  compressible : Bool
  finished : Bool
  written_le : written ≤ buffer.data.size

namespace BufferedWriter

/-- A writer over a buffer of at least `capacity` bytes rented from `p`. -/
def withCapacity (p : BufferPool) (capacity : Nat) : BufferedWriter × BufferPool :=
  ((⟨(p.rent capacity).1, 0, 0, false, false, Nat.zero_le _⟩ : BufferedWriter), (p.rent capacity).2)

/-- A writer with a small first buffer. -/
def new (p : BufferPool) : BufferedWriter × BufferPool :=
  withCapacity p minSpan

/-- Bytes committed. -/
def len (w : BufferedWriter) : Nat := w.written

/-- Bytes of payload committed, the flag byte of a frame excluded. -/
def payloadLen (w : BufferedWriter) : Nat := w.written - w.start

/-- The committed bytes. -/
def committed (w : BufferedWriter) : ByteArray := w.buffer.data.extract 0 w.written

/-- The writer of the committed bytes alone. -/
def view (w : BufferedWriter) : Writer := ⟨w.committed, w.start, w.compressible, w.finished⟩

/-- The buffer grown to hold `hint` bytes after those committed. -/
def grow (w : BufferedWriter) (p : BufferPool) (hint : Nat) : BufferedWriter × BufferPool :=
  if h : w.written + hint ≤ w.buffer.capacity then
    -- the buffer's own capacity has the room: lengthen it, to twice the bytes committed
    -- or to the least span if either is more, within the capacity
    ({ w with
        buffer := w.buffer.resize (min (max (max (w.written + hint)
          (Codec.satAdd w.written w.written)) minSpan) w.buffer.capacity)
        written_le := by rw [PooledBuffer.size_resize]; omega }, p)
  else
    ({ w with
        buffer := ((p.rent (max (w.written + hint) (Codec.satAdd w.buffer.capacity
          w.buffer.capacity))).1.extend w.committed).resize (w.written + hint)
        written_le := by rw [PooledBuffer.size_resize]; omega },
      (p.rent (max (w.written + hint) (Codec.satAdd w.buffer.capacity
        w.buffer.capacity))).2.release w.buffer)

/-- The writer with a span of at least `sizeHint` bytes, and at least one, after the
committed bytes. -/
def getSpan (w : BufferedWriter) (p : BufferPool) (sizeHint : Nat) : BufferedWriter × BufferPool :=
  if w.buffer.data.size - w.written < max sizeHint 1 then w.grow p (max sizeHint 1) else (w, p)

/-- The span's first bytes set to `bs`. -/
def fill (w : BufferedWriter) (bs : ByteArray) : BufferedWriter :=
  { w with
    buffer := w.buffer.write w.written bs
    written_le := by rw [PooledBuffer.size_write bs w.written_le]; omega }

theorem room_fill (w : BufferedWriter) (bs : ByteArray) :
    w.written + bs.size ≤ (w.fill bs).buffer.data.size := by
  show w.written + bs.size ≤ (w.buffer.write w.written bs).data.size
  rw [PooledBuffer.size_write bs w.written_le]
  omega

/-- Commits `count` bytes of the span, which holds them. -/
def advance (w : BufferedWriter) (count : Nat) (h : w.written + count ≤ w.buffer.data.size) :
    BufferedWriter :=
  { w with written := w.written + count, written_le := h }

/-- The text of the failure of `advance?`. -/
def advanceFault (count : Nat) : String := s!"advanced {count} bytes past the end of the span"

/-- Commits `count` bytes of the span, failing when the span is shorter. -/
def advance? (w : BufferedWriter) (count : Nat) : Except String BufferedWriter :=
  if h : w.written + count ≤ w.buffer.data.size then .ok (w.advance count h)
  else .error (advanceFault count)

/-- Fills the span with `bs` and commits them. -/
def commit (w : BufferedWriter) (bs : ByteArray) : BufferedWriter :=
  (w.fill bs).advance bs.size (room_fill w bs)

/-- Writes bytes as they are. -/
def writeBytes (w : BufferedWriter) (p : BufferPool) (bs : ByteArray) : BufferedWriter × BufferPool :=
  ((w.getSpan p bs.size).1.commit bs, (w.getSpan p bs.size).2)

/-- Writes one byte. -/
def writeU8 (w : BufferedWriter) (p : BufferPool) (x : UInt8) : BufferedWriter × BufferPool :=
  w.writeBytes p (ByteArray.empty.push x)

/-- Writes `n` as `width` little-endian bytes. -/
def writeLE (w : BufferedWriter) (p : BufferPool) (width n : Nat) : BufferedWriter × BufferPool :=
  w.writeBytes p (Writer.leBytes n width)

/-- Writes an integer of `width` bytes in two's complement, little-endian. -/
def writeSigned (w : BufferedWriter) (p : BufferPool) (width : Nat) (n : Int) :
    BufferedWriter × BufferPool :=
  w.writeLE p width (n % (Nat.pow 2 (8 * width) : Nat)).toNat

/-- Writes a boolean as the byte `0` or `1`. -/
def writeBool (w : BufferedWriter) (p : BufferPool) (b : Bool) : BufferedWriter × BufferPool :=
  w.writeU8 p (if b then 1 else 0)

/-- Writes `v` as a LEB128 varint into a span of the longest such form. -/
def writeVarint (w : BufferedWriter) (p : BufferPool) (v : Nat) : BufferedWriter × BufferPool :=
  ((w.getSpan p maxVarintLen).1.commit ⟨(Writer.varintBytes v).toArray⟩,
    (w.getSpan p maxVarintLen).2)

/-- Writes a string: its UTF-8 length, then its UTF-8 bytes. -/
def writeStr (w : BufferedWriter) (p : BufferPool) (s : String) : BufferedWriter × BufferPool :=
  (w.writeVarint p s.utf8ByteSize).1.writeBytes (w.writeVarint p s.utf8ByteSize).2 s.toUTF8

/-- Writes a byte run: its length, then its bytes. -/
def writeByteRun (w : BufferedWriter) (p : BufferPool) (b : ByteArray) :
    BufferedWriter × BufferPool :=
  (w.writeVarint p b.size).1.writeBytes (w.writeVarint p b.size).2 b

/-- Writes four zero bytes; answers where they start. -/
def reserveU32 (w : BufferedWriter) (p : BufferPool) : (BufferedWriter × BufferPool) × Nat :=
  (w.writeLE p 4 0, w.written)

/-- Overwrites the four bytes at `pos` with `value`, little-endian; `none` unless they are
committed. -/
def patchU32? (w : BufferedWriter) (pos value : Nat) : Option BufferedWriter :=
  if h : pos + 4 ≤ w.written then
    some { w with
      buffer := w.buffer.write pos (Writer.leBytes value 4)
      written_le := by
        rw [PooledBuffer.size_write _ (by have := w.written_le; omega)]
        have := w.written_le
        omega }
  else none

/-- A buffer of `bound + 1` bytes, zeros but for the flag of a compressed frame first. -/
def lz4Frame (b : PooledBuffer) (bound : Nat) : PooledBuffer :=
  (b.resize (bound + 1)).write 0 (ByteArray.empty.push flagLz4)

theorem size_lz4Frame (b : PooledBuffer) (bound : Nat) : (lz4Frame b bound).data.size = bound + 1 := by
  rw [lz4Frame, PooledBuffer.size_write _ (by rw [PooledBuffer.size_resize]; omega),
    PooledBuffer.size_resize]
  simp

/-- A block copied after the flag fits in the frame. -/
theorem le_size_lz4Frame_write (b : PooledBuffer) (bound : Nat) (block : ByteArray) :
    block.size + 1 ≤ ((lz4Frame b bound).write 1 block).data.size := by
  rw [PooledBuffer.size_write _ (by rw [size_lz4Frame]; omega)]
  omega

/-- Compresses the payload of a frame writer, once, into a rented frame. Payloads shorter
than the options' minimum (and empty ones) stay stored, and so do payloads the block
would not shrink. Returns the writer and the pool after the call, the writer finished
unless the call was refused, and the payload length. -/
def compressLz4 (w : BufferedWriter) (p : BufferPool) (o : CompressionOptions) :
    (BufferedWriter × BufferPool) × Except EncodeError Nat :=
  if !w.compressible || w.finished then ((w, p), .error .notCompressible)
  else
    let w := { w with finished := true }
    let plain := w.payloadLen
    if plain < max o.minCompressSize 1 then ((w, p), .ok plain)
    else
      let bound := Lz4.compressBound plain
      if bound = 0 then ((w, p), .error (.lengthOverflow "lz4 payload" plain Lz4.maxInputSize))
      else
        let r := p.rent (bound + 1)
        let src := w.buffer.data.extract 1 w.written
        let block := match o.mode with
          | .fast acceleration => Lz4.compressFast .bits64 src bound acceleration
          | .high level => Lz4.compressHC .bits64 src bound level
        match block with
        | .error e => ((w, r.2.release (lz4Frame r.1 bound)), .error (.compression e))
        | .ok block =>
          if block.size < plain then
            (({ w with
                buffer := (lz4Frame r.1 bound).write 1 block
                written := block.size + 1
                written_le := le_size_lz4Frame_write r.1 bound block }, r.2.release w.buffer), .ok plain)
          else ((w, r.2.release (lz4Frame r.1 bound)), .ok plain)

/-- A frame writer: the flag byte of a stored frame written, the payload after it. -/
def framed (p : BufferPool) (capacity : Nat) : BufferedWriter × BufferPool :=
  let r := { (withCapacity p (Codec.satAdd capacity 1)).1 with compressible := true }.writeU8
    (withCapacity p (Codec.satAdd capacity 1)).2 flagStored
  ({ r.1 with start := 1 }, r.2)

/-- The committed bytes as a vector, ending the writer, and the pool after it: bytes that
fill less than half of the capacity are copied and the buffer goes back; otherwise the
buffer, cut to them, leaves the pool. -/
def intoVec (w : BufferedWriter) (p : BufferPool) : ByteArray × BufferPool :=
  if w.written * 2 < w.buffer.capacity then (w.committed, p.release w.buffer)
  else ((w.buffer.truncate w.written).data, p)

/-- The committed bytes handed over in the representation `rep`, ending the writer, and
the pool after it. -/
def into (w : BufferedWriter) (p : BufferPool) : Representation → Carrier × BufferPool
  | .vec => (.slice (w.intoVec p).1, (w.intoVec p).2)
  | .shared => (.shared (w.intoVec p).1, (w.intoVec p).2)
  | .growable => (.slice w.committed, p.release w.buffer)
  | .segment => (.segment w.committed 0 w.committed.size, p.release w.buffer)
  | .sequence => (Carrier.ofSegments [(w.intoVec p).1], (w.intoVec p).2)

end BufferedWriter

end WireCodec.Wire
