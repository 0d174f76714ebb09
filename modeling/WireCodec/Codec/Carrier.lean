import WireCodec.Wire.Reader

/-!
# Carriers of bytes

Encoded bytes are handed over in one of five representations: a plain vector, a shared
buffer, a growable buffer, a window over a shared array, or a sequence of buffers. A
carrier is such a value with its layout: a window knows its array and where it lies in
it, a sequence knows its segments, none of them empty.

Converting a carrier to a representation keeps it when it already is one (a window
stays the same window over the same array, a sequence keeps its segments) and otherwise
copies its bytes into a fresh one.
-/

namespace WireCodec

/-- The representations bytes are handed over in. -/
inductive Representation where
  | vec
  | shared
  | growable
  | segment
  | sequence
  deriving DecidableEq, Repr

/-- Bytes with their layout. -/
inductive Carrier where
  /-- A plain or growable buffer. -/
  | slice (bytes : ByteArray)
  /-- A shared buffer. -/
  | shared (bytes : ByteArray)
  /-- `count` bytes of `array` from `offset`. -/
  | segment (array : ByteArray) (offset count : Nat)
  /-- Segments in order. -/
  | sequence (segments : List ByteArray)

namespace Carrier

/-- A sequence of the given segments, the empty ones dropped. -/
def ofSegments (segments : List ByteArray) : Carrier :=
  .sequence (segments.filter fun s => s.size != 0)

/-- The window of `count` bytes from `offset`, when it lies inside `array`. -/
def window? (array : ByteArray) (offset count : Nat) : Option Carrier :=
  if offset + count ≤ array.size then some (.segment array offset count) else none

/-- The bytes, joined. -/
def flatten : Carrier → ByteArray
  | slice b => b
  | shared b => b
  | segment a o n => a.extract o (o + n)
  | sequence ss => ss.foldl (· ++ ·) .empty

/-- The carrier in the representation `r`. -/
def convert (r : Representation) (c : Carrier) : Carrier :=
  match r, c with
  | .vec, c => slice c.flatten
  | .growable, c => slice c.flatten
  | .shared, shared b => shared b
  | .shared, c => shared c.flatten
  | .segment, segment a o n => segment a o n
  | .segment, c => let b := c.flatten; segment b 0 b.size
  | .sequence, sequence ss => sequence ss
  | .sequence, c => ofSegments [c.flatten]

/-- A reader over the bytes: one buffer, unless the bytes are a sequence of other than
one segment. -/
def reader : Carrier → Wire.Reader
  | sequence [s] => .ofBytes s
  | sequence ss => .ofChunks ss.toArray
  | c => .ofBytes c.flatten

end Carrier

end WireCodec
