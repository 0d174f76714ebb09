import WireCodec.Value

/-!
# Equality and hash codes

Every value type has an equality and a 32-bit hash code that agrees with it: equal values
hash alike. Integers up to 32 bits hash to themselves, read as a signed 32-bit number;
wider ones fold their two 32-bit halves together by exclusive or. Floating-point values
are equal when they are numerically equal or both NaN, so `+0.0` equals `-0.0` and every
NaN equals every NaN; both zeros hash to `0` and every NaN hashes like the canonical NaN.
Text and byte strings hash by 32-bit FNV-1a. Identifiers hash the exclusive or of their
four little-endian words, timestamps hash their ticks and ignore their kind.
-/

namespace WireCodec.Equality

/-- A 64-bit word folded to 32 bits: the exclusive or of its halves. -/
def fold64 (v : UInt64) : Int32 :=
  (v ^^^ (v >>> 32)).toUInt32.toInt32

/-- The two 64-bit halves of a 128-bit word, folded and combined. -/
def fold128 (v : Nat) : Int32 :=
  fold64 (v % Nat.pow 2 64).toUInt64 ^^^ fold64 (v / Nat.pow 2 64 % Nat.pow 2 64).toUInt64

/-- 32-bit FNV-1a of a byte string. -/
def fnv1a32 (bytes : ByteArray) : Int32 :=
  (bytes.foldl (fun (h : UInt32) b => (h ^^^ b.toUInt32) * 0x01000193) 0x811C9DC5).toInt32

/-- The low `bits` bits of an integer, as a natural number (two's complement). -/
def wrap (bits : Nat) (n : Int) : Nat :=
  (n % (Nat.pow 2 bits : Nat)).toNat

/-- Hash code of an integer of at most 32 bits: the value read as a signed 32-bit number. -/
def hashNarrow (n : Int) : Int32 :=
  (wrap 32 n).toUInt32.toInt32

/-- Hash code of a 64-bit integer. -/
def hashWide (n : Int) : Int32 :=
  fold64 (wrap 64 n).toUInt64

/-- Hash code of a 128-bit integer. -/
def hashHuge (n : Int) : Int32 :=
  fold128 (wrap 128 n)

/-- Whether a 32-bit pattern is a NaN. -/
def isNaN32 (bits : UInt32) : Bool :=
  bits &&& 0x7F800000 = 0x7F800000 && bits &&& 0x007FFFFF ≠ 0

/-- Whether a 64-bit pattern is a NaN. -/
def isNaN64 (bits : UInt64) : Bool :=
  bits &&& 0x7FF0000000000000 = 0x7FF0000000000000 && bits &&& 0x000FFFFFFFFFFFFF ≠ 0

/-- Whether a 32-bit pattern is a zero of either sign. -/
def isZero32 (bits : UInt32) : Bool :=
  bits &&& 0x7FFFFFFF = 0

/-- Whether a 64-bit pattern is a zero of either sign. -/
def isZero64 (bits : UInt64) : Bool :=
  bits &&& 0x7FFFFFFFFFFFFFFF = 0

/-- Equality of single-precision values given by their bits. -/
def equalsF32 (a b : UInt32) : Bool :=
  if isNaN32 a || isNaN32 b then isNaN32 a && isNaN32 b
  else a = b || (isZero32 a && isZero32 b)

/-- Equality of double-precision values given by their bits. -/
def equalsF64 (a b : UInt64) : Bool :=
  if isNaN64 a || isNaN64 b then isNaN64 a && isNaN64 b
  else a = b || (isZero64 a && isZero64 b)

/-- Hash code of a single-precision value. -/
def hashF32 (bits : UInt32) : Int32 :=
  if isZero32 bits then 0 else if isNaN32 bits then (0x7FC00000 : UInt32).toInt32 else bits.toInt32

/-- Hash code of a double-precision value. -/
def hashF64 (bits : UInt64) : Int32 :=
  if isZero64 bits then 0 else if isNaN64 bits then fold64 0x7FF8000000000000 else fold64 bits

/-- Hash code of a duration. -/
def hashDuration (secs nanos : Nat) : Int32 :=
  fold64 secs.toUInt64 ^^^ nanos.toUInt32.toInt32

/-- Hash code of an identifier: the exclusive or of its four little-endian words. -/
def hashGuid (g : Guid) : Int32 :=
  let b := g.bytes
  (List.range 4).foldl (fun h i =>
    h ^^^ (Guid.leValue ((b.toList.drop (4 * i)).take 4)).toUInt32.toInt32) 0

/-- Hash code of a timestamp: its ticks, folded. -/
def hashTimestamp (t : Timestamp) : Int32 :=
  fold64 t.ticks.toUInt64

/-- Timestamps are equal when their ticks are. -/
def equalsTimestamp (a b : Timestamp) : Bool :=
  a.ticks = b.ticks

/-- The equality of values of a comparable type: floating-point values as above,
timestamps by ticks, everything else by value. Values of other types are never equal. -/
def equals : Schema → Value → Value → Bool
  | .f32, .f32 a, .f32 b => equalsF32 a b
  | .f64, .f64 a, .f64 b => equalsF64 a b
  | .timestamp, .timestamp a, .timestamp b => equalsTimestamp a b
  | _, .int a, .int b => a = b
  | _, .bool a, .bool b => a = b
  | _, .char a, .char b => a = b
  | _, .str a, .str b => a = b
  | _, .bytes a, .bytes b => a.data = b.data
  | _, .guid a, .guid b => a = b
  | _, .duration s n, .duration t m => s = t && n = m
  | _, _, _ => false

/-- The hash code of a value of a comparable type; `0` for other values. -/
def hash : Schema → Value → Int32
  | .int k, .int n => if k.width ≤ 4 then hashNarrow n else if k.width = 8 then hashWide n else hashHuge n
  | _, .bool b => if b then 1 else 0
  | _, .char c => c.val.toInt32
  | _, .f32 b => hashF32 b
  | _, .f64 b => hashF64 b
  | _, .duration s n => hashDuration s n
  | _, .guid g => hashGuid g
  | _, .timestamp t => hashTimestamp t
  | _, .str t => fnv1a32 t.toUTF8
  | _, .bytes b => fnv1a32 b
  | _, _ => 0

end WireCodec.Equality
