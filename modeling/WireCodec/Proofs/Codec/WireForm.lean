import WireCodec.Codec.Encode

/-!
# The wire form of a value

`WireForm cat d s x` says that `x.value` is a value of the schema `s`, that its bytes on
the wire are `x.bytes`, and that reading those bytes gives back `x.read`: the value with
every skipped field replaced by its default, at every depth. The rules follow the format
of each kind of type, with the conditions its values meet: integers within their range,
durations below a second of nanoseconds, lengths that fit 64 bits, the keys of a map or
a set distinct as they are read back, the payload of a union within 32 bits. A sorted map
or set reads its entries back in key order, whatever order they were written in: keys
with skipped fields may order otherwise once those fields are at their defaults. The index `d` bounds how many declarations are unfolded along any path of the
value; the decoder needs that much of its budget.

A catalog made by the derive is `Catalog.WellFormed`: its unions declare distinct 32-bit
tags and its enumerations fewer than `2 ^ 64` variants.
-/

namespace WireCodec

open Wire

/-- A value, the value its bytes read back as, and the bytes. -/
structure Written where
  value : Value
  read : Value
  bytes : List UInt8

/-- What the derive guarantees of a declaration: a union declares distinct tags of 32
bits, and an enumeration fewer than `2 ^ 64` variants. -/
def Decl.WellFormed (decl : Decl) : Prop :=
  match decl.body with
  | .union vs => (vs.map (·.tag)).Nodup ∧ ∀ v ∈ vs, v.tag ≤ Codec.maxPayload
  | .enumeration names => names.length ≤ Nat.pow 2 64
  | _ => True

/-- Every declaration of the catalog is well formed. -/
def Catalog.WellFormed (cat : Catalog) : Prop :=
  ∀ decl ∈ cat, decl.WellFormed

/-- `x` is a value of `s` written as `x.bytes` and read back as `x.read`, unfolding at
most `d` declarations along any path. -/
inductive WireForm (cat : Catalog) : Nat → Schema → Written → Prop
  | int {d : Nat} (k : IntKind) (n : Int) (hlo : k.lo ≤ n) (hhi : n ≤ k.hi) :
      WireForm cat d (.int k) ⟨.int n, .int n,
        (Writer.leBytes (n % (Nat.pow 2 (8 * k.width) : Nat)).toNat k.width).data.toList⟩
  | f32 {d : Nat} (b : UInt32) :
      WireForm cat d .f32 ⟨.f32 b, .f32 b, (Writer.leBytes b.toNat 4).data.toList⟩
  | f64 {d : Nat} (b : UInt64) :
      WireForm cat d .f64 ⟨.f64 b, .f64 b, (Writer.leBytes b.toNat 8).data.toList⟩
  | bool {d : Nat} (b : Bool) :
      WireForm cat d .bool ⟨.bool b, .bool b, [if b then 1 else 0]⟩
  | char {d : Nat} (c : Char) :
      WireForm cat d .char ⟨.char c, .char c, (Writer.leBytes c.toNat 4).data.toList⟩
  | unit {d : Nat} :
      WireForm cat d .unit ⟨.unit, .unit, []⟩
  | string {d : Nat} (t : String) (h : t.utf8ByteSize < Nat.pow 2 64) :
      WireForm cat d .string
        ⟨.str t, .str t, Writer.varintBytes t.utf8ByteSize ++ t.toUTF8.data.toList⟩
  | timestamp {d : Nat} (t : Timestamp) :
      WireForm cat d .timestamp
        ⟨.timestamp t, .timestamp t, (Writer.leBytes t.toBinary.toNat 8).data.toList⟩
  | guid {d : Nat} (g : Guid) :
      WireForm cat d .guid ⟨.guid g, .guid g, g.bytes.data.toList⟩
  | duration {d : Nat} (secs nanos : Nat) (hs : secs < Nat.pow 2 64) (hn : nanos < 1000000000) :
      WireForm cat d .duration ⟨.duration secs nanos, .duration secs nanos,
        (Writer.leBytes secs 8).data.toList ++ (Writer.leBytes nanos 4).data.toList⟩
  | buffer {d : Nat} (k : BufferKind) (b : ByteArray) (h : b.size < Nat.pow 2 64) :
      WireForm cat d (.buffer k) ⟨.bytes b, .bytes b, Writer.varintBytes b.size ++ b.data.toList⟩
  /-- A sequence of bytes travels as one run. -/
  | byteList {d : Nat} (k : ListKind) (e : Schema) (he : e.isByte = true) (b : ByteArray)
      (h : b.size < Nat.pow 2 64) :
      WireForm cat d (.list k e) ⟨.bytes b, .bytes b, Writer.varintBytes b.size ++ b.data.toList⟩
  | list {d : Nat} (k : ListKind) (e : Schema) (he : e.isByte = false) (xs : List Written)
      (h : xs.length < Nat.pow 2 64) (hx : ∀ x ∈ xs, WireForm cat d e x) :
      WireForm cat d (.list k e) ⟨.seq (xs.map (·.value)), .seq (xs.map (·.read)),
        Writer.varintBytes xs.length ++ (xs.map (·.bytes)).flatten⟩
  | byteArray {d : Nat} (e : Schema) (he : e.isByte = true) (b : ByteArray) :
      WireForm cat d (.array b.size e) ⟨.bytes b, .bytes b, b.data.toList⟩
  | array {d : Nat} (e : Schema) (he : e.isByte = false) (xs : List Written)
      (hx : ∀ x ∈ xs, WireForm cat d e x) :
      WireForm cat d (.array xs.length e) ⟨.seq (xs.map (·.value)), .seq (xs.map (·.read)),
        (xs.map (·.bytes)).flatten⟩
  | none {d : Nat} (e : Schema) :
      WireForm cat d (.option e) ⟨.none, .none, [0]⟩
  | some {d : Nat} (e : Schema) (x : Written) (hx : WireForm cat d e x) :
      WireForm cat d (.option e) ⟨.some x.value, .some x.read, 1 :: x.bytes⟩
  /-- Pointers are not on the wire. -/
  | pointer {d : Nat} (p : Pointer) (e : Schema) (x : Written) (hx : WireForm cat d e x) :
      WireForm cat d (.pointer p e) x
  | map {d : Nat} (keyed : Keyed) (ks vs : Schema) (xs : List (Written × Written))
      (h : xs.length < Nat.pow 2 64) (hk : ∀ x ∈ xs, WireForm cat d ks x.1)
      (hv : ∀ x ∈ xs, WireForm cat d vs x.2)
      (hkeys : (xs.map (·.1.read)).Pairwise fun a b => Value.same a b = false) :
      WireForm cat d (.map keyed ks vs) ⟨.map (xs.map fun x => (x.1.value, x.2.value)),
        .map (keyed.arrange Prod.fst (xs.map fun x => (x.1.read, x.2.read))),
        Writer.varintBytes xs.length ++ (xs.map fun x => x.1.bytes ++ x.2.bytes).flatten⟩
  | set {d : Nat} (keyed : Keyed) (e : Schema) (xs : List Written) (h : xs.length < Nat.pow 2 64)
      (hx : ∀ x ∈ xs, WireForm cat d e x)
      (hkeys : (xs.map (·.read)).Pairwise fun a b => Value.same a b = false) :
      WireForm cat d (.set keyed e) ⟨.seq (xs.map (·.value)), .seq (keyed.arrange id (xs.map (·.read))),
        Writer.varintBytes xs.length ++ (xs.map (·.bytes)).flatten⟩
  | tuple {d : Nat} (xs : List (Schema × Written)) (hx : ∀ x ∈ xs, WireForm cat d x.1 x.2) :
      WireForm cat d (.tuple (xs.map (·.1))) ⟨.seq (xs.map (·.2.value)), .seq (xs.map (·.2.read)),
        (xs.map (·.2.bytes)).flatten⟩
  /-- A record is its fields on the wire in order; a skipped field reads back as its
  default. -/
  | record {d : Nat} (n : String) (args : List Schema) (decl : Decl) (fs : Fields)
      (hfind : cat.find? n = some decl) (hbody : decl.body.subst args = .record fs)
      (xs : List (Field × Written)) (hfields : xs.map (·.1) = fs.fields)
      (hon : ∀ x ∈ xs, x.1.skip = false → WireForm cat d x.1.schema x.2)
      (hoff : ∀ x ∈ xs, x.1.skip = true → x.2.read = x.1.schema.default cat ∧ x.2.bytes = []) :
      WireForm cat (d + 1) (.named n args) ⟨.record (xs.map (·.2.value)),
        .record (xs.map (·.2.read)), (xs.map (·.2.bytes)).flatten⟩
  | enum {d : Nat} (n : String) (args : List Schema) (decl : Decl) (names : List String)
      (hfind : cat.find? n = some decl) (hbody : decl.body = .enumeration names) (i : Nat)
      (hi : i < names.length) :
      WireForm cat (d + 1) (.named n args) ⟨.enum i, .enum i, Writer.varintBytes i⟩
  /-- A union variant is its tag, the length of its payload in four bytes, and the
  payload: the variant's fields on the wire. -/
  | union {d : Nat} (n : String) (args : List Schema) (decl : Decl) (vs : List Variant)
      (hfind : cat.find? n = some decl) (hbody : decl.body.subst args = .union vs) (i : Nat)
      (var : Variant) (hvar : vs[i]? = some var) (xs : List (Field × Written))
      (hfields : xs.map (·.1) = var.fields.fields)
      (hon : ∀ x ∈ xs, x.1.skip = false → WireForm cat d x.1.schema x.2)
      (hoff : ∀ x ∈ xs, x.1.skip = true → x.2.read = x.1.schema.default cat ∧ x.2.bytes = [])
      (hfit : (xs.map (·.2.bytes)).flatten.length ≤ Codec.maxPayload) :
      WireForm cat (d + 1) (.named n args) ⟨.variant i (xs.map (·.2.value)),
        .variant i (xs.map (·.2.read)),
        Writer.varintBytes var.tag ++
          (Writer.leBytes (xs.map (·.2.bytes)).flatten.length 4).data.toList ++
          (xs.map (·.2.bytes)).flatten⟩
  /-- A union whose codec reads and writes nothing. -/
  | opaqueUnion {d : Nat} (n : String) (args : List Schema) (decl : Decl) (tags : List (Nat × String))
      (hfind : cat.find? n = some decl) (hbody : decl.body.subst args = .opaqueUnion tags) :
      WireForm cat (d + 1) (.named n args) ⟨.unit, .unit, []⟩

end WireCodec
