import WireCodec.Codec.Encode

/-!
# Capacity estimates

Before encoding, a buffer is sized by an estimate of the encoded length. A type of fixed
size estimates its size. A string or a buffer estimates five bytes for its length and
then its bytes. A sequence or a set estimates five bytes for its count, then the fixed
size of its elements times their number when the element type has one, and otherwise
the sum of its elements' estimates; an array the same without the five bytes, and a map
the estimate of its keys plus that of its values, the count counted once. An optional
value estimates one byte and its value, a record or a tuple the sum of its parts, an
enumeration ten bytes, a union nine bytes of header and its variant's fields. A type
with neither a fixed size nor an estimate of its own estimates sixteen bytes.

Sums and products of sizes stop at the largest 64-bit count.
-/

namespace WireCodec

open Wire

namespace Codec

/-- The largest count a 64-bit machine word holds. -/
def wordMax : Nat := Nat.pow 2 64 - 1

/-- Addition that stops at `wordMax`. -/
def satAdd (a b : Nat) : Nat := min (a + b) wordMax

/-- Bytes estimated for a length prefix. -/
def lenPrefixEstimate : Nat := 5

/-- Bytes of a union's header: a varint tag of at most five bytes and a four-byte length. -/
def variantHeaderMax : Nat := 9

/-- The estimate of a type with neither a fixed size nor an estimate of its own. -/
def defaultCapacity : Nat := 16

/-- The estimate of an enumeration: the longest varint. -/
def enumCapacity : Nat := 10

/-- The estimate of `len` elements of schema `e` whose own estimates are `caps`. -/
def elementsCapacity (cat : Catalog) (e : Schema) (len : Nat) (caps : List Nat) : Nat :=
  lenPrefixEstimate + match e.fixedSize? cat with
    | some size => min (size * len) wordMax
    | none => caps.foldl satAdd 0

/-- The estimated encoded length of `v` as a value of schema `s`. -/
def capacity (cat : Catalog) (s : Schema) (v : Value) : Nat :=
  match s.fixedSize? cat with
  | some size => size
  | none =>
    match s.unboxed, v with
    | .string, .str t => lenPrefixEstimate + t.utf8ByteSize
    | .buffer _, .bytes b => lenPrefixEstimate + b.size
    | .list _ e, .bytes b => elementsCapacity cat e b.size []
    | .list _ e, .seq items =>
      elementsCapacity cat e items.length (items.attach.map fun ⟨x, _⟩ => capacity cat e x)
    | .set _ e, .seq items =>
      elementsCapacity cat e items.length (items.attach.map fun ⟨x, _⟩ => capacity cat e x)
    | .array n e, .bytes _ => elementsCapacity cat e n [] - lenPrefixEstimate
    | .array n e, .seq items =>
      elementsCapacity cat e n (items.attach.map fun ⟨x, _⟩ => capacity cat e x) - lenPrefixEstimate
    | .map _ ks vs, .map entries =>
      elementsCapacity cat ks entries.length
          (entries.attach.map fun ⟨(k, _), _⟩ => capacity cat ks k) +
        elementsCapacity cat vs entries.length
          (entries.attach.map fun ⟨(_, x), _⟩ => capacity cat vs x) - lenPrefixEstimate
    | .option _, .none => 1
    | .option e, .some x => 1 + capacity cat e x
    | .tuple ss, .seq items =>
      ((ss.zip items.attach).map fun (s, ⟨x, _⟩) => capacity cat s x).foldr (· + ·) 0
    | .named n args, .record vals =>
      match cat.find? n with
      | some d =>
        match d.body.subst args with
        | .record fs =>
          ((fs.fields.zip vals.attach).map fun (f, ⟨x, _⟩) =>
            if f.skip then 0 else capacity cat f.schema x).foldr (· + ·) 0
        | .enumeration _ => enumCapacity
        | _ => defaultCapacity
      | none => defaultCapacity
    | .named n args, .variant i vals =>
      match cat.find? n with
      | some d =>
        match d.body.subst args with
        | .union vs =>
          match vs[i]? with
          | some var =>
            variantHeaderMax + ((var.fields.fields.zip vals.attach).map fun (f, ⟨x, _⟩) =>
              if f.skip then 0 else capacity cat f.schema x).foldr (· + ·) 0
          | none => variantHeaderMax
        | .enumeration _ => enumCapacity
        | _ => defaultCapacity
      | none => defaultCapacity
    | .named n _, _ =>
      match cat.find? n with
      | some { body := .enumeration _, .. } => enumCapacity
      | _ => defaultCapacity
    | _, _ => defaultCapacity
termination_by sizeOf v
decreasing_by
  all_goals simp_wf
  all_goals first
    | omega
    | (have h := List.sizeOf_lt_of_mem ‹_›; omega)
    | (have h := List.sizeOf_lt_of_mem ‹_›; simp only [Prod.mk.sizeOf_spec] at h; omega)

/-- The initial size of the buffer a value is encoded into: the fixed size of the type
or the value's estimate, plus room for a union's header when the type holds unions. -/
def bufferCapacity (cat : Catalog) (s : Schema) (v : Value) (holdsUnion : Bool) : Nat :=
  (match s.fixedSize? cat with
    | some size => size
    | none => capacity cat s v) + if holdsUnion then variantHeaderMax else 0

end Codec

end WireCodec
