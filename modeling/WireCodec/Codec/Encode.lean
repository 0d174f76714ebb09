import WireCodec.Value
import WireCodec.Schema.Shape
import WireCodec.Wire.Writer

/-!
# Encoding

The wire form of a value follows its schema. Integers of fixed width travel
little-endian in two's complement, floating-point values as their bits, booleans as one
byte, characters as their 32-bit code, `()` as nothing. Strings and byte buffers are a
varint length and the bytes. Timestamps are their 64-bit binary form, identifiers their
sixteen bytes, durations 64-bit seconds and 32-bit nanoseconds. Sequences, maps and sets
are a varint count and then their elements (keys and values alternating); arrays and
tuples are their elements alone. An optional value is a presence byte, `0` or `1`, and
the value when present. Pointers are not on the wire.

A record is the fields on the wire in order; an enumeration is the varint position of
its variant; a union is the variant's tag as a varint, the length of the payload as four
little-endian bytes, then the payload: the variant's fields on the wire.

The encoder follows the value, so it terminates on every value. A value that does not
fit its schema writes nothing where it does not fit.
-/

namespace WireCodec

open Wire

namespace Schema

/-- The schema inside its pointers. -/
def unboxed : Schema → Schema
  | pointer _ e => unboxed e
  | s => s

end Schema

namespace Codec

/-- The largest union payload, in bytes: its length travels in four bytes. -/
def maxPayload : Nat := Nat.pow 2 32 - 1

/-- Writes a union variant: the tag, a four-byte slot, the payload, then the payload's
length patched into the slot. -/
def writeVariant (w : Writer) (tag : Nat)
    (payload : Writer → Except EncodeError Writer) : Except EncodeError Writer := do
  let (w, slot) := (w.writeVarint tag).reserveU32
  let start := w.len
  let w ← payload w
  let len := w.len - start
  if len > maxPayload then throw (.lengthOverflow "union payload" len maxPayload)
  return (w.patchU32? slot len).getD w

/-- Writes `v` as a value of schema `s`. -/
def encode (cat : Catalog) (s : Schema) (v : Value) (w : Writer) : Except EncodeError Writer :=
  match s.unboxed, v with
  | .int k, .int n => .ok (w.writeSigned k.width n)
  | .f32, .f32 b => .ok (w.writeLE 4 b.toNat)
  | .f64, .f64 b => .ok (w.writeLE 8 b.toNat)
  | .bool, .bool b => .ok (w.writeBool b)
  | .char, .char c => .ok (w.writeLE 4 c.toNat)
  | .string, .str t => .ok (w.writeStr t)
  | .timestamp, .timestamp t => .ok (w.writeLE 8 t.toBinary.toNat)
  | .guid, .guid g => .ok (w.writeBytes g.bytes)
  | .duration, .duration secs nanos => .ok ((w.writeLE 8 secs).writeLE 4 nanos)
  | .buffer _, .bytes b => .ok (w.writeByteRun b)
  | .list _ _, .bytes b => .ok (w.writeByteRun b)
  | .list _ e, .seq items =>
    items.attach.foldlM (fun w ⟨x, _⟩ => encode cat e x w) (w.writeVarint items.length)
  | .array _ _, .bytes b => .ok (w.writeBytes b)
  | .array _ e, .seq items => items.attach.foldlM (fun w ⟨x, _⟩ => encode cat e x w) w
  | .option _, .none => .ok (w.writeU8 0)
  | .option e, .some x => encode cat e x (w.writeU8 1)
  | .map _ ks vs, .map entries =>
    entries.attach.foldlM (fun w ⟨(k, x), _⟩ => do
      let w ← encode cat ks k w
      encode cat vs x w) (w.writeVarint entries.length)
  | .set _ e, .seq items =>
    items.attach.foldlM (fun w ⟨x, _⟩ => encode cat e x w) (w.writeVarint items.length)
  | .tuple ss, .seq items =>
    (ss.zip items.attach).foldlM (fun w (s, ⟨x, _⟩) => encode cat s x w) w
  | .named n args, .record vals =>
    match cat.find? n with
    | some d =>
      match d.body.subst args with
      | .record fs =>
        (fs.fields.zip vals.attach).foldlM (fun w (f, ⟨x, _⟩) =>
          if f.skip then .ok w else encode cat f.schema x w) w
      | _ => .ok w
    | none => .ok w
  | .named n _, .enum i =>
    match cat.find? n with
    | some { body := .enumeration _, .. } => .ok (w.writeVarint i)
    | _ => .ok w
  | .named n args, .variant i vals =>
    match cat.find? n with
    | some d =>
      match d.body.subst args with
      | .union vs =>
        match vs[i]? with
        | some var =>
          writeVariant w var.tag fun w =>
            (var.fields.fields.zip vals.attach).foldlM (fun w (f, ⟨x, _⟩) =>
              if f.skip then .ok w else encode cat f.schema x w) w
        | none => .ok w
      | _ => .ok w
    | none => .ok w
  | _, _ => .ok w
termination_by sizeOf v
decreasing_by
  all_goals simp_wf
  all_goals first
    | omega
    | (have h := List.sizeOf_lt_of_mem ‹_›; omega)
    | (have h := List.sizeOf_lt_of_mem ‹_›; simp only [Prod.mk.sizeOf_spec] at h; omega)

/-- Whether `v` holds a hashed map or set of more than one entry, whose order on the wire
is the order of its entries and so not determined by its contents. -/
def hashOrdered (cat : Catalog) (s : Schema) (v : Value) : Bool :=
  match s.unboxed, v with
  | .map .hashed .., .map es => es.length > 1
  | .set .hashed _, .seq xs => xs.length > 1
  | .map _ ks vs, .map es =>
    es.attach.any fun ⟨(k, x), _⟩ => hashOrdered cat ks k || hashOrdered cat vs x
  | .set _ e, .seq xs => xs.attach.any fun ⟨x, _⟩ => hashOrdered cat e x
  | .list _ e, .seq xs => xs.attach.any fun ⟨x, _⟩ => hashOrdered cat e x
  | .array _ e, .seq xs => xs.attach.any fun ⟨x, _⟩ => hashOrdered cat e x
  | .tuple ss, .seq xs => (ss.zip xs.attach).any fun (s, ⟨x, _⟩) => hashOrdered cat s x
  | .option e, .some x => hashOrdered cat e x
  | .named n args, .record vals =>
    match cat.find? n with
    | some d =>
      match d.body.subst args with
      | .record fs => (fs.fields.zip vals.attach).any fun (f, ⟨x, _⟩) => hashOrdered cat f.schema x
      | _ => false
    | none => false
  | .named n args, .variant i vals =>
    match cat.find? n with
    | some d =>
      match d.body.subst args with
      | .union vs =>
        ((vs.getD i default).fields.fields.zip vals.attach).any fun (f, ⟨x, _⟩) =>
          hashOrdered cat f.schema x
      | _ => false
    | none => false
  | _, _ => false
termination_by sizeOf v
decreasing_by
  all_goals simp_wf
  all_goals first
    | omega
    | (have h := List.sizeOf_lt_of_mem ‹_›; omega)
    | (have h := List.sizeOf_lt_of_mem ‹_›; simp only [Prod.mk.sizeOf_spec] at h; omega)

end Codec

end WireCodec
