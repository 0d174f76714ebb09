import WireCodec.Codec.Encode
import WireCodec.Wire.Reader

/-!
# Decoding

Decoding reads what encoding writes, checking as it goes. A boolean byte other than `0`
or `1`, a presence byte other than `0` or `1`, a character code that is no Unicode
scalar value, a timestamp word of no timestamp, and a duration with a second or more of
nanoseconds are refused, each naming its type. A collection's count above the reader's
cap is refused before any element is read. Sequences, arrays and sets of bytes are read
as one run, so a short run fails as a whole. A map or a set that repeats a key is
refused once the repeated entry has been read. A timestamp gets the kind the reader's
options force, if any.

A union reads its tag, which must fit 32 bits, and the length of its payload, which must
fit in what is left; then the payload of the variant with that tag, which must be
exactly as long as declared. An enumeration's index must name a variant.

Declared types may nest themselves, so decoding unfolds at most `fuel` declarations
along any path and fails with `tooDeep` past that. `decodeValue` gives one unfolding of
each declaration per byte left, and one round more. That is enough for every value in
which a declaration met again with no byte read in between comes back with the same body;
a generic declaration that holds its parameter bare, applied to itself as in `W<W<u8>>`,
meets a new body at each layer and can need more.
-/

namespace WireCodec

open Wire Reader

namespace Codec

/-- Runs `x` `n` times and collects the results in order; `acc` holds those read so
far, last first. -/
def readMany {α : Type} (x : ReadM α) : Nat → List α → ReadM (List α)
  | 0, acc => pure acc.reverse
  | n + 1, acc => do
    let a ← x
    readMany x n (a :: acc)

/-- Reads `n` entries of a map or a set named `name` with `x`, refusing a key that is
already there. Sorted containers keep their entries in key order, hashed ones in the
order read. -/
def readKeyed {β : Type} (keyed : Keyed) (key : β → Value) (name : String) (x : ReadM β) :
    Nat → List β → ReadM (List β)
  | 0, acc => pure (if keyed = .sorted then acc else acc.reverse)
  | n + 1, acc => do
    let e ← x
    if hasKey key (key e) acc then throw (.invalidValue name .duplicateKey)
    readKeyed keyed key name x n (if keyed = .sorted then insertSorted key e acc else e :: acc)

/-- Reads a union variant of the union `name`: the tag, the payload length, and the
payload read by `payload` from the tag, which must use exactly the declared bytes. -/
def readVariant (name : String) (payload : Nat → ReadM Value) : ReadM Value := do
  let raw ← readVarint
  if raw > maxPayload then throw (.invalidDiscriminator name raw)
  let declared ← readLE 4
  let r ← get
  if declared > r.remaining then throw (.unexpectedEof declared r.remaining)
  let v ← payload raw
  let consumed := (← get).position - r.position
  if consumed ≠ declared then throw (.lengthMismatch name declared consumed)
  return v

/-- Reads a value of schema `s`, unfolding at most `fuel` declarations along a path. -/
def decode (cat : Catalog) : Nat → Schema → ReadM Value
  | _, .int k => do
    let n ← readLE k.width
    return .int (if k.signed then signed k.width n else n)
  | _, .f32 => return .f32 (← readLE 4).toUInt32
  | _, .f64 => return .f64 (← readLE 8).toUInt64
  | _, .bool => return .bool (← readBool)
  | _, .char => do
    let c ← readLE 4
    if c.isValidChar then return .char (Char.ofNat c)
    else throw (.invalidValue "char" (.notScalarValue c))
  | _, .unit => return .unit
  | _, .string => return .str (← readString)
  | _, .timestamp => do
    let raw ← readLE 8
    match Timestamp.ofBinary? raw.toUInt64 with
    | some t =>
      match (← get).options.timeKind with
      | some k => return .timestamp (t.withKind k)
      | none => return .timestamp t
    | none => throw (.invalidValue "Timestamp" (.binaryOutOfRange raw))
  | _, .guid => return .guid (Guid.ofBytes (← readBytes 16))
  | _, .duration => do
    let secs ← readLE 8
    let nanos ← readLE 4
    if nanos ≥ 1000000000 then throw (.invalidValue "Duration" (.nanosTooLarge nanos))
    return .duration secs nanos
  | _, .buffer _ => return .bytes (← readByteRun).1
  | fuel, .list _ e => do
    let count ← readCount ((Schema.list .vec e).typeName cat)
    if e.isByte then return .bytes (← readSlice count).1
    else return .seq (← readMany (decode cat fuel e) count [])
  | fuel, .array n e => do
    if e.isByte then return .bytes (← readSlice n).1
    else return .seq (← readMany (decode cat fuel e) n [])
  | fuel, .option e => do
    match ← readU8 with
    | 0 => return .none
    | 1 => return .some (← decode cat fuel e)
    | b => throw (.invalidValue ((Schema.option e).typeName cat) (.presenceByte b))
  | fuel, .pointer _ e => decode cat fuel e
  | fuel, .map keyed ks vs => do
    let name := (Schema.map keyed ks vs).typeName cat
    let count ← readCount name
    let entry : ReadM (Value × Value) := do
      let k ← decode cat fuel ks
      let v ← decode cat fuel vs
      return (k, v)
    return .map (← readKeyed keyed Prod.fst name entry count [])
  | fuel, .set keyed e => do
    let name := (Schema.set keyed e).typeName cat
    let count ← readCount name
    return .seq (← readKeyed keyed id name (decode cat fuel e) count [])
  | fuel, .tuple ss => return .seq (← ss.attach.mapM fun ⟨s, _⟩ => decode cat fuel s)
  | 0, .named .. => throw .tooDeep
  | fuel + 1, .named n args =>
    match cat.find? n with
    | none => return .unit
    | some d =>
      match d.body.subst args with
      | .record fs =>
        return .record (← fs.fields.mapM fun f =>
          if f.skip then pure (f.schema.default cat) else decode cat fuel f.schema)
      | .enumeration vs => do
        let i ← readVarint
        if i < vs.length then return .enum i
        else throw (.invalidDiscriminator d.name i)
      | .union vs =>
        readVariant d.name fun tag =>
          match vs.findIdx? (·.tag == tag) with
          | some i => do
            let fields := (vs.getD i default).fields.fields
            return .variant i (← fields.mapM fun f =>
              if f.skip then pure (f.schema.default cat) else decode cat fuel f.schema)
          | none => throw (.invalidDiscriminator d.name tag)
      | .opaqueUnion _ => return .unit
  | _, .param _ => return .unit
termination_by fuel s => (fuel, sizeOf s)
decreasing_by
  all_goals simp_wf
  all_goals first
    | (apply Prod.Lex.left; omega)
    | (apply Prod.Lex.right; omega)
    | (apply Prod.Lex.right; have := List.sizeOf_lt_of_mem ‹_›; omega)

/-- The budget for a read of `remaining` bytes: one unfolding of each declaration per byte,
and one round more. -/
def fuelFor (cat : Catalog) (remaining : Nat) : Nat :=
  (remaining + 1) * (cat.length + 1)

/-- Reads a value of schema `s` at the reader's position. -/
def decodeValue (cat : Catalog) (s : Schema) : ReadM Value := do
  decode cat (fuelFor cat (← get).remaining) s

end Codec

end WireCodec
