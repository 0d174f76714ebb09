/-!
# Schemas

A schema names the shape of a wire value: a scalar, a string, one of the well-known value
types, a byte buffer, a sequence, a fixed-length array, an optional value, a pointer
(which the wire does not see), a map, a set, a tuple, or a declared type applied to
arguments. Declared types live in a catalog: records (named, positional or unit fields,
some of them skipped), field-less enumerations, tagged unions, and opaque unions whose
codec reads and writes nothing.

A declaration with parameters refers to its arguments by position; `Decl.instantiate`
substitutes them. Declared types may refer to each other, and to themselves, so every
walk that unfolds a declaration carries a bound.
-/

namespace WireCodec

/-- The integer types of the wire: unsigned and signed, of 1 to 16 bytes, and the two
pointer-sized ones, which travel as 8 bytes. -/
inductive IntKind where
  | u8 | u16 | u32 | u64 | u128 | usize
  | i8 | i16 | i32 | i64 | i128 | isize
  deriving DecidableEq, Repr

namespace IntKind

/-- Bytes on the wire. -/
def width : IntKind → Nat
  | u8 | i8 => 1
  | u16 | i16 => 2
  | u32 | i32 => 4
  | u64 | i64 | usize | isize => 8
  | u128 | i128 => 16

/-- Whether values may be negative. -/
def signed : IntKind → Bool
  | i8 | i16 | i32 | i64 | i128 | isize => true
  | _ => false

/-- The name of the type. -/
def name : IntKind → String
  | u8 => "u8" | u16 => "u16" | u32 => "u32" | u64 => "u64" | u128 => "u128"
  | usize => "usize" | i8 => "i8" | i16 => "i16" | i32 => "i32" | i64 => "i64"
  | i128 => "i128" | isize => "isize"

/-- The least value. -/
def lo (k : IntKind) : Int := if k.signed then -(Nat.pow 2 (8 * k.width - 1) : Nat) else 0

/-- The greatest value. -/
def hi (k : IntKind) : Int :=
  if k.signed then (Nat.pow 2 (8 * k.width - 1) - 1 : Nat) else (Nat.pow 2 (8 * k.width) - 1 : Nat)

end IntKind

/-- The byte-buffer types: each travels as a length and its bytes. -/
inductive BufferKind where
  /-- A shared read-only buffer. -/
  | shared
  /-- A growable buffer. -/
  | growable
  /-- A window over a shared array. -/
  | segment
  /-- A sequence of buffers. -/
  | sequence
  deriving DecidableEq, Repr

/-- The sequence types: a count then the elements. They differ in their names and in
nothing on the wire. -/
inductive ListKind where
  | vec
  | deque
  | boxedSlice
  deriving DecidableEq, Repr

/-- The pointer types, transparent on the wire. -/
inductive Pointer where
  | box
  | arc
  deriving DecidableEq, Repr

/-- How a map or a set keeps its entries: in key order, or in hash order (which the wire
then shows as it is). -/
inductive Keyed where
  | sorted
  | hashed
  deriving DecidableEq, Repr

/-- The shape of a wire value. -/
inductive Schema where
  | int (kind : IntKind)
  | f32
  | f64
  | bool
  | char
  | unit
  | string
  | timestamp
  | guid
  | duration
  | buffer (kind : BufferKind)
  | list (kind : ListKind) (elem : Schema)
  | array (len : Nat) (elem : Schema)
  | option (inner : Schema)
  | pointer (kind : Pointer) (inner : Schema)
  | map (keyed : Keyed) (key value : Schema)
  | set (keyed : Keyed) (elem : Schema)
  | tuple (items : List Schema)
  /-- A declared type applied to arguments. -/
  | named (name : String) (args : List Schema)
  /-- The argument of the enclosing declaration at this position. -/
  | param (index : Nat)
  deriving Repr, Inhabited

namespace Schema

/-- Replaces every parameter by the argument at its position (a missing argument by
`()`). -/
def subst (args : List Schema) : Schema → Schema
  | param i => args.getD i unit
  | list k e => list k (subst args e)
  | array n e => array n (subst args e)
  | option e => option (subst args e)
  | pointer p e => pointer p (subst args e)
  | map m k v => map m (subst args k) (subst args v)
  | set m e => set m (subst args e)
  | tuple items => tuple (items.attach.map fun ⟨s, _⟩ => subst args s)
  | named n as => named n (as.attach.map fun ⟨s, _⟩ => subst args s)
  | s => s
termination_by s => sizeOf s
decreasing_by
  all_goals simp_wf
  all_goals first | omega | (have h := List.sizeOf_lt_of_mem ‹_›; omega)

/-- Whether the schema is a byte: its sequences travel as one run of bytes. -/
def isByte : Schema → Bool
  | int .u8 => true
  | _ => false

end Schema

/-- A field of a record or a union variant. -/
structure Field where
  /-- The name, or the position as text for positional fields. -/
  name : String
  schema : Schema
  /-- A skipped field is not on the wire; decoding gives it its default. -/
  skip : Bool := false
  deriving Repr, Inhabited

/-- How fields are written in the source of a declaration. -/
inductive FieldStyle where
  | named
  | positional
  | unit
  deriving DecidableEq, Repr, Inhabited

/-- The fields of a record or of a union variant. -/
structure Fields where
  style : FieldStyle
  fields : List Field
  deriving Repr, Inhabited

namespace Fields

/-- The fields on the wire. -/
def serialized (fs : Fields) : List Field :=
  fs.fields.filter fun f => !f.skip

/-- One positional field, on the wire: the record is a wrapper around it. -/
def isNewtype (fs : Fields) : Bool :=
  fs.style == .positional && fs.fields.length == 1 && fs.serialized.length == 1

/-- The fields with the declaration's parameters replaced by `args`. -/
def subst (args : List Schema) (fs : Fields) : Fields :=
  { fs with fields := fs.fields.map fun f => { f with schema := f.schema.subst args } }

end Fields

/-- A variant of a union: its name, its tag on the wire, and its fields. -/
structure Variant where
  name : String
  tag : Nat
  fields : Fields
  deriving Repr, Inhabited

/-- What a declaration declares. -/
inductive Body where
  /-- A record: its fields in order. -/
  | record (fields : Fields)
  /-- A field-less enumeration: a varint index into the variant names. -/
  | enumeration (variants : List String)
  /-- A tagged union: a varint tag, a 32-bit payload length, the payload. -/
  | union (variants : List Variant)
  /-- A union by its declared tags and names, whose codec reads and writes nothing. -/
  | opaqueUnion (variants : List (Nat × String))
  deriving Repr, Inhabited

/-- A declared type. -/
structure Decl where
  /-- The identifier. -/
  name : String
  /-- The module path that qualifies the identifier in the type's full name. -/
  path : String
  /-- How many type parameters it takes. -/
  params : Nat := 0
  body : Body
  /-- The variant that `Default::default()` gives for an enumeration or a union: the one
  marked `#[default]`. -/
  defaultVariant : Nat := 0
  deriving Repr, Inhabited

/-- The declared types a schema may name. -/
abbrev Catalog := List Decl

namespace Catalog

/-- The declaration of `name`. -/
def find? (cat : Catalog) (name : String) : Option Decl :=
  List.find? (fun d => d.name == name) cat

end Catalog

namespace Body

/-- The body with the declaration's parameters replaced by `args`. -/
def subst (args : List Schema) : Body → Body
  | record fs => record (fs.subst args)
  | union vs => union (vs.map fun v => { v with fields := v.fields.subst args })
  | b => b

end Body

end WireCodec
