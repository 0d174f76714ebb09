import WireCodec.Schema.Basic

/-!
# Deriving a declaration

A codec is derived for a struct, a field-less enum or an enum marked as a union, from its
declaration and its `lzpack` attributes (`parseCodec`). The attributes say which fields are
skipped, that an enum is a union, and which tag a union variant has; every other use of them
is refused, naming what is wrong. A struct becomes a record of its fields, a field-less enum
an enumeration of its variant names, and a union a list of variants with their tags.

A union variant's tag is the one its `tag = N` attribute gives, or its position among the
variants when it has none. Explicit and implicit tags share one space: a variant whose tag
an earlier variant already has is refused, as is a union without variants.
-/

namespace WireCodec.Derive

/-- One item of an `lzpack(...)` attribute, in the order written: `union`, `skip`,
`tag = N` with the value of its integer literal (`none` when the value is no integer
literal), or anything else. -/
inductive AttrItem where
  | union
  | skip
  | tag (literal : Option Nat)
  | other
  deriving DecidableEq, Repr

/-- What the attributes of an item ask for. -/
structure Options where
  union : Bool := false
  skip : Bool := false
  tag : Option Nat := none
  deriving DecidableEq, Repr

/-- Reads the value of `tag = N`: an integer literal of 32 bits. -/
def parseTag : Option Nat → Except String Nat
  | some n => if n < Nat.pow 2 32 then .ok n else .error "number too large to fit in target type"
  | none => .error "tag must be an integer literal"

/-- Collects the options the items ask for, after those of `o`; a second tag and an unknown
item are refused. -/
def parseOptions : List AttrItem → Options → Except String Options
  | [], o => .ok o
  | .union :: rest, o => parseOptions rest { o with union := true }
  | .skip :: rest, o => parseOptions rest { o with skip := true }
  | .tag literal :: rest, o =>
    if o.tag.isSome then .error "tag specified more than once"
    else do
      let t ← parseTag literal
      parseOptions rest { o with tag := some t }
  | .other :: _, _ => .error "unknown lzpack attribute; expected `union`, `skip` or `tag = N`"

/-- A field as declared: its name (none for a positional field), its type and the items of
its attributes. -/
structure FieldSyntax where
  ident : Option String
  schema : Schema
  attrs : List AttrItem

/-- The fields of a struct or of a variant, as declared. -/
structure FieldsSyntax where
  style : FieldStyle
  fields : List FieldSyntax

/-- A variant of an enum, as declared. -/
structure VariantSyntax where
  name : String
  attrs : List AttrItem
  fields : FieldsSyntax

/-- What a declaration declares. -/
inductive DataSyntax where
  | struct (fields : FieldsSyntax)
  | enum (variants : List VariantSyntax)
  /-- An untagged union. -/
  | untagged

/-- A declaration a codec is derived for: its name, the items of its attributes and what it
declares. -/
structure DeriveInput where
  name : String
  attrs : List AttrItem
  data : DataSyntax

/-- The fields from position `index` on: each may only be skipped, and a positional field is
named by its position. -/
def parseFieldList : List FieldSyntax → Nat → Except String (List Field)
  | [], _ => .ok []
  | f :: rest, index => do
    let o ← parseOptions f.attrs {}
    if o.union || o.tag.isSome then .error "only #[lzpack(skip)] is valid on a field"
    else do
      let fields ← parseFieldList rest (index + 1)
      return { name := f.ident.getD (toString index), schema := f.schema, skip := o.skip } :: fields

/-- The fields of a struct or of a variant. -/
def parseFields (fs : FieldsSyntax) : Except String Fields :=
  (parseFieldList fs.fields 0).map fun fields => ⟨fs.style, fields⟩

/-- The variants of a field-less enum: without tags, skips or fields. -/
def parseEnum : List VariantSyntax → Except String (List String)
  | [] => .ok []
  | v :: rest => do
    let o ← parseOptions v.attrs {}
    if o.tag.isSome || o.skip then .error "#[lzpack(tag = N)] requires #[lzpack(union)] on the enum"
    else if v.fields.style ≠ .unit then .error "enums with fields must be marked #[lzpack(union)]"
    else return v.name :: (← parseEnum rest)

/-- The tag of the variant at `index` that declares none: its position, which must fit 32
bits. -/
def implicitTag (index : Nat) : Except String Nat :=
  if index < Nat.pow 2 32 then .ok index else .error "too many variants"

/-- The union variants from position `index` on; `seen` holds the tags taken so far, each with
the variant that took it, latest first. -/
def parseVariants : List VariantSyntax → Nat → List (Nat × String) → Except String (List Variant)
  | [], _, _ => .ok []
  | v :: rest, index, seen => do
    let o ← parseOptions v.attrs {}
    if o.union || o.skip then .error "only #[lzpack(tag = N)] is valid on a variant"
    else do
      let tag ← o.tag.elim (implicitTag index) .ok
      match seen.lookup tag with
      | some previous => .error s!"duplicate union tag {tag} (already used by `{previous}`)"
      | none => do
        let fields ← parseFields v.fields
        let variants ← parseVariants rest (index + 1) ((tag, v.name) :: seen)
        return { name := v.name, tag := tag, fields := fields } :: variants

/-- The variants of a union: at least one, with distinct tags. -/
def parseUnion (variants : List VariantSyntax) : Except String (List Variant) :=
  if variants.isEmpty then .error "a union needs at least one variant"
  else parseVariants variants 0 []

/-- What a declaration derives: a record, an enumeration or a union. A type may be neither
skipped nor tagged, only an enum may be a union, and an untagged union derives nothing. -/
def parseCodec (input : DeriveInput) : Except String Body := do
  let o ← parseOptions input.attrs {}
  if o.skip || o.tag.isSome then
    .error "`skip` and `tag` are not valid on a type; use them on fields and variants"
  else
    match input.data with
    | .struct fs =>
      if o.union then .error "#[lzpack(union)] can only be used on enums"
      else return .record (← parseFields fs)
    | .enum vs =>
      if o.union then return .union (← parseUnion vs)
      else return .enumeration (← parseEnum vs)
    | .untagged => .error "Codec cannot be derived for untagged unions"

end WireCodec.Derive
