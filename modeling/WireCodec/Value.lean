import WireCodec.Schema.Basic
import WireCodec.Timestamp
import WireCodec.Guid

/-!
# Wire values

A value is what a schema describes: a scalar, a string, bytes, one of the well-known
value types, an optional value, a sequence (of a list, an array, a set or a tuple), the
entries of a map, the fields of a record, the index of an enumeration's variant, or a
union variant with its fields. Pointers leave no trace in values.

Sequences of bytes, and byte buffers, are `bytes`: they travel as one run.

Keys of maps and members of sets are ordered as the key types order them: integers and
characters by value, strings by their UTF-8 bytes, identifiers byte by byte and
timestamps by their ticks alone; composite keys compare part by part, as derived orders
do. A sorted map or set keeps its entries in that order and never holds two equal keys.
-/

namespace WireCodec

/-- A value of some schema. -/
inductive Value where
  | unit
  | bool (b : Bool)
  | int (n : Int)
  | f32 (bits : UInt32)
  | f64 (bits : UInt64)
  | char (c : Char)
  | str (s : String)
  | bytes (b : ByteArray)
  | timestamp (t : Timestamp)
  | guid (g : Guid)
  | duration (secs nanos : Nat)
  | none
  | some (v : Value)
  | seq (items : List Value)
  | map (entries : List (Value × Value))
  /-- Every field of a record in order, skipped fields included. -/
  | record (fields : List Value)
  /-- The variant at this position of an enumeration. -/
  | enum (index : Nat)
  /-- The variant at this position of a union, with every field of it. -/
  | variant (index : Nat) (fields : List Value)
  deriving Inhabited

namespace Value

/-- A duration of `secs` seconds and `nanos` nanoseconds, whole seconds of the
nanoseconds carried into the seconds. -/
def ofDuration (secs nanos : Nat) : Value :=
  .duration (secs + nanos / 1000000000) (nanos % 1000000000)

/-- Position of a value's kind, ordering values of different kinds. -/
def rank : Value → Nat
  | unit => 0 | bool _ => 1 | int _ => 2 | f32 _ => 3 | f64 _ => 4 | char _ => 5
  | str _ => 6 | bytes _ => 7 | timestamp _ => 8 | guid _ => 9 | duration .. => 10
  | none => 11 | some _ => 12 | seq _ => 13 | map _ => 14 | record _ => 15
  | enum _ => 16 | variant .. => 17

mutual

/-- The order of keys. Values of the key types compare as their types order them; options,
sequences, entries, records and variants compare their parts in order, as derived orders
do; values of different kinds compare by kind. -/
def cmp : Value → Value → Ordering
  | bool a, bool b => compare a b
  | int a, int b => compare a b
  | char a, char b => compare a.val b.val
  | str a, str b => compare a.toUTF8.toList b.toUTF8.toList
  | bytes a, bytes b => compare a.toList b.toList
  | timestamp a, timestamp b => compare a.ticks b.ticks
  | guid a, guid b => Guid.compare a b
  | duration s n, duration t m => (compare s t).then (compare n m)
  | some a, some b => cmp a b
  | seq xs, seq ys => cmpList xs ys
  | map xs, map ys => cmpEntries xs ys
  | record xs, record ys => cmpList xs ys
  | enum a, enum b => compare a b
  | variant i xs, variant j ys => (compare i j).then (cmpList xs ys)
  | a, b => compare a.rank b.rank

/-- Lists of values in lexicographic order. -/
def cmpList : List Value → List Value → Ordering
  | [], [] => .eq
  | [], _ :: _ => .lt
  | _ :: _, [] => .gt
  | a :: as, b :: bs => (cmp a b).then (cmpList as bs)

/-- Lists of entries in lexicographic order, an entry by its key and then its value. -/
def cmpEntries : List (Value × Value) → List (Value × Value) → Ordering
  | [], [] => .eq
  | [], _ :: _ => .lt
  | _ :: _, [] => .gt
  | (a, b) :: as, (c, d) :: bs => ((cmp a c).then (cmp b d)).then (cmpEntries as bs)

end

/-- Whether two keys are equal in the key order. -/
def same (a b : Value) : Bool := cmp a b == .eq

end Value

/-- Inserts an entry before the first entry with a greater key, dropping an entry with an
equal key: of equal keys the one inserted last is kept. -/
def insertSorted {β : Type} (key : β → Value) (x : β) : List β → List β
  | [] => [x]
  | y :: ys =>
    match Value.cmp (key x) (key y) with
    | .lt => x :: y :: ys
    | .eq => x :: ys
    | .gt => y :: insertSorted key x ys

/-- The entries sorted by key, of equal keys the last one kept. -/
def sortByKey {β : Type} (key : β → Value) (xs : List β) : List β :=
  xs.foldl (fun acc x => insertSorted key x acc) []

/-- Whether some entry has a key equal to `k`. -/
def hasKey {β : Type} (key : β → Value) (k : Value) (xs : List β) : Bool :=
  xs.any fun x => Value.same (key x) k

/-- The entries as a container of this kind holds them: a sorted one in key order, a
hashed one in the order they come. -/
def Keyed.arrange {β : Type} (keyed : Keyed) (key : β → Value) (xs : List β) : List β :=
  match keyed with
  | .sorted => sortByKey key xs
  | .hashed => xs

namespace Schema

mutual

/-- The value `Default::default()` gives for a schema: zero, false, empty or absent for the
types of the wire, the default of each part for a tuple, an array or a pointer. A declared
type's default is `declared` of its name and of its arguments' defaults; a parameter's is
the default of its argument, in `env`. -/
def defaultWith (declared : String → List Value → Value) (env : List Value) : Schema → Value
  | int _ => .int 0
  | f32 => .f32 0
  | f64 => .f64 0
  | bool => .bool false
  | char => .char '\x00'
  | unit => .unit
  | string => .str ""
  | timestamp => .timestamp Timestamp.min
  | guid => .guid Guid.nil
  | duration => .duration 0 0
  | buffer _ => .bytes .empty
  | list _ e => if e.isByte then .bytes .empty else .seq []
  | array n e =>
    if e.isByte then .bytes ⟨Array.replicate n 0⟩ else .seq (List.replicate n (defaultWith declared env e))
  | option _ => .none
  | pointer _ e => defaultWith declared env e
  | map .. => .map []
  | set .. => .seq []
  | tuple items => .seq (defaultsWith declared env items)
  | named n args => declared n (defaultsWith declared env args)
  | param i => env.getD i .unit

/-- The defaults of a list of schemas. -/
def defaultsWith (declared : String → List Value → Value) (env : List Value) :
    List Schema → List Value
  | [] => []
  | s :: ss => defaultWith declared env s :: defaultsWith declared env ss

end

end Schema

namespace Catalog

/-- The defaults of the declared types, from the defaults of their arguments, unfolding at
most `fuel` declarations along a path: a record gives each field its default, as a derived
`Default` does, and an enumeration or a union its default variant, with that variant's
fields at their defaults. A declaration met again inside its own default would recurse
forever; past the fuel, and for an opaque union or a name the catalog lacks, the default is
`()`. -/
def defaultOf (cat : Catalog) : Nat → String → List Value → Value
  | 0, _, _ => .unit
  | fuel + 1, n, env =>
    match cat.find? n with
    | none => .unit
    | some d =>
      match d.body with
      | .record fs => .record (fs.fields.map fun f => f.schema.defaultWith (defaultOf cat fuel) env)
      | .enumeration _ => .enum d.defaultVariant
      | .union vs =>
        .variant d.defaultVariant ((vs.getD d.defaultVariant default).fields.fields.map fun f =>
          f.schema.defaultWith (defaultOf cat fuel) env)
      | .opaqueUnion _ => .unit

end Catalog

/-- The value a skipped field of schema `s` gets when it is decoded: its type's
`Default::default()`, unfolding as many declarations along a path as the catalog holds. -/
def Schema.default (cat : Catalog) (s : Schema) : Value :=
  s.defaultWith (cat.defaultOf cat.length) []

end WireCodec
