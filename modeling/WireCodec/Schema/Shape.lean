import WireCodec.Schema.Name
import WireCodec.Wire.Error

/-!
# Shapes and union classification

The shape of a type is what classification looks at: leaves (primitives, buffers,
enumerations), wrappers around one inner type (collections, arrays, optional values,
pointers and single-field records), tuples, records with their members, maps, and
unions with their tags.

A type is classified as a union type when a union is reached from it. Wrappers are
stripped first, at most eight layers of them; a type wrapped more deeply is not a union
type, and neither is a leaf. If the stripped type is a union, so is the type. Otherwise
the walk goes through the members of records that are on the wire, the items of tuples
and the keys and values of maps, each stripped of its wrappers in turn, and visits every
type once. The first union reached decides; it is checked on the way: a union with no
variants or with a repeated tag is an error.
-/

namespace WireCodec

open Wire

/-- What classification sees of a type. -/
inductive ShapeKind where
  | primitive
  | buffer
  | enumeration
  /-- A wrapper around one inner type. -/
  | wrapper (inner : Schema)
  | tuple (items : List Schema)
  /-- Members with whether each is on the wire. -/
  | record (members : List (Bool × Schema))
  | map (key value : Schema)
  /-- The declared tags of a union. -/
  | union (tags : List Nat)

namespace Schema

/-- The shape of a type. -/
def shape (cat : Catalog) : Schema → ShapeKind
  | buffer _ => .buffer
  | list _ e => .wrapper e
  | set _ e => .wrapper e
  | array _ e => .wrapper e
  | option e => .wrapper e
  | pointer _ e => .wrapper e
  | map _ k v => .map k v
  | tuple items => .tuple items
  | named n args =>
    match cat.find? n with
    | some d =>
      match d.body.subst args with
      | .record fs =>
        match fs.serialized with
        | [f] => if fs.isNewtype then .wrapper f.schema else .record (fs.fields.map fun f => (!f.skip, f.schema))
        | _ => .record (fs.fields.map fun f => (!f.skip, f.schema))
      | .enumeration _ => .enumeration
      | .union vs => .union (vs.map (·.tag))
      | .opaqueUnion vs => .union (vs.map (·.1))
    | Option.none => .primitive
  | _ => .primitive

/-- The type inside at most `layers` wrappers, if fewer wrappers than that are there. -/
def unwrapWithin (cat : Catalog) : Nat → Schema → Option Schema
  | 0, s => match s.shape cat with
    | .wrapper _ => Option.none
    | _ => some s
  | n + 1, s => match s.shape cat with
    | .wrapper inner => unwrapWithin cat n inner
    | _ => some s

/-- The type inside its wrappers, at most eight of them. -/
def unwrap (cat : Catalog) (s : Schema) : Option Schema :=
  unwrapWithin cat 8 s

end Schema

/-- The first tag of the list that an earlier one repeats. -/
def repeatedTag : List Nat → List Nat → Option Nat
  | _, [] => none
  | seen, t :: ts => if t ∈ seen then some t else repeatedTag (t :: seen) ts

/-- Checks the tags of the union `name`: there are some, and no two are equal. -/
def validateUnion (name : String) (tags : List Nat) : Except ResolveError Unit :=
  if tags.isEmpty then .error (.emptyUnion name)
  else match repeatedTag [] tags with
    | some t => .error (.duplicateDiscriminator name t)
    | none => .ok ()

/-- The children a walk goes through: members on the wire, items, keys and values. -/
def ShapeKind.children : ShapeKind → List Schema
  | .record members => members.filterMap fun (on, s) => if on then some s else none
  | .tuple items => items
  | .map k v => [k, v]
  | _ => []

/-- A unit of work of the walk: a type to walk through, or children left to visit. -/
inductive Visit where
  | through (s : Schema)
  | next (children : List Schema)

/-- Type identities are 128-bit numbers, as the runtime's are: every identity is below
this bound. -/
def typeIdBound : Nat := Nat.pow 2 128

/-- FNV-1a over bytes, in 128 bits. -/
def fnv1a128 (bytes : List UInt8) : Nat :=
  bytes.foldl (fun h b => Nat.xor h b.toNat * 0x0000000001000000000000000000013B % typeIdBound)
    0x6c62272e07bb014262b821756295c58d

theorem fnv1a128_lt (bytes : List UInt8) : fnv1a128 bytes < typeIdBound := by
  suffices ∀ h, h < typeIdBound → bytes.foldl (fun h b =>
      Nat.xor h b.toNat * 0x0000000001000000000000000000013B % typeIdBound) h < typeIdBound from
    this _ (by decide)
  induction bytes with
  | nil => exact fun _ hh => hh
  | cons b bs ih => exact fun _ _ => ih _ (Nat.mod_lt _ (by decide))

/-- The identity of a schema's type: the hash of its full name. Types with one name
share it; the walk below treats types with one identity as one type. -/
def Schema.typeId (cat : Catalog) (s : Schema) : Nat :=
  fnv1a128 (s.typeName cat).toUTF8.toList

theorem Schema.typeId_lt (cat : Catalog) (s : Schema) : s.typeId cat < typeIdBound :=
  fnv1a128_lt _

/-- How many identities are not yet visited. The walk visits a new identity before it
walks through a type, so this bounds how often it does. -/
@[irreducible] def unvisited (visited : List Nat) : Nat :=
  (List.range typeIdBound).countP fun i => !visited.contains i

theorem unvisited_cons_lt {t : Nat} {visited : List Nat} (ht : t < typeIdBound)
    (hnew : t ∉ visited) : unvisited (t :: visited) < unvisited visited := by
  unfold unvisited
  have hmem : t ∈ List.range typeIdBound := List.mem_range.2 ht
  generalize List.range typeIdBound = ids at hmem
  induction ids with
  | nil => exact absurd hmem List.not_mem_nil
  | cons i is ih =>
    simp only [List.countP_cons]
    by_cases hi : i = t
    · -- `t` itself is counted before and not after
      subst hi
      have hle : is.countP (fun j => !(i :: visited).contains j) ≤
          is.countP (fun j => !visited.contains j) :=
        List.countP_mono_left fun x _ hx => by simp_all
      have hbefore : (!visited.contains i) = true := by simpa using hnew
      have hafter : (!(i :: visited).contains i) = false := by simp
      rw [hbefore, hafter]
      simp only [if_true, Bool.false_eq_true, if_false]
      omega
    · have hsame : (!(t :: visited).contains i) = !visited.contains i := by
        simp [hi]
      have := ih ((List.mem_cons.1 hmem).resolve_left (Ne.symm hi))
      rw [hsame]
      omega

/-- Frames of the walk still to walk through. -/
def Visit.throughs : List Visit → Nat
  | [] => 0
  | .through _ :: rest => throughs rest + 1
  | .next _ :: rest => throughs rest

/-- Frames and children of the walk still to visit. -/
def Visit.pending : List Visit → Nat
  | [] => 0
  | .through _ :: rest => pending rest + 1
  | .next cs :: rest => pending rest + cs.length + 1

/-- The walk from the pending visits, `visited` holding the identities already seen:
whether a union is reached, with the identities seen after it. A type is walked through
only when its identity is seen for the first time, so the walk ends on every graph of
types, cyclic ones included. -/
def walkUnions (cat : Catalog) : List Visit → List Nat → Except ResolveError (Bool × List Nat)
  | [], visited => .ok (false, visited)
  | .through s :: rest, visited =>
    walkUnions cat (.next (s.shape cat).children :: rest) visited
  | .next [] :: rest, visited => walkUnions cat rest visited
  | .next (c :: cs) :: rest, visited =>
    match c.unwrap cat with
    | none => walkUnions cat (.next cs :: rest) visited
    | some t =>
      match t.shape cat with
      | .union tags => (validateUnion (t.typeName cat) tags).map fun _ => (true, visited)
      | _ =>
        if _h : t.typeId cat ∈ visited then walkUnions cat (.next cs :: rest) visited
        else walkUnions cat (.through t :: .next cs :: rest) (t.typeId cat :: visited)
termination_by stack visited => (unvisited visited, Visit.throughs stack, Visit.pending stack)
decreasing_by
  · exact Prod.Lex.right _ (Prod.Lex.left _ _ (by simp [Visit.throughs]))
  · exact Prod.Lex.right _ (Prod.Lex.right _ (by simp [Visit.pending]))
  · exact Prod.Lex.right _ (Prod.Lex.right _ (by simp [Visit.pending]))
  · exact Prod.Lex.right _ (Prod.Lex.right _ (by simp [Visit.pending]))
  · exact Prod.Lex.left _ _ (unvisited_cons_lt (Schema.typeId_lt cat t) _h)

/-- Whether values of the type contain a union, checking the first union reached. -/
def classify (cat : Catalog) (root : Schema) : Except ResolveError Bool :=
  match root.shape cat with
  | .primitive | .buffer | .enumeration => .ok false
  | _ =>
    match root.unwrap cat with
    | none => .ok false
    | some t =>
      match t.shape cat with
      | .union tags => (validateUnion (t.typeName cat) tags).map fun _ => true
      | _ => (walkUnions cat [.through t] [t.typeId cat, root.typeId cat]).map (·.1)

/-- Classifications already made, by type identity. Each is made the first time a type is
classified and answered from here afterwards. -/
structure Resolver where
  cache : List (Nat × Except ResolveError Bool)

namespace Resolver

/-- Nothing classified yet. -/
def empty : Resolver := ⟨[]⟩

/-- The answer memoized for `id` if there is one; else `computed`, which is memoized. -/
def settle (res : Resolver) (id : Nat) (computed : Except ResolveError Bool) :
    Except ResolveError Bool × Resolver :=
  match res.cache.lookup id with
  | some known => (known, res)
  | none => (computed, ⟨(id, computed) :: res.cache⟩)

/-- Classifies `root`: the memoized answer for its identity, or a fresh classification,
which is memoized unless an answer for the identity was memoized meanwhile. -/
def isUnion (cat : Catalog) (res : Resolver) (root : Schema) :
    Except ResolveError Bool × Resolver :=
  match res.cache.lookup (root.typeId cat) with
  | some known => (known, res)
  | none => res.settle (root.typeId cat) (classify cat root)

end Resolver

namespace Schema

/-- Sum of sizes, when all are known. -/
def sumSizes : List (Option Nat) → Option Nat
  | [] => some 0
  | s :: ss => do return (← s) + (← sumSizes ss)

mutual

/-- The number of bytes every value of the type takes on the wire, when it is the same for
all of them. A declared type's size is `declared` of its name and its arguments' sizes; a
parameter's is its argument's, in `env`, and a missing argument is `()`, of no bytes. -/
def sizeWith (declared : String → List (Option Nat) → Option Nat) (env : List (Option Nat)) :
    Schema → Option Nat
  | int k => some k.width
  | f32 => some 4
  | f64 => some 8
  | bool => some 1
  | char => some 4
  | unit => some 0
  | timestamp => some 8
  | guid => some 16
  | duration => some 12
  | array n e => (sizeWith declared env e).map (· * n)
  | pointer _ e => sizeWith declared env e
  | tuple items => sumSizes (sizesWith declared env items)
  | named n args => declared n (sizesWith declared env args)
  | param i => env.getD i (some 0)
  | string | buffer _ | list .. | option _ | map .. | set .. => none

/-- The sizes of a list of schemas. -/
def sizesWith (declared : String → List (Option Nat) → Option Nat) (env : List (Option Nat)) :
    List Schema → List (Option Nat)
  | [] => []
  | s :: ss => sizeWith declared env s :: sizesWith declared env ss

end

end Schema

namespace Catalog

/-- The fixed sizes of the declared types, from their arguments' sizes, unfolding at most
`fuel` declarations along a path: a record's is the sum of its fields on the wire, when
they all have one, and no other declared type has one. Past the fuel a declared type has
none, as has one whose size would depend on itself. -/
def fixedSizeOf (cat : Catalog) : Nat → String → List (Option Nat) → Option Nat
  | 0, _, _ => none
  | fuel + 1, n, env =>
    match cat.find? n with
    | some d =>
      match d.body with
      | .record fs => Schema.sumSizes (fs.serialized.map fun f => f.schema.sizeWith (fixedSizeOf cat fuel) env)
      | _ => none
    | none => none

end Catalog

namespace Schema

/-- The fixed size of a type, when it has one, unfolding as many declarations along a path
as the catalog holds. -/
def fixedSize? (cat : Catalog) (s : Schema) : Option Nat :=
  s.sizeWith (cat.fixedSizeOf cat.length) []

/-- Whether a byte buffer: these, and optional ones, are handed over as they are. -/
def isBuffer : Schema → Bool
  | list .vec (int .u8) => true
  | buffer _ => true
  | _ => false

/-- Whether the type's values are raw bytes, passed through without an encoding. -/
def isRaw : Schema → Bool
  | option s => s.isBuffer
  | s => s.isBuffer

end Schema

end WireCodec
