import Mathlib
import WireCodec.Codec.Entry
import WireCodec.Proofs.Codec.EncodeForm
import WireCodec.Proofs.Codec.DecodeForm

/-!
# Size estimates cover the encoding

Before a value is encoded, its buffer is sized from the type's fixed size or from the
value's estimate. Both are sound for values in wire form. A fixed size is the length of
every value's bytes (`length_of_fixedSize`): the sizes of a tuple, an array or a record add
up as their parts are laid out, skipped fields left out. The estimate covers the bytes
(`min_length_le_capacity`) when every string, buffer and collection in the value is shorter
than `2 ^ 35`, so that a length prefix takes at most the five bytes estimated for it; an
enumeration's index takes at most ten bytes and a union's header at most nine, as a
well-formed catalog bounds them. Estimates add up with sums that stop at `wordMax`, so what
they cover is the length cut off at `wordMax`: all of it for an encoding a 64-bit count
holds.

Main statement: `size_estimates_cover_encoding`.
-/

namespace WireCodec

open Wire

namespace Value

mutual

/-- The longest string, byte string or collection in a value, by its length in bytes or
in elements. -/
def longest : Value → Nat
  | str t => t.utf8ByteSize
  | bytes b => b.size
  | some v => longest v
  | seq items => max items.length (longestList items)
  | map entries => max entries.length (longestEntries entries)
  | record fields => longestList fields
  | variant _ fields => longestList fields
  | _ => 0

/-- The longest string, byte string or collection in any of the values. -/
def longestList : List Value → Nat
  | [] => 0
  | v :: vs => max (longest v) (longestList vs)

/-- The longest string, byte string or collection in any key or value of the entries. -/
def longestEntries : List (Value × Value) → Nat
  | [] => 0
  | (k, v) :: es => max (max (longest k) (longest v)) (longestEntries es)

end

theorem longest_le_longestList {v : Value} {vs : List Value} (h : v ∈ vs) :
    longest v ≤ longestList vs := by
  induction vs with
  | nil => cases h
  | cons w vs ih =>
    rw [longestList]
    rcases List.mem_cons.mp h with rfl | h
    · exact Nat.le_max_left _ _
    · exact Nat.le_trans (ih h) (Nat.le_max_right _ _)

theorem longest_le_longestEntries {k v : Value} {es : List (Value × Value)} (h : (k, v) ∈ es) :
    max (longest k) (longest v) ≤ longestEntries es := by
  induction es with
  | nil => cases h
  | cons e es ih =>
    obtain ⟨k', v'⟩ := e
    rw [longestEntries]
    rcases List.mem_cons.mp h with he | h
    · cases he
      exact Nat.le_max_left _ _
    · exact Nat.le_trans (ih h) (Nat.le_max_right _ _)

section Members

variable {α : Type} {f g : α → Value} {xs : List α} {n : Nat}

theorem length_lt_of_longest_seq (h : (seq (xs.map f)).longest < n) : xs.length < n := by
  rw [longest, List.length_map] at h
  exact Nat.lt_of_le_of_lt (Nat.le_max_left _ _) h

theorem longest_lt_of_mem_seq (h : (seq (xs.map f)).longest < n) {x : α} (hmem : x ∈ xs) :
    (f x).longest < n := by
  rw [longest] at h
  exact Nat.lt_of_le_of_lt (longest_le_longestList (List.mem_map_of_mem hmem))
    (Nat.lt_of_le_of_lt (Nat.le_max_right _ _) h)

theorem longest_lt_of_mem_record (h : (record (xs.map f)).longest < n) {x : α} (hmem : x ∈ xs) :
    (f x).longest < n := by
  rw [longest] at h
  exact Nat.lt_of_le_of_lt (longest_le_longestList (List.mem_map_of_mem hmem)) h

theorem longest_lt_of_mem_variant {i : Nat} (h : (variant i (xs.map f)).longest < n) {x : α}
    (hmem : x ∈ xs) : (f x).longest < n := by
  rw [longest] at h
  exact Nat.lt_of_le_of_lt (longest_le_longestList (List.mem_map_of_mem hmem)) h

theorem length_lt_of_longest_map (h : (map (xs.map fun x => (f x, g x))).longest < n) :
    xs.length < n := by
  rw [longest, List.length_map] at h
  exact Nat.lt_of_le_of_lt (Nat.le_max_left _ _) h

theorem longest_lt_of_mem_map (h : (map (xs.map fun x => (f x, g x))).longest < n) {x : α}
    (hmem : x ∈ xs) : (f x).longest < n ∧ (g x).longest < n := by
  rw [longest] at h
  have hin : (f x, g x) ∈ xs.map fun x => (f x, g x) := List.mem_map_of_mem hmem
  have hle := longest_le_longestEntries hin
  omega

end Members

end Value

namespace Wire.Writer

/-- A varint of a value below `128 ^ (n + 1)` takes at most `n + 1` bytes. -/
theorem length_varintBytes_le : ∀ {n v : Nat}, v < Nat.pow 128 (n + 1) →
    (varintBytes v).length ≤ n + 1
  | 0, v, h => by
    rw [varintBytes, if_pos h]
    rfl
  | n + 1, v, h => by
    rw [varintBytes]
    split
    · simp
    · -- the first byte takes seven bits, the rest is a varint of `v / 128`
      have hdiv : v / 128 < Nat.pow 128 (n + 1) :=
        Nat.div_lt_of_lt_mul (by rw [Nat.mul_comm]; exact h)
      rw [List.length_cons]
      exact Nat.succ_le_succ (length_varintBytes_le hdiv)

/-- A length below `2 ^ 35` takes at most the five bytes estimated for a length prefix. -/
theorem length_varintBytes_le_five {v : Nat} (h : v < Nat.pow 2 35) :
    (varintBytes v).length ≤ Codec.lenPrefixEstimate :=
  @length_varintBytes_le 4 v (Nat.lt_of_lt_of_le h (by decide))

end Wire.Writer

namespace Schema

/-! ### Fixed sizes

A parameter is sized as its argument (`sizeWith_subst`), and sizes found with more
declarations to unfold, or with parameters of more known sizes, keep every size found with
fewer (`sizeWith_mono`, `Catalog.fixedSizeOf_succ`). -/

/-- The sizes of a list of schemas, one by one. -/
theorem sizesWith_eq_map (declared : String → List (Option Nat) → Option Nat)
    (env : List (Option Nat)) :
    ∀ ss : List Schema, sizesWith declared env ss = ss.map (sizeWith declared env)
  | [] => rfl
  | s :: ss => by rw [sizesWith, sizesWith_eq_map declared env ss, List.map_cons]

mutual

theorem sizeWith_subst (declared : String → List (Option Nat) → Option Nat)
    (env : List (Option Nat)) (args : List Schema) :
    ∀ t : Schema,
      sizeWith declared env (t.subst args) = sizeWith declared (sizesWith declared env args) t
  | .param i => by
    rw [subst, sizeWith, sizesWith_eq_map]
    exact (List.getD_map args unit (sizeWith declared env)).symm
  | .list k e => by rw [subst]; rfl
  | .array n e => by rw [subst, sizeWith, sizeWith, sizeWith_subst declared env args e]
  | .option e => by rw [subst]; rfl
  | .pointer p e => by rw [subst, sizeWith, sizeWith, sizeWith_subst declared env args e]
  | .map m k v => by rw [subst]; rfl
  | .set m e => by rw [subst]; rfl
  | .tuple items => by
    rw [subst, sizeWith, sizeWith, List.attach_map_val, sizesWith_subst declared env args items]
  | .named n as => by
    rw [subst, sizeWith, sizeWith, List.attach_map_val, sizesWith_subst declared env args as]
  | .int k | .f32 | .f64 | .bool | .char | .unit | .string | .timestamp | .guid | .duration
  | .buffer _ => by rw [subst.eq_def]; rfl

theorem sizesWith_subst (declared : String → List (Option Nat) → Option Nat)
    (env : List (Option Nat)) (args : List Schema) :
    ∀ ts : List Schema, sizesWith declared env (ts.map (subst args)) =
      sizesWith declared (sizesWith declared env args) ts
  | [] => rfl
  | t :: ts => by
    rw [List.map_cons, sizesWith, sizesWith, sizeWith_subst declared env args t,
      sizesWith_subst declared env args ts]

end

/-- `b` has every size that `a` has: where `a` is known, `b` is the same. -/
def Refines (a b : Option Nat) : Prop :=
  ∀ k, a = some k → b = some k

theorem sumSizes_cons_eq_some {a : Option Nat} {l : List (Option Nat)} {n : Nat}
    (h : sumSizes (a :: l) = some n) : ∃ m k, a = some m ∧ sumSizes l = some k ∧ n = m + k := by
  rw [sumSizes] at h
  cases a with
  | none => cases h
  | some m =>
    cases hl : sumSizes l with
    | none =>
      rw [hl] at h
      cases h
    | some k =>
      rw [hl] at h
      cases h
      exact ⟨m, k, rfl, rfl, rfl⟩

/-- Sizes that each keep what they had add up to what they had. -/
theorem sumSizes_mono {l l' : List (Option Nat)} (h : List.Forall₂ Refines l l') {n : Nat}
    (hn : sumSizes l = some n) : sumSizes l' = some n := by
  induction h generalizing n with
  | nil => exact hn
  | cons ha _ ih =>
    obtain ⟨m, k, hm, hk, rfl⟩ := sumSizes_cons_eq_some hn
    rw [sumSizes, ha m hm, ih hk]
    rfl

/-- The size of a parameter from sizes that keep what they had. -/
theorem getD_mono {env env' : List (Option Nat)} (h : List.Forall₂ Refines env env') (i : Nat) :
    Refines (env.getD i (some 0)) (env'.getD i (some 0)) := by
  induction h generalizing i with
  | nil => exact fun _ hk => hk
  | cons ha _ ih =>
    cases i with
    | zero => exact ha
    | succ i => exact ih i

section Mono

variable {declared declared' : String → List (Option Nat) → Option Nat}

mutual

/-- Sizing with declared types and parameters that keep their sizes keeps every size. -/
theorem sizeWith_mono
    (hD : ∀ n e e', List.Forall₂ Refines e e' → Refines (declared n e) (declared' n e')) :
    ∀ (t : Schema) {env env' : List (Option Nat)},
      List.Forall₂ Refines env env' → Refines (t.sizeWith declared env) (t.sizeWith declared' env')
  | .array n e, env, env', henv => by
    intro k hk
    rw [sizeWith] at hk ⊢
    obtain ⟨m, hm, rfl⟩ := Option.map_eq_some_iff.mp hk
    rw [sizeWith_mono hD e henv m hm]
    rfl
  | .pointer p e, env, env', henv => sizeWith_mono hD e henv
  | .tuple items, env, env', henv => fun k hk => sumSizes_mono (sizesWith_mono hD items henv) hk
  | .named n args, env, env', henv => hD n _ _ (sizesWith_mono hD args henv)
  | .param i, env, env', henv => getD_mono henv i
  -- the sizes of the other types are fixed, or there are none
  | .int _, _, _, _ | .f32, _, _, _ | .f64, _, _, _ | .bool, _, _, _ | .char, _, _, _
  | .unit, _, _, _ | .timestamp, _, _, _ | .guid, _, _, _ | .duration, _, _, _ => fun _ hk => hk
  | .string, _, _, _ | .buffer _, _, _, _ | .list .., _, _, _ | .option _, _, _, _
  | .map .., _, _, _ | .set .., _, _, _ => fun _ hk => by cases hk

theorem sizesWith_mono
    (hD : ∀ n e e', List.Forall₂ Refines e e' → Refines (declared n e) (declared' n e')) :
    ∀ (ts : List Schema) {env env' : List (Option Nat)},
      List.Forall₂ Refines env env' →
        List.Forall₂ Refines (sizesWith declared env ts) (sizesWith declared' env' ts)
  | [], _, _, _ => List.Forall₂.nil
  | t :: ts, _, _, henv => List.Forall₂.cons (sizeWith_mono hD t henv) (sizesWith_mono hD ts henv)

end

end Mono

end Schema

namespace Catalog

/-- A declared type has a fixed size only as a record whose fields on the wire all have one:
their sum, with one declaration less to unfold. -/
theorem fixedSizeOf_eq_some {cat : Catalog} {fuel : Nat} {n : String} {e : List (Option Nat)}
    {m : Nat} (h : cat.fixedSizeOf fuel n e = some m) :
    ∃ fuel' decl fs, fuel = fuel' + 1 ∧ cat.find? n = some decl ∧ decl.body = .record fs ∧
      Schema.sumSizes (fs.serialized.map fun f => f.schema.sizeWith (cat.fixedSizeOf fuel') e) =
        some m := by
  cases fuel with
  | zero => cases h
  | succ fuel' =>
    rw [fixedSizeOf] at h
    cases hfind : cat.find? n with
    | none =>
      rw [hfind] at h
      cases h
    | some decl =>
      rw [hfind] at h
      dsimp only at h
      cases hbody : decl.body with
      | record fs =>
        rw [hbody] at h
        exact ⟨fuel', decl, fs, rfl, rfl, hbody, h⟩
      | enumeration _ | union _ | opaqueUnion _ =>
        rw [hbody] at h
        cases h

/-- One more declaration to unfold, and parameters that keep their sizes, keep every size of
a declared type. -/
theorem fixedSizeOf_succ (cat : Catalog) : ∀ (fuel : Nat) (n : String) (e e' : List (Option Nat)),
    List.Forall₂ Schema.Refines e e' →
      Schema.Refines (cat.fixedSizeOf fuel n e) (cat.fixedSizeOf (fuel + 1) n e')
  | 0, _, _, _, _ => fun _ hk => by cases hk
  | fuel + 1, n, e, e', he => by
    intro k hk
    obtain ⟨_, decl, fs, hfuel, hfind, hbody, hk⟩ := fixedSizeOf_eq_some hk
    cases hfuel
    rw [fixedSizeOf, hfind]
    dsimp only
    rw [hbody]
    dsimp only
    refine Schema.sumSizes_mono ?_ hk
    -- each field keeps its size, with one more declaration to unfold
    refine List.forall₂_map_left_iff.mpr (List.forall₂_map_right_iff.mpr
      (List.forall₂_same.mpr fun f _ => ?_))
    exact Schema.sizeWith_mono (fixedSizeOf_succ cat fuel) f.schema he

end Catalog

namespace Schema

variable (cat : Catalog)

@[simp] theorem fixedSize?_string : Schema.string.fixedSize? cat = none := rfl

@[simp] theorem fixedSize?_buffer (k : BufferKind) : (buffer k).fixedSize? cat = none := rfl

@[simp] theorem fixedSize?_list (k : ListKind) (e : Schema) : (list k e).fixedSize? cat = none := rfl

@[simp] theorem fixedSize?_set (keyed : Keyed) (e : Schema) : (set keyed e).fixedSize? cat = none :=
  rfl

@[simp] theorem fixedSize?_map (keyed : Keyed) (ks vs : Schema) :
    (map keyed ks vs).fixedSize? cat = none := rfl

@[simp] theorem fixedSize?_option (e : Schema) : (option e).fixedSize? cat = none := rfl

theorem fixedSize?_pointer (p : Pointer) (e : Schema) :
    (pointer p e).fixedSize? cat = e.fixedSize? cat := rfl

theorem fixedSize?_array (n : Nat) (e : Schema) :
    (array n e).fixedSize? cat = (e.fixedSize? cat).map (· * n) := rfl

theorem fixedSize?_tuple (items : List Schema) :
    (tuple items).fixedSize? cat = sumSizes (items.map (·.fixedSize? cat)) := by
  rw [fixedSize?, sizeWith, sizesWith_eq_map]
  rfl

/-- A byte is one byte long. -/
theorem sizeWith_of_isByte {e : Schema} (he : e.isByte = true)
    (declared : String → List (Option Nat) → Option Nat) (env : List (Option Nat)) :
    e.sizeWith declared env = some 1 := by
  cases e with
  | int k =>
    cases k <;> simp only [isByte, Bool.false_eq_true] at he
    rfl
  | _ => cases he

/-- A declared type applied to arguments has a fixed size only as a record: the parameters
are sized as the arguments (`Catalog.fixedSizeOf_eq_some`). -/
theorem sizeWith_named_eq_some {fuel : Nat} {n : String} {args : List Schema}
    {env : List (Option Nat)} {m : Nat}
    (h : (named n args).sizeWith (cat.fixedSizeOf fuel) env = some m) :
    ∃ fuel' decl fs, fuel = fuel' + 1 ∧ cat.find? n = some decl ∧ decl.body = .record fs ∧
      sumSizes (fs.serialized.map fun f => f.schema.sizeWith (cat.fixedSizeOf fuel')
        (sizesWith (cat.fixedSizeOf fuel) env args)) = some m := by
  rw [sizeWith] at h
  exact Catalog.fixedSizeOf_eq_some h

/-- A declared type that is not a record has no fixed size. -/
theorem fixedSize?_named_eq_none {n : String} {args : List Schema} {decl : Decl}
    (hfind : cat.find? n = some decl) (hbody : ∀ fs, decl.body ≠ .record fs) :
    (Schema.named n args).fixedSize? cat = none := by
  cases h : (Schema.named n args).fixedSize? cat with
  | none => rfl
  | some m =>
    obtain ⟨_, decl', fs, -, hfind', hbody', -⟩ := sizeWith_named_eq_some cat h
    rw [hfind, Option.some.injEq] at hfind'
    subst hfind'
    exact absurd hbody' (hbody fs)

end Schema

/-- The fields on the wire of a declaration with its parameters replaced. -/
theorem Fields.serialized_subst (fs : Fields) (args : List Schema) :
    (fs.subst args).serialized = fs.serialized.map fun f => { f with schema := f.schema.subst args } := by
  simp [Fields.serialized, Fields.subst, List.filter_map, Function.comp_def]


/-- Parts laid out one after another, each as long as its size: together they are as long
as the sum of the sizes. -/
theorem length_flatten_of_sumSizes {α : Type} (size : α → Option Nat) (bytes : α → List UInt8) :
    ∀ (xs : List α) {n : Nat}, (∀ x ∈ xs, ∀ m, size x = some m → (bytes x).length = m) →
      Schema.sumSizes (xs.map size) = some n → (xs.map bytes).flatten.length = n
  | [], n, _, h => by
    rw [List.map_nil, Schema.sumSizes] at h
    cases h
    rfl
  | x :: xs, n, hx, h => by
    obtain ⟨m, k, hm, hk, rfl⟩ := Schema.sumSizes_cons_eq_some h
    rw [List.map_cons, List.flatten_cons, List.length_append, hx x List.mem_cons_self m hm,
      length_flatten_of_sumSizes size bytes xs (fun y hy => hx y (List.mem_cons_of_mem x hy)) hk]

/-- Parts of one length `m` laid out one after another are `m` bytes each. -/
theorem length_flatten_of_forall_length {α : Type} (bytes : α → List UInt8) (m : Nat) :
    ∀ (xs : List α), (∀ x ∈ xs, (bytes x).length = m) → (xs.map bytes).flatten.length = m * xs.length
  | [], _ => rfl
  | x :: xs, hx => by
    rw [List.map_cons, List.flatten_cons, List.length_append, hx x List.mem_cons_self,
      length_flatten_of_forall_length bytes m xs (fun y hy => hx y (List.mem_cons_of_mem x hy)),
      List.length_cons, Nat.mul_succ, Nat.add_comm]

/-- Leaving out parts without bytes leaves the bytes as they are. -/
theorem flatten_map_filter {α : Type} (p : α → Bool) (bytes : α → List UInt8) :
    ∀ (xs : List α), (∀ x ∈ xs, p x = false → bytes x = []) →
      ((xs.filter p).map bytes).flatten = (xs.map bytes).flatten
  | [], _ => rfl
  | x :: xs, h => by
    have ih := flatten_map_filter p bytes xs (fun y hy => h y (List.mem_cons_of_mem x hy))
    cases hp : p x
    · rw [List.filter_cons_of_neg (by simp [hp]), ih, List.map_cons, List.flatten_cons,
        h x List.mem_cons_self hp, List.nil_append]
    · rw [List.filter_cons_of_pos hp, List.map_cons, List.flatten_cons, ih, List.map_cons,
        List.flatten_cons]

namespace Codec

variable (cat : Catalog)

theorem capacity_of_fixedSize {s : Schema} {n : Nat} (h : s.fixedSize? cat = some n) (v : Value) :
    capacity cat s v = n := by
  rw [capacity.eq_def, h]

/-- A pointer is estimated as what it points to. -/
theorem capacity_pointer (p : Pointer) (e : Schema) (v : Value) :
    capacity cat (.pointer p e) v = capacity cat e v := by
  rw [capacity.eq_def cat (.pointer p e), capacity.eq_def cat e, Schema.fixedSize?_pointer]
  rfl

theorem capacity_str (t : String) :
    capacity cat .string (.str t) = lenPrefixEstimate + t.utf8ByteSize := by
  rw [capacity.eq_def, Schema.fixedSize?_string]
  rfl

theorem capacity_buffer (k : BufferKind) (b : ByteArray) :
    capacity cat (.buffer k) (.bytes b) = lenPrefixEstimate + b.size := by
  rw [capacity.eq_def, Schema.fixedSize?_buffer]
  rfl

theorem capacity_byteList (k : ListKind) (e : Schema) (b : ByteArray) :
    capacity cat (.list k e) (.bytes b) = elementsCapacity cat e b.size [] := by
  rw [capacity.eq_def, Schema.fixedSize?_list]
  rfl

theorem capacity_list (k : ListKind) (e : Schema) (items : List Value) :
    capacity cat (.list k e) (.seq items) =
      elementsCapacity cat e items.length (items.map (capacity cat e)) := by
  rw [capacity.eq_def, Schema.fixedSize?_list]
  dsimp only [Schema.unboxed]
  exact congrArg _ List.attach_map_val

theorem capacity_set (keyed : Keyed) (e : Schema) (items : List Value) :
    capacity cat (.set keyed e) (.seq items) =
      elementsCapacity cat e items.length (items.map (capacity cat e)) := by
  rw [capacity.eq_def, Schema.fixedSize?_set]
  dsimp only [Schema.unboxed]
  exact congrArg _ List.attach_map_val

theorem capacity_array {e : Schema} (he : e.fixedSize? cat = none) (n : Nat) (items : List Value) :
    capacity cat (.array n e) (.seq items) =
      elementsCapacity cat e n (items.map (capacity cat e)) - lenPrefixEstimate := by
  rw [capacity.eq_def, Schema.fixedSize?_array, he]
  dsimp only [Option.map_none, Schema.unboxed]
  exact congrArg (· - lenPrefixEstimate) (congrArg _ List.attach_map_val)

theorem capacity_map (keyed : Keyed) (ks vs : Schema) (entries : List (Value × Value)) :
    capacity cat (.map keyed ks vs) (.map entries) =
      elementsCapacity cat ks entries.length (entries.map fun x => capacity cat ks x.1) +
        elementsCapacity cat vs entries.length (entries.map fun x => capacity cat vs x.2) -
          lenPrefixEstimate := by
  rw [capacity.eq_def, Schema.fixedSize?_map]
  dsimp only [Schema.unboxed]
  exact congrArg₂ (fun a b => elementsCapacity cat ks _ a + elementsCapacity cat vs _ b - _)
    (@List.attach_map_val _ _ entries fun x => capacity cat ks x.1)
    (@List.attach_map_val _ _ entries fun x => capacity cat vs x.2)

theorem capacity_none (e : Schema) : capacity cat (.option e) .none = 1 := by
  rw [capacity.eq_def, Schema.fixedSize?_option]
  rfl

theorem capacity_some (e : Schema) (v : Value) :
    capacity cat (.option e) (.some v) = 1 + capacity cat e v := by
  rw [capacity.eq_def, Schema.fixedSize?_option]
  rfl

/-- Zipping with the members of a list, each with its proof of membership, and looking only
at the members, is zipping with the list. -/
theorem map_zip_attach {α β γ : Type} (f : α → β → γ) (l₁ : List α) (l₂ : List β) :
    (l₁.zip l₂.attach).map (fun p => f p.1 p.2.val) = (l₁.zip l₂).map (fun p => f p.1 p.2) := by
  conv_rhs => rw [← List.attach_map_subtype_val l₂]
  rw [List.zip_map_right, List.map_map]
  rfl

theorem capacity_tuple {ss : List Schema} (hfix : (Schema.tuple ss).fixedSize? cat = none)
    (items : List Value) :
    capacity cat (.tuple ss) (.seq items) =
      ((ss.zip items).map fun p => capacity cat p.1 p.2).foldr (· + ·) 0 := by
  rw [capacity.eq_def, hfix]
  dsimp only [Schema.unboxed]
  exact congrArg _ (map_zip_attach (capacity cat) ss items)

theorem capacity_record {n : String} {args : List Schema} {decl : Decl} {fs : Fields}
    (hfix : (Schema.named n args).fixedSize? cat = none) (hfind : cat.find? n = some decl)
    (hbody : decl.body.subst args = .record fs) (vals : List Value) :
    capacity cat (.named n args) (.record vals) =
      ((fs.fields.zip vals).map fun p =>
        if p.1.skip then 0 else capacity cat p.1.schema p.2).foldr (· + ·) 0 := by
  rw [capacity.eq_def, hfix]
  dsimp only [Schema.unboxed]
  rw [hfind]
  dsimp only
  rw [hbody]
  dsimp only
  exact congrArg _ (map_zip_attach (fun (f : Field) x => if f.skip then 0 else capacity cat f.schema x) _ _)

theorem capacity_enum {n : String} {args : List Schema} {decl : Decl} {names : List String}
    (hfind : cat.find? n = some decl) (hbody : decl.body = .enumeration names) (i : Nat) :
    capacity cat (.named n args) (.enum i) = enumCapacity := by
  rw [capacity.eq_def, Schema.fixedSize?_named_eq_none cat hfind (by simp [hbody])]
  dsimp only [Schema.unboxed]
  rw [hfind]
  obtain ⟨name, path, params, body⟩ := decl
  dsimp only at hbody
  subst hbody
  rfl

theorem capacity_variant {n : String} {args : List Schema} {decl : Decl} {vs : List Variant}
    {i : Nat} {var : Variant} (hfind : cat.find? n = some decl)
    (hbody : decl.body.subst args = .union vs) (hvar : vs[i]? = some var) (vals : List Value) :
    capacity cat (.named n args) (.variant i vals) =
      variantHeaderMax + ((var.fields.fields.zip vals).map fun p =>
        if p.1.skip then 0 else capacity cat p.1.schema p.2).foldr (· + ·) 0 := by
  rw [capacity.eq_def, Schema.fixedSize?_named_eq_none cat hfind (fun fs h => by
    rw [h, Body.subst] at hbody
    cases hbody)]
  dsimp only [Schema.unboxed]
  rw [hfind]
  dsimp only
  rw [hbody]
  dsimp only
  rw [hvar]
  dsimp only
  exact congrArg _ (congrArg _
    (map_zip_attach (fun (f : Field) x => if f.skip then 0 else capacity cat f.schema x) _ _))

end Codec

/-- A type's fixed size, whatever the budget of declarations it was found with, is the
length of the bytes of each of its values. -/
theorem length_of_fixedSize {cat : Catalog} {d : Nat} {s : Schema} {x : Written}
    (h : WireForm cat d s x) :
    ∀ {fuel n : Nat}, s.sizeWith (cat.fixedSizeOf fuel) [] = some n → x.bytes.length = n := by
  induction h with
  | int k n hlo hhi =>
    intro fuel m hm
    cases hm
    exact Writer.length_leBytes _ _
  | f32 b | f64 b | char c | timestamp t =>
    intro fuel n hn
    cases hn
    exact Writer.length_leBytes _ _
  | bool b | unit =>
    intro fuel n hn
    cases hn
    rfl
  | guid g =>
    intro fuel n hn
    cases hn
    rw [ByteArray.length_data_toList, g.size_eq]
  | duration secs nanos hs hn =>
    intro fuel n hn
    cases hn
    rw [List.length_append, Writer.length_leBytes, Writer.length_leBytes]
  | string _ _ | buffer _ _ _ | byteList _ _ _ _ _ | list _ _ _ _ _ _ _ | none _ | some _ _ _ _
  | map _ _ _ _ _ _ _ _ _ _ | set _ _ _ _ _ _ _ =>
    intro fuel n hn
    cases hn
  | byteArray e he b =>
    intro fuel n hn
    rw [Schema.sizeWith, Schema.sizeWith_of_isByte he] at hn
    cases hn
    rw [ByteArray.length_data_toList]
    exact (Nat.one_mul _).symm
  | array e he xs hx ih =>
    intro fuel n hn
    rw [Schema.sizeWith] at hn
    obtain ⟨m, hm, rfl⟩ := Option.map_eq_some_iff.mp hn
    exact length_flatten_of_forall_length _ m xs (fun x hmem => ih x hmem hm)
  | pointer p e x hx ih =>
    intro fuel n hn
    exact ih hn
  | tuple xs hx ih =>
    intro fuel n hn
    rw [Schema.sizeWith, Schema.sizesWith_eq_map, List.map_map] at hn
    exact length_flatten_of_sumSizes _ _ xs (fun x hmem m hm => ih x hmem hm) hn
  | record n args decl fs hfind hbody xs hfields hon hoff ih =>
    intro fuel m hm
    obtain ⟨fuel', decl', fs₀, rfl, hfind', hbody₀, hsum⟩ := Schema.sizeWith_named_eq_some cat hm
    rw [hfind, Option.some.injEq] at hfind'
    subst hfind'
    rw [hbody₀, Body.subst, Body.record.injEq] at hbody
    subst hbody
    -- the fields keep their sizes with one more declaration to unfold, and then their
    -- parameters may as well be replaced by the arguments
    have hsum' := Schema.sumSizes_mono (List.forall₂_map_left_iff.mpr
      (List.forall₂_map_right_iff.mpr (List.forall₂_same.mpr fun f _ =>
        Schema.sizeWith_mono (cat.fixedSizeOf_succ fuel') f.schema
          (List.forall₂_same.mpr fun _ _ _ hk => hk)))) hsum
    simp only [← Schema.sizeWith_subst] at hsum'
    have hfields₀ : (fs₀.serialized.map fun f =>
          (f.schema.subst args).sizeWith (cat.fixedSizeOf (fuel' + 1)) []) =
        (fs₀.subst args).serialized.map fun f => f.schema.sizeWith (cat.fixedSizeOf (fuel' + 1)) [] := by
      rw [Fields.serialized_subst, List.map_map]
      rfl
    rw [hfields₀] at hsum'
    -- the sizes are those of the fields on the wire, and the skipped fields have no bytes
    rw [Fields.serialized, ← hfields, List.filter_map, List.map_map] at hsum'
    rw [← flatten_map_filter (fun x => !x.1.skip) _ xs
      (fun x hmem hskip => (hoff x hmem (by simpa using hskip)).2)]
    refine length_flatten_of_sumSizes _ _ _ (fun x hmem m hm => ?_) hsum'
    obtain ⟨hmem, hon⟩ := List.mem_filter.mp hmem
    exact ih x hmem (by simpa using hon) hm
  | enum n args decl names hfind hbody i hi =>
    intro fuel m hm
    obtain ⟨fuel', decl', fs', -, hfind', hbody', -⟩ := Schema.sizeWith_named_eq_some cat hm
    rw [hfind, Option.some.injEq] at hfind'
    subst hfind'
    rw [hbody] at hbody'
    cases hbody'
  | union n args decl vs hfind hbody i var hvar xs hfields hon hoff hfit ih =>
    intro fuel m hm
    obtain ⟨fuel', decl', fs', -, hfind', hbody', -⟩ := Schema.sizeWith_named_eq_some cat hm
    rw [hfind, Option.some.injEq] at hfind'
    subst hfind'
    rw [hbody', Body.subst] at hbody
    cases hbody
  | opaqueUnion n args decl tags hfind hbody =>
    intro fuel m hm
    obtain ⟨fuel', decl', fs', -, hfind', hbody', -⟩ := Schema.sizeWith_named_eq_some cat hm
    rw [hfind, Option.some.injEq] at hfind'
    subst hfind'
    rw [hbody', Body.subst] at hbody
    cases hbody

namespace Codec

variable (cat : Catalog)

/-- A sum that stops at `wordMax` is the sum cut off at `wordMax`. -/
theorem foldl_satAdd : ∀ (caps : List Nat) {a : Nat}, a ≤ wordMax →
    caps.foldl satAdd a = min (a + caps.foldr (· + ·) 0) wordMax
  | [], a, ha => by
    rw [List.foldl_nil, List.foldr_nil, Nat.add_zero, Nat.min_eq_left ha]
  | c :: cs, a, _ => by
    rw [List.foldl_cons, @foldl_satAdd cs (satAdd a c) (Nat.min_le_right _ _), List.foldr_cons, satAdd]
    omega

/-- Parts whose estimates cover their lengths cut off at `wordMax` add up to estimates that
cover the sum of the lengths, cut off the same way. -/
theorem min_sum_le {α : Type} (len cap : α → Nat) :
    ∀ (xs : List α), (∀ x ∈ xs, min (len x) wordMax ≤ cap x) →
      min ((xs.map len).foldr (· + ·) 0) wordMax ≤ min ((xs.map cap).foldr (· + ·) 0) wordMax
  | [], _ => Nat.le_refl _
  | x :: xs, h => by
    have hx := h x List.mem_cons_self
    have ih := min_sum_le len cap xs (fun y hy => h y (List.mem_cons_of_mem x hy))
    rw [List.map_cons, List.foldr_cons, List.map_cons, List.foldr_cons]
    omega

theorem length_flatten_map {α : Type} (bytes : α → List UInt8) :
    ∀ xs : List α, (xs.map bytes).flatten.length = (xs.map fun x => (bytes x).length).foldr (· + ·) 0
  | [] => rfl
  | x :: xs => by
    rw [List.map_cons, List.flatten_cons, List.length_append, length_flatten_map bytes xs]
    rfl

/-- The bytes of a map's entries are the bytes of its keys and those of its values. -/
theorem length_flatten_entries (xs : List (Written × Written)) :
    (xs.map fun x => x.1.bytes ++ x.2.bytes).flatten.length =
      (xs.map fun x => x.1.bytes).flatten.length + (xs.map fun x => x.2.bytes).flatten.length := by
  induction xs with
  | nil => rfl
  | cons x xs ih =>
    simp only [List.map_cons, List.flatten_cons, List.length_append, ih]
    omega

theorem min_length_le_capacity_of_fixedSize {s : Schema} {x : Written} {n : Nat}
    (hn : s.fixedSize? cat = some n) (hlen : x.bytes.length = n) :
    min x.bytes.length wordMax ≤ capacity cat s x.value := by
  rw [capacity_of_fixedSize cat hn, hlen]
  exact Nat.min_le_left _ _

/-- The estimate of elements in wire form covers a length prefix of five bytes and their
bytes cut off at `wordMax`: exactly when the elements have a fixed size, with sums that stop
at `wordMax` otherwise. The elements are `f x` for the members `x` of a list, so that the
keys and the values of a map's entries are elements too. -/
theorem elementsCapacity_covers {α : Type} {d : Nat} {e : Schema} (f : α → Written)
    {xs : List α} (hx : ∀ x ∈ xs, WireForm cat d e (f x))
    (ih : ∀ x ∈ xs, min (f x).bytes.length wordMax ≤ capacity cat e (f x).value) :
    lenPrefixEstimate + min (xs.map fun x => (f x).bytes).flatten.length wordMax ≤
      elementsCapacity cat e xs.length ((xs.map fun x => (f x).value).map (capacity cat e)) := by
  unfold elementsCapacity
  cases hfix : e.fixedSize? cat with
  | some m =>
    dsimp only
    rw [length_flatten_of_forall_length _ m xs
      (fun x hmem => length_of_fixedSize (hx x hmem) hfix)]
  | none =>
    dsimp only
    rw [foldl_satAdd _ (Nat.zero_le _), Nat.zero_add, List.map_map, length_flatten_map]
    exact Nat.add_le_add_left (min_sum_le _ _ xs ih) _

/-- The estimates of fields in wire form, a skipped field counting nothing, cover their bytes
cut off at `wordMax`. -/
theorem min_length_le_fieldsCapacity (xs : List (Field × Written))
    (hon : ∀ x ∈ xs, x.1.skip = false →
      min x.2.bytes.length wordMax ≤ capacity cat x.1.schema x.2.value)
    (hoff : ∀ x ∈ xs, x.1.skip = true → x.2.bytes = []) :
    min (xs.map (·.2.bytes)).flatten.length wordMax ≤
      (((xs.map (·.1)).zip (xs.map (·.2.value))).map fun p =>
        if p.1.skip then 0 else capacity cat p.1.schema p.2).foldr (· + ·) 0 := by
  rw [List.zip_map', List.map_map, length_flatten_map]
  refine Nat.le_trans (min_sum_le _ _ xs fun x hmem => ?_) (Nat.min_le_left _ _)
  cases hskip : x.1.skip
  · simp only [Function.comp_apply, hskip, Bool.false_eq_true, if_false]
    exact hon x hmem hskip
  · simp only [hoff x hmem hskip, List.length_nil, Nat.zero_min, Nat.zero_le]

/-- The estimate of a value in wire form covers its bytes cut off at `wordMax`, when every
string, buffer and collection in it is shorter than `2 ^ 35`. -/
theorem min_length_le_capacity {cat : Catalog} (hcat : cat.WellFormed) {d : Nat} {s : Schema}
    {x : Written} (h : WireForm cat d s x) :
    x.value.longest < Nat.pow 2 35 → min x.bytes.length wordMax ≤ capacity cat s x.value := by
  induction h with
  | int k n hlo hhi =>
    exact fun _ => min_length_le_capacity_of_fixedSize cat
      rfl (Writer.length_leBytes _ _)
  | f32 b =>
    exact fun _ => min_length_le_capacity_of_fixedSize cat
      rfl (Writer.length_leBytes _ _)
  | f64 b =>
    exact fun _ => min_length_le_capacity_of_fixedSize cat
      rfl (Writer.length_leBytes _ _)
  | bool b =>
    exact fun _ => min_length_le_capacity_of_fixedSize cat
      rfl (show _ = 1 from rfl)
  | char c =>
    exact fun _ => min_length_le_capacity_of_fixedSize cat
      rfl (Writer.length_leBytes _ _)
  | unit =>
    exact fun _ => min_length_le_capacity_of_fixedSize cat
      rfl (show _ = 0 from rfl)
  | string t ht =>
    intro hlong
    dsimp only [Value.longest] at hlong
    have hv := Writer.length_varintBytes_le_five hlong
    have hsize : t.toUTF8.data.toList.length = t.utf8ByteSize := by
      rw [ByteArray.length_data_toList]
      rfl
    rw [capacity_str, List.length_append, hsize]
    omega
  | timestamp t =>
    exact fun _ => min_length_le_capacity_of_fixedSize cat
      rfl (Writer.length_leBytes _ _)
  | guid g =>
    exact fun _ => min_length_le_capacity_of_fixedSize cat
      rfl
      (by rw [ByteArray.length_data_toList, g.size_eq])
  | duration secs nanos hs hn =>
    exact fun _ => min_length_le_capacity_of_fixedSize cat
      rfl
      (by rw [List.length_append, Writer.length_leBytes, Writer.length_leBytes])
  | buffer k b hb =>
    intro hlong
    dsimp only [Value.longest] at hlong
    have hv := Writer.length_varintBytes_le_five hlong
    rw [capacity_buffer, List.length_append, ByteArray.length_data_toList]
    omega
  | byteList k e he b hb =>
    intro hlong
    dsimp only [Value.longest] at hlong
    have hv := Writer.length_varintBytes_le_five hlong
    rw [capacity_byteList, elementsCapacity, Schema.fixedSize?, Schema.sizeWith_of_isByte he]
    dsimp only
    rw [List.length_append, ByteArray.length_data_toList, Nat.one_mul,
      Nat.min_eq_left (show b.size ≤ wordMax from Nat.le_sub_one_of_lt hb)]
    omega
  | list k e he xs hlen hx ih =>
    intro hlong
    have hv := Writer.length_varintBytes_le_five (Value.length_lt_of_longest_seq hlong)
    have hel := elementsCapacity_covers cat (fun x => x) hx fun x hmem =>
      ih x hmem (Value.longest_lt_of_mem_seq hlong hmem)
    rw [capacity_list, List.length_map, List.length_append]
    omega
  | byteArray e he b =>
    exact fun _ => min_length_le_capacity_of_fixedSize cat
      (by rw [Schema.fixedSize?_array, Schema.fixedSize?, Schema.sizeWith_of_isByte he]; rfl)
      (by rw [ByteArray.length_data_toList]; exact (Nat.one_mul _).symm)
  | array e he xs hx ih =>
    intro hlong
    cases hfix : e.fixedSize? cat with
    | some m =>
      -- elements of a fixed size make an array of a fixed size
      have harr : (Schema.array xs.length e).fixedSize? cat = some (m * xs.length) := by
        rw [Schema.fixedSize?_array, hfix]
        rfl
      exact min_length_le_capacity_of_fixedSize cat harr (length_of_fixedSize (.array e he xs hx) harr)
    | none =>
      have hel := elementsCapacity_covers cat (fun x => x) hx fun x hmem =>
        ih x hmem (Value.longest_lt_of_mem_seq hlong hmem)
      rw [capacity_array cat hfix]
      dsimp only
      omega
  | none e =>
    intro _
    rw [capacity_none]
    exact Nat.min_le_left _ _
  | some e x hx ih =>
    intro hlong
    have hx' := ih (by rwa [Value.longest] at hlong)
    rw [capacity_some, List.length_cons]
    omega
  | pointer p e x hx ih =>
    intro hlong
    rw [capacity_pointer]
    exact ih hlong
  | map keyed ks vs xs hlen hk hv hkeys ihk ihv =>
    intro hlong
    -- keys and values are estimated apart, the count once
    have hvar := Writer.length_varintBytes_le_five (Value.length_lt_of_longest_map hlong)
    have helk := elementsCapacity_covers cat (·.1) hk fun x hmem =>
      ihk x hmem (Value.longest_lt_of_mem_map hlong hmem).1
    have helv := elementsCapacity_covers cat (·.2) hv fun x hmem =>
      ihv x hmem (Value.longest_lt_of_mem_map hlong hmem).2
    rw [capacity_map, List.length_append, length_flatten_entries]
    simp only [List.length_map, List.map_map, Function.comp_def] at helk helv ⊢
    omega
  | set keyed e xs hlen hx hkeys ih =>
    intro hlong
    have hv := Writer.length_varintBytes_le_five (Value.length_lt_of_longest_seq hlong)
    have hel := elementsCapacity_covers cat (fun x => x) hx fun x hmem =>
      ih x hmem (Value.longest_lt_of_mem_seq hlong hmem)
    rw [capacity_set, List.length_map, List.length_append]
    omega
  | tuple xs hx ih =>
    intro hlong
    cases hfix : (Schema.tuple (xs.map (·.1))).fixedSize? cat with
    | some n =>
      exact min_length_le_capacity_of_fixedSize cat hfix (length_of_fixedSize (.tuple xs hx) hfix)
    | none =>
      rw [capacity_tuple cat hfix, List.zip_map', List.map_map, length_flatten_map]
      refine Nat.le_trans (min_sum_le _ _ xs fun x hmem => ?_) (Nat.min_le_left _ _)
      exact ih x hmem (Value.longest_lt_of_mem_seq hlong hmem)
  | record n args decl fs hfind hbody xs hfields hon hoff ih =>
    intro hlong
    cases hfix : (Schema.named n args).fixedSize? cat with
    | some m =>
      exact min_length_le_capacity_of_fixedSize cat hfix
        (length_of_fixedSize (.record n args decl fs hfind hbody xs hfields hon hoff) hfix)
    | none =>
      rw [capacity_record cat hfix hfind hbody, ← hfields]
      exact min_length_le_fieldsCapacity cat xs
        (fun x hmem hskip => ih x hmem hskip (Value.longest_lt_of_mem_record hlong hmem))
        (fun x hmem hskip => (hoff x hmem hskip).2)
  | enum n args decl names hfind hbody i hi =>
    intro _
    -- the index is below the count of names, which a well-formed catalog keeps below `2 ^ 64`
    have hwf := hcat decl (List.mem_of_find?_eq_some hfind)
    unfold Decl.WellFormed at hwf
    rw [hbody] at hwf
    have hv := @Writer.length_varintBytes_le 9 i
      (Nat.lt_of_lt_of_le hi (Nat.le_trans hwf (by decide)))
    rw [capacity_enum cat hfind hbody]
    exact Nat.le_trans (Nat.min_le_left _ _) hv
  | union n args decl vs hfind hbody i var hvar xs hfields hon hoff hfit ih =>
    intro hlong
    -- the tag is at most `maxPayload`, so its varint is at most five bytes
    have htag := (Decl.WellFormed.union_subst (hcat decl (List.mem_of_find?_eq_some hfind))
      hbody).2 var (List.mem_of_getElem? hvar)
    have hv := Writer.length_varintBytes_le_five (Nat.lt_of_le_of_lt htag (by decide))
    have hfs := min_length_le_fieldsCapacity cat xs
      (fun x hmem hskip => ih x hmem hskip (Value.longest_lt_of_mem_variant hlong hmem))
      (fun x hmem hskip => (hoff x hmem hskip).2)
    rw [hfields] at hfs
    rw [capacity_variant cat hfind hbody hvar, List.length_append, List.length_append,
      Writer.length_leBytes]
    unfold variantHeaderMax
    unfold lenPrefixEstimate at hv
    omega
  | opaqueUnion n args decl tags hfind hbody =>
    intro _
    exact Nat.le_trans (Nat.min_le_left _ _) (Nat.zero_le _)

/-- The buffer is sized at the estimate, which is the fixed size of a type that has one, and
room for a union's header when the type holds unions. -/
theorem bufferCapacity_eq (s : Schema) (v : Value) (holdsUnion : Bool) :
    bufferCapacity cat s v holdsUnion =
      capacity cat s v + if holdsUnion then variantHeaderMax else 0 := by
  unfold bufferCapacity
  cases hfix : s.fixedSize? cat with
  | none => rfl
  | some n => rw [capacity_of_fixedSize cat hfix]

/-- The buffer a value is encoded into is sized for the unions its type holds. -/
theorem eq_bufferCapacity_of_plan {s : Schema} {v : Value} {holdsUnion : Bool} {n : Nat}
    (h : plan cat s v = .ok (holdsUnion, n)) : n = bufferCapacity cat s v holdsUnion := by
  unfold plan at h
  cases hc : classify cat s with
  | error e =>
    rw [hc] at h
    cases h
  | ok b =>
    rw [hc] at h
    cases h
    rfl

/-- Fixed sizes and estimates are sound. A type's fixed size is the length of the bytes that
every value of it is encoded as. When every string, buffer and collection in a value is
shorter than `2 ^ 35`, the value's estimate, and the buffer sized from it or from the
type's fixed size, with room for a union's header or without, are at least the length of
its encoding, as far as a 64-bit count reaches: sums of estimates stop at `wordMax`. So is
the buffer that encoding the value starts with. -/
theorem size_estimates_cover_encoding {cat : Catalog} {d : Nat} {s : Schema} {x : Written}
    (hcat : cat.WellFormed) (h : WireForm cat d s x) :
    (∀ n, s.fixedSize? cat = some n →
      (∀ w, encode cat s x.value w = .ok (w.writeBytes x.bytes.toByteArray)) ∧
        x.bytes.length = n) ∧
    (x.value.longest < Nat.pow 2 35 →
      min x.bytes.length wordMax ≤ capacity cat s x.value ∧
        (∀ holdsUnion, min x.bytes.length wordMax ≤ bufferCapacity cat s x.value holdsUnion) ∧
        ∀ holdsUnion n, plan cat s x.value = .ok (holdsUnion, n) → min x.bytes.length wordMax ≤ n) := by
  refine ⟨fun n hn => ⟨encode_of_wireForm h, length_of_fixedSize h hn⟩, fun hlong => ?_⟩
  have hcap := min_length_le_capacity hcat h hlong
  have hbuf : ∀ holdsUnion, min x.bytes.length wordMax ≤ bufferCapacity cat s x.value holdsUnion := by
    intro holdsUnion
    rw [bufferCapacity_eq]
    exact Nat.le_trans hcap (Nat.le_add_right _ _)
  refine ⟨hcap, hbuf, fun holdsUnion n hplan => ?_⟩
  rw [eq_bufferCapacity_of_plan cat hplan]
  exact hbuf holdsUnion

/-- The pair `(some 7, 300)` of an optional byte and a 16-bit integer: the option gives the
pair no fixed size, and the estimate is four bytes, the option's tag, the byte and the two
bytes of the integer, as long as the encoding. -/
theorem size_estimates_cover_encoding_pair :
    Catalog.WellFormed [] ∧
    WireForm [] 0 (.tuple [.option (.int .u8), .int .u16])
      ⟨.seq [.some (.int 7), .int 300], .seq [.some (.int 7), .int 300], [1, 7, 44, 1]⟩ ∧
    ((∀ n, (Schema.tuple [.option (.int .u8), .int .u16]).fixedSize? [] = some n →
        (∀ w, encode [] (.tuple [.option (.int .u8), .int .u16]) (.seq [.some (.int 7), .int 300]) w =
          .ok (w.writeBytes ([1, 7, 44, 1] : List UInt8).toByteArray)) ∧
        ([1, 7, 44, 1] : List UInt8).length = n) ∧
      ((Value.seq [.some (.int 7), .int 300]).longest < Nat.pow 2 35 →
        min ([1, 7, 44, 1] : List UInt8).length wordMax ≤
          capacity [] (.tuple [.option (.int .u8), .int .u16]) (.seq [.some (.int 7), .int 300]) ∧
        (∀ holdsUnion, min ([1, 7, 44, 1] : List UInt8).length wordMax ≤
          bufferCapacity [] (.tuple [.option (.int .u8), .int .u16])
            (.seq [.some (.int 7), .int 300]) holdsUnion) ∧
        ∀ holdsUnion n, plan [] (.tuple [.option (.int .u8), .int .u16])
            (.seq [.some (.int 7), .int 300]) = .ok (holdsUnion, n) →
          min ([1, 7, 44, 1] : List UInt8).length wordMax ≤ n)) := by
  have hcat : Catalog.WellFormed [] := by
    intro decl hdecl
    cases hdecl
  have hbyte : WireForm [] 0 (.int .u8) ⟨.int 7, .int 7, [7]⟩ :=
    .int .u8 7 (by decide) (by decide)
  have hword : WireForm [] 0 (.int .u16) ⟨.int 300, .int 300, [44, 1]⟩ :=
    .int .u16 300 (by decide) (by decide)
  have hpair : WireForm [] 0 (.tuple [.option (.int .u8), .int .u16])
      ⟨.seq [.some (.int 7), .int 300], .seq [.some (.int 7), .int 300], [1, 7, 44, 1]⟩ := by
    refine .tuple [(.option (.int .u8), ⟨.some (.int 7), .some (.int 7), [1, 7]⟩),
      (.int .u16, ⟨.int 300, .int 300, [44, 1]⟩)] fun p hp => ?_
    rcases List.mem_pair.mp hp with rfl | rfl
    · exact .some _ _ hbyte
    · exact hword
  exact ⟨hcat, hpair, size_estimates_cover_encoding hcat hpair⟩

end Codec

end WireCodec

