import WireCodec.Proofs.Codec.WireForm
import WireCodec.Proofs.Wire.Append

/-!
# Encoding a value in its wire form

A value in wire form is encoded as exactly its bytes, appended to whatever the writer
holds: `encode_of_wireForm`. Containers fold their elements' writes, so the heart of the
proof is that a fold of writes that each append their own bytes appends all of them in
order (`foldlM_writes`); the fields of records and variants are the same fold over the
fields on the wire.
-/

namespace WireCodec.Codec
open Wire

/-- Folding writes that each append their own bytes appends all of them in order. -/
theorem foldlM_writes {β : Type} (f : Writer → β → Except EncodeError Writer)
    (bs : β → List UInt8) :
    ∀ (xs : List β) (w : Writer),
      (∀ x ∈ xs, ∀ w, f w x = .ok (w.writeBytes (bs x).toByteArray)) →
      xs.foldlM f w = .ok (w.writeBytes (xs.map bs).flatten.toByteArray)
  | [], w, _ => by
    rw [List.foldlM_nil, List.map_nil, List.flatten_nil, Writer.writeBytes_nil]
    rfl
  | x :: xs, w, h => by
    rw [List.foldlM_cons, h x List.mem_cons_self w]
    show xs.foldlM f (w.writeBytes (bs x).toByteArray) = _
    rw [foldlM_writes f bs xs _ (fun y hy => h y (List.mem_cons_of_mem x hy)),
      Writer.writeBytes_append, List.map_cons, List.flatten_cons]

/-- A fold over a list zipped with a list of subtypes, whose step only looks at the
values, is the fold over the list zipped with the values. -/
theorem foldlM_zip_subtype {α β γ : Type} {P : β → Prop}
    {f : γ → α × Subtype P → Except EncodeError γ} {g : γ → α → β → Except EncodeError γ}
    (hf : ∀ c a b h, f c (a, ⟨b, h⟩) = g c a b) :
    ∀ (l₁ : List α) (l₂ : List (Subtype P)) (c : γ),
      (l₁.zip l₂).foldlM f c = (l₁.zip l₂.unattach).foldlM (fun c p => g c p.1 p.2) c
  | [], _, c => rfl
  | _ :: _, [], c => rfl
  | a :: l₁, ⟨b, h⟩ :: l₂, c => by
    simp only [List.zip_cons_cons, List.unattach_cons, List.foldlM_cons, hf]
    congr 1
    funext c'
    exact foldlM_zip_subtype hf l₁ l₂ c'

/-- The fields of a record or a variant, those on the wire written in order. -/
theorem encodeFields_eq (cat : Catalog) (xs : List (Field × Written))
    (hon : ∀ x ∈ xs, x.1.skip = false → ∀ w, encode cat x.1.schema x.2.value w =
      .ok (w.writeBytes x.2.bytes.toByteArray))
    (hoff : ∀ x ∈ xs, x.1.skip = true → x.2.read = x.1.schema.default cat ∧ x.2.bytes = [])
    (w : Writer) :
    (((xs.map (·.1)).zip (xs.map (·.2.value)).attach).foldlM
        (fun w (f, ⟨x, _⟩) => if f.skip then .ok w else encode cat f.schema x w) w :
        Except EncodeError Writer) =
      .ok (w.writeBytes (xs.map (·.2.bytes)).flatten.toByteArray) := by
  simp only [foldlM_zip_subtype, List.unattach_attach, List.zip_map', List.foldlM_map]
  refine foldlM_writes _ _ xs w ?_
  intro x hmem w
  cases hskip : x.1.skip
  · rw [if_neg (by simp)]
    exact hon x hmem hskip w
  · rw [if_pos rfl, (hoff x hmem hskip).2, Writer.writeBytes_nil]

/-- A set is written as its count and then its members, each as it encodes, whether or not
the members differ. -/
theorem encode_set {ι : Type} (cat : Catalog) (keyed : Keyed) (e : Schema) (xs : List ι)
    (val : ι → Value) (bs : ι → List UInt8)
    (h : ∀ i ∈ xs, ∀ w, encode cat e (val i) w = .ok (w.writeBytes (bs i).toByteArray))
    (w : Writer) :
    encode cat (.set keyed e) (.seq (xs.map val)) w =
      .ok (w.writeBytes (Writer.varintBytes xs.length ++ (xs.map bs).flatten).toByteArray) := by
  rw [encode.eq_def]
  dsimp only [Schema.unboxed]
  simp only [List.foldlM_subtype, List.unattach_attach, List.foldlM_map]
  rw [Writer.writeVarint_eq, foldlM_writes _ _ xs _ h, Writer.writeBytes_append, List.length_map]

/-- A pointer is encoded as what it points to. -/
theorem encode_pointer (cat : Catalog) (p : Pointer) (e : Schema) (v : Value) (w : Writer) :
    encode cat (.pointer p e) v w = encode cat e v w := by
  rw [encode.eq_def, encode.eq_def]
  rfl

/-- A value in wire form encodes as its bytes. -/
theorem encode_of_wireForm {cat : Catalog} {d : Nat} {s : Schema} {x : Written}
    (h : WireForm cat d s x) :
    ∀ w, encode cat s x.value w = .ok (w.writeBytes x.bytes.toByteArray) := by
  induction h with
  | int k n =>
    intro w
    rw [encode.eq_def]
    dsimp only [Schema.unboxed]
    exact congrArg Except.ok (Writer.writeLE_eq _ _ _)
  | f32 b =>
    intro w
    rw [encode.eq_def]
    dsimp only [Schema.unboxed]
    exact congrArg Except.ok (Writer.writeLE_eq _ _ _)
  | f64 b =>
    intro w
    rw [encode.eq_def]
    dsimp only [Schema.unboxed]
    exact congrArg Except.ok (Writer.writeLE_eq _ _ _)
  | bool b =>
    intro w
    rw [encode.eq_def]
    dsimp only [Schema.unboxed]
    exact congrArg Except.ok (Writer.writeBool_eq _ _)
  | char c =>
    intro w
    rw [encode.eq_def]
    dsimp only [Schema.unboxed]
    exact congrArg Except.ok (Writer.writeLE_eq _ _ _)
  | unit =>
    intro w
    rw [encode.eq_def]
    dsimp only [Schema.unboxed]
    exact (congrArg Except.ok (Writer.writeBytes_nil w)).symm
  | string t =>
    intro w
    rw [encode.eq_def]
    dsimp only [Schema.unboxed]
    exact congrArg Except.ok (Writer.writeStr_eq _ _)
  | timestamp t =>
    intro w
    rw [encode.eq_def]
    dsimp only [Schema.unboxed]
    exact congrArg Except.ok (Writer.writeLE_eq _ _ _)
  | guid g =>
    intro w
    rw [encode.eq_def]
    dsimp only [Schema.unboxed]
    rw [ByteArray.toByteArray_data_toList]
  | duration secs nanos =>
    intro w
    rw [encode.eq_def]
    dsimp only [Schema.unboxed]
    rw [Writer.writeLE_eq, Writer.writeLE_eq, Writer.writeBytes_append]
  | buffer k b =>
    intro w
    rw [encode.eq_def]
    dsimp only [Schema.unboxed]
    exact congrArg Except.ok (Writer.writeByteRun_eq _ _)
  | byteList k e he b =>
    intro w
    rw [encode.eq_def]
    dsimp only [Schema.unboxed]
    exact congrArg Except.ok (Writer.writeByteRun_eq _ _)
  | byteArray e he b =>
    intro w
    rw [encode.eq_def]
    dsimp only [Schema.unboxed]
    rw [ByteArray.toByteArray_data_toList]
  | none e =>
    intro w
    rw [encode.eq_def]
    dsimp only [Schema.unboxed]
    exact congrArg Except.ok (Writer.writeU8_eq _ _)
  | some e x hx ih =>
    intro w
    rw [encode.eq_def]
    dsimp only [Schema.unboxed]
    rw [ih, Writer.writeU8_eq, Writer.writeBytes_append]
    rfl
  | pointer p e x hx ih =>
    intro w
    rw [encode_pointer]
    exact ih w
  | list k e he xs hlen hx ih =>
    intro w
    rw [encode.eq_def]
    dsimp only [Schema.unboxed]
    simp only [List.foldlM_subtype, List.unattach_attach, List.foldlM_map]
    rw [Writer.writeVarint_eq, foldlM_writes _ _ xs _ (fun x hmem w => ih x hmem w),
      Writer.writeBytes_append, List.length_map]
  | array e he xs hx ih =>
    intro w
    rw [encode.eq_def]
    dsimp only [Schema.unboxed]
    simp only [List.foldlM_subtype, List.unattach_attach, List.foldlM_map]
    exact foldlM_writes _ _ xs _ (fun x hmem w => ih x hmem w)
  | map keyed ks vs xs hlen hk hv hkeys ihk ihv =>
    intro w
    rw [encode.eq_def]
    dsimp only [Schema.unboxed]
    simp only [List.foldlM_subtype, List.unattach_attach, List.foldlM_map]
    rw [Writer.writeVarint_eq, foldlM_writes _ (fun x => x.1.bytes ++ x.2.bytes) xs,
      Writer.writeBytes_append, List.length_map]
    intro x hmem w
    simp only [ihk x hmem, ihv x hmem, bind, Except.bind, Writer.writeBytes_append]
  | set keyed e xs hlen hx hkeys ih =>
    exact encode_set cat keyed e xs (·.value) (·.bytes) ih
  | tuple xs hx ih =>
    intro w
    rw [encode.eq_def]
    dsimp only [Schema.unboxed]
    simp only [foldlM_zip_subtype, List.unattach_attach, List.zip_map', List.foldlM_map]
    exact foldlM_writes _ _ xs _ (fun x hmem w => ih x hmem w)
  | record n args decl fs hfind hbody xs hfields hon hoff ih =>
    intro w
    rw [encode.eq_def]
    dsimp only [Schema.unboxed]
    rw [hfind]
    dsimp only
    rw [hbody]
    dsimp only
    rw [← hfields]
    exact encodeFields_eq cat xs ih hoff w
  | enum n args decl names hfind hbody i hi =>
    intro w
    rw [encode.eq_def]
    dsimp only [Schema.unboxed]
    rw [hfind]
    obtain ⟨name, path, params, body⟩ := decl
    dsimp only at hbody
    subst hbody
    exact congrArg Except.ok (Writer.writeVarint_eq _ _)
  | union n args decl vs hfind hbody i var hvar xs hfields hon hoff hfit ih =>
    intro w
    rw [encode.eq_def]
    dsimp only [Schema.unboxed]
    rw [hfind]
    dsimp only
    rw [hbody]
    dsimp only
    rw [hvar]
    dsimp only
    rw [← hfields]
    exact writeVariant_eq w var.tag _ _ (encodeFields_eq cat xs ih hoff) hfit
  | opaqueUnion n args decl tags hfind hbody =>
    intro w
    rw [encode.eq_def]
    dsimp only [Schema.unboxed]
    exact (congrArg Except.ok (Writer.writeBytes_nil w)).symm

end WireCodec.Codec
