import Mathlib
import WireCodec.Proofs.Codec.DecodeForm
import WireCodec.Proofs.Wire.Varint
import WireCodec.Codec.Entry

/-!
# How deep decoding goes

The decoder unfolds at most `fuel` declarations along a path, and `decodeValue` gives it
`fuelFor` of the bytes left. A path unfolds one declaration twice with no byte read in
between only along an *unframed* cycle: record fields, tuple items, array elements and
pointers, the steps that read no count, presence byte or tag of their own
(`Schema.Unframed`). No value in wire form goes round an unframed cycle that comes back to
the same body: the values it holds would go on descending (`WireForm.no_unframed_cycle`).

So when every unframed cycle of declarations that a schema encloses comes back to the same
body (`Schema.UnframedCyclesRepeat`), the declarations unfolded along a path since its last
framing byte are all different. This holds of every schema over a catalog whose
declarations ignore their arguments, and of a generic declaration used at one
instantiation. It fails of one that holds its parameter bare and is applied to itself, as
in `W<W<u8>>`, where each layer is a new body. Then a value of `b` bytes needs at most
`b * (n + 1) + n` unfoldings over a catalog of `n` declarations (`WireForm.lower`). That is
less than `fuelFor` gives, so `decodeValue` and `deserialize` read the value back
(`decodeValue_of_wireForm`, `deserialize_of_wireForm`).
-/

namespace WireCodec

open Wire Relation

namespace Schema

/-- A step from a schema to one whose values its values hold, with no count, presence byte or
tag read for it: a record field on the wire, a tuple item, the element of a non-empty array
that is not read as bytes, and the value behind a pointer. -/
inductive Unframed (cat : Catalog) : Schema → Schema → Prop
  | field {n : String} {args : List Schema} {decl : Decl} {fs : Fields} {f : Field}
      (hfind : cat.find? n = .some decl) (hbody : decl.body.subst args = .record fs)
      (hf : f ∈ fs.fields) (hskip : f.skip = false) : Unframed cat (.named n args) f.schema
  | item {items : List Schema} {t : Schema} (ht : t ∈ items) : Unframed cat (.tuple items) t
  | element {len : Nat} {e : Schema} (hlen : 0 < len) (he : e.isByte = false) :
      Unframed cat (.array len e) e
  | pointee {p : Pointer} {e : Schema} : Unframed cat (.pointer p e) e

/-- A step from a schema to one whose values its values hold: an unframed step, or one made
after a count (list elements, map keys and values, set members), a presence byte or a union
tag. -/
inductive Child (cat : Catalog) : Schema → Schema → Prop
  | unframed {s t : Schema} (h : Unframed cat s t) : Child cat s t
  | element {k : ListKind} {e : Schema} (he : e.isByte = false) : Child cat (.list k e) e
  | some {e : Schema} : Child cat (.option e) e
  | key {keyed : Keyed} {ks vs : Schema} : Child cat (.map keyed ks vs) ks
  | value {keyed : Keyed} {ks vs : Schema} : Child cat (.map keyed ks vs) vs
  | member {keyed : Keyed} {e : Schema} : Child cat (.set keyed e) e
  | variantField {n : String} {args : List Schema} {decl : Decl} {vs : List Variant}
      {var : Variant} {f : Field} (hfind : cat.find? n = .some decl)
      (hbody : decl.body.subst args = .union vs) (hvar : var ∈ vs) (hf : f ∈ var.fields.fields)
      (hskip : f.skip = false) : Child cat (.named n args) f.schema

/-- The schemas whose values sit inside the values of `s`, at any depth, `s` itself included. -/
def Encloses (cat : Catalog) (s : Schema) : Schema → Prop :=
  ReflTransGen (Child cat) s

/-- Every declaration that `s` encloses and that comes back to itself by unframed steps comes
back with the same body. -/
def UnframedCyclesRepeat (cat : Catalog) (s : Schema) : Prop :=
  ∀ n args args' decl, Encloses cat s (.named n args) → cat.find? n = some decl →
    TransGen (Unframed cat) (.named n args) (.named n args') →
    decl.body.subst args' = decl.body.subst args

/-- The declarations `V`, unfolded along a path since its last framing byte to reach `s`: all
different, all declared, and none met again from `s` by unframed steps. -/
structure Fresh (cat : Catalog) (s : Schema) (V : List String) : Prop where
  nodup : V.Nodup
  declared : ∀ m ∈ V, m ∈ cat.map (·.name)
  unmet : ∀ m ∈ V, ∀ args, ¬ReflTransGen (Unframed cat) s (.named m args)

end Schema

namespace Catalog

/-- The declarations ignore their arguments: no body names a parameter. -/
def ParameterFree (cat : Catalog) : Prop :=
  ∀ decl ∈ cat, ∀ args, decl.body.subst args = decl.body

theorem ParameterFree.unframedCyclesRepeat {cat : Catalog} (hcat : cat.ParameterFree)
    (s : Schema) : s.UnframedCyclesRepeat cat := by
  intro n args args' decl _ hfind _
  have hmem := List.mem_of_find?_eq_some hfind
  rw [hcat decl hmem, hcat decl hmem]

theorem name_mem_of_find? {cat : Catalog} {n : String} {decl : Decl}
    (h : cat.find? n = .some decl) : n ∈ cat.map (·.name) := by
  have hname : decl.name = n := by simpa using List.find?_some h
  exact hname ▸ List.mem_map_of_mem (List.mem_of_find?_eq_some h)

end Catalog

section Fresh

variable {cat : Catalog} {s t : Schema} {V : List String} {n : String} {args : List Schema}

namespace Schema.Fresh

theorem nil (cat : Catalog) (s : Schema) : Fresh cat s [] :=
  ⟨List.nodup_nil, fun _ h => absurd h List.not_mem_nil, fun _ h => absurd h List.not_mem_nil⟩

/-- An unframed step keeps the declarations met out of reach. -/
theorem step (h : Fresh cat s V) (hst : Unframed cat s t) : Fresh cat t V :=
  ⟨h.nodup, h.declared, fun m hm args hreach => h.unmet m hm args (.head hst hreach)⟩

theorem not_mem (h : Fresh cat (.named n args) V) : n ∉ V :=
  fun hn => h.unmet n hn args .refl

/-- A declaration being unfolded is not among those met, so fewer than all have been. -/
theorem length_lt (h : Fresh cat (.named n args) V) (hn : n ∈ cat.map (·.name)) :
    V.length < cat.length := by
  have hle := (List.nodup_cons.2 ⟨h.not_mem, h.nodup⟩).length_le_of_subset
    (List.cons_subset.2 ⟨hn, h.declared⟩)
  rw [List.length_cons, List.length_map] at hle
  omega

/-- Entering a field of a declaration that no unframed cycle brings back adds it to the
declarations met. -/
theorem enter (h : Fresh cat (.named n args) V) (hn : n ∈ cat.map (·.name))
    (hcycle : ∀ args', ¬TransGen (Unframed cat) (.named n args) (.named n args'))
    (hst : Unframed cat (.named n args) t) : Fresh cat t (n :: V) where
  nodup := List.nodup_cons.2 ⟨h.not_mem, h.nodup⟩
  declared m hm := by
    rcases List.mem_cons.1 hm with rfl | hm
    · exact hn
    · exact h.declared m hm
  unmet m hm args' hreach := by
    rcases List.mem_cons.1 hm with rfl | hm
    · exact hcycle args' (TransGen.head'_iff.2 ⟨t, hst, hreach⟩)
    · exact h.unmet m hm args' (.head hst hreach)

end Schema.Fresh

end Fresh

/-- The unfoldings that a value of `b` bytes may need when the declarations `V` have been met
since the last framing byte: `cat.length + 1` for each byte, and one for each declaration not
yet met. -/
def depthBound (cat : Catalog) (V : List String) (b : Nat) : Nat :=
  b * (cat.length + 1) + (cat.length - V.length)

section DepthBound

variable {cat : Catalog}

theorem depthBound_mono (V : List String) {b b' : Nat} (h : b ≤ b') :
    depthBound cat V b ≤ depthBound cat V b' := by
  have := Nat.mul_le_mul_right (cat.length + 1) h
  unfold depthBound
  omega

/-- Past a framing byte the declarations met are forgotten, and the bound still drops. -/
theorem depthBound_framed (V : List String) {b b' : Nat} (h : b < b') :
    depthBound cat [] b < depthBound cat V b' := by
  have := Nat.mul_le_mul_right (cat.length + 1) (Nat.succ_le_of_lt h)
  rw [Nat.succ_mul] at this
  unfold depthBound
  rw [List.length_nil, Nat.sub_zero]
  omega

/-- Unfolding a declaration not yet met costs one. -/
theorem depthBound_enter (n : String) {V : List String} (h : V.length < cat.length) (b : Nat) :
    depthBound cat V b = depthBound cat (n :: V) b + 1 := by
  unfold depthBound
  rw [List.length_cons]
  omega

theorem depthBound_nil_lt_fuelFor (b : Nat) : depthBound cat [] b < Codec.fuelFor cat b := by
  unfold depthBound Codec.fuelFor
  rw [Nat.succ_mul, List.length_nil, Nat.sub_zero]
  omega

end DepthBound

theorem length_le_flatten {ι : Type} (bs : ι → List UInt8) {xs : List ι} {i : ι} (hi : i ∈ xs) :
    (bs i).length ≤ (xs.map bs).flatten.length :=
  (List.sublist_flatten_of_mem (List.mem_map_of_mem hi)).length_le

/-- A member of a counted collection has fewer bytes than the collection. -/
theorem length_lt_counted {ι : Type} (bs : ι → List UInt8) {xs : List ι} {i : ι} (hi : i ∈ xs)
    (count : Nat) : (bs i).length < (Writer.varintBytes count ++ (xs.map bs).flatten).length := by
  have hcount := length_varintBytes_pos count
  have hmem := length_le_flatten bs hi
  rw [List.length_append]
  omega

namespace WireForm

variable {cat : Catalog}

/-- A value in wire form within some depth is in wire form within any larger one. -/
theorem mono {d d' : Nat} {s : Schema} {x : Written} (h : WireForm cat d s x) (hd : d ≤ d') :
    WireForm cat d' s x := by
  induction h generalizing d' with
  | int k n hlo hhi => exact .int k n hlo hhi
  | f32 b => exact .f32 b
  | f64 b => exact .f64 b
  | bool b => exact .bool b
  | char c => exact .char c
  | unit => exact .unit
  | string t ht => exact .string t ht
  | timestamp t => exact .timestamp t
  | guid g => exact .guid g
  | duration secs nanos hs hn => exact .duration secs nanos hs hn
  | buffer k b hb => exact .buffer k b hb
  | byteList k e he b hb => exact .byteList k e he b hb
  | list k e he xs hlen _ ih => exact .list k e he xs hlen fun y hy => ih y hy hd
  | byteArray e he b => exact .byteArray e he b
  | array e he xs _ ih => exact .array e he xs fun y hy => ih y hy hd
  | none e => exact .none e
  | some e y _ ih => exact .some e y (ih hd)
  | pointer p e y _ ih => exact .pointer p e y (ih hd)
  | map keyed ks vs xs hlen _ _ hkeys ihk ihv =>
    exact .map keyed ks vs xs hlen (fun p hp => ihk p hp hd) (fun p hp => ihv p hp hd) hkeys
  | set keyed e xs hlen _ hkeys ih => exact .set keyed e xs hlen (fun y hy => ih y hy hd) hkeys
  | tuple xs _ ih => exact .tuple xs fun p hp => ih p hp hd
  -- a declared type sits one unfolding above its fields
  | record n args decl fs hfind hbody xs hfields _ hoff ih =>
    obtain ⟨d', rfl⟩ : ∃ e, d' = e + 1 := ⟨d' - 1, by omega⟩
    exact .record n args decl fs hfind hbody xs hfields (fun p hp hs => ih p hp hs (by omega)) hoff
  | enum n args decl names hfind hbody i hi =>
    obtain ⟨d', rfl⟩ : ∃ e, d' = e + 1 := ⟨d' - 1, by omega⟩
    exact .enum n args decl names hfind hbody i hi
  | union n args decl vs hfind hbody i var hvar xs hfields _ hoff hfit ih =>
    obtain ⟨d', rfl⟩ : ∃ e, d' = e + 1 := ⟨d' - 1, by omega⟩
    exact .union n args decl vs hfind hbody i var hvar xs hfields
      (fun p hp hs => ih p hp hs (by omega)) hoff hfit
  | opaqueUnion n args decl tags hfind hbody =>
    obtain ⟨d', rfl⟩ : ∃ e, d' = e + 1 := ⟨d' - 1, by omega⟩
    exact .opaqueUnion n args decl tags hfind hbody

/-- A declared type's values depend on its arguments only through its body. -/
theorem of_body_eq {d : Nat} {n : String} {args args' : List Schema} {decl : Decl} {x : Written}
    (hfind : cat.find? n = .some decl) (hbody : decl.body.subst args = decl.body.subst args')
    (h : WireForm cat d (.named n args) x) : WireForm cat d (.named n args') x := by
  cases h with
  | record _ _ decl' fs hfind' hb xs hfields hon hoff =>
    rw [hfind] at hfind'
    cases hfind'
    exact .record n args' decl fs hfind (hbody.symm.trans hb) xs hfields hon hoff
  | enum _ _ decl' names hfind' hb i hi => exact .enum n args' decl' names hfind' hb i hi
  | union _ _ decl' vs hfind' hb i var hvar xs hfields hon hoff hfit =>
    rw [hfind] at hfind'
    cases hfind'
    exact .union n args' decl vs hfind (hbody.symm.trans hb) i var hvar xs hfields hon hoff hfit
  | opaqueUnion _ _ decl' tags hfind' hb =>
    rw [hfind] at hfind'
    cases hfind'
    exact .opaqueUnion n args' decl tags hfind (hbody.symm.trans hb)

/-- The only unframed step out of a declared type is into a field of its record, one
unfolding down. -/
theorem unframed_of_named {d : Nat} {n : String} {args : List Schema} {t : Schema} {x : Written}
    (h : WireForm cat d (.named n args) x) (hst : Schema.Unframed cat (.named n args) t) :
    ∃ d' y, WireForm cat d' t y ∧ d' < d := by
  cases hst with
  | field hfind hbody hf hskip =>
    cases h with
    | record _ _ decl' fs' hfind' hb xs hfields hon _ =>
      rw [hfind] at hfind'
      cases hfind'
      rw [hbody] at hb
      cases hb
      rw [← hfields] at hf
      obtain ⟨p, hp, rfl⟩ := List.mem_map.1 hf
      exact ⟨_, p.2, hon p hp hskip, Nat.lt_succ_self _⟩
    | enum _ _ decl' names hfind' hb =>
      rw [hfind] at hfind'
      cases hfind'
      rw [hb] at hbody
      cases hbody
    | union _ _ decl' vs hfind' hb =>
      rw [hfind] at hfind'
      cases hfind'
      rw [hbody] at hb
      cases hb
    | opaqueUnion _ _ decl' tags hfind' hb =>
      rw [hfind] at hfind'
      cases hfind'
      rw [hbody] at hb
      cases hb

/-- An unframed step from a value in wire form leads to a value in wire form no deeper. -/
theorem unframed_step {d : Nat} {s t : Schema} {x : Written} (h : WireForm cat d s x)
    (hst : Schema.Unframed cat s t) : ∃ d' y, WireForm cat d' t y ∧ d' ≤ d := by
  cases hst with
  | field hfind hbody hf hskip =>
    obtain ⟨d', y, hy, hlt⟩ := h.unframed_of_named (.field hfind hbody hf hskip)
    exact ⟨d', y, hy, hlt.le⟩
  | item ht =>
    cases h with
    | tuple xs hx =>
      obtain ⟨p, hp, rfl⟩ := List.mem_map.1 ht
      exact ⟨d, p.2, hx p hp, le_rfl⟩
  | element hlen he =>
    cases h with
    | byteArray _ he' => rw [he] at he'; cases he'
    | array _ _ xs hx =>
      obtain ⟨y, hy⟩ := List.exists_mem_of_length_pos hlen
      exact ⟨d, y, hx y hy, le_rfl⟩
  | pointee =>
    cases h with
    | pointer _ _ _ hx => exact ⟨d, x, hx, le_rfl⟩

/-- Unframed steps from a value in wire form lead to values in wire form no deeper. -/
theorem unframed_path {d : Nat} {s t : Schema} {x : Written} (h : WireForm cat d s x)
    (hst : ReflTransGen (Schema.Unframed cat) s t) : ∃ d' y, WireForm cat d' t y ∧ d' ≤ d := by
  induction hst with
  | refl => exact ⟨d, x, h, le_rfl⟩
  | tail _ hstep ih =>
    obtain ⟨d₁, y, hy, hle₁⟩ := ih
    obtain ⟨d₂, z, hz, hle₂⟩ := hy.unframed_step hstep
    exact ⟨d₂, z, hz, hle₂.trans hle₁⟩

/-- No value in wire form goes round an unframed cycle back to the same body: it would hold
a value of its own type strictly deeper down, and that one another, without end. -/
theorem no_unframed_cycle {d : Nat} {n : String} {args args' : List Schema} {decl : Decl}
    {x : Written} (h : WireForm cat d (.named n args) x) (hfind : cat.find? n = .some decl)
    (hcycle : TransGen (Schema.Unframed cat) (.named n args) (.named n args'))
    (hbody : decl.body.subst args' = decl.body.subst args) : False := by
  induction d using Nat.strong_induction_on generalizing x with
  | _ d ih =>
    obtain ⟨t, hfirst, hrest⟩ := TransGen.head'_iff.1 hcycle
    obtain ⟨d₁, y, hy, hlt⟩ := h.unframed_of_named hfirst
    obtain ⟨d₂, z, hz, hle⟩ := hy.unframed_path hrest
    exact ih d₂ (by omega) (of_body_eq hfind hbody hz)

/-- A value in wire form, of a declaration that `s₀` encloses, comes back to that declaration
by no unframed cycle. -/
theorem not_unframed_cycle {s₀ : Schema} (hrep : s₀.UnframedCyclesRepeat cat) {d : Nat}
    {n : String} {args : List Schema} {decl : Decl} {x : Written}
    (henc : Schema.Encloses cat s₀ (.named n args)) (hfind : cat.find? n = .some decl)
    (h : WireForm cat d (.named n args) x) :
    ∀ args', ¬TransGen (Schema.Unframed cat) (.named n args) (.named n args') :=
  fun args' hcycle => h.no_unframed_cycle hfind hcycle (hrep n args args' decl henc hfind hcycle)

section Lower

variable {s₀ s t : Schema} {y : Written} {V : List String}

/-- A value met after a count, a presence byte or a tag starts again with no declaration met,
and has fewer bytes than the value holding it. -/
theorem lower_framed {b : Nat}
    (ih : ∀ V, Schema.Encloses cat s₀ t → Schema.Fresh cat t V →
      WireForm cat (depthBound cat V y.bytes.length) t y)
    (henc : Schema.Encloses cat s₀ s) (hchild : Schema.Child cat s t) (hlt : y.bytes.length < b) :
    WireForm cat (depthBound cat V b) t y :=
  (ih [] (henc.tail hchild) (.nil cat t)).mono (depthBound_framed V hlt).le

/-- A value met by an unframed step keeps the declarations met, and has no more bytes than
the value holding it. -/
theorem lower_unframed {b : Nat}
    (ih : ∀ V, Schema.Encloses cat s₀ t → Schema.Fresh cat t V →
      WireForm cat (depthBound cat V y.bytes.length) t y)
    (henc : Schema.Encloses cat s₀ s) (hfresh : Schema.Fresh cat s V)
    (hst : Schema.Unframed cat s t) (hle : y.bytes.length ≤ b) :
    WireForm cat (depthBound cat V b) t y :=
  (ih V (henc.tail (.unframed hst)) (hfresh.step hst)).mono (depthBound_mono V hle)

/-- Unfolding a declared type, which is not among the declarations met, costs one. -/
theorem depthBound_unfold {n : String} {args : List Schema} {decl : Decl}
    (hfresh : Schema.Fresh cat (.named n args) V) (hfind : cat.find? n = .some decl) (b : Nat) :
    depthBound cat V b = depthBound cat (n :: V) b + 1 :=
  depthBound_enter n (hfresh.length_lt (Catalog.name_mem_of_find? hfind)) b

/-- With the declarations `V` met since the last framing byte, a value in wire form within
a schema that `s₀` encloses needs at most `depthBound` unfoldings. The induction is on the
wire form: a count, presence byte or tag forgets the declarations met and takes a byte
(`lower_framed`); an unframed step keeps them and adds no byte (`lower_unframed`); unfolding
a declaration adds it to them, and it cannot be among them already. -/
theorem lower (hrep : s₀.UnframedCyclesRepeat cat) {d : Nat} {x : Written}
    (h : WireForm cat d s x) :
    ∀ V, Schema.Encloses cat s₀ s → Schema.Fresh cat s V →
      WireForm cat (depthBound cat V x.bytes.length) s x := by
  induction h with
  | int k n hlo hhi => exact fun _ _ _ => .int k n hlo hhi
  | f32 b => exact fun _ _ _ => .f32 b
  | f64 b => exact fun _ _ _ => .f64 b
  | bool b => exact fun _ _ _ => .bool b
  | char c => exact fun _ _ _ => .char c
  | unit => exact fun _ _ _ => .unit
  | string t ht => exact fun _ _ _ => .string t ht
  | timestamp t => exact fun _ _ _ => .timestamp t
  | guid g => exact fun _ _ _ => .guid g
  | duration secs nanos hs hn => exact fun _ _ _ => .duration secs nanos hs hn
  | buffer k b hb => exact fun _ _ _ => .buffer k b hb
  | byteList k e he b hb => exact fun _ _ _ => .byteList k e he b hb
  | byteArray e he b => exact fun _ _ _ => .byteArray e he b
  | none e => exact fun _ _ _ => .none e
  | list k e he xs hlen _ ih =>
    intro V henc _
    exact .list k e he xs hlen fun y hy =>
      lower_framed (ih y hy) henc (.element he) (length_lt_counted (·.bytes) hy xs.length)
  | array e he xs _ ih =>
    intro V henc hfresh
    exact .array e he xs fun y hy => lower_unframed (ih y hy) henc hfresh
      (.element (List.length_pos_of_mem hy) he) (length_le_flatten (·.bytes) hy)
  | some e y _ ih =>
    intro V henc _
    exact .some e y (lower_framed ih henc .some (Nat.lt_succ_self _))
  | pointer p e y _ ih =>
    intro V henc hfresh
    exact .pointer p e y (lower_unframed ih henc hfresh .pointee le_rfl)
  | map keyed ks vs xs hlen _ _ hkeys ihk ihv =>
    intro V henc _
    -- each entry, key and value, lies after the count
    have hlt : ∀ p ∈ xs, (p.1.bytes ++ p.2.bytes).length <
        (Writer.varintBytes xs.length ++ (xs.map fun x => x.1.bytes ++ x.2.bytes).flatten).length :=
      fun p hp => length_lt_counted (fun x => x.1.bytes ++ x.2.bytes) hp xs.length
    refine .map keyed ks vs xs hlen (fun p hp => ?_) (fun p hp => ?_) hkeys
    · exact lower_framed (ihk p hp) henc .key (lt_of_le_of_lt (by simp) (hlt p hp))
    · exact lower_framed (ihv p hp) henc .value (lt_of_le_of_lt (by simp) (hlt p hp))
  | set keyed e xs hlen _ hkeys ih =>
    intro V henc _
    exact .set keyed e xs hlen (fun y hy =>
      lower_framed (ih y hy) henc .member (length_lt_counted (·.bytes) hy xs.length)) hkeys
  | tuple xs _ ih =>
    intro V henc hfresh
    exact .tuple xs fun p hp => lower_unframed (ih p hp) henc hfresh
      (.item (List.mem_map_of_mem hp)) (length_le_flatten (·.2.bytes) hp)
  | record n args decl fs hfind hbody xs hfields hon hoff ih =>
    intro V henc hfresh
    have hn := Catalog.name_mem_of_find? hfind
    have hcycle := not_unframed_cycle hrep henc hfind
      (.record n args decl fs hfind hbody xs hfields hon hoff)
    rw [depthBound_unfold hfresh hfind]
    refine .record n args decl fs hfind hbody xs hfields (fun p hp hskip => ?_) hoff
    -- a field goes on with this declaration among those met
    have hstep : Schema.Unframed cat (.named n args) p.1.schema :=
      .field hfind hbody (hfields ▸ List.mem_map_of_mem hp) hskip
    exact (ih p hp hskip (n :: V) (henc.tail (.unframed hstep)) (hfresh.enter hn hcycle hstep)).mono
      (depthBound_mono _ (length_le_flatten (·.2.bytes) hp))
  | enum n args decl names hfind hbody i hi =>
    intro V _ hfresh
    rw [depthBound_unfold hfresh hfind]
    exact .enum n args decl names hfind hbody i hi
  | union n args decl vs hfind hbody i var hvar xs hfields hon hoff hfit ih =>
    intro V henc hfresh
    rw [depthBound_unfold hfresh hfind]
    refine .union n args decl vs hfind hbody i var hvar xs hfields (fun p hp hskip => ?_) hoff hfit
    -- the payload lies after the tag and its four-byte length
    have hlt : p.2.bytes.length < (Writer.varintBytes var.tag ++
        (Writer.leBytes (xs.map (·.2.bytes)).flatten.length 4).data.toList ++
        (xs.map (·.2.bytes)).flatten).length := by
      have hmem := length_le_flatten (·.2.bytes) hp
      have hframe := length_varintBytes_pos var.tag
      rw [List.length_append, List.length_append]
      omega
    exact lower_framed (ih p hp hskip) henc
      (.variantField hfind hbody (List.mem_of_getElem? hvar) (hfields ▸ List.mem_map_of_mem hp) hskip)
      hlt
  | opaqueUnion n args decl tags hfind hbody =>
    intro V _ hfresh
    rw [depthBound_unfold hfresh hfind]
    exact .opaqueUnion n args decl tags hfind hbody

end Lower

/-- A value in wire form needs no more unfoldings than `fuelFor` gives for its bytes. -/
theorem lower_fuelFor {d : Nat} {s : Schema} {x : Written} (hrep : s.UnframedCyclesRepeat cat)
    (h : WireForm cat d s x) : WireForm cat (Codec.fuelFor cat x.bytes.length) s x :=
  (h.lower hrep [] .refl (.nil cat s)).mono (depthBound_nil_lt_fuelFor _).le

end WireForm

namespace Codec

variable {cat : Catalog} {d : Nat} {s : Schema} {x : Written}

theorem fuelFor_mono (cat : Catalog) {a b : Nat} (h : a ≤ b) : fuelFor cat a ≤ fuelFor cat b :=
  Nat.mul_le_mul_right _ (Nat.succ_le_succ h)

/-- With the budget it takes from the bytes left, the decoder reads a value in wire form
back from a reader over its bytes followed by anything, and stops right after them. -/
theorem decodeValue_of_wireForm (hcat : cat.WellFormed) (hrep : s.UnframedCyclesRepeat cat)
    (h : WireForm cat d s x) {r : Reader} {rest : List UInt8} (hr : r.Plain (x.bytes ++ rest)) :
    (decodeValue cat s).run' r = (.ok x.read, r.moved x.bytes.length) := by
  have hfuel : fuelFor cat x.bytes.length ≤ fuelFor cat r.remaining := by
    rw [hr.remaining, List.length_append]
    exact fuelFor_mono cat (Nat.le_add_right _ _)
  rw [decodeValue, ReadM.run'_bind, ReadM.run'_get]
  exact (decode_of_wireForm hcat (h.lower_fuelFor hrep) _ hfuel).whole r rest hr

/-- Options that set nothing leave deserializing as it is. -/
theorem deserialize_unset (cat : Catalog) (s : Schema) (c : Carrier) :
    deserialize cat s c (some ⟨none, none⟩) = deserialize cat s c none :=
  rfl

/-- Deserializing the bytes of a value in wire form, followed by anything, gives the value
back, with its skipped fields at their defaults. -/
theorem deserialize_of_wireForm (hcat : cat.WellFormed) (hrep : s.UnframedCyclesRepeat cat)
    (hraw : s.isRaw = false) {u : Bool} (hclass : classify cat s = .ok u) (h : WireForm cat d s x)
    (rest : List UInt8) :
    deserialize cat s (.slice (x.bytes ++ rest).toByteArray) none = .ok x.read := by
  have hplain := Reader.plain_ofBytes (x.bytes ++ rest).toByteArray
  rw [List.toList_data_toByteArray] at hplain
  rw [deserialize, hraw, if_neg Bool.false_ne_true, hclass]
  exact congrArg Prod.fst (decodeValue_of_wireForm hcat hrep h hplain)

end Codec

end WireCodec
