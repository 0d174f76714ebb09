import Mathlib
import WireCodec.Schema.Derive
import WireCodec.Proofs.Schema.Classify
import WireCodec.Proofs.Codec.DecodeForm
import WireCodec.Codec.Entry

/-!
# Derived unions tag their variants apart

A union derived from an enum (`parseCodec`) has at least one variant, and each variant is
tagged by its `tag = N` attribute or, without one, by its position. Explicit and implicit
tags share one space, and whatever their order no two variants share a tag
(`parseVariants_tags`): every tag is checked against those taken before it. Every tag also
fits 32 bits, so the declaration of a derived union is well formed (`Decl.WellFormed`), as
the codec's round trip asks.

What the codec does with such a declaration follows. Its resolver check passes
(`classify_named_union`), the decoder finds each variant by its own tag (`findIdx?_tag`), and
a variant header whose tag no variant has is refused as an invalid discriminator whatever
follows it (`deserialize_undeclared_tag`).
-/

namespace WireCodec

namespace Derive

/-- A bind that succeeds ran its first step to a success. -/
theorem bind_eq_ok {ε α β : Type} {x : Except ε α} {f : α → Except ε β} {b : β}
    (h : (x >>= f) = .ok b) : ∃ a, x = .ok a ∧ f a = .ok b := by
  cases x with
  | error e => cases h
  | ok a => exact ⟨a, rfl, h⟩

theorem parseTag_lt {literal : Option Nat} {n : Nat} (h : parseTag literal = .ok n) :
    n < Nat.pow 2 32 := by
  cases literal with
  | none => cases h
  | some m =>
    rw [parseTag] at h
    split at h
    · rename_i hm
      rw [← Except.ok.inj h]
      exact hm
    · cases h

/-- The tag the attributes give, on top of options whose tag fits 32 bits, fits 32 bits. -/
theorem parseOptions_tag_lt {items : List AttrItem} {o o' : Options}
    (h : parseOptions items o = .ok o') (ho : ∀ t, o.tag = some t → t < Nat.pow 2 32) :
    ∀ t, o'.tag = some t → t < Nat.pow 2 32 := by
  induction items generalizing o with
  | nil =>
    rw [parseOptions, Except.ok.injEq] at h
    rw [← h]
    exact ho
  | cons item rest ih =>
    cases item with
    | union => exact ih h ho
    | skip => exact ih h ho
    | tag literal =>
      rw [parseOptions] at h
      split at h
      · cases h
      · obtain ⟨n, hn, hrest⟩ := bind_eq_ok h
        refine ih hrest fun t ht => ?_
        rw [Option.some.inj ht] at hn
        exact parseTag_lt hn
    | other => cases h

/-- What one variant is parsed to: its options, and its tag, given or its position, which
fits 32 bits and no earlier variant took; the variants after it are parsed with that tag
taken. -/
theorem parseVariants_cons_eq_ok {v : VariantSyntax} {rest : List VariantSyntax} {index : Nat}
    {seen : List (Nat × String)} {out : List Variant}
    (h : parseVariants (v :: rest) index seen = .ok out) :
    ∃ o fields variants, parseOptions v.attrs {} = .ok o ∧ o.tag.getD index < Nat.pow 2 32 ∧
      seen.lookup (o.tag.getD index) = none ∧ parseFields v.fields = .ok fields ∧
      parseVariants rest (index + 1) ((o.tag.getD index, v.name) :: seen) = .ok variants ∧
      out = { name := v.name, tag := o.tag.getD index, fields := fields } :: variants := by
  rw [parseVariants] at h
  obtain ⟨o, ho, h⟩ := bind_eq_ok h
  split at h
  · cases h
  obtain ⟨tag, htag, h⟩ := bind_eq_ok h
  -- the tag is the given one, or the position when it fits 32 bits
  have htag' : tag = o.tag.getD index ∧ tag < Nat.pow 2 32 := by
    cases hot : o.tag with
    | none =>
      rw [hot, Option.elim_none, implicitTag] at htag
      split at htag
      · rename_i hlt
        rw [← Except.ok.inj htag]
        exact ⟨rfl, hlt⟩
      · cases htag
    | some t =>
      rw [hot, Option.elim_some, Except.ok.injEq] at htag
      subst htag
      exact ⟨rfl, parseOptions_tag_lt ho (fun _ h => by cases h) t hot⟩
  obtain ⟨rfl, hlt⟩ := htag'
  split at h
  · cases h
  rename_i hfree
  obtain ⟨fields, hfields, h⟩ := bind_eq_ok h
  obtain ⟨variants, hvariants, h⟩ := bind_eq_ok h
  exact ⟨o, fields, variants, ho, hlt, hfree, hfields, hvariants, (Except.ok.inj h).symm⟩

theorem parseVariants_nil_eq_ok {index : Nat} {seen : List (Nat × String)} {out : List Variant}
    (h : parseVariants [] index seen = .ok out) : out = [] :=
  (Except.ok.inj h).symm

theorem parseVariants_length : ∀ {syn : List VariantSyntax} {index : Nat}
    {seen : List (Nat × String)} {out : List Variant},
    parseVariants syn index seen = .ok out → out.length = syn.length
  | [], _, _, _, h => by
    rw [parseVariants_nil_eq_ok h]
    rfl
  | v :: rest, _, _, _, h => by
    obtain ⟨_, _, _, -, -, -, -, hrest, rfl⟩ := parseVariants_cons_eq_ok h
    rw [List.length_cons, List.length_cons, parseVariants_length hrest]

/-- The `i`-th variant has the name of the `i`-th declared one, and the tag its attribute
gives or else its position. -/
theorem parseVariants_getElem? : ∀ {syn : List VariantSyntax} {index : Nat}
    {seen : List (Nat × String)} {out : List Variant},
    parseVariants syn index seen = .ok out →
    ∀ i v sv, out[i]? = some v → syn[i]? = some sv →
      ∃ o, parseOptions sv.attrs {} = .ok o ∧ v.name = sv.name ∧ v.tag = o.tag.getD (index + i)
  | [], _, _, _, _, i, v, sv, _, hsv => by cases hsv
  | w :: rest, index, _, _, h, i, v, sv, hv, hsv => by
    obtain ⟨o, fields, variants, ho, -, -, -, hrest, rfl⟩ := parseVariants_cons_eq_ok h
    cases i with
    | zero =>
      rw [List.getElem?_cons_zero, Option.some.injEq] at hv hsv
      subst hv hsv
      exact ⟨o, ho, rfl, rfl⟩
    | succ i =>
      rw [List.getElem?_cons_succ] at hv hsv
      rw [show index + (i + 1) = index + 1 + i by omega]
      exact parseVariants_getElem? hrest i v sv hv hsv

theorem lookup_cons_eq_none {a k : Nat} {name : String} {l : List (Nat × String)} :
    ((k, name) :: l).lookup a = none ↔ a ≠ k ∧ l.lookup a = none := by
  rw [List.lookup]
  by_cases hak : a = k
  · rw [hak, beq_self_eq_true]
    simp
  · rw [beq_false_of_ne hak]
    simp [hak]

/-- The tags of the variants are distinct, none was taken before, and each fits 32 bits. -/
theorem parseVariants_tags : ∀ {syn : List VariantSyntax} {index : Nat}
    {seen : List (Nat × String)} {out : List Variant},
    parseVariants syn index seen = .ok out →
    (out.map (·.tag)).Nodup ∧ ∀ v ∈ out, seen.lookup v.tag = none ∧ v.tag < Nat.pow 2 32
  | [], _, _, _, h => by
    rw [parseVariants_nil_eq_ok h]
    simp
  | w :: rest, index, seen, _, h => by
    obtain ⟨o, fields, variants, -, hlt, hfree, -, hrest, rfl⟩ := parseVariants_cons_eq_ok h
    obtain ⟨hnd, hlater⟩ := parseVariants_tags hrest
    -- a later variant's tag was free with this one's taken, so differs from it
    have hlater' : ∀ v ∈ variants, v.tag ≠ o.tag.getD index ∧ seen.lookup v.tag = none ∧
        v.tag < Nat.pow 2 32 := fun v hv =>
      ⟨(lookup_cons_eq_none.mp (hlater v hv).1).1, (lookup_cons_eq_none.mp (hlater v hv).1).2,
        (hlater v hv).2⟩
    refine ⟨?_, ?_⟩
    · rw [List.map_cons, List.nodup_cons]
      refine ⟨fun hmem => ?_, hnd⟩
      obtain ⟨v, hv, heq⟩ := List.mem_map.mp hmem
      exact (hlater' v hv).1 heq
    · intro v hv
      rcases List.mem_cons.mp hv with rfl | hv
      · exact ⟨hfree, hlt⟩
      · exact (hlater' v hv).2

-- whichever comes first, an explicit tag and a position that agree are refused
example : (parseUnion [⟨"A", [], ⟨.unit, []⟩⟩, ⟨"B", [.tag (some 0)], ⟨.unit, []⟩⟩]).isOk = false := by
  decide

example : (parseUnion [⟨"A", [.tag (some 1)], ⟨.unit, []⟩⟩, ⟨"B", [], ⟨.unit, []⟩⟩]).isOk = false := by
  decide

/-- A derived union comes from an enum with at least one variant, whose variants it parses
from position 0 with no tag taken. -/
theorem parseCodec_eq_union {input : DeriveInput} {vs : List Variant}
    (h : parseCodec input = .ok (.union vs)) :
    ∃ syn, input.data = .enum syn ∧ syn ≠ [] ∧ parseVariants syn 0 [] = .ok vs := by
  rw [parseCodec] at h
  obtain ⟨o, -, h⟩ := bind_eq_ok h
  split at h
  · cases h
  cases hdata : input.data with
  | struct fs =>
    rw [hdata] at h
    dsimp only at h
    split at h
    · cases h
    · obtain ⟨fields, -, h⟩ := bind_eq_ok h
      cases h
  | enum syn =>
    rw [hdata] at h
    dsimp only at h
    split at h
    · obtain ⟨vs', hunion, h⟩ := bind_eq_ok h
      cases h
      rw [parseUnion] at hunion
      split at hunion
      · cases hunion
      · rename_i hne
        exact ⟨syn, rfl, fun hnil => hne (hnil ▸ rfl), hunion⟩
    · obtain ⟨names, -, h⟩ := bind_eq_ok h
      cases h
  | untagged =>
    rw [hdata] at h
    cases h

end Derive

namespace Codec

open Wire

/-- A variant header whose tag the payload reader refuses is refused with that tag: past
`maxPayload` before the length is read, and otherwise once the declared length is found to
be there. -/
theorem readVariant_refuses {name : String} {payload : Nat → ReadM Value} {t declared : Nat}
    {rest : List UInt8} (ht : t < Nat.pow 2 64) (hdecl : declared < Nat.pow 256 4)
    (hlen : declared ≤ rest.length) (hpay : payload t = throw (.invalidDiscriminator name t))
    {r : Reader}
    (hr : r.Plain (Writer.varintBytes t ++ (Writer.leBytes declared 4).data.toList ++ rest)) :
    ((readVariant name payload).run' r).1 = .error (.invalidDiscriminator name t) := by
  rw [List.append_assoc] at hr
  rw [readVariant, ReadM.run'_bind, (Reads.readVarint ht).whole r _ hr]
  dsimp only
  by_cases hbig : t > maxPayload
  · rw [if_pos hbig, ReadM.run'_bind, ReadM.run'_throw]
  · rw [if_neg hbig, ReadM.run'_bind, (Reads.readLE hdecl).whole _ rest hr.moved]
    dsimp only
    -- the declared length is all there, so the payload reader runs, and refuses the tag
    have hrem : (r.moved (Writer.varintBytes t).length
        |>.moved (Writer.leBytes declared 4).data.toList.length).remaining = rest.length :=
      hr.moved.moved.remaining
    rw [ReadM.run'_bind, ReadM.run'_get]
    dsimp only
    rw [if_neg (by omega), ReadM.run'_bind, hpay, ReadM.run'_throw]

section NamedUnion

variable {cat : Catalog} {n : String} {args : List Schema} {d : Decl} {vs : List Variant}

/-- Decoding a union whose variants have no tag `t` refuses a variant header with tag `t`. -/
theorem decode_union_undeclared {fuel : Nat} (hfind : cat.find? n = some d)
    (hbody : d.body = .union vs) {t declared : Nat} {rest : List UInt8}
    (hnot : t ∉ vs.map (·.tag)) (ht : t < Nat.pow 2 64) (hdecl : declared < Nat.pow 256 4)
    (hlen : declared ≤ rest.length) {r : Reader}
    (hr : r.Plain (Writer.varintBytes t ++ (Writer.leBytes declared 4).data.toList ++ rest)) :
    ((decode cat (fuel + 1) (.named n args)).run' r).1 =
      .error (.invalidDiscriminator d.name t) := by
  rw [decode, hfind]
  dsimp only
  rw [hbody, Body.subst]
  refine readVariant_refuses ht hdecl hlen ?_ hr
  -- no variant has the tag, also with the parameters of its fields replaced
  have hnone : (vs.map fun v => { v with fields := v.fields.subst args }).findIdx?
      (·.tag == t) = none := by
    rw [List.findIdx?_eq_none_iff]
    intro v hv
    obtain ⟨v₀, hv₀, rfl⟩ := List.mem_map.mp hv
    exact beq_false_of_ne fun heq => hnot (List.mem_map.mpr ⟨v₀, hv₀, heq⟩)
  rw [hnone]

theorem shape_named_union (hfind : cat.find? n = some d) (hbody : d.body = .union vs) :
    (Schema.named n args).shape cat = .union (vs.map (·.tag)) := by
  simp only [Schema.shape, hfind, hbody, Body.subst, List.map_map]
  rfl

/-- A named union with variants, no two with one tag, passes the resolver's check as a
union. -/
theorem classify_named_union (hfind : cat.find? n = some d) (hbody : d.body = .union vs)
    (hne : vs ≠ []) (hnd : (vs.map (·.tag)).Nodup) :
    classify cat (.named n args) = .ok true := by
  have hshape : (Schema.named n args).shape cat = .union (vs.map (·.tag)) :=
    shape_named_union hfind hbody
  have hunwrap : (Schema.named n args).unwrap cat = some (.named n args) :=
    Schema.unwrap_of_not_wrapper fun inner hw => by
      rw [hshape] at hw
      cases hw
  rw [classify_of_unwrap_union (by rw [hshape]; exact id) hunwrap hshape,
    validateUnion_eq_ok.mpr ⟨fun hnil => hne (List.map_eq_nil_iff.mp hnil), hnd⟩]
  rfl

/-- A named union with variants, no two with one tag, refuses from a buffer a variant header
whose tag no variant has, and whose declared payload length is there. -/
theorem deserialize_undeclared_tag (hfind : cat.find? n = some d) (hbody : d.body = .union vs)
    (hne : vs ≠ []) (hnd : (vs.map (·.tag)).Nodup) {t declared : Nat} {rest : List UInt8}
    (hnot : t ∉ vs.map (·.tag)) (ht : t < Nat.pow 2 64) (hdecl : declared < Nat.pow 256 4)
    (hlen : declared ≤ rest.length) :
    deserialize cat (.named n args)
        (.slice (Writer.varintBytes t ++ (Writer.leBytes declared 4).data.toList ++ rest).toByteArray)
        none = .error (.invalidDiscriminator d.name t) := by
  have hraw : (Schema.named n args).isRaw = false := rfl
  rw [deserialize, if_neg (by rw [hraw]; exact Bool.false_ne_true),
    classify_named_union hfind hbody hne hnd]
  dsimp only
  rw [decodeValue, ReadM.run'_bind, ReadM.run'_get]
  dsimp only
  -- the fuel for any input unfolds the declaration at least once
  rw [show ∀ k, fuelFor cat k = (k * (cat.length + 1) + cat.length) + 1 from fun k => by
    rw [fuelFor, Nat.succ_mul]
    omega]
  have hplain := Reader.plain_ofBytes
    (Writer.varintBytes t ++ (Writer.leBytes declared 4).data.toList ++ rest).toByteArray
  rw [List.toList_data_toByteArray] at hplain
  exact decode_union_undeclared hfind hbody hnot ht hdecl hlen hplain

end NamedUnion

end Codec

/-- A union derived from an enum tags its variants apart. It has at least one variant; the
`i`-th has the name of the `i`-th variant declared and the tag its `tag = N` attribute gives,
or else `i`; and no two share a tag. So a declaration of it is well formed and passes the
resolver's check as a union, and the decoder finds each variant by its own tag; a variant
header whose tag no variant has, with the payload length it declares there, is refused as an
invalid discriminator. -/
theorem derivedUnion_tags_apart {input : Derive.DeriveInput} {vs : List Variant}
    (h : Derive.parseCodec input = .ok (.union vs)) :
    (∃ syn, input.data = .enum syn ∧ vs ≠ [] ∧ vs.length = syn.length ∧
      ∀ i v sv, vs[i]? = some v → syn[i]? = some sv →
        ∃ o, Derive.parseOptions sv.attrs {} = .ok o ∧ v.name = sv.name ∧ v.tag = o.tag.getD i) ∧
    (vs.map (·.tag)).Nodup ∧
    ∀ (cat : Catalog) (d : Decl), cat.find? input.name = some d → d.body = .union vs →
      d.WellFormed ∧ (∀ args, classify cat (.named input.name args) = .ok true) ∧
      (∀ i (hi : i < vs.length), vs.findIdx? (·.tag == vs[i].tag) = some i) ∧
      ∀ (args : List Schema) (t declared : Nat) (rest : List UInt8), t ∉ vs.map (·.tag) →
        t < Nat.pow 2 64 → declared < Nat.pow 256 4 → declared ≤ rest.length →
        Codec.deserialize cat (.named input.name args)
          (.slice (Wire.Writer.varintBytes t ++ (Wire.Writer.leBytes declared 4).data.toList ++
            rest).toByteArray) none = .error (.invalidDiscriminator input.name t) := by
  obtain ⟨syn, hdata, hne, hparse⟩ := Derive.parseCodec_eq_union h
  obtain ⟨hnd, htags⟩ := Derive.parseVariants_tags hparse
  have hlen := Derive.parseVariants_length hparse
  have hvs : vs ≠ [] := List.ne_nil_of_length_pos (by rw [hlen]; exact List.length_pos_of_ne_nil hne)
  refine ⟨⟨syn, hdata, hvs, hlen, fun i v sv hv hsv => ?_⟩, hnd, fun cat d hfind hbody => ?_⟩
  · obtain ⟨o, ho, hname, htag⟩ := Derive.parseVariants_getElem? hparse i v sv hv hsv
    exact ⟨o, ho, hname, by rw [htag, Nat.zero_add]⟩
  · have hfind' : List.find? (fun d : Decl => d.name == input.name) cat = some d := hfind
    have hname : d.name = input.name := by
      have hbeq := List.find?_some hfind'
      exact beq_iff_eq.mp hbeq
    refine ⟨?_, fun args => Codec.classify_named_union hfind hbody hvs hnd,
      fun i hi => findIdx?_tag hnd (List.getElem?_eq_getElem hi), ?_⟩
    · -- every tag fits 32 bits
      rw [Decl.WellFormed, hbody]
      refine ⟨hnd, fun v hv => ?_⟩
      have hlt := (htags v hv).2
      unfold Codec.maxPayload
      omega
    · intro args t declared rest hnot ht hdecl hrest
      rw [Codec.deserialize_undeclared_tag hfind hbody hvs hnd hnot ht hdecl hrest, hname]

/-- `Circle`, tagged 7, and `Square`, tagged by its position 1. -/
theorem derivedUnion_tags_apart_shapes :
    let input : Derive.DeriveInput := ⟨"Shape", [.union],
      .enum [⟨"Circle", [.tag (some 7)], ⟨.unit, []⟩⟩, ⟨"Square", [], ⟨.unit, []⟩⟩]⟩
    let vs : List Variant := [⟨"Circle", 7, ⟨.unit, []⟩⟩, ⟨"Square", 1, ⟨.unit, []⟩⟩]
    Derive.parseCodec input = .ok (.union vs) ∧
    (∃ syn, input.data = .enum syn ∧ vs ≠ [] ∧ vs.length = syn.length ∧
      ∀ i v sv, vs[i]? = some v → syn[i]? = some sv →
        ∃ o, Derive.parseOptions sv.attrs {} = .ok o ∧ v.name = sv.name ∧ v.tag = o.tag.getD i) ∧
    (vs.map (·.tag)).Nodup ∧
    ∀ (cat : Catalog) (d : Decl), cat.find? input.name = some d → d.body = .union vs →
      d.WellFormed ∧ (∀ args, classify cat (.named input.name args) = .ok true) ∧
      (∀ i (hi : i < vs.length), vs.findIdx? (·.tag == vs[i].tag) = some i) ∧
      ∀ (args : List Schema) (t declared : Nat) (rest : List UInt8), t ∉ vs.map (·.tag) →
        t < Nat.pow 2 64 → declared < Nat.pow 256 4 → declared ≤ rest.length →
        Codec.deserialize cat (.named input.name args)
          (.slice (Wire.Writer.varintBytes t ++ (Wire.Writer.leBytes declared 4).data.toList ++
            rest).toByteArray) none = .error (.invalidDiscriminator input.name t) := by
  intro input vs
  have h : Derive.parseCodec input = .ok (.union vs) := rfl
  exact ⟨h, derivedUnion_tags_apart h⟩

end WireCodec
