import WireCodec.Proofs.Codec.WireForm
import WireCodec.Proofs.Codec.KeyOrder
import WireCodec.Proofs.Codec.Scalars
import WireCodec.Proofs.Wire.Reads
import WireCodec.Codec.Decode

/-!
# Decoding a value in its wire form

A value in wire form decodes from its bytes: `decode_of_wireForm` says that, with as much
budget as declarations are unfolded along its paths, the decoder reads exactly the value's
bytes and returns the value with its skipped fields defaulted (`Reads`, on a reader over
one buffer with default options). Each rule of `WireForm` is met by one lemma about the
reads it makes: counted sequences (`readMany_reads`), maps and sets whose keys are distinct,
read back in key order when sorted (`readKeyed_distinct`), fields that may be skipped
(`readField`), and the union frame with its declared payload length (`readVariant_reads`).
-/

namespace WireCodec

/-- A union of a well-formed declaration, with its arguments, still declares distinct tags of
32 bits. -/
theorem Decl.WellFormed.union_subst {decl : Decl} (h : decl.WellFormed) {args : List Schema}
    {vs : List Variant} (hb : decl.body.subst args = .union vs) :
    (vs.map (·.tag)).Nodup ∧ ∀ v ∈ vs, v.tag ≤ Codec.maxPayload := by
  unfold Decl.WellFormed at h
  cases hbody : decl.body with
  | union vs₀ =>
    rw [hbody] at h hb
    -- substitution changes the fields of the variants, not their tags
    have hvs : vs = vs₀.map fun v => { v with fields := v.fields.subst args } := by
      cases hb
      rfl
    subst hvs
    rw [List.map_map]
    refine ⟨h.1, ?_⟩
    intro v hv
    obtain ⟨v₀, hv₀, rfl⟩ := List.mem_map.mp hv
    exact h.2 v₀ hv₀
  | record _ | enumeration _ | opaqueUnion _ =>
    rw [hbody] at hb
    cases hb

/-- With distinct tags, the variant found by its tag is the variant itself. -/
theorem findIdx?_tag {vs : List Variant} (hnd : (vs.map (·.tag)).Nodup) {i : Nat}
    {var : Variant} (hvar : vs[i]? = some var) : vs.findIdx? (·.tag == var.tag) = some i := by
  obtain ⟨hi, rfl⟩ := List.getElem?_eq_some_iff.mp hvar
  rw [List.findIdx?_eq_some_iff_getElem]
  refine ⟨hi, beq_self_eq_true _, fun j hji heq => ?_⟩
  have htag : (vs.map (·.tag))[j]? = (vs.map (·.tag))[i]? := by
    rw [List.getElem?_map, List.getElem?_map, List.getElem?_eq_getElem (by omega),
      List.getElem?_eq_getElem hi, Option.map_some, Option.map_some, beq_iff_eq.mp heq]
  have := (List.getElem?_inj (by rw [List.length_map]; omega) hnd).mp htag
  omega

namespace Codec

open Wire

variable {α β : Type}

theorem readMany_reads {ι : Type} {x : ReadM α} (bs : ι → List UInt8) (val : ι → α) :
    ∀ (xs : List ι) (acc : List α), (∀ i ∈ xs, Reads x (bs i) (val i)) →
      Reads (readMany x xs.length acc) (xs.map bs).flatten (acc.reverse ++ xs.map val)
  | [], acc, _ => by
    rw [List.length_nil, readMany, List.map_nil, List.map_nil, List.flatten_nil, List.append_nil]
    exact Reads.pure _
  | i :: xs, acc, h => by
    rw [List.length_cons, readMany, List.map_cons, List.flatten_cons]
    refine (h i List.mem_cons_self).bind ?_
    refine (readMany_reads bs val xs (val i :: acc)
      (fun j hj => h j (List.mem_cons_of_mem i hj))).congr rfl ?_
    rw [List.reverse_cons, List.append_assoc, List.map_cons]
    rfl

/-- Sorted entries, each key different from those before it, read back in key order: each
entry read is put among those before it by its key. -/
theorem readKeyed_sorted {ι : Type} {x : ReadM β} (key : β → Value) (name : String)
    (bs : ι → List UInt8) (val : ι → β) :
    ∀ (xs : List ι) (acc : List β), (∀ i ∈ xs, Reads x (bs i) (val i)) →
      (∀ y ∈ acc, ∀ i ∈ xs, Value.same (key y) (key (val i)) = false) →
      (xs.map fun i => key (val i)).Pairwise (fun a b => Value.same a b = false) →
      Reads (readKeyed .sorted key name x xs.length acc) (xs.map bs).flatten
        ((xs.map val).foldl (fun acc e => insertSorted key e acc) acc)
  | [], acc, _, _, _ => by
    rw [List.length_nil, readKeyed, if_pos rfl, List.map_nil, List.map_nil, List.flatten_nil,
      List.foldl_nil]
    exact Reads.pure _
  | i :: xs, acc, h, hacc, hdistinct => by
    rw [List.map_cons, List.pairwise_cons] at hdistinct
    have hnew : hasKey key (key (val i)) acc = false :=
      hasKey_eq_false key _ acc fun y hy => hacc y hy i List.mem_cons_self
    -- the entry read joins those before it, and all their keys stay apart from those to come
    have hacc' : ∀ y ∈ insertSorted key (val i) acc, ∀ j ∈ xs,
        Value.same (key y) (key (val j)) = false := by
      intro y hy j hj
      rcases List.mem_cons.mp ((insertSorted_perm key (val i) acc hnew).mem_iff.mp hy) with rfl | hy
      · exact hdistinct.1 _ (List.mem_map_of_mem hj)
      · exact hacc y hy j (List.mem_cons_of_mem i hj)
    rw [List.length_cons, readKeyed, List.map_cons, List.flatten_cons]
    refine (h i List.mem_cons_self).bind ?_
    simp only [hnew, Bool.false_eq_true, if_false, if_true]
    exact readKeyed_sorted key name bs val xs _ (fun j hj => h j (List.mem_cons_of_mem i hj))
      hacc' hdistinct.2

/-- Hashed entries, each key different from those before it, read back in order. -/
theorem readKeyed_hashed {ι : Type} {x : ReadM β} (key : β → Value) (name : String)
    (bs : ι → List UInt8) (val : ι → β) :
    ∀ (xs : List ι) (acc : List β), (∀ i ∈ xs, Reads x (bs i) (val i)) →
      (∀ y ∈ acc, ∀ i ∈ xs, Value.same (key y) (key (val i)) = false) →
      (xs.map fun i => key (val i)).Pairwise (fun a b => Value.same a b = false) →
      Reads (readKeyed .hashed key name x xs.length acc) (xs.map bs).flatten
        (acc.reverse ++ xs.map val)
  | [], acc, _, _, _ => by
    rw [List.length_nil, readKeyed, if_neg (by decide), List.map_nil, List.map_nil,
      List.flatten_nil, List.append_nil]
    exact Reads.pure _
  | i :: xs, acc, h, hacc, hdistinct => by
    rw [List.map_cons, List.pairwise_cons] at hdistinct
    have hnew : hasKey key (key (val i)) acc = false :=
      hasKey_eq_false key _ acc fun y hy => hacc y hy i List.mem_cons_self
    have hacc' : ∀ y ∈ val i :: acc, ∀ j ∈ xs, Value.same (key y) (key (val j)) = false := by
      intro y hy j hj
      rcases List.mem_cons.mp hy with rfl | hy
      · exact hdistinct.1 _ (List.mem_map_of_mem hj)
      · exact hacc y hy j (List.mem_cons_of_mem i hj)
    rw [List.length_cons, readKeyed, List.map_cons, List.flatten_cons]
    refine (h i List.mem_cons_self).bind ?_
    simp only [hnew, Bool.false_eq_true, if_false, reduceCtorEq]
    refine (readKeyed_hashed key name bs val xs (val i :: acc)
      (fun j hj => h j (List.mem_cons_of_mem i hj)) hacc' hdistinct.2).congr rfl ?_
    rw [List.reverse_cons, List.append_assoc, List.map_cons]
    rfl


/-- Sorted or hashed, entries with distinct keys read back as the container holds them. -/
theorem readKeyed_distinct {ι : Type} {x : ReadM β} (keyed : Keyed) (key : β → Value)
    (name : String) (bs : ι → List UInt8) (val : ι → β) (xs : List ι)
    (h : ∀ i ∈ xs, Reads x (bs i) (val i))
    (hd : (xs.map fun i => key (val i)).Pairwise fun a b => Value.same a b = false) :
    Reads (readKeyed keyed key name x xs.length []) (xs.map bs).flatten
      (keyed.arrange key (xs.map val)) := by
  have hnil : ∀ y ∈ ([] : List β), ∀ i ∈ xs, Value.same (key y) (key (val i)) = false :=
    fun _ hy => absurd hy List.not_mem_nil
  cases keyed with
  | sorted => exact readKeyed_sorted key name bs val xs [] h hnil hd
  | hashed => exact (readKeyed_hashed key name bs val xs [] h hnil hd).congr rfl (List.nil_append _)

/-- An entry with a key not among those read is kept, and reading goes on after its bytes. -/
theorem readKeyed_fresh {x : ReadM β} (keyed : Keyed) (key : β → Value) (name : String)
    {bs : List UInt8} {e : β} (hx : Reads x bs e) {acc : List β}
    (hnew : hasKey key (key e) acc = false) (n : Nat) {r : Reader} {rest : List UInt8}
    (hr : r.Plain (bs ++ rest)) :
    (readKeyed keyed key name x (n + 1) acc).run' r =
      (readKeyed keyed key name x n
        (if keyed = .sorted then insertSorted key e acc else e :: acc)).run' (r.moved bs.length) := by
  rw [readKeyed, ReadM.run'_bind, hx.whole r rest hr]
  simp only [hnew, Bool.false_eq_true, if_false]

/-- An entry with a key already read is refused once its bytes are read. -/
theorem readKeyed_repeat {x : ReadM β} (keyed : Keyed) (key : β → Value) (name : String)
    {bs : List UInt8} {e : β} (hx : Reads x bs e) {acc : List β}
    (hold : hasKey key (key e) acc = true) (n : Nat) {r : Reader} {rest : List UInt8}
    (hr : r.Plain (bs ++ rest)) :
    (readKeyed keyed key name x (n + 1) acc).run' r =
      (.error (.invalidValue name .duplicateKey), r.moved bs.length) := by
  rw [readKeyed, ReadM.run'_bind, hx.whole r rest hr]
  simp only [hold, if_true]
  rfl

/-- A union variant reads back: its tag, the length of its payload, and the payload read by
the variant's reader. -/
theorem readVariant_reads (name : String) (payload : Nat → ReadM Value) {tag : Nat}
    {P : List UInt8} {v : Value} (htag : tag ≤ maxPayload) (hP : P.length ≤ maxPayload)
    (hp : Reads (payload tag) P v) :
    Reads (readVariant name payload)
      (Writer.varintBytes tag ++ (Writer.leBytes P.length 4).data.toList ++ P) v := by
  have h64 : maxPayload < Nat.pow 2 64 := by decide
  have h32 : maxPayload < Nat.pow 256 4 := by decide
  rw [readVariant, List.append_assoc]
  refine (Reads.readVarint (by omega)).bind ?_
  dsimp only
  rw [if_neg (by omega)]
  refine (Reads.readLE (by omega)).bind ?_
  refine ⟨fun r rest hr => ?_, fun r p hr _ hlt => ?_⟩
  · -- the payload is all there; it is read, and its length checks
    have hrem : r.remaining = P.length + rest.length := by
      rw [hr.remaining, List.length_append]
    rw [ReadM.run'_bind, ReadM.run'_get]
    dsimp only
    rw [if_neg (by omega), ReadM.run'_bind, hp.whole r rest hr]
    dsimp only
    rw [ReadM.run'_bind, ReadM.run'_get]
    dsimp only
    rw [if_neg (by simp [Reader.moved])]
    rfl
  · -- a cut payload is shorter than declared
    have hrem : r.remaining = p.length := hr.remaining
    rw [ReadM.run'_bind, ReadM.run'_get]
    dsimp only
    rw [if_pos (by omega), ReadM.run'_bind, ReadM.run'_throw]
    exact ⟨_, _, _, rfl⟩

/-- A field of a record or a variant reads back: a skipped one as its default, from no
bytes. -/
theorem readField {cat : Catalog} {fuel : Nat} (x : Field × Written)
    (hon : x.1.skip = false → Reads (decode cat fuel x.1.schema) x.2.bytes x.2.read)
    (hoff : x.1.skip = true → x.2.read = x.1.schema.default cat ∧ x.2.bytes = []) :
    Reads (if x.1.skip then pure (x.1.schema.default cat) else decode cat fuel x.1.schema)
      x.2.bytes x.2.read := by
  cases hskip : x.1.skip
  · rw [if_neg Bool.false_ne_true]
    exact hon hskip
  · rw [if_pos rfl, (hoff hskip).1, (hoff hskip).2]
    exact Reads.pure _

theorem decode_pointer (cat : Catalog) (fuel : Nat) (p : Pointer) (e : Schema) :
    decode cat fuel (.pointer p e) = decode cat fuel e := by
  rw [decode]

theorem decode_of_wireForm {cat : Catalog} (hcat : cat.WellFormed) {d : Nat} {s : Schema}
    {x : Written} (h : WireForm cat d s x) :
    ∀ fuel, d ≤ fuel → Reads (decode cat fuel s) x.bytes x.read := by
  induction h with
  | int k n hlo hhi =>
    intro fuel _
    rw [decode]
    exact ((Reads.readLE (k.residue_lt n)).map _).congr rfl (congrArg Value.int (k.read_residue hlo hhi))
  | f32 b =>
    intro fuel _
    rw [decode]
    exact ((Reads.readLE b.toNat_lt).map _).congr rfl (congrArg Value.f32 UInt32.ofNat_toNat)
  | f64 b =>
    intro fuel _
    rw [decode]
    exact ((Reads.readLE b.toNat_lt).map _).congr rfl (congrArg Value.f64 UInt64.ofNat_toNat)
  | bool b =>
    intro fuel _
    rw [decode]
    exact (Reads.readBool b).map _
  | char c =>
    intro fuel _
    rw [decode, ← List.append_nil (Writer.leBytes c.toNat 4).data.toList]
    refine (Reads.readLE c.val.toNat_lt).bind ?_
    rw [if_pos (show c.toNat.isValidChar from c.valid), Char.ofNat_toNat]
    exact Reads.pure _
  | unit =>
    intro fuel _
    rw [decode]
    exact Reads.pure _
  | string t ht =>
    intro fuel _
    rw [decode]
    exact (Reads.readString t ht).map _
  | timestamp t =>
    intro fuel _
    rw [decode, ← List.append_nil (Writer.leBytes t.toBinary.toNat 8).data.toList]
    refine (Reads.readLE t.toBinary.toNat_lt).bind ?_
    rw [Nat.toUInt64, UInt64.ofNat_toNat, Timestamp.ofBinary?_toBinary]
    dsimp only
    refine Reads.get_bind fun r hr => ?_
    rw [hr]
    exact Reads.pure _
  | guid g =>
    intro fuel _
    rw [decode]
    have hb := Reads.readBytes g.bytes.data.toList
    rw [ByteArray.length_data_toList, g.size_eq, ByteArray.toByteArray_data_toList] at hb
    exact (hb.map _).congr rfl (congrArg Value.guid (Guid.ofBytes_bytes g))
  | duration secs nanos hs hn =>
    intro fuel _
    rw [decode, ← List.append_nil (Writer.leBytes nanos 4).data.toList]
    refine (Reads.readLE hs).bind ((Reads.readLE (Nat.lt_trans hn (by decide))).bind ?_)
    dsimp only
    rw [if_neg (by omega)]
    exact Reads.pure _
  | buffer k b hb =>
    intro fuel _
    rw [decode]
    exact (Reads.readByteRun b hb).map _
  | byteList k e he b hb =>
    intro fuel _
    rw [decode]
    refine (Reads.readCount _ hb).bind ?_
    rw [if_pos he]
    have hs := Reads.readSlice b.data.toList
    rw [ByteArray.toByteArray_data_toList] at hs
    exact hs.map _
  | list k e he xs hlen hx ih =>
    intro fuel hfuel
    rw [decode]
    refine (Reads.readCount _ hlen).bind ?_
    rw [if_neg (by rw [he]; decide)]
    exact ((readMany_reads (·.bytes) (·.read) xs [] fun x hm => ih x hm fuel hfuel).map _).congr
      rfl (by rw [List.reverse_nil, List.nil_append])
  | byteArray e he b =>
    intro fuel _
    rw [decode, if_pos he]
    have hs := Reads.readSlice b.data.toList
    rw [ByteArray.toByteArray_data_toList] at hs
    exact hs.map _
  | array e he xs hx ih =>
    intro fuel hfuel
    rw [decode, if_neg (by rw [he]; decide)]
    exact ((readMany_reads (·.bytes) (·.read) xs [] fun x hm => ih x hm fuel hfuel).map _).congr
      rfl (by rw [List.reverse_nil, List.nil_append])
  | none e =>
    intro fuel _
    rw [decode, ← List.append_nil [0]]
    exact (Reads.readU8 0).bind (Reads.pure _)
  | some e x hx ih =>
    intro fuel hfuel
    rw [decode, show 1 :: x.bytes = [1] ++ x.bytes from rfl]
    exact (Reads.readU8 1).bind ((ih fuel hfuel).map _)
  | pointer p e x hx ih =>
    intro fuel hfuel
    rw [decode_pointer]
    exact ih fuel hfuel
  | map keyed ks vs xs hlen hk hv hkeys ihk ihv =>
    intro fuel hfuel
    rw [decode]
    dsimp only
    refine (Reads.readCount _ hlen).bind ?_
    -- an entry is its key, then its value
    have hentry : ∀ x ∈ xs, Reads (do
        let k ← decode cat fuel ks
        let v ← decode cat fuel vs
        return (k, v)) (x.1.bytes ++ x.2.bytes) (x.1.read, x.2.read) :=
      fun x hm => (ihk x hm fuel hfuel).bind ((ihv x hm fuel hfuel).map _)
    exact (readKeyed_distinct keyed Prod.fst _ (fun x => x.1.bytes ++ x.2.bytes)
      (fun x => (x.1.read, x.2.read)) xs hentry hkeys).map _
  | set keyed e xs hlen hx hkeys ih =>
    intro fuel hfuel
    rw [decode]
    dsimp only
    refine (Reads.readCount _ hlen).bind ?_
    exact (readKeyed_distinct keyed id _ (fun x : Written => x.bytes) (fun x : Written => x.read) xs
      (fun x hm => ih x hm fuel hfuel) hkeys).map _
  | tuple xs hx ih =>
    intro fuel hfuel
    rw [decode]
    simp only [List.mapM_subtype, List.unattach_attach]
    exact (Reads.mapM (·.1) (·.2.bytes) (·.2.read) xs fun x hm => ih x hm fuel hfuel).map _
  | record n args decl fs hfind hbody xs hfields hon hoff ih =>
    intro fuel hfuel
    obtain ⟨fuel, rfl⟩ : ∃ f, fuel = f + 1 := ⟨fuel - 1, by omega⟩
    rw [decode, hfind]
    dsimp only
    rw [hbody]
    dsimp only
    rw [← hfields]
    refine (Reads.mapM (·.1) (·.2.bytes) (·.2.read) xs ?_).map _
    exact fun x hm => readField x (fun hs => ih x hm hs fuel (by omega)) (hoff x hm)
  | enum n args decl names hfind hbody i hi =>
    intro fuel hfuel
    obtain ⟨fuel, rfl⟩ : ∃ f, fuel = f + 1 := ⟨fuel - 1, by omega⟩
    have hwf := hcat decl (List.mem_of_find?_eq_some hfind)
    unfold Decl.WellFormed at hwf
    rw [hbody] at hwf
    rw [decode, hfind]
    dsimp only
    rw [show decl.body.subst args = .enumeration names by rw [hbody]; rfl]
    dsimp only
    rw [← List.append_nil (Writer.varintBytes i)]
    refine (Reads.readVarint (by omega)).bind ?_
    rw [if_pos hi]
    exact Reads.pure _
  | union n args decl vs hfind hbody i var hvar xs hfields hon hoff hfit ih =>
    intro fuel hfuel
    obtain ⟨fuel, rfl⟩ : ∃ f, fuel = f + 1 := ⟨fuel - 1, by omega⟩
    obtain ⟨hnd, htags⟩ :=
      Decl.WellFormed.union_subst (hcat decl (List.mem_of_find?_eq_some hfind)) hbody
    rw [decode, hfind]
    dsimp only
    rw [hbody]
    dsimp only
    refine readVariant_reads decl.name _ (htags var (List.mem_of_getElem? hvar)) hfit ?_
    rw [findIdx?_tag hnd hvar]
    dsimp only
    rw [List.getD_eq_getElem?_getD, hvar, Option.getD_some, ← hfields]
    refine (Reads.mapM (·.1) (·.2.bytes) (·.2.read) xs ?_).map _
    exact fun x hm => readField x (fun hs => ih x hm hs fuel (by omega)) (hoff x hm)
  | opaqueUnion n args decl tags hfind hbody =>
    intro fuel hfuel
    obtain ⟨fuel, rfl⟩ : ∃ f, fuel = f + 1 := ⟨fuel - 1, by omega⟩
    rw [decode, hfind]
    dsimp only
    rw [hbody]
    exact Reads.pure _

end Codec

end WireCodec
