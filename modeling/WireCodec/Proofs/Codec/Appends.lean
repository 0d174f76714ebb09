import WireCodec.Proofs.Wire.Append
import WireCodec.Codec.Entry

/-!
# What the encoder writes does not depend on the writer

The encoder appends the same bytes to every writer, or fails with the same error on
every writer (`encode_appends`): what it writes is a function of the schema and the
value alone. Most writes only append. A union variant is the one write that looks back,
patching the length of its payload into a slot reserved before it; the slot is counted
from where the variant starts, so on every writer the patch lands on the same byte of
what the variant appends.

A frame writer starts with its flag byte, so its payload is the plain encoding
(`encodeTo_framed`).
-/

namespace WireCodec.Codec

open Wire

/-- `f` appends the bytes of `r` to every writer, or fails with the error of `r`. -/
def Appends (f : Writer → Except EncodeError Writer) : Prop :=
  ∃ r : Except EncodeError ByteArray, ∀ w, f w = r.map w.writeBytes

namespace Appends

variable {f g : Writer → Except EncodeError Writer}

/-- What an appending write does to any writer is what it does to the empty one. -/
theorem eq_empty (h : Appends f) (w : Writer) :
    f w = (f Writer.empty).map fun e => w.writeBytes e.bytes := by
  obtain ⟨r, hr⟩ := h
  rw [hr w, hr Writer.empty]
  cases r with
  | error e => rfl
  | ok b =>
    show Except.ok (w.writeBytes b) = .ok (w.writeBytes (ByteArray.empty ++ b))
    rw [ByteArray.empty_append]

/-- A write that does to every writer what it does to the empty one appends. -/
theorem of_eq_empty (h : ∀ w, f w = (f Writer.empty).map fun e => w.writeBytes e.bytes) :
    Appends f := by
  refine ⟨(f Writer.empty).map (·.bytes), fun w => ?_⟩
  rw [h w]
  cases f Writer.empty <;> rfl

theorem bind (hf : Appends f) (hg : Appends g) : Appends fun w => f w >>= g := by
  obtain ⟨r, hr⟩ := hf
  obtain ⟨q, hq⟩ := hg
  cases r with
  | error e =>
    refine ⟨.error e, fun w => ?_⟩
    show f w >>= g = _
    rw [hr w]
    rfl
  | ok a =>
    refine ⟨q.map (a ++ ·), fun w => ?_⟩
    show f w >>= g = _
    rw [hr w]
    show g (w.writeBytes a) = _
    rw [hq]
    cases q with
    | error e => rfl
    | ok b => exact congrArg Except.ok (Writer.writeBytes_writeBytes w a b)

end Appends

theorem appends_write (b : ByteArray) : Appends fun w => .ok (w.writeBytes b) :=
  ⟨.ok b, fun _ => rfl⟩

theorem appends_ok : Appends Except.ok :=
  ⟨.ok ByteArray.empty, fun w => by
    show Except.ok w = .ok { w with bytes := w.bytes ++ ByteArray.empty }
    rw [ByteArray.append_empty]⟩

/-- A write after appending `b` appends `b` and then its own bytes. -/
theorem Appends.after_write (h : Appends f) (b : ByteArray) : Appends fun w => f (w.writeBytes b) :=
  (appends_write b).bind h

/-- A fold of appending writes appends. -/
theorem appends_foldlM {β : Type} (g : β → Writer → Except EncodeError Writer) :
    ∀ l : List β, (∀ y ∈ l, Appends (g y)) → Appends fun w => l.foldlM (fun w y => g y w) w
  | [], _ => appends_ok
  | y :: l, h =>
    (h y List.mem_cons_self).bind
      (appends_foldlM g l fun y' hy' => h y' (List.mem_cons_of_mem y hy'))

/-- A union variant appends its tag, the length of what its payload appends, and that; or
fails as the payload does, or on a payload too long for its four-byte length. -/
theorem appends_writeVariant (tag : Nat) {payload : Writer → Except EncodeError Writer}
    (h : Appends payload) : Appends fun w => writeVariant w tag payload := by
  obtain ⟨r, hr⟩ := h
  have hslot (w : Writer) : (w.writeVarint tag).reserveU32 =
      (w.writeBytes (Writer.varintBytes tag ++ [0, 0, 0, 0]).toByteArray,
        (w.bytes.data.toList ++ Writer.varintBytes tag).length) := by
    simp only [Writer.reserveU32, Writer.writeLE_eq, Writer.writeVarint_eq, Writer.writeBytes_append]
    refine Prod.ext rfl ?_
    simp [Writer.len]
  cases r with
  | error e =>
    refine ⟨.error e, fun w => ?_⟩
    simp only [writeVariant, hslot, hr, bind, Except.bind]
    rfl
  | ok P =>
    by_cases hP : P.size ≤ maxPayload
    · refine ⟨.ok (Writer.varintBytes tag ++ (Writer.leBytes P.data.toList.length 4).data.toList ++
        P.data.toList).toByteArray, fun w => ?_⟩
      refine writeVariant_eq w tag payload P.data.toList (fun w' => ?_) (by simpa using hP)
      rw [hr w', ByteArray.toByteArray_data_toList]
      rfl
    · refine ⟨.error (.lengthOverflow "union payload" P.size maxPayload), fun w => ?_⟩
      have hlen : (w.writeBytes ((Writer.varintBytes tag ++ [0, 0, 0, 0]).toByteArray ++ P)).len -
          (w.writeBytes (Writer.varintBytes tag ++ [0, 0, 0, 0]).toByteArray).len = P.size := by
        simp only [Writer.len_writeBytes, ByteArray.size_append]
        omega
      simp only [writeVariant, hslot, hr, bind, Except.bind, pure, Except.pure, Except.map,
        Writer.writeBytes_writeBytes, hlen]
      rw [if_pos (by omega)]
      rfl

/-- The fields of a record or a variant, each appending when it is on the wire, append. -/
theorem appends_fields (cat : Catalog) (fs : List Field) (vals : List Value)
    (h : ∀ x ∈ vals, ∀ s, Appends (encode cat s x)) :
    Appends fun w => (fs.zip vals.attach).foldlM
      (fun w (f, ⟨x, _⟩) => if f.skip then .ok w else encode cat f.schema x w) w := by
  refine appends_foldlM _ _ fun y _ => ?_
  obtain ⟨f, x, hx⟩ := y
  show Appends fun w => if f.skip then .ok w else encode cat f.schema x w
  cases f.skip
  · exact h x hx f.schema
  · exact appends_ok

/-- Encoding appends the same bytes to every writer, or fails the same way on every
writer. -/
theorem encode_appends (cat : Catalog) (s : Schema) (v : Value) : Appends (encode cat s v) := by
  refine Appends.of_eq_empty fun w => ?_
  rw [encode.eq_def, encode.eq_def]
  split
  -- values of fixed width and runs after their length append their bytes
  case h_1 | h_2 | h_3 | h_5 | h_7 | h_8 | h_13 => exact (appends_write _).eq_empty w
  case h_4 | h_6 | h_9 | h_10 | h_11 | h_15 =>
    simp only [Writer.writeLE_eq, Writer.writeBool_eq, Writer.writeStr_eq, Writer.writeByteRun_eq,
      Writer.writeU8_eq, Writer.writeBytes_append]
    exact (appends_write _).eq_empty w
  -- a list or a set: the count, then each element
  case h_12 e items _ | h_18 e items _ =>
    rw [Writer.writeVarint_eq, Writer.writeVarint_eq]
    refine ((appends_foldlM _ items.attach fun y _ => ?_).after_write _).eq_empty w
    obtain ⟨x, hx⟩ := y
    exact encode_appends cat e x
  case h_14 e items _ =>
    refine (appends_foldlM _ items.attach fun y _ => ?_).eq_empty w
    obtain ⟨x, hx⟩ := y
    exact encode_appends cat e x
  case h_16 e x _ =>
    rw [Writer.writeU8_eq, Writer.writeU8_eq]
    exact ((encode_appends cat e x).after_write _).eq_empty w
  -- a map: the count, then each key and its value
  case h_17 ks vs entries _ =>
    rw [Writer.writeVarint_eq, Writer.writeVarint_eq]
    refine ((appends_foldlM _ entries.attach fun y _ => ?_).after_write _).eq_empty w
    obtain ⟨⟨k, x⟩, hkx⟩ := y
    exact (encode_appends cat ks k).bind (encode_appends cat vs x)
  case h_19 ss items _ =>
    refine (appends_foldlM _ (ss.zip items.attach) fun y _ => ?_).eq_empty w
    obtain ⟨s, x, hx⟩ := y
    exact encode_appends cat s x
  case h_20 n args vals _ =>
    split
    · split
      · exact (appends_fields cat _ vals fun x _ s => encode_appends cat s x).eq_empty w
      · exact appends_ok.eq_empty w
    · exact appends_ok.eq_empty w
  case h_21 =>
    split
    · rw [Writer.writeVarint_eq, Writer.writeVarint_eq]
      exact (appends_write _).eq_empty w
    · exact appends_ok.eq_empty w
  case h_22 n args i vals _ =>
    split
    · split
      · split
        · exact (appends_writeVariant _ (appends_fields cat _ vals fun x _ s =>
            encode_appends cat s x)).eq_empty w
        · exact appends_ok.eq_empty w
      · exact appends_ok.eq_empty w
    · exact appends_ok.eq_empty w
  case h_23 => exact appends_ok.eq_empty w
termination_by sizeOf v
decreasing_by
  all_goals
    subst_vars
    simp_all
  -- an element against its list, or a key or a value against the entries of its map
  all_goals first
    | have := List.sizeOf_lt_of_mem ‹(_, _) ∈ _›
      simp only [Prod.mk.sizeOf_spec] at this
      omega
    | have := List.sizeOf_lt_of_mem ‹_ ∈ (_ : List Value)›
      omega

/-- The payload of a frame writer is the plain encoding. -/
theorem encodeTo_framed (cat : Catalog) (s : Schema) (input : Input) :
    encodeTo cat s input true =
      (encodeTo cat s input false).map fun w => Writer.framed.writeBytes w.bytes := by
  simp only [encodeTo, if_true, Bool.false_eq_true, if_false]
  split
  · split
    · exact (appends_write _).eq_empty Writer.framed
    · rfl
  · split
    · rfl
    · exact (encode_appends cat s _).eq_empty Writer.framed

end WireCodec.Codec
