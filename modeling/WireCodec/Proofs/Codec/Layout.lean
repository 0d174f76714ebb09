import WireCodec.Proofs.Codec.Closure
import WireCodec.Codec.Entry

/-!
# Decoding does not depend on the layout of the bytes

A reader over one buffer and a reader over chunks of the same bytes show the same view
(`Carrier.reader_agree`), and every read built from the byte reads gives the same result on
readers that show the same view and force the same kind: `Oblivious` is closed under the
ways the decoder is built. So deserializing from any carrier gives what deserializing its
bytes joined gives, the same value or the same error; decoding a range of an array is
decoding the window over it; and serializing into any representation writes the same
bytes, or fails the same way.
-/

namespace WireCodec

open Wire Codec

namespace Wire.Reader

/-- Two readers that show the same view and force the same kind. -/
def Agree (r₁ r₂ : Reader) : Prop :=
  r₁.view = r₂.view ∧ r₁.options.timeKind = r₂.options.timeKind

theorem view_mergeOptions (r : Reader) (o : DecodeOptions) :
    (r.mergeOptions (some o)).view = { r.view with cap := o.maxCollectionLen.or r.options.maxCollectionLen } :=
  rfl

theorem Agree.mergeOptions {r₁ r₂ : Reader} (h : r₁.Agree r₂) (o : Option DecodeOptions) :
    (r₁.mergeOptions o).Agree (r₂.mergeOptions o) := by
  obtain ⟨hview, hkind⟩ := h
  cases o with
  | none => exact ⟨hview, hkind⟩
  | some o =>
    refine ⟨?_, ?_⟩
    · rw [view_mergeOptions, view_mergeOptions, cap_eq_of_view hview, hview]
    · simp only [Reader.mergeOptions, DecodeOptions.merge, hkind]

end Wire.Reader

namespace Codec

/-- A read whose result, and the view and kind of the reader it leaves, depend only on the
view and kind of the reader it starts from. -/
def Oblivious {α : Type} (x : ReadM α) : Prop :=
  ∀ r₁ r₂ : Reader, r₁.Agree r₂ → (x.run' r₁).1 = (x.run' r₂).1 ∧ (x.run' r₁).2.Agree (x.run' r₂).2

/-- Reads built from the byte reads do not see the layout of the bytes. -/
theorem oblivious_closed : DecodeClosed Oblivious where
  pure a r₁ r₂ h := ⟨rfl, h⟩
  throw e r₁ r₂ h := ⟨rfl, h⟩
  bind := by
    intro α β x f hx hf r₁ r₂ h
    obtain ⟨hres, hrest⟩ := hx r₁ r₂ h
    rw [ReadM.run'_bind, ReadM.run'_bind]
    rcases h₁ : x.run' r₁ with ⟨_ | a, s₁⟩ <;> rcases h₂ : x.run' r₂ with ⟨_ | b, s₂⟩ <;>
      rw [h₁, h₂] at hres hrest <;> dsimp only at hres hrest ⊢
    · cases hres
      exact ⟨rfl, hrest⟩
    · cases hres
    · cases hres
    · cases hres
      exact hf a s₁ s₂ hrest
  get_bind := by
    intro α f hf hsame r₁ r₂ h
    rw [ReadM.run'_bind, ReadM.run'_bind, ReadM.run'_get, ReadM.run'_get]
    dsimp only
    rw [hsame r₁ r₂ h.1]
    exact hf r₂ r₁ r₂ h
  get_kind_bind := by
    intro α f hf hsame r₁ r₂ h
    rw [ReadM.run'_bind, ReadM.run'_bind, ReadM.run'_get, ReadM.run'_get]
    dsimp only
    rw [hsame r₁ r₂ h.1 h.2]
    exact hf r₂ r₁ r₂ h
  readBytes := by
    intro n r₁ r₂ h
    have hrem := Reader.remaining_eq_of_view h.1
    by_cases hn : n ≤ r₁.remaining
    · obtain ⟨s₁, hrun₁, hview₁, hopt₁, -⟩ := Reader.readBytes_run' hn
      obtain ⟨s₂, hrun₂, hview₂, hopt₂, -⟩ := Reader.readBytes_run' (hrem ▸ hn)
      have hahead : r₁.ahead = r₂.ahead := congrArg View.ahead h.1
      rw [hrun₁, hrun₂, hahead]
      exact ⟨rfl, by rw [hview₁, hview₂, h.1], by rw [hopt₁, hopt₂]; exact h.2⟩
    · rw [Reader.readBytes_run'_short (by omega), Reader.readBytes_run'_short (by omega), hrem]
      exact ⟨rfl, h⟩
  readSlice_bind := by
    intro α n f hf hsame r₁ r₂ h
    have hrem := Reader.remaining_eq_of_view h.1
    rw [ReadM.run'_bind, ReadM.run'_bind]
    by_cases hn : n ≤ r₁.remaining
    · obtain ⟨b₁, s₁, hrun₁, hview₁, hopt₁, -⟩ := Reader.readSlice_run' hn
      obtain ⟨b₂, s₂, hrun₂, hview₂, hopt₂, -⟩ := Reader.readSlice_run' (hrem ▸ hn)
      have hahead : r₁.ahead = r₂.ahead := congrArg View.ahead h.1
      rw [hrun₁, hrun₂]
      dsimp only
      -- the two slices hold the same bytes; only whether they are borrowed may differ
      rw [hsame _ ((r₂.ahead.take n).toByteArray, b₂) (by rw [hahead])]
      exact hf _ s₁ s₂ ⟨by rw [hview₁, hview₂, h.1], by rw [hopt₁, hopt₂]; exact h.2⟩
    · rw [Reader.readSlice_run'_short (by omega), Reader.readSlice_run'_short (by omega), hrem]
      exact ⟨rfl, h⟩

end Codec

/-! ### The reader of a carrier -/

namespace Carrier

theorem data_toList_foldl_append (ss : List ByteArray) (acc : ByteArray) :
    (ss.foldl (· ++ ·) acc).data.toList = acc.data.toList ++ (ss.map (·.data.toList)).flatten := by
  induction ss generalizing acc with
  | nil => simp
  | cons s ss ih => simp [ih]

theorem data_toList_flatten_sequence (ss : List ByteArray) :
    (sequence ss).flatten.data.toList = (ss.map (·.data.toList)).flatten := by
  simp [flatten, data_toList_foldl_append]

theorem chunkAhead_zero (ss : List ByteArray) :
    chunkAhead ss 0 0 = (ss.map (·.data.toList)).flatten := by
  cases ss with
  | nil => rfl
  | cons s ss => simp [chunkAhead]

theorem foldl_size (ss : List ByteArray) (n : Nat) :
    ss.foldl (fun n c => n + c.size) n = n + ((ss.map (·.data.toList)).flatten).length := by
  induction ss generalizing n with
  | nil => simp
  | cons s ss ih => simp [ih, Nat.add_assoc]

/-- A reader over chunks shows the view of a reader over the chunks joined. -/
theorem ofChunks_agree (ss : List ByteArray) :
    (Reader.ofChunks ss.toArray).Agree (Reader.ofBytes (sequence ss).flatten) := by
  refine ⟨?_, rfl⟩
  simp only [Reader.view, Reader.ofChunks, Reader.ofBytes, Reader.ahead,
    chunkAhead_zero, List.drop_zero, data_toList_flatten_sequence, View.mk.injEq, and_true,
    true_and, List.foldl_toArray', foldl_size, Nat.zero_add]
  rw [← ByteArray.length_data_toList, data_toList_flatten_sequence]

/-- The reader of a carrier shows the view of a reader over its bytes joined. -/
theorem reader_agree (c : Carrier) : c.reader.Agree (Carrier.slice c.flatten).reader := by
  cases c with
  | sequence ss =>
    rcases ss with _ | ⟨s, _ | ⟨t, rest⟩⟩
    · exact ofChunks_agree []
    · have hs : (sequence [s]).flatten = s :=
        ByteArray.ext_toList (by simp [data_toList_flatten_sequence])
      show (Reader.ofBytes s).Agree (Reader.ofBytes (sequence [s]).flatten)
      rw [hs]
      exact ⟨rfl, rfl⟩
    · exact ofChunks_agree (s :: t :: rest)
  | slice b => exact ⟨rfl, rfl⟩
  | shared b => exact ⟨rfl, rfl⟩
  | segment a o n => exact ⟨rfl, rfl⟩

/-- Converting a carrier keeps its bytes. -/
theorem flatten_convert (r : Representation) (c : Carrier) : (c.convert r).flatten = c.flatten := by
  -- a copy into a window or a sequence of one segment holds the same bytes
  have hwindow : ∀ b : ByteArray, (segment b 0 b.size).flatten = b := fun b =>
    ByteArray.ext_toList (by simp [flatten])
  have hsegments : ∀ b : ByteArray, (ofSegments [b]).flatten = b := by
    intro b
    apply ByteArray.ext_toList
    by_cases hb : b.size = 0
    · have hnil : b.data.toList = [] := List.eq_nil_of_length_eq_zero (by simpa using hb)
      simp [ofSegments, flatten, hb, hnil]
    · simp [ofSegments, flatten, hb]
  cases r <;> cases c <;> simp only [convert, hwindow, hsegments] <;> rfl

end Carrier

/-! ### Entry points -/

namespace Codec

/-- Deserializing from a carrier gives what deserializing its bytes joined gives. -/
theorem deserialize_eq_flatten (cat : Catalog) (s : Schema) (c : Carrier)
    (o : Option DecodeOptions) :
    deserialize cat s c o = deserialize cat s (.slice c.flatten) o := by
  rw [deserialize, deserialize]
  by_cases hraw : s.isRaw
  · rw [if_pos hraw, if_pos hraw]
    rfl
  · rw [if_neg hraw, if_neg hraw]
    cases classify cat s with
    | error e => rfl
    | ok _ =>
      exact (decodeValue_closed oblivious_closed cat s _ _
        ((Carrier.reader_agree c).mergeOptions o)).1

/-- Serializing into any representation writes the bytes of a plain vector, or fails as
that does. -/
theorem serialize_flatten (cat : Catalog) (s : Schema) (input : Input) (r : Representation) :
    (serialize cat s input r).map Carrier.flatten =
      (serialize cat s input .vec).map Carrier.flatten := by
  rw [serialize, serialize]
  by_cases hraw : s.isRaw
  · rw [if_pos hraw, if_pos hraw]
    cases input.raw with
    | none => rfl
    | some c => simp only [Except.map, Carrier.flatten_convert]
  · rw [if_neg hraw, if_neg hraw]
    cases encodeTo cat s input false with
    | error e => rfl
    | ok w => simp only [bind, Except.bind, pure, Except.pure, Except.map, Carrier.flatten_convert]

/-- Decoding does not see how the bytes are laid out: from every carrier, under every
options, the result is that of decoding its bytes joined in one buffer; a range of an array
that lies inside it is decoded as the window over it, and one that does not is refused;
and serializing into every representation writes the bytes of a plain vector, or fails as
that does. -/
theorem deserialize_independent_of_layout (cat : Catalog) (s : Schema) :
    (∀ (c : Carrier) (o : Option DecodeOptions),
      deserialize cat s c o = deserialize cat s (.slice c.flatten) o) ∧
    (∀ (bytes : ByteArray) (offset len : Nat), offset + len ≤ bytes.size →
      deserializeRange cat s bytes offset len = deserialize cat s (.segment bytes offset len) none) ∧
    (∀ (bytes : ByteArray) (offset len : Nat), bytes.size < offset + len →
      deserializeRange cat s bytes offset len = .error (.invalidRange offset len bytes.size)) ∧
    (∀ (input : Input) (r : Representation),
      (serialize cat s input r).map Carrier.flatten =
        (serialize cat s input .vec).map Carrier.flatten) := by
  refine ⟨deserialize_eq_flatten cat s, fun bytes offset len h => ?_,
    fun bytes offset len h => ?_, serialize_flatten cat s⟩
  · -- the window's bytes are the range
    rw [deserializeRange, if_pos h, deserialize_eq_flatten cat s (.segment bytes offset len)]
    rfl
  · rw [deserializeRange, if_neg (by omega)]

end Codec

end WireCodec
