import WireCodec.Proofs.Codec.Layout
import WireCodec.Proofs.Codec.KeyOrder

/-!
# Decoding stays inside its bytes

The reader of every carrier is sound (`Reader.Sound`: its position and the bytes ahead
make up its size, and its cursor lies inside what it reads). On a sound reader a read of
`n` bytes that passes its length check touches only bytes that are there and returns
exactly `n` of them (`Reader.Sound.inBounds`, `Reader.Sound.readSlice`), and every read
built from the byte reads takes a sound reader to a sound reader no earlier than where it
started (`Safe`, closed under the ways the decoder is built). So every read the decoder
makes is made on a sound reader: no slice falls outside its buffer, no chunk offset passes
the end of its chunk, and the length a union's payload consumed, a difference of two
positions, is never negative.

A map or a set is read entry by entry, and an entry whose key is already there is refused,
never merged: what the decoder returns for a map or a set has as many entries as the count
read before them, with keys that are pairwise different (`decode_map_entries`,
`decode_set_items`).
-/

namespace WireCodec

open Wire Codec

namespace Wire.Reader

/-- Reading `n` bytes touches only bytes that are there: `n` bytes are ahead, a slice of a
single buffer lies inside it, and the offset in the current chunk lies inside that chunk. -/
def InBounds (r : Reader) (n : Nat) : Prop :=
  n ≤ r.ahead.length ∧
    (∀ b, r.source = .contiguous b → r.position + n ≤ b.size) ∧
    (∀ cs i o, r.source = .chunked cs i o → ∀ c ∈ (cs.toList.drop i).head?, o ≤ c.size)

/-- On a sound reader a read that passes its length check stays inside the bytes. -/
theorem Sound.inBounds {r : Reader} {n : Nat} (hs : r.Sound) (hn : n ≤ r.remaining) :
    r.InBounds n := by
  have hahead : n ≤ r.ahead.length := by
    rw [hs.remaining] at hn
    exact hn
  obtain ⟨hlen, hsrc⟩ := hs
  refine ⟨hahead, fun b hb => ?_, fun cs i o hc => ?_⟩
  · rw [hb] at hsrc
    have hsize : r.size = b.size := hsrc
    omega
  · rw [hc] at hsrc
    exact hsrc

/-- On a sound reader a slice read that passes its length check returns exactly the bytes
asked for. -/
theorem Sound.readSlice {r : Reader} {n : Nat} (hs : r.Sound) (hn : n ≤ r.remaining) :
    ∃ slice r', (readSlice n).run' r = (.ok slice, r') ∧ slice.1.size = n := by
  obtain ⟨borrowed, r', hrun, -⟩ := readSlice_run' hn
  refine ⟨_, r', hrun, ?_⟩
  rw [hs.remaining] at hn
  simp only [List.size_toByteArray, List.length_take]
  omega

theorem Sound.mergeOptions {r : Reader} (hs : r.Sound) (o : Option DecodeOptions) :
    (r.mergeOptions o).Sound := by
  cases o with
  | none => exact hs
  | some o => exact hs

theorem sound_ofBytes (b : ByteArray) : (ofBytes b).Sound :=
  ⟨by simp [ofBytes, ahead], rfl⟩

theorem sound_ofChunks (ss : List ByteArray) : (ofChunks ss.toArray).Sound := by
  refine ⟨?_, fun c _ => Nat.zero_le c.size⟩
  simp only [ofChunks, ahead, Carrier.chunkAhead_zero, List.foldl_toArray',
    Carrier.foldl_size, Nat.zero_add]

end Wire.Reader

/-- The reader of every carrier is sound. -/
theorem Carrier.reader_sound (c : Carrier) : c.reader.Sound := by
  cases c with
  | sequence ss =>
    rcases ss with _ | ⟨s, _ | ⟨t, rest⟩⟩
    · exact Reader.sound_ofChunks []
    · exact Reader.sound_ofBytes s
    · exact Reader.sound_ofChunks (s :: t :: rest)
  | slice b => exact Reader.sound_ofBytes b
  | shared b => exact Reader.sound_ofBytes b
  | segment a o n => exact Reader.sound_ofBytes _

namespace Codec

/-- A read that takes every sound reader to a sound reader at or after the position it
started from. -/
def Safe {α : Type} (x : ReadM α) : Prop :=
  ∀ r : Reader, r.Sound → (x.run' r).2.Sound ∧ r.position ≤ (x.run' r).2.position

/-- Reads built from the byte reads keep the reader sound and never move it back. -/
theorem safe_closed : DecodeClosed Safe where
  pure _ _ hs := ⟨hs, Nat.le_refl _⟩
  throw _ _ hs := ⟨hs, Nat.le_refl _⟩
  bind := by
    intro α β x f hx hf r hs
    obtain ⟨hs₁, hle₁⟩ := hx r hs
    rw [ReadM.run'_bind]
    rcases h₁ : x.run' r with ⟨_ | a, r₁⟩ <;> rw [h₁] at hs₁ hle₁ <;> dsimp only
    · exact ⟨hs₁, hle₁⟩
    · obtain ⟨hs₂, hle₂⟩ := hf a r₁ hs₁
      exact ⟨hs₂, Nat.le_trans hle₁ hle₂⟩
  get_bind := by
    intro α f hf _ r hs
    rw [ReadM.run'_bind, ReadM.run'_get]
    exact hf r r hs
  get_kind_bind := by
    intro α f hf _ r hs
    rw [ReadM.run'_bind, ReadM.run'_get]
    exact hf r r hs
  readBytes := by
    intro n r hs
    by_cases hn : n ≤ r.remaining
    · obtain ⟨r', hrun, hview, -, hsound⟩ := Reader.readBytes_run' hn
      rw [hrun, Reader.position_of_view_skip hview]
      exact ⟨hsound hs, Nat.le_add_right _ _⟩
    · rw [Reader.readBytes_run'_short (by omega)]
      exact ⟨hs, Nat.le_refl _⟩
  readSlice_bind := by
    intro α n f hf _ r hs
    rw [ReadM.run'_bind]
    by_cases hn : n ≤ r.remaining
    · obtain ⟨borrowed, r', hrun, hview, -, hsound⟩ := Reader.readSlice_run' hn
      rw [hrun]
      dsimp only
      obtain ⟨hs', hle⟩ := hf _ r' (hsound hs)
      rw [Reader.position_of_view_skip hview] at hle
      exact ⟨hs', by omega⟩
    · rw [Reader.readSlice_run'_short (by omega)]
      exact ⟨hs, Nat.le_refl _⟩

/-! ### Maps and sets -/

/-- A fresh entry, where the container keeps it, is one more entry. -/
theorem keyed_insert_perm {β : Type} (keyed : Keyed) (key : β → Value) {e : β} {acc : List β}
    (hnew : ¬hasKey key (key e) acc = true) :
    (if keyed = .sorted then insertSorted key e acc else e :: acc).Perm (e :: acc) := by
  split
  · exact insertSorted_perm key e acc (Bool.eq_false_iff.mpr hnew)
  · exact List.Perm.refl _

/-- Adding an entry whose key is not there yet, where the container keeps it, gives one
entry more, with keys still pairwise different. -/
theorem keyed_add_fresh {β : Type} (keyed : Keyed) (key : β → Value) {e : β} {acc : List β}
    (hacc : (acc.map key).Pairwise (fun a b => Value.same a b = false))
    (hnew : ¬hasKey key (key e) acc = true) :
    (if keyed = .sorted then insertSorted key e acc else e :: acc).length = acc.length + 1 ∧
      ((if keyed = .sorted then insertSorted key e acc else e :: acc).map key).Pairwise
        (fun a b => Value.same a b = false) := by
  have hfresh : ∀ y ∈ acc, Value.same (key e) (key y) = false := by
    intro y hy
    rw [Value.same_comm]
    simp only [hasKey, List.any_eq_true, not_exists, not_and, Bool.not_eq_true] at hnew
    exact hnew y hy
  -- the entries with `e`, in whichever order the container keeps them
  have hperm := keyed_insert_perm keyed key hnew
  refine ⟨by rw [hperm.length_eq, List.length_cons], ?_⟩
  refine ((hperm.map key).pairwise_iff fun hab => ?_).mpr ?_
  · rwa [Value.same_comm]
  · rw [List.map_cons, List.pairwise_cons]
    refine ⟨fun k hk => ?_, hacc⟩
    obtain ⟨y, hy, rfl⟩ := List.mem_map.mp hk
    exact hfresh y hy

/-- Reading `n` keyed entries onto entries with pairwise different keys gives `n` more
entries, with keys still pairwise different: a repeated key is refused. -/
theorem readKeyed_entries {β : Type} (keyed : Keyed) (key : β → Value) (name : String)
    (x : ReadM β) :
    ∀ (n : Nat) (acc : List β) (r r' : Reader) (l : List β),
      (acc.map key).Pairwise (fun a b => Value.same a b = false) →
      (readKeyed keyed key name x n acc).run' r = (.ok l, r') →
      l.length = n + acc.length ∧ (l.map key).Pairwise (fun a b => Value.same a b = false)
  | 0, acc, r, r', l, hacc, h => by
    rw [readKeyed, ReadM.run'_pure] at h
    simp only [Prod.mk.injEq, Except.ok.injEq] at h
    obtain ⟨rfl, -⟩ := h
    split
    · exact ⟨by simp, hacc⟩
    · refine ⟨by simp, ?_⟩
      rw [List.map_reverse, List.pairwise_reverse]
      exact hacc.imp fun hab => by rwa [Value.same_comm]
  | n + 1, acc, r, r', l, hacc, h => by
    rw [readKeyed] at h
    obtain ⟨e, r₁, -, h⟩ := ReadM.run'_bind_eq_ok h
    dsimp only at h
    split at h
    · rw [ReadM.throw_bind, ReadM.run'_throw] at h
      cases h
    · rename_i hnew
      obtain ⟨hadd, hkeys⟩ := keyed_add_fresh keyed key hacc hnew
      obtain ⟨hlen, hl⟩ := readKeyed_entries keyed key name x n _ r₁ r' l hkeys h
      exact ⟨by omega, hl⟩

/-- A map is decoded as its count, then that many entries with pairwise different keys. -/
theorem decode_map_entries {cat : Catalog} {fuel : Nat} {keyed : Keyed} {ks vs : Schema}
    {r r' : Reader} {v : Value} (h : (decode cat fuel (.map keyed ks vs)).run' r = (.ok v, r')) :
    ∃ count r₁ entries,
      (Reader.readCount ((Schema.map keyed ks vs).typeName cat)).run' r = (.ok count, r₁) ∧
        v = .map entries ∧ entries.length = count ∧
        (entries.map Prod.fst).Pairwise fun a b => Value.same a b = false := by
  rw [decode] at h
  dsimp only at h
  obtain ⟨count, r₁, hcount, h⟩ := ReadM.run'_bind_eq_ok h
  obtain ⟨entries, r₂, hread, h⟩ := ReadM.run'_bind_eq_ok h
  rw [ReadM.run'_pure] at h
  simp only [Prod.mk.injEq, Except.ok.injEq] at h
  obtain ⟨hlen, hkeys⟩ := readKeyed_entries keyed Prod.fst _ _ count [] r₁ r₂ entries
    List.Pairwise.nil hread
  exact ⟨count, r₁, entries, hcount, h.1.symm, by simpa using hlen, hkeys⟩

/-- A set is decoded as its count, then that many pairwise different members. -/
theorem decode_set_items {cat : Catalog} {fuel : Nat} {keyed : Keyed} {e : Schema}
    {r r' : Reader} {v : Value} (h : (decode cat fuel (.set keyed e)).run' r = (.ok v, r')) :
    ∃ count r₁ items,
      (Reader.readCount ((Schema.set keyed e).typeName cat)).run' r = (.ok count, r₁) ∧
        v = .seq items ∧ items.length = count ∧
        items.Pairwise fun a b => Value.same a b = false := by
  rw [decode] at h
  obtain ⟨count, r₁, hcount, h⟩ := ReadM.run'_bind_eq_ok h
  obtain ⟨items, r₂, hread, h⟩ := ReadM.run'_bind_eq_ok h
  rw [ReadM.run'_pure] at h
  simp only [Prod.mk.injEq, Except.ok.injEq] at h
  obtain ⟨hlen, hkeys⟩ := readKeyed_entries keyed id _ _ count [] r₁ r₂ items
    List.Pairwise.nil hread
  rw [List.map_id] at hkeys
  exact ⟨count, r₁, items, hcount, h.1.symm, by simpa using hlen, hkeys⟩

/-- Decoding stays inside its bytes. The reader of every carrier, under every options, is
sound; from a sound reader the decoder of every schema leaves a sound reader no earlier than
where it started, so each read it makes is made on a sound reader, where a read that passes
its length check stays inside the bytes and returns exactly the bytes asked for; and a map
or a set it returns has as many entries as the count read before them, with pairwise
different keys. -/
theorem decode_stays_in_bounds (cat : Catalog) (s : Schema) :
    (∀ (c : Carrier) (o : Option DecodeOptions), (c.reader.mergeOptions o).Sound) ∧
    Safe (decodeValue cat s) ∧
    (∀ (r : Reader) (n : Nat), r.Sound → n ≤ r.remaining →
      r.InBounds n ∧
        ∃ slice r', (Reader.readSlice n).run' r = (.ok slice, r') ∧ slice.1.size = n) ∧
    (∀ (fuel : Nat) (keyed : Keyed) (ks vs : Schema) (r r' : Reader) (v : Value),
      (decode cat fuel (.map keyed ks vs)).run' r = (.ok v, r') →
      ∃ count r₁ entries,
        (Reader.readCount ((Schema.map keyed ks vs).typeName cat)).run' r = (.ok count, r₁) ∧
          v = .map entries ∧ entries.length = count ∧
          (entries.map Prod.fst).Pairwise fun a b => Value.same a b = false) ∧
    (∀ (fuel : Nat) (keyed : Keyed) (e : Schema) (r r' : Reader) (v : Value),
      (decode cat fuel (.set keyed e)).run' r = (.ok v, r') →
      ∃ count r₁ items,
        (Reader.readCount ((Schema.set keyed e).typeName cat)).run' r = (.ok count, r₁) ∧
          v = .seq items ∧ items.length = count ∧
          items.Pairwise fun a b => Value.same a b = false) :=
  ⟨fun c o => c.reader_sound.mergeOptions o, decodeValue_closed safe_closed cat s,
    fun _ _ hs hn => ⟨hs.inBounds hn, hs.readSlice hn⟩,
    fun _ _ _ _ _ _ _ h => decode_map_entries h, fun _ _ _ _ _ _ h => decode_set_items h⟩

end Codec

end WireCodec
