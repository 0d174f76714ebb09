import WireCodec.Proofs.Lz4.Decoder

/-!
# Decoding in place

`decodeInPlace` writes a block's output into a buffer of fixed length, copying literals
and short matches in one piece and long matches in chunks; `decodeSequences` appends the
same output to a growing buffer one byte of a match at a time. The two agree
(`decodeInPlace_eq`): every chunk reads only bytes already written, so it copies what the
byte-by-byte copy would (`copyMatchAt_spec`), and a run writes nothing before the position
it starts at (`decodeInPlace_frame`). The entry points are therefore the appending decoder
read back out of the buffer (`decompress_eq`, `decompressWithDict_eq`).
-/

namespace WireCodec.Lz4

/-- A copy within the buffer from bytes among its first `p`, written at `p`, extends those
bytes by the ones it copies. -/
theorem take_copyWithin {buf : ByteArray} {w : List UInt8} {s p len : Nat}
    (hw : buf.data.toList.take p = w) (hs : s + len ≤ p) (hd : p + len ≤ buf.size) :
    (copyWithin buf s p len).data.toList.take (p + len) = w ++ (w.drop s).take len := by
  rw [copyWithin, ByteArray.take_copySlice_add (by omega) hd, hw, ← hw, List.drop_take,
    List.take_take, Nat.min_eq_left (by omega)]

section Matches

variable {buf : ByteArray} {a : List UInt8} {op offset len : Nat}

/-- One chunk of a match: with `copied` of its bytes in place, a copy of at most `offset`
more from `offset` bytes back extends the match. -/
theorem take_copyWithin_chunk {copied chunk : Nat} (hpos : 0 < offset) (hoff : offset ≤ op)
    (ha : a.length = op) (hbuf : buf.data.toList.take (op + copied) = copyBack a offset copied)
    (hchunk : chunk ≤ offset) (hd : op + copied + chunk ≤ buf.size) :
    (copyWithin buf (op - offset + copied) (op + copied) chunk).data.toList.take
      (op + copied + chunk) = copyBack a offset (copied + chunk) := by
  have hW : (copyBack a offset copied).length = op + copied := by rw [length_copyBack, ha]
  rw [take_copyWithin hbuf (by omega) hd, copyBack_add, copyBack_of_le hpos hchunk (by omega), hW,
    show op + copied - offset = op - offset + copied by omega]

theorem copyChunks_spec {back copied : Nat} {hpos : 0 < offset} (hback : back + offset = op)
    (ha : a.length = op) (hlen : op + len ≤ buf.size) (hc : copied ≤ len)
    (hbuf : buf.data.toList.take (op + copied) = copyBack a offset copied) :
    (copyChunks buf back op offset len copied hpos).size = buf.size ∧
      (copyChunks buf back op offset len copied hpos).data.toList.take (op + len) =
        copyBack a offset len := by
  fun_induction copyChunks buf back op offset len copied hpos with
  | case1 buf copied hlt chunk ih =>
    have hchunk : chunk ≤ offset := Nat.min_le_left _ _
    have hstep := take_copyWithin_chunk hpos (by omega) ha hbuf hchunk (by omega)
    rw [show back = op - offset by omega] at ih ⊢
    have hsize : (copyWithin buf (op - offset + copied) (op + copied) chunk).size = buf.size :=
      ByteArray.size_copySlice_of_le (by omega) (by omega)
    obtain ⟨h₁, h₂⟩ := ih (by omega) (by omega) (by rwa [← Nat.add_assoc])
    exact ⟨h₁.trans hsize, h₂⟩
  | case2 buf copied hge =>
    refine ⟨rfl, ?_⟩
    rwa [show copied = len by omega] at hbuf

/-- A match written in place: the buffer keeps its length, and up to the end of the match it
holds what lay before the match followed by the byte-by-byte copy. -/
theorem copyMatchAt_spec (hpos : 0 < offset) (hoff : offset ≤ op) (hlen : op + len ≤ buf.size) :
    (copyMatchAt buf op offset len hpos).size = buf.size ∧
      (copyMatchAt buf op offset len hpos).data.toList.take (op + len) =
        copyBack (buf.data.toList.take op) offset len := by
  have ha : (buf.data.toList.take op).length = op := by simp; omega
  unfold copyMatchAt
  split
  · -- the match does not reach its own bytes: one copy
    rename_i hshort
    refine ⟨ByteArray.size_copySlice_of_le (by omega) hlen, ?_⟩
    rw [take_copyWithin rfl (by omega) hlen, copyBack_of_le hpos hshort (by omega), ha]
  · exact copyChunks_spec (by omega) ha hlen (Nat.zero_le _) (by rw [Nat.add_zero]; rfl)

/-- A match written in place keeps the bytes before it. -/
theorem take_copyMatchAt {k : Nat} (hpos : 0 < offset) (hoff : offset ≤ op)
    (hlen : op + len ≤ buf.size) (hk : k ≤ op) :
    (copyMatchAt buf op offset len hpos).data.toList.take k = buf.data.toList.take k := by
  obtain ⟨t, ht⟩ := prefix_copyBack (buf.data.toList.take op) offset len
  have hw : (buf.data.toList.take op).length = op := by simp; omega
  calc (copyMatchAt buf op offset len hpos).data.toList.take k
      = ((copyMatchAt buf op offset len hpos).data.toList.take (op + len)).take k := by
        rw [List.take_take, Nat.min_eq_left (by omega)]
    _ = (buf.data.toList.take op).take k := by
        rw [(copyMatchAt_spec hpos hoff hlen).2, ← ht,
          List.take_append_of_le_length (by omega)]
    _ = buf.data.toList.take k := by rw [List.take_take, Nat.min_eq_left hk]

end Matches

section Run

variable {src : ByteArray} {start : Nat}

/-- A run keeps the length of its buffer and every byte before the position it starts
writing at. -/
theorem decodeInPlace_frame (ip op : Nat) (out : ByteArray) {k : Nat} : k ≤ op →
    (decodeInPlace src start ip op out).1.size = out.size ∧
      (decodeInPlace src start ip op out).1.data.toList.take k = out.data.toList.take k := by
  fun_induction decodeInPlace src start ip op out with
  | case1 | case2 | case3 | case10 => intro _; exact ⟨rfl, rfl⟩
  | case4 ip op out _ _ ip₁ lit _ hs hd | case5 ip op out _ _ ip₁ lit _ hs hd
  | case6 ip op out _ _ ip₁ lit _ hs hd | case7 ip op out _ _ ip₁ lit _ hs hd
  | case8 ip op out _ _ ip₁ lit _ hs hd =>
    -- the literals are written, and the run stops there
    intro hk
    exact ⟨ByteArray.size_copySlice_of_le (by omega) (by omega), ByteArray.take_copySlice_of_le hk (by omega)⟩
  | case9 ip op out _ _ ip₁ lit _ hs hd out' _ op' _ _ offset hoff _ len _ hlen ih =>
    intro hk
    have hsize : out'.size = out.size := ByteArray.size_copySlice_of_le (by omega) (by omega)
    obtain ⟨h₁, h₂⟩ := ih (by omega)
    refine ⟨?_, ?_⟩
    · rw [h₁, (copyMatchAt_spec _ (by omega) (by omega)).1, hsize]
    · rw [h₂, take_copyMatchAt _ (by omega) (by omega) (by omega),
        ByteArray.take_copySlice_of_le hk (by omega)]

/-- The literals of a step, copied in place, extend the bytes before `op` as appending them
does. -/
theorem literals_in_place {acc out : ByteArray} {op ip₁ lit : Nat} (hop : acc.size = op)
    (hacc : out.data.toList.take op = acc.data.toList) (hs : ip₁ + lit ≤ src.size)
    (hd : op + lit ≤ out.size) :
    (acc ++ src.extract ip₁ (ip₁ + lit)).size = op + lit ∧
      (src.copySlice ip₁ out op lit).data.toList.take (op + lit) =
        (acc ++ src.extract ip₁ (ip₁ + lit)).data.toList ∧
      (src.copySlice ip₁ out op lit).size = out.size := by
  refine ⟨?_, ?_, ByteArray.size_copySlice_of_le hs hd⟩
  · rw [ByteArray.size_append, ByteArray.size_extract]
    omega
  · rw [ByteArray.take_copySlice_add hs hd, hacc, data_toList_append_extract]

/-- Decoding in place agrees with decoding by appending, from a buffer whose bytes before
`op` are the appended output: the same faults, the number of bytes produced in place of the
output, and the output in the buffer. -/
theorem decodeInPlace_eq (ip op : Nat) (out : ByteArray) : ∀ acc : ByteArray, acc.size = op →
    out.data.toList.take op = acc.data.toList → op ≤ out.size →
    (decodeInPlace src start ip op out).2 =
        (decodeSequences src start out.size ip acc).map (·.size - start) ∧
      ∀ y, decodeSequences src start out.size ip acc = .ok y →
        (decodeInPlace src start ip op out).1.data.toList.take y.size = y.data.toList := by
  fun_induction decodeInPlace src start ip op out with
  | case1 ip op out h _ e hl =>
    intro acc hop hacc hle
    rw [decodeSequences, dif_pos h]
    dsimp only
    split <;> rename_i hl' <;> rw [hl] at hl' <;> cases hl'
    exact ⟨rfl, fun y hy => by cases hy⟩
  | case2 ip op out h _ ip₁ lit hl hs =>
    intro acc hop hacc hle
    rw [decodeSequences, dif_pos h]
    dsimp only
    split <;> rename_i hl' <;> rw [hl] at hl' <;> cases hl'
    rw [if_pos hs]
    exact ⟨rfl, fun y hy => by cases hy⟩
  | case3 ip op out h _ ip₁ lit hl hs hd =>
    intro acc hop hacc hle
    rw [decodeSequences, dif_pos h]
    dsimp only
    split <;> rename_i hl' <;> rw [hl] at hl' <;> cases hl'
    rw [if_neg hs, if_pos (by omega), hop]
    exact ⟨rfl, fun y hy => by cases hy⟩
  | case4 ip op out h _ ip₁ lit hl hs hd out' ip₂ op' hend =>
    intro acc hop hacc hle
    obtain ⟨hsize, htake, -⟩ := literals_in_place hop hacc (Nat.le_of_not_lt hs) (Nat.le_of_not_lt hd)
    rw [decodeSequences, dif_pos h]
    dsimp only
    split <;> rename_i hl' <;> rw [hl] at hl' <;> cases hl'
    rw [if_neg hs, if_neg (by omega), if_pos hend]
    refine ⟨?_, fun y hy => ?_⟩
    · show Except.ok (op + lit - start) = .ok ((acc ++ src.extract ip₁ (ip₁ + lit)).size - start)
      rw [hsize]
    cases hy
    rw [hsize]
    exact htake
  | case5 ip op out h _ ip₁ lit hl hs hd out' ip₂ hend hshort =>
    intro acc hop hacc hle
    rw [decodeSequences, dif_pos h]
    dsimp only
    split <;> rename_i hl' <;> rw [hl] at hl' <;> cases hl'
    rw [if_neg hs, if_neg (by omega), if_neg hend, if_pos hshort]
    exact ⟨rfl, fun y hy => by cases hy⟩
  | case6 ip op out h _ ip₁ lit hl hs hd out' ip₂ op' hend hshort offset hoff =>
    intro acc hop hacc hle
    obtain ⟨hsize, -, -⟩ := literals_in_place hop hacc (Nat.le_of_not_lt hs) (Nat.le_of_not_lt hd)
    rw [decodeSequences, dif_pos h]
    dsimp only
    split <;> rename_i hl' <;> rw [hl] at hl' <;> cases hl'
    rw [if_neg hs, if_neg (by omega), if_neg hend, if_neg hshort, if_pos (by rw [hsize]; exact hoff),
      hsize]
    exact ⟨rfl, fun y hy => by cases hy⟩
  | case7 ip op out h _ ip₁ lit hl hs hd out' ip₂ op' hend hshort offset hoff e hm =>
    intro acc hop hacc hle
    obtain ⟨hsize, -, -⟩ := literals_in_place hop hacc (Nat.le_of_not_lt hs) (Nat.le_of_not_lt hd)
    rw [decodeSequences, dif_pos h]
    dsimp only
    split <;> rename_i hl' <;> rw [hl] at hl' <;> cases hl'
    rw [if_neg hs, if_neg (by omega), if_neg hend, if_neg hshort, if_neg (by rw [hsize]; exact hoff)]
    split <;> rename_i hm' <;> rw [hm] at hm' <;> cases hm'
    exact ⟨rfl, fun y hy => by cases hy⟩
  | case8 ip op out h _ ip₁ lit hl hs hd out' ip₂ op' hend hshort offset hoff ip₃ len hm hlen =>
    intro acc hop hacc hle
    obtain ⟨hsize, -, hsz⟩ := literals_in_place hop hacc (Nat.le_of_not_lt hs) (Nat.le_of_not_lt hd)
    have hout' : out'.size = out.size := hsz
    rw [decodeSequences, dif_pos h]
    dsimp only
    split <;> rename_i hl' <;> rw [hl] at hl' <;> cases hl'
    rw [if_neg hs, if_neg (by omega), if_neg hend, if_neg hshort, if_neg (by rw [hsize]; exact hoff)]
    split <;> rename_i hm' <;> rw [hm] at hm' <;> cases hm'
    rw [if_pos (by rw [hsize]; omega), hsize]
    exact ⟨rfl, fun y hy => by cases hy⟩
  | case9 ip op out h _ ip₁ lit hl hs hd out' ip₂ op' hend hshort offset hoff ip₃ len hm hlen ih =>
    intro acc hop hacc hle
    obtain ⟨hsize, htake, hsz⟩ := literals_in_place hop hacc (Nat.le_of_not_lt hs) (Nat.le_of_not_lt hd)
    have hout' : out'.size = out.size := hsz
    have hfit : op' + len ≤ out'.size := Nat.le_of_not_lt hlen
    have hreach : 0 < offset ∧ offset ≤ op' := by omega
    obtain ⟨hsize'', htake''⟩ := copyMatchAt_spec hreach.1 hreach.2 hfit
    rw [decodeSequences, dif_pos h]
    dsimp only
    split <;> rename_i hl' <;> rw [hl] at hl' <;> cases hl'
    rw [if_neg hs, if_neg (by omega), if_neg hend, if_neg hshort, if_neg (by rw [hsize]; exact hoff)]
    split <;> rename_i hm' <;> rw [hm] at hm' <;> cases hm'
    rw [if_neg (by rw [hsize]; omega), ← hout', ← hsize'']
    refine ih _ ?_ ?_ (by omega)
    · rw [← ByteArray.length_data_toList, data_toList_copyMatch, length_copyBack,
        ByteArray.length_data_toList, hsize]
    · rw [htake'', data_toList_copyMatch, htake]
  | case10 ip op out h =>
    intro acc hop hacc hle
    rw [decodeSequences, dif_neg h]
    exact ⟨rfl, fun y hy => by cases hy⟩

end Run

section EntryPoints

/-- A block decoded into a buffer keeps the buffer's length and its bytes before `start`. -/
theorem decompressBlock_frame (src out : ByteArray) (start : Nat) :
    (decompressBlock src out start).1.size = out.size ∧
      (decompressBlock src out start).1.data.toList.take start = out.data.toList.take start := by
  rw [decompressBlock]
  split
  · exact ⟨rfl, rfl⟩
  · exact decodeInPlace_frame 0 start out (Nat.le_refl _)

/-- A block decoded into a buffer from `start` on is the appending decoder run after the
buffer's first `start` bytes. -/
theorem decompressBlock_eq {src out : ByteArray} {start : Nat} (hstart : start ≤ out.size) :
    (decompressBlock src out start).2 =
        (decodeSequences src start out.size 0 (out.extract 0 start)).map (·.size - start) ∧
      ∀ y, decodeSequences src start out.size 0 (out.extract 0 start) = .ok y →
        (decompressBlock src out start).1.data.toList.take y.size = y.data.toList := by
  have hacc : (out.extract 0 start).size = start := by
    rw [ByteArray.size_extract]
    omega
  rw [decompressBlock, if_neg (by omega)]
  exact decodeInPlace_eq 0 start out (out.extract 0 start) hacc (by simp) hstart

theorem size_zeros (capacity : Nat) : (zeros capacity).size = capacity := by
  simp [zeros, ByteArray.size]

/-- A block decoded into a fresh destination gives what the appending decoder appends to
nothing. -/
theorem decompress_eq (src : ByteArray) (capacity : Nat) :
    decompress src capacity = decodeSequences src 0 capacity 0 ByteArray.empty := by
  obtain ⟨hres, hout⟩ := decodeInPlace_eq 0 0 (zeros capacity) ByteArray.empty rfl
    (by simp) (Nat.zero_le _)
  rw [size_zeros] at hres hout
  unfold decompress decompressBlock
  rw [if_neg (Nat.not_lt_zero _)]
  dsimp only
  cases hd : decodeSequences src 0 capacity 0 ByteArray.empty with
  | error e =>
    rw [hd] at hres
    rw [hres]
    rfl
  | ok y =>
    rw [hd] at hres
    simp only [Except.map] at hres
    rw [hres]
    refine congrArg Except.ok (ByteArray.ext_toList ?_)
    rw [ByteArray.data_toList_extract, List.drop_zero, Nat.sub_zero, Nat.sub_zero]
    exact hout y hd

/-- A block decoded after a dictionary gives what the appending decoder appends to the
dictionary's last `dictionarySize` bytes, with those bytes cut off again. -/
theorem decompressWithDict_eq (src dict : ByteArray) (capacity : Nat) :
    decompressWithDict src dict capacity =
      let history := dict.extract (dict.size - dictionarySize) dict.size
      if history.size = 0 then decodeSequences src 0 capacity 0 ByteArray.empty
      else (decodeSequences src history.size (history.size + capacity) 0 history).map
        fun out => out.extract history.size out.size := by
  unfold decompressWithDict
  dsimp only
  generalize dict.extract (dict.size - dictionarySize) dict.size = history
  split
  · exact decompress_eq src capacity
  · have hbuf : (history ++ zeros capacity).data.toList.take history.size = history.data.toList := by
      simp
    have hsize : (history ++ zeros capacity).size = history.size + capacity := by
      rw [ByteArray.size_append, size_zeros]
    obtain ⟨hres, hout⟩ := decodeInPlace_eq 0 history.size (history ++ zeros capacity) history rfl
      hbuf (by omega)
    rw [hsize] at hres hout
    unfold decompressBlock
    rw [if_neg (by omega)]
    cases hd : decodeSequences src history.size (history.size + capacity) 0 history with
    | error e =>
      rw [hd] at hres
      rw [hres]
      rfl
    | ok y =>
      rw [hd] at hres
      simp only [Except.map] at hres
      rw [hres]
      have hle := size_le_of_decodeSequences hd
      refine congrArg Except.ok (ByteArray.ext_toList ?_)
      rw [ByteArray.data_toList_extract, ByteArray.data_toList_extract, ← hout y hd, List.drop_take,
        List.take_take, Nat.min_self, Nat.add_sub_cancel_left]

end EntryPoints

end WireCodec.Lz4
