import WireCodec.Proofs.Lz4.EndConditions

/-!
# What a block decodes to, and into which destinations

A block has one reading (`Block.bytes_inj`), so it decodes to the same bytes into every
destination it fits (`decompress_unique`): the capacity only decides whether the output
fits. A block therefore decodes exactly into a destination of the size of its output and
into no other (`decompressExact_size`, `decompressExact_ne`).

A block never describes more than 255 bytes for each of its bytes
(`size_le_of_decompress`): a byte of a length extension adds at most 255 to a length,
while a token, an offset byte or a literal stands for fewer bytes than that.
-/

namespace WireCodec.Lz4

/-- A sequence describes at most 255 bytes for each of its bytes. -/
theorem Sequence.output_le (s : Sequence) :
    s.literals.length + s.matchLen ≤ 255 * s.bytes.length := by
  rw [Sequence.length_bytes]
  unfold sequencePrice literalsPrice extensionLength minMatch
  split <;> split <;> omega

theorem Sequence.outputLength_le (ss : List Sequence) :
    Sequence.outputLength ss ≤ 255 * (ss.flatMap Sequence.bytes).length := by
  induction ss with
  | nil => simp [Sequence.outputLength]
  | cons s ss ih =>
    have := s.output_le
    simp only [Sequence.outputLength, List.flatMap_cons, List.length_append]
    omega

/-- A block describes at most 255 bytes for each of its bytes. -/
theorem Block.output_le (b : Block) :
    Sequence.outputLength b.sequences + b.lastLiterals.length ≤ 255 * b.bytes.length := by
  have := Sequence.outputLength_le b.sequences
  simp only [Block.bytes, closingBytes, List.length_append, List.length_cons,
    length_extensionBytes]
  omega

/-- A block of `k` bytes decodes to at most `255 * k` bytes. -/
theorem size_le_of_decompress {src y : ByteArray} {capacity : Nat}
    (h : decompress src capacity = .ok y) : y.size ≤ 255 * src.size := by
  rw [decompress_eq] at h
  obtain ⟨b, hb, hdec, -⟩ := block_of_decodeSequences h
  obtain ⟨o, hall, ho⟩ := Option.map_eq_some_iff.mp hdec
  have hlen := Sequence.length_of_decodeAll? hall
  have hout : y.size = o.length + b.lastLiterals.length := by
    rw [← ByteArray.length_data_toList, ← ho, List.length_append]
  have hsrc : src.size = b.bytes.length := by
    rw [← ByteArray.length_data_toList, ← hb, List.drop_zero]
  have := b.output_le
  simp only [ByteArray.length_data_toList, ByteArray.size_empty, Nat.zero_add] at hlen
  omega

section Unique

variable {src y : ByteArray} {capacity : Nat}

/-- A block decodes to the same bytes into every destination it fits. -/
theorem decompress_unique {y' : ByteArray} {capacity' : Nat} (h : decompress src capacity = .ok y)
    (h' : decompress src capacity' = .ok y') : y' = y := by
  rw [decompress_eq] at h h'
  obtain ⟨b, hb, hdec, -⟩ := block_of_decodeSequences h
  obtain ⟨b', hb', hdec', -⟩ := block_of_decodeSequences h'
  obtain rfl : b' = b := Block.bytes_inj (hb'.symm.trans hb)
  rw [hdec] at hdec'
  exact ByteArray.ext_toList (Option.some.inj hdec').symm

/-- A block decodes exactly into a destination of the size of its output. -/
theorem decompressExact_size (h : decompress src capacity = .ok y) :
    decompressExact src y.size = .ok y := by
  rw [decompress_eq] at h
  obtain ⟨b, hb, hdec, -⟩ := block_of_decodeSequences h
  have hfit : decompress src y.size = .ok y := by
    rw [decompress_eq, decodeSequences_of_block hb hdec (Nat.le_of_eq (ByteArray.length_data_toList y)),
      ByteArray.toByteArray_data_toList]
  unfold decompressExact
  rw [hfit]
  exact if_pos rfl

/-- A block that fills a destination exactly decodes, into it, to as many bytes as it holds. -/
theorem decompress_of_decompressExact {m : Nat} (h : decompressExact src m = .ok y) :
    decompress src m = .ok y ∧ y.size = m := by
  unfold decompressExact at h
  cases hq : decompress src m with
  | error e =>
    rw [hq] at h
    cases h
  | ok y' =>
    rw [hq] at h
    dsimp only [bind, Except.bind] at h
    split at h
    · rename_i hsize
      cases h
      exact ⟨rfl, hsize⟩
    · cases h

/-- A block decodes exactly into no destination of another size: there it overflows, or
falls short of filling it. -/
theorem decompressExact_ne {m : Nat} (h : decompress src capacity = .ok y) (hm : m ≠ y.size) :
    ∃ e, decompressExact src m = .error e := by
  unfold decompressExact
  cases hq : decompress src m with
  | error e => exact ⟨e, rfl⟩
  | ok y' =>
    rw [decompress_unique h hq]
    exact ⟨.lengthMismatch m y.size, if_neg (Ne.symm hm)⟩

end Unique

end WireCodec.Lz4
