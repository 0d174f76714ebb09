import WireCodec.Proofs.Codec.Appends
import WireCodec.Proofs.Lz4.ExactLength
import WireCodec.Proofs.Lz4.FastRoundTrip
import WireCodec.Proofs.Lz4.HighRoundTrip

/-!
# Frames read back as the plain encoding

A frame is a flag byte and a body: the plain encoding as it is, or one LZ4 block of it
when that is shorter. The payload of a frame writer is the plain encoding
(`encodeTo_framed`), and compressing it keeps it stored, replaces it by a shorter block that
decodes to it, or, past the largest input of a block, keeps it stored and fails
(`compressLz4_framed_spec`). Deserializing a frame with the length of the plain
encoding reads what deserializing the plain encoding reads, and with any other length it
fails (`framed_roundTrip`).

A stored body is checked against the announced length directly. A compressed one is
first checked against the most a block of its size can decode to (`maxExpansion`, which
`size_le_of_decompress` justifies), and is then decoded into a destination of exactly
the announced length, which succeeds only for the length of its output. The first check
only refuses bodies that the second would refuse too (`maxExpansion_check_sound`).
-/

namespace WireCodec.Codec

open Wire

section FrameBytes

variable (flag : UInt8) (body : ByteArray)

theorem data_toList_frame :
    (ByteArray.empty.push flag ++ body).data.toList = flag :: body.data.toList := by
  rw [ByteArray.data_append, Array.toList_append, ByteArray.data_toList_push]
  rfl

@[simp] theorem size_frame : (ByteArray.empty.push flag ++ body).size = body.size + 1 := by
  rw [← ByteArray.length_data_toList, data_toList_frame, List.length_cons,
    ByteArray.length_data_toList]

@[simp] theorem get!_frame : (ByteArray.empty.push flag ++ body).get! 0 = flag := by
  rw [ByteArray.get!_eq_getD, data_toList_frame]
  rfl

@[simp] theorem body_frame :
    (ByteArray.empty.push flag ++ body).extract 1 (body.size + 1) = body := by
  apply ByteArray.ext_toList
  rw [ByteArray.data_toList_extract, data_toList_frame, List.drop_succ_cons, List.drop_zero,
    Nat.add_sub_cancel, List.take_of_length_le (by simp)]

theorem getElem?_frame : (ByteArray.empty.push flag ++ body)[0]? = some flag := by
  have hpos : 0 < (ByteArray.empty.push flag ++ body).size := by
    rw [size_frame]
    omega
  rw [getElem?_pos (ByteArray.empty.push flag ++ body) 0 hpos, ByteArray.getElem_eq_getD,
    data_toList_frame]
  rfl

theorem framed_bytes (b : ByteArray) :
    (Writer.framed.writeBytes b).bytes = ByteArray.empty.push flagStored ++ b := rfl

end FrameBytes

/-- A length within what a block of `k` bytes can decode to passes the frame's check. -/
theorem le_maxExpansion {n k : Nat} (h : n ≤ 255 * k) (hw : n ≤ wordMax) : n ≤ maxExpansion k := by
  unfold maxExpansion satAdd
  omega

/-- Either encoder, into `compressBound` bytes at 64-bit positions, writes a block that
decodes to its input. -/
theorem frameBlock_decodes (mode : CompressionMode) {src : ByteArray}
    {r : Except Lz4.Error ByteArray} (hsize : src.size ≤ Lz4.maxInputSize)
    (h : (match mode with
      | .fast acceleration =>
        Lz4.compressFast .bits64 src (Lz4.compressBound src.size) acceleration
      | .high level => Lz4.compressHC .bits64 src (Lz4.compressBound src.size) level) = r) :
    ∃ block, r = .ok block ∧ Lz4.decompress block src.size = .ok src := by
  have hcap := Nat.le_of_eq (Lz4.compressBound_eq hsize).symm
  cases mode with
  | fast acceleration =>
    obtain ⟨block, hok, -, hdec⟩ := Lz4.compressFast_fits .bits64 src _ acceleration hsize hcap
    exact ⟨block, h.symm.trans hok, hdec⟩
  | high level =>
    obtain ⟨block, hok, -, hdec⟩ := Lz4.compressHC_fits .bits64 src _ level hsize hcap
    exact ⟨block, h.symm.trans hok, hdec⟩

/-- What compressing a frame writer whose payload is `b` does. It finishes the writer, and
then keeps `b` stored and returns its length; or, for a payload of at least the minimum size
that a block shrinks, replaces `b` by the block, which decodes to it, and returns its length;
or, for a payload too long for a block, keeps `b` stored and fails. -/
theorem compressLz4_framed_spec (b : ByteArray) (o : CompressionOptions) :
    (Writer.framed.writeBytes b).compressLz4 o =
        ({ Writer.framed.writeBytes b with finished := true }, .ok b.size) ∨
      (max o.minCompressSize 1 ≤ b.size ∧ b.size ≤ Lz4.maxInputSize ∧
        ∃ block, block.size < b.size ∧ Lz4.decompress block b.size = .ok b ∧
          (Writer.framed.writeBytes b).compressLz4 o =
            ({ Writer.framed.writeBytes b with
              bytes := ByteArray.empty.push flagLz4 ++ block, finished := true }, .ok b.size)) ∨
      (Lz4.maxInputSize < b.size ∧ (Writer.framed.writeBytes b).compressLz4 o =
        ({ Writer.framed.writeBytes b with finished := true },
          .error (.lengthOverflow "lz4 payload" b.size Lz4.maxInputSize))) := by
  -- a frame writer has not been compressed yet, and its payload is `b`
  have hopen : (!(Writer.framed.writeBytes b).compressible ||
      (Writer.framed.writeBytes b).finished) = false := rfl
  have hplain : ({ Writer.framed.writeBytes b with finished := true } : Writer).payloadLen =
      b.size := by
    show (ByteArray.empty.push flagStored ++ b).size - 1 = b.size
    rw [size_frame, Nat.add_sub_cancel]
  have hsrc : (Writer.framed.writeBytes b).bytes.extract 1 (Writer.framed.writeBytes b).bytes.size =
      b := by
    rw [framed_bytes, size_frame, body_frame]
  rw [Writer.compressLz4, hopen, if_neg Bool.false_ne_true]
  dsimp only
  rw [hplain, hsrc]
  split
  · -- shorter than the minimum: the payload stays stored
    exact .inl rfl
  · rename_i hmin
    split
    · -- too long for a block
      rename_i hbound
      have hbig : Lz4.maxInputSize < b.size := Nat.lt_of_not_le fun hle => by
        rw [Lz4.compressBound, if_neg (Nat.not_lt.mpr hle)] at hbound
        omega
      exact .inr (.inr ⟨hbig, rfl⟩)
    · rename_i hbound
      have hsize : b.size ≤ Lz4.maxInputSize :=
        Nat.le_of_not_lt fun hbig => hbound (by rw [Lz4.compressBound, if_pos hbig])
      split
      · rename_i heq
        obtain ⟨_, he, -⟩ := frameBlock_decodes o.mode hsize heq
        cases he
      · rename_i block heq
        obtain ⟨_, hb, hdec⟩ := frameBlock_decodes o.mode hsize heq
        cases hb
        split
        · -- the block is shorter: it replaces the payload
          rename_i hshort
          exact .inr (.inl ⟨Nat.le_of_not_lt hmin, hsize, _, hshort, hdec, rfl⟩)
        · exact .inl rfl

/-- Compressing a frame writer whose payload is `b`, when it succeeds, returns the length
of `b` and keeps `b` stored, or, for a payload of at least the minimum size, replaces it by
a shorter block that decodes to it. -/
theorem compressLz4_framed {b : ByteArray} {o : CompressionOptions} {w : Writer} {n : Nat}
    (h : (Writer.framed.writeBytes b).compressLz4 o = (w, .ok n)) :
    n = b.size ∧
      (w.bytes = ByteArray.empty.push flagStored ++ b ∨
        max o.minCompressSize 1 ≤ b.size ∧ b.size ≤ Lz4.maxInputSize ∧
          ∃ block, block.size < b.size ∧ Lz4.decompress block b.size = .ok b ∧
            w.bytes = ByteArray.empty.push flagLz4 ++ block) := by
  rcases compressLz4_framed_spec b o with hst | ⟨hmin, hsize, block, hshort, hdec, hlz⟩ | ⟨-, herr⟩
  · rw [hst] at h
    obtain ⟨rfl, hn⟩ := Prod.mk.inj h
    exact ⟨(Except.ok.inj hn).symm, .inl rfl⟩
  · rw [hlz] at h
    obtain ⟨rfl, hn⟩ := Prod.mk.inj h
    exact ⟨(Except.ok.inj hn).symm, .inr ⟨hmin, hsize, block, hshort, hdec, rfl⟩⟩
  · rw [herr] at h
    cases (Prod.mk.inj h).2

section Read

variable (cat : Catalog) (s : Schema) (o : Option DecodeOptions)

/-- How a frame is read: the flag decides whether the body is the encoding itself or a
block to decode into a destination of the announced length. -/
theorem deserializeFramed_frame (flag : UInt8) (body : ByteArray) (m : Nat) :
    deserializeFramed cat s (ByteArray.empty.push flag ++ body) m o =
      if flag = flagStored then
        if body.size ≠ m then .error (.lengthMismatch "stored frame" m body.size)
        else deserialize cat s (.slice body) o
      else if m > maxExpansion body.size then
        .error (.lengthMismatch "lz4 frame" m (maxExpansion body.size))
      else
        (Lz4.decompressExact body m).mapError .compression >>= fun plain =>
          deserialize cat s (.slice plain) o := by
  rw [deserializeFramed, if_neg (by simp)]
  dsimp only
  rw [size_frame, body_frame, get!_frame]
  split
  · rfl
  · split
    · rfl
    · cases Lz4.decompressExact body m <;> rfl

/-- A stored frame reads as its body when announced with the body's length, and fails with
any other length. -/
theorem deserializeFramed_stored (body : ByteArray) (m : Nat) :
    deserializeFramed cat s (ByteArray.empty.push flagStored ++ body) m o =
      if body.size = m then deserialize cat s (.slice body) o
      else .error (.lengthMismatch "stored frame" m body.size) := by
  rw [deserializeFramed_frame, if_pos rfl]
  by_cases hm : body.size = m
  · rw [if_neg (fun hne => hne hm), if_pos hm]
  · rw [if_pos hm, if_neg hm]

/-- A compressed frame whose block decodes to `plain` reads as `plain` when announced with
its length, and fails with any other length. -/
theorem deserializeFramed_lz4 {block plain : ByteArray} {capacity : Nat}
    (hdec : Lz4.decompress block capacity = .ok plain) (hplain : plain.size ≤ wordMax) :
    deserializeFramed cat s (ByteArray.empty.push flagLz4 ++ block) plain.size o =
        deserialize cat s (.slice plain) o ∧
      ∀ m, m ≠ plain.size →
        ∃ e, deserializeFramed cat s (ByteArray.empty.push flagLz4 ++ block) m o = .error e := by
  have hfits : ¬ plain.size > maxExpansion block.size :=
    Nat.not_lt.mpr (le_maxExpansion (Lz4.size_le_of_decompress hdec) hplain)
  refine ⟨?_, fun m hm => ?_⟩
  · rw [deserializeFramed_frame, if_neg (by decide), if_neg hfits, Lz4.decompressExact_size hdec]
    rfl
  · rw [deserializeFramed_frame, if_neg (by decide)]
    split
    · exact ⟨_, rfl⟩
    · obtain ⟨e, he⟩ := Lz4.decompressExact_ne hdec hm
      rw [he]
      exact ⟨_, rfl⟩

/-- A body announced with more bytes than it could decode to does not decode exactly to
that many: this is what lets the frame refuse it before decoding. -/
theorem decompressExact_fails_of_gt {body : ByteArray} {m : Nat} (hw : m ≤ wordMax)
    (hbig : m > maxExpansion body.size) : ∃ e, Lz4.decompressExact body m = .error e := by
  cases hq : Lz4.decompressExact body m with
  | error e => exact ⟨e, rfl⟩
  | ok y =>
    obtain ⟨hdec, rfl⟩ := Lz4.decompress_of_decompressExact hq
    exact absurd (le_maxExpansion (Lz4.size_le_of_decompress hdec) hw) (Nat.not_le.mpr hbig)

/-- A compressed frame whose body decodes exactly to the announced length reads as the
decoded bytes: the length check lets every such frame through. -/
theorem deserializeFramed_of_decompressExact {flag : UInt8} {body plain : ByteArray} {m : Nat}
    (hflag : flag ≠ flagStored) (hw : m ≤ wordMax) (h : Lz4.decompressExact body m = .ok plain) :
    deserializeFramed cat s (ByteArray.empty.push flag ++ body) m o =
      deserialize cat s (.slice plain) o := by
  obtain ⟨hdec, rfl⟩ := Lz4.decompress_of_decompressExact h
  have hfits : ¬ plain.size > maxExpansion body.size :=
    Nat.not_lt.mpr (le_maxExpansion (Lz4.size_le_of_decompress hdec) hw)
  rw [deserializeFramed_frame, if_neg hflag, if_neg hfits, h]
  rfl

end Read

/-- The frame's length check is sound. A block never decodes to more than 255 bytes for each
of its bytes; so a compressed frame refused because its announced length passes what its body
could decode to has a body that does not decode exactly to that length, and a compressed
frame whose body does decode to it reads as the decoded bytes, as it would with no check. -/
theorem maxExpansion_check_sound :
    (∀ (block : ByteArray) (capacity : Nat) (y : ByteArray),
      Lz4.decompress block capacity = .ok y → y.size ≤ 255 * block.size) ∧
    ∀ (cat : Catalog) (s : Schema) (o : Option DecodeOptions) (flag : UInt8) (body : ByteArray)
      (m : Nat), flag ≠ flagStored → m ≤ wordMax →
        (m > maxExpansion body.size → ∃ e, Lz4.decompressExact body m = .error e) ∧
        ∀ plain, Lz4.decompressExact body m = .ok plain →
          deserializeFramed cat s (ByteArray.empty.push flag ++ body) m o =
            deserialize cat s (.slice plain) o := by
  refine ⟨fun _ _ _ h => Lz4.size_le_of_decompress h, ?_⟩
  intro cat s o flag body m hflag hw
  exact ⟨decompressExact_fails_of_gt hw,
    fun _ h => deserializeFramed_of_decompressExact cat s o hflag hw h⟩

/-- A compressed frame of five literal bytes, announced with five bytes. -/
theorem maxExpansion_check_sound_literals :
    flagLz4 ≠ flagStored ∧ 5 ≤ wordMax ∧
      ((5 > maxExpansion (⟨#[0x50, 104, 101, 108, 108, 111]⟩ : ByteArray).size →
          ∃ e, Lz4.decompressExact ⟨#[0x50, 104, 101, 108, 108, 111]⟩ 5 = .error e) ∧
        ∀ plain, Lz4.decompressExact ⟨#[0x50, 104, 101, 108, 108, 111]⟩ 5 = .ok plain →
          deserializeFramed [] (.int .u8) (ByteArray.empty.push flagLz4 ++ ⟨#[0x50, 104, 101, 108, 108, 111]⟩) 5 none =
            deserialize [] (.int .u8) (.slice plain) none) :=
  ⟨by decide, by decide, maxExpansion_check_sound.2 [] (.int .u8) none flagLz4
    ⟨#[0x50, 104, 101, 108, 108, 111]⟩ 5 (by decide) (by decide)⟩

/-- Serializing into a frame returns the frame and the length of the plain encoding. The
frame starts with the flag of a stored body or of an LZ4 block, is at most one byte longer
than the encoding, and is compressed only from the minimum size on. Read back with that
length it gives what the plain encoding gives, and with any other length it fails. -/
theorem framed_roundTrip {cat : Catalog} {s : Schema} {input : Input} {o : CompressionOptions}
    {frame : ByteArray} {n : Nat} (h : serializeFramed cat s input o = .ok (frame, n)) :
    ∃ w : Writer, encodeTo cat s input false = .ok w ∧ n = w.bytes.size ∧
      (frame[0]? = some flagStored ∨ frame[0]? = some flagLz4) ∧ frame.size ≤ n + 1 ∧
      (frame[0]? = some flagLz4 → max o.minCompressSize 1 ≤ n) ∧
      ∀ opts, deserializeFramed cat s frame n opts = deserialize cat s (.slice w.bytes) opts ∧
        ∀ m, m ≠ n → ∃ e, deserializeFramed cat s frame m opts = .error e := by
  rw [serializeFramed, encodeTo_framed] at h
  cases hw : encodeTo cat s input false with
  | error e =>
    rw [hw] at h
    cases h
  | ok w =>
    rw [hw] at h
    rcases hc : (Writer.framed.writeBytes w.bytes).compressLz4 o with ⟨w', _ | n'⟩
    · simp only [Except.map, bind, Except.bind, hc] at h
      cases h
    simp only [Except.map, bind, Except.bind, hc, pure, Except.pure, Except.ok.injEq,
      Prod.mk.injEq] at h
    obtain ⟨rfl, rfl⟩ := h
    obtain ⟨rfl, hstored | ⟨hmin, hsize, block, hshort, hdec, hlz4⟩⟩ := compressLz4_framed hc
    · -- the payload stayed stored
      refine ⟨w, rfl, rfl, .inl ?_, ?_, fun hflag => ?_, fun opts =>
        ⟨?_, fun m hm => ⟨.lengthMismatch "stored frame" m w.bytes.size, ?_⟩⟩⟩
      · rw [hstored, getElem?_frame]
      · exact Nat.le_of_eq (by rw [hstored, size_frame])
      · rw [hstored, getElem?_frame] at hflag
        cases hflag
      · rw [hstored, deserializeFramed_stored, if_pos rfl]
      · rw [hstored, deserializeFramed_stored, if_neg (Ne.symm hm)]
    · -- the payload was replaced by a block that decodes to it
      have hplain : w.bytes.size ≤ wordMax := Nat.le_trans hsize (by decide)
      refine ⟨w, rfl, rfl, .inr ?_, ?_, fun _ => hmin, fun opts => ?_⟩
      · rw [hlz4, getElem?_frame]
      · rw [hlz4, size_frame]
        omega
      · rw [hlz4]
        exact deserializeFramed_lz4 cat s opts hdec hplain

/-- Two raw bytes, fewer than the standard minimum, travel stored. -/
theorem framed_roundTrip_stored :
    serializeFramed [] (.buffer .growable) (.buffer (.slice ⟨#[7, 8]⟩)) .standard =
        .ok (⟨#[0, 7, 8]⟩, 2) ∧
      ∃ w : Writer, encodeTo [] (.buffer .growable) (.buffer (.slice ⟨#[7, 8]⟩)) false = .ok w ∧
        2 = w.bytes.size ∧
        ((⟨#[0, 7, 8]⟩ : ByteArray)[0]? = some flagStored ∨
          (⟨#[0, 7, 8]⟩ : ByteArray)[0]? = some flagLz4) ∧
        (⟨#[0, 7, 8]⟩ : ByteArray).size ≤ 2 + 1 ∧
        ((⟨#[0, 7, 8]⟩ : ByteArray)[0]? = some flagLz4 →
          max CompressionOptions.standard.minCompressSize 1 ≤ 2) ∧
        ∀ opts, deserializeFramed [] (.buffer .growable) ⟨#[0, 7, 8]⟩ 2 opts =
            deserialize [] (.buffer .growable) (.slice w.bytes) opts ∧
          ∀ m, m ≠ 2 → ∃ e, deserializeFramed [] (.buffer .growable) ⟨#[0, 7, 8]⟩ m opts = .error e :=
  ⟨rfl, framed_roundTrip rfl⟩

end WireCodec.Codec
