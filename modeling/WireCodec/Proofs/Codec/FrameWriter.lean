import Mathlib
import WireCodec.Proofs.Codec.Frame
import WireCodec.Proofs.Wire.Writes

/-!
# What a frame writer holds

A frame writer starts with the flag byte of a stored frame and holds a valid frame of its
payload for as long as the calls made on it leave that flag byte alone and write nothing
after the payload is compressed (`framedWriter_holds_frame`). While it is written, it holds
the stored frame of the bytes written after the flag; the first compression turns it into a
frame of exactly that payload, stored or compressed (`IsFrameOf`), and returns the payload's
length, or, for a payload too long for a block, fails and keeps it stored; every later
compression fails and leaves the writer as it is.

The conditions are the writer's own limits, not the proof's: a patch may reach the flag byte,
and a write after the compression appends to the frame, and either way the writer no longer
holds a frame of its payload.

The proof follows the writer's state: every call changes only the bytes
(`WriteOp.apply_only_bytes`), a call that does not patch the first byte keeps it
(`WriteOp.encode_keeps_head`), and a compression is described once by
`compressLz4_framed_spec`.
-/

namespace WireCodec

open Wire

namespace Wire.WriteOp

/-- A call that does not patch the first byte keeps it. -/
theorem encode_keeps_head {op : WriteOp} (hop : ∀ pos value, op = .patchU32 pos value → 0 < pos)
    {x : UInt8} {bs bs' : List UInt8} {a : Option Nat} (h : op.encode (x :: bs) = some (bs', a)) :
    ∃ rest, bs' = x :: rest := by
  cases op with
  | patchU32 pos value =>
    simp only [encode] at h
    split at h
    · -- the patch starts after the first byte, which it leaves in front
      obtain ⟨p, rfl⟩ : ∃ p, pos = p + 1 := ⟨pos - 1, by have := hop pos value rfl; omega⟩
      simp only [Option.some.injEq, Prod.mk.injEq] at h
      rw [← h.1, List.take_succ_cons]
      exact ⟨_, rfl⟩
    · cases h
  | _ =>
    simp only [encode, Option.some.injEq, Prod.mk.injEq] at h
    rw [← h.1]
    exact ⟨_, rfl⟩

/-- Calls none of which patches the first byte keep it. -/
theorem reference_keeps_head : ∀ {ops : List WriteOp},
    (∀ pos value, WriteOp.patchU32 pos value ∈ ops → 0 < pos) →
    ∀ {x : UInt8} {bs bs' : List UInt8} {as : List (Option Nat)},
      reference ops (x :: bs) = some (bs', as) → ∃ rest, bs' = x :: rest
  | [], _, x, bs, bs', as, h => by
    simp only [reference, Option.some.injEq, Prod.mk.injEq] at h
    exact ⟨bs, h.1.symm⟩
  | op :: ops, hflag, x, bs, bs', as, h => by
    rw [reference] at h
    obtain ⟨p, hp, hrest⟩ := Option.bind_eq_some_iff.mp h
    obtain ⟨q, hq, hpq⟩ := Option.map_eq_some_iff.mp hrest
    obtain ⟨rest, hhead⟩ := encode_keeps_head
      (fun pos value hop => hflag pos value (hop ▸ List.mem_cons_self)) hp
    rw [hhead] at hq
    simp only [Prod.mk.injEq] at hpq
    rw [← hpq.1]
    exact reference_keeps_head (fun pos value hmem => hflag pos value (List.mem_cons_of_mem op hmem)) hq

end Wire.WriteOp

namespace Codec

/-- `bytes` is a frame of the payload `P`: the flag of a stored frame followed by `P`, or the
flag of a compressed frame followed by a block that decodes to exactly `P`. -/
def IsFrameOf (bytes P : ByteArray) : Prop :=
  bytes = ByteArray.empty.push flagStored ++ P ∨
    ∃ block, bytes = ByteArray.empty.push flagLz4 ++ block ∧ Lz4.decompressExact block P.size = .ok P

/-- A writer that was compressed, or that refused to be, refuses every later compression and
stays as it is. -/
theorem compressLz4_again (w : Writer) (o o' : CompressionOptions) :
    (w.compressLz4 o).1.compressLz4 o' = ((w.compressLz4 o).1, .error .notCompressible) := by
  -- after one call the writer is no frame writer, or is finished
  have hclosed : (!(w.compressLz4 o).1.compressible || (w.compressLz4 o).1.finished) = true := by
    unfold Writer.compressLz4
    split
    · assumption
    · dsimp only
      split
      · simp
      · split
        · simp
        · split
          · simp
          · split <;> simp
  rw [Writer.compressLz4, if_pos hclosed]

/-- What a frame writer holds after one compression: a frame of its payload, and the answer
of the compression is the payload's length, or a failure for a payload too long for a block. -/
theorem compressLz4_holds_frame (P : ByteArray) (o : CompressionOptions) :
    IsFrameOf ((Writer.framed.writeBytes P).compressLz4 o).1.bytes P ∧
      (((Writer.framed.writeBytes P).compressLz4 o).2 = .ok P.size ∨
        Lz4.maxInputSize < P.size ∧ ((Writer.framed.writeBytes P).compressLz4 o).2 =
          .error (.lengthOverflow "lz4 payload" P.size Lz4.maxInputSize)) := by
  rcases compressLz4_framed_spec P o with hst | ⟨-, -, block, -, hdec, hlz⟩ | ⟨hbig, herr⟩
  · rw [hst]
    exact ⟨.inl rfl, .inl rfl⟩
  · rw [hlz]
    exact ⟨.inr ⟨block, rfl, Lz4.decompressExact_size hdec⟩, .inl rfl⟩
  · rw [herr]
    exact ⟨.inl rfl, .inr ⟨hbig, rfl⟩⟩

/-- A frame writer holds a frame of its payload. Take calls that write, reserve and patch
four-byte slots, none patching the flag byte, and that all succeed; the payload `P` is what
the format says they write after the flag byte. The writer then holds the stored frame of
`P`. Compressing it once leaves a frame of `P`, stored or compressed, and answers the length
of `P`, or, for a payload too long for a block, fails and leaves it stored; every compression
after that fails as not compressible and leaves the writer as it is. -/
theorem framedWriter_holds_frame (pre : List WriteOp)
    (hflag : ∀ pos value, WriteOp.patchU32 pos value ∈ pre → 0 < pos)
    {w : Writer} {as : List (Option Nat)} (hrun : WriteOp.runAll pre Writer.framed = some (w, as)) :
    ∃ P : ByteArray, WriteOp.reference pre [flagStored] = some (flagStored :: P.data.toList, as) ∧
      IsFrameOf w.bytes P ∧
      ∀ o, IsFrameOf (w.compressLz4 o).1.bytes P ∧
        ((w.compressLz4 o).2 = .ok P.size ∨ Lz4.maxInputSize < P.size ∧
          (w.compressLz4 o).2 = .error (.lengthOverflow "lz4 payload" P.size Lz4.maxInputSize)) ∧
        ∀ o', (w.compressLz4 o).1.compressLz4 o' = ((w.compressLz4 o).1, .error .notCompressible) := by
  -- the calls write what the format says, and keep the flag byte in front
  have href : WriteOp.reference pre [flagStored] = some (w.bytes.data.toList, as) := by
    have hview := WriteOp.runAll_view pre Writer.framed
    rw [hrun] at hview
    exact hview.symm
  obtain ⟨rest, hrest⟩ := WriteOp.reference_keeps_head hflag href
  -- so the writer is the frame writer of the bytes after the flag
  have hbytes : w.bytes = ByteArray.empty.push flagStored ++ rest.toByteArray := by
    apply ByteArray.ext_toList
    rw [hrest, data_toList_frame, List.toList_data_toByteArray]
  have hw : w = Writer.framed.writeBytes rest.toByteArray := by
    rw [WriteOp.runAll_only_bytes hrun, hbytes]
    rfl
  refine ⟨rest.toByteArray, ?_, .inl hbytes, fun o => ?_⟩
  · rw [href, hrest, List.toList_data_toByteArray]
  · obtain ⟨hframe, hanswer⟩ := compressLz4_holds_frame rest.toByteArray o
    rw [hw]
    exact ⟨hframe, hanswer, compressLz4_again _ o⟩

/-- One byte, a reserved slot and a patch of it: the writer holds the stored frame of the
five bytes after the flag, before and after compression. -/
theorem framedWriter_holds_frame_slot :
    (∀ pos value, WriteOp.patchU32 pos value ∈ [.u8 5, .reserveU32, .patchU32 2 7] → 0 < pos) ∧
      WriteOp.runAll [.u8 5, .reserveU32, .patchU32 2 7] Writer.framed =
        some (⟨⟨#[0, 5, 7, 0, 0, 0]⟩, 1, true, false⟩, [none, some 2, none]) ∧
      ∃ P : ByteArray, WriteOp.reference [.u8 5, .reserveU32, .patchU32 2 7] [flagStored] =
          some (flagStored :: P.data.toList, [none, some 2, none]) ∧
        IsFrameOf ⟨#[0, 5, 7, 0, 0, 0]⟩ P ∧
        ∀ o, IsFrameOf ((⟨⟨#[0, 5, 7, 0, 0, 0]⟩, 1, true, false⟩ : Writer).compressLz4 o).1.bytes P ∧
          (((⟨⟨#[0, 5, 7, 0, 0, 0]⟩, 1, true, false⟩ : Writer).compressLz4 o).2 = .ok P.size ∨
            Lz4.maxInputSize < P.size ∧
              ((⟨⟨#[0, 5, 7, 0, 0, 0]⟩, 1, true, false⟩ : Writer).compressLz4 o).2 =
                .error (.lengthOverflow "lz4 payload" P.size Lz4.maxInputSize)) ∧
          ∀ o', ((⟨⟨#[0, 5, 7, 0, 0, 0]⟩, 1, true, false⟩ : Writer).compressLz4 o).1.compressLz4 o' =
            (((⟨⟨#[0, 5, 7, 0, 0, 0]⟩, 1, true, false⟩ : Writer).compressLz4 o).1,
              .error .notCompressible) := by
  have hflag : ∀ pos value, WriteOp.patchU32 pos value ∈ [.u8 5, .reserveU32, .patchU32 2 7] →
      0 < pos := by
    intro pos value hmem
    simp only [List.mem_cons, List.not_mem_nil, or_false, reduceCtorEq, WriteOp.patchU32.injEq,
      false_or] at hmem
    omega
  have hrun : WriteOp.runAll [.u8 5, .reserveU32, .patchU32 2 7] Writer.framed =
      some (⟨⟨#[0, 5, 7, 0, 0, 0]⟩, 1, true, false⟩, [none, some 2, none]) := by
    rfl
  exact ⟨hflag, hrun, framedWriter_holds_frame _ hflag hrun⟩

end Codec

end WireCodec
