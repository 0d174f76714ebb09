import WireCodec.Proofs.Lz4.InPlace
import WireCodec.Proofs.Lz4.Counters

/-!
# Writing blocks

`Emitter.writeSequence` appends the bytes of a `Sequence` and `Emitter.finish` the closing
literals, each when the destination has room. Both encoders keep one invariant,
`Emitter.Encodes`: what is written so far is the bytes of sequences that decode to the
input up to the current position, at most one byte per 255 longer than that input. A
sequence never costs more than the bytes it stands for and one per 255 literals
(`sequencePrice_le`), so from the invariant a match on agreeing bytes is always written
(`Emitter.Encodes.writeSequence`), and so is the close, within `compressBound` and into a
block that decodes to the input (`Emitter.Encodes.finish`).
-/

namespace WireCodec.Lz4

@[simp] theorem data_toList_pushRepeat (out : ByteArray) (b : UInt8) (n : Nat) :
    (pushRepeat out b n).data.toList = out.data.toList ++ List.replicate n b := by
  induction n generalizing out with
  | zero => simp [pushRepeat]
  | succ n ih => simp [pushRepeat, ih, List.replicate_succ]

@[simp] theorem data_toList_pushExtension (out : ByteArray) (n : Nat) :
    (pushExtension out n).data.toList = out.data.toList ++ extensionBytes n := by
  unfold pushExtension extensionBytes
  split <;> simp

section Price

theorem extensionLength_le (n : Nat) : extensionLength n ≤ n := by
  unfold extensionLength
  split <;> omega

theorem extensionLength_le_div (n : Nat) : extensionLength n ≤ 1 + n / 255 := by
  unfold extensionLength
  split <;> omega

/-- A sequence costs at most the bytes it describes and one more per 255 literals. -/
theorem sequencePrice_le {L M : Nat} (hM : minMatch ≤ M) : sequencePrice L M ≤ L + M + L / 255 := by
  have hcode := extensionLength_le (M - minMatch)
  unfold sequencePrice literalsPrice
  unfold minMatch at hM hcode ⊢
  by_cases hL : 15 ≤ L
  · rw [extensionLength, if_pos hL]
    omega
  · rw [extensionLength, if_neg hL]
    omega

/-- Below the input limit the bound is the input, one byte per 255 and sixteen more. -/
theorem compressBound_eq {len : Nat} (h : len ≤ maxInputSize) :
    compressBound len = len + len / 255 + 16 := by
  unfold compressBound
  rw [if_neg (by omega)]

end Price

theorem Sequence.decodeAll?_append (ss ss' : List Sequence) (w : List UInt8) :
    Sequence.decodeAll? (ss ++ ss') w = (Sequence.decodeAll? ss w).bind (Sequence.decodeAll? ss') := by
  induction ss generalizing w with
  | nil => rfl
  | cons s ss ih =>
    simp only [List.cons_append, Sequence.decodeAll?, Option.bind_assoc]
    congr 1
    funext y
    exact ih y

namespace Emitter

/-- The literals of `src` from `start` and a match, written as one sequence. -/
theorem writeSequence_eq {e : Emitter} {src : ByteArray} {start len offset matchLen : Nat}
    (hroom : e.out.size + sequencePrice len matchLen + lastLiterals + 1 ≤ e.capacity)
    (hoff : offset ≤ maxDistance) (hm : minMatch ≤ matchLen) (hlen : start + len ≤ src.size) :
    e.writeSequence src start len offset matchLen =
      .ok { e with out := (e.out.data.toList ++ Sequence.bytes
        ⟨(src.data.toList.drop start).take len, offset, matchLen, hoff, hm⟩).toByteArray } := by
  have hlits : ((src.data.toList.drop start).take len).length = len := by
    simp only [List.length_take, List.length_drop, ByteArray.length_data_toList]
    omega
  -- the second offset byte is taken modulo 256 twice
  have hhigh : (offset / 256 % 256).toUInt8 = (offset / 256).toUInt8 :=
    UInt8.toNat_inj.mp (by rw [toNat_toUInt8, toNat_toUInt8]; omega)
  rw [writeSequence, if_neg (by omega)]
  dsimp only
  congr 2
  apply ByteArray.ext_toList
  rw [List.toList_data_toByteArray, Sequence.bytes, hlits, ← hhigh]
  simp [ByteArray.data_append]

/-- The closing literals of `src` from `start`, which finish the block. -/
theorem finish_eq {e : Emitter} {src : ByteArray} {start len : Nat}
    (hroom : e.out.size + 1 + literalsPrice len ≤ e.capacity) (hlen : start + len ≤ src.size) :
    e.finish src start len =
      .ok (e.out.data.toList ++ closingBytes ((src.data.toList.drop start).take len) 0).toByteArray := by
  have hlits : ((src.data.toList.drop start).take len).length = len := by
    simp only [List.length_take, List.length_drop, ByteArray.length_data_toList]
    omega
  rw [finish, if_neg (by omega)]
  congr 1
  apply ByteArray.ext_toList
  rw [List.toList_data_toByteArray, closingBytes, hlits, UInt8.or_zero]
  simp [ByteArray.data_append]

/-- What the encoders keep of a block under construction for the input `t`: it is the
bytes of sequences that decode to the first `anchor` bytes of `t`, it is longer than they
are by at most one byte per 255, and the destination has room for the worst case of the
whole input. -/
structure Encodes (e : Emitter) (t : List UInt8) (anchor : Nat) : Prop where
  sequences : ∃ ss : List Sequence, e.out.data.toList = ss.flatMap Sequence.bytes ∧
    Sequence.decodeAll? ss [] = some (t.take anchor)
  size_le : e.out.size ≤ anchor + anchor / 255
  anchor_le : anchor ≤ t.length
  room : t.length + t.length / 255 + 16 ≤ e.capacity

theorem encodes_empty {t : List UInt8} {capacity : Nat}
    (h : t.length + t.length / 255 + 16 ≤ capacity) : (empty capacity).Encodes t 0 :=
  ⟨⟨[], rfl, rfl⟩, Nat.zero_le _, Nat.zero_le _, h⟩

section Encodes

variable {e : Emitter} {t : List UInt8} {anchor : Nat} {src : ByteArray}

/-- A match on agreeing bytes, within reach and ending before the last literals, is
written, and the block then encodes the input up to the end of the match. -/
theorem Encodes.writeSequence (he : e.Encodes t anchor) (hsrc : src.data.toList = t)
    {p d M : Nat} (hap : anchor ≤ p) (hd : 0 < d) (hdp : d ≤ p) (hdmax : d ≤ maxDistance)
    (hM : minMatch ≤ M) (hend : p + M + lastLiterals ≤ t.length) (hagree : Agree src p (p - d) M) :
    ∃ e', e.writeSequence src anchor (p - anchor) d M = .ok e' ∧ e'.Encodes t (p + M) := by
  obtain ⟨ss, hout, hdec⟩ := he.sequences
  have hprice := @sequencePrice_le (p - anchor) M hM
  have hsize := he.size_le
  have hroom := he.room
  have hlen : t.length = src.size := by rw [← hsrc, ByteArray.length_data_toList]
  unfold lastLiterals at hend
  let s : Sequence := ⟨(src.data.toList.drop anchor).take (p - anchor), d, M, hdmax, hM⟩
  have hlits : s.literals.length = p - anchor := by
    simp only [s, List.length_take, List.length_drop, ByteArray.length_data_toList]
    omega
  refine ⟨_, writeSequence_eq (by unfold lastLiterals; omega) hdmax hM (by omega),
    ⟨⟨ss ++ [s], ?_, ?_⟩, ?_, by omega, hroom⟩⟩
  · rw [List.toList_data_toByteArray, hout, List.flatMap_append, List.flatMap_singleton]
  · -- the new sequence turns the first `anchor` bytes into the first `p + M`
    have hprefix : t.take anchor ++ s.literals = t.take p := by
      rw [← hsrc, ← List.take_add, Nat.add_sub_cancel' hap]
    have hcopy : copyBack (t.take p) d M = t.take (p + M) := by
      refine copyBack_take hd hdp (by omega) fun j hj => ?_
      have := hagree j hj
      rwa [ByteArray.get!_eq_getD, ByteArray.get!_eq_getD, hsrc] at this
    have hreach : 0 < d ∧ d ≤ (t.take anchor).length + s.literals.length := by
      rw [List.length_take, hlits]
      omega
    rw [Sequence.decodeAll?_append, hdec, Option.bind_some, Sequence.decodeAll?,
      Sequence.decode?, if_pos hreach, hprefix, hcopy]
    rfl
  · have hmatch : s.matchLen = M := rfl
    rw [List.size_toByteArray, List.length_append, ByteArray.length_data_toList,
      Sequence.length_bytes, hlits, hmatch]
    omega

/-- The input's last literals close the block, which then fits `compressBound` and
decodes to the input. -/
theorem Encodes.finish (he : e.Encodes t anchor) (hsrc : src.data.toList = t) :
    ∃ out, e.finish src anchor (src.size - anchor) = .ok out ∧
      out.size ≤ src.size + src.size / 255 + 16 ∧ decompress out src.size = .ok src := by
  obtain ⟨ss, hout, hdec⟩ := he.sequences
  have hlen : t.length = src.size := by rw [← hsrc, ByteArray.length_data_toList]
  have hext := extensionLength_le_div (src.size - anchor)
  have hsize := he.size_le
  have hroom := he.room
  have hanchor := he.anchor_le
  let lits := (src.data.toList.drop anchor).take (src.size - anchor)
  have hlits : lits.length = src.size - anchor := by
    simp only [lits, List.length_take, List.length_drop, ByteArray.length_data_toList]
    omega
  refine ⟨_, finish_eq (by unfold literalsPrice; omega) (by omega), ?_, ?_⟩
  · rw [List.size_toByteArray, List.length_append, ByteArray.length_data_toList, closingBytes,
      List.length_cons, List.length_append, length_extensionBytes, hlits]
    omega
  · -- the written sequences and the close make a block whose reference output is `t`
    have hbytes : (e.out.data.toList ++ closingBytes lits 0).toByteArray.data.toList.drop 0 =
        Block.bytes ⟨ss, lits, 0, by decide⟩ := by
      rw [List.drop_zero, List.toList_data_toByteArray, hout]
      rfl
    have hblock : Block.decode? ⟨ss, lits, 0, by decide⟩ ByteArray.empty.data.toList =
        some src.data.toList := by
      have hrest : lits = t.drop anchor := by
        rw [← hsrc]
        exact List.take_of_length_le (by simp)
      show (Sequence.decodeAll? ss []).map (· ++ lits) = _
      rw [hdec, Option.map_some, hrest, List.take_append_drop, hsrc]
    rw [decompress_eq, decodeSequences_of_block hbytes hblock
      (Nat.le_of_eq (ByteArray.length_data_toList src)), ByteArray.toByteArray_data_toList]

/-- With nothing written yet, the whole input as literals is a block that decodes to it. -/
theorem finish_literals {capacity : Nat} (hcap : src.size + src.size / 255 + 16 ≤ capacity) :
    ∃ out, (empty capacity).finish src 0 src.size = .ok out ∧
      out.size ≤ src.size + src.size / 255 + 16 ∧ decompress out src.size = .ok src := by
  have he := @encodes_empty src.data.toList capacity
    (by rw [ByteArray.length_data_toList]; exact hcap)
  obtain ⟨out, hfin, hout⟩ := he.finish rfl
  rw [Nat.sub_zero] at hfin
  exact ⟨out, hfin, hout⟩

end Encodes

end Emitter

end WireCodec.Lz4
