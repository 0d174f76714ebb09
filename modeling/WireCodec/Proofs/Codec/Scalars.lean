import WireCodec.Wire.Reader
import WireCodec.Value
import WireCodec.Proofs.Bytes

/-!
# Scalars on the wire

The fixed-size scalars whose wire form is not their value itself, and why each reads back:
an integer is written as its residue modulo `2 ^ (8 * width)`, which fits the width and
reads back as the integer through two's complement (`IntKind.read_residue`); a timestamp
as its binary form, which gives back ticks and kind (`Timestamp.ofBinary?_toBinary`); an
identifier as its sixteen bytes (`Guid.ofBytes_bytes`).
-/

namespace WireCodec

namespace IntKind

theorem width_pos (k : IntKind) : 0 < k.width := by
  cases k <;> decide

/-- The number of values of a kind is twice the number of its negative values. -/
theorem pow_width_eq (k : IntKind) :
    Nat.pow 2 (8 * k.width) = 2 * Nat.pow 2 (8 * k.width - 1) := by
  obtain ⟨m, hm⟩ : ∃ m, 8 * k.width = m + 1 := ⟨8 * k.width - 1, by have := k.width_pos; omega⟩
  rw [hm, Nat.add_sub_cancel]
  exact Nat.mul_comm _ _

/-- An integer in range is written as its residue modulo `2 ^ (8 * width)`, which fits the
width. -/
theorem residue_lt (k : IntKind) (n : Int) :
    (n % (Nat.pow 2 (8 * k.width) : Nat)).toNat < Nat.pow 256 k.width := by
  have hpos : 0 < Nat.pow 2 (8 * k.width) := Nat.two_pow_pos _
  have hlt := Int.emod_lt_of_pos n (Int.ofNat_lt.mpr hpos)
  have h256 : Nat.pow 256 k.width = Nat.pow 2 (8 * k.width) := (Nat.pow_mul 2 8 k.width).symm
  rw [h256]
  omega

/-- The residue of an integer in range reads back as the integer, through two's complement
for the signed kinds. -/
theorem read_residue (k : IntKind) {n : Int} (hlo : k.lo ≤ n) (hhi : n ≤ k.hi) :
    (if k.signed then Wire.Reader.signed k.width (n % (Nat.pow 2 (8 * k.width) : Nat)).toNat
      else ((n % (Nat.pow 2 (8 * k.width) : Nat)).toNat : Int)) = n := by
  unfold lo at hlo
  unfold hi at hhi
  cases hs : k.signed
  · -- unsigned: `0 ≤ n < 2 ^ (8 * width)` is its own residue
    rw [hs] at hlo hhi
    simp only [Bool.false_eq_true, if_false] at hlo hhi ⊢
    have hpos : 0 < Nat.pow 2 (8 * k.width) := Nat.two_pow_pos _
    rw [Int.emod_eq_of_lt hlo (by omega)]
    omega
  · -- signed: a negative `n` is `n + 2 ^ (8 * width)`, at least half the range
    rw [hs] at hlo hhi
    simp only [if_true] at hlo hhi ⊢
    have hH : 0 < Nat.pow 2 (8 * k.width - 1) := Nat.two_pow_pos _
    unfold Wire.Reader.signed
    rw [k.pow_width_eq]
    generalize Nat.pow 2 (8 * k.width - 1) = H at hH hlo hhi ⊢
    by_cases hn : 0 ≤ n
    · rw [Int.emod_eq_of_lt hn (by omega), if_pos (by omega)]
      omega
    · have he : n % ((2 * H : Nat) : Int) = n + (2 * H : Nat) := by
        rw [← Int.add_emod_right, Int.emod_eq_of_lt (by omega) (by omega)]
      rw [he, if_neg (by omega)]
      omega

end IntKind

namespace Timestamp

theorem toNat_toBinary (t : Timestamp) :
    t.toBinary.toNat = t.kind.bits * Nat.pow 2 62 + t.ticks := by
  have hb : t.kind.bits ≤ 2 := by cases t.kind <;> decide
  have ht : t.ticks ≤ 3155378975999999999 := t.ticks_le
  have hP : Nat.pow 2 62 = 4611686018427387904 := rfl
  rw [toBinary, Nat.toUInt64, UInt64.toNat_ofNat_of_lt' (by rw [hP]; simp only [UInt64.size]; omega)]

theorem ofBits?_bits (k : TimeKind) : TimeKind.ofBits? k.bits = some k := by
  cases k <;> rfl

/-- The binary form of a timestamp gives it back, ticks and kind. -/
theorem ofBinary?_toBinary (t : Timestamp) : ofBinary? t.toBinary = some t := by
  have ht : t.ticks ≤ 3155378975999999999 := t.ticks_le
  have hP : Nat.pow 2 62 = 4611686018427387904 := rfl
  -- the kind sits above the 62 bits of ticks
  have hdiv : (t.kind.bits * Nat.pow 2 62 + t.ticks) / Nat.pow 2 62 = t.kind.bits := by
    rw [hP]
    omega
  have hmod : (t.kind.bits * Nat.pow 2 62 + t.ticks) % Nat.pow 2 62 = t.ticks := by
    rw [hP]
    omega
  rw [ofBinary?, toNat_toBinary, hdiv, ofBits?_bits]
  dsimp only
  rw [← Int.natCast_emod, hmod, ofTicks?, dif_pos ⟨Int.natCast_nonneg _, by unfold maxTicks; omega⟩]
  obtain ⟨ticks, kind, hle⟩ := t
  simp only [Int.toNat_natCast]

end Timestamp

namespace Guid

/-- An identifier is made back from its sixteen bytes. -/
theorem ofBytes_bytes (g : Guid) : ofBytes g.bytes = g := by
  have hsize := g.size_eq
  -- the first sixteen bytes are all of them, and nothing is padded
  have hb : g.bytes.extract 0 16 ++ ⟨Array.replicate (16 - g.bytes.size) 0⟩ = g.bytes := by
    apply ByteArray.ext_toList
    rw [ByteArray.data_append]
    simp only [hsize, Nat.sub_self, ByteArray.data_extract, Array.toList_append,
      Array.toList_extract, List.extract_eq_take_drop, List.drop_zero, Nat.sub_zero,
      Array.replicate_zero, List.append_nil]
    rw [List.take_of_length_le (by simp [hsize])]
  unfold ofBytes
  dsimp only
  rw [hb, dif_pos hsize]

end Guid

end WireCodec
