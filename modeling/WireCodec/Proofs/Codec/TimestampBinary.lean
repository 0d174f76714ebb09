import WireCodec.Proofs.Codec.Scalars
import WireCodec.Proofs.Wire.Reads
import WireCodec.Codec.Decode

/-!
# The binary form of timestamps

A timestamp travels as a 64-bit word: its kind in the top two bits, its ticks in the other
62. The kind bits `3` name no kind, and ticks past `maxTicks` no moment, so not every word
is a timestamp. `ofBinary?` accepts exactly the other words (`ofBinary?_isSome_iff`), and
what it accepts it reads as the timestamp whose binary form is that word
(`toBinary_of_ofBinary?`); with `ofBinary?_toBinary` the binary form is a bijection from
timestamps onto the accepted words. The decoder reads the word little-endian and refuses
every word that is no timestamp as an invalid value of the type (`decode_timestamp_word`).
-/

namespace WireCodec

open Wire

namespace TimeKind

theorem ofBits?_isSome_iff (n : Nat) : (ofBits? n).isSome ↔ n ≤ 2 := by
  rcases n with _ | _ | _ | n <;> simp [ofBits?]

theorem bits_of_ofBits? {n : Nat} {k : TimeKind} (h : ofBits? n = some k) : k.bits = n := by
  rcases n with _ | _ | _ | n <;> simp only [ofBits?, Option.some.injEq, reduceCtorEq] at h <;>
    subst h <;> rfl

end TimeKind

namespace Timestamp

/-- The top two bits of a word, as the binary form reads them. -/
theorem toNat_kindBits (w : UInt64) : (w >>> 62).toNat = w.toNat / Nat.pow 2 62 := by
  rw [UInt64.toNat_shiftRight, Nat.shiftRight_eq_div_pow]
  rfl

/-- The low 62 bits of a word, as the binary form reads them. -/
theorem toNat_tickBits (w : UInt64) :
    (w &&& 0x3FFFFFFFFFFFFFFF).toNat = w.toNat % Nat.pow 2 62 := by
  rw [UInt64.toNat_and, show (0x3FFFFFFFFFFFFFFF : UInt64).toNat = 2 ^ 62 - 1 from rfl,
    Nat.and_two_pow_sub_one_eq_mod]

theorem ofTicks?_natCast_isSome_iff (n : Nat) (k : TimeKind) :
    (ofTicks? n k).isSome ↔ n ≤ maxTicks := by
  unfold ofTicks?
  split
  · rename_i h
    simp only [Option.isSome_some, true_iff]
    exact Int.ofNat_le.mp h.2
  · rename_i h
    simp only [Option.isSome_none, Bool.false_eq_true, false_iff]
    exact fun hle => h ⟨Int.natCast_nonneg n, Int.ofNat_le.mpr hle⟩

/-- A word is a timestamp exactly when its kind bits name a kind and its ticks are in
range. -/
theorem ofBinary?_isSome_iff (w : UInt64) :
    (ofBinary? w).isSome ↔ (w >>> 62).toNat ≤ 2 ∧ (w &&& 0x3FFFFFFFFFFFFFFF).toNat ≤ maxTicks := by
  rw [toNat_kindBits, toNat_tickBits, ← TimeKind.ofBits?_isSome_iff, ofBinary?]
  cases TimeKind.ofBits? (w.toNat / Nat.pow 2 62) with
  | none => simp
  | some k =>
    simp only [Option.isSome_some, true_and]
    rw [← Int.natCast_emod]
    exact ofTicks?_natCast_isSome_iff _ k

/-- A word read as a timestamp is that timestamp's binary form. -/
theorem toBinary_of_ofBinary? {w : UInt64} {t : Timestamp} (h : ofBinary? w = some t) :
    t.toBinary = w := by
  unfold ofBinary? at h
  split at h
  · rename_i k hk
    unfold ofTicks? at h
    split at h
    · cases h
      apply UInt64.toNat_inj.mp
      rw [toNat_toBinary, TimeKind.bits_of_ofBits? hk]
      dsimp only
      rw [← Int.natCast_emod, Int.toNat_natCast]
      exact Nat.div_add_mod' w.toNat (Nat.pow 2 62)
    · cases h
  · cases h

end Timestamp

namespace Codec

/-- The decoder reads a timestamp's word little-endian: a word that is a timestamp is
read as it, every other word is refused as an invalid value naming its type, and either
way the eight bytes are consumed. -/
theorem decode_timestamp_word (cat : Catalog) (fuel : Nat) {r : Reader} (w : UInt64)
    {rest : List UInt8} (h : r.Plain ((Writer.leBytes w.toNat 8).data.toList ++ rest)) :
    (decode cat fuel .timestamp).run' r =
      ((Timestamp.ofBinary? w).elim (.error (.invalidValue "Timestamp" (.binaryOutOfRange w.toNat)))
        (fun t => .ok (.timestamp t)), r.moved 8) := by
  have hopt : (r.moved 8).options = .none := h.options
  rw [decode, ReadM.run'_bind, (Reads.readLE w.toNat_lt).whole r rest h, Writer.length_leBytes]
  dsimp only
  rw [Nat.toUInt64, UInt64.ofNat_toNat]
  cases Timestamp.ofBinary? w with
  | none => rfl
  | some t =>
    dsimp only
    rw [ReadM.run'_bind, ReadM.run'_get]
    dsimp only
    rw [hopt]
    rfl

end Codec

/-- The binary form of timestamps is a bijection onto the words whose top two bits are
`0`, `1` or `2` and whose low 62 bits are at most `maxTicks`: every timestamp comes back
from its word with its ticks and its kind, a word is read as a timestamp exactly when it
is such a word, and then it is that timestamp's binary form. The decoder reads the word
little-endian, takes such a word as its timestamp and refuses every other word as an
invalid timestamp. -/
theorem Timestamp.binary_form_bijection :
    (∀ t : Timestamp, ofBinary? t.toBinary = some t) ∧
    (∀ w : UInt64, (ofBinary? w).isSome ↔
      (w >>> 62).toNat ≤ 2 ∧ (w &&& 0x3FFFFFFFFFFFFFFF).toNat ≤ maxTicks) ∧
    (∀ (w : UInt64) (t : Timestamp), ofBinary? w = some t → t.toBinary = w) ∧
    (∀ (cat : Catalog) (fuel : Nat) (r : Reader) (w : UInt64) (rest : List UInt8),
      r.Plain ((Writer.leBytes w.toNat 8).data.toList ++ rest) →
      (Codec.decode cat fuel .timestamp).run' r =
        ((ofBinary? w).elim (.error (.invalidValue "Timestamp" (.binaryOutOfRange w.toNat)))
          (fun t => .ok (.timestamp t)), r.moved 8)) :=
  ⟨ofBinary?_toBinary, ofBinary?_isSome_iff, fun _ _ h => toBinary_of_ofBinary? h,
    fun cat fuel _ w _ h => Codec.decode_timestamp_word cat fuel w h⟩

end WireCodec
