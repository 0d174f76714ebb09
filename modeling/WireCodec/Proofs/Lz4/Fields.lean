import WireCodec.Lz4.Decode
import WireCodec.Proofs.Lz4.Block
import WireCodec.Proofs.Bytes

/-!
# Tokens and length fields

A token holds two four-bit fields, and a field holding 15 goes on in extension bytes.
This module shows that the decoder's readers invert `Sequence.bytes` field by field:
`lengthField_of_drop` reads back what `extensionBytes` wrote, and `lengthField_eq_ok` says
that whatever the reader accepts was written that way. Together they give
`extensionBytes_append_inj`: a length field has one reading.
-/

namespace WireCodec.Lz4

section Token

theorem toNat_toUInt8 (n : Nat) : n.toUInt8.toNat = n % 256 := by
  rw [Nat.toUInt8_eq, UInt8.toNat_ofNat']

theorem toNat_nibble (n : Nat) : (nibble n).toNat = min n 15 := by
  unfold nibble
  rw [toNat_toUInt8]
  omega

theorem toNat_shiftRight_four (t : UInt8) : (t >>> 4).toNat = t.toNat / 16 := by
  simp [UInt8.toNat_shiftRight, Nat.shiftRight_eq_div_pow]

theorem toNat_and_fifteen (t : UInt8) : (t &&& 15).toNat = t.toNat % 16 := by
  rw [UInt8.toNat_and]
  exact Nat.and_two_pow_sub_one_eq_mod _ 4

/-- Two four-bit fields side by side make the byte `16 * a + b`. -/
theorem toNat_token {a b : UInt8} (ha : a.toNat < 16) (hb : b.toNat < 16) :
    ((a <<< 4) ||| b).toNat = a.toNat * 16 + b.toNat := by
  have hshift : (a <<< 4).toNat = a.toNat <<< 4 := by
    rw [UInt8.toNat_shiftLeft, Nat.shiftLeft_eq, Nat.shiftLeft_eq]
    simp only [UInt8.reduceToNat, Nat.reduceMod, Nat.reducePow]
    omega
  have hb' : b.toNat < 2 ^ 4 := hb
  rw [UInt8.toNat_or, hshift, ← Nat.shiftLeft_add_eq_or_of_lt hb', Nat.shiftLeft_eq]

theorem token_shiftRight {a b : UInt8} (ha : a.toNat < 16) (hb : b.toNat < 16) :
    ((a <<< 4) ||| b) >>> 4 = a := by
  apply UInt8.toNat_inj.mp
  rw [toNat_shiftRight_four, toNat_token ha hb]
  omega

theorem token_and_fifteen {a b : UInt8} (ha : a.toNat < 16) (hb : b.toNat < 16) :
    ((a <<< 4) ||| b) &&& 15 = b := by
  apply UInt8.toNat_inj.mp
  rw [toNat_and_fifteen, toNat_token ha hb]
  omega

theorem nibble_lt (n : Nat) : (nibble n).toNat < 16 := by
  rw [toNat_nibble]
  omega

/-- Every byte is the token of its two fields. -/
theorem token_of_fields (t : UInt8) : ((t >>> 4) <<< 4) ||| (t &&& 15) = t := by
  apply UInt8.toNat_inj.mp
  have hhi := toNat_shiftRight_four t
  have hlo := toNat_and_fifteen t
  have ht := t.toNat_lt
  rw [toNat_token (by omega) (by omega), hhi, hlo]
  omega

end Token

section Extension

/-- An extension of `k` bytes of 255 ended by a smaller byte adds them all. -/
theorem readExtension_of_drop {src : ByteArray} {b : UInt8} {rest : List UInt8} (hb : b ≠ 255) :
    ∀ {k ip len : Nat}, src.data.toList.drop ip = List.replicate k 255 ++ b :: rest →
      readExtension src ip len = .ok (ip + k + 1, len + 255 * k + b.toNat)
  | 0, ip, len, h => by
    obtain ⟨hip, hx, -⟩ := ByteArray.lt_size_of_drop_eq_cons h
    rw [readExtension, dif_pos hip, if_neg (hx ▸ hb), hx]
    rfl
  | k + 1, ip, len, h => by
    obtain ⟨hip, hx, hrest⟩ := ByteArray.lt_size_of_drop_eq_cons h
    rw [readExtension, dif_pos hip, if_pos hx, readExtension_of_drop hb hrest]
    congr 2 <;> omega

/-- What `readExtension` accepts is a run of 255s and one smaller byte. -/
theorem readExtension_eq_ok {src : ByteArray} {ip len : Nat} {r : Nat × Nat}
    (h : readExtension src ip len = .ok r) :
    ∃ k b, b ≠ 255 ∧
      src.data.toList.drop ip = List.replicate k 255 ++ b :: src.data.toList.drop r.1 ∧
      r = (ip + k + 1, len + 255 * k + b.toNat) := by
  fun_induction readExtension src ip len with
  | case1 ip len hip h255 ih =>
    obtain ⟨k, b, hb, hdrop, rfl⟩ := ih h
    refine ⟨k + 1, b, hb, ?_, ?_⟩
    · rw [ByteArray.drop_eq_getElem_cons src hip, h255, hdrop]
      rfl
    · simp only [Prod.mk.injEq]
      omega
  | case2 ip len hip h255 =>
    cases h
    exact ⟨0, src[ip], h255, ByteArray.drop_eq_getElem_cons src hip, by simp⟩
  | case3 => cases h

theorem readExtension_error {src : ByteArray} {ip len : Nat} {e : Error}
    (h : readExtension src ip len = .error e) : ∃ p, e = .truncatedInput p := by
  fun_induction readExtension src ip len with
  | case1 _ _ _ _ ih => exact ih h
  | case2 => cases h
  | case3 ip => cases h; exact ⟨ip, rfl⟩

end Extension

/-- A length field: the four bits `x` of a token, continued in extension bytes when they
hold 15. Both lengths of a token are read this way. -/
def lengthField (src : ByteArray) (ip : Nat) (x : UInt8) : Except Error (Nat × Nat) :=
  if x = 15 then readExtension src ip 15 else .ok (ip, x.toNat)

theorem literalLength_eq (src : ByteArray) (ip : Nat) (t : UInt8) :
    literalLength src ip t = lengthField src ip (t >>> 4) := rfl

theorem matchLength_eq (src : ByteArray) (ip : Nat) (t : UInt8) :
    matchLength src ip t = (lengthField src ip (t &&& 15)).map fun r => (r.1, r.2 + minMatch) := by
  unfold matchLength lengthField
  split <;> rfl

/-- The reader takes back the length that `extensionBytes` wrote. -/
theorem lengthField_of_drop {src : ByteArray} {ip n : Nat} {rest : List UInt8}
    (h : src.data.toList.drop ip = extensionBytes n ++ rest) :
    lengthField src ip (nibble n) = .ok (ip + extensionLength n, n) := by
  have hnib := toNat_nibble n
  unfold lengthField
  by_cases hn : 15 ≤ n
  · have h15 : nibble n = 15 := UInt8.toNat_inj.mp (by rw [hnib]; simp; omega)
    -- the last extension byte is the remainder below 255
    have hlast : (((n - 15) % 255).toUInt8).toNat = (n - 15) % 255 := by
      rw [toNat_toUInt8]
      omega
    have hne : ((n - 15) % 255).toUInt8 ≠ 255 := fun he => by
      rw [he] at hlast
      simp at hlast
      omega
    unfold extensionBytes at h
    rw [if_pos hn, List.append_assoc, List.singleton_append] at h
    rw [if_pos h15, readExtension_of_drop hne h, hlast, extensionLength, if_pos hn]
    congr 2 <;> omega
  · have hne : nibble n ≠ 15 := fun he => by
      rw [he] at hnib
      simp at hnib
      omega
    have hnil : extensionBytes n = [] := if_neg hn
    rw [if_neg hne, hnib, extensionLength, if_neg hn, Nat.min_eq_left (by omega)]
    rfl

/-- Whatever the reader accepts is a field written by `nibble` and `extensionBytes`. -/
theorem lengthField_eq_ok {src : ByteArray} {ip : Nat} {x : UInt8} {r : Nat × Nat}
    (hx : x.toNat < 16) (h : lengthField src ip x = .ok r) :
    x = nibble r.2 ∧ src.data.toList.drop ip = extensionBytes r.2 ++ src.data.toList.drop r.1 ∧
      r.1 = ip + extensionLength r.2 := by
  unfold lengthField at h
  split at h
  · rename_i h15
    obtain ⟨k, b, hb, hdrop, rfl⟩ := readExtension_eq_ok h
    have hb' : b.toNat < 255 := by
      have := b.toNat_lt
      have : b.toNat ≠ 255 := fun he => hb (UInt8.toNat_inj.mp (by rw [he]; rfl))
      omega
    have hn : 15 ≤ 15 + 255 * k + b.toNat := by omega
    have hk : (15 + 255 * k + b.toNat - 15) / 255 = k := by omega
    have hr : (15 + 255 * k + b.toNat - 15) % 255 = b.toNat := by omega
    refine ⟨?_, ?_, ?_⟩
    · apply UInt8.toNat_inj.mp
      rw [toNat_nibble, h15]
      simp only [UInt8.reduceToNat]
      omega
    · unfold extensionBytes
      rw [if_pos hn, hk, hr, Nat.toUInt8_eq, UInt8.ofNat_toNat, List.append_assoc,
        List.singleton_append]
      exact hdrop
    · unfold extensionLength
      rw [if_pos hn, hk]
      omega
  · rename_i h15
    cases h
    have hlt : x.toNat < 15 := by
      have : x.toNat ≠ 15 := fun he => h15 (UInt8.toNat_inj.mp (by rw [he]; rfl))
      omega
    have hnil : extensionBytes x.toNat = [] := if_neg (by omega)
    refine ⟨?_, by rw [hnil]; rfl, ?_⟩
    · apply UInt8.toNat_inj.mp
      rw [toNat_nibble]
      omega
    · unfold extensionLength
      rw [if_neg (by omega)]
      rfl

/-- What `matchLength` accepts is a match code written by `nibble` and `extensionBytes`,
four below the length. -/
theorem matchLength_eq_ok {src : ByteArray} {ip : Nat} {t : UInt8} {r : Nat × Nat}
    (h : matchLength src ip t = .ok r) :
    minMatch ≤ r.2 ∧ t &&& 15 = nibble (r.2 - minMatch) ∧
      src.data.toList.drop ip = extensionBytes (r.2 - minMatch) ++ src.data.toList.drop r.1 ∧
      r.1 = ip + extensionLength (r.2 - minMatch) := by
  rw [matchLength_eq] at h
  cases hf : lengthField src ip (t &&& 15) with
  | error e => rw [hf] at h; cases h
  | ok q =>
    rw [hf] at h
    cases h
    have hq := lengthField_eq_ok (by rw [toNat_and_fifteen]; omega) hf
    simp only [Nat.add_sub_cancel]
    exact ⟨Nat.le_add_left _ _, hq⟩

theorem lengthField_error {src : ByteArray} {ip : Nat} {x : UInt8} {e : Error}
    (h : lengthField src ip x = .error e) : ∃ p, e = .truncatedInput p := by
  unfold lengthField at h
  split at h
  · exact readExtension_error h
  · cases h

/-- A length field has one reading: two fields with the same four bits whose bytes
begin the same text hold the same length. -/
theorem extensionBytes_append_inj {n m : Nat} {r r' : List UInt8} (hnm : nibble n = nibble m)
    (h : extensionBytes n ++ r = extensionBytes m ++ r') : n = m ∧ r = r' := by
  have hn := @lengthField_of_drop (extensionBytes n ++ r).toByteArray 0 n r
    (by rw [List.toList_data_toByteArray]; rfl)
  have hm := @lengthField_of_drop (extensionBytes n ++ r).toByteArray 0 m r'
    (by rw [List.toList_data_toByteArray, h]; rfl)
  rw [hnm, hm] at hn
  have hmn : m = n := (Prod.mk.inj (Except.ok.inj hn)).2
  subst hmn
  exact ⟨rfl, List.append_cancel_left h⟩

theorem literalLength_error {src : ByteArray} {ip : Nat} {t : UInt8} {e : Error}
    (h : literalLength src ip t = .error e) : ∃ p, e = .truncatedInput p :=
  lengthField_error h

theorem matchLength_error {src : ByteArray} {ip : Nat} {t : UInt8} {e : Error}
    (h : matchLength src ip t = .error e) : ∃ p, e = .truncatedInput p := by
  rw [matchLength_eq] at h
  cases hf : lengthField src ip (t &&& 15) with
  | error e' => rw [hf] at h; cases h; exact lengthField_error hf
  | ok q => rw [hf] at h; cases h

/-- The token and literal-length field at the head of a text fix the literal length. -/
theorem literalField_inj {c c' : UInt8} {n n' : Nat} {r r' : List UInt8}
    (hc : c.toNat < 16) (hc' : c'.toNat < 16)
    (h : ((nibble n <<< 4) ||| c) :: (extensionBytes n ++ r) =
      ((nibble n' <<< 4) ||| c') :: (extensionBytes n' ++ r')) :
    n = n' ∧ r = r' := by
  obtain ⟨htok, hrest⟩ := List.cons.inj h
  have hnib : nibble n = nibble n' := by
    rw [← token_shiftRight (nibble_lt n) hc, htok, token_shiftRight (nibble_lt n') hc']
  exact extensionBytes_append_inj hnib hrest

end WireCodec.Lz4
