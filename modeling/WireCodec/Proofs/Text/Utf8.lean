import WireCodec.Text.Utf8
import WireCodec.Proofs.Bytes

/-!
# The validator accepts every string

`validateUtf8` accepts the bytes of every string, and `decodeUtf8` gives the string back
(`decodeUtf8_toUTF8`). A string's bytes are the encodings of its characters one after
another, so the proof walks the validator along them: at each character the lead byte
announces the length of its encoding, and the bytes after it pass their tests
(`Accepted`). The encoding of a character takes one of four forms by the size of its code;
each form is checked once, on the code as a number.
-/

namespace WireCodec.Text

/-- A sequence the validator accepts at its start: the lead byte announces the sequence's
length, and every byte after it passes the test for its place, the second against the lead
and the others as continuation bytes. -/
def Accepted (xs : List UInt8) : Prop :=
  sequenceWidth (xs.getD 0 0) = xs.length ∧
    ∀ j, 0 < j → j < xs.length →
      (if j = 1 then secondFits (xs.getD 0 0) (xs.getD j 0)
        else isContinuation (xs.getD j 0)) = true

/-- The tail of an accepted sequence passes `checkTail`, from any number of bytes left to
check. -/
theorem checkTail_eq_none {b : ByteArray} {i : Nat} {xs rest : List UInt8}
    (h : b.data.toList.drop i = xs ++ rest) (hxs : Accepted xs) :
    ∀ k, k < xs.length → checkTail b i xs.length k = none
  | 0, _ => rfl
  | k + 1, hk => by
    have hlt : i + (xs.length - (k + 1)) < b.size := by
      have := congrArg List.length h
      simp only [List.length_drop, List.length_append, ByteArray.length_data_toList] at this
      omega
    have hget : ∀ j, j < xs.length → b.get! (i + j) = xs.getD j 0 := fun j hj => by
      rw [ByteArray.get!_of_drop_eq h, List.getD_eq_getElem?_getD, List.getD_eq_getElem?_getD,
        List.getElem?_append_left hj]
    have hlead : b.get! i = xs.getD 0 0 := by
      rw [← hget 0 (by omega)]
      rfl
    rw [checkTail, if_pos hlt, hget _ (by omega), hlead, if_pos (hxs.2 _ (by omega) (by omega))]
    exact checkTail_eq_none h hxs k (by omega)

/-! The validator's tests, on bytes given by their values. -/

theorem sequenceWidth_ofNat {n : Nat} (h : n < 256) : sequenceWidth (UInt8.ofNat n) =
    if n < 0x80 then 1 else if 0xC2 ≤ n ∧ n ≤ 0xDF then 2 else if 0xE0 ≤ n ∧ n ≤ 0xEF then 3
    else if 0xF0 ≤ n ∧ n ≤ 0xF4 then 4 else 0 := by
  simp only [sequenceWidth, UInt8.lt_iff_toNat_lt, UInt8.le_iff_toNat_le, UInt8.toNat_ofNat_of_lt' h,
    UInt8.reduceToNat, Bool.and_eq_true, decide_eq_true_eq]

theorem isContinuation_ofNat {n : Nat} (h : n < 256) :
    isContinuation (UInt8.ofNat n) = decide (0x80 ≤ n ∧ n ≤ 0xBF) := by
  simp only [isContinuation, UInt8.le_iff_toNat_le, UInt8.toNat_ofNat_of_lt' h, UInt8.reduceToNat,
    Bool.decide_and]

theorem secondFits_ofNat {a b : Nat} (ha : a < 256) (hb : b < 256) :
    secondFits (UInt8.ofNat a) (UInt8.ofNat b) =
      if 0xC2 ≤ a ∧ a ≤ 0xDF then decide (0x80 ≤ b ∧ b ≤ 0xBF)
      else if a = 0xE0 then decide (0xA0 ≤ b ∧ b ≤ 0xBF)
      else if a = 0xED then decide (0x80 ≤ b ∧ b ≤ 0x9F)
      else if 0xE1 ≤ a ∧ a ≤ 0xEF then decide (0x80 ≤ b ∧ b ≤ 0xBF)
      else if a = 0xF0 then decide (0x90 ≤ b ∧ b ≤ 0xBF)
      else if a = 0xF4 then decide (0x80 ≤ b ∧ b ≤ 0x8F)
      else if 0xF1 ≤ a ∧ a ≤ 0xF3 then decide (0x80 ≤ b ∧ b ≤ 0xBF)
      else false := by
  simp only [secondFits, isContinuation, UInt8.le_iff_toNat_le, ← UInt8.toNat_inj,
    UInt8.toNat_ofNat_of_lt' ha, UInt8.toNat_ofNat_of_lt' hb, UInt8.reduceToNat, Bool.and_eq_true,
    decide_eq_true_eq, Bool.decide_and]

/-! The four forms of a character's encoding, by the size of its code `v`. -/

theorem accepted_one {v : Nat} (h : v ≤ 0x7f) : Accepted [UInt8.ofNat v] := by
  refine ⟨?_, fun j hj0 hj => absurd hj (by simp only [List.length_singleton]; omega)⟩
  rw [List.getD_cons_zero, sequenceWidth_ofNat (by omega), if_pos (by omega),
    List.length_singleton]

theorem accepted_two {v : Nat} (h1 : 0x7f < v) (h2 : v ≤ 0x7ff) :
    Accepted [UInt8.ofNat (v / 64 % 32 + 192), UInt8.ofNat (v % 64 + 128)] := by
  refine ⟨?_, fun j hj0 hj => ?_⟩
  · rw [List.getD_cons_zero, sequenceWidth_ofNat (by omega), if_neg (by omega), if_pos (by omega)]
    rfl
  · obtain rfl : j = 1 := by simp only [List.length_cons, List.length_nil] at hj; omega
    rw [if_pos rfl, List.getD_cons_zero, List.getD_cons_succ, List.getD_cons_zero,
      secondFits_ofNat (by omega) (by omega), if_pos (by omega)]
    exact decide_eq_true (by omega)

/-- After the lead byte `0xE0` the second byte keeps the code above `0x7FF`, and after
`0xED` below the surrogates. -/
theorem accepted_three {v : Nat} (h1 : 0x7ff < v) (h2 : v ≤ 0xffff)
    (hs : v < 0xD800 ∨ 0xDFFF < v) :
    Accepted [UInt8.ofNat (v / 4096 % 16 + 224), UInt8.ofNat (v / 64 % 64 + 128),
      UInt8.ofNat (v % 64 + 128)] := by
  refine ⟨?_, fun j hj0 hj => ?_⟩
  · rw [List.getD_cons_zero, sequenceWidth_ofNat (by omega), if_neg (by omega),
      if_neg (by omega), if_pos (by omega)]
    rfl
  · simp only [List.length_cons, List.length_nil] at hj
    obtain rfl | rfl : j = 1 ∨ j = 2 := by omega
    · rw [if_pos rfl, List.getD_cons_zero, List.getD_cons_succ, List.getD_cons_zero,
        secondFits_ofNat (by omega) (by omega), if_neg (by omega)]
      split
      · exact decide_eq_true (by omega)
      split
      · exact decide_eq_true (by omega)
      rw [if_pos (by omega)]
      exact decide_eq_true (by omega)
    · rw [if_neg (by omega), List.getD_cons_succ, List.getD_cons_succ, List.getD_cons_zero,
        isContinuation_ofNat (by omega)]
      exact decide_eq_true (by omega)

/-- After the lead byte `0xF0` the second byte keeps the code above `0xFFFF`, and after
`0xF4` at most `0x10FFFF`. -/
theorem accepted_four {v : Nat} (h1 : 0xffff < v) (h2 : v < 0x110000) :
    Accepted [UInt8.ofNat (v / 262144 % 8 + 240), UInt8.ofNat (v / 4096 % 64 + 128),
      UInt8.ofNat (v / 64 % 64 + 128), UInt8.ofNat (v % 64 + 128)] := by
  refine ⟨?_, fun j hj0 hj => ?_⟩
  · rw [List.getD_cons_zero, sequenceWidth_ofNat (by omega), if_neg (by omega),
      if_neg (by omega), if_neg (by omega), if_pos (by omega)]
    rfl
  · simp only [List.length_cons, List.length_nil] at hj
    obtain rfl | rfl | rfl : j = 1 ∨ j = 2 ∨ j = 3 := by omega
    · rw [if_pos rfl, List.getD_cons_zero, List.getD_cons_succ, List.getD_cons_zero,
        secondFits_ofNat (by omega) (by omega), if_neg (by omega), if_neg (by omega),
        if_neg (by omega), if_neg (by omega)]
      split
      · exact decide_eq_true (by omega)
      split
      · exact decide_eq_true (by omega)
      rw [if_pos (by omega)]
      exact decide_eq_true (by omega)
    · rw [if_neg (by omega), List.getD_cons_succ, List.getD_cons_succ, List.getD_cons_zero,
        isContinuation_ofNat (by omega)]
      exact decide_eq_true (by omega)
    · rw [if_neg (by omega), List.getD_cons_succ, List.getD_cons_succ, List.getD_cons_succ,
        List.getD_cons_zero, isContinuation_ofNat (by omega)]
      exact decide_eq_true (by omega)

/-- The validator accepts the encoding of every character. -/
theorem accepted_utf8EncodeChar (c : Char) : Accepted (String.utf8EncodeChar c) := by
  -- a character's code is no surrogate and at most `0x10FFFF`
  have hv : c.val.toNat < 0xD800 ∨ (0xDFFF < c.val.toNat ∧ c.val.toNat < 0x110000) := c.valid
  unfold String.utf8EncodeChar
  dsimp only
  split
  · exact accepted_one ‹_›
  split
  · exact accepted_two (by omega) ‹_›
  split
  · exact accepted_three (by omega) ‹_› (by omega)
  · exact accepted_four (by omega) (by omega)

/-- From a position where the bytes left are the encodings of some characters, the
validator accepts. -/
theorem validateFrom_of_drop (b : ByteArray) :
    ∀ (cs : List Char) (i : Nat), b.data.toList.drop i = cs.flatMap String.utf8EncodeChar →
      validateFrom b i = .ok ()
  | [], i, h => by
    have hi : ¬ i < b.size := by
      have := congrArg List.length h
      simp only [List.length_drop, ByteArray.length_data_toList, List.flatMap_nil,
        List.length_nil] at this
      omega
    rw [validateFrom, dif_neg hi]
  | c :: cs, i, h => by
    rw [List.flatMap_cons] at h
    obtain ⟨hw, htail⟩ := accepted_utf8EncodeChar c
    have hpos : 0 < (String.utf8EncodeChar c).length :=
      List.length_pos_iff.mpr String.utf8EncodeChar_ne_nil
    have hlen := congrArg List.length h
    simp only [List.length_drop, ByteArray.length_data_toList, List.length_append] at hlen
    have hi : i < b.size := by omega
    have hlead : b[i] = (String.utf8EncodeChar c).getD 0 0 := by
      rw [ByteArray.getElem_eq_getD, ← Nat.add_zero i, ← ByteArray.get!_eq_getD,
        ByteArray.get!_of_drop_eq h, List.getD_eq_getElem?_getD, List.getD_eq_getElem?_getD,
        List.getElem?_append_left hpos]
    rw [validateFrom, dif_pos hi]
    dsimp only
    rw [hlead, hw, if_neg (by omega), checkTail_eq_none h ⟨hw, htail⟩ _ (by omega)]
    dsimp only
    refine validateFrom_of_drop b cs _ ?_
    rw [← List.drop_drop, h, List.drop_left]

/-- The validator accepts the bytes of every string. -/
theorem validateUtf8_toUTF8 (t : String) : validateUtf8 t.toUTF8 = .ok () := by
  obtain ⟨m, hm⟩ := t.isValidUTF8
  refine validateFrom_of_drop _ m 0 ?_
  rw [List.drop_zero, String.toUTF8_eq_toByteArray, hm, List.utf8Encode,
    List.toList_data_toByteArray]

/-- The bytes of a string are valid UTF-8 in the library's sense too. -/
theorem fromUTF8?_toUTF8 (t : String) : String.fromUTF8? t.toUTF8 = some t := by
  rw [String.fromUTF8?, String.toUTF8_eq_toByteArray, dif_pos t.isValidUTF8]
  rfl

/-- Decoding the bytes of a string gives the string back. -/
theorem decodeUtf8_toUTF8 (t : String) : decodeUtf8 t.toUTF8 = .ok t := by
  rw [decodeUtf8, validateUtf8_toUTF8, fromUTF8?_toUTF8]
  rfl

end WireCodec.Text
