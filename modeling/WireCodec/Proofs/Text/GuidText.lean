import Mathlib
import WireCodec.Guid
import WireCodec.Proofs.Wire.Writes

/-!
# The text form of an identifier

The text form of an identifier is five groups of hexadecimal digits, of 8, 4, 4, 4 and 12
digits, joined by single dashes (`GuidText`). Parsing accepts exactly these texts, in
either case: the first three groups are the values of bytes 0-3, 4-5 and 6-7 read
little-endian, and the last two groups spell bytes 8-15 in order, two digits a byte.
Printing and parsing undo each other (`text_form_bijective`): every identifier parses back
from its printed form, and every text that parses prints back as itself in lowercase.

Printing writes each field at a fixed width (`hexDigits`, the lowest digits of a number
most significant first) and parsing reads digits back as a number (`hexNumber`) or as
bytes (`hexBytes`); the lemmas below say that these undo each other, one digit or one
byte at a time.
-/

namespace WireCodec.Guid

open Wire

/-- The lowest `width` hexadecimal digits of `n`, most significant first, in lowercase. -/
def hexDigits : Nat → Nat → List Char
  | 0, _ => []
  | width + 1, n => hexDigits width (n / 16) ++ [Nat.digitChar (n % 16)]

/-- The text has the groups `g₀` to `g₄`: runs of 8, 4, 4, 4 and 12 hexadecimal digits of
either case, joined by single dashes. -/
def GuidText (text : String) (g₀ g₁ g₂ g₃ g₄ : List Char) : Prop :=
  text.toList = ['-'].intercalate [g₀, g₁, g₂, g₃, g₄] ∧
    [g₀, g₁, g₂, g₃, g₄].map List.length = [8, 4, 4, 4, 12] ∧
    ∀ g ∈ [g₀, g₁, g₂, g₃, g₄], ∀ c ∈ g, c.isHexDigit

/-! ### Digits -/

/-- A digit of value below 16 is a hexadecimal digit, and reads back as its value. -/
theorem hexValue_digitChar {d : Nat} (h : d < 16) :
    hexValue (Nat.digitChar d) = d ∧ (Nat.digitChar d).isHexDigit := by
  have hall : ∀ d < 16, hexValue (Nat.digitChar d) = d ∧ (Nat.digitChar d).isHexDigit := by
    decide
  exact hall d h

/-- A hexadecimal digit has a value below 16, and is the digit of that value in lowercase. -/
theorem digitChar_hexValue {c : Char} (h : c.isHexDigit) :
    hexValue c < 16 ∧ Nat.digitChar (hexValue c) = c.toLower := by
  -- hexadecimal digits are ASCII, so checking the 128 ASCII characters covers them all
  have hascii : c.toNat < 128 := by
    simp [Char.isHexDigit, Char.isDigit, UInt32.le_iff_toNat_le] at h
    omega
  have hall : ∀ n < 128, (Char.ofNat n).isHexDigit →
      hexValue (Char.ofNat n) < 16 ∧ Nat.digitChar (hexValue (Char.ofNat n)) = (Char.ofNat n).toLower := by
    decide
  rw [← Char.ofNat_toNat c] at h ⊢
  exact hall _ hascii h

theorem ne_dash_of_isHexDigit {c : Char} (h : c.isHexDigit) : c ≠ '-' := by
  rintro rfl
  exact absurd h (by decide)

/-! ### Numbers at a fixed width -/

@[simp] theorem length_hexDigits (width n : Nat) : (hexDigits width n).length = width := by
  induction width generalizing n with
  | zero => rfl
  | succ width ih => simp [hexDigits, ih]

theorem isHexDigit_of_mem_hexDigits {width n : Nat} {c : Char} (h : c ∈ hexDigits width n) :
    c.isHexDigit := by
  induction width generalizing n with
  | zero => exact absurd h List.not_mem_nil
  | succ width ih =>
    rcases List.mem_append.mp h with h | h
    · exact ih h
    · rw [List.mem_singleton.mp h]
      exact (hexValue_digitChar (Nat.mod_lt n (by decide))).2

theorem hexDigits_zero (width : Nat) : hexDigits width 0 = List.replicate width '0' := by
  induction width with
  | zero => rfl
  | succ width ih =>
    rw [hexDigits, Nat.zero_div, ih, Nat.zero_mod, List.replicate_succ']
    rfl

/-- The printed form of a number that fits is its lowest digits at the width. -/
theorem hexPadded_toList {width n : Nat} (hw : 0 < width) (h : n < 16 ^ width) :
    (hexPadded width n).toList = hexDigits width n := by
  obtain ⟨width, rfl⟩ : ∃ w, width = w + 1 := ⟨width - 1, by omega⟩
  induction width generalizing n with
  | zero =>
    rw [pow_one] at h
    simp [hexPadded, Nat.toDigits_of_lt_base h, hexDigits, Nat.mod_eq_of_lt h]
  | succ width ih =>
    by_cases hsmall : n < 16
    · -- one digit, padded with zeros
      simp only [hexPadded, String.toList_append, String.toList_ofList, String.length_ofList,
        Nat.toDigits_of_lt_base hsmall, List.length_singleton]
      rw [hexDigits, Nat.div_eq_of_lt hsmall, hexDigits_zero, Nat.mod_eq_of_lt hsmall,
        Nat.add_sub_cancel]
    · -- the last digit, after the digits of `n / 16` at one digit less
      have hdiv : n / 16 < 16 ^ (width + 1) := by
        rw [pow_succ] at h
        omega
      have hprev := ih (by omega) hdiv
      simp only [hexPadded, String.toList_append, String.toList_ofList, String.length_ofList] at hprev ⊢
      rw [Nat.toDigits_of_base_le (by decide) (by omega), List.length_append, List.length_singleton,
        hexDigits, ← hprev, List.append_assoc]
      congr 2
      omega

/-- Reading digits takes one more digit as sixteen times the number so far, plus its value. -/
theorem hexNumber_append (cs : List Char) (c : Char) :
    hexNumber (cs ++ [c]) = 16 * hexNumber cs + hexValue c := by
  simp [hexNumber, List.foldl_append]

/-- Digits read back as the number they were taken from, modulo the width. -/
theorem hexNumber_hexDigits (width n : Nat) : hexNumber (hexDigits width n) = n % 16 ^ width := by
  induction width generalizing n with
  | zero => simp [hexDigits, hexNumber, Nat.mod_one]
  | succ width ih =>
    rw [hexDigits, hexNumber_append, ih, (hexValue_digitChar (Nat.mod_lt n (by decide))).1,
      pow_succ', Nat.mod_mul]
    omega

section Digits

variable {cs : List Char}

/-- A run of hexadecimal digits has a value below `16 ^` its length. -/
theorem hexNumber_lt (h : ∀ c ∈ cs, c.isHexDigit) : hexNumber cs < 16 ^ cs.length := by
  induction cs using List.reverseRecOn with
  | nil => simp [hexNumber]
  | append_singleton cs c ih =>
    have hc := (digitChar_hexValue (h c (by simp))).1
    have hcs := ih fun d hd => h d (by simp [hd])
    rw [hexNumber_append, List.length_append, List.length_singleton, pow_succ]
    omega

/-- A run of hexadecimal digits is printed back, at its own width, in lowercase. -/
theorem hexDigits_hexNumber (h : ∀ c ∈ cs, c.isHexDigit) :
    hexDigits cs.length (hexNumber cs) = cs.map Char.toLower := by
  induction cs using List.reverseRecOn with
  | nil => rfl
  | append_singleton cs c ih =>
    obtain ⟨hlt, hdigit⟩ := digitChar_hexValue (h c (by simp))
    rw [List.length_append, List.length_singleton, hexDigits, hexNumber_append,
      show (16 * hexNumber cs + hexValue c) / 16 = hexNumber cs by omega,
      show (16 * hexNumber cs + hexValue c) % 16 = hexValue c by omega,
      ih fun d hd => h d (by simp [hd]), hdigit, List.map_append, List.map_singleton]

end Digits

/-! ### Bytes as digit pairs -/

/-- The two digits of a byte. -/
theorem hexDigits_two (n : Nat) :
    hexDigits 2 n = [Nat.digitChar (n / 16 % 16), Nat.digitChar (n % 16)] := by
  simp [hexDigits]

theorem hexBytes_append {cs : List Char} (ds : List Char) (h : Even cs.length) :
    hexBytes (cs ++ ds) = hexBytes cs ++ hexBytes ds := by
  fun_induction hexBytes cs with
  | case1 a b rest ih =>
    simp only [List.cons_append, hexBytes, List.length_cons] at h ⊢
    rw [ih (by simpa [Nat.even_add_one, parity_simps] using h)]
  | case2 cs hnot =>
    rcases cs with _ | ⟨a, _ | ⟨b, rest⟩⟩
    · rfl
    · simp at h
    · exact absurd rfl (hnot a b rest)

/-- The digit pairs of bytes read back as the bytes. -/
theorem hexBytes_flatMap (bs : List UInt8) :
    hexBytes (bs.flatMap fun b => hexDigits 2 b.toNat) = bs := by
  induction bs with
  | nil => rfl
  | cons b bs ih =>
    have hb := b.toNat_lt
    rw [List.flatMap_cons, hexDigits_two, List.cons_append, List.cons_append, List.nil_append,
      hexBytes, ih, (hexValue_digitChar (Nat.mod_lt _ (by decide))).1,
      (hexValue_digitChar (Nat.mod_lt _ (by decide))).1]
    congr 1
    rw [show 16 * (b.toNat / 16 % 16) + b.toNat % 16 = b.toNat by omega]
    exact UInt8.ofNat_toNat

/-- Bytes read from pairs of hexadecimal digits print back as the digits in lowercase. -/
theorem flatMap_hexBytes {cs : List Char} (h : ∀ c ∈ cs, c.isHexDigit) (he : Even cs.length) :
    (hexBytes cs).flatMap (fun b => hexDigits 2 b.toNat) = cs.map Char.toLower := by
  fun_induction hexBytes cs with
  | case1 a b rest ih =>
    obtain ⟨ha, hda⟩ := digitChar_hexValue (h a (by simp))
    obtain ⟨hb, hdb⟩ := digitChar_hexValue (h b (by simp))
    have hbyte : (16 * hexValue a + hexValue b).toUInt8.toNat = 16 * hexValue a + hexValue b := by
      simp only [Nat.toUInt8_eq, UInt8.toNat_ofNat']
      omega
    rw [List.flatMap_cons, hbyte, hexDigits_two, show (16 * hexValue a + hexValue b) / 16 % 16 = hexValue a by omega,
      show (16 * hexValue a + hexValue b) % 16 = hexValue b by omega, hda, hdb,
      ih (fun c hc => h c (by simp [hc])) (by simpa [Nat.even_add_one, parity_simps] using he)]
    rfl
  | case2 cs hnot =>
    rcases cs with _ | ⟨a, _ | ⟨b, rest⟩⟩
    · rfl
    · simp at he
    · exact absurd rfl (hnot a b rest)

theorem length_hexBytes (cs : List Char) : (hexBytes cs).length = cs.length / 2 := by
  fun_induction hexBytes cs with
  | case1 a b rest ih =>
    simp only [List.length_cons, ih]
    omega
  | case2 cs hnot =>
    rcases cs with _ | ⟨a, _ | ⟨b, rest⟩⟩
    · rfl
    · simp
    · exact absurd rfl (hnot a b rest)

/-! ### Little-endian fields -/

theorem leValue_lt (bs : List UInt8) : leValue bs < 256 ^ bs.length := by
  induction bs with
  | nil => simp [leValue]
  | cons b bs ih =>
    have hb := b.toNat_lt
    rw [leValue, List.foldr_cons, ← leValue, List.length_cons, pow_succ]
    omega

theorem leBytes_eq_littleEndian (n width : Nat) : leBytes n width = littleEndian n width :=
  Writer.leBytes_eq_littleEndian n width

@[simp] theorem length_littleEndian (n width : Nat) : (littleEndian n width).length = width := by
  induction width generalizing n with
  | zero => rfl
  | succ width ih => simp [littleEndian, ih]

/-- A field's bytes read back as its value, modulo the width. -/
theorem leValue_littleEndian (n width : Nat) : leValue (littleEndian n width) = n % 256 ^ width := by
  induction width generalizing n with
  | zero => simp [littleEndian, leValue, Nat.mod_one]
  | succ width ih =>
    rw [littleEndian, leValue, List.foldr_cons, ← leValue, ih, pow_succ', Nat.mod_mul]
    simp only [Nat.toUInt8_eq, UInt8.toNat_ofNat']
    omega

/-- Bytes are the field of their own value. -/
theorem littleEndian_leValue (bs : List UInt8) : littleEndian (leValue bs) bs.length = bs := by
  induction bs with
  | nil => rfl
  | cons b bs ih =>
    have hb := b.toNat_lt
    rw [List.length_cons, littleEndian, leValue, List.foldr_cons, ← leValue,
      show (b.toNat + 256 * leValue bs) / 256 = leValue bs by omega,
      show (b.toNat + 256 * leValue bs) % 256 = b.toNat by omega, ih]
    exact congrArg (· :: bs) UInt8.ofNat_toNat

/-! ### Identifiers from their fields -/

/-- Sixteen bytes are an identifier as they are. -/
theorem bytes_ofBytes {b : ByteArray} (h : b.size = 16) : (ofBytes b).bytes = b := by
  have hsame : (b.extract 0 16 ++ ⟨Array.replicate (16 - b.size) 0⟩) = b := by
    apply ByteArray.ext_toList
    rw [ByteArray.data_toList_append, ByteArray.data_toList_extract, h]
    simp [← h]
  unfold ofBytes
  dsimp only
  split
  · exact hsame
  · rename_i hne
    rw [hsame] at hne
    exact absurd h hne

/-- The bytes of the identifier with the given fields: the three fields little-endian, then
the eight bytes. -/
theorem ofFields_bytes (a b c : Nat) {d : ByteArray} (hd : d.size = 8) :
    (ofFields a b c d).bytes.data.toList =
      littleEndian a 4 ++ littleEndian b 2 ++ littleEndian c 2 ++ d.data.toList := by
  have hsize : (⟨(leBytes a 4 ++ leBytes b 2 ++ leBytes c 2 ++ d.toList).toArray⟩ : ByteArray).size = 16 := by
    show (leBytes a 4 ++ leBytes b 2 ++ leBytes c 2 ++ d.toList).toArray.size = 16
    simp [leBytes, ByteArray.toList_eq_data_toList, hd]
  rw [ofFields, bytes_ofBytes hsize]
  simp [leBytes_eq_littleEndian, ByteArray.toList_eq_data_toList]

/-! ### Printing -/

/-- The groups an identifier is printed as. -/
theorem display_toList (g : Guid) :
    (display g).toList = ['-'].intercalate
      [hexDigits 8 (leValue (g.bytes.data.toList.take 4)),
        hexDigits 4 (leValue ((g.bytes.data.toList.drop 4).take 2)),
        hexDigits 4 (leValue ((g.bytes.data.toList.drop 6).take 2)),
        (g.bytes.data.toList.drop 8).take 2 |>.flatMap fun b => hexDigits 2 b.toNat,
        g.bytes.data.toList.drop 10 |>.flatMap fun b => hexDigits 2 b.toNat] := by
  -- each field is below `256 ^` its width, so its printed form is its digits at that width
  have hfield : ∀ (bs : List UInt8) (w : Nat), 0 < w → bs.length ≤ w →
      (hexPadded (2 * w) (leValue bs)).toList = hexDigits (2 * w) (leValue bs) := by
    intro bs w hw hlen
    refine hexPadded_toList (by omega) (lt_of_lt_of_le (leValue_lt bs) ?_)
    rw [pow_mul]
    exact Nat.pow_le_pow_right (by decide) hlen
  have hbyte : ∀ x : UInt8, (hexPadded 2 x.toNat).toList = hexDigits 2 x.toNat := fun x =>
    hexPadded_toList (by decide) x.toNat_lt
  simp only [display, String.toList_append, toString, String.toList_join, List.flatMap_map,
    ByteArray.toList_eq_data_toList]
  rw [hfield _ 4 (by decide) (by simp), hfield _ 2 (by decide) (by simp),
    hfield _ 2 (by decide) (by simp)]
  simp only [hbyte]
  simp [List.intercalate]

/-! ### Parsing -/

/-- A piece of a list split at `x` holds no `x`. -/
theorem not_mem_of_mem_splitOn {α : Type} [BEq α] [LawfulBEq α] {x : α} :
    ∀ {xs l : List α}, l ∈ xs.splitOn x → x ∉ l
  | [], l, h => by
    rw [List.splitOn_nil, List.mem_singleton] at h
    rw [h]
    exact List.not_mem_nil
  | y :: ys, l, h => by
    rw [List.splitOn_cons_eq_if_modifyHead] at h
    split at h
    · rcases List.mem_cons.mp h with rfl | h
      · exact List.not_mem_nil
      · exact not_mem_of_mem_splitOn h
    · -- the first piece gains `y`, which is not `x`
      rename_i hy
      obtain ⟨p, ps, hps⟩ := List.exists_cons_of_ne_nil (List.splitOn_ne_nil x ys)
      rw [hps, List.modifyHead_cons] at h
      rcases List.mem_cons.mp h with rfl | h
      · have hp : x ∉ p := not_mem_of_mem_splitOn (hps ▸ List.mem_cons_self)
        rw [List.mem_cons, not_or]
        exact ⟨fun hxy => hy (by rw [hxy, beq_self_eq_true]), hp⟩
      · exact not_mem_of_mem_splitOn (hps ▸ List.mem_cons_of_mem p h)

/-- The characters the parser lets through: dashes and hexadecimal digits. -/
theorem textChar_eq (c : Char) :
    (decide (c = '-') || c.isDigit || (decide ('a' ≤ c) && decide (c ≤ 'f')) ||
      (decide ('A' ≤ c) && decide (c ≤ 'F'))) = (decide (c = '-') || c.isHexDigit) := by
  simp only [Char.isHexDigit, Bool.or_assoc]
  rfl

theorem mem_intercalate_five {c : Char} {g₀ g₁ g₂ g₃ g₄ : List Char}
    (h : c ∈ ['-'].intercalate [g₀, g₁, g₂, g₃, g₄]) :
    c = '-' ∨ ∃ g ∈ [g₀, g₁, g₂, g₃, g₄], c ∈ g := by
  simp only [List.intercalate, List.intersperse, List.flatten_cons, List.flatten_nil,
    List.append_nil, List.mem_append, List.mem_singleton] at h
  simp only [List.mem_cons, List.not_mem_nil, or_false, exists_eq_or_imp, exists_eq_left]
  tauto

/-- Parsing accepts exactly the texts of five groups, and builds the identifier from their
values: the first three as little-endian fields, the last two as bytes. -/
theorem parse_eq_ok_iff {text : String} {g : Guid} :
    parse text = .ok g ↔ ∃ g₀ g₁ g₂ g₃ g₄, GuidText text g₀ g₁ g₂ g₃ g₄ ∧
      g = ofFields (hexNumber g₀) (hexNumber g₁) (hexNumber g₂) ⟨(hexBytes (g₃ ++ g₄)).toArray⟩ := by
  constructor
  · intro h
    unfold parse at h
    simp only [textChar_eq] at h
    split at h
    · cases h
    rename_i hall
    split at h
    · rename_i g₀ g₁ g₂ g₃ g₄ hsplit
      split at h
      · rename_i hlen
        -- every character is a dash or a digit, and a group holds no dash
        have hchars : ∀ c ∈ text.toList, c ≠ '-' → c.isHexDigit := by
          simpa using hall
        refine ⟨g₀, g₁, g₂, g₃, g₄, ⟨?_, ?_, fun grp hg c hc => ?_⟩, (Except.ok.inj h).symm⟩
        · rw [← hsplit, List.intercalate_splitOn]
        · simp [hlen.1, hlen.2.1, hlen.2.2.1, hlen.2.2.2.1, hlen.2.2.2.2]
        · have hmem : c ∈ text.toList := by
            have hjoin : ['-'].intercalate (text.toList.splitOn '-') = text.toList :=
              List.intercalate_splitOn '-'
            rw [← hjoin, hsplit]
            simp only [List.intercalate, List.intersperse, List.flatten_cons, List.flatten_nil,
              List.append_nil, List.mem_append, List.mem_singleton]
            simp only [List.mem_cons, List.not_mem_nil, or_false] at hg
            rcases hg with rfl | rfl | rfl | rfl | rfl <;> simp [hc]
          have hdash : c ≠ '-' := fun hcd =>
            not_mem_of_mem_splitOn (hsplit ▸ hg) (hcd ▸ hc)
          exact hchars c hmem hdash
      · cases h
    · cases h
  · -- the identifier is rewritten, never substituted: that would unfold how it is built
    rintro ⟨g₀, g₁, g₂, g₃, g₄, ⟨htext, hlen, hhex⟩, hg⟩
    rw [hg]
    have hsplit : text.toList.splitOn '-' = [g₀, g₁, g₂, g₃, g₄] := by
      rw [htext]
      exact List.splitOn_intercalate '-' (fun grp hg hd => absurd rfl
        (ne_dash_of_isHexDigit (hhex grp hg '-' hd))) (by simp)
    have hall : (text.toList.all fun c => decide (c = '-') || c.isHexDigit) = true := by
      rw [List.all_eq_true]
      intro c hc
      rw [htext] at hc
      rcases mem_intercalate_five hc with rfl | ⟨grp, hg, hcg⟩
      · rfl
      · simp [hhex grp hg c hcg]
    simp only [List.map_cons, List.map_nil, List.cons.injEq] at hlen
    unfold parse
    simp only [textChar_eq, hall, Bool.not_true, Bool.false_eq_true, if_false, hsplit]
    rw [if_pos ⟨hlen.1, hlen.2.1, hlen.2.2.1, hlen.2.2.2.1, hlen.2.2.2.2.1⟩]

/-- The bytes of the identifier parsed from five groups: the values of the first three
groups as little-endian fields, then the bytes the last two groups spell. -/
theorem parsed_bytes {text : String} {g₀ g₁ g₂ g₃ g₄ : List Char}
    (h : GuidText text g₀ g₁ g₂ g₃ g₄) :
    (ofFields (hexNumber g₀) (hexNumber g₁) (hexNumber g₂) ⟨(hexBytes (g₃ ++ g₄)).toArray⟩).bytes.data.toList =
      littleEndian (hexNumber g₀) 4 ++ littleEndian (hexNumber g₁) 2 ++ littleEndian (hexNumber g₂) 2 ++
        hexBytes (g₃ ++ g₄) := by
  obtain ⟨-, hlen, -⟩ := h
  simp only [List.map_cons, List.map_nil, List.cons.injEq] at hlen
  refine ofFields_bytes _ _ _ ?_
  show (hexBytes (g₃ ++ g₄)).toArray.size = 8
  rw [List.size_toArray, length_hexBytes, List.length_append, hlen.2.2.2.1, hlen.2.2.2.2.1]

/-! ### Printing and parsing undo each other -/

/-- A field printed from its bytes at two digits a byte reads back as the bytes. -/
theorem field_of_bytes {bs : List UInt8} {w : Nat} (hlen : bs.length = w) :
    littleEndian (hexNumber (hexDigits (2 * w) (leValue bs))) w = bs := by
  have hlt : leValue bs < 16 ^ (2 * w) := by
    rw [pow_mul, ← hlen]
    exact leValue_lt bs
  rw [hexNumber_hexDigits, Nat.mod_eq_of_lt hlt, ← hlen, littleEndian_leValue]

/-- A group of `2 * w` digits read as a field of `w` bytes prints back in lowercase. -/
theorem field_of_digits {grp : List Char} {w : Nat} (hhex : ∀ c ∈ grp, c.isHexDigit)
    (hlen : grp.length = 2 * w) :
    hexDigits (2 * w) (leValue (littleEndian (hexNumber grp) w)) = grp.map Char.toLower := by
  have hlt : hexNumber grp < 256 ^ w := by
    rw [show (256 : Nat) = 16 ^ 2 by rfl, ← pow_mul, ← hlen]
    exact hexNumber_lt hhex
  rw [leValue_littleEndian, Nat.mod_eq_of_lt hlt, ← hlen, hexDigits_hexNumber hhex]

theorem ext_toList {a b : Guid} (h : a.bytes.data.toList = b.bytes.data.toList) : a = b :=
  ext_data (Array.ext' h)

/-- Sixteen bytes in the pieces the text form prints: four, three times two, and six. -/
theorem five_pieces {a b c d e : List UInt8} (ha : a.length = 4) (hb : b.length = 2)
    (hc : c.length = 2) (hd : d.length = 2) :
    (a ++ b ++ c ++ d ++ e).take 4 = a ∧ ((a ++ b ++ c ++ d ++ e).drop 4).take 2 = b ∧
      ((a ++ b ++ c ++ d ++ e).drop 6).take 2 = c ∧ ((a ++ b ++ c ++ d ++ e).drop 8).take 2 = d ∧
      (a ++ b ++ c ++ d ++ e).drop 10 = e := by
  simp [List.drop_append, ha, hb, hc, hd, List.drop_eq_nil_of_le]

/-- An identifier parses back from its printed form. -/
theorem parse_display (g : Guid) : parse (display g) = .ok g := by
  have hsize : g.bytes.data.toList.length = 16 := by
    rw [ByteArray.length_data_toList, g.size_eq]
  have hhex : ∀ (w n : Nat), ∀ c ∈ hexDigits w n, c.isHexDigit := fun _ _ _ =>
    isHexDigit_of_mem_hexDigits
  have hpairs : ∀ (bs : List UInt8), ∀ c ∈ bs.flatMap (fun b => hexDigits 2 b.toNat), c.isHexDigit := by
    intro bs c hc
    obtain ⟨b, -, hb⟩ := List.mem_flatMap.mp hc
    exact isHexDigit_of_mem_hexDigits hb
  have htext := display_toList g
  refine parse_eq_ok_iff.mpr ⟨_, _, _, _, _, ⟨htext, ?_, ?_⟩, ?_⟩
  · simp [hsize]
  · simp only [List.mem_cons, List.not_mem_nil, or_false]
    rintro grp (rfl | rfl | rfl | rfl | rfl)
    all_goals first | exact hhex _ _ | exact hpairs _
  · -- the fields read back as the bytes they were printed from
    apply ext_toList
    have hd : (⟨(hexBytes (((g.bytes.data.toList.drop 8).take 2).flatMap (fun b => hexDigits 2 b.toNat) ++
        (g.bytes.data.toList.drop 10).flatMap (fun b => hexDigits 2 b.toNat))).toArray⟩ : ByteArray).data.toList =
        (g.bytes.data.toList.drop 8).take 2 ++ g.bytes.data.toList.drop 10 := by
      show hexBytes _ = _
      rw [← List.flatMap_append, hexBytes_flatMap]
    rw [ofFields_bytes _ _ _ (by rw [← ByteArray.length_data_toList, hd]; simp [hsize]), hd,
      field_of_bytes (w := 4) (by simp [hsize]), field_of_bytes (w := 2) (by simp [hsize]),
      field_of_bytes (w := 2) (by simp [hsize])]
    -- the five pieces are consecutive and cover all sixteen bytes
    have hjoin : ∀ m n k, m + n = k → (g.bytes.data.toList.drop m).take n ++
        g.bytes.data.toList.drop k = g.bytes.data.toList.drop m := by
      intro m n k h
      rw [← h, ← List.drop_drop, List.take_append_drop]
    simp only [List.append_assoc]
    rw [hjoin 8 2 10 rfl, hjoin 6 2 8 rfl, hjoin 4 2 6 rfl, List.take_append_drop]

/-- A text that parses prints back as itself in lowercase. -/
theorem display_parse {text : String} {g : Guid} (h : parse text = .ok g) :
    display g = text.toLower := by
  obtain ⟨g₀, g₁, g₂, g₃, g₄, hgroups, hg⟩ := parse_eq_ok_iff.mp h
  rw [hg]
  have hparsed := parsed_bytes hgroups
  obtain ⟨htext, hlen, hhex⟩ := hgroups
  simp only [List.map_cons, List.map_nil, List.cons.injEq] at hlen
  obtain ⟨h₀, h₁, h₂, h₃, h₄, -⟩ := hlen
  have hex : ∀ {grp}, grp ∈ [g₀, g₁, g₂, g₃, g₄] → ∀ c ∈ grp, c.isHexDigit := hhex _
  have htail : hexBytes (g₃ ++ g₄) = hexBytes g₃ ++ hexBytes g₄ :=
    hexBytes_append g₄ (by rw [h₃]; decide)
  have hlen₃ : (hexBytes g₃).length = 2 := by rw [length_hexBytes, h₃]
  have hbytes : (ofFields (hexNumber g₀) (hexNumber g₁) (hexNumber g₂)
      ⟨(hexBytes (g₃ ++ g₄)).toArray⟩).bytes.data.toList =
      littleEndian (hexNumber g₀) 4 ++ littleEndian (hexNumber g₁) 2 ++
        littleEndian (hexNumber g₂) 2 ++ hexBytes g₃ ++ hexBytes g₄ := by
    rw [hparsed, htail, ← List.append_assoc]
  obtain ⟨p₀, p₁, p₂, p₃, p₄⟩ := five_pieces (length_littleEndian (hexNumber g₀) 4)
    (length_littleEndian (hexNumber g₁) 2) (length_littleEndian (hexNumber g₂) 2) hlen₃
    (e := hexBytes g₄)
  apply String.toList_inj.mp
  -- each printed group is the parsed group in lowercase
  rw [display_toList, hbytes, p₀, p₁, p₂, p₃, p₄, String.toLower, String.toList_map, htext,
    field_of_digits (w := 4) (hex (by simp)) (by rw [h₀]),
    field_of_digits (w := 2) (hex (by simp)) (by rw [h₁]),
    field_of_digits (w := 2) (hex (by simp)) (by rw [h₂]),
    flatMap_hexBytes (hex (by simp)) (by rw [h₃]; decide),
    flatMap_hexBytes (hex (by simp)) (by rw [h₄]; decide)]
  simp [List.intercalate, List.map_append]

/-- The text form is a bijection between identifiers and the texts of five groups. Parsing
accepts exactly the texts of five groups of 8, 4, 4, 4 and 12 hexadecimal digits of either
case joined by dashes, and gives the identifier whose first eight bytes are the values of
the first three groups, little-endian, and whose last eight bytes are spelled by the last
two groups, in order; every identifier parses back from its printed form; and every text
that parses prints back as itself in lowercase. -/
theorem text_form_bijective :
    (∀ (text : String) (g : Guid), parse text = .ok g ↔
      ∃ g₀ g₁ g₂ g₃ g₄, GuidText text g₀ g₁ g₂ g₃ g₄ ∧
        g.bytes.data.toList = littleEndian (hexNumber g₀) 4 ++ littleEndian (hexNumber g₁) 2 ++
          littleEndian (hexNumber g₂) 2 ++ hexBytes (g₃ ++ g₄)) ∧
    (∀ g : Guid, parse (display g) = .ok g) ∧
    ∀ (text : String) (g : Guid), parse text = .ok g → display g = text.toLower := by
  refine ⟨fun text g => ⟨fun h => ?_, fun h => ?_⟩, parse_display, fun _ _ => display_parse⟩
  · obtain ⟨g₀, g₁, g₂, g₃, g₄, hgroups, hg⟩ := parse_eq_ok_iff.mp h
    rw [hg]
    exact ⟨g₀, g₁, g₂, g₃, g₄, hgroups, parsed_bytes hgroups⟩
  · obtain ⟨g₀, g₁, g₂, g₃, g₄, hgroups, hbytes⟩ := h
    exact parse_eq_ok_iff.mpr
      ⟨g₀, g₁, g₂, g₃, g₄, hgroups, ext_toList (hbytes.trans (parsed_bytes hgroups).symm)⟩

end WireCodec.Guid
