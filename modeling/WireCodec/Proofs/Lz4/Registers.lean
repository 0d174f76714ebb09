import WireCodec.Lz4.Count

/-!
# Registers are compared byte by byte

A register is a little-endian word: bit `i` of the word of the bytes `f 0, f 1, …` is bit
`i % 8` of byte `i / 8` (`testBit_leNat`). The exclusive or of two registers therefore
has bit `i` set exactly where their bytes `i / 8` differ in bit `i % 8`. It is zero
exactly when every byte agrees (`xor_eq_zero_iff_agree`), and otherwise its lowest set
bit lies in the first byte that differs, so that `trailingZeros` of it, over eight, is
that byte's index (`trailingZeros_xor_div_eight`). The registers the counters read and
the pattern they widen are such words (`toNat_readReg`, `toNat_spreadPattern`).
-/

namespace WireCodec.Lz4

/-- The `n` bytes `f 0, f 1, …` as a little-endian number. -/
def leNat (f : Nat → UInt8) : Nat → Nat
  | 0 => 0
  | n + 1 => (f 0).toNat + 256 * leNat (fun j => f (j + 1)) n

section LittleEndian

theorem leNat_lt (f : Nat → UInt8) (n : Nat) : leNat f n < Nat.pow 256 n := by
  induction n generalizing f with
  | zero => exact Nat.zero_lt_one
  | succ n ih =>
    have hbyte := (f 0).toNat_lt
    have hrest := ih (fun j => f (j + 1))
    show (f 0).toNat + 256 * leNat (fun j => f (j + 1)) n < Nat.pow 256 n * 256
    omega

/-- Two little-endian numbers of `n` bytes are equal exactly when their bytes are. -/
theorem leNat_inj {f g : Nat → UInt8} {n : Nat} :
    leNat f n = leNat g n ↔ ∀ j < n, f j = g j := by
  induction n generalizing f g with
  | zero => exact ⟨fun _ j hj => absurd hj (Nat.not_lt_zero _), fun _ => rfl⟩
  | succ n ih =>
    have hf := (f 0).toNat_lt
    have hg := (g 0).toNat_lt
    rw [leNat, leNat]
    constructor
    · intro h j hj
      -- the low byte and the rest are the quotient and the remainder by 256
      have hlow : (f 0).toNat = (g 0).toNat := by omega
      have hrest := ih.mp (by omega : leNat (fun j => f (j + 1)) n = leNat (fun j => g (j + 1)) n)
      cases j with
      | zero => exact UInt8.toNat_inj.mp hlow
      | succ j => exact hrest j (by omega)
    · intro h
      rw [h 0 (Nat.zero_lt_succ _), ih.mpr (fun j hj => h (j + 1) (by omega))]

/-- Bit `i` of a little-endian number is bit `i % 8` of its byte `i / 8`. -/
theorem testBit_leNat (f : Nat → UInt8) (n i : Nat) :
    (leNat f n).testBit i = (decide (i < 8 * n) && (f (i / 8)).toNat.testBit (i % 8)) := by
  induction n generalizing f i with
  | zero => simp [leNat]
  | succ n ih =>
    have hbyte : (f 0).toNat < 2 ^ 8 := (f 0).toNat_lt
    rw [leNat, Nat.add_comm, show (256 : Nat) = 2 ^ 8 from rfl,
      Nat.testBit_two_pow_mul_add _ hbyte]
    by_cases hi : i < 8
    · rw [if_pos hi, Nat.div_eq_of_lt hi, Nat.mod_eq_of_lt hi,
        decide_eq_true (show i < 8 * (n + 1) by omega), Bool.true_and]
    · rw [if_neg hi, ih, show (i - 8) / 8 + 1 = i / 8 by omega,
        show (i - 8) % 8 = i % 8 by omega]
      congr 1
      exact decide_eq_decide.mpr (by omega)

theorem testBit_xor_leNat (f g : Nat → UInt8) (n i : Nat) :
    (leNat f n ^^^ leNat g n).testBit i =
      (decide (i < 8 * n) && (f (i / 8) ^^^ g (i / 8)).toNat.testBit (i % 8)) := by
  rw [Nat.testBit_xor, testBit_leNat, testBit_leNat, UInt8.toNat_xor, Nat.testBit_xor]
  cases decide (i < 8 * n) <;> rfl

/-- The first of `r` positions where two byte functions differ, if they differ at one. -/
theorem exists_first_ne {f g : Nat → UInt8} {r : Nat} (h : ¬ ∀ j < r, f j = g j) :
    ∃ d < r, (∀ j < d, f j = g j) ∧ f d ≠ g d := by
  induction r with
  | zero => exact absurd (fun j hj => absurd hj (Nat.not_lt_zero j)) h
  | succ r ih =>
    by_cases hall : ∀ j < r, f j = g j
    · -- all agree below `r`, so `r` is where they differ
      refine ⟨r, Nat.lt_succ_self r, hall, fun heq => h fun j hj => ?_⟩
      rcases Nat.lt_succ_iff_lt_or_eq.mp hj with hlt | rfl
      · exact hall j hlt
      · exact heq
    · obtain ⟨d, hd, hagree, hne⟩ := ih hall
      exact ⟨d, Nat.lt_succ_of_lt hd, hagree, hne⟩

end LittleEndian

section Registers

variable {x y : UInt64} {f g : Nat → UInt8} {r : Nat}

/-- Two registers have a zero difference exactly when their bytes agree. -/
theorem xor_eq_zero_iff_agree (hx : x.toNat = leNat f r) (hy : y.toNat = leNat g r) :
    x ^^^ y = 0 ↔ ∀ j < r, f j = g j := by
  rw [UInt64.xor_eq_zero_iff, ← UInt64.toNat_inj, hx, hy, leNat_inj]

/-- Where two registers differ, the lowest set bit of their difference lies in their first
differing byte. -/
theorem trailingZeros_xor_div_eight (hx : x.toNat = leNat f r) (hy : y.toNat = leNat g r)
    {d : Nat} (hd : d < r) (hagree : ∀ j < d, f j = g j) (hne : f d ≠ g d) :
    trailingZeros (x ^^^ y) / 8 = d := by
  -- bit `i` of the difference is bit `i % 8` of the difference of bytes `i / 8`
  have hbit : ∀ i, (x ^^^ y).toBitVec.getLsbD i =
      (decide (i < 8 * r) && (f (i / 8) ^^^ g (i / 8)).toNat.testBit (i % 8)) := by
    intro i
    rw [← BitVec.testBit_toNat, UInt64.toNat_toBitVec, UInt64.toNat_xor, hx, hy,
      testBit_xor_leNat]
  -- the differing byte has a set bit, one of its eight
  have hbyte : (f d ^^^ g d).toNat ≠ 0 := fun h =>
    hne (UInt8.xor_eq_zero_iff.mp (UInt8.toNat_inj.mp (by rw [h]; rfl)))
  obtain ⟨k, hk⟩ := Nat.exists_testBit_of_ne_zero hbyte
  have hk8 : k < 8 := by
    refine Nat.lt_of_not_le fun h8 => ?_
    have hsmall : (f d ^^^ g d).toNat < 2 ^ k :=
      Nat.lt_of_lt_of_le (f d ^^^ g d).toNat_lt (Nat.pow_le_pow_right (by decide) h8)
    rw [Nat.testBit_lt_two_pow hsmall] at hk
    exact Bool.false_ne_true hk
  have hset : (x ^^^ y).toBitVec.getLsbD (8 * d + k) = true := by
    rw [hbit, show (8 * d + k) / 8 = d by omega, show (8 * d + k) % 8 = k by omega, hk,
      decide_eq_true (show 8 * d + k < 8 * r by omega)]
    rfl
  -- below the differing byte every bit of the difference is clear
  have hclear : ∀ i < 8 * d, (x ^^^ y).toBitVec.getLsbD i = false := by
    intro i hi
    rw [hbit, hagree (i / 8) (by omega), UInt8.xor_self, UInt8.toNat_zero, Nat.zero_testBit,
      Bool.and_false]
  have hnz : (x ^^^ y).toBitVec ≠ 0#64 := fun h => by
    rw [h, BitVec.getLsbD_zero] at hset
    exact Bool.false_ne_true hset
  have hlo : 8 * d ≤ trailingZeros (x ^^^ y) := by
    refine Nat.le_of_not_lt fun hlt => ?_
    have htrue : (x ^^^ y).toBitVec.getLsbD (trailingZeros (x ^^^ y)) = true :=
      BitVec.getLsbD_true_ctz_of_ne_zero hnz
    rw [hclear _ hlt] at htrue
    exact Bool.false_ne_true htrue
  have hhi : trailingZeros (x ^^^ y) ≤ 8 * d + k := by
    refine Nat.le_of_not_lt fun hlt => ?_
    have hfalse := BitVec.getLsbD_false_of_lt_ctz
      (show 8 * d + k < (x ^^^ y).toBitVec.ctz.toNat from hlt)
    rw [hset] at hfalse
    exact Bool.noConfusion hfalse
  omega

end Registers

section Reads

/-- The four bytes of a word, little-endian. -/
theorem toNat_readU32 (src : ByteArray) (pos : Nat) :
    (readU32 src pos).toNat = (src.get! pos).toNat + (src.get! (pos + 1)).toNat * 256 +
      (src.get! (pos + 2)).toNat * 65536 + (src.get! (pos + 3)).toNat * 16777216 := by
  have h₀ := (src.get! pos).toNat_lt
  have h₁ := (src.get! (pos + 1)).toNat_lt
  have h₂ := (src.get! (pos + 2)).toNat_lt
  have h₃ := (src.get! (pos + 3)).toNat_lt
  -- each shifted byte stays below the word's width, so the shifts do not wrap
  have hshift : ∀ (x : UInt8) (k : UInt32), k.toNat < 32 → x.toNat <<< k.toNat < 4294967296 →
      (x.toUInt32 <<< k).toNat = x.toNat <<< k.toNat := by
    intro x k hk hlt
    rw [UInt32.toNat_shiftLeft, UInt8.toNat_toUInt32, Nat.mod_eq_of_lt hk]
    exact Nat.mod_eq_of_lt hlt
  -- and the four bytes occupy disjoint bits, so `|||` adds them
  have hor : ∀ x y k : Nat, x < 1 <<< k → x ||| y <<< k = x + y <<< k := by
    intro x y k hx
    rw [Nat.one_shiftLeft] at hx
    rw [Nat.or_comm, ← Nat.shiftLeft_add_eq_or_of_lt hx, Nat.add_comm]
  unfold readU32
  rw [UInt32.toNat_or, UInt32.toNat_or, UInt32.toNat_or, UInt8.toNat_toUInt32,
    hshift _ 8 (by decide) (by simp only [UInt32.reduceToNat, Nat.shiftLeft_eq]; omega),
    hshift _ 16 (by decide) (by simp only [UInt32.reduceToNat, Nat.shiftLeft_eq]; omega),
    hshift _ 24 (by decide) (by simp only [UInt32.reduceToNat, Nat.shiftLeft_eq]; omega)]
  simp only [UInt32.reduceToNat]
  rw [hor _ _ 8 (by simp only [Nat.shiftLeft_eq]; omega),
    hor _ _ 16 (by simp only [Nat.shiftLeft_eq]; omega),
    hor _ _ 24 (by simp only [Nat.shiftLeft_eq]; omega)]
  simp only [Nat.shiftLeft_eq, Nat.reducePow]

theorem leWord_eq_leNat (src : ByteArray) (pos n : Nat) :
    leWord src pos n = leNat (fun j => src.get! (pos + j)) n := by
  induction n generalizing pos with
  | zero => rfl
  | succ n ih =>
    rw [leWord, leNat, ih]
    simp only [Nat.add_zero, Nat.add_assoc, Nat.add_comm 1]

/-- A register is the little-endian number of its bytes. -/
theorem toNat_readReg (w : AddressWidth) (src : ByteArray) (pos : Nat) :
    (w.readReg src pos).toNat = leNat (fun j => src.get! (pos + j)) w.registerBytes := by
  cases w with
  | bits32 =>
    rw [AddressWidth.readReg, UInt32.toNat_toUInt64, toNat_readU32]
    simp only [AddressWidth.registerBytes, leNat, Nat.add_zero, Nat.zero_add, Nat.reduceAdd]
    omega
  | bits64 =>
    have hlt := leNat_lt (fun j => src.get! (pos + j)) 8
    rw [AddressWidth.readReg, Nat.toUInt64_eq, UInt64.toNat_ofNat', leWord_eq_leNat]
    exact Nat.mod_eq_of_lt (Nat.lt_of_lt_of_eq hlt (by rfl))

/-- Byte `k` of the pattern's repetition is byte `k mod 4` of its little-endian form. -/
theorem toNat_patternByte (p : UInt32) (k : Nat) :
    (patternByte p k).toNat = p.toNat / Nat.pow 256 (k % 4) % 256 := by
  have hk : k % 4 < 4 := Nat.mod_lt _ (by decide)
  unfold patternByte
  generalize k % 4 = m at hk ⊢
  rw [UInt32.toNat_toUInt8, UInt32.toNat_shiftRight, Nat.shiftRight_eq_div_pow]
  match m, hk with
  | 0, _ => rfl
  | 1, _ => rfl
  | 2, _ => rfl
  | 3, _ => rfl

/-- The widened pattern is the little-endian number of the pattern's repetition. -/
theorem toNat_spreadPattern (w : AddressWidth) (p : UInt32) :
    (w.spreadPattern p).toNat = leNat (patternByte p) w.registerBytes := by
  have hp := p.toNat_lt
  have hpow₀ : Nat.pow 256 0 = 1 := rfl
  have hpow₁ : Nat.pow 256 1 = 256 := rfl
  have hpow₂ : Nat.pow 256 2 = 65536 := rfl
  have hpow₃ : Nat.pow 256 3 = 16777216 := rfl
  cases w with
  | bits32 =>
    rw [AddressWidth.spreadPattern, UInt32.toNat_toUInt64]
    simp only [AddressWidth.registerBytes, leNat, toNat_patternByte]
    simp only [Nat.zero_add, Nat.reduceAdd, Nat.reduceMod, hpow₀, hpow₁, hpow₂, hpow₃,
      Nat.div_one]
    omega
  | bits64 =>
    -- the two copies occupy disjoint halves of the register
    have hhigh : (p.toUInt64 <<< 32).toNat = p.toNat * 4294967296 := by
      rw [UInt64.toNat_shiftLeft, UInt32.toNat_toUInt64]
      simp only [UInt64.reduceToNat, Nat.reduceMod, Nat.shiftLeft_eq, Nat.reducePow]
      omega
    have hor : p.toNat ||| p.toNat * 4294967296 = p.toNat + p.toNat * 4294967296 := by
      rw [show (4294967296 : Nat) = 2 ^ 32 from rfl, ← Nat.shiftLeft_eq, Nat.or_comm,
        ← Nat.shiftLeft_add_eq_or_of_lt hp, Nat.add_comm]
    rw [AddressWidth.spreadPattern, UInt64.toNat_or, UInt32.toNat_toUInt64, hhigh, hor]
    simp only [AddressWidth.registerBytes, leNat, toNat_patternByte]
    simp only [Nat.zero_add, Nat.reduceAdd, Nat.reduceMod, hpow₀, hpow₁, hpow₂, hpow₃,
      Nat.div_one]
    omega

end Reads

end WireCodec.Lz4
