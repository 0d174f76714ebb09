import WireCodec.Proofs.Lz4.Registers
import WireCodec.Proofs.Bytes

/-!
# What the match counters count

The encoders accept a match only on bytes they have compared. This module says what the
comparisons establish. The register loops count what the byte loops count: a register
with a zero difference agrees in all its bytes, and a nonzero difference stops the count
at the first byte that differs (`matchCount_eq_tailCount`,
`patternCount_eq_tailPatternCount`). So the forward counter returns a number of agreeing
bytes that stays inside its limit (`agree_matchCount`, `matchCount_le`), whatever the
register width, and `readU32` equality is agreement of four bytes (`agree_of_readU32`).
-/

namespace WireCodec.Lz4

/-- The `n` bytes of `src` from `a` equal the `n` bytes from `b`. -/
def Agree (src : ByteArray) (a b n : Nat) : Prop :=
  ∀ j < n, src.get! (a + j) = src.get! (b + j)

section Agree

variable {src : ByteArray} {a b m n : Nat}

theorem Agree.mono (h : Agree src a b n) (hmn : m ≤ n) : Agree src a b m :=
  fun j hj => h j (by omega)

theorem Agree.symm (h : Agree src a b n) : Agree src b a n :=
  fun j hj => (h j hj).symm

theorem Agree.append (h₁ : Agree src a b m) (h₂ : Agree src (a + m) (b + m) n) :
    Agree src a b (m + n) := by
  intro j hj
  by_cases hjm : j < m
  · exact h₁ j hjm
  · have := h₂ (j - m) (by omega)
    rwa [Nat.add_assoc, Nat.add_sub_cancel' (by omega), Nat.add_assoc,
      Nat.add_sub_cancel' (by omega)] at this

end Agree

section Forward

theorem tailCount_le {src : ByteArray} {ip matched limit : Nat} (h : ip ≤ limit) :
    ip + tailCount src ip matched limit ≤ limit := by
  fun_induction tailCount src ip matched limit with
  | case1 ip matched hc ih =>
    have := ih (by omega)
    omega
  | case2 => omega

theorem agree_tailCount (src : ByteArray) (ip matched limit : Nat) :
    Agree src ip matched (tailCount src ip matched limit) := by
  fun_induction tailCount src ip matched limit with
  | case1 ip matched hc ih =>
    rw [Nat.add_comm]
    refine Agree.append (fun j hj => ?_) ?_
    · rw [show j = 0 by omega]
      exact hc.2
    · simpa [Nat.add_comm 1] using ih
  | case2 => exact fun j hj => absurd hj (Nat.not_lt_zero _)

/-- Agreeing bytes before the limit are counted one by one. -/
theorem tailCount_of_agree {src : ByteArray} {ip matched limit n : Nat} (hn : ip + n ≤ limit)
    (h : Agree src ip matched n) :
    tailCount src ip matched limit = tailCount src (ip + n) (matched + n) limit + n := by
  induction n generalizing ip matched with
  | zero => rfl
  | succ n ih =>
    have hfirst : src.get! ip = src.get! matched := by simpa using h 0 (by omega)
    have hrest : Agree src (ip + 1) (matched + 1) n := fun j hj => by
      simpa [Nat.add_assoc, Nat.add_comm 1] using h (j + 1) (by omega)
    rw [tailCount, if_pos ⟨by omega, hfirst⟩, ih (by omega) hrest,
      show ip + 1 + n = ip + (n + 1) by omega, show matched + 1 + n = matched + (n + 1) by omega]
    omega

/-- A differing byte stops the count. -/
theorem tailCount_of_ne {src : ByteArray} {ip matched limit : Nat}
    (hne : src.get! ip ≠ src.get! matched) : tailCount src ip matched limit = 0 := by
  rw [tailCount, if_neg (fun h => hne h.2)]

/-- Counting a register at a time counts the bytes one by one. -/
theorem matchCount_eq_tailCount (w : AddressWidth) (src : ByteArray) (ip matched limit : Nat) :
    matchCount w src ip matched limit = tailCount src ip matched limit := by
  fun_induction matchCount w src ip matched limit with
  | case1 ip matched hfit diff hzero ih =>
    -- a zero difference: the whole register agreed
    have hagree := (xor_eq_zero_iff_agree (toNat_readReg w src ip)
      (toNat_readReg w src matched)).mp hzero
    rw [ih, tailCount_of_agree hfit hagree]
  | case2 ip matched hfit diff hne =>
    -- the count stops inside the register, at its first differing byte
    obtain ⟨d, hd, hagree, hdiff⟩ := exists_first_ne (mt (xor_eq_zero_iff_agree
      (toNat_readReg w src ip) (toNat_readReg w src matched)).mpr hne)
    rw [trailingZeros_xor_div_eight (toNat_readReg w src ip) (toNat_readReg w src matched) hd
      hagree hdiff, @tailCount_of_agree src ip matched limit d (by omega) hagree,
      tailCount_of_ne hdiff, Nat.zero_add]
  | case3 => rfl

/-- The forward counter never passes its limit. -/
theorem matchCount_le (w : AddressWidth) (src : ByteArray) {ip matched limit : Nat}
    (h : ip ≤ limit) : ip + matchCount w src ip matched limit ≤ limit := by
  rw [matchCount_eq_tailCount]
  exact tailCount_le h

/-- The bytes the forward counter counts agree. -/
theorem agree_matchCount (w : AddressWidth) (src : ByteArray) (ip matched limit : Nat) :
    Agree src ip matched (matchCount w src ip matched limit) := by
  rw [matchCount_eq_tailCount]
  exact agree_tailCount src ip matched limit

end Forward

section Pattern

/-- Bytes from `ip` up to `limit` that continue the pattern from phase `phase`, one at a
time. -/
def tailPatternCount (src : ByteArray) (ip limit : Nat) (pattern : UInt32) (phase : Nat) : Nat :=
  if ip < limit ∧ src.get! ip = patternByte pattern phase then
    tailPatternCount src (ip + 1) limit pattern (phase + 1) + 1
  else 0
termination_by limit - ip

theorem patternByte_mod (pattern : UInt32) (k : Nat) :
    patternByte pattern (k % 4) = patternByte pattern k := by
  simp [patternByte]

/-- The pattern count depends on the phase only modulo four. -/
theorem tailPatternCount_phase {src : ByteArray} {limit : Nat} {pattern : UInt32} {ip phase phase' : Nat}
    (h : phase % 4 = phase' % 4) :
    tailPatternCount src ip limit pattern phase = tailPatternCount src ip limit pattern phase' := by
  fun_induction tailPatternCount src ip limit pattern phase generalizing phase' with
  | case1 ip phase hc ih =>
    have hc' : ip < limit ∧ src.get! ip = patternByte pattern phase' := by
      rw [← patternByte_mod, ← h, patternByte_mod]
      exact hc
    conv => rhs; rw [tailPatternCount, if_pos hc']
    rw [@ih (phase' + 1) (by omega)]
  | case2 ip phase hc =>
    have hc' : ¬ (ip < limit ∧ src.get! ip = patternByte pattern phase') := by
      rw [← patternByte_mod, ← h, patternByte_mod]
      exact hc
    conv => rhs; rw [tailPatternCount, if_neg hc']

/-- Bytes before the limit that continue the pattern are counted one by one. -/
theorem tailPatternCount_of_agree {src : ByteArray} {ip limit : Nat} {pattern : UInt32}
    {phase n : Nat} (hn : ip + n ≤ limit)
    (h : ∀ j < n, src.get! (ip + j) = patternByte pattern (phase + j)) :
    tailPatternCount src ip limit pattern phase =
      tailPatternCount src (ip + n) limit pattern (phase + n) + n := by
  induction n generalizing ip phase with
  | zero => rfl
  | succ n ih =>
    have hfirst : src.get! ip = patternByte pattern phase := by simpa using h 0 (by omega)
    have hrest : ∀ j < n, src.get! (ip + 1 + j) = patternByte pattern (phase + 1 + j) :=
      fun j hj => by simpa [Nat.add_assoc, Nat.add_comm 1] using h (j + 1) (by omega)
    rw [tailPatternCount, if_pos ⟨by omega, hfirst⟩, ih (by omega) hrest,
      show ip + 1 + n = ip + (n + 1) by omega, show phase + 1 + n = phase + (n + 1) by omega]
    omega

/-- The low byte of a little-endian number is its first byte. -/
theorem toUInt8_of_toNat_leNat {reg : UInt64} {f : Nat → UInt8} {m : Nat}
    (h : reg.toNat = leNat f (m + 1)) : reg.toUInt8 = f 0 := by
  have hbyte := (f 0).toNat_lt
  apply UInt8.toNat_inj.mp
  rw [UInt64.toNat_toUInt8, h, leNat]
  omega

/-- Shifting a little-endian number down a byte drops its first byte. -/
theorem toNat_shiftRight_eight_of_leNat {reg : UInt64} {f : Nat → UInt8} {m : Nat}
    (h : reg.toNat = leNat f (m + 1)) : (reg >>> 8).toNat = leNat (fun j => f (j + 1)) m := by
  have hbyte := (f 0).toNat_lt
  rw [UInt64.toNat_shiftRight, h, leNat]
  simp only [UInt64.reduceToNat, Nat.reduceMod, Nat.shiftRight_eq_div_pow, Nat.reducePow]
  omega

/-- The tail of the pattern counter compares the bytes with the successive low bytes of the
widened pattern: while they last, that is the byte-by-byte count. -/
theorem tailRegCount_eq_tailPatternCount {src : ByteArray} {limit : Nat} {p : UInt32}
    {ip phase m : Nat} {reg : UInt64}
    (hreg : reg.toNat = leNat (fun j => patternByte p (phase + j)) m) (hlim : limit ≤ ip + m) :
    tailRegCount src ip limit reg = tailPatternCount src ip limit p phase := by
  fun_induction tailRegCount src ip limit reg generalizing phase m with
  | case1 ip reg hc ih =>
    obtain ⟨m, rfl⟩ : ∃ m', m = m' + 1 := ⟨m - 1, by omega⟩
    have hlow := toUInt8_of_toNat_leNat hreg
    have hnext := toNat_shiftRight_eight_of_leNat hreg
    rw [Nat.add_zero] at hlow
    have hnext' : (reg >>> 8).toNat = leNat (fun j => patternByte p (phase + 1 + j)) m := by
      simpa [Nat.add_assoc, Nat.add_comm 1] using hnext
    rw [tailPatternCount, if_pos ⟨hc.1, hc.2.trans hlow⟩, ih hnext' (by omega)]
  | case2 ip reg hc =>
    rw [tailPatternCount, if_neg]
    rintro ⟨hlt, heq⟩
    obtain ⟨m, rfl⟩ : ∃ m', m = m' + 1 := ⟨m - 1, by omega⟩
    have hlow := toUInt8_of_toNat_leNat hreg
    rw [Nat.add_zero] at hlow
    exact hc ⟨hlt, heq.trans hlow.symm⟩

/-- Counting a register at a time counts the bytes one by one: registers hold a whole number
of pattern periods, so each starts in the pattern's first phase. -/
theorem patternCount_eq_tailPatternCount (w : AddressWidth) (src : ByteArray) (ip limit : Nat)
    (pattern : UInt32) :
    patternCount w src ip limit pattern = tailPatternCount src ip limit pattern 0 := by
  have hphase : w.registerBytes % 4 = 0 := by cases w <;> rfl
  fun_induction patternCount w src ip limit pattern with
  | case1 ip hfit diff hzero ih =>
    -- a zero difference: the whole register continued the pattern
    have hagree := (xor_eq_zero_iff_agree (toNat_readReg w src ip)
      (toNat_spreadPattern w pattern)).mp hzero
    rw [ih, @tailPatternCount_of_agree src ip limit pattern 0 w.registerBytes hfit
      (fun j hj => by rw [Nat.zero_add]; exact hagree j hj),
      tailPatternCount_phase (show 0 % 4 = (0 + w.registerBytes) % 4 by omega)]
  | case2 ip hfit diff hne =>
    obtain ⟨d, hd, hagree, hdiff⟩ := exists_first_ne (mt (xor_eq_zero_iff_agree
      (toNat_readReg w src ip) (toNat_spreadPattern w pattern)).mpr hne)
    rw [trailingZeros_xor_div_eight (toNat_readReg w src ip) (toNat_spreadPattern w pattern) hd
      hagree hdiff, @tailPatternCount_of_agree src ip limit pattern 0 d (by omega)
      (fun j hj => by rw [Nat.zero_add]; exact hagree j hj), tailPatternCount,
      if_neg (fun h => hdiff (by rw [Nat.zero_add] at h; exact h.2)), Nat.zero_add]
  | case3 ip hfit =>
    exact @tailRegCount_eq_tailPatternCount src limit pattern ip 0 w.registerBytes _
      (by rw [toNat_spreadPattern]; simp only [Nat.zero_add]) (by omega)

end Pattern

section Word

/-- Equal words are four agreeing bytes. -/
theorem agree_of_readU32 {src : ByteArray} {a b : Nat} (h : readU32 src a = readU32 src b) :
    Agree src a b 4 := by
  have hn := congrArg UInt32.toNat h
  rw [toNat_readU32, toNat_readU32] at hn
  have ha₀ := (src.get! a).toNat_lt
  have ha₁ := (src.get! (a + 1)).toNat_lt
  have ha₂ := (src.get! (a + 2)).toNat_lt
  have ha₃ := (src.get! (a + 3)).toNat_lt
  have hb₀ := (src.get! b).toNat_lt
  have hb₁ := (src.get! (b + 1)).toNat_lt
  have hb₂ := (src.get! (b + 2)).toNat_lt
  have hb₃ := (src.get! (b + 3)).toNat_lt
  intro j hj
  apply UInt8.toNat_inj.mp
  match j, hj with
  | 0, _ => simp only [Nat.add_zero]; omega
  | 1, _ => omega
  | 2, _ => omega
  | 3, _ => omega

end Word

end WireCodec.Lz4
