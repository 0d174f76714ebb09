import Mathlib
import WireCodec.Proofs.Lz4.Widths

/-!
# The counters return longest agreeing prefixes

The match finders count with three loops that read a register or a word at a time, the
register being four or eight bytes by the address width. What each returns is a plain
byte-wise length (`counters_count_prefixes`):

* the forward counter, the length of the longest common prefix of the bytes in `[ip, limit)`
  and the bytes from `matched`;
* the pattern counter, how many leading bytes of `[ip, limit)` follow the repetition of the
  four little-endian bytes of the pattern;
* the backward counter, how many bytes before `ip`, down to `low`, follow the pattern read
  backwards from its last byte.

Each is the greatest length up to its bound on which all bytes agree, which is what a
length does that agrees so far and stops at its bound or at a disagreeing byte
(`isGreatest_of_stop`). The forward counters of both widths are the byte loops
(`matchCount_eq_tailCount`, `patternCount_eq_tailPatternCount`), which stop so. The
backward counter stops its words at a word that differs from the pattern and its bytes at
most four later; it cannot use all four, since four agreeing bytes make an agreeing word
(`readU32_eq_iff`), so it stops at a disagreeing byte too.
-/

namespace WireCodec.Lz4

/-- A length up to `bound` below which every position agrees, and which is the bound or
a disagreeing position, is the longest such length. -/
theorem isGreatest_of_stop {agree : Nat → Prop} {bound n : Nat} (hle : n ≤ bound)
    (hagree : ∀ i < n, agree i) (hstop : n = bound ∨ ¬ agree n) :
    IsGreatest {j | j ≤ bound ∧ ∀ i < j, agree i} n := by
  refine ⟨⟨hle, hagree⟩, fun j hj => ?_⟩
  obtain ⟨hjb, hj⟩ := hj
  by_contra hlt
  rcases hstop with rfl | hne
  · omega
  · exact hne (hj n (by omega))

section Bytes

/-- A word equals the pattern exactly when its four bytes are the pattern's bytes. -/
theorem readU32_eq_iff (src : ByteArray) (pos : Nat) (p : UInt32) :
    readU32 src pos = p ↔ ∀ k < 4, src.get! (pos + k) = patternByte p k := by
  have hp := p.toNat_lt
  have h₀ := (src.get! pos).toNat_lt
  have h₁ := (src.get! (pos + 1)).toNat_lt
  have h₂ := (src.get! (pos + 2)).toNat_lt
  have h₃ := (src.get! (pos + 3)).toNat_lt
  -- byte `k` of the pattern is its `k`-th base-256 digit
  have hbyte : ∀ k < 4, (src.get! (pos + k) = patternByte p k ↔
      (src.get! (pos + k)).toNat = p.toNat / Nat.pow 256 k % 256) := fun k hk => by
    have hdigit := toNat_patternByte p k
    rw [Nat.mod_eq_of_lt hk] at hdigit
    rw [← hdigit, UInt8.toNat_inj]
  have hpow : Nat.pow 256 0 = 1 ∧ Nat.pow 256 1 = 256 ∧ Nat.pow 256 2 = 65536 ∧
      Nat.pow 256 3 = 16777216 := ⟨rfl, rfl, rfl, rfl⟩
  rw [← UInt32.toNat_inj, toNat_readU32]
  constructor
  · intro h k hk
    rw [hbyte k hk]
    interval_cases k <;> simp only [Nat.add_zero, hpow] <;> omega
  · intro h
    have e₀ := (hbyte 0 (by decide)).mp (h 0 (by decide))
    have e₁ := (hbyte 1 (by decide)).mp (h 1 (by decide))
    have e₂ := (hbyte 2 (by decide)).mp (h 2 (by decide))
    have e₃ := (hbyte 3 (by decide)).mp (h 3 (by decide))
    simp only [Nat.add_zero, hpow] at e₀ e₁ e₂ e₃
    omega

end Bytes

section Forward

variable {src : ByteArray} {limit : Nat}

/-- The byte loop stops at its limit or at a differing byte. -/
theorem tailCount_stop {ip matched : Nat} (h : ip ≤ limit) :
    ip + tailCount src ip matched limit = limit ∨
      src.get! (ip + tailCount src ip matched limit) ≠
        src.get! (matched + tailCount src ip matched limit) := by
  fun_induction tailCount src ip matched limit with
  | case1 ip matched hc ih =>
    generalize tailCount src (ip + 1) (matched + 1) limit = t at ih ⊢
    rw [show ip + (t + 1) = ip + 1 + t by omega, show matched + (t + 1) = matched + 1 + t by omega]
    exact ih (by omega)
  | case2 ip matched hc =>
    rw [Nat.add_zero, Nat.add_zero]
    by_cases hlt : ip < limit
    · exact Or.inr fun heq => hc ⟨hlt, heq⟩
    · exact Or.inl (by omega)

/-- The pattern loop stops at its limit or at a byte off the pattern. -/
theorem tailPatternCount_stop {ip : Nat} {p : UInt32} {phase : Nat} (h : ip ≤ limit) :
    ip + tailPatternCount src ip limit p phase = limit ∨
      src.get! (ip + tailPatternCount src ip limit p phase) ≠
        patternByte p (phase + tailPatternCount src ip limit p phase) := by
  fun_induction tailPatternCount src ip limit p phase with
  | case1 ip phase hc ih =>
    generalize tailPatternCount src (ip + 1) limit p (phase + 1) = t at ih ⊢
    rw [show ip + (t + 1) = ip + 1 + t by omega, show phase + (t + 1) = phase + 1 + t by omega]
    exact ih (by omega)
  | case2 ip phase hc =>
    rw [Nat.add_zero, Nat.add_zero]
    by_cases hlt : ip < limit
    · exact Or.inr fun heq => hc ⟨hlt, heq⟩
    · exact Or.inl (by omega)

theorem tailPatternCount_le {ip : Nat} {p : UInt32} {phase : Nat} (h : ip ≤ limit) :
    ip + tailPatternCount src ip limit p phase ≤ limit := by
  fun_induction tailPatternCount src ip limit p phase with
  | case1 ip phase hc ih =>
    have := ih (by omega)
    omega
  | case2 => omega

theorem agree_tailPatternCount (ip : Nat) (p : UInt32) (phase : Nat) :
    ∀ i < tailPatternCount src ip limit p phase, src.get! (ip + i) = patternByte p (phase + i) := by
  fun_induction tailPatternCount src ip limit p phase with
  | case1 ip phase hc ih =>
    intro i hi
    cases i with
    | zero => exact hc.2
    | succ i =>
      rw [show ip + (i + 1) = ip + 1 + i by omega, show phase + (i + 1) = phase + 1 + i by omega]
      exact ih i (by omega)
  | case2 => exact fun i hi => absurd hi (Nat.not_lt_zero _)

end Forward

section Backward

variable {src : ByteArray} {low : Nat} {p : UInt32}

/-- The word loop moves back over whole words equal to the pattern, as far as it can. -/
theorem reverseWords_spec {ip : Nat} (h : low ≤ ip) :
    low ≤ reverseWords src ip low p ∧ reverseWords src ip low p ≤ ip ∧
      (ip - reverseWords src ip low p) % 4 = 0 ∧
      (∀ i < ip - reverseWords src ip low p, src.get! (ip - 1 - i) = patternByte p (3 - i % 4)) ∧
      ¬ (low + minMatch ≤ reverseWords src ip low p ∧
        readU32 src (reverseWords src ip low p - minMatch) = p) := by
  fun_induction reverseWords src ip low p with
  | case1 ip hc ih =>
    obtain ⟨hlow, hle, hmod, hagree, hstop⟩ := ih (by simp only [minMatch] at hc ⊢; omega)
    have hword := (readU32_eq_iff src (ip - minMatch) p).mp hc.2
    simp only [minMatch] at hc hle hmod hagree hword ⊢
    refine ⟨hlow, by omega, by omega, fun i hi => ?_, hstop⟩
    by_cases hi4 : i < 4
    · -- the first word back: byte `ip - 1 - i` is byte `3 - i` of the pattern
      have := hword (3 - i) (by omega)
      rwa [show ip - 4 + (3 - i) = ip - 1 - i by omega, show 3 - i = 3 - i % 4 by omega] at this
    · -- the words before it, one period further back
      have := hagree (i - 4) (by omega)
      rwa [show ip - 4 - 1 - (i - 4) = ip - 1 - i by omega,
        show (i - 4) % 4 = i % 4 by omega] at this
  | case2 ip hc => exact ⟨h, Nat.le_refl _, by simp, fun i hi => by simp at hi, hc⟩

/-- The byte loop moves back over at most `idx` bytes, the `k`-th of them matching pattern
byte `idx - 1 - k`, and stops at `low`, after `idx` bytes, or at a byte off the pattern. -/
theorem reverseBytes_spec (ip idx : Nat) (h : low ≤ ip) :
    low ≤ reverseBytes src ip low p idx ∧ reverseBytes src ip low p idx ≤ ip ∧
      ip - reverseBytes src ip low p idx ≤ idx ∧
      (∀ k < ip - reverseBytes src ip low p idx,
        src.get! (ip - 1 - k) = patternByte p (idx - 1 - k)) ∧
      (reverseBytes src ip low p idx = low ∨ ip - reverseBytes src ip low p idx = idx ∨
        src.get! (reverseBytes src ip low p idx - 1) ≠
          patternByte p (idx - 1 - (ip - reverseBytes src ip low p idx))) := by
  induction idx generalizing ip with
  | zero =>
    rw [reverseBytes]
    exact ⟨h, Nat.le_refl _, by simp, fun k hk => by simp at hk, by simp⟩
  | succ idx ih =>
    rw [reverseBytes]
    split
    · rename_i hc
      obtain ⟨hlow, hle, hcount, hagree, hstop⟩ := ih (ip - 1) (by omega)
      refine ⟨hlow, by omega, by omega, fun k hk => ?_, ?_⟩
      · cases k with
        | zero => simpa using hc.2
        | succ k =>
          have := hagree k (by omega)
          rwa [show ip - 1 - 1 - k = ip - 1 - (k + 1) by omega,
            show idx - 1 - k = idx + 1 - 1 - (k + 1) by omega] at this
      · rcases hstop with hstop | hstop | hstop
        · exact Or.inl hstop
        · exact Or.inr (Or.inl (by omega))
        · refine Or.inr (Or.inr ?_)
          rwa [show idx + 1 - 1 - (ip - reverseBytes src (ip - 1) low p idx) =
            idx - 1 - (ip - 1 - reverseBytes src (ip - 1) low p idx) by omega]
    · rename_i hc
      refine ⟨h, Nat.le_refl _, by simp, fun k hk => by simp at hk, ?_⟩
      rw [Nat.sub_self, Nat.sub_zero, Nat.add_sub_cancel]
      by_cases hlow : low < ip
      · exact Or.inr (Or.inr fun heq => hc ⟨hlow, heq⟩)
      · exact Or.inl (by omega)

/-- The backward counter is the longest run of bytes before `ip`, down to `low`, that follow
the pattern backwards from its last byte. -/
theorem reversePatternCount_isGreatest {ip : Nat} (h : low ≤ ip) :
    IsGreatest {j | j ≤ ip - low ∧ ∀ i < j, src.get! (ip - 1 - i) = patternByte p (3 - i % 4)}
      (reversePatternCount src ip low p) := by
  obtain ⟨hlowW, hleW, hmodW, hagreeW, hstopW⟩ := @reverseWords_spec src low p ip h
  generalize hw : reverseWords src ip low p = w at hlowW hleW hmodW hagreeW hstopW
  obtain ⟨hlowB, hleB, hcountB, hagreeB, hstopB⟩ := @reverseBytes_spec src low p w 4 hlowW
  generalize hb : reverseBytes src w low p 4 = b at hlowB hleB hcountB hagreeB hstopB
  have hcount : reversePatternCount src ip low p = ip - b := by
    rw [reversePatternCount, hw, hb]
  rw [hcount]
  -- bytes past the words are the pattern's from its last byte, the words being whole periods
  have hphase : ∀ k < 4, 3 - (ip - w + k) % 4 = 4 - 1 - k := fun k hk => by omega
  apply isGreatest_of_stop (by omega)
  · intro i hi
    by_cases hiw : i < ip - w
    · exact hagreeW i hiw
    · have := hagreeB (i - (ip - w)) (by omega)
      rwa [show w - 1 - (i - (ip - w)) = ip - 1 - i by omega,
        ← hphase (i - (ip - w)) (by omega), show ip - w + (i - (ip - w)) = i by omega] at this
  · by_cases hfour : w - b = 4
    · -- four more agreeing bytes would have been one more agreeing word
      exfalso
      have hroom : low + 4 ≤ w := by omega
      refine hstopW ⟨hroom, (readU32_eq_iff src (w - minMatch) p).mpr fun k hk => ?_⟩
      have := hagreeB (3 - k) (by omega)
      rwa [show w - 1 - (3 - k) = w - minMatch + k by simp only [minMatch]; omega,
        show 4 - 1 - (3 - k) = k by omega] at this
    · rcases hstopB with hlow | hfour' | hne
      · exact Or.inl (by omega)
      · exact absurd hfour' hfour
      · refine Or.inr fun hagree => hne ?_
        rw [show b - 1 = ip - 1 - (ip - b) by omega, hagree,
          show ip - b = ip - w + (w - b) by omega, hphase (w - b) (by omega)]

end Backward

section Forward

variable {src : ByteArray} {limit : Nat}

/-- The forward counter, of either width, is the length of the longest common prefix of the
bytes in `[ip, limit)` and the bytes from `matched`, an earlier position. -/
theorem matchCount_isGreatest (w : AddressWidth) {ip matched : Nat} (hm : matched < ip)
    (hip : ip ≤ limit) (hsize : limit ≤ src.size) :
    IsGreatest {n | n ≤ limit - ip ∧ matched + n ≤ src.size ∧
        ∀ i < n, src.get! (ip + i) = src.get! (matched + i)}
      (matchCount w src ip matched limit) := by
  -- the bytes from `matched` reach past `limit - ip` of them, so only the first bound counts
  have hset : {n | n ≤ limit - ip ∧ matched + n ≤ src.size ∧
      ∀ i < n, src.get! (ip + i) = src.get! (matched + i)} =
      {n | n ≤ limit - ip ∧ ∀ i < n, src.get! (ip + i) = src.get! (matched + i)} := by
    ext n
    constructor
    · rintro ⟨hn, -, hagree⟩
      exact ⟨hn, hagree⟩
    · rintro ⟨hn, hagree⟩
      exact ⟨hn, by omega, hagree⟩
  rw [hset, matchCount_eq_tailCount]
  have hle : ip + tailCount src ip matched limit ≤ limit := tailCount_le hip
  exact isGreatest_of_stop (by omega) (agree_tailCount src ip matched limit)
    ((tailCount_stop hip).imp (fun h => by omega) id)

/-- The pattern counter, of either width, is how many leading bytes of `[ip, limit)` follow
the repetition of the pattern's bytes. -/
theorem patternCount_isGreatest (w : AddressWidth) {ip : Nat} (p : UInt32) (hip : ip ≤ limit) :
    IsGreatest {n | n ≤ limit - ip ∧ ∀ i < n, src.get! (ip + i) = patternByte p i}
      (patternCount w src ip limit p) := by
  rw [patternCount_eq_tailPatternCount]
  have hle : ip + tailPatternCount src ip limit p 0 ≤ limit := tailPatternCount_le hip
  have hstop : ip + tailPatternCount src ip limit p 0 = limit ∨
      src.get! (ip + tailPatternCount src ip limit p 0) ≠
        patternByte p (0 + tailPatternCount src ip limit p 0) := tailPatternCount_stop hip
  rw [Nat.zero_add] at hstop
  refine isGreatest_of_stop (by omega) (fun i hi => ?_) (hstop.imp (fun h => by omega) id)
  simpa using agree_tailPatternCount ip p 0 i hi

end Forward

/-- The three counters of the match finders return byte-wise lengths, whatever the address
width: the forward counter the length of the longest common prefix of the bytes in
`[ip, limit)` and those from an earlier `matched`; the pattern counter how many leading bytes
of `[ip, limit)` follow the repetition of the pattern's four little-endian bytes; the backward
counter the longest run of bytes before `ip`, down to `low`, that follow the pattern
backwards from its last byte. -/
theorem counters_count_prefixes :
    (∀ (w : AddressWidth) (src : ByteArray) (ip matched limit : Nat), matched < ip → ip ≤ limit →
      limit ≤ src.size →
      IsGreatest {n | n ≤ limit - ip ∧ matched + n ≤ src.size ∧
          ∀ i < n, src.get! (ip + i) = src.get! (matched + i)}
        (matchCount w src ip matched limit)) ∧
    (∀ (w : AddressWidth) (src : ByteArray) (ip limit : Nat) (p : UInt32), ip ≤ limit →
      limit ≤ src.size →
      IsGreatest {n | n ≤ limit - ip ∧ ∀ i < n, src.get! (ip + i) = patternByte p i}
        (patternCount w src ip limit p)) ∧
    (∀ (src : ByteArray) (ip low : Nat) (p : UInt32), low ≤ ip → ip ≤ src.size →
      IsGreatest {j | j ≤ ip - low ∧ ∀ i < j, src.get! (ip - 1 - i) = patternByte p (3 - i % 4)}
        (reversePatternCount src ip low p)) ∧
    (∀ (p : UInt32) (k : Nat), (patternByte p k).toNat = p.toNat / Nat.pow 256 (k % 4) % 256) :=
  ⟨fun w _ _ _ _ hm hip hsize => matchCount_isGreatest w hm hip hsize,
    fun w _ _ _ p hip _ => patternCount_isGreatest w p hip,
    fun _ _ _ _ hlow _ => reversePatternCount_isGreatest hlow,
    toNat_patternByte⟩

/-- In `xyzabababab` the pattern `abab` read at 5 runs back two bytes, to the `a` at 3. -/
theorem counters_count_prefixes_reverse :
    0 ≤ 5 ∧ 5 ≤ (⟨#[120, 121, 122, 97, 98, 97, 98, 97, 98, 97, 98]⟩ : ByteArray).size ∧
      IsGreatest {j | j ≤ 5 - 0 ∧ ∀ i < j,
          (⟨#[120, 121, 122, 97, 98, 97, 98, 97, 98, 97, 98]⟩ : ByteArray).get! (5 - 1 - i) =
            patternByte (readU32 ⟨#[120, 121, 122, 97, 98, 97, 98, 97, 98, 97, 98]⟩ 5) (3 - i % 4)}
        (reversePatternCount ⟨#[120, 121, 122, 97, 98, 97, 98, 97, 98, 97, 98]⟩ 5 0
          (readU32 ⟨#[120, 121, 122, 97, 98, 97, 98, 97, 98, 97, 98]⟩ 5)) :=
  ⟨by decide, by decide, counters_count_prefixes.2.2.1 _ 5 0 _ (by decide) (by decide)⟩

end WireCodec.Lz4
