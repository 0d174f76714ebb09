import WireCodec.Lz4.Chain

/-!
# The high-compression encoder

At each position the encoder asks the hash chains for the longest match. Before it
commits to one, it looks at the following positions (`lookahead` of them, by level): a
match found there that saves more bytes, counting the literals it leaves in front of it,
replaces the current one and restarts the look-ahead. The chosen match is written and
the scan resumes at its end. The last `mfLimit` bytes are never searched and close the
block as literals.

The finder's state is returned with the block, also when the destination is too small:
a stream keeps the positions indexed before the failure.
-/

namespace WireCodec.Lz4

namespace HashChains

theorem backCount_le (c : HashChains) (W : Walk) (candidate back : Nat)
    (h : back ≤ W.ip - W.low) : c.backCount W candidate back ≤ W.ip - W.low := by
  fun_induction c.backCount W candidate back with
  | case1 back hc ih => exact ih (by omega)
  | case2 => exact h

/-- Every match the walk returns ends at least `minMatch` bytes past the searched
position. -/
theorem walk_stop (c : HashChains) (W : Walk) (attempts candidate : Nat) (rep : Repeat)
    (bestLen : Nat) (best : Option ChainMatch)
    (hbest : ∀ m, best = some m → W.ip + minMatch ≤ m.stop) :
    ∀ m, c.walk W candidate rep bestLen best attempts = some m → W.ip + minMatch ≤ m.stop := by
  induction attempts generalizing candidate rep bestLen best with
  | zero => exact hbest
  | succ n ih =>
    intro m hm
    have hb := c.backCount_le W candidate 0 (Nat.zero_le _)
    have hnew : ∀ forward m', (forward ≥ minMatch ∧
        m' = (⟨W.ip - c.backCount W candidate 0, W.ip - candidate,
          forward + c.backCount W candidate 0⟩ : ChainMatch)) → W.ip + minMatch ≤ m'.stop := by
      rintro forward m' ⟨hf, rfl⟩
      simp only [ChainMatch.stop]
      omega
    simp only [walk] at hm
    split at hm
    · split at hm
      · rename_i forward m' hfound
        have hm' : W.ip + minMatch ≤ m'.stop := by
          split at hfound
          · split at hfound
            · simp only [Option.some.injEq, Prod.mk.injEq] at hfound
              obtain ⟨rfl, rfl⟩ := hfound
              exact hnew _ _ ⟨by simp only [minMatch]; omega, rfl⟩
            · simp at hfound
          · simp at hfound
        split at hm
        · simp only [Option.some.injEq] at hm; subst hm; exact hm'
        · split at hm
          · simp only [Option.some.injEq] at hm; subst hm; exact hm'
          · exact ih _ _ _ _ (fun x hx => by simp only [Option.some.injEq] at hx; subst hx; exact hm') m hm
      · split at hm
        · exact hbest m hm
        · exact ih _ _ _ _ hbest m hm
    · exact hbest m hm

theorem findWiderMatch_stop {c : HashChains} {window : ByteArray} {ip low limit longest : Nat}
    {c' : HashChains} {m : ChainMatch}
    (h : c.findWiderMatch window ip low limit longest = (c', some m)) :
    ip + minMatch ≤ m.stop := by
  simp only [findWiderMatch, Prod.mk.injEq] at h
  exact walk_stop _ _ _ _ _ _ _ (fun _ hx => by simp at hx) m h.2

/-- The lazy step: tries the positions from `nextIp` while `attempts` remain, and lets a
match that saves more replace `current`, which resets the attempts. -/
def lazy (c : HashChains) (window : ByteArray) (anchor matchLimit mflimit : Nat)
    (current : ChainMatch) (nextIp attempts : Nat) : HashChains × ChainMatch :=
  if 0 < attempts ∧ nextIp ≤ mflimit then
    match c.findWiderMatch window nextIp anchor matchLimit current.len with
    | (c, some m) =>
      if current.gain anchor < m.gain anchor then
        c.lazy window anchor matchLimit mflimit m (nextIp + 1) (levelParams c.level).lookahead
      else c.lazy window anchor matchLimit mflimit current (nextIp + 1) (attempts - 1)
    | (c, none) => c.lazy window anchor matchLimit mflimit current (nextIp + 1) (attempts - 1)
  else (c, current)
termination_by mflimit + 1 - nextIp

theorem lazy_stop (c : HashChains) (window : ByteArray) (anchor matchLimit mflimit : Nat)
    (current : ChainMatch) (nextIp attempts ip : Nat) (hc : ip < current.stop)
    (hn : ip < nextIp) :
    ip < (c.lazy window anchor matchLimit mflimit current nextIp attempts).2.stop := by
  fun_induction c.lazy window anchor matchLimit mflimit current nextIp attempts with
  | case1 c current nextIp attempts _ c' m hfind _ ih =>
    exact ih (by have := findWiderMatch_stop hfind; simp only [minMatch] at this; omega)
      (by omega)
  | case2 c current nextIp attempts _ c' m _ _ ih => exact ih hc (by omega)
  | case3 c current nextIp attempts _ c' _ ih => exact ih hc (by omega)
  | case4 => exact hc

/-- Encodes the block from `ip` on, literals pending since `anchor`; positions are
logical and the scan stops after `mflimit`. -/
def encodeFrom (c : HashChains) (window : ByteArray) (e : Emitter) (mflimit matchLimit : Nat)
    (anchor ip : Nat) : HashChains × Except Error ByteArray :=
  if ip ≤ mflimit then
    match hf : c.findWiderMatch window ip anchor matchLimit (minMatch - 1) with
    | (c₁, none) => c₁.encodeFrom window e mflimit matchLimit anchor (ip + 1)
    | (c₁, some m₁) =>
      -- the equation is read only by the termination proof
      match _hl : c₁.lazy window anchor matchLimit mflimit m₁ (ip + 1) (levelParams c₁.level).lookahead with
      | (c₂, m₂) =>
        match e.writeSequence window (anchor - c₂.base) (m₂.start - anchor) m₂.offset m₂.len with
        | .error err => (c₂, .error err)
        | .ok e => c₂.encodeFrom window e mflimit matchLimit m₂.stop m₂.stop
  else (c, e.finish window (anchor - c.base) (window.size - (anchor - c.base)))
termination_by mflimit + 1 - ip
decreasing_by
  · omega
  · have h₁ := findWiderMatch_stop hf
    have h₂ := lazy_stop c₁ window anchor matchLimit mflimit m₁ (ip + 1)
      (levelParams c₁.level).lookahead ip (by simp only [minMatch] at h₁; omega) (by omega)
    rw [_hl] at h₂
    simp only at h₂
    omega

/-- Encodes the bytes of `window` from logical position `dictLimit` on as one block for a
destination of `capacity` bytes; the bytes before it are history that matches may reach. -/
def compressBlock (c : HashChains) (window : ByteArray) (capacity : Nat) :
    HashChains × Except Error ByteArray :=
  let stop := c.base + window.size
  let len := stop - c.dictLimit
  if len > maxInputSize then (c, .error (.inputTooLarge len maxInputSize))
  else if len < minLength then
    (c, (Emitter.empty capacity).finish window (c.dictLimit - c.base) len)
  else c.encodeFrom window (Emitter.empty capacity) (stop - mfLimit) (stop - lastLiterals)
    c.dictLimit c.dictLimit

end HashChains

/-- Compresses `src` into one block for a destination of `capacity` bytes with the
high-compression encoder at `level` (clamped to `[levelMin, levelMax]`). -/
def compressHC (w : AddressWidth) (src : ByteArray) (capacity : Nat) (level : Int) :
    Except Error ByteArray :=
  if src.size > maxInputSize then .error (.inputTooLarge src.size maxInputSize)
  else ((HashChains.fresh w level).compressBlock src capacity).2

end WireCodec.Lz4
