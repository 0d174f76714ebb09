import WireCodec.Lz4.HighCompression
import WireCodec.Proofs.Lz4.Emitter

/-!
# The high-compression encoder's blocks decode to its input

The chain walk may visit whatever candidates the tables and the jumps over repeated runs
lead it to, but it keeps a candidate only after comparing its four bytes with those
searched, and extends it over compared bytes only: backwards while the bytes before agree
and the match stays after `lowLimit`, forwards as far as the counter goes. So every match
it returns fits the block (`ChainMatch.Fits`), whichever one the lazy step keeps, and
`compressHC_roundTrip` follows as for the fast encoder: at every level, a destination of
`compressBound` bytes receives a block of at most that size that decodes to the input.
-/

namespace WireCodec.Lz4

/-- A match the encoder may write for the block from logical position `low`, in a window
whose first byte sits at logical position `base`: it starts at `low` or later, copies
from at most `maxDistance` bytes back and not from before the window, is at least
`minMatch` long, ends by `limit`, and its bytes agree with those it copies. -/
structure ChainMatch.Fits (m : ChainMatch) (window : ByteArray) (base low limit : Nat) : Prop where
  low_le : low ≤ m.start
  offset_pos : 0 < m.offset
  offset_le : m.offset ≤ maxDistance
  base_le : base + m.offset ≤ m.start
  minMatch_le : minMatch ≤ m.len
  stop_le : m.stop ≤ limit
  agree : Agree window (m.start - base) (m.start - base - m.offset) m.len

namespace HashChains

/-- What a chain walk relies on: the searched position lies in the block, four bytes
before the limit, and the candidates it accepts lie after `lowLimit`, within reach, in
the window. -/
structure Walk.Valid (W : Walk) (c : HashChains) : Prop where
  base_le_low : c.base ≤ W.low
  low_le_ip : W.low ≤ W.ip
  reach_limit : W.ip + minMatch ≤ W.limit
  base_le_lowLimit : c.base ≤ c.lowLimit
  lowLimit_le : c.lowLimit ≤ W.lowest
  ip_le : W.ip ≤ W.lowest + maxDistance
  pattern_eq : W.pattern = readU32 W.window (W.ip - c.base)

section Frame

-- indexing and searching change the tables only, never where the window and its matches start

variable (c : HashChains) (window : ByteArray)

theorem insertFrom_frame (index target : Nat) :
    (c.insertFrom window index target).base = c.base ∧
      (c.insertFrom window index target).lowLimit = c.lowLimit := by
  fun_induction c.insertFrom window index target with
  | case1 _ _ _ _ _ _ ih => exact ih
  | case2 => exact ⟨rfl, rfl⟩

theorem insert_frame (target : Nat) :
    (c.insert window target).base = c.base ∧ (c.insert window target).lowLimit = c.lowLimit := by
  unfold insert
  split
  · exact insertFrom_frame c window _ _
  · exact ⟨rfl, rfl⟩

theorem findWiderMatch_frame_of_eq {ip low limit longest : Nat} {c' : HashChains}
    {found : Option ChainMatch} (h : c.findWiderMatch window ip low limit longest = (c', found)) :
    c'.base = c.base ∧ c'.lowLimit = c.lowLimit := by
  simp only [findWiderMatch, Prod.mk.injEq] at h
  rw [← h.1]
  exact insert_frame c window ip

end Frame

/-- Extending backwards stays within the block and after `lowLimit`, over agreeing
bytes. -/
theorem backCount_spec (c : HashChains) (W : Walk) (candidate back : Nat)
    (hback : back ≤ W.ip - W.low) (hlow : c.lowLimit + back ≤ candidate) :
    back ≤ c.backCount W candidate back ∧ c.backCount W candidate back ≤ W.ip - W.low ∧
      c.lowLimit + c.backCount W candidate back ≤ candidate ∧
      ∀ j, back ≤ j → j < c.backCount W candidate back →
        W.window.get! (W.ip - c.base - j - 1) = W.window.get! (candidate - c.base - j - 1) := by
  fun_induction c.backCount W candidate back with
  | case1 back hc ih =>
    obtain ⟨hle, hmax, hlow', hagree⟩ := ih (by omega) (by omega)
    refine ⟨by omega, hmax, hlow', fun j hj hjb => ?_⟩
    by_cases hjeq : j = back
    · subst hjeq
      exact hc.2.2
    · exact hagree j (by omega) hjb
  | case2 back _ => exact ⟨Nat.le_refl _, hback, hlow, fun j hj hjb => absurd hjb (by omega)⟩

/-- A candidate the walk accepts, extended both ways, fits the block. -/
theorem found_fits (c : HashChains) {W : Walk} (hW : W.Valid c) {candidate : Nat}
    (hlo : W.lowest ≤ candidate) (hlt : candidate < W.ip)
    (hpat : readU32 W.window (candidate - c.base) = W.pattern) :
    (⟨W.ip - c.backCount W candidate 0, W.ip - candidate,
      minMatch + matchCount c.width W.window (W.ip - c.base + minMatch)
        (candidate - c.base + minMatch) (W.limit - c.base) + c.backCount W candidate 0⟩ :
      ChainMatch).Fits W.window c.base W.low W.limit := by
  have hbl := hW.base_le_low
  have hli := hW.low_le_ip
  have hreach := hW.reach_limit
  have hbase := hW.base_le_lowLimit
  have hlow := hW.lowLimit_le
  have hip := hW.ip_le
  obtain ⟨-, hmax, hlow', hback⟩ :=
    c.backCount_spec W candidate 0 (Nat.zero_le _) (by omega)
  generalize c.backCount W candidate 0 = b at hmax hlow' hback ⊢
  have hcount := @matchCount_le c.width W.window (W.ip - c.base + minMatch)
    (candidate - c.base + minMatch) (W.limit - c.base) (by omega)
  have hafter := agree_matchCount c.width W.window (W.ip - c.base + minMatch)
    (candidate - c.base + minMatch) (W.limit - c.base)
  generalize matchCount c.width W.window (W.ip - c.base + minMatch)
    (candidate - c.base + minMatch) (W.limit - c.base) = f at hcount hafter ⊢
  -- the bytes moved back over, the four compared and the counted ones agree in turn
  have hbefore : Agree W.window (W.ip - c.base - b) (candidate - c.base - b) b := by
    intro k hk
    have := hback (b - 1 - k) (Nat.zero_le _) (by omega)
    rwa [show W.ip - c.base - (b - 1 - k) - 1 = W.ip - c.base - b + k by omega,
      show candidate - c.base - (b - 1 - k) - 1 = candidate - c.base - b + k by omega] at this
  have hfour : Agree W.window (W.ip - c.base) (candidate - c.base) minMatch :=
    (agree_of_readU32 (hpat.trans hW.pattern_eq)).symm
  have hall : Agree W.window (W.ip - c.base - b) (candidate - c.base - b) (b + (minMatch + f)) := by
    refine hbefore.append ?_
    rw [show W.ip - c.base - b + b = W.ip - c.base by omega,
      show candidate - c.base - b + b = candidate - c.base by omega]
    exact hfour.append hafter
  constructor
  all_goals dsimp only [ChainMatch.stop]
  · omega
  · omega
  · unfold maxDistance at hip ⊢
    omega
  · omega
  · omega
  · omega
  · rw [show W.ip - b - c.base = W.ip - c.base - b by omega,
      show W.ip - c.base - b - (W.ip - candidate) = candidate - c.base - b by omega,
      show minMatch + f + b = b + (minMatch + f) by omega]
    exact hall

/-- The walk returns the match it started with or one found at a candidate it accepted:
in the window, before the searched position, with the same four bytes. So whatever holds
of those holds of its result, whichever candidates the chain and the run jumps visit. -/
theorem walk_of_found (c : HashChains) (W : Walk) (P : ChainMatch → Prop)
    (hfound : ∀ candidate, W.lowest ≤ candidate → candidate < W.ip →
      readU32 W.window (candidate - c.base) = W.pattern →
      P ⟨W.ip - c.backCount W candidate 0, W.ip - candidate,
        minMatch + matchCount c.width W.window (W.ip - c.base + minMatch)
          (candidate - c.base + minMatch) (W.limit - c.base) + c.backCount W candidate 0⟩)
    (attempts candidate : Nat) (rep : Repeat) (bestLen : Nat) (best : Option ChainMatch)
    (hbest : ∀ m, best = some m → P m) :
    ∀ m, c.walk W candidate rep bestLen best attempts = some m → P m := by
  induction attempts generalizing candidate rep bestLen best with
  | zero => exact hbest
  | succ n ih =>
    intro m hm
    simp only [walk] at hm
    split at hm
    · rename_i hcand
      split at hm
      · rename_i forward m' hkept
        have hm' : P m' := by
          split at hkept
          · rename_i hpat
            split at hkept
            · simp only [Option.some.injEq, Prod.mk.injEq] at hkept
              obtain ⟨rfl, rfl⟩ := hkept
              exact hfound candidate hcand.1 hcand.2 hpat
            · simp at hkept
          · simp at hkept
        -- the kept match is returned or becomes the best of the rest of the walk
        split at hm
        · simp only [Option.some.injEq] at hm
          subst hm
          exact hm'
        · split at hm
          · simp only [Option.some.injEq] at hm
            subst hm
            exact hm'
          · refine ih _ _ _ _ (fun x hx => ?_) m hm
            simp only [Option.some.injEq] at hx
            subst hx
            exact hm'
      · split at hm
        · exact hbest m hm
        · exact ih _ _ _ _ hbest m hm
    · exact hbest m hm

theorem findWiderMatch_fits {c : HashChains} {window : ByteArray} {ip low limit longest : Nat}
    {c' : HashChains} {m : ChainMatch} (hbase : c.base ≤ c.lowLimit) (hlow : c.base ≤ low)
    (hip : low ≤ ip) (hlimit : ip + minMatch ≤ limit)
    (h : c.findWiderMatch window ip low limit longest = (c', some m)) :
    m.Fits window c.base low limit := by
  obtain ⟨hb, hl⟩ := insert_frame c window ip
  simp only [findWiderMatch, Prod.mk.injEq] at h
  have hW : Walk.Valid ⟨window, ip, low, limit,
      max (c.insert window ip).lowLimit (ip - maxDistance),
      readU32 window (ip - (c.insert window ip).base)⟩ (c.insert window ip) :=
    ⟨by rw [hb]; exact hlow, hip, hlimit, by rw [hb, hl]; exact hbase, Nat.le_max_left _ _,
      show ip ≤ max _ (ip - maxDistance) + maxDistance by omega, rfl⟩
  rw [← hb]
  exact walk_of_found _ _ (fun m => m.Fits window (c.insert window ip).base low limit)
    (fun _ hlo hlt hpat => found_fits _ hW hlo hlt hpat) _ _ _ _ _
    (fun _ hx => by simp at hx) m h.2

/-- The lazy step keeps the window's frame, and the match it settles on fits the block:
it is the current one or one the finder returned. -/
theorem lazy_fits {c : HashChains} {window : ByteArray} {anchor matchLimit mflimit : Nat}
    {current : ChainMatch} {nextIp attempts : Nat} (hbase : c.base ≤ c.lowLimit)
    (hanchor : c.base ≤ anchor) (hnext : anchor ≤ nextIp) (hmf : mflimit + minMatch ≤ matchLimit)
    (hcur : current.Fits window c.base anchor matchLimit) :
    (c.lazy window anchor matchLimit mflimit current nextIp attempts).1.base = c.base ∧
      (c.lazy window anchor matchLimit mflimit current nextIp attempts).1.lowLimit = c.lowLimit ∧
      (c.lazy window anchor matchLimit mflimit current nextIp attempts).2.Fits window c.base
        anchor matchLimit := by
  fun_induction c.lazy window anchor matchLimit mflimit current nextIp attempts with
  | case1 c current nextIp attempts _ c' m hfind _ ih =>
    -- a wider match found further on replaces the current one
    have hm := findWiderMatch_fits hbase hanchor hnext (by omega) hfind
    obtain ⟨hb, hl⟩ := findWiderMatch_frame_of_eq c window hfind
    rw [hb, hl] at ih
    exact ih hbase hanchor (by omega) hm
  | case2 c current nextIp attempts _ c' m hfind _ ih =>
    obtain ⟨hb, hl⟩ := findWiderMatch_frame_of_eq c window hfind
    rw [hb, hl] at ih
    exact ih hbase hanchor (by omega) hcur
  | case3 c current nextIp attempts _ c' hfind ih =>
    obtain ⟨hb, hl⟩ := findWiderMatch_frame_of_eq c window hfind
    rw [hb, hl] at ih
    exact ih hbase hanchor (by omega) hcur
  | case4 => exact ⟨rfl, rfl, hcur⟩

/-- A match that fits is written after the literals pending since `anchor`, and the block
then encodes the window up to the match's end. -/
theorem fits_writeSequence {e : Emitter} {window : ByteArray} {base anchor matchLimit : Nat}
    {m : ChainMatch} (hm : m.Fits window base anchor matchLimit) (hanchor : base ≤ anchor)
    (hend : matchLimit + lastLiterals ≤ base + window.size)
    (he : e.Encodes window.data.toList (anchor - base)) :
    ∃ e', e.writeSequence window (anchor - base) (m.start - anchor) m.offset m.len = .ok e' ∧
      e'.Encodes window.data.toList (m.stop - base) := by
  have hlow := hm.low_le
  have hstart := hm.base_le
  have hstop := hm.stop_le
  unfold ChainMatch.stop at hstop ⊢
  obtain ⟨e', hw, he'⟩ := he.writeSequence rfl (show anchor - base ≤ m.start - base by omega)
    hm.offset_pos (show m.offset ≤ m.start - base by omega) hm.offset_le hm.minMatch_le
    (by rw [ByteArray.length_data_toList]; omega) hm.agree
  rw [show m.start - base - (anchor - base) = m.start - anchor by omega] at hw
  rw [show m.start + m.len - base = m.start - base + m.len by omega]
  exact ⟨e', hw, he'⟩

/-- The match the encoder settles on at `ip`, the finder's or one the lazy step prefers,
fits the block, and the window's frame is unchanged. -/
theorem chosen_fits {c c₁ c₂ : HashChains} {window : ByteArray}
    {mflimit matchLimit anchor ip : Nat} {m₁ m₂ : ChainMatch} (hbase : c.base ≤ c.lowLimit)
    (hanchor : c.base ≤ anchor) (hip : anchor ≤ ip) (hle : ip ≤ mflimit)
    (hmf : mflimit + minMatch ≤ matchLimit)
    (hf : c.findWiderMatch window ip anchor matchLimit (minMatch - 1) = (c₁, some m₁))
    (hl : c₁.lazy window anchor matchLimit mflimit m₁ (ip + 1) (levelParams c₁.level).lookahead =
      (c₂, m₂)) :
    c₂.base = c.base ∧ c₂.lowLimit = c.lowLimit ∧ m₂.Fits window c.base anchor matchLimit := by
  have hm₁ := findWiderMatch_fits hbase hanchor hip (by omega) hf
  obtain ⟨hb₁, hl₁⟩ := findWiderMatch_frame_of_eq c window hf
  rw [← hb₁] at hm₁ hanchor
  rw [← hb₁, ← hl₁] at hbase ⊢
  have hlazy := @lazy_fits c₁ window anchor matchLimit mflimit m₁ (ip + 1)
    (levelParams c₁.level).lookahead hbase hanchor (by omega) hmf hm₁
  rwa [hl] at hlazy

/-- The scan from `ip`, with literals pending since `anchor`, completes the block: it
writes only matches that fit, and closes with the literals from the last one, into a
block that fits `compressBound` and decodes to the window. -/
theorem encodeFrom_encodes {c : HashChains} {window : ByteArray} {e : Emitter}
    {mflimit matchLimit anchor ip : Nat} (hbase : c.base ≤ c.lowLimit) (hanchor : c.base ≤ anchor)
    (hip : anchor ≤ ip) (hmf : mflimit + minMatch ≤ matchLimit)
    (hend : matchLimit + lastLiterals ≤ c.base + window.size)
    (he : e.Encodes window.data.toList (anchor - c.base)) :
    ∃ out, (c.encodeFrom window e mflimit matchLimit anchor ip).2 = .ok out ∧
      out.size ≤ window.size + window.size / 255 + 16 ∧ decompress out window.size = .ok window := by
  fun_induction c.encodeFrom window e mflimit matchLimit anchor ip with
  | case1 c e anchor ip hle c₁ hf ih =>
    obtain ⟨hb, hl⟩ := findWiderMatch_frame_of_eq c window hf
    rw [hb, hl] at ih
    exact ih hbase hanchor (by omega) hend he
  | case2 c e anchor ip hle c₁ m₁ hf c₂ m₂ hl err hw =>
    -- the chosen match fits, so the destination has room for it
    obtain ⟨hb₂, -, hm₂⟩ := chosen_fits hbase hanchor hip hle hmf hf hl
    obtain ⟨e', hw', -⟩ := fits_writeSequence hm₂ hanchor hend he
    rw [hb₂, hw'] at hw
    cases hw
  | case3 c e anchor ip hle c₁ m₁ hf c₂ m₂ hl e' hw ih =>
    obtain ⟨hb₂, hl₂, hm₂⟩ := chosen_fits hbase hanchor hip hle hmf hf hl
    obtain ⟨e'', hw', he''⟩ := fits_writeSequence hm₂ hanchor hend he
    rw [hb₂, hw'] at hw
    cases hw
    have hstart := hm₂.low_le
    rw [hb₂, hl₂] at ih
    exact ih hbase (by unfold ChainMatch.stop; omega) (Nat.le_refl _) hend he''
  | case4 c e anchor ip _ => exact he.finish rfl

end HashChains

/-- At every level, a destination with room for the input, a byte per 255 of it and 16
more receives a block of at most that size, which decodes to the input. -/
theorem compressHC_fits (w : AddressWidth) (src : ByteArray) (capacity : Nat) (level : Int)
    (hsize : src.size ≤ maxInputSize) (hcap : src.size + src.size / 255 + 16 ≤ capacity) :
    ∃ block, compressHC w src capacity level = .ok block ∧
      block.size ≤ src.size + src.size / 255 + 16 ∧ decompress block src.size = .ok src := by
  have he := @Emitter.encodes_empty src.data.toList capacity
    (by rw [ByteArray.length_data_toList]; exact hcap)
  -- a fresh finder numbers the input from startIndex, where the block starts
  have hbase : (HashChains.fresh w level).base = startIndex := rfl
  have hdict : (HashChains.fresh w level).dictLimit = startIndex := rfl
  have hlow : (HashChains.fresh w level).lowLimit = startIndex := rfl
  rw [compressHC, if_neg (by omega), HashChains.compressBlock]
  rw [hdict, hbase, Nat.add_sub_cancel_left, if_neg (by omega), Nat.sub_self]
  by_cases hshort : src.size < minLength
  · rw [if_pos hshort]
    exact Emitter.finish_literals hcap
  · rw [if_neg hshort]
    unfold minLength mfLimit at hshort
    refine HashChains.encodeFrom_encodes ?_ ?_ ?_ ?_ ?_ ?_
    · exact Nat.le_of_eq (hbase.trans hlow.symm)
    · exact Nat.le_of_eq hbase
    · exact Nat.le_refl _
    · unfold mfLimit minMatch lastLiterals
      omega
    · rw [hbase]
      unfold lastLiterals
      omega
    · rw [hbase, Nat.sub_self]
      exact he

/-- At every level, a destination of `compressBound` bytes receives a block of at most
that size, which decodes to the input. -/
theorem compressHC_roundTrip (w : AddressWidth) (src : ByteArray) (capacity : Nat) (level : Int)
    (hsize : src.size ≤ maxInputSize) (hcap : compressBound src.size ≤ capacity) :
    ∃ block, compressHC w src capacity level = .ok block ∧
      block.size ≤ compressBound src.size ∧ decompress block src.size = .ok src := by
  rw [compressBound_eq hsize] at hcap ⊢
  exact compressHC_fits w src capacity level hsize hcap

/-- Sixteen bytes of a repeated pair, at the default level, into a destination of exactly
`compressBound` bytes. -/
theorem compressHC_roundTrip_pairs :
    (⟨#[97, 98, 97, 98, 97, 98, 97, 98, 97, 98, 97, 98, 97, 98, 97, 98]⟩ : ByteArray).size ≤
        maxInputSize ∧
      compressBound 16 ≤ 32 ∧
      ∃ block, compressHC .bits32
          ⟨#[97, 98, 97, 98, 97, 98, 97, 98, 97, 98, 97, 98, 97, 98, 97, 98]⟩ 32 9 = .ok block ∧
        block.size ≤ compressBound 16 ∧
        decompress block 16 = .ok ⟨#[97, 98, 97, 98, 97, 98, 97, 98, 97, 98, 97, 98, 97, 98, 97, 98]⟩ :=
  ⟨by decide, by decide, compressHC_roundTrip .bits32 _ 32 9 (by decide) (by decide)⟩

end WireCodec.Lz4
