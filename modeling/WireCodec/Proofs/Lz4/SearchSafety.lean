import Mathlib
import WireCodec.Proofs.Lz4.CheckedWalk
import WireCodec.Proofs.Lz4.StreamHistory

/-!
# Every search of the high-compression encoders is safe

The finder searches in two kinds of states: the fresh finder of a one-shot block and its
successors, and the finder a stream hands the block encoder after any calls on it,
and its successors (`HashChains.Searched`). All of them are sound (`Searched.sound`): the
tables keep the sizes they were allocated with, since every write goes to a hash below
`2 ^ 15` or to a position modulo `2 ^ 16`, and trimming and re-indexing never leave the
positions to index, the lowest match source or the block start below the first byte of
the window.

A search in such a state, as the block encoder makes it, from a position between the low
limit and `mfLimit` bytes before the end of the window, with the limit `lastLiterals`
bytes before that end, therefore faults nowhere and examines at most the level's number of
candidates (`HashChains.findWiderMatch?_eq`). What it returns is a verified match inside
the block (`HashChains.findWiderMatch_verified`). The block encoder searches only there:
from `dictLimit` up to `mflimit`, with `matchLimit` as limit, and the finders the encoders
start from have their low limit at or below `dictLimit` (`HashChains.compressBlock?_eq`).
-/

namespace WireCodec.Lz4

namespace HashChains

/-! ## What a search returns -/

/-- A property of the walk's best match and its length that holds at the start and is
kept by every candidate the walk accepts holds at the end: the walk's result is the best
match of one of its rounds. -/
theorem walk_invariant (c : HashChains) (W : Walk) (Inv : Nat → Option ChainMatch → Prop)
    (hstep : ∀ candidate bestLen best, Inv bestLen best → W.lowest ≤ candidate →
      candidate < W.ip → readU32 W.window (candidate - c.base) = W.pattern →
      bestLen < minMatch + matchCount c.width W.window (W.ip - c.base + minMatch)
          (candidate - c.base + minMatch) (W.limit - c.base) + c.backCount W candidate 0 →
      Inv (minMatch + matchCount c.width W.window (W.ip - c.base + minMatch)
          (candidate - c.base + minMatch) (W.limit - c.base) + c.backCount W candidate 0)
        (some ⟨W.ip - c.backCount W candidate 0, W.ip - candidate,
          minMatch + matchCount c.width W.window (W.ip - c.base + minMatch)
            (candidate - c.base + minMatch) (W.limit - c.base) + c.backCount W candidate 0⟩))
    (attempts : Nat) :
    ∀ candidate rep bestLen best, Inv bestLen best →
      ∃ bestLen', Inv bestLen' (c.walk W candidate rep bestLen best attempts) := by
  induction attempts with
  | zero => exact fun _ _ bestLen _ h => ⟨bestLen, h⟩
  | succ n ih =>
    intro candidate rep bestLen best h
    generalize hr : c.walk W candidate rep bestLen best (n + 1) = r
    simp only [walk] at hr
    split at hr
    · rename_i hcand
      split at hr
      · rename_i forward m hfound
        -- the accepted candidate becomes the best match of the round
        have hm : Inv m.len (some m) := by
          split at hfound
          · rename_i hpat
            split at hfound
            · rename_i hlonger
              simp only [Option.some.injEq, Prod.mk.injEq] at hfound
              obtain ⟨-, rfl⟩ := hfound
              exact hstep candidate bestLen best h hcand.1 hcand.2 hpat hlonger
            · cases hfound
          · cases hfound
        split at hr
        · exact ⟨m.len, hr ▸ hm⟩
        · split at hr
          · exact ⟨m.len, hr ▸ hm⟩
          · exact hr ▸ ih _ _ _ _ hm
      · split at hr
        · exact ⟨bestLen, hr ▸ h⟩
        · exact hr ▸ ih _ _ _ _ h
    · exact ⟨bestLen, hr ▸ h⟩

/-- A match a search returns is verified and lies in the block: it fits, starts at or
before the searched position, is longer than `longest`, and copies from at or above the
low limit. -/
theorem findWiderMatch_verified {c : HashChains} {window : ByteArray}
    {ip low limit longest : Nat} (hbase : c.base ≤ c.lowLimit) (hlow : c.lowLimit ≤ low)
    (hip : low ≤ ip) (hlimit : ip + minMatch ≤ limit) {m : ChainMatch}
    (h : (c.findWiderMatch window ip low limit longest).2 = some m) :
    m.Fits window c.base low limit ∧ m.start ≤ ip ∧ longest < m.len ∧
      c.lowLimit + m.offset ≤ m.start := by
  have hfits := findWiderMatch_fits hbase (Nat.le_trans hbase hlow) hip hlimit (Prod.ext rfl h)
  obtain ⟨-, hl⟩ := insert_frame c window ip
  -- the best match so far is always longer than `longest` and copies from above `lowLimit`
  obtain ⟨-, -, hinv⟩ := walk_invariant (c.insert window ip)
    ⟨window, ip, low, limit, max (c.insert window ip).lowLimit (ip - maxDistance),
      readU32 window (ip - (c.insert window ip).base)⟩
    (fun bestLen best => longest ≤ bestLen ∧ ∀ m, best = some m →
      m.start ≤ ip ∧ longest < m.len ∧ (c.insert window ip).lowLimit + m.offset ≤ m.start)
    (fun candidate bestLen best hbest hlo hlt _ hlonger => by
      obtain ⟨hle, -⟩ := hbest
      obtain ⟨-, -, hreach, -⟩ := (c.insert window ip).backCount_spec
        ⟨window, ip, low, limit, max (c.insert window ip).lowLimit (ip - maxDistance),
          readU32 window (ip - (c.insert window ip).base)⟩ candidate 0 (Nat.zero_le _)
        (by dsimp only at hlo ⊢; omega)
      refine ⟨by omega, fun m' hm' => ?_⟩
      rw [Option.some.injEq] at hm'
      rw [← hm']
      dsimp only at hreach hlt hlonger hle ⊢
      exact ⟨Nat.sub_le _ _, by omega, by omega⟩)
    _ _ _ longest none ⟨Nat.le_refl _, fun _ hnone => by cases hnone⟩
  obtain ⟨hstart, hlonger, hsource⟩ := hinv m h
  rw [hl] at hsource
  exact ⟨hfits, hstart, hlonger, hsource⟩

/-! ## The states searches run in are sound -/

theorem sound_fresh (w : AddressWidth) (level : Int) : (fresh w level).Sound :=
  ⟨Array.size_replicate, Array.size_replicate, Nat.le_refl _, Nat.le_refl _,
    Nat.le_refl _⟩

theorem Sound.of_findWiderMatch_eq {c c' : HashChains} (hc : c.Sound) {window : ByteArray}
    {ip low limit longest : Nat} {found : Option ChainMatch}
    (h : c.findWiderMatch window ip low limit longest = (c', found)) : c'.Sound := by
  have := hc.findWiderMatch window ip low limit longest
  rwa [h] at this

theorem Sound.lazy {c : HashChains} (hc : c.Sound) (window : ByteArray)
    (anchor matchLimit mflimit : Nat) (current : ChainMatch) (nextIp attempts : Nat) :
    (c.lazy window anchor matchLimit mflimit current nextIp attempts).1.Sound := by
  fun_induction c.lazy window anchor matchLimit mflimit current nextIp attempts with
  | case1 c current nextIp attempts _ c' m hfind _ ih => exact ih (hc.of_findWiderMatch_eq hfind)
  | case2 c current nextIp attempts _ c' m hfind _ ih => exact ih (hc.of_findWiderMatch_eq hfind)
  | case3 c current nextIp attempts _ c' hfind ih => exact ih (hc.of_findWiderMatch_eq hfind)
  | case4 => exact hc

theorem Sound.encodeFrom {c : HashChains} (hc : c.Sound) (window : ByteArray) (e : Emitter)
    (mflimit matchLimit anchor ip : Nat) :
    (c.encodeFrom window e mflimit matchLimit anchor ip).1.Sound := by
  fun_induction c.encodeFrom window e mflimit matchLimit anchor ip with
  | case1 c e anchor ip _ c₁ hf ih => exact ih (hc.of_findWiderMatch_eq hf)
  | case2 c e anchor ip _ c₁ m₁ hf c₂ m₂ hl _ _ =>
    have := (hc.of_findWiderMatch_eq hf).lazy window anchor matchLimit mflimit m₁ (ip + 1)
      (levelParams c₁.level).lookahead
    rwa [hl] at this
  | case3 c e anchor ip _ c₁ m₁ hf c₂ m₂ hl e' _ ih =>
    have := (hc.of_findWiderMatch_eq hf).lazy window anchor matchLimit mflimit m₁ (ip + 1)
      (levelParams c₁.level).lookahead
    rw [hl] at this
    exact ih this
  | case4 => exact hc

theorem Sound.compressBlock {c : HashChains} (hc : c.Sound) (window : ByteArray)
    (capacity : Nat) : (c.compressBlock window capacity).1.Sound := by
  rw [HashChains.compressBlock]
  split
  · exact hc
  · split
    · exact hc
    · exact hc.encodeFrom _ _ _ _ _ _

end HashChains

namespace HcStream

/-- The finder a stream encodes its next block with: the whole window is history. -/
def blockChains (p : HcStream) : HashChains :=
  { p.chains with dictLimit := p.chains.base + p.window.size }

theorem blockChains_sound {p : HcStream} (hp : p.chains.Sound) : p.blockChains.Sound :=
  ⟨hp.head_size, hp.chain_size, hp.base_le_next, hp.base_le_lowLimit, Nat.le_add_right _ _⟩

theorem indexDictionary_sound {s : HcStream} (hs : s.chains.Sound) (dict : ByteArray) :
    (s.indexDictionary dict).1.chains.Sound := by
  rw [HcStream.indexDictionary]
  dsimp only
  -- the dictionary becomes the window from `base`, and only its positions are indexed
  split
  · apply HashChains.Sound.insert
    exact ⟨hs.head_size, hs.chain_size, hs.base_le_next, Nat.le_refl _, Nat.le_add_right _ _⟩
  · exact ⟨hs.head_size, hs.chain_size, hs.base_le_next, Nat.le_refl _, Nat.le_add_right _ _⟩

/-- Trimming moves the window's first position up and every position that must lie in the
window with it. -/
theorem trimHistory_sound {s : HcStream} (hs : s.chains.Sound) : s.trimHistory.chains.Sound := by
  simp only [HcStream.trimHistory]
  exact ⟨hs.head_size, hs.chain_size, Nat.le_max_right _ _, Nat.le_refl _, Nat.le_max_right _ _⟩

theorem prepare_sound {s : HcStream} (hs : s.chains.Sound) (n : Nat) :
    (s.prepare n).chains.Sound := by
  simp only [HcStream.prepare]
  split
  · exact indexDictionary_sound
      (HashChains.sound_fresh s.trimHistory.chains.width s.trimHistory.level) _
  · exact trimHistory_sound hs

/-- A block that fails rewinds the positions to index to the block's start, which lies in
the window. -/
theorem encodeNext_sound {p : HcStream} (hp : p.chains.Sound) (src : ByteArray)
    (capacity : Nat) : (p.encodeNext src capacity).1.chains.Sound := by
  have hc := (blockChains_sound hp).compressBlock (p.window ++ src) capacity
  rw [HcStream.encodeNext]
  split
  · rename_i c' block hcb
    rw [HcStream.blockChains, hcb] at hc
    exact hc
  · rename_i c' e hcb
    rw [HcStream.blockChains, hcb] at hc
    exact ⟨hc.head_size, hc.chain_size, Nat.le_min.mpr ⟨hc.base_le_next, hc.base_le_dictLimit⟩,
      hc.base_le_lowLimit, hc.base_le_dictLimit⟩

theorem compressContinue_sound {s : HcStream} (hs : s.chains.Sound) (src : ByteArray)
    (capacity : Nat) : (s.compressContinue src capacity).1.chains.Sound := by
  rw [HcStream.compressContinue]
  split
  · exact hs
  · exact encodeNext_sound (prepare_sound hs src.size) src capacity

/-- Every call on a stream keeps its finder sound. -/
theorem track_sound {p : HcStream × List UInt8} (hp : p.1.chains.Sound) (op : StreamOp) :
    (HcStream.track p op).1.chains.Sound := by
  obtain ⟨s, H⟩ := p
  cases op with
  | reset => exact HashChains.sound_fresh _ _
  | resetWithLevel level => exact HashChains.sound_fresh _ _
  | setLevel level =>
    simp only [HcStream.track, HcStream.setLevel]
    exact ⟨hp.head_size, hp.chain_size, hp.base_le_next, hp.base_le_lowLimit,
      hp.base_le_dictLimit⟩
  | loadDict dict =>
    simp only [HcStream.track, HcStream.loadDict]
    exact indexDictionary_sound (HashChains.sound_fresh s.chains.width s.level) dict
  | compress src capacity =>
    have hc := compressContinue_sound hp src capacity
    rcases hcc : s.compressContinue src capacity with ⟨s', _ | block⟩
    · simp only [HcStream.track, hcc]
      rw [hcc] at hc
      exact hc
    · simp only [HcStream.track, hcc]
      rw [hcc] at hc
      exact hc
  | saveDict _ | historyLen | level => exact hp

theorem replay_sound (w : AddressWidth) (level : Int) (ops : List StreamOp) :
    (replay w level ops).1.chains.Sound := by
  -- the calls are run one after the other from a new stream
  suffices ∀ p : HcStream × List UInt8, p.1.chains.Sound →
      (ops.foldl HcStream.track p).1.chains.Sound from
    this _ (HashChains.sound_fresh w level)
  induction ops with
  | nil => exact fun _ hp => hp
  | cons op ops ih => exact fun p hp => ih _ (track_sound hp op)

end HcStream

namespace HashChains

/-- The states the finder searches in: the fresh finder of a one-shot block, the finder a
stream hands the block encoder after any calls on it, and every state a search leaves. -/
inductive Searched : HashChains → Prop
  | fresh (w : AddressWidth) (level : Int) : Searched (fresh w level)
  | stream (w : AddressWidth) (level : Int) (ops : List StreamOp) (n : Nat) :
    Searched ((HcStream.replay w level ops).1.prepare n).blockChains
  | search {c : HashChains} (window : ByteArray) (ip low limit longest : Nat) :
    Searched c → Searched (c.findWiderMatch window ip low limit longest).1

theorem Searched.sound {c : HashChains} (h : c.Searched) : c.Sound := by
  induction h with
  | fresh w level => exact sound_fresh w level
  | stream w level ops n =>
    exact HcStream.blockChains_sound (HcStream.prepare_sound (HcStream.replay_sound w level ops) n)
  | search window ip low limit longest _ ih => exact ih.findWiderMatch window ip low limit longest

/-- In every state the encoders search in, a search as the block encoder makes it faults
nowhere on the machine, examines at most the level's number of candidates, and returns what
the model returns: nothing, or a match inside the block, longer than `longest`, copying
from at or above the low limit within `maxDistance`, whose bytes equal those it copies. -/
theorem findWiderMatch_safe {c : HashChains} (hc : c.Searched) (window : ByteArray)
    {ip low limit : Nat} (longest : Nat) (hlow : c.lowLimit ≤ low) (hip : low ≤ ip)
    (hend : ip + mfLimit ≤ c.base + window.size)
    (hlimit : limit + lastLiterals = c.base + window.size) :
    ∃ k ≤ (levelParams c.level).attempts,
      c.findWiderMatch? window ip low limit longest =
          some (c.findWiderMatch window ip low limit longest, k) ∧
        ∀ m, (c.findWiderMatch window ip low limit longest).2 = some m →
          m.Fits window c.base low limit ∧ m.start ≤ ip ∧ longest < m.len ∧
            c.lowLimit + m.offset ≤ m.start := by
  have hsound := hc.sound
  obtain ⟨k, hk, hcheck⟩ := findWiderMatch?_eq hsound hlow hip hend hlimit longest
  refine ⟨k, hk, hcheck, fun m hm => ?_⟩
  simp only [mfLimit, lastLiterals] at hend hlimit
  exact findWiderMatch_verified hsound.base_le_lowLimit hlow hip
    (by simp only [minMatch]; omega) hm

/-- A one-shot finder searching a run of a repeated pair at its third byte. -/
theorem findWiderMatch_safe_pairs :
    (fresh .bits32 9).Searched ∧ (fresh .bits32 9).lowLimit ≤ 65536 ∧ 65536 ≤ 65538 ∧
      65538 + mfLimit ≤ (fresh .bits32 9).base +
        (⟨#[97, 98, 97, 98, 97, 98, 97, 98, 97, 98, 97, 98, 97, 98, 97, 98]⟩ : ByteArray).size ∧
      65547 + lastLiterals = (fresh .bits32 9).base +
        (⟨#[97, 98, 97, 98, 97, 98, 97, 98, 97, 98, 97, 98, 97, 98, 97, 98]⟩ : ByteArray).size ∧
      ∃ k ≤ (levelParams (fresh .bits32 9).level).attempts,
        (fresh .bits32 9).findWiderMatch?
            ⟨#[97, 98, 97, 98, 97, 98, 97, 98, 97, 98, 97, 98, 97, 98, 97, 98]⟩ 65538 65536 65547 3 =
          some ((fresh .bits32 9).findWiderMatch
            ⟨#[97, 98, 97, 98, 97, 98, 97, 98, 97, 98, 97, 98, 97, 98, 97, 98]⟩ 65538 65536 65547 3, k) ∧
        ∀ m, ((fresh .bits32 9).findWiderMatch
            ⟨#[97, 98, 97, 98, 97, 98, 97, 98, 97, 98, 97, 98, 97, 98, 97, 98]⟩ 65538 65536 65547 3).2 =
              some m →
          m.Fits ⟨#[97, 98, 97, 98, 97, 98, 97, 98, 97, 98, 97, 98, 97, 98, 97, 98]⟩
              (fresh .bits32 9).base 65536 65547 ∧
            m.start ≤ 65538 ∧ 3 < m.len ∧ (fresh .bits32 9).lowLimit + m.offset ≤ m.start :=
  ⟨.fresh .bits32 9, Nat.le_refl _, by decide, by decide, by decide,
    findWiderMatch_safe (.fresh .bits32 9) _ 3 (Nat.le_refl _) (by decide) (by decide)
      (by decide)⟩

end HashChains

end WireCodec.Lz4
