import WireCodec.Proofs.Lz4.Counters
import WireCodec.Lz4.Fast
import WireCodec.Lz4.HighCompression

/-!
# The address width is not observable

An encoder is specialised for an address width, and the widths differ in two places: the
counters read registers of four or eight bytes, exclusive-or them and stop at the lowest
set bit of the difference, and the tables store a position in 32 or 64 bits. Neither
shows in the output. A counter that stops inside a register stops at the first differing
byte, so every counter is the plain byte-by-byte count whatever its register
(`matchCount_eq_tailCount`, `patternCount_eq_tailPatternCount`); and every position an
encoder stores lies below `2 ^ 32`, where both widths store it whole
(`AddressWidth.store_of_lt`).

So running an encoder under another width is running it unchanged: the fast scan
(`FastInput.scan_withWidth`) and every step of the hash chains, from indexing to the
encoding of a block (`HashChains.compressBlock_withWidth`), return the same result and
the same tables, the width field apart, while the positions they store stay below
`2 ^ 32`.
-/

namespace WireCodec.Lz4

/-- The forward counters of the two widths agree: each counts the bytes one by one. -/
theorem matchCount_width (w w' : AddressWidth) (src : ByteArray) (ip matched limit : Nat) :
    matchCount w src ip matched limit = matchCount w' src ip matched limit := by
  rw [matchCount_eq_tailCount, matchCount_eq_tailCount]

/-- Both widths store a position below `2 ^ 32` whole. -/
theorem AddressWidth.store_of_lt (w : AddressWidth) {index : Nat} (h : index < Nat.pow 2 32) :
    w.store index = index := by
  cases w with
  | bits32 => exact Nat.mod_eq_of_lt h
  | bits64 => exact Nat.mod_eq_of_lt (Nat.lt_trans h (by decide))

theorem FastTable.put_of_lt (t : FastTable) (w w' : AddressWidth) (h : Nat) {pos : Nat}
    (hpos : pos < Nat.pow 2 32) : t.put w h pos = t.put w' h pos := by
  simp only [FastTable.put, w.store_of_lt hpos, w'.store_of_lt hpos]

/-- The same fast run under the width `w`. -/
def FastInput.withWidth (I : FastInput) (w : AddressWidth) : FastInput :=
  { I with width := w }

namespace FastInput

@[simp] theorem withWidth_src (I : FastInput) (w : AddressWidth) : (I.withWidth w).src = I.src :=
  rfl

@[simp] theorem withWidth_width (I : FastInput) (w : AddressWidth) : (I.withWidth w).width = w :=
  rfl

@[simp] theorem withWidth_scanEnd (I : FastInput) (w : AddressWidth) :
    (I.withWidth w).scanEnd = I.scanEnd :=
  rfl

@[simp] theorem withWidth_matchLimit (I : FastInput) (w : AddressWidth) :
    (I.withWidth w).matchLimit = I.matchLimit :=
  rfl

variable {I : FastInput} {w : AddressWidth} (hI : I.scanEnd < Nat.pow 2 32)
include hI

/-- A search stores positions it tries, none past the end of the scan. -/
theorem search_withWidth (table : FastTable) (forwardIp step searchNb forwardH : Nat) :
    (I.withWidth w).search table forwardIp step searchNb forwardH =
      I.search table forwardIp step searchNb forwardH := by
  fun_induction I.search table forwardIp step searchNb forwardH
  case case1 hnext =>
    rw [search, withWidth_scanEnd, if_pos hnext]
  case case2 hnext _ _ hfound =>
    rw [search, withWidth_scanEnd, if_neg hnext, withWidth_width, withWidth_src,
      FastTable.put_of_lt _ w I.width _ (by omega), if_pos hfound]
  case case3 hnext _ _ _ hfound ih =>
    rw [search, withWidth_scanEnd, if_neg hnext, withWidth_width, withWidth_src,
      FastTable.put_of_lt _ w I.width _ (by omega), if_neg hfound]
    exact ih

/-- A run of matches stores the positions it reaches, none past the end of the scan. -/
theorem emitMatches_withWidth (table : FastTable) (e : Emitter) (litStart ip matchPos : Nat) :
    (I.withWidth w).emitMatches table e litStart ip matchPos =
      I.emitMatches table e litStart ip matchPos := by
  fun_induction I.emitMatches table e litStart ip matchPos
  case case1 hw =>
    rw [emitMatches, withWidth_width, withWidth_src, withWidth_matchLimit,
      matchCount_width w I.width]
    dsimp only
    rw [hw]
  case case2 hw ip' hdone =>
    rw [emitMatches, withWidth_width, withWidth_src, withWidth_matchLimit,
      matchCount_width w I.width]
    dsimp only
    rw [hw]
    dsimp only
    rw [withWidth_scanEnd, if_pos hdone]
  case case3 hw ip' hnot _ _ _ _ hfound ih =>
    have hip' : ip' < Nat.pow 2 32 := by omega
    rw [emitMatches, withWidth_width, withWidth_src, withWidth_matchLimit,
      matchCount_width w I.width]
    dsimp only
    rw [hw]
    dsimp only
    rw [withWidth_scanEnd, if_neg hnot, FastTable.put_of_lt _ w I.width _ (by omega : ip' - 2 < _),
      FastTable.put_of_lt _ w I.width _ hip', if_pos hfound]
    exact ih
  case case4 hw ip' hnot _ _ _ _ hfound =>
    have hip' : ip' < Nat.pow 2 32 := by omega
    rw [emitMatches, withWidth_width, withWidth_src, withWidth_matchLimit,
      matchCount_width w I.width]
    dsimp only
    rw [hw]
    dsimp only
    rw [withWidth_scanEnd, if_neg hnot, FastTable.put_of_lt _ w I.width _ (by omega : ip' - 2 < _),
      FastTable.put_of_lt _ w I.width _ hip', if_neg hfound]

omit hI in
theorem extendBack_withWidth (anchor ip matchPos : Nat) :
    (I.withWidth w).extendBack anchor ip matchPos = I.extendBack anchor ip matchPos := by
  fun_induction I.extendBack anchor ip matchPos
  case case1 hc ih =>
    rw [extendBack, withWidth_src, if_pos hc]
    exact ih
  case case2 hc =>
    rw [extendBack, withWidth_src, if_neg hc]

omit hI in
/-- One round of the scan, with the proofs its recursion carries left out. -/
theorem scan_eq (accel : Nat) (table : FastTable) (e : Emitter) (anchor ip : Nat)
    (hip : anchor < ip) :
    I.scan accel table e anchor ip hip =
      match I.search table ip 1 (accel * 64 % Nat.pow 2 32) (table.hashAt I.src ip) with
      | (_, none) => e.finish I.src anchor (I.src.size - anchor)
      | (table, some (ip', matchPos)) =>
        match I.emitMatches table e anchor (I.extendBack anchor ip' matchPos).1
            (I.extendBack anchor ip' matchPos).2 with
        | .error err => .error err
        | .ok (.done e a) => e.finish I.src a (I.src.size - a)
        | .ok (.next table e a) => I.scan accel table e a (a + 1) (Nat.lt_succ_self a) := by
  rw [scan]
  split
  · rename_i heq
    rw [heq]
  · rename_i heq
    rw [heq]
    dsimp only
    split <;> rename_i heq' <;> rw [heq']

/-- The scan under another width is the same scan. -/
theorem scan_withWidth (accel : Nat) (table : FastTable) (e : Emitter) (anchor ip : Nat)
    (hip : anchor < ip) :
    (I.withWidth w).scan accel table e anchor ip hip = I.scan accel table e anchor ip hip := by
  fun_induction I.scan accel table e anchor ip hip
  case case1 hs =>
    rw [scan_eq, withWidth_src, search_withWidth hI, hs]
  case case2 hs _ hm =>
    rw [scan_eq, withWidth_src, search_withWidth hI, hs]
    dsimp only
    rw [extendBack_withWidth, emitMatches_withWidth hI, hm]
  case case3 hs _ _ hm =>
    rw [scan_eq, withWidth_src, search_withWidth hI, hs]
    dsimp only
    rw [extendBack_withWidth, emitMatches_withWidth hI, hm]
  case case4 hs _ _ _ hm ih =>
    rw [scan_eq, withWidth_src, search_withWidth hI, hs]
    dsimp only
    rw [extendBack_withWidth, emitMatches_withWidth hI, hm]
    exact ih

end FastInput

/-- The fast encoder returns the same block, or the same error, under both widths. -/
theorem compressFast_width (w w' : AddressWidth) (src : ByteArray) (capacity : Nat)
    (acceleration : UInt32) :
    compressFast w src capacity acceleration = compressFast w' src capacity acceleration := by
  unfold compressFast
  dsimp only
  split
  · rfl
  · split
    · rfl
    · rename_i hsize _
      unfold maxInputSize at hsize
      have hscan : src.size - mfLimit + 1 < Nat.pow 2 32 := by
        rw [show Nat.pow 2 32 = 4294967296 by rfl]
        omega
      rw [FastTable.put_of_lt _ w w' _ (by decide : 0 < Nat.pow 2 32)]
      exact @FastInput.scan_withWidth ⟨src, w', src.size - mfLimit + 1, src.size - lastLiterals⟩
        w hscan _ _ _ _ _ _

/-- The same finder under the width `w`. -/
def HashChains.withWidth (c : HashChains) (w : AddressWidth) : HashChains :=
  { c with width := w }

namespace HashChains

variable {w : AddressWidth}

section Fields

variable (c : HashChains) (w : AddressWidth)

@[simp] theorem withWidth_width : (c.withWidth w).width = w := rfl
@[simp] theorem withWidth_head : (c.withWidth w).head = c.head := rfl
@[simp] theorem withWidth_chain : (c.withWidth w).chain = c.chain := rfl
@[simp] theorem withWidth_base : (c.withWidth w).base = c.base := rfl
@[simp] theorem withWidth_dictLimit : (c.withWidth w).dictLimit = c.dictLimit := rfl
@[simp] theorem withWidth_lowLimit : (c.withWidth w).lowLimit = c.lowLimit := rfl
@[simp] theorem withWidth_nextToUpdate : (c.withWidth w).nextToUpdate = c.nextToUpdate := rfl
@[simp] theorem withWidth_level : (c.withWidth w).level = c.level := rfl

end Fields

/-- Indexing stores positions below its target. -/
theorem insertFrom_withWidth (c : HashChains) (window : ByteArray) (index target : Nat)
    (ht : target ≤ Nat.pow 2 32) :
    (c.withWidth w).insertFrom window index target =
      (c.insertFrom window index target).withWidth w := by
  fun_induction c.insertFrom window index target
  case case1 c index hlt _ _ c' ih =>
    -- the stored position is whole under both widths
    have hs : w.store index = c.width.store index := by
      rw [w.store_of_lt (by omega), c.width.store_of_lt (by omega)]
    rw [insertFrom, if_pos hlt, ← ih]
    dsimp only
    rw [withWidth_width, hs]
    rfl
  case case2 hge =>
    rw [insertFrom, if_neg hge]

theorem insert_withWidth (c : HashChains) (window : ByteArray) (target : Nat)
    (ht : target ≤ Nat.pow 2 32) :
    (c.withWidth w).insert window target = (c.insert window target).withWidth w := by
  rw [insert, insert, withWidth_nextToUpdate]
  split
  · rw [insertFrom_withWidth c window _ target ht]
    rfl
  · rfl

/-- The walk reads the tables and counts bytes; the width enters neither. -/
theorem backCount_withWidth (c : HashChains) (W : Walk) (candidate back : Nat) :
    (c.withWidth w).backCount W candidate back = c.backCount W candidate back := by
  fun_induction c.backCount W candidate back
  case case1 hc ih =>
    rw [backCount, withWidth_lowLimit, withWidth_base, if_pos hc]
    exact ih
  case case2 hc =>
    rw [backCount, withWidth_lowLimit, withWidth_base, if_neg hc]

theorem nextCandidate_withWidth (c : HashChains) (W : Walk) (candidate : Nat) (rep : Repeat) :
    (c.withWidth w).nextCandidate W candidate rep = c.nextCandidate W candidate rep := by
  simp only [nextCandidate, withWidth_chain, withWidth_base, patternCount_eq_tailPatternCount]
  rfl

theorem walk_withWidth (c : HashChains) (W : Walk) (attempts candidate : Nat) (rep : Repeat)
    (bestLen : Nat) (best : Option ChainMatch) :
    (c.withWidth w).walk W candidate rep bestLen best attempts =
      c.walk W candidate rep bestLen best attempts := by
  induction attempts generalizing candidate rep bestLen best with
  | zero => rfl
  | succ n ih =>
    simp only [walk, withWidth_base, matchCount_eq_tailCount, backCount_withWidth,
      nextCandidate_withWidth, ih]

/-- A search indexes up to the position it searches. -/
theorem findWiderMatch_withWidth (c : HashChains) (window : ByteArray) (ip low limit longest : Nat)
    (hip : ip ≤ Nat.pow 2 32) :
    (c.withWidth w).findWiderMatch window ip low limit longest =
      ((c.findWiderMatch window ip low limit longest).1.withWidth w,
        (c.findWiderMatch window ip low limit longest).2) := by
  simp only [findWiderMatch, insert_withWidth c window ip hip, withWidth_lowLimit, withWidth_base,
    withWidth_head, withWidth_level, walk_withWidth]
  rfl

/-- The lazy step searches positions up to `mflimit`. -/
theorem lazy_withWidth (c : HashChains) (window : ByteArray) (anchor matchLimit mflimit : Nat)
    (current : ChainMatch) (nextIp attempts : Nat) (hmf : mflimit ≤ Nat.pow 2 32) :
    (c.withWidth w).lazy window anchor matchLimit mflimit current nextIp attempts =
      ((c.lazy window anchor matchLimit mflimit current nextIp attempts).1.withWidth w,
        (c.lazy window anchor matchLimit mflimit current nextIp attempts).2) := by
  fun_induction c.lazy window anchor matchLimit mflimit current nextIp attempts
  case case1 hc _ _ hf hgain ih =>
    rw [lazy, if_pos hc, findWiderMatch_withWidth _ _ _ _ _ _ (by omega), hf]
    dsimp only
    rw [if_pos hgain, withWidth_level]
    exact ih
  case case2 hc _ _ hf hgain ih =>
    rw [lazy, if_pos hc, findWiderMatch_withWidth _ _ _ _ _ _ (by omega), hf]
    dsimp only
    rw [if_neg hgain]
    exact ih
  case case3 hc _ hf ih =>
    rw [lazy, if_pos hc, findWiderMatch_withWidth _ _ _ _ _ _ (by omega), hf]
    exact ih
  case case4 hc =>
    rw [lazy, if_neg hc]

/-- One step of the block scan, with the proofs its recursion carries left out. -/
theorem encodeFrom_eq (c : HashChains) (window : ByteArray) (e : Emitter)
    (mflimit matchLimit anchor ip : Nat) :
    c.encodeFrom window e mflimit matchLimit anchor ip =
      if ip ≤ mflimit then
        match c.findWiderMatch window ip anchor matchLimit (minMatch - 1) with
        | (c₁, none) => c₁.encodeFrom window e mflimit matchLimit anchor (ip + 1)
        | (c₁, some m₁) =>
          match c₁.lazy window anchor matchLimit mflimit m₁ (ip + 1)
              (levelParams c₁.level).lookahead with
          | (c₂, m₂) =>
            match e.writeSequence window (anchor - c₂.base) (m₂.start - anchor) m₂.offset m₂.len with
            | .error err => (c₂, .error err)
            | .ok e => c₂.encodeFrom window e mflimit matchLimit m₂.stop m₂.stop
      else (c, e.finish window (anchor - c.base) (window.size - (anchor - c.base))) := by
  rw [encodeFrom]
  split
  · split
    · rename_i heq
      rw [heq]
    · rename_i heq
      -- the restated matches are the scan's own up to unfolding
      rewrite [heq]
      rfl
  · rfl

/-- The scan of a block searches positions up to `mflimit`. -/
theorem encodeFrom_withWidth (c : HashChains) (window : ByteArray) (e : Emitter)
    (mflimit matchLimit anchor ip : Nat) (hmf : mflimit ≤ Nat.pow 2 32) :
    (c.withWidth w).encodeFrom window e mflimit matchLimit anchor ip =
      ((c.encodeFrom window e mflimit matchLimit anchor ip).1.withWidth w,
        (c.encodeFrom window e mflimit matchLimit anchor ip).2) := by
  fun_induction c.encodeFrom window e mflimit matchLimit anchor ip
  case case1 hle _ hf ih =>
    rw [encodeFrom_eq, if_pos hle, findWiderMatch_withWidth _ _ _ _ _ _ (by omega), hf]
    exact ih
  case case2 hle _ _ hf _ _ hl _ hw =>
    rw [encodeFrom_eq, if_pos hle, findWiderMatch_withWidth _ _ _ _ _ _ (by omega), hf]
    dsimp only
    rw [lazy_withWidth _ _ _ _ _ _ _ _ hmf, withWidth_level, hl]
    dsimp only
    rw [withWidth_base, hw]
  case case3 hle _ _ hf _ _ hl _ hw ih =>
    rw [encodeFrom_eq, if_pos hle, findWiderMatch_withWidth _ _ _ _ _ _ (by omega), hf]
    dsimp only
    rw [lazy_withWidth _ _ _ _ _ _ _ _ hmf, withWidth_level, hl]
    dsimp only
    rw [withWidth_base, hw]
    exact ih
  case case4 hle =>
    rw [encodeFrom_eq, if_neg hle, withWidth_base]

/-- Encoding a block stores positions below the end of its window. -/
theorem compressBlock_withWidth (c : HashChains) (window : ByteArray) (capacity : Nat)
    (hend : c.base + window.size ≤ Nat.pow 2 32) :
    (c.withWidth w).compressBlock window capacity =
      ((c.compressBlock window capacity).1.withWidth w, (c.compressBlock window capacity).2) := by
  rw [compressBlock, compressBlock, withWidth_base, withWidth_dictLimit]
  by_cases hbig : c.base + window.size - c.dictLimit > maxInputSize
  · rw [if_pos hbig, if_pos hbig]
  · by_cases hshort : c.base + window.size - c.dictLimit < minLength
    · rw [if_neg hbig, if_pos hshort, if_neg hbig, if_pos hshort]
    · rw [if_neg hbig, if_neg hshort, if_neg hbig, if_neg hshort]
      exact encodeFrom_withWidth _ _ _ _ _ _ _ (by omega)

/-- The block alone, in a form that instantiates at a concrete finder without the kernel
computing it. -/
theorem compressBlock_withWidth_snd (c : HashChains) (window : ByteArray) (capacity : Nat)
    (hend : c.base + window.size ≤ Nat.pow 2 32) :
    ((c.withWidth w).compressBlock window capacity).2 = (c.compressBlock window capacity).2 := by
  rw [compressBlock_withWidth c window capacity hend]

theorem fresh_withWidth (w w' : AddressWidth) (level : Int) :
    (fresh w' level).withWidth w = fresh w level := rfl

end HashChains

/-- The high-compression encoder returns the same block, or the same error, under both
widths. -/
theorem compressHC_width (w w' : AddressWidth) (src : ByteArray) (capacity : Nat) (level : Int) :
    compressHC w src capacity level = compressHC w' src capacity level := by
  rw [compressHC, compressHC]
  by_cases hsize : src.size > maxInputSize
  · rw [if_pos hsize, if_pos hsize]
  · rw [if_neg hsize, if_neg hsize]
    unfold maxInputSize at hsize
    have hbase : (HashChains.fresh w' level).base = startIndex := rfl
    have hend : (HashChains.fresh w' level).base + src.size ≤ Nat.pow 2 32 := by
      rw [hbase, show Nat.pow 2 32 = 4294967296 by rfl]
      unfold startIndex
      omega
    rw [← HashChains.fresh_withWidth w w' level]
    exact HashChains.compressBlock_withWidth_snd _ _ _ hend

end WireCodec.Lz4
