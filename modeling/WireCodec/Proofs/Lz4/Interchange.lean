import WireCodec.Proofs.Lz4.FastRoundTrip
import WireCodec.Proofs.Lz4.StreamHistory

/-!
# Blocks that every decoder reads

Decoders of the block format other than this one rely on its end conditions
(`Block.Conforms`): the last five bytes are literals, no match starts in the last twelve,
and an offset reaches no further back than the block, or the history a stream keeps.
`blocks_keep_end_conditions` says that the high-compression encoder, the stream and the
fast encoder write such blocks, the last one for every acceleration that is not a multiple
of `2 ^ 26`.

The exception is in the fast encoder's search, which grows its step every 64 misses,
counting from 64 times the acceleration in 32 bits. For a multiple of `2 ^ 26` that count
wraps to zero, the step after the first miss is zero, and the search may stop at the last
position of the scan, 11 bytes before the end; the match written there starts too late.
Any other acceleration makes every step at least one, and a search then stops at least
`mfLimit` bytes before the end (`FastInput.search_lt_scanEnd`).
-/

namespace WireCodec.Lz4

/-- `block` is written as a block of the format that stands, after `history` bytes of
history, for `len` bytes and keeps the end conditions. -/
def Interchangeable (block : ByteArray) (history len : Nat) : Prop :=
  ∃ b : Block, block.data.toList = b.bytes ∧ b.Conforms history len

/-- A block closed after a prefix that follows the whole input, of at least `minLength`
bytes, keeps the end conditions. -/
theorem Emitter.Follows.interchangeable {e : Emitter} {src out : ByteArray} {anchor : Nat}
    (he : e.Follows src.data.toList 0 anchor) (hlong : minLength ≤ src.size)
    (hf : e.finish src anchor (src.size - anchor) = .ok out) : Interchangeable out 0 src.size := by
  have hshort : src.data.toList.length - 0 < minLength → anchor = 0 := by
    rw [ByteArray.length_data_toList]
    omega
  obtain ⟨b, hb, -, hconf⟩ := he.finish rfl hshort hf
  rw [ByteArray.length_data_toList, Nat.sub_zero] at hconf
  exact ⟨b, hb, hconf⟩

/-- The search count at which a fast scan starts stays at least 64 unless the
acceleration is a multiple of `2 ^ 26`. -/
theorem searchStart_ge {accel : Nat} (h : accel % Nat.pow 2 26 ≠ 0) :
    64 ≤ accel * 64 % Nat.pow 2 32 := by
  rw [show Nat.pow 2 32 = Nat.pow 2 26 * 64 by rfl, Nat.mul_mod_mul_right]
  omega

/-- Where a run of matches leaves the scan follows the input up to the position it
names. -/
def FastStep.Follows (t : List UInt8) : FastStep → Prop
  | .done e a => e.Follows t 0 a
  | .next _ e a => e.Follows t 0 a

namespace FastInput

/-- While the step is at least one, a search stops strictly before the end of the scan:
the count of misses only grows, so every later step is at least one too. -/
theorem search_lt_scanEnd {I : FastInput} {table : FastTable}
    {forwardIp step searchNb forwardH ip matchPos : Nat} (hstep : 0 < step)
    (hnb : 64 ≤ searchNb)
    (h : (I.search table forwardIp step searchNb forwardH).2 = some (ip, matchPos)) :
    ip < I.scanEnd := by
  fun_induction I.search table forwardIp step searchNb forwardH
  case case1 => cases h
  case case2 hnext _ =>
    simp only [Option.some.injEq, Prod.mk.injEq] at h
    obtain ⟨rfl, rfl⟩ := h
    omega
  case case3 ih => exact ih (Nat.div_pos hnb (by decide)) (by omega) h

variable {I : FastInput} (hI : I.Bounds) (hscan : I.scanEnd + mfLimit ≤ I.src.size + 1)
include hI hscan

/-- A match the encoder writes, starting before the end of the scan on four agreeing
bytes within reach, keeps the end conditions. -/
theorem follows_writeSequence {e e' : Emitter} {litStart ip matchPos : Nat}
    (he : e.Follows I.src.data.toList 0 litStart) (hls : litStart ≤ ip) (hmp : matchPos < ip)
    (hreach : ip ≤ matchPos + maxDistance) (hfour : Agree I.src ip matchPos minMatch)
    (hip : ip < I.scanEnd)
    (hw : e.writeSequence I.src litStart (ip - litStart) (ip - matchPos)
      (minMatch + matchCount I.width I.src (ip + minMatch) (matchPos + minMatch) I.matchLimit) =
        .ok e') :
    e'.Follows I.src.data.toList 0
      (ip + (minMatch + matchCount I.width I.src (ip + minMatch) (matchPos + minMatch)
        I.matchLimit)) := by
  have hcount := @matchCount_le I.width I.src (ip + minMatch) (matchPos + minMatch) I.matchLimit
    (by have := hI.scanEnd_le; omega)
  have hagree := hfour.append (agree_matchCount I.width I.src (ip + minMatch)
    (matchPos + minMatch) I.matchLimit)
  have hlimit := hI.matchLimit_le
  exact he.writeSequence rfl hls (by omega) (by omega) (by omega) (Nat.le_add_right _ _)
    (by rw [ByteArray.length_data_toList]; omega) (by rw [ByteArray.length_data_toList]; omega)
    (by rw [Nat.sub_sub_self (Nat.le_of_lt hmp)]; exact hagree) hw

/-- A run of matches, each found right after the previous one and before the end of the
scan, keeps the end conditions. -/
theorem emitMatches_follows {table : FastTable} {e : Emitter} {litStart ip matchPos : Nat}
    (he : e.Follows I.src.data.toList 0 litStart) (hls : litStart ≤ ip) (hmp : matchPos < ip)
    (hreach : ip ≤ matchPos + maxDistance) (hfour : Agree I.src ip matchPos minMatch)
    (hip : ip < I.scanEnd) {r : FastStep}
    (h : I.emitMatches table e litStart ip matchPos = .ok r) : r.Follows I.src.data.toList := by
  fun_induction I.emitMatches table e litStart ip matchPos
  case case1 => cases h
  case case2 hw _ _ =>
    cases h
    exact follows_writeSequence hI hscan he hls hmp hreach hfour hip hw
  case case3 hw _ hnot _ _ _ _ hfound ih =>
    -- the next match starts where this one ends, which is before the end of the scan
    simp only [reaches, Bool.and_eq_true, decide_eq_true_eq, beq_iff_eq] at hfound
    obtain ⟨⟨hlt, hle⟩, heq⟩ := hfound
    exact ih (follows_writeSequence hI hscan he hls hmp hreach hfour hip hw) (Nat.le_refl _) hlt
      hle (agree_of_readU32 heq).symm (by omega) h
  case case4 hw _ _ _ _ _ _ _ =>
    cases h
    exact follows_writeSequence hI hscan he hls hmp hreach hfour hip hw

/-- The scan from `anchor`, with every search step at least one, closes a block that keeps
the end conditions, whenever it closes one. -/
theorem scan_interchangeable (hlong : minLength ≤ I.src.size) {accel : Nat}
    (haccel : 64 ≤ accel * 64 % Nat.pow 2 32) {table : FastTable} {e : Emitter} {anchor ip : Nat}
    (hip : anchor < ip) (he : e.Follows I.src.data.toList 0 anchor) {out : ByteArray}
    (h : I.scan accel table e anchor ip hip = .ok out) : Interchangeable out 0 I.src.size := by
  fun_induction I.scan accel table e anchor ip hip
  case case1 => exact he.interchangeable hlong h
  case case2 => cases h
  case case3 _ _ _ _ hip _ _ _ hs _ _ hm =>
    obtain ⟨hap, hpi, hlt, hle, hfour⟩ := extendBack_of_search hip (congrArg Prod.snd hs)
    have hend := search_lt_scanEnd Nat.one_pos haccel (congrArg Prod.snd hs)
    have hr := emitMatches_follows hI hscan he hap hlt hle hfour (by omega) hm
    exact Emitter.Follows.interchangeable hr hlong h
  case case4 _ _ _ _ hip _ _ _ hs _ _ _ hm ih =>
    obtain ⟨hap, hpi, hlt, hle, hfour⟩ := extendBack_of_search hip (congrArg Prod.snd hs)
    have hend := search_lt_scanEnd Nat.one_pos haccel (congrArg Prod.snd hs)
    exact ih (emitMatches_follows hI hscan he hap hlt hle hfour (by omega) hm) h

end FastInput

/-- The fast encoder keeps the end conditions at every acceleration that is not a
multiple of `2 ^ 26`. -/
theorem compressFast_interchangeable {w : AddressWidth} {src : ByteArray} {capacity : Nat}
    {acceleration : UInt32} {block : ByteArray}
    (hacc : max acceleration.toNat 1 % Nat.pow 2 26 ≠ 0)
    (h : compressFast w src capacity acceleration = .ok block) :
    Interchangeable block 0 src.size := by
  have he := @Emitter.follows_empty src.data.toList 0 capacity (Nat.zero_le _)
  unfold compressFast at h
  dsimp only at h
  split at h
  · cases h
  · split at h
    · -- a short input is one run of literals
      obtain ⟨b, hb, -, hconf⟩ := he.finish rfl (fun _ => rfl) h
      rw [ByteArray.length_data_toList, Nat.sub_zero] at hconf
      exact ⟨b, hb, hconf⟩
    · rename_i hshort
      have hlong : minLength ≤ src.size := Nat.le_of_not_lt hshort
      unfold minLength mfLimit at hshort
      refine FastInput.scan_interchangeable ⟨?_, ?_⟩ ?_ hlong (searchStart_ge hacc) _ he h
      · show src.size - mfLimit + 1 + minMatch ≤ src.size - lastLiterals
        unfold mfLimit minMatch lastLiterals
        omega
      · show src.size - lastLiterals + lastLiterals ≤ src.size
        unfold lastLiterals
        omega
      · show src.size - mfLimit + 1 + mfLimit ≤ src.size + 1
        unfold mfLimit
        omega

/-- The high-compression encoder keeps the end conditions, and its matches stay within
the block. -/
theorem compressHC_interchangeable {w : AddressWidth} {src : ByteArray} {capacity : Nat}
    {level : Int} {block : ByteArray} (h : compressHC w src capacity level = .ok block) :
    Interchangeable block 0 src.size := by
  rw [compressHC] at h
  split at h
  · cases h
  · -- a fresh finder numbers the input from startIndex, where the block starts
    have hbase : (HashChains.fresh w level).base = startIndex := rfl
    have hdict : (HashChains.fresh w level).dictLimit = startIndex := rfl
    have hlow : (HashChains.fresh w level).lowLimit = startIndex := rfl
    rcases hcb : (HashChains.fresh w level).compressBlock src capacity with ⟨c', r⟩
    rw [hcb] at h
    cases h
    obtain ⟨b, hb, -, hconf⟩ := HashChains.compressBlock_follows
      (Nat.le_of_eq (hbase.trans hlow.symm)) (Nat.le_of_eq (hbase.trans hdict.symm))
      (by rw [hdict, hbase]; omega) hcb
    rw [hdict, hbase, Nat.sub_self, Nat.sub_zero] at hconf
    exact ⟨b, hb, hconf⟩

/-- A block encoded after the window of a stream whose every position may be reached
keeps the end conditions of a block after that window. -/
theorem HcStream.encodeNext_interchangeable {p s' : HcStream} {src block : ByteArray}
    {capacity : Nat} (hlow : p.chains.lowLimit = p.chains.base)
    (h : p.encodeNext src capacity = (s', .ok block)) :
    Interchangeable block p.window.size src.size := by
  obtain ⟨-, c', hcb⟩ := HcStream.encodeNext_ok h
  obtain ⟨b, hb, -, hconf⟩ := HashChains.compressBlock_follows
    (by exact Nat.le_of_eq hlow.symm) (by exact Nat.le_add_right _ _)
    (by rw [ByteArray.size_append]; exact Nat.add_le_add_left (Nat.le_add_right _ _) _) hcb
  refine ⟨b, hb, ?_⟩
  simpa [ByteArray.size_append] using hconf

/-- A stream block keeps the end conditions of a block after the history the stream
keeps, whatever the stream's state. -/
theorem compressContinue_interchangeable {s s' : HcStream} {src block : ByteArray}
    {capacity : Nat} (h : s.compressContinue src capacity = (s', .ok block)) :
    Interchangeable block s.historyLen src.size := by
  -- the history is the prepared window, the last `dictionarySize` bytes of the window
  have hhist : (s.prepare src.size).window.size = s.historyLen := by
    rw [← ByteArray.length_data_toList, HcStream.prepare_window, List.length_drop,
      ByteArray.length_data_toList, HcStream.historyLen]
    omega
  rw [← hhist]
  exact HcStream.encodeNext_interchangeable (HcStream.prepare_lowLimit s src.size)
    (HcStream.compressContinue_ok h)

/-- Every block the encoders return keeps the end conditions of the format: a block of
the high-compression encoder at any level, of the fast encoder at any acceleration that
is not a multiple of `2 ^ 26`, and of a stream, whose matches may reach into the history
it keeps. -/
theorem blocks_keep_end_conditions (w : AddressWidth) (src : ByteArray) (capacity : Nat) :
    (∀ level block, compressHC w src capacity level = .ok block →
        Interchangeable block 0 src.size) ∧
      (∀ acceleration block, max acceleration.toNat 1 % Nat.pow 2 26 ≠ 0 →
        compressFast w src capacity acceleration = .ok block →
          Interchangeable block 0 src.size) ∧
      (∀ (s s' : HcStream) block, s.compressContinue src capacity = (s', .ok block) →
        Interchangeable block s.historyLen src.size) :=
  ⟨fun _ _ h => compressHC_interchangeable h, fun _ _ hacc h => compressFast_interchangeable hacc h,
    fun _ _ _ h => compressContinue_interchangeable h⟩

/-- At acceleration one, the fast encoder's block for sixteen bytes `abab…` keeps the end
conditions. -/
theorem blocks_keep_end_conditions_pairs :
    max (1 : UInt32).toNat 1 % Nat.pow 2 26 ≠ 0 ∧
      ∃ block, compressFast .bits32
          ⟨#[97, 98, 97, 98, 97, 98, 97, 98, 97, 98, 97, 98, 97, 98, 97, 98]⟩ 32 1 = .ok block ∧
        Interchangeable block 0 16 := by
  obtain ⟨block, hblock, -, -⟩ := compressFast_fits .bits32
    ⟨#[97, 98, 97, 98, 97, 98, 97, 98, 97, 98, 97, 98, 97, 98, 97, 98]⟩ 32 1 (by decide) (by decide)
  exact ⟨by decide, block, hblock,
    (blocks_keep_end_conditions .bits32 _ 32).2.1 1 block (by decide) hblock⟩

end WireCodec.Lz4
