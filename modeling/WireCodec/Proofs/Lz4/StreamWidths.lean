import WireCodec.Proofs.Lz4.Widths
import WireCodec.Proofs.Lz4.StreamHistory

/-!
# Streams of either width answer alike

A stream of 32-bit positions renumbers its history once the positions of the next block
would pass `2 ^ 31`; a stream of 64-bit positions does so only far later. As long as
the first does not, the two streams hold the same window and the same tables, entry for
entry, and answer every call alike (`replies_withWidth`): every position they store lies
below `2 ^ 31`, where neither width truncates it.

`HcStream.call` is one call on a stream with what it returns, and `HcStream.replies` the
answers to a list of calls.
-/

namespace WireCodec.Lz4

/-- What a call on a stream returns. -/
inductive StreamReply
  | none
  | level (level : Int)
  | count (n : Nat)
  | bytes (b : ByteArray)
  | block (r : Except Error ByteArray)

/-- Setting the limits of the tables keeps their width. -/
theorem HashChains.withWidth_setLimits (c : HashChains) (w : AddressWidth) (d l : Nat) :
    ({ c.withWidth w with dictLimit := d, lowLimit := l } : HashChains) =
      ({ c with dictLimit := d, lowLimit := l } : HashChains).withWidth w := rfl

namespace HcStream

/-- One call on a stream: the stream after it, and what it returns. -/
def call (s : HcStream) : StreamOp → HcStream × StreamReply
  | .reset => (s.resetWith s.level, .none)
  | .resetWithLevel level => (s.resetWith level, .none)
  | .setLevel level => (s.setLevel level, .none)
  | .loadDict dict => ((s.loadDict dict).1, .count (s.loadDict dict).2)
  | .compress src capacity =>
    ((s.compressContinue src capacity).1, .block (s.compressContinue src capacity).2)
  | .saveDict len => (s, .bytes (s.savedDict len))
  | .historyLen => (s, .count s.historyLen)
  | .level => (s, .level s.level)

/-- The stream after the calls `ops`. -/
def after (s : HcStream) : List StreamOp → HcStream
  | [] => s
  | op :: ops => (s.call op).1.after ops

/-- What the calls `ops` return, in order. -/
def replies (s : HcStream) : List StreamOp → List StreamReply
  | [] => []
  | op :: ops => (s.call op).2 :: (s.call op).1.replies ops

/-- A call that takes the positions past the index limit of 32-bit positions, where a
stream of that width renumbers its history. -/
def Renumbers (s : HcStream) : StreamOp → Prop
  | .compress src _ => src.size ≤ maxInputSize ∧
      AddressWidth.bits32.indexLimit < s.trimHistory.chains.base + s.trimHistory.window.size + src.size
  | _ => False

/-- No call of `ops` renumbers the stream. -/
def NeverRenumbers (s : HcStream) : List StreamOp → Prop
  | [] => True
  | op :: ops => ¬ s.Renumbers op ∧ (s.call op).1.NeverRenumbers ops

/-- The same stream under the width `w`. -/
def withWidth (s : HcStream) (w : AddressWidth) : HcStream :=
  ⟨s.chains.withWidth w, s.window⟩

/-- The index limit of 32-bit positions is the lowest. -/
theorem AddressWidth.bits32_indexLimit_le (w : AddressWidth) :
    AddressWidth.bits32.indexLimit ≤ w.indexLimit := by
  cases w <;> decide

section Calls

variable (s : HcStream) (w : AddressWidth)

@[simp] theorem withWidth_chains : (s.withWidth w).chains = s.chains.withWidth w := rfl

@[simp] theorem withWidth_window : (s.withWidth w).window = s.window := rfl

theorem withWidth_mk (c : HashChains) (window : ByteArray) :
    (⟨c, window⟩ : HcStream).withWidth w = ⟨c.withWidth w, window⟩ := rfl

-- the calls that never store a position: the width passes through them

theorem create_withWidth (w' : AddressWidth) (level : Int) :
    (create w' level).withWidth w = create w level := rfl

theorem resetWith_withWidth (level : Int) :
    (s.withWidth w).resetWith level = (s.resetWith level).withWidth w := rfl

theorem setLevel_withWidth (level : Int) :
    (s.withWidth w).setLevel level = (s.setLevel level).withWidth w := rfl

theorem level_withWidth : (s.withWidth w).level = s.level := rfl

theorem historyLen_withWidth : (s.withWidth w).historyLen = s.historyLen := rfl

theorem savedDict_withWidth (n : Nat) : (s.withWidth w).savedDict n = s.savedDict n := rfl

theorem trimHistory_withWidth : (s.withWidth w).trimHistory = s.trimHistory.withWidth w := rfl

theorem renumbers_withWidth (op : StreamOp) : (s.withWidth w).Renumbers op ↔ s.Renumbers op := by
  cases op <;> exact Iff.rfl

/-- Indexing a dictionary stores positions below the base plus `dictionarySize`. -/
theorem indexDictionary_withWidth (dict : ByteArray)
    (h : s.chains.base + dictionarySize ≤ Nat.pow 2 32) :
    (s.withWidth w).indexDictionary dict =
      ((s.indexDictionary dict).1.withWidth w, (s.indexDictionary dict).2) := by
  have hlen : (dict.extract (dict.size - dictionarySize) dict.size).size ≤ dictionarySize := by
    simp only [ByteArray.size_extract]
    omega
  have ht : s.chains.base + (dict.extract (dict.size - dictionarySize) dict.size).size -
      (minMatch - 1) ≤ Nat.pow 2 32 := by
    omega
  rw [indexDictionary, indexDictionary]
  dsimp only
  rw [withWidth_chains, HashChains.withWidth_setLimits, HashChains.withWidth_base]
  split
  · rw [HashChains.insert_withWidth _ _ _ ht, withWidth_mk]
  · rw [withWidth_mk]

theorem loadDict_withWidth (dict : ByteArray) :
    (s.withWidth w).loadDict dict = ((s.loadDict dict).1.withWidth w, (s.loadDict dict).2) := by
  have hbase : (s.resetWith s.level).chains.base = startIndex := rfl
  rw [loadDict, loadDict, level_withWidth, resetWith_withWidth]
  exact indexDictionary_withWidth _ w dict (by rw [hbase]; decide)

/-- Preparing keeps the width out when the positions stay within the index limit of 32-bit
positions. -/
theorem prepare_withWidth (n : Nat)
    (h : s.trimHistory.chains.base + s.trimHistory.window.size + n ≤
      AddressWidth.bits32.indexLimit) :
    (s.withWidth w).prepare n = (s.prepare n).withWidth w := by
  have hkeep (t : HcStream) (ht : t.trimHistory.chains.base = s.trimHistory.chains.base)
      (hw : t.trimHistory.window = s.trimHistory.window) : t.prepare n = t.trimHistory := by
    have := AddressWidth.bits32_indexLimit_le t.trimHistory.chains.width
    rw [prepare]
    exact if_neg (by rw [ht, hw]; omega)
  rw [hkeep (s.withWidth w) rfl rfl, hkeep s rfl rfl, trimHistory_withWidth]

/-- A block stores positions below the end of the window and its input. -/
theorem encodeNext_withWidth (src : ByteArray) (capacity : Nat)
    (h : s.chains.base + s.window.size + src.size ≤ Nat.pow 2 32) :
    (s.withWidth w).encodeNext src capacity =
      ((s.encodeNext src capacity).1.withWidth w, (s.encodeNext src capacity).2) := by
  have hend : ({ s.chains with dictLimit := s.chains.base + s.window.size } : HashChains).base +
      (s.window ++ src).size ≤ Nat.pow 2 32 := by
    rw [ByteArray.size_append]
    show s.chains.base + (s.window.size + src.size) ≤ Nat.pow 2 32
    omega
  rw [encodeNext, encodeNext]
  rw [show ({ (s.withWidth w).chains with
      dictLimit := (s.withWidth w).chains.base + (s.withWidth w).window.size } : HashChains) =
    ({ s.chains with dictLimit := s.chains.base + s.window.size } : HashChains).withWidth w
    from rfl, withWidth_window, HashChains.compressBlock_withWidth _ _ _ hend]
  rcases hcb : ({ s.chains with dictLimit := s.chains.base + s.window.size } :
    HashChains).compressBlock (s.window ++ src) capacity with ⟨c, _ | b⟩ <;> rfl

theorem compressContinue_withWidth (src : ByteArray) (capacity : Nat)
    (h : ¬ s.Renumbers (.compress src capacity)) :
    (s.withWidth w).compressContinue src capacity =
      ((s.compressContinue src capacity).1.withWidth w, (s.compressContinue src capacity).2) := by
  rw [compressContinue, compressContinue]
  by_cases hsize : src.size > maxInputSize
  · rw [if_pos hsize, if_pos hsize]
  · rw [if_neg hsize, if_neg hsize]
    have hfit : s.trimHistory.chains.base + s.trimHistory.window.size + src.size ≤
        AddressWidth.bits32.indexLimit := by
      simp only [Renumbers, not_and, Nat.not_lt] at h
      exact h (Nat.le_of_not_lt hsize)
    have hprep : s.prepare src.size = s.trimHistory := by
      rw [prepare]
      exact if_neg (by have := AddressWidth.bits32_indexLimit_le s.trimHistory.chains.width; omega)
    rw [prepare_withWidth s w _ hfit]
    refine encodeNext_withWidth _ w src capacity ?_
    rw [hprep]
    exact Nat.le_trans hfit (by decide)

/-- One call under another width answers alike and leaves the same stream, but for the
width, unless it renumbers. -/
theorem call_withWidth (op : StreamOp) (h : ¬ s.Renumbers op) :
    ((s.withWidth w).call op).1 = (s.call op).1.withWidth w ∧
      ((s.withWidth w).call op).2 = (s.call op).2 := by
  cases op with
  | reset => exact ⟨rfl, rfl⟩
  | resetWithLevel level => exact ⟨rfl, rfl⟩
  | setLevel level => exact ⟨rfl, rfl⟩
  | loadDict dict =>
    simp only [call, loadDict_withWidth, and_self]
  | compress src capacity =>
    simp only [call, compressContinue_withWidth s w src capacity h, and_self]
  | saveDict len => exact ⟨rfl, rfl⟩
  | historyLen => exact ⟨rfl, rfl⟩
  | level => exact ⟨rfl, rfl⟩

end Calls

/-- A run under another width that never renumbers answers every call alike and ends in
the same stream, but for the width. -/
theorem replies_withWidth (w : AddressWidth) (ops : List StreamOp) :
    ∀ s : HcStream, (s.withWidth w).NeverRenumbers ops →
      (s.withWidth w).replies ops = s.replies ops ∧
        (s.withWidth w).after ops = (s.after ops).withWidth w := by
  induction ops with
  | nil => exact fun _ _ => ⟨rfl, rfl⟩
  | cons op ops ih =>
    intro s h
    obtain ⟨hstep, hrest⟩ := h
    obtain ⟨hs, hr⟩ := call_withWidth s w op (mt (renumbers_withWidth s w op).mpr hstep)
    rw [hs] at hrest
    obtain ⟨hreplies, hafter⟩ := ih _ hrest
    simp only [replies, after, hs, hr, hreplies, hafter, and_self]

end HcStream

/-- Both encoders give the same bytes, or the same error, under either width, and so do two
streams created at the same level for as long as the one of 32-bit positions never
renumbers: every call answers alike, and the streams end with the same tables. -/
theorem widths_agree (src : ByteArray) (capacity : Nat) (acceleration : UInt32) (level : Int)
    (ops : List StreamOp) :
    compressFast .bits32 src capacity acceleration =
        compressFast .bits64 src capacity acceleration ∧
      compressHC .bits32 src capacity level = compressHC .bits64 src capacity level ∧
      ((HcStream.create .bits32 level).NeverRenumbers ops →
        (HcStream.create .bits32 level).replies ops =
            (HcStream.create .bits64 level).replies ops ∧
          (HcStream.create .bits32 level).after ops =
            ((HcStream.create .bits64 level).after ops).withWidth .bits32) := by
  refine ⟨compressFast_width _ _ src capacity acceleration, compressHC_width _ _ src capacity level,
    fun h => ?_⟩
  rw [← HcStream.create_withWidth .bits32 .bits64 level] at h ⊢
  exact HcStream.replies_withWidth .bits32 ops _ h

theorem widths_agree_after_compress :
    (HcStream.create .bits32 0).replies [.compress (ByteArray.mk #[97, 98, 99]) 16, .level] =
      (HcStream.create .bits64 0).replies [.compress (ByteArray.mk #[97, 98, 99]) 16, .level] :=
  ((widths_agree ByteArray.empty 0 1 0 [.compress (ByteArray.mk #[97, 98, 99]) 16, .level]).2.2
    ⟨fun h => absurd h.2 (by decide), not_false, trivial⟩).1

end WireCodec.Lz4
