import WireCodec.Lz4.Stream
import WireCodec.Proofs.Lz4.Continuation
import WireCodec.Proofs.Lz4.InPlace

/-!
# What a stream remembers

A caller hands a stream its history: the bytes of the last dictionary it loaded (none after
creation or a reset), then the input of every block it encoded since. The stream keeps only
the last `dictionarySize` bytes of that history, renumbers them when its positions would
pass the width's limit, and forgets a block that did not fit its destination.

`HcStream.track` runs one call on a stream beside the history the caller has handed it, and
`replay` runs a whole list of calls on a new stream. `replay_honors_history` is the stream's
contract after every run: its history length and saved dictionary are read off the
history, every block it returns decodes with the history as dictionary, and a block that
fails changes neither.

All of it rests on one invariant, `HcStream.Keeps`: the window is a suffix of the history
and holds all of it up to `dictionarySize` bytes. The hash chains need none, since
trimming sets the lowest reachable position to the first byte of the window, and
`compressBlock_follows` asks nothing more of them.
-/

namespace WireCodec.Lz4

/-- A call on a stream. The last three only read it. -/
inductive StreamOp
  | reset
  | resetWithLevel (level : Int)
  | setLevel (level : Int)
  | loadDict (dict : ByteArray)
  | compress (src : ByteArray) (capacity : Nat)
  | saveDict (len : Nat)
  | historyLen
  | level

/-- The suffix of a list from its length minus `k` holds the last `k` elements, and so
does that of any suffix at least `k` long. -/
theorem drop_length_sub_of_suffix {w H : List UInt8} (h : w <:+ H) {k : Nat}
    (hk : k ≤ w.length) : H.drop (H.length - k) = w.drop (w.length - k) := by
  obtain ⟨t, rfl⟩ := h
  rw [List.length_append, show t.length + w.length - k = t.length + (w.length - k) by omega,
    List.drop_length_add_append]

/-- A block that decodes, after the last `dictionarySize` bytes of `dict`, to those bytes
followed by `x` is read back as `x` by `decompressWithDict` into a destination of
`x.length` bytes. -/
theorem decompressWithDict_of_block {block dict : ByteArray} {b : Block} {x : List UInt8}
    (hb : block.data.toList = b.bytes)
    (hd : b.decode? (dict.data.toList.drop (dict.size - dictionarySize)) =
      some (dict.data.toList.drop (dict.size - dictionarySize) ++ x)) :
    decompressWithDict block dict x.length = .ok x.toByteArray := by
  have hhist : (dict.extract (dict.size - dictionarySize) dict.size).data.toList =
      dict.data.toList.drop (dict.size - dictionarySize) := by
    simp only [ByteArray.data_toList_extract]
    exact List.take_of_length_le (by simp)
  have hsrc : block.data.toList.drop 0 = b.bytes := hb
  rw [decompressWithDict_eq]
  dsimp only
  split
  · -- no history: the block decodes from nothing
    rename_i hzero
    have hnil : dict.data.toList.drop (dict.size - dictionarySize) = [] := by
      rw [← ByteArray.length_data_toList, hhist, List.length_eq_zero_iff] at hzero
      exact hzero
    rw [hnil, List.nil_append] at hd
    exact decodeSequences_of_block hsrc hd (Nat.le_refl _)
  · have hd' : b.decode? (dict.extract (dict.size - dictionarySize) dict.size).data.toList =
        some ((dict.extract (dict.size - dictionarySize) dict.size).data.toList ++ x) := by
      rw [hhist]
      exact hd
    rw [decodeSequences_of_block hsrc hd' (by simp)]
    -- the history is cut off again in front of the output
    refine congrArg Except.ok (ByteArray.ext_toList ?_)
    simp only [ByteArray.data_toList_extract, List.toList_data_toByteArray,
      ← ByteArray.length_data_toList]
    simp

namespace HcStream

variable {s s' : HcStream} {H : List UInt8}

section Windows

@[simp] theorem window_create (w : AddressWidth) (level : Int) :
    (create w level).window = ByteArray.empty := rfl

@[simp] theorem window_resetWith (s : HcStream) (level : Int) :
    (s.resetWith level).window = ByteArray.empty := rfl

@[simp] theorem window_setLevel (s : HcStream) (level : Int) :
    (s.setLevel level).window = s.window := rfl

theorem indexDictionary_window (s : HcStream) (dict : ByteArray) :
    (s.indexDictionary dict).1.window.data.toList =
      dict.data.toList.drop (dict.size - dictionarySize) := by
  simp only [indexDictionary, ByteArray.data_toList_extract]
  exact List.take_of_length_le (by simp)

theorem indexDictionary_lowLimit (s : HcStream) (dict : ByteArray) :
    (s.indexDictionary dict).1.chains.lowLimit = (s.indexDictionary dict).1.chains.base := by
  simp only [indexDictionary]
  split
  · obtain ⟨hb, hl⟩ := HashChains.insert_frame _ _ _
    rw [hb, hl]
  · rfl

theorem loadDict_window (s : HcStream) (dict : ByteArray) :
    (s.loadDict dict).1.window.data.toList =
      dict.data.toList.drop (dict.size - dictionarySize) :=
  indexDictionary_window _ dict

theorem trimHistory_window (s : HcStream) :
    s.trimHistory.window.data.toList =
      s.window.data.toList.drop (s.window.size - dictionarySize) := by
  simp only [trimHistory, ByteArray.data_toList_extract]
  exact List.take_of_length_le (by simp)

theorem size_trimHistory_le (s : HcStream) : s.trimHistory.window.size ≤ dictionarySize := by
  rw [← ByteArray.length_data_toList, trimHistory_window, List.length_drop]
  simp only [ByteArray.length_data_toList]
  omega

/-- Preparing for a block keeps the last `dictionarySize` bytes of the window, renumbered
or not. -/
theorem prepare_window (s : HcStream) (n : Nat) :
    (s.prepare n).window.data.toList =
      s.window.data.toList.drop (s.window.size - dictionarySize) := by
  simp only [prepare]
  split
  · -- renumbering indexes the whole trimmed window again
    rw [indexDictionary_window, Nat.sub_eq_zero_of_le (size_trimHistory_le s), List.drop_zero]
    exact trimHistory_window s
  · exact trimHistory_window s

/-- After preparing, every position of the window may be reached. -/
theorem prepare_lowLimit (s : HcStream) (n : Nat) :
    (s.prepare n).chains.lowLimit = (s.prepare n).chains.base := by
  simp only [prepare]
  split
  · exact indexDictionary_lowLimit _ _
  · rfl

end Windows

section Compress

variable {p : HcStream} {src block : ByteArray} {capacity : Nat}

/-- A block that is returned was encoded with the window as history, and joins the
window. -/
theorem encodeNext_ok (h : p.encodeNext src capacity = (s', .ok block)) :
    s'.window = p.window ++ src ∧
      ∃ c', ({ p.chains with dictLimit := p.chains.base + p.window.size } : HashChains).compressBlock
        (p.window ++ src) capacity = (c', .ok block) := by
  rw [encodeNext] at h
  split at h
  · rename_i c blk hcb
    simp only [Prod.mk.injEq, Except.ok.injEq] at h
    obtain ⟨rfl, rfl⟩ := h
    exact ⟨rfl, c, hcb⟩
  · simp at h

/-- A block that fails leaves the window as it was. -/
theorem encodeNext_error {e : Error} (h : p.encodeNext src capacity = (s', .error e)) :
    s'.window = p.window := by
  rw [encodeNext] at h
  split at h
  · simp at h
  · simp only [Prod.mk.injEq] at h
    obtain ⟨rfl, -⟩ := h
    rfl

/-- A call that returns a block has encoded it from the prepared stream. -/
theorem compressContinue_ok (h : s.compressContinue src capacity = (s', .ok block)) :
    (s.prepare src.size).encodeNext src capacity = (s', .ok block) := by
  rw [compressContinue] at h
  split at h
  · simp at h
  · exact h

/-- A call that fails has refused the input and changed nothing, or failed to encode it
from the prepared stream. -/
theorem compressContinue_error {e : Error} (h : s.compressContinue src capacity = (s', .error e)) :
    s' = s ∨ (s.prepare src.size).encodeNext src capacity = (s', .error e) := by
  rw [compressContinue] at h
  split at h
  · simp only [Prod.mk.injEq] at h
    exact .inl h.1.symm
  · exact .inr h

end Compress

/-- The window holds what the next block may refer to of the history `H`: a suffix of
it, and all of it up to `dictionarySize` bytes. -/
structure Keeps (s : HcStream) (H : List UInt8) : Prop where
  suffix : s.window.data.toList <:+ H
  retains : min H.length dictionarySize ≤ s.window.size

namespace Keeps

/-- The last `dictionarySize` bytes of the window are those of the history. -/
theorem recent_eq (hk : s.Keeps H) :
    s.window.data.toList.drop (s.window.size - dictionarySize) =
      H.drop (H.length - dictionarySize) := by
  have hle : s.window.size ≤ H.length := by simpa using hk.suffix.length_le
  have hret := hk.retains
  rw [show H.length - dictionarySize = H.length - min H.length dictionarySize by omega,
    drop_length_sub_of_suffix hk.suffix (by simpa using hret), ByteArray.length_data_toList,
    show s.window.size - dictionarySize = s.window.size - min H.length dictionarySize by omega]

/-- A window of exactly the last `dictionarySize` bytes of the history keeps it. -/
theorem of_recent (h : s.window.data.toList = H.drop (H.length - dictionarySize)) :
    s.Keeps H where
  suffix := h ▸ List.drop_suffix _ _
  retains := by
    rw [← ByteArray.length_data_toList, h, List.length_drop]
    omega

theorem prepare (hk : s.Keeps H) (n : Nat) : (s.prepare n).Keeps H :=
  of_recent ((prepare_window s n).trans hk.recent_eq)

theorem historyLen_eq (hk : s.Keeps H) : s.historyLen = min H.length dictionarySize := by
  have hle : s.window.size ≤ H.length := by simpa using hk.suffix.length_le
  have hret := hk.retains
  simp only [historyLen]
  omega

theorem savedDict_eq (hk : s.Keeps H) (n : Nat) :
    (s.savedDict n).data.toList = H.drop (H.length - min (min n dictionarySize) H.length) := by
  have hle : s.window.size ≤ H.length := by simpa using hk.suffix.length_le
  have hret := hk.retains
  -- the saved bytes are few enough to lie in the window
  have hk' : min (min n dictionarySize) H.length ≤ s.window.data.toList.length := by
    simp only [ByteArray.length_data_toList]
    omega
  rw [drop_length_sub_of_suffix hk.suffix hk']
  simp only [savedDict, ByteArray.data_toList_extract, ByteArray.length_data_toList]
  rw [List.take_of_length_le (by simp)]
  congr 2
  omega

/-- A block encoded after a window of exactly the recent history, every byte of it within
reach, decodes with the history as dictionary, and the history grows by its input. -/
theorem encodeNext_ok {p : HcStream} {src block : ByteArray} {capacity : Nat}
    (hp : p.window.data.toList = H.drop (H.length - dictionarySize))
    (hlow : p.chains.lowLimit = p.chains.base) (h : p.encodeNext src capacity = (s', .ok block)) :
    s'.Keeps (H ++ src.data.toList) ∧ decompressWithDict block H.toByteArray src.size = .ok src := by
  obtain ⟨hwin, c', hcb⟩ := HcStream.encodeNext_ok h
  have hlen : p.window.size = H.length - (H.length - dictionarySize) := by
    rw [← ByteArray.length_data_toList, hp, List.length_drop]
  constructor
  · refine ⟨?_, ?_⟩
    · rw [hwin, ByteArray.data_append, Array.toList_append, hp]
      exact List.suffix_append_self_iff.mpr (List.drop_suffix _ _)
    · rw [hwin, ByteArray.size_append, hlen, List.length_append, ByteArray.length_data_toList]
      omega
  · have hwin' : p.chains.base + p.window.size ≤ p.chains.base + (p.window ++ src).size := by
      rw [ByteArray.size_append]
      omega
    obtain ⟨b, hb, hdec, -⟩ := HashChains.compressBlock_follows (by exact Nat.le_of_eq hlow.symm)
      (by exact Nat.le_add_right _ _) (by exact hwin') hcb
    -- the block's history is the window, which is the recent history
    have hd : b.decode? (H.toByteArray.data.toList.drop (H.toByteArray.size - dictionarySize)) =
        some (H.toByteArray.data.toList.drop (H.toByteArray.size - dictionarySize) ++
          src.data.toList) := by
      simp only [List.toList_data_toByteArray, List.size_toByteArray, ← hp]
      simpa using hdec
    have hx := decompressWithDict_of_block hb hd
    simpa using hx

/-- A block that is returned decodes with the history as dictionary, and the history
grows by its input. -/
theorem compressContinue_ok {src block : ByteArray} {capacity : Nat} (hk : s.Keeps H)
    (h : s.compressContinue src capacity = (s', .ok block)) :
    s'.Keeps (H ++ src.data.toList) ∧ decompressWithDict block H.toByteArray src.size = .ok src :=
  encodeNext_ok ((prepare_window s src.size).trans hk.recent_eq) (prepare_lowLimit s src.size)
    (HcStream.compressContinue_ok h)

/-- A call that fails keeps the history. -/
theorem compressContinue_error {src : ByteArray} {capacity : Nat} {e : Error} (hk : s.Keeps H)
    (h : s.compressContinue src capacity = (s', .error e)) : s'.Keeps H := by
  rcases HcStream.compressContinue_error h with rfl | h'
  · exact hk
  · have hwin := HcStream.encodeNext_error h'
    have hp := hk.prepare src.size
    exact ⟨hwin ▸ hp.suffix, hwin ▸ hp.retains⟩

end Keeps

/-- One call on a stream, beside the history the caller has handed it: the bytes of the
last dictionary loaded, then the input of every block returned since. -/
def track : HcStream × List UInt8 → StreamOp → HcStream × List UInt8
  | (s, _), .reset => (s.resetWith s.level, [])
  | (s, _), .resetWithLevel level => (s.resetWith level, [])
  | (s, H), .setLevel level => (s.setLevel level, H)
  | (s, _), .loadDict dict => ((s.loadDict dict).1, dict.data.toList)
  | (s, H), .compress src capacity =>
    match s.compressContinue src capacity with
    | (s', .ok _) => (s', H ++ src.data.toList)
    | (s', .error _) => (s', H)
  | p, _ => p

/-- The stream and its history after the calls `ops` on a new stream of width `w` at
`level`. -/
def replay (w : AddressWidth) (level : Int) (ops : List StreamOp) : HcStream × List UInt8 :=
  ops.foldl track (create w level, [])

/-- Every call keeps the invariant. -/
theorem Keeps.track {p : HcStream × List UInt8} (hk : p.1.Keeps p.2) (op : StreamOp) :
    (HcStream.track p op).1.Keeps (HcStream.track p op).2 := by
  obtain ⟨s, H⟩ := p
  have hempty (t : HcStream) (ht : t.window = ByteArray.empty) : t.Keeps [] :=
    ⟨by simp [ht], by simp⟩
  cases op with
  | reset => exact hempty _ (window_resetWith _ _)
  | resetWithLevel level => exact hempty _ (window_resetWith _ _)
  | setLevel level => exact ⟨hk.suffix, hk.retains⟩
  | loadDict dict =>
    simp only [HcStream.track]
    exact Keeps.of_recent ((loadDict_window s dict).trans (by rw [ByteArray.length_data_toList]))
  | compress src capacity =>
    rcases hc : s.compressContinue src capacity with ⟨s', _ | block⟩
    · simp only [HcStream.track, hc]
      exact hk.compressContinue_error hc
    · simp only [HcStream.track, hc]
      exact (hk.compressContinue_ok hc).1
  | saveDict _ | historyLen | level => exact hk

/-- Every run keeps the invariant. -/
theorem Keeps.foldl_track (ops : List StreamOp) :
    ∀ p : HcStream × List UInt8, p.1.Keeps p.2 →
      (ops.foldl HcStream.track p).1.Keeps (ops.foldl HcStream.track p).2 := by
  induction ops with
  | nil => exact fun _ hp => hp
  | cons op ops ih => exact fun p hp => ih _ (hp.track op)

theorem replay_keeps (w : AddressWidth) (level : Int) (ops : List StreamOp) :
    (replay w level ops).1.Keeps (replay w level ops).2 :=
  Keeps.foldl_track ops _ ⟨by simp, by simp⟩

/-- What a caller is promised of a stream that has been handed the history `H`: its
history length and saved dictionary are read off `H`, the next block decodes with `H` as
dictionary, and a next block that fails changes neither. -/
structure Honors (s : HcStream) (H : List UInt8) : Prop where
  historyLen_eq : s.historyLen = min H.length dictionarySize
  savedDict_eq : ∀ n, (s.savedDict n).data.toList =
    H.drop (H.length - min (min n dictionarySize) H.length)
  compress_ok : ∀ src capacity block, (s.compressContinue src capacity).2 = .ok block →
    decompressWithDict block H.toByteArray src.size = .ok src
  compress_error : ∀ src capacity e, (s.compressContinue src capacity).2 = .error e →
    (s.compressContinue src capacity).1.historyLen = s.historyLen ∧
      ∀ n, (s.compressContinue src capacity).1.savedDict n = s.savedDict n

theorem Keeps.honors (hk : s.Keeps H) : s.Honors H where
  historyLen_eq := hk.historyLen_eq
  savedDict_eq := hk.savedDict_eq
  compress_ok src capacity block h := (hk.compressContinue_ok (Prod.ext rfl h)).2
  compress_error src capacity e h := by
    have hk' := hk.compressContinue_error (Prod.ext rfl h)
    refine ⟨by rw [hk'.historyLen_eq, hk.historyLen_eq], fun n => ?_⟩
    exact ByteArray.ext_toList (by rw [hk'.savedDict_eq, hk.savedDict_eq])

/-- After any calls on a new stream of either width, the stream honors the history it has
been handed. -/
theorem replay_honors_history (w : AddressWidth) (level : Int) (ops : List StreamOp) :
    (replay w level ops).1.Honors (replay w level ops).2 :=
  (replay_keeps w level ops).honors

end HcStream

end WireCodec.Lz4
