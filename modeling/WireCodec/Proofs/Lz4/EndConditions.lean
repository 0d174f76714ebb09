import WireCodec.Proofs.Lz4.Emitter

/-!
# The end conditions of a block

Decoders other than this library's rely on what the LZ4 block format says of the last
bytes of a block: a block of fewer than `minLength` bytes is one run of literals, the
closing run holds at least `lastLiterals` bytes, and no match starts within `mfLimit`
bytes of the end. Every match also copies from between one and `maxDistance` bytes
back, never from before the history the block may refer to. `Block.Conforms` states these
conditions of a block; a block has one reading (`Block.bytes_inj`), so they are facts about
its bytes.

The encoders build a block sequence by sequence, and `Emitter.Follows` is what they keep of
it: the bytes so far are sequences that decode, after the history, to the text up to the
current position, and whose matches keep the conditions. `Follows.writeSequence` and
`Follows.finish` carry it through a write and through the close.
-/

namespace WireCodec.Lz4

namespace Sequence

/-- Bytes the sequences decode to: their literals and their matches. -/
def outputLength : List Sequence → Nat
  | [] => 0
  | s :: ss => s.literals.length + s.matchLen + outputLength ss

theorem outputLength_append (ss ss' : List Sequence) :
    outputLength (ss ++ ss') = outputLength ss + outputLength ss' := by
  induction ss with
  | nil => simp [outputLength]
  | cons s ss ih =>
    simp only [List.cons_append, outputLength, ih]
    omega

/-- Sequences that decode to nothing are none: every match is `minMatch` bytes or more. -/
theorem eq_nil_of_outputLength {ss : List Sequence} (h : outputLength ss = 0) : ss = [] := by
  cases ss with
  | nil => rfl
  | cons s ss =>
    have := s.minMatch_le
    simp only [outputLength, minMatch] at h this
    omega

/-- Decoding appends as many bytes as the sequences describe. -/
theorem length_of_decodeAll? {ss : List Sequence} {w o : List UInt8}
    (h : decodeAll? ss w = some o) : o.length = w.length + outputLength ss := by
  induction ss generalizing w with
  | nil =>
    cases h
    simp [outputLength]
  | cons s ss ih =>
    obtain ⟨w', hs, hrest⟩ := Option.bind_eq_some_iff.mp h
    obtain ⟨-, -, rfl⟩ := decode?_eq_some hs
    rw [ih hrest, length_copyBack, List.length_append, outputLength]
    omega

/-- The literals of `t` from `anchor` to `p` and a match at `p` on bytes equal to those `d`
back take the text up to `anchor` to the text up to the end of the match. -/
theorem decode?_take {t : List UInt8} {anchor p d M : Nat} (hoff : d ≤ maxDistance)
    (hM : minMatch ≤ M) (hap : anchor ≤ p) (hd : 0 < d) (hdp : d ≤ p) (hend : p + M ≤ t.length)
    (hagree : ∀ j < M, t.getD (p + j) 0 = t.getD (p - d + j) 0) :
    (⟨(t.drop anchor).take (p - anchor), d, M, hoff, hM⟩ : Sequence).decode? (t.take anchor) =
      some (t.take (p + M)) := by
  have hlits : ((t.drop anchor).take (p - anchor)).length = p - anchor := by
    simp only [List.length_take, List.length_drop]
    omega
  have hjoin : t.take anchor ++ (t.drop anchor).take (p - anchor) = t.take p := by
    rw [← List.take_add, Nat.add_sub_cancel' hap]
  have hreach : 0 < d ∧ d ≤ (t.take anchor).length + ((t.drop anchor).take (p - anchor)).length := by
    rw [List.length_take, hlits]
    omega
  rw [decode?, if_pos hreach]
  dsimp only
  rw [hjoin, copyBack_take hd hdp hend hagree]

/-- The end conditions on the matches of `ss`, the first of which starts at output
position `pos` of a block of `len` bytes that follows `history` bytes: each match starts
`mfLimit` bytes or more before the end, leaves `lastLiterals` bytes after it, and copies
from a nonzero offset that reaches no further back than the history. -/
def ConformFrom (history len : Nat) : Nat → List Sequence → Prop
  | _, [] => True
  | pos, s :: ss =>
    pos + s.literals.length + mfLimit ≤ len ∧
      pos + s.literals.length + s.matchLen + lastLiterals ≤ len ∧
      0 < s.offset ∧ s.offset ≤ history + (pos + s.literals.length) ∧
      ConformFrom history len (pos + s.literals.length + s.matchLen) ss

theorem conformFrom_append_singleton {history len pos : Nat} {ss : List Sequence}
    {s : Sequence} (hss : ConformFrom history len pos ss)
    (hs : ConformFrom history len (pos + outputLength ss) [s]) :
    ConformFrom history len pos (ss ++ [s]) := by
  induction ss generalizing pos with
  | nil => simpa [outputLength] using hs
  | cons s' ss ih =>
    obtain ⟨h₁, h₂, h₃, h₄, hrest⟩ := hss
    refine ⟨h₁, h₂, h₃, h₄, ih hrest ?_⟩
    rwa [outputLength, show pos + (s'.literals.length + s'.matchLen + outputLength ss) =
      pos + s'.literals.length + s'.matchLen + outputLength ss by omega] at hs

end Sequence

/-- The end conditions LZ4 decoders rely on, for a block that describes `len` bytes after
`history` bytes its matches may reach: a block of fewer than `minLength` bytes holds
literals only, a longer one closes with `lastLiterals` literals or more, and every match
keeps `Sequence.ConformFrom`. -/
structure Block.Conforms (b : Block) (history len : Nat) : Prop where
  length_eq : Sequence.outputLength b.sequences + b.lastLiterals.length = len
  short : len < minLength → b.sequences = []
  closing : minLength ≤ len → Lz4.lastLiterals ≤ b.lastLiterals.length
  sequences : Sequence.ConformFrom history len 0 b.sequences

section Reading

/-- A sequence has one reading: the bytes of two sequences, each followed by more, agree
only when the sequences and what follows them do. -/
theorem Sequence.bytes_append_inj {s s' : Sequence} {r r' : List UInt8}
    (h : s.bytes ++ r = s'.bytes ++ r') : s = s' ∧ r = r' := by
  obtain ⟨lits, d, M, hd, hM⟩ := s
  obtain ⟨lits', d', M', hd', hM'⟩ := s'
  rw [Sequence.bytes_append, Sequence.bytes_append] at h
  have htok := (List.cons.inj h).1
  -- the token's high bits and the literal-length field give the literals
  obtain ⟨hL, hrest⟩ := literalField_inj (nibble_lt _) (nibble_lt _) h
  obtain ⟨rfl, hrest⟩ := List.append_inj hrest hL
  simp only [List.cons.injEq] at hrest
  obtain ⟨hlow, hhigh, hrest⟩ := hrest
  -- the two offset bytes give the offset
  have hdd : d = d' := by
    rw [← offset_of_bytes hd, ← offset_of_bytes hd', hlow, hhigh]
  -- the token's low bits and the match-length field give the match
  have hcode : nibble (M - minMatch) = nibble (M' - minMatch) := by
    rw [← token_and_fifteen (nibble_lt lits.length) (nibble_lt (M - minMatch)), htok,
      token_and_fifteen (nibble_lt _) (nibble_lt _)]
  obtain ⟨hMM, rfl⟩ := extensionBytes_append_inj hcode hrest
  have hMM' : M = M' := by
    unfold minMatch at hM hM' hMM
    omega
  subst hdd hMM'
  exact ⟨rfl, rfl⟩

/-- Closing literals never read as a sequence: a sequence goes on after its literals. -/
theorem closingBytes_ne_bytes_append {lits : List UInt8} {code : UInt8} (hcode : code < 16)
    (s : Sequence) (r : List UInt8) : closingBytes lits code ≠ s.bytes ++ r := by
  intro h
  rw [closingBytes, Sequence.bytes_append] at h
  obtain ⟨hL, hrest⟩ := literalField_inj hcode (nibble_lt _) h
  have := congrArg List.length hrest
  simp only [List.length_append, List.length_cons] at this
  omega

/-- A block has one reading. -/
theorem Block.bytes_inj {b b' : Block} (h : b.bytes = b'.bytes) : b = b' := by
  obtain ⟨ss, lits, code, hcode⟩ := b
  obtain ⟨ss', lits', code', hcode'⟩ := b'
  -- the sequences are read one by one, so induct on them
  induction ss generalizing ss' with
  | nil =>
    cases ss' with
    | nil =>
      simp only [Block.bytes, List.flatMap_nil, List.nil_append, closingBytes] at h
      obtain ⟨hL, rfl⟩ := literalField_inj hcode hcode' h
      -- the closing token's low bits are its code
      have hc := congrArg (· &&& (15 : UInt8)) (List.cons.inj h).1
      simp only [token_and_fifteen (nibble_lt _) hcode, token_and_fifteen (nibble_lt _) hcode']
        at hc
      subst hc
      rfl
    | cons s' ss' =>
      rw [Block.bytes_cons] at h
      exact absurd h (closingBytes_ne_bytes_append hcode _ _)
  | cons s ss ih =>
    cases ss' with
    | nil =>
      rw [Block.bytes_cons] at h
      exact absurd h.symm (closingBytes_ne_bytes_append hcode' _ _)
    | cons s' ss' =>
      rw [Block.bytes_cons, Block.bytes_cons] at h
      obtain ⟨rfl, hrest⟩ := Sequence.bytes_append_inj h
      obtain ⟨hss, rfl, rfl⟩ := Block.mk.inj (ih ss' hrest)
      rw [hss]

end Reading

namespace Emitter

theorem writeSequence_room {e e' : Emitter} {src : ByteArray} {start len offset matchLen : Nat}
    (h : e.writeSequence src start len offset matchLen = .ok e') :
    e.out.size + sequencePrice len matchLen + lastLiterals + 1 ≤ e.capacity := by
  unfold writeSequence at h
  split at h
  · cases h
  · omega

theorem finish_room {e : Emitter} {src : ByteArray} {start len : Nat} {out : ByteArray}
    (h : e.finish src start len = .ok out) : e.out.size + 1 + literalsPrice len ≤ e.capacity := by
  unfold finish at h
  split at h
  · cases h
  · omega

/-- What the encoders keep of a block under construction for the text `t`, whose first `h`
bytes are history: the bytes written are sequences that decode, after the history, to the
text up to `anchor`, and their matches keep the end conditions of a block of the bytes
after the history; once a match is written, the last literals are still to come. -/
structure Follows (e : Emitter) (t : List UInt8) (h anchor : Nat) : Prop where
  sequences : ∃ ss : List Sequence, e.out.data.toList = ss.flatMap Sequence.bytes ∧
    Sequence.decodeAll? ss (t.take h) = some (t.take anchor) ∧
    Sequence.ConformFrom h (t.length - h) 0 ss
  history_le : h ≤ anchor
  anchor_le : anchor ≤ t.length
  closing : h < anchor → anchor + lastLiterals ≤ t.length

theorem follows_empty {t : List UInt8} {h : Nat} (capacity : Nat) (hh : h ≤ t.length) :
    (empty capacity).Follows t h h :=
  ⟨⟨[], rfl, rfl, trivial⟩, Nat.le_refl _, hh, fun hlt => absurd hlt (Nat.lt_irrefl _)⟩

section Follows

variable {e : Emitter} {t : List UInt8} {h anchor : Nat} {src : ByteArray}

theorem Follows.outputLength_eq (he : e.Follows t h anchor) {ss : List Sequence}
    (hdec : Sequence.decodeAll? ss (t.take h) = some (t.take anchor)) :
    Sequence.outputLength ss = anchor - h := by
  have hlen := Sequence.length_of_decodeAll? hdec
  have := he.history_le
  have := he.anchor_le
  simp only [List.length_take] at hlen
  omega

/-- A match on agreeing bytes that the format allows here, once written, leaves a block that
follows the text up to the match's end. -/
theorem Follows.writeSequence (he : e.Follows t h anchor) (hsrc : src.data.toList = t)
    {p d M : Nat} {e' : Emitter} (hap : anchor ≤ p) (hd : 0 < d) (hdp : d ≤ p)
    (hdmax : d ≤ maxDistance) (hM : minMatch ≤ M) (hstart : p + mfLimit ≤ t.length)
    (hend : p + M + lastLiterals ≤ t.length) (hagree : Agree src p (p - d) M)
    (hw : e.writeSequence src anchor (p - anchor) d M = .ok e') : e'.Follows t h (p + M) := by
  subst hsrc
  obtain ⟨ss, hout, hdec, hconf⟩ := he.sequences
  have hh := he.history_le
  have hlen := he.outputLength_eq hdec
  unfold lastLiterals at hend
  rw [writeSequence_eq (writeSequence_room hw) hdmax hM (by simp at hend; omega)] at hw
  cases hw
  let s : Sequence := ⟨(src.data.toList.drop anchor).take (p - anchor), d, M, hdmax, hM⟩
  have hlits : s.literals.length = p - anchor := by
    simp only [s, List.length_take, List.length_drop, ByteArray.length_data_toList]
    simp at hend
    omega
  refine ⟨⟨ss ++ [s], ?_, ?_, ?_⟩, by omega, by omega, fun _ => by unfold lastLiterals; omega⟩
  · rw [List.toList_data_toByteArray, hout, List.flatMap_append, List.flatMap_singleton]
  · -- the new sequence takes the text up to `anchor` to the text up to the match's end
    have hs : s.decode? (src.data.toList.take anchor) = some (src.data.toList.take (p + M)) :=
      Sequence.decode?_take hdmax hM hap hd hdp (by omega) fun j hj => by
        have := hagree j hj
        rwa [ByteArray.get!_eq_getD, ByteArray.get!_eq_getD] at this
    rw [Sequence.decodeAll?_append, hdec, Option.bind_some, Sequence.decodeAll?, hs]
    rfl
  · have hmatch : s.matchLen = M := rfl
    have hoffset : s.offset = d := rfl
    refine Sequence.conformFrom_append_singleton hconf ⟨?_, ?_, hd, ?_, trivial⟩
    all_goals simp only [hlits, hmatch, hoffset, hlen, Nat.zero_add]
    all_goals unfold lastLiterals at *
    all_goals omega

/-- The rest of the text closes the block, which then reads as a block that decodes, after
the history, to the whole text and keeps the end conditions. A block of fewer than
`minLength` bytes after the history must have no sequences yet. -/
theorem Follows.finish (he : e.Follows t h anchor) (hsrc : src.data.toList = t)
    (hshort : t.length - h < minLength → anchor = h) {out : ByteArray}
    (hf : e.finish src anchor (src.size - anchor) = .ok out) :
    ∃ b : Block, out.data.toList = b.bytes ∧ b.decode? (t.take h) = some t ∧
      b.Conforms h (t.length - h) := by
  subst hsrc
  obtain ⟨ss, hout, hdec, hconf⟩ := he.sequences
  have hh := he.history_le
  have hanchor := he.anchor_le
  have hlen := he.outputLength_eq hdec
  rw [ByteArray.length_data_toList] at hanchor
  rw [finish_eq (finish_room hf) (by omega)] at hf
  cases hf
  let lits := (src.data.toList.drop anchor).take (src.size - anchor)
  have hlits : lits.length = src.size - anchor := by
    simp only [lits, List.length_take, List.length_drop, ByteArray.length_data_toList]
    omega
  have hrest : lits = src.data.toList.drop anchor := List.take_of_length_le (by simp)
  refine ⟨⟨ss, lits, 0, by decide⟩, ?_, ?_, ⟨?_, fun hlt => ?_, fun hge => ?_, hconf⟩⟩
  · rw [List.toList_data_toByteArray, hout]
    rfl
  · show (Sequence.decodeAll? ss _).map (· ++ lits) = _
    rw [hdec, Option.map_some, hrest, List.take_append_drop]
  · show Sequence.outputLength ss + lits.length = _
    rw [hlen, hlits, ByteArray.length_data_toList]
    omega
  · apply Sequence.eq_nil_of_outputLength
    rw [hlen, hshort hlt, Nat.sub_self]
  · -- the closing literals: all of the block, or what the last match leaves
    show lastLiterals ≤ lits.length
    rw [hlits]
    by_cases hlt : h < anchor
    · have := he.closing hlt
      rw [ByteArray.length_data_toList] at this
      omega
    · rw [ByteArray.length_data_toList] at hge
      unfold minLength mfLimit at hge
      unfold lastLiterals
      omega

end Follows

end Emitter

end WireCodec.Lz4
