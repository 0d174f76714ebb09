import WireCodec.Proofs.Lz4.Emitter

/-!
# Written sequences read back

The emitter writes a sequence and the decoder reads it with three readers of its own: the
token with the literal-length extension (`literalLength`), the two offset bytes, and the
match length with its extension (`matchLength`). `SequenceAt blk ip lits offset matchLen stop`
says what those readers find at `ip`, and `ClosingAt blk ip lits` what they find in a
closing run, whose literals end the block.

Main statement: `emitted_sequences_parse_back`. What `writeSequence` appends is exactly
`sequencePrice` bytes, which the readers take back field by field, wherever the bytes stand
and whatever follows them; what `finish` appends is `1 + literalsPrice` bytes, read back as
a closing run. Each refuses exactly when the room left is short of what it writes (for a
sequence, with room kept for a closing run of `lastLiterals` bytes after it).
-/

namespace WireCodec.Lz4

/-- What the decoder's readers take from `blk` at `ip`: a token whose high four bits and
their extension give `lits.length` literals, the literals `lits`, a little-endian offset
`offset`, and a match length `matchLen` from the token's low four bits and their extension,
which ends at `stop`. -/
def SequenceAt (blk : ByteArray) (ip : Nat) (lits : List UInt8) (offset matchLen stop : Nat) :
    Prop :=
  ip < blk.size ∧ ∃ ip₁, literalLength blk (ip + 1) (blk.get! ip) = .ok (ip₁, lits.length) ∧
    (blk.data.toList.drop ip₁).take lits.length = lits ∧
    (blk.get! (ip₁ + lits.length)).toNat + (blk.get! (ip₁ + lits.length + 1)).toNat * 256 =
      offset ∧
    matchLength blk (ip₁ + lits.length + 2) (blk.get! ip) = .ok (stop, matchLen)

/-- What the decoder's readers take from `blk` at `ip` for a closing run: a token whose high
four bits and their extension give `lits.length` literals, then the literals `lits`, which
are the last bytes of the block. -/
def ClosingAt (blk : ByteArray) (ip : Nat) (lits : List UInt8) : Prop :=
  ip < blk.size ∧ ∃ ip₁, literalLength blk (ip + 1) (blk.get! ip) = .ok (ip₁, lits.length) ∧
    blk.data.toList.drop ip₁ = lits

theorem get!_of_drop_eq_cons {blk : ByteArray} {ip : Nat} {x : UInt8} {xs : List UInt8}
    (h : blk.data.toList.drop ip = x :: xs) : blk.get! ip = x := by
  simpa using ByteArray.get!_of_drop_eq h 0

/-- The bytes of a sequence, wherever they stand, read back as the sequence, and the
readers stop right after them. -/
theorem sequenceAt_of_drop {blk : ByteArray} {ip : Nat} {s : Sequence} {rest : List UInt8}
    (h : blk.data.toList.drop ip = s.bytes ++ rest) :
    SequenceAt blk ip s.literals s.offset s.matchLen (ip + s.bytes.length) := by
  rw [Sequence.bytes_append] at h
  have htok := get!_of_drop_eq_cons h
  obtain ⟨hip, -, h₁⟩ := ByteArray.lt_size_of_drop_eq_cons h
  -- the fields from the token on, at the positions where the readers meet them
  have h₂ := drop_add_of_drop_eq h₁
  rw [length_extensionBytes] at h₂
  have h₃ := drop_add_of_drop_eq h₂
  have h₄ : blk.data.toList.drop (ip + 1 + extensionLength s.literals.length +
      s.literals.length + 2) = extensionBytes (s.matchLen - minMatch) ++ rest :=
    @drop_add_of_drop_eq _ [_, _] _ _ h₃
  have hb₀ := ByteArray.get!_of_drop_eq h₃ 0
  have hb₁ := ByteArray.get!_of_drop_eq h₃ 1
  simp only [Nat.add_zero, List.getD_cons_zero, List.getD_cons_succ] at hb₀ hb₁
  refine ⟨hip, ip + 1 + extensionLength s.literals.length, ?_, ?_, ?_, ?_⟩
  · rw [literalLength_eq, htok, token_shiftRight (nibble_lt _) (nibble_lt _),
      lengthField_of_drop h₁]
  · rw [h₂, List.take_left]
  · rw [hb₀, hb₁]
    exact offset_of_bytes s.offset_le
  · rw [matchLength_eq, htok, token_and_fifteen (nibble_lt _) (nibble_lt _),
      lengthField_of_drop h₄]
    -- the match extension ends where the sequence does
    have hend : ip + 1 + extensionLength s.literals.length + s.literals.length + 2 +
        extensionLength (s.matchLen - minMatch) = ip + s.bytes.length := by
      rw [Sequence.length_bytes, sequencePrice, literalsPrice]
      omega
    show Except.ok (_, s.matchLen - minMatch + minMatch) = _
    rw [hend, Nat.sub_add_cancel s.minMatch_le]

/-- The bytes of a closing run read back as its literals, which end the block. -/
theorem closingAt_of_drop {blk : ByteArray} {ip : Nat} {lits : List UInt8} {code : UInt8}
    (hcode : code < 16) (h : blk.data.toList.drop ip = closingBytes lits code) :
    ClosingAt blk ip lits := by
  have htok := get!_of_drop_eq_cons h
  obtain ⟨hip, -, h₁⟩ := ByteArray.lt_size_of_drop_eq_cons h
  have h₂ := drop_add_of_drop_eq h₁
  rw [length_extensionBytes] at h₂
  refine ⟨hip, ip + 1 + extensionLength lits.length, ?_, h₂⟩
  rw [literalLength_eq, htok, token_shiftRight (nibble_lt _) hcode, lengthField_of_drop h₁]

namespace Emitter

variable {e : Emitter} {src : ByteArray} {start len : Nat}

/-- `writeSequence` refuses exactly when the room left is short of the sequence and a
closing run of `lastLiterals` bytes, and otherwise appends the sequence's bytes. -/
theorem writeSequence_eq_ite {offset matchLen : Nat} (hlen : start + len ≤ src.size)
    (hoff : offset ≤ maxDistance) (hm : minMatch ≤ matchLen) :
    e.writeSequence src start len offset matchLen =
      if e.capacity - e.out.size < sequencePrice len matchLen + lastLiterals + 1 then
        .error (.outputTooSmall e.capacity)
      else .ok { e with out := (e.out.data.toList ++ Sequence.bytes
        ⟨(src.data.toList.drop start).take len, offset, matchLen, hoff, hm⟩).toByteArray } := by
  split
  · rename_i hshort
    rw [writeSequence, if_pos (by omega)]
  · rename_i hroom
    exact writeSequence_eq (by omega) hoff hm hlen

/-- `finish` refuses exactly when the room left is short of the closing run, and otherwise
returns the block with the run appended. -/
theorem finish_eq_ite (hlen : start + len ≤ src.size) :
    e.finish src start len =
      if e.capacity - e.out.size < 1 + literalsPrice len then .error (.outputTooSmall e.capacity)
      else .ok (e.out.data.toList ++ closingBytes ((src.data.toList.drop start).take len) 0).toByteArray := by
  split
  · rename_i hshort
    rw [finish, if_pos (by omega)]
  · rename_i hroom
    exact finish_eq (by omega) hlen

end Emitter

/-- The emitter and the decoder agree on sequences, and the prices are exact. A sequence of
the `len` literals of `src` at `start`, an offset that two bytes hold and a match of at
least `minMatch` bytes is written as `sequencePrice len matchLen` bytes, if the room left
holds them and a closing run of `lastLiterals` bytes, and is refused otherwise; wherever
those bytes stand, the decoder's readers take back the literal count, the literals, the
offset and the match length, and stop right after them. A closing run of the same literals
is written as `1 + literalsPrice len` bytes, if the room left holds them, and read back as
the literals that end the block. -/
theorem emitted_sequences_parse_back (e : Emitter) (src : ByteArray) (start len offset matchLen : Nat)
    (hlen : start + len ≤ src.size) (hoff : offset ≤ maxDistance) (hm : minMatch ≤ matchLen) :
    (∃ bs : List UInt8, bs.length = sequencePrice len matchLen ∧
      e.writeSequence src start len offset matchLen =
        (if e.capacity - e.out.size < sequencePrice len matchLen + lastLiterals + 1 then
          .error (.outputTooSmall e.capacity)
        else .ok { e with out := (e.out.data.toList ++ bs).toByteArray }) ∧
      ∀ blk ip rest, blk.data.toList.drop ip = bs ++ rest →
        SequenceAt blk ip ((src.data.toList.drop start).take len) offset matchLen
          (ip + bs.length)) ∧
    ∃ bs : List UInt8, bs.length = 1 + literalsPrice len ∧
      e.finish src start len =
        (if e.capacity - e.out.size < 1 + literalsPrice len then .error (.outputTooSmall e.capacity)
        else .ok (e.out.data.toList ++ bs).toByteArray) ∧
      ∀ blk ip, blk.data.toList.drop ip = bs →
        ClosingAt blk ip ((src.data.toList.drop start).take len) := by
  let lits := (src.data.toList.drop start).take len
  have hlits : lits.length = len := by
    simp only [lits, List.length_take, List.length_drop, ByteArray.length_data_toList]
    omega
  let s : Sequence := ⟨lits, offset, matchLen, hoff, hm⟩
  refine ⟨⟨s.bytes, ?_, Emitter.writeSequence_eq_ite hlen hoff hm,
    fun blk ip rest h => sequenceAt_of_drop h⟩, closingBytes lits 0, ?_, Emitter.finish_eq_ite hlen,
    fun blk ip h => closingAt_of_drop (by decide) h⟩
  · rw [Sequence.length_bytes]
    exact congrArg (sequencePrice · matchLen) hlits
  · rw [closingBytes, List.length_cons, List.length_append, length_extensionBytes, hlits,
      literalsPrice]
    omega

/-- The literals `ab` with offset 2 and a match of 6, written into 32 bytes, and the same
literals as a closing run. -/
theorem emitted_sequences_parse_back_short :
    0 + 2 ≤ (ByteArray.mk #[97, 98]).size ∧ 2 ≤ maxDistance ∧ minMatch ≤ 6 ∧
    ((∃ bs : List UInt8, bs.length = sequencePrice 2 6 ∧
      (Emitter.empty 32).writeSequence ⟨#[97, 98]⟩ 0 2 2 6 =
        (if (Emitter.empty 32).capacity - (Emitter.empty 32).out.size <
            sequencePrice 2 6 + lastLiterals + 1 then
          .error (.outputTooSmall (Emitter.empty 32).capacity)
        else .ok { Emitter.empty 32 with
          out := ((Emitter.empty 32).out.data.toList ++ bs).toByteArray }) ∧
      ∀ blk ip rest, blk.data.toList.drop ip = bs ++ rest →
        SequenceAt blk ip (((ByteArray.mk #[97, 98]).data.toList.drop 0).take 2) 2 6
          (ip + bs.length)) ∧
    ∃ bs : List UInt8, bs.length = 1 + literalsPrice 2 ∧
      (Emitter.empty 32).finish ⟨#[97, 98]⟩ 0 2 =
        (if (Emitter.empty 32).capacity - (Emitter.empty 32).out.size < 1 + literalsPrice 2 then
          .error (.outputTooSmall (Emitter.empty 32).capacity)
        else .ok ((Emitter.empty 32).out.data.toList ++ bs).toByteArray) ∧
      ∀ blk ip, blk.data.toList.drop ip = bs →
        ClosingAt blk ip (((ByteArray.mk #[97, 98]).data.toList.drop 0).take 2)) :=
  ⟨by decide, by decide, by decide,
    emitted_sequences_parse_back (Emitter.empty 32) ⟨#[97, 98]⟩ 0 2 2 6 (by decide) (by decide)
      (by decide)⟩

end WireCodec.Lz4
