import WireCodec.Proofs.Wire.Calls

/-!
# What a read that runs out of bytes consumes

A call that reads a number of bytes known before it starts (a buffer, a slice, a skip, an
integer of fixed width, a boolean) checks that they are there and, when fewer are left,
fails for want of them with the reader exactly as it was, its chunk cursor included: such a
read is `Atomic`.

A varint is read byte by byte, so a varint that runs out of bytes has consumed every byte
that was left, each with its continuation bit set; a count is read so too. A string or a
byte run reads its length first: it runs out either inside the length, as a varint does, or
after reading the whole length, when the bytes left after it are fewer than it declares; the
reader then stays right after the length. So the composite reads do not leave the reader
where it was (`shortRead_consumes`): reading a string whose length `5` is followed by two
bytes fails with the reader one byte further on (`shortRead_string_after_length`).
-/

namespace WireCodec.Wire

variable {α β : Type}

/-- Skipping `m` bytes, then `n`, skips `m + n`. -/
theorem View.skip_skip (v : View) (m n : Nat) : (v.skip m).skip n = v.skip (m + n) := by
  simp only [View.skip, List.drop_drop, Nat.add_assoc]

namespace ReadM

/-- A sequenced read that fails either failed in its first part, or ran its first part and
failed in the second. -/
theorem run'_bind_eq_error {x : ReadM α} {f : α → ReadM β} {r r' : Reader} {e : DecodeError}
    (h : (x >>= f).run' r = (.error e, r')) :
    x.run' r = (.error e, r') ∨ ∃ a r₁, x.run' r = (.ok a, r₁) ∧ (f a).run' r₁ = (.error e, r') := by
  rw [ReadM.run'_bind] at h
  rcases hx : x.run' r with ⟨_ | a, r₁⟩ <;> rw [hx] at h <;> dsimp only at h
  · simp only [Prod.mk.injEq, Except.error.injEq] at h
    obtain ⟨rfl, rfl⟩ := h
    exact Or.inl rfl
  · exact Or.inr ⟨a, r₁, rfl, h⟩

theorem run'_bind_of_ok {x : ReadM α} {f : α → ReadM β} {r r₁ : Reader} {a : α}
    (hx : x.run' r = (.ok a, r₁)) : (x >>= f).run' r = (f a).run' r₁ := by
  rw [ReadM.run'_bind, hx]

/-- A read that never fails for want of bytes. -/
def NoEof (x : ReadM α) : Prop :=
  ∀ r needed left r', x.run' r ≠ (.error (.unexpectedEof needed left), r')

/-- A read that needs `n` bytes at once: with fewer left it fails for want of them and
leaves the reader as it was, and with enough left it never fails for want of bytes. -/
def Atomic (n : Nat) (x : ReadM α) : Prop :=
  (∀ r : Reader, r.remaining < n → x.run' r = (.error (.unexpectedEof n r.remaining), r)) ∧
    ∀ r needed left r', n ≤ r.remaining → x.run' r ≠ (.error (.unexpectedEof needed left), r')

theorem NoEof.pure (a : α) : NoEof (Pure.pure a : ReadM α) := by
  intro r needed left r' h
  cases h

theorem NoEof.throw {e : DecodeError} (he : ∀ needed left, e ≠ .unexpectedEof needed left) :
    NoEof (MonadExcept.throw e : ReadM α) := by
  intro r needed left r' h
  rw [ReadM.run'_throw, Prod.mk.injEq, Except.error.injEq] at h
  exact he needed left h.1

/-- A failure for want of bytes of a read followed by reads that never fail so is a failure
of the first read. -/
theorem eof_of_bind {x : ReadM α} {f : α → ReadM β} (hf : ∀ a, NoEof (f a)) {r r' : Reader}
    {needed left : Nat} (h : (x >>= f).run' r = (.error (.unexpectedEof needed left), r')) :
    x.run' r = (.error (.unexpectedEof needed left), r') := by
  rcases run'_bind_eq_error h with hx | ⟨a, r₁, -, hfa⟩
  · exact hx
  · exact absurd hfa (hf a r₁ needed left r')

theorem Atomic.bind {n : Nat} {x : ReadM α} {f : α → ReadM β} (hx : Atomic n x)
    (hf : ∀ a, NoEof (f a)) : Atomic n (x >>= f) := by
  refine ⟨fun r hr => ?_, fun r needed left r' hr h => ?_⟩
  · rw [ReadM.run'_bind, hx.1 r hr]
  · exact hx.2 r needed left r' hr (eof_of_bind hf h)

theorem Atomic.map {n : Nat} {x : ReadM α} (f : α → β) (hx : Atomic n x) :
    Atomic n (x >>= fun a => Pure.pure (f a)) :=
  hx.bind fun a => NoEof.pure (f a)

/-- A read that needs `n` bytes at once and fails for want of bytes had fewer than `n` left,
fails for want of exactly `n`, and leaves the reader as it was. -/
theorem Atomic.eof {n : Nat} {x : ReadM α} (hx : Atomic n x) {r r' : Reader} {needed left : Nat}
    (h : x.run' r = (.error (.unexpectedEof needed left), r')) :
    r.remaining < n ∧ needed = n ∧ left = r.remaining ∧ r' = r := by
  -- with enough bytes it would not fail so
  have hshort : r.remaining < n := Nat.lt_of_not_le fun hge => hx.2 r needed left r' hge h
  rw [hx.1 r hshort] at h
  simp only [Prod.mk.injEq, Except.error.injEq, DecodeError.unexpectedEof.injEq] at h
  obtain ⟨⟨rfl, rfl⟩, rfl⟩ := h
  exact ⟨hshort, rfl, rfl, rfl⟩

end ReadM

open ReadM

namespace Reader

theorem readBytes_atomic (n : Nat) : Atomic n (readBytes n) := by
  refine ⟨fun r hr => readBytes_run'_short hr, fun r needed left r' hr h => ?_⟩
  obtain ⟨s, hrun, -⟩ := readBytes_run' hr
  rw [hrun] at h
  cases h

theorem readSlice_atomic (n : Nat) : Atomic n (readSlice n) := by
  refine ⟨fun r hr => readSlice_run'_short hr, fun r needed left r' hr h => ?_⟩
  obtain ⟨borrowed, s, hrun, -⟩ := readSlice_run' hr
  rw [hrun] at h
  cases h

theorem readU8_atomic : Atomic 1 readU8 :=
  (readBytes_atomic 1).map _

/-- A byte read from a sound reader with bytes left is the first byte ahead. -/
theorem readU8_run'_cons {r : Reader} (hs : r.Sound) {x : UInt8} {rest : List UInt8}
    (hahead : r.ahead = x :: rest) :
    ∃ r₁, readU8.run' r = (.ok x.toNat, r₁) ∧ r₁.view = r.view.skip 1 ∧ r₁.Sound := by
  have hn : 1 ≤ r.remaining := by
    rw [hs.remaining, hahead, List.length_cons]
    omega
  obtain ⟨r₁, hrun, hview, -, hsound⟩ := readBytes_run' hn
  refine ⟨r₁, ?_, hview, hsound hs⟩
  rw [readU8, run'_bind_of_ok hrun, hahead, ReadM.run'_pure, ByteArray.get!_eq_getD,
    List.toList_data_toByteArray]
  rfl

/-- A varint that runs out of bytes has consumed all that were left: each had its
continuation bit set, and fewer were left than the bytes the varint could still take. -/
theorem varintFrom_eof (start : Nat) :
    ∀ (i acc : Nat) {r r' : Reader} {needed left : Nat}, i ≤ 9 → r.Sound →
      (varintFrom start i acc).run' r = (.error (.unexpectedEof needed left), r') →
      needed = 1 ∧ left = 0 ∧ r'.view = r.view.skip r.remaining ∧ r.remaining + i < 10 ∧
        ∀ b ∈ r.ahead, 128 ≤ b.toNat := by
  intro i acc r r' needed left hi hs h
  rw [varintFrom] at h
  cases hahead : r.ahead with
  | nil =>
    -- nothing left: the first byte is missing and nothing moves
    have hrem : r.remaining = 0 := by rw [hs.remaining, hahead, List.length_nil]
    have hshort := readU8_atomic.1 r (by omega)
    rw [ReadM.run'_bind, hshort, hrem] at h
    simp only [Prod.mk.injEq, Except.error.injEq, DecodeError.unexpectedEof.injEq] at h
    obtain ⟨⟨rfl, rfl⟩, rfl⟩ := h
    refine ⟨rfl, rfl, ?_, by omega, by simp⟩
    simp only [View.skip, hrem, List.drop_zero, Nat.add_zero]
  | cons x rest =>
    obtain ⟨r₁, hbyte, hview, hs₁⟩ := readU8_run'_cons hs hahead
    rw [run'_bind_of_ok hbyte] at h
    dsimp only at h
    -- a byte that ends the varint, or a tenth byte out of range, is no failure for want of bytes
    split at h
    · rw [ReadM.throw_bind, ReadM.run'_throw] at h
      cases h
    · split at h
      · cases h
      · rename_i hnine hcont
        split at h
        · rw [ReadM.run'_throw] at h
          cases h
        · rename_i hlt
          have hahead₁ : r₁.ahead = rest := by
            rw [show r₁.ahead = r₁.view.ahead from rfl, hview]
            simp only [View.skip, Reader.view, hahead, List.drop_succ_cons, List.drop_zero]
          have hrem : r.remaining = r₁.remaining + 1 := by
            rw [hs.remaining, hs₁.remaining, hahead, hahead₁, List.length_cons]
          obtain ⟨rfl, rfl, hview', hlen, hbytes⟩ :=
            varintFrom_eof start (i + 1) _ (by omega) hs₁ h
          refine ⟨rfl, rfl, ?_, by omega, ?_⟩
          · rw [hview', hview, View.skip_skip, hrem, Nat.add_comm]
          · rw [List.forall_mem_cons, ← hahead₁]
            exact ⟨by omega, hbytes⟩
termination_by i => 10 - i

/-- A varint read from a sound reader runs out of bytes only after consuming all that
were left, each with its continuation bit set, fewer than ten of them. -/
theorem readVarint_eof {r r' : Reader} {needed left : Nat} (hs : r.Sound)
    (h : readVarint.run' r = (.error (.unexpectedEof needed left), r')) :
    needed = 1 ∧ left = 0 ∧ r'.view = r.view.skip r.remaining ∧ r.remaining < 10 ∧
      ∀ b ∈ r.ahead, 128 ≤ b.toNat := by
  rw [readVarint, ReadM.run'_bind, ReadM.run'_get] at h
  exact varintFrom_eof r.position 0 0 (Nat.zero_le _) hs h

/-- The cap on collections refuses a count, never a missing byte. -/
theorem readCount_eof {name : String} {r r' : Reader} {needed left : Nat}
    (h : (readCount name).run' r = (.error (.unexpectedEof needed left), r')) :
    readVarint.run' r = (.error (.unexpectedEof needed left), r') := by
  unfold readCount at h
  refine eof_of_bind (fun count r₁ needed' left' r₁' hc => ?_) h
  rw [ReadM.run'_bind, ReadM.run'_get] at hc
  dsimp only at hc
  split at hc
  · split at hc
    · rw [ReadM.throw_bind, ReadM.run'_throw] at hc
      cases hc
    · cases hc
  · cases hc

/-- A read of a length and then of a payload that needs that many bytes at once runs out
inside the length, or after reading it whole when fewer bytes than it declares are left. -/
theorem lengthPrefixed_eof {g : Nat → ReadM α} (hg : ∀ len, Atomic len (g len))
    {r r' : Reader} {needed left : Nat}
    (h : (readLen >>= g).run' r = (.error (.unexpectedEof needed left), r')) :
    readVarint.run' r = (.error (.unexpectedEof needed left), r') ∨
      (readVarint.run' r = (.ok needed, r') ∧ left = r'.remaining ∧ r'.remaining < needed) := by
  rcases run'_bind_eq_error h with hlen | ⟨len, r₁, hlen, hpayload⟩
  · exact Or.inl hlen
  · obtain ⟨hshort, rfl, rfl, rfl⟩ := (hg len).eof hpayload
    exact Or.inr ⟨hlen, rfl, hshort⟩

/-- A string runs out inside its length, or after it; a payload that is no UTF-8 is refused
as text, never for want of bytes. -/
theorem readString_eof {r r' : Reader} {needed left : Nat}
    (h : readString.run' r = (.error (.unexpectedEof needed left), r')) :
    readVarint.run' r = (.error (.unexpectedEof needed left), r') ∨
      (readVarint.run' r = (.ok needed, r') ∧ left = r'.remaining ∧ r'.remaining < needed) := by
  unfold readString at h
  refine lengthPrefixed_eof (fun len => (readSlice_atomic len).bind fun p => ?_) h
  obtain ⟨bytes, _⟩ := p
  dsimp only
  split
  · exact NoEof.pure _
  · exact NoEof.throw fun _ _ h => by cases h

end Reader

namespace ReadOp

/-- How many bytes a call needs, when that is known before it reads any. -/
def width? : ReadOp → Option Nat
  | bytes n | slice n | skip n => some n
  | u8 | bool => some 1
  | unsigned width | signed width => some width
  | varint | count _ | string | byteRun => none

/-- A call that needs a known number of bytes reads them at once. -/
theorem atomic_of_width? {op : ReadOp} {n : Nat} (h : op.width? = some n) : Atomic n op.run := by
  cases op with
  | bytes m => cases h; exact (Reader.readBytes_atomic _).map _
  | slice m => cases h; exact (Reader.readSlice_atomic _).map _
  | skip m =>
    cases h
    exact ((Reader.readSlice_atomic _).bind fun _ => NoEof.pure _).bind fun _ => NoEof.pure _
  | u8 => cases h; exact Reader.readU8_atomic.map _
  | unsigned width => cases h; exact ((Reader.readBytes_atomic _).map _).map _
  | signed width => cases h; exact (((Reader.readBytes_atomic _).map _).map _).map _
  | bool =>
    cases h
    refine (Reader.readU8_atomic.bind fun b => ?_).map _
    -- a byte other than `0` or `1` is refused as a value
    split
    · exact NoEof.pure _
    · exact NoEof.pure _
    · exact NoEof.throw fun _ _ h => by cases h
  | varint | count _ | string | byteRun => cases h

end ReadOp

/-- What a call that runs out of bytes consumes, on a sound reader. A call that needs a known
number of bytes consumes nothing: it fails for want of exactly those bytes, with the reader
as it was, its chunk cursor included. Any other call has read a varint: either the varint
ran to the end of the view, consuming every byte left, each with its continuation bit set,
fewer than ten of them; or the call reads a string or a byte run whose length was read
whole, and it stops right after that length, which asks for more bytes than are left. -/
theorem shortRead_consumes {op : ReadOp} {r r' : Reader} {needed left : Nat} (hs : r.Sound)
    (h : op.run.run' r = (.error (.unexpectedEof needed left), r')) :
    (∀ n, op.width? = some n → r' = r ∧ needed = n ∧ left = r.remaining) ∧
      (op.width? = none →
        (r'.view = r.view.skip r.remaining ∧ needed = 1 ∧ left = 0 ∧ r.remaining < 10 ∧
            ∀ b ∈ r.ahead, 128 ≤ b.toNat) ∨
          ((op = .string ∨ op = .byteRun) ∧ Reader.readVarint.run' r = (.ok needed, r') ∧
            left = r'.remaining ∧ r'.remaining < needed)) := by
  -- the length of a string or a byte run was read whole, or ran to the end as a varint does
  have hvarint : ∀ {x : ReadM Nat}, x.run' r = (.error (.unexpectedEof needed left), r') →
      x = Reader.readVarint →
      r'.view = r.view.skip r.remaining ∧ needed = 1 ∧ left = 0 ∧ r.remaining < 10 ∧
        ∀ b ∈ r.ahead, 128 ≤ b.toNat := by
    rintro x hx rfl
    obtain ⟨rfl, rfl, hview, hlen, hbytes⟩ := Reader.readVarint_eof hs hx
    exact ⟨hview, rfl, rfl, hlen, hbytes⟩
  refine ⟨fun n hn => ?_, fun hnone => ?_⟩
  · obtain ⟨-, rfl, rfl, rfl⟩ := (ReadOp.atomic_of_width? hn).eof h
    exact ⟨rfl, rfl, rfl⟩
  · cases op with
    | varint => exact Or.inl (hvarint (eof_of_bind (fun _ => NoEof.pure _) h) rfl)
    | count name =>
      exact Or.inl (hvarint (Reader.readCount_eof (eof_of_bind (fun _ => NoEof.pure _) h)) rfl)
    | string =>
      rcases Reader.readString_eof (eof_of_bind (fun _ => NoEof.pure _) h) with
        hlen | ⟨hlen, hleft, hshort⟩
      · exact Or.inl (hvarint hlen rfl)
      · exact Or.inr ⟨Or.inl rfl, hlen, hleft, hshort⟩
    | byteRun =>
      have hrun := eof_of_bind (fun _ => NoEof.pure _) h
      rw [Reader.readByteRun] at hrun
      rcases Reader.lengthPrefixed_eof Reader.readSlice_atomic hrun with hlen | ⟨hlen, hleft, hshort⟩
      · exact Or.inl (hvarint hlen rfl)
      · exact Or.inr ⟨Or.inr rfl, hlen, hleft, hshort⟩
    | _ => cases hnone

/-- A string whose length `5` is followed by two bytes fails for want of five bytes, two
left, with the reader right after the length it read whole. -/
theorem shortRead_string_after_length :
    ReadOp.string.run.run' (Reader.ofBytes ⟨#[5, 97, 98]⟩) =
        (.error (.unexpectedEof 5 2), (Reader.ofBytes ⟨#[5, 97, 98]⟩).moved 1) ∧
      Reader.readVarint.run' (Reader.ofBytes ⟨#[5, 97, 98]⟩) =
        (.ok 5, (Reader.ofBytes ⟨#[5, 97, 98]⟩).moved 1) := by
  have h5 : Writer.varintBytes 5 = [5] := by simp [Writer.varintBytes]
  have hplain : (Reader.ofBytes ⟨#[5, 97, 98]⟩).Plain (Writer.varintBytes 5 ++ [97, 98]) := by
    rw [h5]
    exact Reader.plain_ofBytes _
  have hlen := (Reads.readVarint (show 5 < Nat.pow 2 64 by decide)).whole _ _ hplain
  rw [h5] at hlen
  have hrun : ReadOp.string.run.run' (Reader.ofBytes ⟨#[5, 97, 98]⟩) =
      (.error (.unexpectedEof 5 2), (Reader.ofBytes ⟨#[5, 97, 98]⟩).moved 1) := by
    rw [ReadOp.run, ReadM.run'_bind, Reader.readString, Reader.readLen, ReadM.run'_bind_of_ok hlen,
      ReadM.run'_bind, Reader.readSlice_run'_short (by decide)]
    rfl
  refine ⟨hrun, ?_⟩
  rcases (shortRead_consumes (Reader.sound_ofBytes _) hrun).2 rfl with ⟨-, h1, -⟩ | ⟨-, hvarint, -⟩
  · cases h1
  · exact hvarint

end WireCodec.Wire
