import WireCodec.Proofs.Codec.ForcedKind

/-!
# The cap on collections

A reader may cap the number of elements of the collections it reads: sequences, maps and
sets, whose count the decoder reads and checks before their elements. Strings, byte
buffers and arrays are not collections here, and a top-level byte buffer is not decoded at
all.

The cap only adds failures. On any input, the uncapped decoder reads some counts, each with
the name of its collection's type; under a cap `m` the decoder fails with the error of the
first of those counts above `m`, if there is one, and otherwise gives exactly what the
uncapped decoder gives (`Cuts`, `decode_cuts`). When the uncapped decoder succeeds, the
counts it read are, up to order, the sizes of the collections of the value it returns
(`collectionCounts`): so a value decodes under a cap exactly when its collections all fit
under it, and decoding under a lower cap accepts no more (`collectionCap_only_adds_failures`).

Every read but that of a count is blind to the cap (`CapBlind`), so the cut passes through
sequencing, repeated reads, keyed entries, fields and union variants as the counts it reads
pass from one read to the next.
-/

namespace WireCodec

open Wire

namespace Wire.Reader

/-- The reader with the cap `c` on collections. -/
def withCap (r : Reader) (c : Option Nat) : Reader :=
  { r with options := { r.options with maxCollectionLen := c } }

@[simp] theorem remaining_withCap (r : Reader) (c : Option Nat) :
    (r.withCap c).remaining = r.remaining :=
  rfl

@[simp] theorem position_withCap (r : Reader) (c : Option Nat) :
    (r.withCap c).position = r.position :=
  rfl

@[simp] theorem cap_withCap (r : Reader) (c : Option Nat) :
    (r.withCap c).options.maxCollectionLen = c :=
  rfl

theorem withCap_of_cap {r : Reader} {c : Option Nat} (h : r.options.maxCollectionLen = c) :
    r.withCap c = r := by
  subst h
  rfl

theorem Sound.withCap {r : Reader} (hs : r.Sound) (c : Option Nat) : (r.withCap c).Sound :=
  hs

theorem readBytes_withCap (r : Reader) (c : Option Nat) (n : Nat) :
    (readBytes n).run' (r.withCap c) = (((readBytes n).run' r).1, ((readBytes n).run' r).2.withCap c) := by
  rw [withCap, readBytes_options, withCap, options_readBytes]

theorem readSlice_withCap (r : Reader) (c : Option Nat) (n : Nat) :
    (readSlice n).run' (r.withCap c) = (((readSlice n).run' r).1, ((readSlice n).run' r).2.withCap c) := by
  rw [withCap, readSlice_options, withCap, options_readSlice]

/-- Options with a cap and the same options with none, merged into a reader with none. -/
theorem mergeOptions_withCap (r : Reader) (tk : Option TimeKind) (m : Nat) :
    r.mergeOptions (some ⟨tk, some m⟩) = (r.mergeOptions (some ⟨tk, none⟩)).withCap (some m) :=
  rfl

end Wire.Reader

/-- A read that fails makes the reads after it fail the same way. -/
theorem Wire.ReadM.run'_bind_of_error {α β : Type} {x : ReadM α} {f : α → ReadM β} {r : Reader}
    {e : DecodeError} (h : (x.run' r).1 = .error e) : ((x >>= f).run' r).1 = .error e := by
  rw [ReadM.run'_bind]
  rcases hx : x.run' r with ⟨_ | a, s⟩ <;> rw [hx] at h <;> dsimp only at h ⊢
  · rw [Except.error.injEq] at h ⊢
    exact h
  · cases h

theorem Carrier.reader_cap (c : Carrier) : c.reader.options.maxCollectionLen = none := by
  cases c with
  | sequence ss => rcases ss with _ | ⟨_, _ | ⟨_, _⟩⟩ <;> rfl
  | slice _ => rfl
  | shared _ => rfl
  | segment _ _ _ => rfl

namespace Codec

/-! ### Reads blind to the cap -/

/-- A read that does the same under every cap, and leaves the cap as it found it. -/
def CapBlind {α : Type} (x : ReadM α) : Prop :=
  ∀ r c, x.run' (r.withCap c) = ((x.run' r).1, (x.run' r).2.withCap c)

namespace CapBlind

variable {α β : Type}

theorem pure (a : α) : CapBlind (Pure.pure a : ReadM α) :=
  fun _ _ => rfl

theorem throw (e : DecodeError) : CapBlind (MonadExcept.throw e : ReadM α) :=
  fun _ _ => rfl

theorem bind {x : ReadM α} {f : α → ReadM β} (hx : CapBlind x) (hf : ∀ a, CapBlind (f a)) :
    CapBlind (x >>= f) := by
  intro r c
  rw [ReadM.run'_bind, ReadM.run'_bind, hx r c]
  rcases x.run' r with ⟨_ | a, s⟩
  · rfl
  · exact hf a s c

/-- A look at the reader that does not see its cap. -/
theorem get_bind {f : Reader → ReadM α} (hf : ∀ r, CapBlind (f r))
    (hsame : ∀ r c, f (r.withCap c) = f r) : CapBlind (get >>= f) := by
  intro r c
  rw [ReadM.run'_bind, ReadM.run'_bind, ReadM.run'_get, ReadM.run'_get]
  dsimp only
  rw [hsame r c]
  exact hf r r c

theorem map {x : ReadM α} (f : α → β) (hx : CapBlind x) : CapBlind (x >>= fun a => Pure.pure (f a)) :=
  hx.bind fun a => pure (f a)

theorem readBytes (n : Nat) : CapBlind (Reader.readBytes n) :=
  fun r c => Reader.readBytes_withCap r c n

theorem readSlice (n : Nat) : CapBlind (Reader.readSlice n) :=
  fun r c => Reader.readSlice_withCap r c n

theorem readU8 : CapBlind Reader.readU8 :=
  map _ (readBytes 1)

theorem readLE (width : Nat) : CapBlind (Reader.readLE width) :=
  map _ (readBytes width)

theorem readBool : CapBlind Reader.readBool := by
  refine readU8.bind fun b => ?_
  split
  · exact pure false
  · exact pure true
  · exact throw _

theorem varintFrom (start i acc : Nat) : CapBlind (Reader.varintFrom start i acc) := by
  rw [Reader.varintFrom]
  refine readU8.bind fun byte => ?_
  dsimp only
  split
  · rw [ReadM.throw_bind]
    exact throw _
  · split
    · exact pure _
    · split
      · exact throw _
      · exact varintFrom start (i + 1) _
termination_by 10 - i

theorem readVarint : CapBlind Reader.readVarint :=
  get_bind (fun r => varintFrom r.position 0 0) fun _ _ => rfl

theorem readString : CapBlind Reader.readString := by
  refine readVarint.bind fun len => (readSlice len).bind fun p => ?_
  obtain ⟨bytes, _⟩ := p
  dsimp only
  split
  · exact pure _
  · exact throw _

theorem readByteRun : CapBlind Reader.readByteRun :=
  readVarint.bind fun n => readSlice n

end CapBlind

/-! ### The first count above a cap -/

/-- The first of `counts` above the cap `m`: the collection a decoder under that cap refuses. -/
def firstOver (m : Nat) (counts : List (String × Nat)) : Option (String × Nat) :=
  counts.find? fun p => m < p.2

/-- The error of the collection of type `p.1` with `p.2` elements under the cap `m`. -/
def capError (m : Nat) (p : String × Nat) : DecodeError :=
  .invalidValue p.1 (.tooManyElements p.2 m)

theorem firstOver_append (m : Nat) (a b : List (String × Nat)) :
    firstOver m (a ++ b) = (firstOver m a).or (firstOver m b) :=
  List.find?_append

theorem firstOver_eq_none {m : Nat} {counts : List (String × Nat)} :
    firstOver m counts = none ↔ ∀ p ∈ counts, p.2 ≤ m := by
  simp only [firstOver, List.find?_eq_none, decide_eq_true_eq, Nat.not_lt]

/-! ### Cutting a run at the first count above the cap -/

/-- A run under the cap `m`, against the run with no cap that read `counts`: the error of the
first of them above `m`, if there is one; otherwise the same result, at the same place. -/
def CutAt {α : Type} (m : Nat) (counts : List (String × Nat))
    (capped uncapped : Except DecodeError α × Reader) : Prop :=
  (∀ p, firstOver m counts = some p → capped.1 = .error (capError m p)) ∧
    (firstOver m counts = none → capped = (uncapped.1, uncapped.2.withCap (some m)))

/-- `x` reads counts of collections and is cut off under any cap at the first of them above
it. From a sound reader with no cap, `x` leaves a sound reader with no cap, having read
`counts`; under each cap it does what `CutAt` says; and when it returns `a`, the counts in
`pre` and those read are, up to order, the counts `g` finds in `a`. -/
def Cuts {α : Type} (g : α → List (String × Nat)) (pre : List (String × Nat)) (x : ReadM α) :
    Prop :=
  ∀ r : Reader, r.Sound → r.options.maxCollectionLen = none →
    ((x.run' r).2.Sound ∧ (x.run' r).2.options.maxCollectionLen = none) ∧
      ∃ counts : List (String × Nat), (∀ a, (x.run' r).1 = .ok a → (pre ++ counts).Perm (g a)) ∧
        ∀ m, CutAt m counts (x.run' (r.withCap (some m))) (x.run' r)

/-- A read blind to the cap keeps a reader with no cap so. -/
theorem CapBlind.cap_none {α : Type} {x : ReadM α} (hx : CapBlind x) {r : Reader}
    (hnone : r.options.maxCollectionLen = none) : (x.run' r).2.options.maxCollectionLen = none := by
  have h := hx r none
  rw [Reader.withCap_of_cap hnone] at h
  rw [h]
  rfl

namespace Cuts

variable {α β : Type} {g : β → List (String × Nat)} {pre : List (String × Nat)}

theorem pure {b : β} (h : pre.Perm (g b)) : Cuts g pre (Pure.pure b : ReadM β) := by
  intro r hs hnone
  refine ⟨⟨hs, hnone⟩, [], fun b' hb => ?_, fun m => ⟨fun p hp => ?_, fun _ => rfl⟩⟩
  · cases hb
    rwa [List.append_nil]
  · simp [firstOver] at hp

theorem throw (e : DecodeError) : Cuts g pre (MonadExcept.throw e : ReadM β) := by
  intro r hs hnone
  refine ⟨⟨hs, hnone⟩, [], fun b hb => ?_, fun m => ⟨fun p hp => ?_, fun _ => rfl⟩⟩
  · cases hb
  · simp [firstOver] at hp

theorem throw_bind (e : DecodeError) (k : α → ReadM β) :
    Cuts g pre ((MonadExcept.throw e : ReadM α) >>= k) := by
  rw [ReadM.throw_bind]
  exact throw e

/-- Counts known before a read may be listed in any order. -/
theorem perm_pre {pre' : List (String × Nat)} {x : ReadM β} (h : Cuts g pre x) (hp : pre.Perm pre') :
    Cuts g pre' x := by
  intro r hs hnone
  obtain ⟨hkeep, counts, hperm, hcut⟩ := h r hs hnone
  exact ⟨hkeep, counts, fun b hb => ((hp.append_right counts).symm).trans (hperm b hb), hcut⟩

theorem congr {g' : β → List (String × Nat)} {x : ReadM β} (h : Cuts g pre x) (hg : ∀ b, g b = g' b) :
    Cuts g' pre x := by
  have : g = g' := funext hg
  subst this
  exact h

/-- A read followed by reads chosen by its result: the counts of both, the first read's
before the second's. The second read may assume what every result of the first satisfies
(`Q`); `pre₂ a` holds what is known before it once the first read has returned `a`: the
counts known before both and those the first read, up to order. -/
theorem bind {g₁ : α → List (String × Nat)} {pre₁ : List (String × Nat)} {Q : α → Prop}
    (pre₂ : α → List (String × Nat)) {x : ReadM α} {f : α → ReadM β} (hx : Cuts g₁ pre₁ x)
    (hQ : ∀ r a r', r.Sound → x.run' r = (.ok a, r') → Q a)
    (hf : ∀ a, Q a → Cuts g (pre₂ a) (f a)) (hpre : ∀ a, (pre₂ a ++ pre₁).Perm (pre ++ g₁ a)) :
    Cuts g pre (x >>= f) := by
  intro r hs hnone
  obtain ⟨hkeep₁, c₁, hperm₁, hcut₁⟩ := hx r hs hnone
  have hQ₁ := hQ r
  rcases h₁ : x.run' r with ⟨e | a, r₁⟩ <;> rw [h₁] at hkeep₁ hperm₁ hcut₁
  · -- the first read fails: its counts are all there are
    have hrun : (x >>= f).run' r = (.error e, r₁) := by rw [ReadM.run'_bind, h₁]
    rw [hrun]
    refine ⟨hkeep₁, c₁, (fun b hb => by cases hb), fun m => ⟨fun p hp => ?_, fun hp => ?_⟩⟩
    · exact ReadM.run'_bind_of_error ((hcut₁ m).1 p hp)
    · rw [ReadM.run'_bind, (hcut₁ m).2 hp]
  · obtain ⟨hkeep₂, c₂, hperm₂, hcut₂⟩ := hf a (hQ₁ a r₁ hs h₁) r₁ hkeep₁.1 hkeep₁.2
    have hrun : (x >>= f).run' r = (f a).run' r₁ := by rw [ReadM.run'_bind, h₁]
    rw [hrun]
    refine ⟨hkeep₂, c₁ ++ c₂, fun b hb => ?_, fun m => ⟨fun p hp => ?_, fun hp => ?_⟩⟩
    · -- what is known before the second read is what was known before both, and `c₁`
      have hknown : (pre₂ a).Perm (pre ++ c₁) := by
        have hboth : (pre₂ a ++ pre₁).Perm ((pre ++ c₁) ++ pre₁) := by
          refine (hpre a).trans (((hperm₁ a rfl).symm.append_left pre).trans ?_)
          rw [List.append_assoc]
          exact List.perm_append_comm.append_left pre
        exact (List.perm_append_right_iff pre₁).mp hboth
      rw [← List.append_assoc]
      exact (hknown.symm.append_right c₂).trans (hperm₂ b hb)
    · rw [firstOver_append] at hp
      cases hc₁ : firstOver m c₁ with
      | some q =>
        rw [hc₁, Option.some_or] at hp
        exact ReadM.run'_bind_of_error ((hcut₁ m).1 p (hc₁.trans hp))
      | none =>
        rw [hc₁, Option.none_or] at hp
        rw [ReadM.run'_bind, (hcut₁ m).2 hc₁]
        exact (hcut₂ m).1 p hp
    · rw [firstOver_append, Option.or_eq_none_iff] at hp
      rw [ReadM.run'_bind, (hcut₁ m).2 hp.1]
      exact (hcut₂ m).2 hp.2

/-- A read, then reads knowing what it counted. -/
theorem seq {g₁ : α → List (String × Nat)} {x : ReadM α} {f : α → ReadM β} (hx : Cuts g₁ [] x)
    (hf : ∀ a, Cuts g (pre ++ g₁ a) (f a)) : Cuts g pre (x >>= f) :=
  bind (fun a => pre ++ g₁ a) hx (fun _ _ _ _ _ => trivial) (fun a _ => hf a) fun a => by
    rw [List.append_nil]

/-- A read blind to the cap counts nothing. -/
theorem of_blind {x : ReadM α} (hx : CapBlind x) (hsafe : Safe x) : Cuts (fun _ => []) [] x := by
  intro r hs hnone
  refine ⟨⟨(hsafe r hs).1, hx.cap_none hnone⟩, [], fun _ _ => List.Perm.refl _,
    fun m => ⟨fun p hp => ?_, fun _ => hx r (some m)⟩⟩
  simp [firstOver] at hp

theorem blind_bind {x : ReadM α} {f : α → ReadM β} (hx : CapBlind x) (hsafe : Safe x)
    (hf : ∀ a, Cuts g pre (f a)) : Cuts g pre (x >>= f) :=
  bind (fun _ => pre) (of_blind hx hsafe) (fun _ _ _ _ _ => trivial) (fun a _ => hf a) fun _ =>
    List.Perm.refl _

/-- A look at the reader that does not see its cap. -/
theorem get_bind {f : Reader → ReadM β} (hf : ∀ r, Cuts g pre (f r))
    (hsame : ∀ r m, f (r.withCap (some m)) = f r) : Cuts g pre (get >>= f) := by
  intro r hs hnone
  have hrun : ∀ r', (get >>= f).run' r' = (f r').run' r' := fun r' => by
    rw [ReadM.run'_bind, ReadM.run'_get]
  obtain ⟨hkeep, counts, hperm, hcut⟩ := hf r r hs hnone
  refine ⟨by rw [hrun]; exact hkeep, counts, by rw [hrun]; exact hperm, fun m => ?_⟩
  rw [hrun, hrun, hsame]
  exact hcut m

theorem ite {c : Prop} [Decidable c] {x y : ReadM β} (hthen : c → Cuts g pre x)
    (helse : ¬c → Cuts g pre y) : Cuts g pre (if c then x else y) := by
  by_cases h : c
  · simp only [if_pos h]
    exact hthen h
  · simp only [if_neg h]
    exact helse h

/-- A read, then a value built from its result, which counts what the read counted. -/
theorem map {g₁ : α → List (String × Nat)} {pre₁ : List (String × Nat)} {x : ReadM α} (f : α → β)
    (hx : Cuts g₁ pre₁ x) (hg : ∀ a, (g₁ a).Perm (g (f a))) (hpre : pre₁.Perm pre) :
    Cuts g pre (x >>= fun a => Pure.pure (f a)) :=
  bind g₁ hx (fun _ _ _ _ _ => trivial) (fun a _ => pure (hg a)) fun _ =>
    List.perm_append_comm.trans (hpre.append_right _)

/-- A read blind to the cap, then a value that counts nothing. -/
theorem blind_map {x : ReadM α} (hx : CapBlind x) (hsafe : Safe x) (f : α → β) (hf : ∀ a, g (f a) = []) :
    Cuts g [] (x >>= fun a => Pure.pure (f a)) :=
  blind_bind hx hsafe fun a => pure (by rw [hf a])

end Cuts


/-! ### The count of a collection -/

theorem readCount_run'_of_error (name : String) {r r₁ : Reader} {e : DecodeError}
    (h : Reader.readVarint.run' r = (.error e, r₁)) : (Reader.readCount name).run' r = (.error e, r₁) := by
  rw [Reader.readCount, Reader.readLen, ReadM.run'_bind, h]

theorem readCount_run'_of_none (name : String) {r r₁ : Reader} {n : Nat}
    (h : Reader.readVarint.run' r = (.ok n, r₁)) (hcap : r₁.options.maxCollectionLen = none) :
    (Reader.readCount name).run' r = (.ok n, r₁) := by
  rw [Reader.readCount, Reader.readLen, ReadM.run'_bind, h]
  dsimp only
  rw [ReadM.run'_bind, ReadM.run'_get]
  dsimp only
  rw [hcap]
  rfl

/-- Under the cap `m`, a count above it is refused, after it was read. -/
theorem readCount_run'_of_cap (name : String) {r r₁ : Reader} {n m : Nat}
    (h : Reader.readVarint.run' r = (.ok n, r₁)) (hcap : r₁.options.maxCollectionLen = some m) :
    (Reader.readCount name).run' r =
      if m < n then (.error (capError m (name, n)), r₁) else (.ok n, r₁) := by
  rw [Reader.readCount, Reader.readLen, ReadM.run'_bind, h]
  dsimp only
  rw [ReadM.run'_bind, ReadM.run'_get]
  dsimp only
  rw [hcap]
  dsimp only
  by_cases hmn : m < n
  · simp only [gt_iff_lt, if_pos hmn]
    rfl
  · simp only [gt_iff_lt, if_neg hmn]
    rfl

theorem firstOver_singleton (m : Nat) (p : String × Nat) :
    firstOver m [p] = if m < p.2 then some p else none := by
  by_cases h : m < p.2 <;> simp [firstOver, h]

/-- On a sound reader a slice read that succeeds returns the bytes asked for. -/
theorem readSlice_size {r r' : Reader} {n : Nat} {p : ByteArray × Bool} (hs : r.Sound)
    (h : (Reader.readSlice n).run' r = (.ok p, r')) : p.1.size = n := by
  by_cases hn : n ≤ r.remaining
  · obtain ⟨slice, r'', hrun, hsize⟩ := hs.readSlice hn
    rw [hrun, Prod.mk.injEq, Except.ok.injEq] at h
    rw [← h.1]
    exact hsize
  · rw [Reader.readSlice_run'_short (by omega)] at h
    cases h

/-- A slice read keeps a sound reader sound. -/
theorem safe_readSlice (n : Nat) : Safe (Reader.readSlice n) := by
  intro r hs
  by_cases hn : n ≤ r.remaining
  · obtain ⟨borrowed, r', hrun, hview, -, hsound⟩ := Reader.readSlice_run' hn
    rw [hrun, Reader.position_of_view_skip hview]
    exact ⟨hsound hs, Nat.le_add_right _ _⟩
  · rw [Reader.readSlice_run'_short (by omega)]
    exact ⟨hs, Nat.le_refl _⟩

theorem safe_readByteRun : Safe Reader.readByteRun := by
  rw [Reader.readByteRun]
  exact safe_closed.bind safe_closed.toClosed.readVarint safe_readSlice

namespace Cuts

variable {α β : Type} {g : β → List (String × Nat)} {pre : List (String × Nat)}

/-- The count of a collection is the one read that sees the cap: it counts itself. -/
theorem readCount (name : String) : Cuts (fun n => [(name, n)]) [] (Reader.readCount name) := by
  intro r hs hnone
  have hsound := (safe_closed.toClosed.readVarint r hs).1
  have hkeep := CapBlind.readVarint.cap_none hnone
  have hcapped := fun m => CapBlind.readVarint r (some m)
  rcases hv : Reader.readVarint.run' r with ⟨e | n, r₁⟩ <;> rw [hv] at hsound hkeep hcapped
  · -- no count was read: nothing is counted
    rw [readCount_run'_of_error name hv]
    refine ⟨⟨hsound, hkeep⟩, [], (fun b hb => by cases hb), fun m => ⟨fun p hp => ?_, fun _ => ?_⟩⟩
    · simp [firstOver] at hp
    · exact readCount_run'_of_error name (hcapped m)
  · rw [readCount_run'_of_none name hv hkeep]
    refine ⟨⟨hsound, hkeep⟩, [(name, n)], fun b hb => ?_, fun m => ⟨fun p hp => ?_, fun hp => ?_⟩⟩
    · cases hb
      exact List.Perm.refl _
    · rw [firstOver_singleton] at hp
      by_cases hmn : m < n
      · rw [if_pos hmn, Option.some.injEq] at hp
        rw [readCount_run'_of_cap name (hcapped m) rfl, if_pos hmn, hp]
      · rw [if_neg hmn] at hp
        cases hp
    · rw [firstOver_singleton] at hp
      by_cases hmn : m < n
      · rw [if_pos hmn] at hp
        cases hp
      · rw [readCount_run'_of_cap name (hcapped m) rfl, if_neg hmn]

/-- A slice read followed by reads that know it has the bytes asked for. -/
theorem readSlice_bind {n : Nat} {f : ByteArray × Bool → ReadM β}
    (hf : ∀ p : ByteArray × Bool, p.1.size = n → Cuts g pre (f p)) :
    Cuts g pre (Reader.readSlice n >>= f) :=
  bind (fun _ => pre) (of_blind (CapBlind.readSlice n) (safe_readSlice n))
    (fun _ _ _ hs h => readSlice_size hs h) hf fun _ => List.Perm.refl _

end Cuts


namespace Cuts

variable {α β : Type} {g : β → List (String × Nat)} {pre : List (String × Nat)}

/-- Repeated reads count what their elements count, those read before (`acc`) included, and
what `hd` counts of how many there are. -/
theorem readMany {h : α → List (String × Nat)} (hd : Nat → List (String × Nat)) {x : ReadM α}
    (hx : Cuts h [] x) :
    ∀ n acc, Cuts (fun ys => hd ys.length ++ ys.flatMap h) (hd (n + acc.length) ++ acc.flatMap h)
      (Codec.readMany x n acc)
  | 0, acc => by
    rw [Codec.readMany]
    refine pure ?_
    rw [Nat.zero_add, List.length_reverse]
    exact ((List.reverse_perm acc).symm.flatMap_right h).append_left _
  | n + 1, acc => by
    rw [Codec.readMany]
    refine seq hx fun a => (readMany hd hx n (a :: acc)).perm_pre ?_
    rw [List.length_cons, List.flatMap_cons, show n + (acc.length + 1) = n + 1 + acc.length by omega,
      List.append_assoc]
    exact List.perm_append_comm.append_left _

/-- Keyed entries count what their entries count, whatever order the container keeps them in:
an entry with a key already there is refused before it is kept. -/
theorem readKeyed {h : β → List (String × Nat)} (hd : Nat → List (String × Nat)) {x : ReadM β}
    (keyed : Keyed) (key : β → Value) (name : String) (hx : Cuts h [] x) :
    ∀ n acc, Cuts (fun es => hd es.length ++ es.flatMap h) (hd (n + acc.length) ++ acc.flatMap h)
      (Codec.readKeyed keyed key name x n acc)
  | 0, acc => by
    rw [Codec.readKeyed]
    refine pure ?_
    rw [Nat.zero_add]
    split
    · exact List.Perm.refl _
    · rw [List.length_reverse]
      exact ((List.reverse_perm acc).symm.flatMap_right h).append_left _
  | n + 1, acc => by
    rw [Codec.readKeyed]
    refine seq hx fun e => ite (fun _ => throw_bind _ _) fun hnew =>
      (readKeyed hd keyed key name hx n _).perm_pre ?_
    have hperm := keyed_insert_perm keyed key hnew
    rw [hperm.length_eq, List.length_cons, show n + (acc.length + 1) = n + 1 + acc.length by omega,
      List.append_assoc]
    refine ((hperm.flatMap_right h).append_left _).trans ?_
    rw [List.flatMap_cons]
    exact List.perm_append_comm.append_left _

/-- A union variant: its frame is read alike under every cap, and its payload counts. -/
theorem readVariant {g : Value → List (String × Nat)} (name : String) {payload : Nat → ReadM Value}
    (h : ∀ tag, Cuts g [] (payload tag)) : Cuts g [] (Codec.readVariant name payload) := by
  rw [Codec.readVariant]
  refine blind_bind CapBlind.readVarint safe_closed.toClosed.readVarint fun raw => ?_
  refine ite (fun _ => throw_bind _ _) fun _ => ?_
  refine blind_bind (CapBlind.readLE 4) (safe_closed.toClosed.readLE 4) fun declared =>
    get_bind (fun r => ?_) fun _ _ => rfl
  -- the declared length and the length consumed are positions, which the cap leaves alone
  refine ite (fun _ => throw_bind _ _) fun _ => ?_
  refine bind g (h raw) (fun _ _ _ _ _ => trivial)
    (fun v _ => get_bind (fun r' => ?_) fun _ _ => rfl) fun v => by
      rw [List.append_nil, List.nil_append]
  exact ite (fun _ => throw_bind _ _) fun _ => pure (List.Perm.refl _)

end Cuts


/-! ### The collections of a value -/

mutual

/-- The collections of the value `v` of schema `s` that the decoder counts, at any depth, in
the order of `v`: each sequence, map and set, with the name of its type and its number of
elements. Strings, byte buffers, arrays and skipped fields count nothing. -/
def collectionCounts (cat : Catalog) : Schema → Value → List (String × Nat)
  | .list _ e, .bytes b => [((Schema.list .vec e).typeName cat, b.size)]
  | .list _ e, .seq xs => ((Schema.list .vec e).typeName cat, xs.length) :: countsEach cat e xs
  | .array _ e, .seq xs => countsEach cat e xs
  | .set keyed e, .seq xs => ((Schema.set keyed e).typeName cat, xs.length) :: countsEach cat e xs
  | .option e, .some v => collectionCounts cat e v
  | .pointer _ e, v => collectionCounts cat e v
  | .map keyed ks vs, .map es =>
    ((Schema.map keyed ks vs).typeName cat, es.length) :: countsEntries cat ks vs es
  | .tuple ss, .seq xs => countsAlong cat ss xs
  | .named n args, .record xs =>
    match cat.find? n with
    | some d =>
      match d.body.subst args with
      | .record fs => countsFields cat fs.fields xs
      | _ => []
    | none => []
  | .named n args, .variant i xs =>
    match cat.find? n with
    | some d =>
      match d.body.subst args with
      | .union vs => countsFields cat (vs.getD i default).fields.fields xs
      | _ => []
    | none => []
  | _, _ => []
termination_by s v => (sizeOf v, sizeOf s)

/-- Elements of one schema. -/
def countsEach (cat : Catalog) (e : Schema) : List Value → List (String × Nat)
  | [] => []
  | x :: xs => collectionCounts cat e x ++ countsEach cat e xs
termination_by xs => (sizeOf xs, 0)

/-- Entries of a map, keys and values each of their schema. -/
def countsEntries (cat : Catalog) (ks vs : Schema) : List (Value × Value) → List (String × Nat)
  | [] => []
  | (a, b) :: es => collectionCounts cat ks a ++ collectionCounts cat vs b ++ countsEntries cat ks vs es
termination_by es => (sizeOf es, 0)

/-- Values along a list of schemas. -/
def countsAlong (cat : Catalog) : List Schema → List Value → List (String × Nat)
  | s :: ss, x :: xs => collectionCounts cat s x ++ countsAlong cat ss xs
  | _, _ => []
termination_by _ xs => (sizeOf xs, 0)

/-- Values of fields in order; a skipped field counts nothing. -/
def countsFields (cat : Catalog) : List Field → List Value → List (String × Nat)
  | f :: fs, x :: xs => (if f.skip then [] else collectionCounts cat f.schema x) ++ countsFields cat fs xs
  | _, _ => []
termination_by _ xs => (sizeOf xs, 0)

end

theorem countsEach_eq_flatMap (cat : Catalog) (e : Schema) (xs : List Value) :
    countsEach cat e xs = xs.flatMap (collectionCounts cat e) := by
  induction xs with
  | nil => rw [countsEach, List.flatMap_nil]
  | cons x xs ih => rw [countsEach, ih, List.flatMap_cons]

theorem countsEntries_eq_flatMap (cat : Catalog) (ks vs : Schema) (es : List (Value × Value)) :
    countsEntries cat ks vs es =
      es.flatMap fun p => collectionCounts cat ks p.1 ++ collectionCounts cat vs p.2 := by
  induction es with
  | nil => rw [countsEntries, List.flatMap_nil]
  | cons p es ih =>
    obtain ⟨a, b⟩ := p
    rw [countsEntries, ih, List.flatMap_cons, List.append_assoc]


namespace Cuts

/-- Reads along a list, each counting the collections of the value it reads. -/
theorem mapM_along (cat : Catalog) {γ : Type} {l : List γ} (sch : γ → Schema) {F : γ → ReadM Value}
    (h : ∀ c ∈ l, Cuts (collectionCounts cat (sch c)) [] (F c)) :
    Cuts (countsAlong cat (l.map sch)) [] (l.mapM F) := by
  induction l with
  | nil =>
    rw [List.mapM_nil]
    exact pure (by simp [countsAlong])
  | cons c l ih =>
    rw [List.mapM_cons]
    refine seq (h c List.mem_cons_self) fun b =>
      seq (ih fun c' hc' => h c' (List.mem_cons_of_mem c hc')) fun bs => pure ?_
    rw [List.map_cons, countsAlong, List.nil_append]

/-- The fields of a record or a variant: skipped ones take their defaults and count nothing,
and the others are decoded. -/
theorem fields {cat : Catalog} {fuel : Nat}
    (hdec : ∀ f : Field, Cuts (collectionCounts cat f.schema) [] (decode cat fuel f.schema))
    (fs : List Field) :
    Cuts (countsFields cat fs) []
      (fs.mapM fun f => if f.skip then Pure.pure (f.schema.default cat) else decode cat fuel f.schema) := by
  induction fs with
  | nil =>
    rw [List.mapM_nil]
    exact pure (by simp [countsFields])
  | cons f fs ih =>
    rw [List.mapM_cons]
    have hhead : Cuts (fun v => if f.skip then [] else collectionCounts cat f.schema v) []
        (if f.skip then Pure.pure (f.schema.default cat) else decode cat fuel f.schema) := by
      by_cases hskip : f.skip = true
      · simp only [hskip, if_true]
        exact pure (List.Perm.refl _)
      · simp only [hskip, Bool.false_eq_true, if_false]
        exact hdec f
    refine seq hhead fun b => seq ih fun bs => pure ?_
    rw [countsFields, List.nil_append]

end Cuts

/-- The decoder under a cap is the decoder without, cut off at the first count above the
cap; when it succeeds, the counts it read are those of the collections of its value. -/
theorem decode_cuts (cat : Catalog) (fuel : Nat) (s : Schema) :
    Cuts (collectionCounts cat s) [] (decode cat fuel s) := by
  fun_induction decode cat fuel s with
  | case1 =>
    exact Cuts.blind_map (CapBlind.readLE _) (safe_closed.toClosed.readLE _) _ fun _ => by
      unfold collectionCounts; rfl
  | case2 =>
    exact Cuts.blind_map (CapBlind.readLE 4) (safe_closed.toClosed.readLE 4) _ fun _ => by
      unfold collectionCounts; rfl
  | case3 =>
    exact Cuts.blind_map (CapBlind.readLE 8) (safe_closed.toClosed.readLE 8) _ fun _ => by
      unfold collectionCounts; rfl
  | case4 =>
    exact Cuts.blind_map CapBlind.readBool safe_closed.toClosed.readBool _ fun _ => by
      unfold collectionCounts; rfl
  | case5 =>
    refine Cuts.blind_bind (CapBlind.readLE 4) (safe_closed.toClosed.readLE 4) fun c => ?_
    exact Cuts.ite (fun _ => Cuts.pure (by unfold collectionCounts; rfl)) fun _ => Cuts.throw _
  | case6 => exact Cuts.pure (by unfold collectionCounts; rfl)
  | case7 =>
    exact Cuts.blind_map CapBlind.readString safe_closed.toClosed.readString _ fun _ => by
      unfold collectionCounts; rfl
  | case8 =>
    refine Cuts.blind_bind (CapBlind.readLE 8) (safe_closed.toClosed.readLE 8) fun raw => ?_
    rcases Timestamp.ofBinary? raw.toUInt64 with _ | t
    · exact Cuts.throw _
    · -- the kind forced is read from the reader, and the cap does not change it
      refine Cuts.get_bind (fun r => ?_) fun _ _ => rfl
      split <;> exact Cuts.pure (by unfold collectionCounts; rfl)
  | case9 =>
    exact Cuts.blind_map (CapBlind.readBytes 16) (safe_closed.toClosed.readBytes 16) _ fun _ => by
      unfold collectionCounts; rfl
  | case10 =>
    refine Cuts.blind_bind (CapBlind.readLE 8) (safe_closed.toClosed.readLE 8) fun secs =>
      Cuts.blind_bind (CapBlind.readLE 4) (safe_closed.toClosed.readLE 4) fun nanos => ?_
    exact Cuts.ite (fun _ => Cuts.throw_bind _ _) fun _ => Cuts.pure (by unfold collectionCounts; rfl)
  | case11 =>
    exact Cuts.blind_map CapBlind.readByteRun safe_readByteRun _ fun _ => by
      unfold collectionCounts; rfl
  | case12 _ _ e ih =>
    -- the count is the collection's own; its elements count after it
    refine Cuts.seq (Cuts.readCount _) fun count => ?_
    refine Cuts.ite (fun _ => Cuts.readSlice_bind fun p hp => Cuts.pure ?_) fun _ => ?_
    · rw [collectionCounts, hp]
      exact List.Perm.refl _
    · refine Cuts.map Value.seq (Cuts.readMany (fun n => [((Schema.list .vec e).typeName cat, n)]) ih count [])
        (fun xs => ?_) (List.Perm.refl _)
      rw [collectionCounts, countsEach_eq_flatMap]
      exact List.Perm.refl _
  | case13 => exact Cuts.readSlice_bind fun _ _ => Cuts.pure (by unfold collectionCounts; rfl)
  | case14 _ _ e _ ih =>
    refine Cuts.map Value.seq (Cuts.readMany (fun _ => []) ih _ []) (fun xs => ?_) (List.Perm.refl _)
    rw [collectionCounts, countsEach_eq_flatMap]
    exact List.Perm.refl _
  | case15 _ e ih =>
    refine Cuts.blind_bind CapBlind.readU8 safe_closed.toClosed.readU8 fun b => ?_
    split
    · exact Cuts.pure (by unfold collectionCounts; rfl)
    · exact Cuts.map Value.some ih (fun v => by rw [collectionCounts]) (List.Perm.refl _)
    · exact Cuts.throw _
  | case16 _ _ _ ih => exact ih.congr fun v => by rw [collectionCounts]
  | case17 _ keyed ks vs name ihk ihv =>
    refine Cuts.seq (Cuts.readCount _) fun count => ?_
    -- an entry counts what its key counts, then what its value counts
    have hentry : Cuts (fun p : Value × Value => collectionCounts cat ks p.1 ++ collectionCounts cat vs p.2) []
        (do
          let k ← decode cat _ ks
          let v ← decode cat _ vs
          Pure.pure (k, v)) :=
      Cuts.seq ihk fun a => Cuts.seq ihv fun b => Cuts.pure (by rw [List.nil_append])
    refine Cuts.map Value.map (Cuts.readKeyed (fun n => [(name, n)]) keyed Prod.fst _ hentry count [])
      (fun es => ?_) (List.Perm.refl _)
    rw [collectionCounts, countsEntries_eq_flatMap]
    exact List.Perm.refl _
  | case18 _ keyed e name ih =>
    refine Cuts.seq (Cuts.readCount _) fun count => ?_
    refine Cuts.map Value.seq (Cuts.readKeyed (fun n => [(name, n)]) keyed id _ ih count [])
      (fun xs => ?_) (List.Perm.refl _)
    rw [collectionCounts, countsEach_eq_flatMap]
    exact List.Perm.refl _
  | case19 _ ss ih =>
    refine Cuts.map Value.seq (Cuts.mapM_along cat Subtype.val fun y _ => ?_) (fun xs => ?_)
      (List.Perm.refl _)
    · obtain ⟨s, hs⟩ := y
      exact ih s hs
    · rw [List.attach_map_subtype_val, collectionCounts]
  | case20 => exact Cuts.throw _
  | case21 => exact Cuts.pure (by unfold collectionCounts; rfl)
  | case22 _ n args d hfind fs hbody ih =>
    refine Cuts.map Value.record (Cuts.fields ih _) (fun xs => ?_) (List.Perm.refl _)
    rw [collectionCounts, hfind]
    simp only [hbody]
    exact List.Perm.refl _
  | case23 =>
    refine Cuts.blind_bind CapBlind.readVarint safe_closed.toClosed.readVarint fun i => ?_
    exact Cuts.ite (fun _ => Cuts.pure (by unfold collectionCounts; rfl)) fun _ => Cuts.throw _
  | case24 _ n args d hfind vs hbody ih =>
    refine Cuts.readVariant _ fun tag => ?_
    split
    · case h_1 i _ =>
      refine Cuts.map (Value.variant i) (Cuts.fields ih _) (fun xs => ?_) (List.Perm.refl _)
      rw [collectionCounts, hfind]
      simp only [hbody]
      exact List.Perm.refl _
    · exact Cuts.throw _
  | case25 => exact Cuts.pure (by unfold collectionCounts; rfl)
  | case26 => exact Cuts.pure (by unfold collectionCounts; rfl)


theorem decodeValue_cuts (cat : Catalog) (s : Schema) :
    Cuts (collectionCounts cat s) [] (decodeValue cat s) :=
  Cuts.get_bind (fun _ => decode_cuts cat _ s) fun _ _ => rfl

theorem firstOver_mono {m m' : Nat} {counts : List (String × Nat)} (hle : m ≤ m')
    (h : firstOver m counts = none) : firstOver m' counts = none :=
  firstOver_eq_none.mpr fun p hp => Nat.le_trans (firstOver_eq_none.mp h p hp) hle

/-- Deserializing from any carrier under a cap: there are counts, those of the collections
of the value when deserializing with no cap succeeds, such that under every cap `m` the
error is that of the first of them above `m`, if one is, and otherwise the result is what
it is with no cap. A raw type counts nothing. -/
theorem deserialize_cuts (cat : Catalog) (s : Schema) (c : Carrier) (tk : Option TimeKind) :
    ∃ counts : List (String × Nat),
      (∀ v, deserialize cat s c (some ⟨tk, none⟩) = .ok v →
        counts.Perm (if s.isRaw then [] else collectionCounts cat s v)) ∧
      ∀ m, (∀ p, firstOver m counts = some p →
          deserialize cat s c (some ⟨tk, some m⟩) = .error (capError m p)) ∧
        (firstOver m counts = none →
          deserialize cat s c (some ⟨tk, some m⟩) = deserialize cat s c (some ⟨tk, none⟩)) := by
  by_cases hraw : s.isRaw
  · -- a raw type takes the bytes as they are, whatever the options
    refine ⟨[], fun v _ => by rw [if_pos hraw], fun m => ⟨fun p hp => ?_, fun _ => ?_⟩⟩
    · simp [firstOver] at hp
    · rw [deserialize, deserialize, if_pos hraw, if_pos hraw]
  · cases hcl : classify cat s with
    | error e =>
      refine ⟨[], fun v hv => ?_, fun m => ⟨fun p hp => ?_, fun _ => ?_⟩⟩
      · rw [deserialize, if_neg hraw, hcl] at hv
        cases hv
      · simp [firstOver] at hp
      · rw [deserialize, deserialize, if_neg hraw, if_neg hraw, hcl]
    | ok _ =>
      have hrun : ∀ o, deserialize cat s c o = ((decodeValue cat s).run' (c.reader.mergeOptions o)).1 := by
        intro o
        rw [deserialize, if_neg hraw, hcl]
      have hnone : (c.reader.mergeOptions (some ⟨tk, none⟩)).options.maxCollectionLen = none := by
        show Option.or none c.reader.options.maxCollectionLen = none
        rw [Carrier.reader_cap]
        rfl
      obtain ⟨-, counts, hperm, hcut⟩ := decodeValue_cuts cat s _
        ((Carrier.reader_sound c).mergeOptions _) hnone
      refine ⟨counts, fun v hv => ?_, fun m => ⟨fun p hp => ?_, fun hp => ?_⟩⟩
      · rw [if_neg hraw, ← List.nil_append counts]
        exact hperm v ((hrun _).symm.trans hv)
      · rw [hrun, Reader.mergeOptions_withCap]
        exact (hcut m).1 p hp
      · rw [hrun, hrun, Reader.mergeOptions_withCap, (hcut m).2 hp]

/-- The cap on collections only adds failures. Deserializing from any carrier, under any
forced kind, reads counts of collections: under a cap `m` it fails with the error of the first
of them above `m`, naming that collection's type, its count and the cap, and with no such
count it gives exactly what it gives with no cap, failures included. When deserializing with
no cap succeeds, the counts read are, up to order, those of the collections of the value, at
any depth: sequences, maps and sets, never strings, byte buffers or arrays, and nothing for a
raw type. So a value accepted with no cap is accepted under `m`, as the same value, exactly
when all its collections fit under `m`; and a value accepted under a cap is accepted, the
same, under every higher cap and with none. -/
theorem collectionCap_only_adds_failures (cat : Catalog) (s : Schema) (c : Carrier)
    (tk : Option TimeKind) :
    (∃ counts : List (String × Nat),
      (∀ v, deserialize cat s c (some ⟨tk, none⟩) = .ok v →
        counts.Perm (if s.isRaw then [] else collectionCounts cat s v)) ∧
      ∀ m, (∀ p, firstOver m counts = some p →
          deserialize cat s c (some ⟨tk, some m⟩) = .error (.invalidValue p.1 (.tooManyElements p.2 m))) ∧
        (firstOver m counts = none →
          deserialize cat s c (some ⟨tk, some m⟩) = deserialize cat s c (some ⟨tk, none⟩))) ∧
      (∀ m v, deserialize cat s c (some ⟨tk, none⟩) = .ok v →
        (deserialize cat s c (some ⟨tk, some m⟩) = .ok v ↔
          ∀ p ∈ (if s.isRaw then [] else collectionCounts cat s v), p.2 ≤ m)) ∧
      ∀ m m' v, m ≤ m' → deserialize cat s c (some ⟨tk, some m⟩) = .ok v →
        deserialize cat s c (some ⟨tk, some m'⟩) = .ok v ∧
          deserialize cat s c (some ⟨tk, none⟩) = .ok v := by
  obtain ⟨counts, hperm, hcut⟩ := deserialize_cuts cat s c tk
  -- a decode under a cap that succeeds was cut nowhere
  have hfits : ∀ m v, deserialize cat s c (some ⟨tk, some m⟩) = .ok v → firstOver m counts = none := by
    intro m v hv
    cases hf : firstOver m counts with
    | none => rfl
    | some p =>
      rw [(hcut m).1 p hf] at hv
      cases hv
  refine ⟨⟨counts, hperm, fun m => ⟨(hcut m).1, (hcut m).2⟩⟩, fun m v hv => ⟨fun hcap => ?_, fun hle => ?_⟩,
    fun m m' v hle hv => ?_⟩
  · intro p hp
    exact firstOver_eq_none.mp (hfits m v hcap) p ((hperm v hv).mem_iff.mpr hp)
  · rw [(hcut m).2 (firstOver_eq_none.mpr fun p hp => hle p ((hperm v hv).mem_iff.mp hp)), hv]
  · have hnone := hfits m v hv
    have huncapped : deserialize cat s c (some ⟨tk, none⟩) = .ok v := ((hcut m).2 hnone).symm.trans hv
    refine ⟨?_, huncapped⟩
    rw [(hcut m').2 (firstOver_mono hle hnone), huncapped]

end Codec

end WireCodec
