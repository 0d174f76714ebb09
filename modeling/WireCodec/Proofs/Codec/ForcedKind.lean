import WireCodec.Proofs.Codec.Safety
import WireCodec.Proofs.Codec.Frame
import WireCodec.Proofs.Codec.EncodeForm
import WireCodec.Proofs.Codec.DecodeForm
import WireCodec.Proofs.Codec.Nesting
import WireCodec.Proofs.Schema.Classify

/-!
# Forcing the kind of timestamps

A reader may force every timestamp it reads to one kind. `retime cat k s v` is the value `v`
of schema `s` with every timestamp read from the bytes given the kind `k`, its ticks kept:
at any depth, in fields, elements, keys and values of maps, options and union payloads.
Skipped fields are not read, and keep their defaults.

Forcing the kind is exactly that relabelling: decoding under a forced kind `k` gives what
decoding with no kind forced gives, relabelled by `retime`, or the same error, and stops at
the same place (`decode_retimes`). The reads of bytes never look at the kind
(`blind_closed`), and relabelled keys compare as before (`cmp_retime`), so maps and sets keep
their order and refuse the same repeated keys. Reading a value with options for one call
puts the reader's own options back afterwards, on success and on failure
(`deserializeAt_run'`), and a kind forced for the call leaves the reader as a call forcing
none does.

So every entry point, from any carrier or from a frame, under a forced kind gives what it
gives with none forced, relabelled (`forcedKind_relabels`); a value in wire form reads back
as the value with its skipped fields at their defaults, relabelled. A skipped field that
held something else when written is not given back (`forcedKind_defaults_skipped_field`).
-/

namespace WireCodec

open Wire

namespace Codec

mutual

/-- The value `v` of schema `s` with every timestamp read from the bytes given the kind
`k`. -/
def retime (cat : Catalog) (k : TimeKind) : Schema → Value → Value
  | .timestamp, .timestamp t => .timestamp (t.withKind k)
  | .list _ e, .seq xs => .seq (retimeEach cat k e xs)
  | .array _ e, .seq xs => .seq (retimeEach cat k e xs)
  | .set _ e, .seq xs => .seq (retimeEach cat k e xs)
  | .option e, .some v => .some (retime cat k e v)
  | .pointer _ e, v => retime cat k e v
  | .map _ ks vs, .map es => .map (retimeEntries cat k ks vs es)
  | .tuple ss, .seq xs => .seq (retimeAlong cat k ss xs)
  | .named n args, .record xs =>
    match cat.find? n with
    | some d =>
      match d.body.subst args with
      | .record fs => .record (retimeFields cat k fs.fields xs)
      | _ => .record xs
    | none => .record xs
  | .named n args, .variant i xs =>
    match cat.find? n with
    | some d =>
      match d.body.subst args with
      | .union vs => .variant i (retimeFields cat k (vs.getD i default).fields.fields xs)
      | _ => .variant i xs
    | none => .variant i xs
  | _, v => v
termination_by s v => (sizeOf v, sizeOf s)

/-- Elements of one schema. -/
def retimeEach (cat : Catalog) (k : TimeKind) (e : Schema) : List Value → List Value
  | [] => []
  | x :: xs => retime cat k e x :: retimeEach cat k e xs
termination_by xs => (sizeOf xs, 0)

/-- Entries of a map, keys and values each of their schema. -/
def retimeEntries (cat : Catalog) (k : TimeKind) (ks vs : Schema) :
    List (Value × Value) → List (Value × Value)
  | [] => []
  | (a, b) :: es => (retime cat k ks a, retime cat k vs b) :: retimeEntries cat k ks vs es
termination_by es => (sizeOf es, 0)

/-- Values along a list of schemas; values past the last schema are kept. -/
def retimeAlong (cat : Catalog) (k : TimeKind) : List Schema → List Value → List Value
  | s :: ss, x :: xs => retime cat k s x :: retimeAlong cat k ss xs
  | _, xs => xs
termination_by _ xs => (sizeOf xs, 0)

/-- Values of fields in order: a skipped field is kept, and so are values past the last
field. -/
def retimeFields (cat : Catalog) (k : TimeKind) : List Field → List Value → List Value
  | f :: fs, x :: xs => (if f.skip then x else retime cat k f.schema x) :: retimeFields cat k fs xs
  | _, xs => xs
termination_by _ xs => (sizeOf xs, 0)

end

theorem retimeEach_eq_map (cat : Catalog) (k : TimeKind) (e : Schema) (xs : List Value) :
    retimeEach cat k e xs = xs.map (retime cat k e) := by
  induction xs with
  | nil => rw [retimeEach, List.map_nil]
  | cons x xs ih => rw [retimeEach, ih, List.map_cons]

theorem retimeEntries_eq_map (cat : Catalog) (k : TimeKind) (ks vs : Schema)
    (es : List (Value × Value)) :
    retimeEntries cat k ks vs es = es.map fun p => (retime cat k ks p.1, retime cat k vs p.2) := by
  induction es with
  | nil => rw [retimeEntries, List.map_nil]
  | cons p es ih =>
    obtain ⟨a, b⟩ := p
    rw [retimeEntries, ih, List.map_cons]

end Codec

/-! ### What the order of keys sees -/

namespace Value

/-- A value with no parts and no timestamp. -/
def isAtom : Value → Bool
  | timestamp _ | some _ | seq _ | map _ | record _ | variant .. => false
  | _ => true

mutual

/-- The value with the kind of every timestamp in it forgotten: what the order of keys
sees of it. -/
def eraseKinds : Value → Value
  | .timestamp t => .timestamp (t.withKind .unspecified)
  | .some v => .some (eraseKinds v)
  | .seq xs => .seq (eraseKindsList xs)
  | .map es => .map (eraseKindsEntries es)
  | .record xs => .record (eraseKindsList xs)
  | .variant i xs => .variant i (eraseKindsList xs)
  | v => v

def eraseKindsList : List Value → List Value
  | [] => []
  | x :: xs => eraseKinds x :: eraseKindsList xs

def eraseKindsEntries : List (Value × Value) → List (Value × Value)
  | [] => []
  | (a, b) :: es => (eraseKinds a, eraseKinds b) :: eraseKindsEntries es

end

mutual

-- one theorem per type of the key order's recursion, as for `cmp_swap`

/-- Keys compare by what they hold, never by the kinds of their timestamps. -/
theorem cmp_eraseKinds (a b : Value) : cmp a.eraseKinds b.eraseKinds = cmp a b := by
  cases a <;> cases b
  case timestamp.timestamp s t => rfl
  case some.some a b => exact cmp_eraseKinds a b
  case seq.seq xs ys => exact cmpList_eraseKinds xs ys
  case map.map xs ys => exact cmpEntries_eraseKinds xs ys
  case record.record xs ys => exact cmpList_eraseKinds xs ys
  case variant.variant i xs j ys =>
    show (compare i j).then (cmpList (eraseKindsList xs) (eraseKindsList ys)) =
      (compare i j).then (cmpList xs ys)
    rw [cmpList_eraseKinds]
  all_goals rfl

theorem cmpList_eraseKinds (xs ys : List Value) :
    cmpList (eraseKindsList xs) (eraseKindsList ys) = cmpList xs ys := by
  cases xs with
  | nil => cases ys <;> rfl
  | cons a as =>
    cases ys with
    | nil => rfl
    | cons b bs =>
      show (cmp a.eraseKinds b.eraseKinds).then (cmpList (eraseKindsList as) (eraseKindsList bs)) =
        (cmp a b).then (cmpList as bs)
      rw [cmp_eraseKinds, cmpList_eraseKinds]

theorem cmpEntries_eraseKinds (xs ys : List (Value × Value)) :
    cmpEntries (eraseKindsEntries xs) (eraseKindsEntries ys) = cmpEntries xs ys := by
  cases xs with
  | nil => cases ys <;> rfl
  | cons p ps =>
    cases ys with
    | nil => rfl
    | cons q qs =>
      obtain ⟨a, b⟩ := p
      obtain ⟨c, d⟩ := q
      show ((cmp a.eraseKinds c.eraseKinds).then (cmp b.eraseKinds d.eraseKinds)).then
          (cmpEntries (eraseKindsEntries ps) (eraseKindsEntries qs)) =
        ((cmp a c).then (cmp b d)).then (cmpEntries ps qs)
      rw [cmp_eraseKinds, cmp_eraseKinds, cmpEntries_eraseKinds]

end

end Value

namespace Codec

open Value

variable {cat : Catalog} {k : TimeKind}

mutual

-- one theorem per function of the relabelling, following its recursion

/-- Relabelling changes kinds of timestamps and nothing else. -/
theorem eraseKinds_retime (s : Schema) (v : Value) : (retime cat k s v).eraseKinds = v.eraseKinds := by
  unfold retime
  split
  · case h_1 t => rfl
  · case h_2 e xs => exact congrArg Value.seq (eraseKindsList_retimeEach e xs)
  · case h_3 e xs => exact congrArg Value.seq (eraseKindsList_retimeEach e xs)
  · case h_4 e xs => exact congrArg Value.seq (eraseKindsList_retimeEach e xs)
  · case h_5 e v => exact congrArg Value.some (eraseKinds_retime e v)
  · case h_6 _ e => exact eraseKinds_retime e v
  · case h_7 ks vs es => exact congrArg Value.map (eraseKindsEntries_retimeEntries ks vs es)
  · case h_8 ss xs => exact congrArg Value.seq (eraseKindsList_retimeAlong ss xs)
  · case h_9 n args xs =>
    split
    · split
      · case h_1 fs _ => exact congrArg Value.record (eraseKindsList_retimeFields fs.fields xs)
      · rfl
    · rfl
  · case h_10 n args i xs =>
    split
    · split
      · case h_1 vs _ =>
        exact congrArg (Value.variant i)
          (eraseKindsList_retimeFields (vs.getD i default).fields.fields xs)
      · rfl
    · rfl
  · rfl
termination_by (sizeOf v, sizeOf s)

theorem eraseKindsList_retimeEach (e : Schema) (xs : List Value) :
    eraseKindsList (retimeEach cat k e xs) = eraseKindsList xs := by
  cases xs with
  | nil => rw [retimeEach]
  | cons x xs =>
    rw [retimeEach, eraseKindsList, eraseKindsList, eraseKinds_retime, eraseKindsList_retimeEach]
termination_by (sizeOf xs, 0)

theorem eraseKindsEntries_retimeEntries (ks vs : Schema) (es : List (Value × Value)) :
    eraseKindsEntries (retimeEntries cat k ks vs es) = eraseKindsEntries es := by
  cases es with
  | nil => rw [retimeEntries]
  | cons p es =>
    obtain ⟨a, b⟩ := p
    rw [retimeEntries, eraseKindsEntries, eraseKindsEntries, eraseKinds_retime, eraseKinds_retime,
      eraseKindsEntries_retimeEntries]
termination_by (sizeOf es, 0)

theorem eraseKindsList_retimeAlong (ss : List Schema) (xs : List Value) :
    eraseKindsList (retimeAlong cat k ss xs) = eraseKindsList xs := by
  unfold retimeAlong
  split
  · case h_1 s ss x xs =>
    rw [eraseKindsList, eraseKindsList, eraseKinds_retime, eraseKindsList_retimeAlong]
  · rfl
termination_by (sizeOf xs, 0)

theorem eraseKindsList_retimeFields (fs : List Field) (xs : List Value) :
    eraseKindsList (retimeFields cat k fs xs) = eraseKindsList xs := by
  unfold retimeFields
  split
  · case h_1 f fs x xs =>
    rw [eraseKindsList, eraseKindsList, eraseKindsList_retimeFields]
    split
    · rfl
    · rw [eraseKinds_retime]
  · rfl
termination_by (sizeOf xs, 0)

end

/-- Relabelled keys compare as they did. -/
theorem cmp_retime (s : Schema) (a b : Value) :
    (retime cat k s a).cmp (retime cat k s b) = a.cmp b := by
  rw [← cmp_eraseKinds, eraseKinds_retime, eraseKinds_retime, cmp_eraseKinds]

/-- A value with no parts and no timestamp is left as it is, whatever its schema. -/
theorem retime_atom {v : Value} (hv : v.isAtom = true) (s : Schema) : retime cat k s v = v := by
  unfold retime
  split
  case h_6 _ e => exact retime_atom hv e
  case h_11 => rfl
  -- every other case holds a part, which an atom has not
  all_goals simp [Value.isAtom] at hv
termination_by sizeOf s

end Codec

/-! ### Keys under a map that keeps their order -/

section KeyMap

variable {β : Type} {key : β → Value} {g : β → β}

theorem insertSorted_map (hg : ∀ a b, (key (g a)).cmp (key (g b)) = (key a).cmp (key b)) (x : β) :
    ∀ ys : List β, insertSorted key (g x) (ys.map g) = (insertSorted key x ys).map g
  | [] => rfl
  | y :: ys => by
    rw [List.map_cons, insertSorted, insertSorted, hg]
    cases Value.cmp (key x) (key y) with
    | lt => rfl
    | eq => rfl
    | gt => rw [insertSorted_map hg x ys, List.map_cons]

theorem hasKey_map (hg : ∀ a b, (key (g a)).cmp (key (g b)) = (key a).cmp (key b)) (x : β)
    (ys : List β) : hasKey key (key (g x)) (ys.map g) = hasKey key (key x) ys := by
  simp only [hasKey, List.any_map, Function.comp_def, Value.same, hg]

end KeyMap

/-! ### Reads that do not see the forced kind -/

namespace Wire.Reader

/-- The reader forcing the kind `k`, or forcing none. -/
def withKind (r : Reader) (k : Option TimeKind) : Reader :=
  { r with options := { r.options with timeKind := k } }

@[simp] theorem view_withKind (r : Reader) (k : Option TimeKind) : (r.withKind k).view = r.view :=
  rfl

@[simp] theorem remaining_withKind (r : Reader) (k : Option TimeKind) :
    (r.withKind k).remaining = r.remaining :=
  rfl

@[simp] theorem position_withKind (r : Reader) (k : Option TimeKind) :
    (r.withKind k).position = r.position :=
  rfl

@[simp] theorem timeKind_withKind (r : Reader) (k : Option TimeKind) :
    (r.withKind k).options.timeKind = k :=
  rfl

theorem withKind_self (r : Reader) : r.withKind r.options.timeKind = r :=
  rfl

/-- The byte reads keep the options. -/
theorem options_readBytes (r : Reader) (n : Nat) : ((readBytes n).run' r).2.options = r.options := by
  have h : (readBytes n).run' r =
      (((readBytes n).run' r).1, { ((readBytes n).run' r).2 with options := r.options }) :=
    readBytes_options r r.options n
  rw [h]

theorem readBytes_withKind (r : Reader) (k : Option TimeKind) (n : Nat) :
    (readBytes n).run' (r.withKind k) = (((readBytes n).run' r).1, ((readBytes n).run' r).2.withKind k) := by
  rw [withKind, readBytes_options, withKind, options_readBytes]

theorem options_readSlice (r : Reader) (n : Nat) : ((readSlice n).run' r).2.options = r.options := by
  have h : (readSlice n).run' r =
      (((readSlice n).run' r).1, { ((readSlice n).run' r).2 with options := r.options }) :=
    readSlice_options r r.options n
  rw [h]

theorem readSlice_withKind (r : Reader) (k : Option TimeKind) (n : Nat) :
    (readSlice n).run' (r.withKind k) = (((readSlice n).run' r).1, ((readSlice n).run' r).2.withKind k) := by
  rw [withKind, readSlice_options, withKind, options_readSlice]

/-- `r₁` is `r₂` forcing the kind `k`, and `r₂` forces none. -/
def Forcing (k : TimeKind) (r₁ r₂ : Reader) : Prop :=
  r₂.options.timeKind = none ∧ r₁ = r₂.withKind (some k)

/-- Options that force the kind `k` and options that force none, merged into a reader that
forces none. -/
theorem forcing_mergeOptions {r : Reader} (hr : r.options.timeKind = none) (k : TimeKind)
    (cap : Option Nat) :
    Forcing k (r.mergeOptions (some ⟨some k, cap⟩)) (r.mergeOptions (some ⟨none, cap⟩)) :=
  ⟨hr, rfl⟩

end Wire.Reader

namespace Codec

/-- A read that does the same under every forced kind, and leaves that kind as it found it. -/
def Blind {α : Type} (x : ReadM α) : Prop :=
  ∀ r k, x.run' (r.withKind k) = ((x.run' r).1, (x.run' r).2.withKind k)

/-- Reads built from the byte reads never look at the forced kind. -/
theorem blind_closed : Closed Blind where
  pure a r k := rfl
  throw e r k := rfl
  bind := by
    intro α β x f hx hf r k
    rw [ReadM.run'_bind, ReadM.run'_bind, hx r k]
    rcases x.run' r with ⟨_ | a, s⟩
    · rfl
    · exact hf a s k
  get_bind := by
    intro α f hf hsame r k
    rw [ReadM.run'_bind, ReadM.run'_bind, ReadM.run'_get, ReadM.run'_get]
    dsimp only
    rw [hsame (r.withKind k) r (Reader.view_withKind r k)]
    exact hf r r k
  readBytes n r k := Reader.readBytes_withKind r k n
  readSlice_bind := by
    intro α n f hf _ r k
    rw [ReadM.run'_bind, ReadM.run'_bind, Reader.readSlice_withKind]
    rcases (Reader.readSlice n).run' r with ⟨_ | p, s⟩
    · rfl
    · exact hf p s k

theorem blind_readSlice (n : Nat) : Blind (Reader.readSlice n) :=
  fun r k => Reader.readSlice_withKind r k n

/-! ### Reading under a forced kind -/

/-- Under the forced kind `k`, `x` does what `y` does with no kind forced, its result
mapped by `g`: the same error at the same place, or `g` of the same value. -/
def Retimes {α β : Type} (k : TimeKind) (g : β → α) (x : ReadM α) (y : ReadM β) : Prop :=
  ∀ r₁ r₂, Reader.Forcing k r₁ r₂ →
    (x.run' r₁).1 = (y.run' r₂).1.map g ∧ Reader.Forcing k (x.run' r₁).2 (y.run' r₂).2

namespace Retimes

variable {k : TimeKind} {α β γ δ : Type}

theorem pure {g : β → α} {a : α} {b : β} (h : a = g b) :
    Retimes k g (Pure.pure a : ReadM α) (Pure.pure b) := by
  intro r₁ r₂ hr
  exact ⟨by rw [h]; rfl, hr⟩

theorem throw (g : β → α) (e : DecodeError) :
    Retimes k g (MonadExcept.throw e : ReadM α) (MonadExcept.throw e) :=
  fun _ _ hr => ⟨rfl, hr⟩

theorem bind {g : β → α} {g' : δ → γ} {x : ReadM α} {y : ReadM β} {f : α → ReadM γ}
    {f' : β → ReadM δ} (hx : Retimes k g x y) (hf : ∀ b, Retimes k g' (f (g b)) (f' b)) :
    Retimes k g' (x >>= f) (y >>= f') := by
  intro r₁ r₂ hr
  obtain ⟨hres, hrest⟩ := hx r₁ r₂ hr
  rw [ReadM.run'_bind, ReadM.run'_bind]
  rcases h₁ : x.run' r₁ with ⟨_ | a, s₁⟩ <;> rcases h₂ : y.run' r₂ with ⟨_ | b, s₂⟩ <;>
    rw [h₁, h₂] at hres hrest <;> dsimp only at hres hrest ⊢
  · cases hres
    exact ⟨rfl, hrest⟩
  · cases hres
  · cases hres
  · cases hres
    exact hf b s₁ s₂ hrest

/-- A read that does not see the forced kind does the same under it. -/
theorem of_blind {x : ReadM α} (hx : Blind x) : Retimes k id x x := by
  rintro r₁ r₂ ⟨hnone, rfl⟩
  have hkeep : (x.run' r₂).2.options.timeKind = none := by
    have h := hx r₂ none
    rw [← hnone, Reader.withKind_self] at h
    rw [congrArg (·.2) h, Reader.timeKind_withKind, hnone]
  rw [hx r₂ (some k)]
  exact ⟨by rw [Except.map_id]; rfl, hkeep, rfl⟩

/-- A look at the reader sees the forced kind on one side and none on the other. -/
theorem get_bind {g : β → α} {f : Reader → ReadM α} {f' : Reader → ReadM β}
    (h : ∀ r, r.options.timeKind = none → Retimes k g (f (r.withKind (some k))) (f' r)) :
    Retimes k g (get >>= f) (get >>= f') := by
  rintro r₁ r₂ ⟨hnone, rfl⟩
  rw [ReadM.run'_bind, ReadM.run'_bind, ReadM.run'_get, ReadM.run'_get]
  exact h r₂ hnone _ _ ⟨hnone, rfl⟩

/-- A read of the bytes alone, its result mapped by what leaves it unchanged. -/
theorem blind_map {g : α → α} {x : ReadM β} (hx : Blind x) (f : β → α) (hf : ∀ b, g (f b) = f b) :
    Retimes k g (x >>= fun b => Pure.pure (f b)) (x >>= fun b => Pure.pure (f b)) :=
  (of_blind hx).bind fun b => pure (hf b).symm

/-- A key read, then its value. -/
theorem pair {gk gv : Value → Value} {xk yk xv yv : ReadM Value} (hk : Retimes k gk xk yk)
    (hv : Retimes k gv xv yv) :
    Retimes k (fun p : Value × Value => (gk p.1, gv p.2))
      (xk >>= fun a => xv >>= fun b => Pure.pure (a, b))
      (yk >>= fun a => yv >>= fun b => Pure.pure (a, b)) :=
  hk.bind fun _ => hv.bind fun _ => pure rfl

theorem throw_bind (g : β → α) (e : DecodeError) (f : γ → ReadM α) (f' : δ → ReadM β) :
    Retimes k g ((MonadExcept.throw e : ReadM γ) >>= f) ((MonadExcept.throw e : ReadM δ) >>= f') := by
  rw [ReadM.throw_bind, ReadM.throw_bind]
  exact throw g e

/-- A check made alike on both sides. -/
theorem ite {c : Prop} [Decidable c] {g : β → α} {x x' : ReadM α} {y y' : ReadM β}
    (hthen : c → Retimes k g x y) (helse : ¬c → Retimes k g x' y') :
    Retimes k g (if c then x else x') (if c then y else y') := by
  by_cases h : c
  · simp only [if_pos h]
    exact hthen h
  · simp only [if_neg h]
    exact helse h

theorem congr {g g' : β → α} {x : ReadM α} {y : ReadM β} (h : Retimes k g x y) (hg : ∀ b, g b = g' b) :
    Retimes k g' x y := by
  have : g = g' := funext hg
  subst this
  exact h

theorem readMany {g : β → α} {x : ReadM α} {y : ReadM β} (hx : Retimes k g x y) :
    ∀ n acc, Retimes k (List.map g) (Codec.readMany x n (acc.map g)) (Codec.readMany y n acc)
  | 0, acc => by
    rw [Codec.readMany, Codec.readMany]
    exact pure List.map_reverse.symm
  | n + 1, acc => by
    rw [Codec.readMany, Codec.readMany]
    exact hx.bind fun b => readMany hx n (b :: acc)

/-- Keyed entries read under a forced kind are those read without, relabelled, when
relabelling keeps the order of keys: the same repeated key is refused, and sorted entries
go to the same places. -/
theorem readKeyed {g : β → β} {x y : ReadM β} (keyed : Keyed) (key : β → Value) (name : String)
    (hg : ∀ a b, (key (g a)).cmp (key (g b)) = (key a).cmp (key b)) (hx : Retimes k g x y) :
    ∀ n acc, Retimes k (List.map g) (Codec.readKeyed keyed key name x n (acc.map g))
      (Codec.readKeyed keyed key name y n acc)
  | 0, acc => by
    rw [Codec.readKeyed, Codec.readKeyed]
    refine pure ?_
    split
    · rfl
    · exact List.map_reverse.symm
  | n + 1, acc => by
    rw [Codec.readKeyed, Codec.readKeyed]
    refine hx.bind fun e => ?_
    dsimp only
    rw [hasKey_map hg]
    refine ite (fun _ => throw_bind _ _ _ _) fun _ => ?_
    have hacc : (if keyed = .sorted then insertSorted key (g e) (acc.map g) else g e :: acc.map g) =
        (if keyed = .sorted then insertSorted key e acc else e :: acc).map g := by
      split
      · exact insertSorted_map hg e acc
      · rfl
    rw [hacc]
    exact readKeyed keyed key name hg hx n _

/-- Reads along a list, each relabelled by the schema it reads. -/
theorem mapM_along (cat : Catalog) {l : List γ} (sch : γ → Schema) {F : γ → ReadM Value}
    (h : ∀ c ∈ l, Retimes k (retime cat k (sch c)) (F c) (F c)) :
    Retimes k (retimeAlong cat k (l.map sch)) (l.mapM F) (l.mapM F) := by
  induction l with
  | nil =>
    rw [List.mapM_nil]
    exact pure (by unfold retimeAlong; rfl)
  | cons c l ih =>
    rw [List.mapM_cons]
    refine (h c List.mem_cons_self).bind fun b => ?_
    refine (ih fun c' hc' => h c' (List.mem_cons_of_mem c hc')).bind fun bs => pure ?_
    rw [List.map_cons, retimeAlong]

/-- The fields of a record or a variant: skipped ones take their defaults on both sides,
and the others are decoded. -/
theorem fields {cat : Catalog} {fuel : Nat}
    (hdec : ∀ f : Field, Retimes k (retime cat k f.schema) (decode cat fuel f.schema)
      (decode cat fuel f.schema)) (fs : List Field) :
    Retimes k (retimeFields cat k fs)
      (fs.mapM fun f => if f.skip then Pure.pure (f.schema.default cat) else decode cat fuel f.schema)
      (fs.mapM fun f => if f.skip then Pure.pure (f.schema.default cat) else decode cat fuel f.schema) := by
  induction fs with
  | nil =>
    rw [List.mapM_nil]
    exact pure (by unfold retimeFields; rfl)
  | cons f fs ih =>
    rw [List.mapM_cons]
    have hhead : Retimes k (fun v => if f.skip then v else retime cat k f.schema v)
        (if f.skip then Pure.pure (f.schema.default cat) else decode cat fuel f.schema)
        (if f.skip then Pure.pure (f.schema.default cat) else decode cat fuel f.schema) := by
      by_cases hskip : f.skip = true
      · simp only [hskip, if_true]
        exact pure rfl
      · simp only [hskip, Bool.false_eq_true, if_false]
        exact hdec f
    refine hhead.bind fun b => ih.bind fun bs => pure ?_
    rw [retimeFields]

/-- A union variant: the frame is read alike, and the payload as the payloads are. -/
theorem readVariant {g : Value → Value} (name : String) {payload payload' : Nat → ReadM Value}
    (h : ∀ tag, Retimes k g (payload tag) (payload' tag)) :
    Retimes k g (Codec.readVariant name payload) (Codec.readVariant name payload') := by
  rw [Codec.readVariant, Codec.readVariant]
  refine (of_blind blind_closed.readVarint).bind fun raw => ?_
  dsimp only [id]
  -- the tag, the declared length and the length consumed are checked alike on both sides
  refine ite (fun _ => throw_bind _ _ _ _) fun _ => ?_
  refine (of_blind (blind_closed.readLE 4)).bind fun declared => get_bind fun r _ => ?_
  dsimp only [id]
  rw [Reader.remaining_withKind]
  refine ite (fun _ => throw_bind _ _ _ _) fun _ => (h raw).bind fun v => get_bind fun r' _ => ?_
  rw [Reader.position_withKind, Reader.position_withKind]
  exact ite (fun _ => throw_bind _ _ _ _) fun _ => pure rfl

end Retimes

theorem blind_readByteRun : Blind Reader.readByteRun := by
  rw [Reader.readByteRun]
  exact blind_closed.bind blind_closed.readVarint fun n => blind_readSlice n

/-- Decoding under a forced kind is decoding with none forced, relabelled: the same value
with every timestamp read given the kind, or the same error, at the same place. -/
theorem decode_retimes (cat : Catalog) (k : TimeKind) (fuel : Nat) (s : Schema) :
    Retimes k (retime cat k s) (decode cat fuel s) (decode cat fuel s) := by
  fun_induction decode cat fuel s with
  | case1 => exact Retimes.blind_map (blind_closed.readLE _) _ fun _ => retime_atom rfl _
  | case2 => exact Retimes.blind_map (blind_closed.readLE 4) _ fun _ => retime_atom rfl _
  | case3 => exact Retimes.blind_map (blind_closed.readLE 8) _ fun _ => retime_atom rfl _
  | case4 => exact Retimes.blind_map blind_closed.readBool _ fun _ => retime_atom rfl _
  | case5 =>
    refine (Retimes.of_blind (blind_closed.readLE 4)).bind fun c => ?_
    dsimp only [id]
    exact Retimes.ite (fun _ => Retimes.pure (retime_atom rfl _).symm) fun _ => Retimes.throw _ _
  | case6 => exact Retimes.pure (retime_atom rfl _).symm
  | case7 => exact Retimes.blind_map blind_closed.readString _ fun _ => retime_atom rfl _
  | case8 =>
    -- the only read that looks at the forced kind
    refine (Retimes.of_blind (blind_closed.readLE 8)).bind fun raw => ?_
    dsimp only [id]
    rcases Timestamp.ofBinary? raw.toUInt64 with _ | t
    · exact Retimes.throw _ _
    · refine Retimes.get_bind fun r hnone => ?_
      rw [Reader.timeKind_withKind, hnone]
      exact Retimes.pure (by rw [retime])
  | case9 => exact Retimes.blind_map (blind_closed.readBytes 16) _ fun _ => retime_atom rfl _
  | case10 =>
    refine (Retimes.of_blind (blind_closed.readLE 8)).bind fun secs =>
      (Retimes.of_blind (blind_closed.readLE 4)).bind fun nanos => ?_
    dsimp only [id]
    exact Retimes.ite (fun _ => Retimes.throw_bind _ _ _ _) fun _ =>
      Retimes.pure (retime_atom rfl _).symm
  | case11 => exact Retimes.blind_map blind_readByteRun _ fun _ => retime_atom rfl _
  | case12 _ _ _ ih =>
    refine (Retimes.of_blind (blind_closed.readCount _)).bind fun count => ?_
    dsimp only [id]
    refine Retimes.ite (fun _ => Retimes.blind_map (blind_readSlice count) _ fun _ => retime_atom rfl _)
      fun _ => (ih.readMany count []).bind fun xs => Retimes.pure ?_
    rw [retime, retimeEach_eq_map]
  | case13 => exact Retimes.blind_map (blind_readSlice _) _ fun _ => retime_atom rfl _
  | case14 _ _ _ _ ih =>
    refine (ih.readMany _ []).bind fun xs => Retimes.pure ?_
    rw [retime, retimeEach_eq_map]
  | case15 _ _ ih =>
    refine (Retimes.of_blind blind_closed.readU8).bind fun b => ?_
    dsimp only [id]
    split
    · exact Retimes.pure (retime_atom rfl _).symm
    · exact ih.bind fun v => Retimes.pure (by rw [retime])
    · exact Retimes.throw _ _
  | case16 _ _ _ ih => exact ih.congr fun v => by rw [retime]
  | case17 _ _ ks _ _ ihk ihv =>
    refine (Retimes.of_blind (blind_closed.readCount _)).bind fun count => ?_
    dsimp only
    have hkeys : ∀ p q : Value × Value,
        (retime cat k ks p.1).cmp (retime cat k ks q.1) = p.1.cmp q.1 :=
      fun p q => cmp_retime ks p.1 q.1
    refine Retimes.bind (Retimes.readKeyed _ Prod.fst _ hkeys (ihk.pair ihv) count [])
      fun es => Retimes.pure ?_
    rw [retime, retimeEntries_eq_map]
  | case18 _ _ _ _ ih =>
    refine (Retimes.of_blind (blind_closed.readCount _)).bind fun count => ?_
    refine (Retimes.readKeyed _ id _ (fun a b => cmp_retime _ a b) ih count []).bind
      fun items => Retimes.pure ?_
    rw [retime, retimeEach_eq_map]
  | case19 _ ss ih =>
    refine Retimes.bind (Retimes.mapM_along cat Subtype.val fun y _ => ?_) fun xs => Retimes.pure ?_
    · obtain ⟨s, hs⟩ := y
      exact ih s hs
    · rw [List.attach_map_subtype_val, retime]
  | case20 => exact Retimes.throw _ _
  | case21 => exact Retimes.pure (retime_atom rfl _).symm
  | case22 _ n args d hfind fs hbody ih =>
    refine (Retimes.fields ih _).bind fun xs => Retimes.pure ?_
    rw [retime, hfind]
    simp only [hbody]
  | case23 =>
    refine (Retimes.of_blind blind_closed.readVarint).bind fun i => ?_
    dsimp only [id]
    exact Retimes.ite (fun _ => Retimes.pure (retime_atom rfl _).symm) fun _ => Retimes.throw _ _
  | case24 _ n args d hfind vs hbody ih =>
    refine Retimes.readVariant _ fun tag => ?_
    split
    · case h_1 i _ =>
      refine (Retimes.fields ih _).bind fun xs => Retimes.pure ?_
      rw [retime, hfind]
      simp only [hbody]
    · exact Retimes.throw _ _
  | case25 => exact Retimes.pure (retime_atom rfl _).symm
  | case26 => exact Retimes.pure (retime_atom rfl _).symm

theorem decodeValue_retimes (cat : Catalog) (k : TimeKind) (s : Schema) :
    Retimes k (retime cat k s) (decodeValue cat s) (decodeValue cat s) :=
  Retimes.get_bind fun r _ => by
    rw [Reader.remaining_withKind]
    exact decode_retimes cat k _ s

/-! ### Entry points -/

/-- The bytes a raw type takes hold no timestamp. -/
theorem retime_rawValue (s : Schema) (b : ByteArray) : retime cat k s (rawValue s b) = rawValue s b := by
  unfold rawValue
  split
  · rw [retime, retime_atom rfl]
  · exact retime_atom rfl _

theorem Carrier.reader_timeKind (c : Carrier) : c.reader.options.timeKind = none := by
  cases c with
  | sequence ss => rcases ss with _ | ⟨_, _ | ⟨_, _⟩⟩ <;> rfl
  | slice _ => rfl
  | shared _ => rfl
  | segment _ _ _ => rfl

/-- Deserializing from any carrier under a forced kind gives what deserializing with none
forced gives, relabelled, or the same error, whatever the cap. -/
theorem deserialize_forcedKind (cat : Catalog) (s : Schema) (c : Carrier) (k : TimeKind)
    (cap : Option Nat) :
    deserialize cat s c (some ⟨some k, cap⟩) =
      (deserialize cat s c (some ⟨none, cap⟩)).map (retime cat k s) := by
  rw [deserialize, deserialize]
  by_cases hraw : s.isRaw
  · rw [if_pos hraw, if_pos hraw]
    exact congrArg Except.ok (retime_rawValue s _).symm
  · rw [if_neg hraw, if_neg hraw]
    cases classify cat s with
    | error e => rfl
    | ok _ =>
      exact (decodeValue_retimes cat k s _ _
        (Reader.forcing_mergeOptions (Carrier.reader_timeKind c) k cap)).1

/-- Reading a frame takes its plain bytes out without looking at the options, then
deserializes them. -/
theorem deserializeFramed_eq_bind (cat : Catalog) (s : Schema) (frame : ByteArray) (len : Nat) :
    ∃ plain : Except DecodeError ByteArray, ∀ o,
      deserializeFramed cat s frame len o = plain >>= fun b => deserialize cat s (.slice b) o := by
  unfold deserializeFramed
  by_cases hempty : frame.size = 0
  · exact ⟨.error (.unexpectedEof 1 0), fun o => by rw [if_pos hempty]; rfl⟩
  · simp only [if_neg hempty]
    by_cases hflag : frame.get! 0 = flagStored
    · simp only [if_pos hflag]
      by_cases hlen : (frame.extract 1 frame.size).size ≠ len
      · exact ⟨.error (.lengthMismatch "stored frame" len (frame.extract 1 frame.size).size),
          fun o => by rw [if_pos hlen]; rfl⟩
      · exact ⟨.ok (frame.extract 1 frame.size), fun o => by rw [if_neg hlen]; rfl⟩
    · simp only [if_neg hflag]
      by_cases hbig : len > maxExpansion (frame.extract 1 frame.size).size
      · exact ⟨.error (.lengthMismatch "lz4 frame" len (maxExpansion (frame.extract 1 frame.size).size)),
          fun o => by rw [if_pos hbig]; rfl⟩
      · simp only [if_neg hbig]
        cases Lz4.decompressExact (frame.extract 1 frame.size) len with
        | error e => exact ⟨.error (.compression e), fun o => rfl⟩
        | ok plain => exact ⟨.ok plain, fun o => rfl⟩

/-- A frame read under a forced kind gives what it gives with none forced, relabelled. -/
theorem deserializeFramed_forcedKind (cat : Catalog) (s : Schema) (frame : ByteArray) (len : Nat)
    (k : TimeKind) (cap : Option Nat) :
    deserializeFramed cat s frame len (some ⟨some k, cap⟩) =
      (deserializeFramed cat s frame len (some ⟨none, cap⟩)).map (retime cat k s) := by
  obtain ⟨plain, hplain⟩ := deserializeFramed_eq_bind cat s frame len
  rw [hplain, hplain]
  cases plain with
  | error e => rfl
  | ok b => exact deserialize_forcedKind cat s (.slice b) k cap

/-- A value in wire form, read with no kind forced from its bytes and whatever follows them,
decodes after exactly its bytes to the value it reads back as. -/
theorem decode_ofBytes_of_wireForm {cat : Catalog} (hcat : cat.WellFormed) {d : Nat}
    {s : Schema} {x : Written} (h : WireForm cat d s x) {fuel : Nat} (hfuel : d ≤ fuel)
    (rest : List UInt8) :
    (decode cat fuel s).run' (Reader.ofBytes (x.bytes ++ rest).toByteArray) =
      (.ok x.read, (Reader.ofBytes (x.bytes ++ rest).toByteArray).moved x.bytes.length) := by
  have hplain := Reader.plain_ofBytes (x.bytes ++ rest).toByteArray
  rw [List.toList_data_toByteArray] at hplain
  exact (decode_of_wireForm hcat h fuel hfuel).whole _ rest hplain

/-- A value in wire form, read under a forced kind, decodes after exactly its bytes to the
value it reads back as, relabelled. -/
theorem decode_forcedKind_of_wireForm {cat : Catalog} (hcat : cat.WellFormed) {d : Nat}
    {s : Schema} {x : Written} (h : WireForm cat d s x) (k : TimeKind) {fuel : Nat}
    (hfuel : d ≤ fuel) (rest : List UInt8) :
    (decode cat fuel s).run' ((Reader.ofBytes (x.bytes ++ rest).toByteArray).withKind (some k)) =
      (.ok (retime cat k s x.read),
        ((Reader.ofBytes (x.bytes ++ rest).toByteArray).withKind (some k)).moved x.bytes.length) := by
  have hread := decode_ofBytes_of_wireForm hcat h hfuel rest
  obtain ⟨hres, -, hstate⟩ := decode_retimes cat k fuel s _ (Reader.ofBytes (x.bytes ++ rest).toByteArray)
    ⟨rfl, rfl⟩
  rw [hread] at hres hstate
  exact Prod.ext hres hstate

/-- Reading one value with options for the call: decoding runs under the options merged
into the reader's, and the reader it leaves has the reader's own options back, whether the
read succeeded or failed. -/
theorem deserializeAt_run' (cat : Catalog) (s : Schema) (o : Option DecodeOptions) (r : Reader) :
    (deserializeAt cat s o).run' r =
      (((decodeValue cat s).run' (r.mergeOptions o)).1,
        { ((decodeValue cat s).run' (r.mergeOptions o)).2 with options := r.options }) :=
  rfl

/-- A value read with a forced kind for one call is the value read with none forced,
relabelled, and the reader afterwards is the same: the kind does not outlive the call. -/
theorem deserializeAt_forcedKind (cat : Catalog) (s : Schema) (k : TimeKind) (cap : Option Nat)
    {r : Reader} (hr : r.options.timeKind = none) :
    (deserializeAt cat s (some ⟨some k, cap⟩)).run' r =
      (((deserializeAt cat s (some ⟨none, cap⟩)).run' r).1.map (retime cat k s),
        ((deserializeAt cat s (some ⟨none, cap⟩)).run' r).2) := by
  rw [deserializeAt_run', deserializeAt_run']
  obtain ⟨hres, -, hstate⟩ := decodeValue_retimes cat k s _ _ (Reader.forcing_mergeOptions hr k cap)
  rw [hres, hstate]
  rfl

/-- Forcing the kind of timestamps is relabelling the timestamps read. Deserializing from
any carrier, or from a frame, with a kind `k` forced gives what it gives with none forced,
every timestamp read from the bytes given the kind `k` and its ticks kept, or the same
error; a value in wire form reads back, under `k`, as the value with its skipped fields at
their defaults, relabelled, and with no kind forced as that value with its timestamps as
they were written. Relabelling changes nothing but kinds. Reading one value with options
for the call gives the reader its own options back, on success and on failure, and a kind
forced for the call leaves the reader as a call forcing none does. -/
theorem forcedKind_relabels (cat : Catalog) (s : Schema) (k : TimeKind) :
    (∀ (c : Carrier) (cap : Option Nat),
      deserialize cat s c (some ⟨some k, cap⟩) =
        (deserialize cat s c (some ⟨none, cap⟩)).map (retime cat k s)) ∧
    (∀ (frame : ByteArray) (len : Nat) (cap : Option Nat),
      deserializeFramed cat s frame len (some ⟨some k, cap⟩) =
        (deserializeFramed cat s frame len (some ⟨none, cap⟩)).map (retime cat k s)) ∧
    (cat.WellFormed → ∀ (d : Nat) (x : Written) (fuel : Nat) (rest : List UInt8),
      WireForm cat d s x → d ≤ fuel →
        (decode cat fuel s).run' ((Reader.ofBytes (x.bytes ++ rest).toByteArray).withKind (some k)) =
          (.ok (retime cat k s x.read),
            ((Reader.ofBytes (x.bytes ++ rest).toByteArray).withKind (some k)).moved x.bytes.length) ∧
        (decode cat fuel s).run' (Reader.ofBytes (x.bytes ++ rest).toByteArray) =
          (.ok x.read, (Reader.ofBytes (x.bytes ++ rest).toByteArray).moved x.bytes.length)) ∧
    (cat.WellFormed → s.UnframedCyclesRepeat cat → s.isRaw = false → ∀ u, classify cat s = .ok u →
      ∀ (d : Nat) (x : Written) (rest : List UInt8), WireForm cat d s x →
        deserialize cat s (.slice (x.bytes ++ rest).toByteArray) (some ⟨some k, none⟩) =
          .ok (retime cat k s x.read) ∧
        deserialize cat s (.slice (x.bytes ++ rest).toByteArray) (some ⟨none, none⟩) = .ok x.read) ∧
    (∀ v : Value, (retime cat k s v).eraseKinds = v.eraseKinds) ∧
    (∀ (o : Option DecodeOptions) (r : Reader), ((deserializeAt cat s o).run' r).2.options = r.options) ∧
    (∀ (cap : Option Nat) (r : Reader), r.options.timeKind = none →
      (deserializeAt cat s (some ⟨some k, cap⟩)).run' r =
        (((deserializeAt cat s (some ⟨none, cap⟩)).run' r).1.map (retime cat k s),
          ((deserializeAt cat s (some ⟨none, cap⟩)).run' r).2)) := by
  refine ⟨fun c cap => deserialize_forcedKind cat s c k cap,
    fun frame len cap => deserializeFramed_forcedKind cat s frame len k cap,
    fun hcat d x fuel rest h hfuel => ⟨decode_forcedKind_of_wireForm hcat h k hfuel rest,
      decode_ofBytes_of_wireForm hcat h hfuel rest⟩,
    fun hcat hrep hraw u hclass d x rest h => ?_,
    eraseKinds_retime s, fun o r => by rw [deserializeAt_run'],
    fun cap r hr => deserializeAt_forcedKind cat s k cap hr⟩
  -- with no kind forced the value reads back as it is, and forcing one relabels it
  have hnone : deserialize cat s (.slice (x.bytes ++ rest).toByteArray) (some ⟨none, none⟩) =
      .ok x.read := by
    rw [deserialize_unset]
    exact deserialize_of_wireForm hcat hrep hraw hclass h rest
  refine ⟨?_, hnone⟩
  rw [deserialize_forcedKind, hnone]
  rfl

/-- A timestamp written with no kind reads back as UTC when UTC is forced; and a call
forcing UTC on a reader that forces nothing leaves it as a call forcing nothing does. -/
theorem forcedKind_relabels_timestamp :
    Catalog.WellFormed [] ∧
      WireForm [] 0 .timestamp ⟨.timestamp Timestamp.max, .timestamp Timestamp.max,
        (Writer.leBytes Timestamp.max.toBinary.toNat 8).data.toList⟩ ∧
      (decode [] 0 .timestamp).run'
          ((Reader.ofBytes (Writer.leBytes Timestamp.max.toBinary.toNat 8).data.toList.toByteArray).withKind
            (some .utc)) =
        (.ok (.timestamp (Timestamp.max.withKind .utc)),
          ((Reader.ofBytes (Writer.leBytes Timestamp.max.toBinary.toNat 8).data.toList.toByteArray).withKind
            (some .utc)).moved 8) ∧
      deserialize [] .timestamp
          (.slice ((Writer.leBytes Timestamp.max.toBinary.toNat 8).data.toList ++ []).toByteArray)
          (some ⟨some .utc, none⟩) =
        .ok (.timestamp (Timestamp.max.withKind .utc)) ∧
      (Reader.ofBytes ByteArray.empty).options.timeKind = none ∧
      (deserializeAt [] .timestamp (some ⟨some .utc, none⟩)).run' (Reader.ofBytes ByteArray.empty) =
        (((deserializeAt [] .timestamp (some ⟨none, none⟩)).run' (Reader.ofBytes ByteArray.empty)).1.map
            (retime [] .utc .timestamp),
          ((deserializeAt [] .timestamp (some ⟨none, none⟩)).run' (Reader.ofBytes ByteArray.empty)).2) := by
  have hcat : Catalog.WellFormed [] := fun _ h => absurd h List.not_mem_nil
  have hform : WireForm [] 0 .timestamp ⟨.timestamp Timestamp.max, .timestamp Timestamp.max,
      (Writer.leBytes Timestamp.max.toBinary.toNat 8).data.toList⟩ :=
    WireForm.timestamp Timestamp.max
  have hrel := forcedKind_relabels [] .timestamp .utc
  refine ⟨hcat, hform, ?_, ?_, rfl, hrel.2.2.2.2.2.2 none _ rfl⟩
  · have h := (hrel.2.2.1 hcat 0 _ 0 [] hform (Nat.le_refl 0)).1
    rw [List.append_nil] at h
    rw [h, retime]
    rfl
  · have hfree : Catalog.ParameterFree [] := fun _ hd => absurd hd List.not_mem_nil
    rw [(hrel.2.2.2.1 hcat (hfree.unframedCyclesRepeat _) rfl false rfl 0 _ [] hform).1, retime]

/-! ### A skipped field is not given back -/

/-- The variant of `skipperDecl` with a field that is never written. -/
def skipperVariant : Variant :=
  ⟨"Skipper", 3, ⟨.named, [{ name := "hidden", schema := .int .u32, skip := true },
    { name := "shown", schema := .int .u8 }]⟩⟩

/-- A union whose last variant has a field that is never written. -/
def skipperDecl : Decl :=
  { name := "Big", path := "demo",
    body := .union [⟨"Zero", 0, ⟨.unit, []⟩⟩,
      ⟨"Max", 4294967295, ⟨.positional, [{ name := "0", schema := .int .u8 }]⟩⟩,
      ⟨"Mid", 300, ⟨.positional, [{ name := "0", schema := .string }]⟩⟩, skipperVariant] }

theorem skipperDecl_subst : skipperDecl.body.subst [] = skipperDecl.body := by
  simp [skipperDecl, skipperVariant, Body.subst, Fields.subst, Schema.subst]

/-- Forcing a kind does not give back a skipped field: the variant written with its skipped
field set reads back, under UTC as under no kind, with that field at its default, which is
not the value written, relabelled. -/
theorem forcedKind_defaults_skipped_field :
    serialize [skipperDecl] (.named "Big" []) (.value (.variant 3 [.int 99, .int 5])) .vec =
        .ok (.slice ⟨#[3, 1, 0, 0, 0, 5]⟩) ∧
      deserialize [skipperDecl] (.named "Big" []) (.slice ⟨#[3, 1, 0, 0, 0, 5]⟩) (some .utc) =
        .ok (.variant 3 [.int 0, .int 5]) ∧
      Value.variant 3 [.int 0, .int 5] ≠
        retime [skipperDecl] .utc (.named "Big" []) (.variant 3 [.int 99, .int 5]) := by
  have hfind : Catalog.find? [skipperDecl] "Big" = some skipperDecl := rfl
  have hshape : (Schema.named "Big" []).shape [skipperDecl] = .union [0, 4294967295, 300, 3] := by
    rw [Schema.shape, hfind]
    dsimp only
    rw [skipperDecl_subst]
    rfl
  have hunwrap : (Schema.named "Big" []).unwrap [skipperDecl] = some (.named "Big" []) := by
    simp [Schema.unwrap, Schema.unwrapWithin, hshape]
  have hclassify : classify [skipperDecl] (.named "Big" []) = .ok true := by
    rw [classify_of_unwrap_union (by simp [hshape, ShapeKind.IsLeaf]) hunwrap hshape]
    rfl
  -- the variant in wire form: the skipped field is not written and reads back as zero
  have hform : WireForm [skipperDecl] 1 (.named "Big" [])
      ⟨.variant 3 [.int 99, .int 5], .variant 3 [.int 0, .int 5], [3, 1, 0, 0, 0, 5]⟩ := by
    have h := WireForm.union "Big" [] skipperDecl _ hfind skipperDecl_subst 3 skipperVariant rfl
      [({ name := "hidden", schema := .int .u32, skip := true }, ⟨.int 99, .int 0, []⟩),
       ({ name := "shown", schema := .int .u8 }, ⟨.int 5, .int 5,
         (Writer.leBytes ((5 : Int) % (Nat.pow 2 (8 * IntKind.u8.width) : Nat)).toNat
           IntKind.u8.width).data.toList⟩)] rfl
      (fun y hy hskip => by
        simp only [List.mem_cons, List.not_mem_nil, or_false] at hy
        rcases hy with rfl | rfl
        · cases hskip
        · exact @WireForm.int [skipperDecl] 0 .u8 5 (by decide) (by decide))
      (fun y hy hskip => by
        simp only [List.mem_cons, List.not_mem_nil, or_false] at hy
        rcases hy with rfl | rfl
        · exact ⟨rfl, rfl⟩
        · cases hskip)
      (by decide)
    have htag : Writer.varintBytes skipperVariant.tag = [3] := by
      rw [Writer.varintBytes]
      rfl
    rw [htag] at h
    exact h
  -- relabelling leaves the variant alone: it holds no timestamp
  have hretime : ∀ a b : Int, retime [skipperDecl] .utc (.named "Big" []) (.variant 3 [.int a, .int b]) =
      .variant 3 [.int a, .int b] := by
    intro a b
    rw [retime, hfind]
    dsimp only
    rw [skipperDecl_subst]
    simp [skipperDecl, skipperVariant, retimeFields]
    exact retime_atom rfl _
  have hencode : encode [skipperDecl] (.named "Big" []) (.variant 3 [.int 99, .int 5]) Writer.empty =
      .ok (Writer.empty.writeBytes ⟨#[3, 1, 0, 0, 0, 5]⟩) :=
    encode_of_wireForm hform Writer.empty
  refine ⟨?_, ?_, ?_⟩
  · rw [serialize, if_neg (by decide), encodeTo, if_neg (by decide), hclassify]
    dsimp only [Input.toValue]
    rw [if_neg Bool.false_ne_true, hencode]
    rfl
  · rw [deserialize, if_neg (by decide), hclassify]
    dsimp only
    have hcat : Catalog.WellFormed [skipperDecl] := fun d hd => by
      simp only [List.mem_singleton] at hd
      subst hd
      simp only [Decl.WellFormed, skipperDecl, skipperVariant]
      decide
    have hdecode := decode_forcedKind_of_wireForm hcat hform .utc
      (show 1 ≤ fuelFor [skipperDecl] 6 by decide) []
    rw [decodeValue, ReadM.run'_bind, ReadM.run'_get]
    show ((decode _ (fuelFor _ 6) _).run'
      ((Reader.ofBytes ([3, 1, 0, 0, 0, 5] ++ ([] : List UInt8)).toByteArray).withKind (some .utc))).1 = _
    rw [hdecode]
    exact congrArg Except.ok (hretime 0 5)
  · rw [hretime]
    simp

end Codec

end WireCodec
