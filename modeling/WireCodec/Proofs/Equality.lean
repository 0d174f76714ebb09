import WireCodec.Equality

/-!
# Comparers are equivalences with consistent hashes

The comparer holds two values equal in one of four ways (`Same`): two floating-point
values of a floating-point type by IEEE equality over their bits, with every NaN equal to
every NaN; two timestamps of the timestamp type by their ticks; and any other value of a
comparable type only to itself. `equals_iff_same` reads this off `equals`, and each law is
then a case analysis on `Same`.

Both floating-point widths compute one equality on bit patterns, `ieeeEquals`, given which
patterns are NaNs and which are zeros. Its laws are proved once: it is an equivalence, and
any code that sends all zeros to one value and all NaNs to one value agrees with it. The
hash of either width is such a code, since no NaN is a zero.

Main statement: `comparers_are_consistent`.
-/

namespace WireCodec.Equality

section Ieee

variable {α : Type} [DecidableEq α] (nan zero : α → Bool)

/-- IEEE equality on bit patterns, given which patterns are NaNs and which are zeros: a NaN
equals exactly the NaNs, any other pattern itself and, when it is a zero, every zero. -/
def ieeeEquals (a b : α) : Bool :=
  if nan a || nan b then nan a && nan b else a = b || (zero a && zero b)

theorem ieeeEquals_refl (a : α) : ieeeEquals nan zero a a = true := by
  unfold ieeeEquals
  cases nan a <;> simp

theorem ieeeEquals_comm (a b : α) : ieeeEquals nan zero a b = ieeeEquals nan zero b a := by
  unfold ieeeEquals
  rw [Bool.or_comm (nan a), Bool.and_comm (nan a), Bool.and_comm (zero a)]
  by_cases h : a = b
  · rw [h]
  · rw [decide_eq_false h, decide_eq_false (Ne.symm h)]

theorem ieeeEquals_trans {a b c : α} (hab : ieeeEquals nan zero a b = true)
    (hbc : ieeeEquals nan zero b c = true) : ieeeEquals nan zero a c = true := by
  unfold ieeeEquals at *
  cases hb : nan b with
  | true =>
    -- a NaN equals the NaNs only, so `a` and `c` are NaNs too
    have ha : nan a = true := by simpa [hb] using hab
    have hc : nan c = true := by simpa [hb] using hbc
    simp [ha, hc]
  | false =>
    cases ha : nan a with
    | true => simp [ha, hb] at hab
    | false =>
      cases hc : nan c with
      | true => simp [hb, hc] at hbc
      | false =>
        simp only [ha, hb, hc, Bool.or_false, if_false, Bool.false_eq_true, Bool.or_eq_true,
          decide_eq_true_eq, Bool.and_eq_true] at hab hbc ⊢
        rcases hab with rfl | ⟨hza, hzb⟩
        · exact hbc
        · rcases hbc with rfl | ⟨-, hzc⟩
          · exact Or.inr ⟨hza, hzb⟩
          · exact Or.inr ⟨hza, hzc⟩

/-- A code that is one value on all zeros and one value on all NaNs agrees with IEEE
equality. -/
theorem code_eq_of_ieeeEquals {β : Type} {code : α → β}
    (hzero : ∀ a b, zero a = true → zero b = true → code a = code b)
    (hnan : ∀ a b, nan a = true → nan b = true → code a = code b) {a b : α}
    (h : ieeeEquals nan zero a b = true) : code a = code b := by
  unfold ieeeEquals at h
  split at h
  · simp only [Bool.and_eq_true] at h
    exact hnan a b h.1 h.2
  · simp only [Bool.or_eq_true, decide_eq_true_eq, Bool.and_eq_true] at h
    rcases h with rfl | ⟨ha, hb⟩
    · rfl
    · exact hzero a b ha hb

/-- A hash that gives every zero one code and every NaN another agrees with IEEE equality,
when no NaN is a zero. -/
theorem ieeeHash_eq_of_ieeeEquals {β : Type} (zeroCode nanCode : β) (code : α → β)
    (hnan : ∀ a, nan a = true → zero a = false) {a b : α} (h : ieeeEquals nan zero a b = true) :
    (if zero a = true then zeroCode else if nan a = true then nanCode else code a) =
      (if zero b = true then zeroCode else if nan b = true then nanCode else code b) := by
  let hashOf : α → β := fun x =>
    if zero x = true then zeroCode else if nan x = true then nanCode else code x
  show hashOf a = hashOf b
  refine code_eq_of_ieeeEquals nan zero (fun a b ha hb => ?_) (fun a b ha hb => ?_) h
  · simp [hashOf, ha, hb]
  · simp [hashOf, ha, hb, hnan a ha, hnan b hb]

end Ieee

theorem equalsF32_eq : equalsF32 = ieeeEquals isNaN32 isZero32 := rfl

theorem equalsF64_eq : equalsF64 = ieeeEquals isNaN64 isZero64 := rfl

/-- No NaN is a zero: its exponent bits are all set. -/
theorem isZero32_eq_false_of_isNaN32 {x : UInt32} (h : isNaN32 x = true) : isZero32 x = false := by
  unfold isNaN32 at h
  unfold isZero32
  have hmask : x &&& 0x7F800000 = (x &&& 0x7FFFFFFF) &&& 0x7F800000 := by
    rw [UInt32.and_assoc, show (0x7FFFFFFF : UInt32) &&& 0x7F800000 = 0x7F800000 by decide]
  simp only [Bool.and_eq_true, decide_eq_true_eq] at h
  simp only [decide_eq_false_iff_not]
  intro hz
  rw [hmask, hz] at h
  exact absurd h.1 (by decide)

/-- No NaN is a zero: its exponent bits are all set. -/
theorem isZero64_eq_false_of_isNaN64 {x : UInt64} (h : isNaN64 x = true) : isZero64 x = false := by
  unfold isNaN64 at h
  unfold isZero64
  have hmask : x &&& 0x7FF0000000000000 = (x &&& 0x7FFFFFFFFFFFFFFF) &&& 0x7FF0000000000000 := by
    rw [UInt64.and_assoc,
      show (0x7FFFFFFFFFFFFFFF : UInt64) &&& 0x7FF0000000000000 = 0x7FF0000000000000 by decide]
  simp only [Bool.and_eq_true, decide_eq_true_eq] at h
  simp only [decide_eq_false_iff_not]
  intro hz
  rw [hmask, hz] at h
  exact absurd h.1 (by decide)

theorem isNaN32_eq_false_of_isZero32 {x : UInt32} (h : isZero32 x = true) : isNaN32 x = false :=
  Bool.eq_false_iff.mpr fun hn => by rw [isZero32_eq_false_of_isNaN32 hn] at h; cases h

theorem isNaN64_eq_false_of_isZero64 {x : UInt64} (h : isZero64 x = true) : isNaN64 x = false :=
  Bool.eq_false_iff.mpr fun hn => by rw [isZero64_eq_false_of_isNaN64 hn] at h; cases h

theorem hashF32_eq_of_equalsF32 {x y : UInt32} (h : equalsF32 x y = true) :
    hashF32 x = hashF32 y :=
  ieeeHash_eq_of_ieeeEquals isNaN32 isZero32 0 _ _ (fun _ => isZero32_eq_false_of_isNaN32) h

theorem hashF64_eq_of_equalsF64 {x y : UInt64} (h : equalsF64 x y = true) :
    hashF64 x = hashF64 y :=
  ieeeHash_eq_of_ieeeEquals isNaN64 isZero64 0 _ _ (fun _ => isZero64_eq_false_of_isNaN64) h

/-- The values that every schema compares by value: integers, booleans, characters, text,
byte strings, identifiers and durations. -/
def byValue : Value → Bool
  | .int _ | .bool _ | .char _ | .str _ | .bytes _ | .guid _ | .duration .. => true
  | _ => false

/-- When the comparer holds two values equal. -/
inductive Same : Schema → Value → Value → Prop
  | f32 {x y : UInt32} : equalsF32 x y = true → Same .f32 (.f32 x) (.f32 y)
  | f64 {x y : UInt64} : equalsF64 x y = true → Same .f64 (.f64 x) (.f64 y)
  | timestamp {x y : Timestamp} : x.ticks = y.ticks → Same .timestamp (.timestamp x) (.timestamp y)
  | self (s : Schema) {v : Value} : byValue v = true → Same s v v

theorem same_of_equals {s : Schema} {a b : Value} (h : equals s a b = true) : Same s a b := by
  unfold equals at h
  split at h
  · exact .f32 h
  · exact .f64 h
  · exact .timestamp (of_decide_eq_true h)
  · cases of_decide_eq_true h
    exact .self _ rfl
  · cases of_decide_eq_true h
    exact .self _ rfl
  · cases of_decide_eq_true h
    exact .self _ rfl
  · cases of_decide_eq_true h
    exact .self _ rfl
  · -- byte strings are equal when their bytes are
    rename_i x y
    have hxy : x = y := ByteArray.ext (Array.ext' (congrArg Array.toList (of_decide_eq_true h)))
    subst hxy
    exact .self _ rfl
  · cases of_decide_eq_true h
    exact .self _ rfl
  · simp only [Bool.and_eq_true, decide_eq_true_eq] at h
    obtain ⟨rfl, rfl⟩ := h
    exact .self _ rfl
  · cases h

theorem equals_of_same {s : Schema} {a b : Value} (h : Same s a b) : equals s a b = true := by
  cases h with
  | f32 h => exact h
  | f64 h => exact h
  | timestamp h => exact decide_eq_true h
  | self s hv =>
    cases a <;> simp only [byValue, Bool.false_eq_true] at hv <;> cases s <;> simp [equals]

theorem equals_iff_same {s : Schema} {a b : Value} : equals s a b = true ↔ Same s a b :=
  ⟨same_of_equals, equals_of_same⟩

theorem hash_f32 (s : Schema) (x : UInt32) : hash s (.f32 x) = hashF32 x := by
  cases s <;> rfl

theorem hash_f64 (s : Schema) (x : UInt64) : hash s (.f64 x) = hashF64 x := by
  cases s <;> rfl

theorem hash_timestamp (s : Schema) (t : Timestamp) : hash s (.timestamp t) = hashTimestamp t := by
  cases s <;> rfl

namespace Same

variable {s : Schema} {a b c : Value}

theorem symm (h : Same s a b) : Same s b a := by
  cases h with
  | f32 h => exact .f32 (by rwa [equalsF32_eq, ieeeEquals_comm, ← equalsF32_eq])
  | f64 h => exact .f64 (by rwa [equalsF64_eq, ieeeEquals_comm, ← equalsF64_eq])
  | timestamp h => exact .timestamp h.symm
  | self s hv => exact .self s hv

theorem trans (hab : Same s a b) (hbc : Same s b c) : Same s a c := by
  cases hab with
  | f32 hab =>
    cases hbc with
    | f32 hbc =>
      rw [equalsF32_eq] at hab hbc
      exact .f32 (by rw [equalsF32_eq]; exact ieeeEquals_trans _ _ hab hbc)
    | self _ hv => cases hv
  | f64 hab =>
    cases hbc with
    | f64 hbc =>
      rw [equalsF64_eq] at hab hbc
      exact .f64 (by rw [equalsF64_eq]; exact ieeeEquals_trans _ _ hab hbc)
    | self _ hv => cases hv
  | timestamp hab =>
    cases hbc with
    | timestamp hbc => exact .timestamp (hab.trans hbc)
    | self _ hv => cases hv
  | self _ _ => exact hbc

/-- Values the comparer holds equal have the same hash code. -/
theorem hash_eq (h : Same s a b) : hash s a = hash s b := by
  cases h with
  | f32 h => rw [hash_f32, hash_f32, hashF32_eq_of_equalsF32 h]
  | f64 h => rw [hash_f64, hash_f64, hashF64_eq_of_equalsF64 h]
  | timestamp h => rw [hash_timestamp, hash_timestamp, hashTimestamp, hashTimestamp, h]
  | self _ _ => rfl

end Same

/-- The values of the types that have a comparer: every integer type, `bool`, `char`, both
floating-point types with every bit pattern, strings, sequences of bytes, durations,
identifiers and timestamps. -/
inductive Compared : Schema → Value → Prop
  | int (k : IntKind) (n : Int) : Compared (.int k) (.int n)
  | bool (b : Bool) : Compared .bool (.bool b)
  | char (c : Char) : Compared .char (.char c)
  | f32 (x : UInt32) : Compared .f32 (.f32 x)
  | f64 (x : UInt64) : Compared .f64 (.f64 x)
  | str (t : String) : Compared .string (.str t)
  | bytes (k : ListKind) (b : ByteArray) : Compared (.list k (.int .u8)) (.bytes b)
  | duration (secs nanos : Nat) : Compared .duration (.duration secs nanos)
  | guid (g : Guid) : Compared .guid (.guid g)
  | timestamp (t : Timestamp) : Compared .timestamp (.timestamp t)

/-- Every value of a comparable type is equal to itself. -/
theorem Compared.same {s : Schema} {v : Value} (h : Compared s v) : Same s v v := by
  cases h with
  | f32 x => exact .f32 (by rw [equalsF32_eq]; exact ieeeEquals_refl _ _ x)
  | f64 x => exact .f64 (by rw [equalsF64_eq]; exact ieeeEquals_refl _ _ x)
  | timestamp t => exact .timestamp rfl
  | int | bool | char | str | bytes | duration | guid => exact .self _ rfl

/-- Every comparer is an equivalence whose hash codes agree with it. On the values of its
type `equals` is reflexive, and on all values it is symmetric and transitive; values it
holds equal have equal hash codes. Over all bit patterns every NaN equals every NaN and the
two zeros are equal, for both floating-point widths; and timestamps that differ only in
their kind are equal and hash alike. -/
theorem comparers_are_consistent :
    (∀ s v, Compared s v → equals s v v = true) ∧
    (∀ s a b, equals s a b = equals s b a) ∧
    (∀ s a b c, equals s a b = true → equals s b c = true → equals s a c = true) ∧
    (∀ s a b, equals s a b = true → hash s a = hash s b) ∧
    (∀ x y, isNaN32 x = true → isNaN32 y = true → equals .f32 (.f32 x) (.f32 y) = true) ∧
    (∀ x y, isZero32 x = true → isZero32 y = true → equals .f32 (.f32 x) (.f32 y) = true) ∧
    (∀ x y, isNaN64 x = true → isNaN64 y = true → equals .f64 (.f64 x) (.f64 y) = true) ∧
    (∀ x y, isZero64 x = true → isZero64 y = true → equals .f64 (.f64 x) (.f64 y) = true) ∧
    (∀ (t : Timestamp) k, equals .timestamp (.timestamp t) (.timestamp (t.withKind k)) = true ∧
      hash .timestamp (.timestamp t) = hash .timestamp (.timestamp (t.withKind k))) := by
  refine ⟨fun s v hv => equals_of_same hv.same, fun s a b => ?_,
    fun s a b c hab hbc => equals_of_same ((same_of_equals hab).trans (same_of_equals hbc)),
    fun s a b h => (same_of_equals h).hash_eq, fun x y hx hy => ?_, fun x y hx hy => ?_,
    fun x y hx hy => ?_, fun x y hx hy => ?_, fun t k => ?_⟩
  · -- both sides are true together, by symmetry of `Same`
    rw [Bool.eq_iff_iff, equals_iff_same, equals_iff_same]
    exact ⟨Same.symm, Same.symm⟩
  · exact equals_of_same (.f32 (by simp [equalsF32, hx, hy]))
  · exact equals_of_same (.f32 (by
      simp [equalsF32, hx, hy, isNaN32_eq_false_of_isZero32 hx, isNaN32_eq_false_of_isZero32 hy]))
  · exact equals_of_same (.f64 (by simp [equalsF64, hx, hy]))
  · exact equals_of_same (.f64 (by
      simp [equalsF64, hx, hy, isNaN64_eq_false_of_isZero64 hx, isNaN64_eq_false_of_isZero64 hy]))
  · have h : Same .timestamp (.timestamp t) (.timestamp (t.withKind k)) := .timestamp rfl
    exact ⟨equals_of_same h, h.hash_eq⟩

end WireCodec.Equality
