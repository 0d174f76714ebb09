import WireCodec.Value

/-!
# The order of keys

`Value.cmp` is oriented: comparing the other way round swaps the answer
(`Value.cmp_swap`), for composite keys part by part. Sorted maps and sets rely on it: a
key read after smaller ones is inserted last, and a key less than every key before it is
none of them (`insertSorted_of_gt`, `hasKey_eq_false`).
-/

namespace WireCodec

namespace Value

/-- Comparing the other way round swaps the answer, in any oriented order. -/
theorem compare_swap' {α : Type} [Ord α] [Std.OrientedOrd α] (a b : α) :
    (compare a b).swap = compare b a := by
  rw [Std.OrientedOrd.eq_swap, Ordering.swap_swap]

mutual

-- one theorem per type of the key order's recursion: values, lists, lists of entries

theorem cmp_swap (a b : Value) : (cmp a b).swap = cmp b a := by
  cases a <;> cases b
  case duration.duration s n t m =>
    show ((compare s t).then (compare n m)).swap = (compare t s).then (compare m n)
    rw [Ordering.swap_then, compare_swap', compare_swap']
  case some.some a b => exact cmp_swap a b
  case seq.seq xs ys => exact cmpList_swap xs ys
  case map.map xs ys => exact cmpEntries_swap xs ys
  case record.record xs ys => exact cmpList_swap xs ys
  case variant.variant i xs j ys =>
    show ((compare i j).then (cmpList xs ys)).swap = (compare j i).then (cmpList ys xs)
    rw [Ordering.swap_then, compare_swap', cmpList_swap]
  -- keys of one scalar kind compare by their type's order
  case bool.bool a b => exact compare_swap' a b
  case int.int a b => exact compare_swap' a b
  case char.char a b => exact compare_swap' a.val b.val
  case str.str a b => exact compare_swap' a.toUTF8.toList b.toUTF8.toList
  case bytes.bytes a b => exact compare_swap' a.toList b.toList
  case timestamp.timestamp a b => exact compare_swap' a.ticks b.ticks
  case guid.guid a b => exact compare_swap' a.bytes.toList b.bytes.toList
  case enum.enum a b => exact compare_swap' a b
  -- the rest compare by kind, which the ranks decide
  all_goals rfl

theorem cmpList_swap (xs ys : List Value) : (cmpList xs ys).swap = cmpList ys xs := by
  cases xs with
  | nil => cases ys <;> rfl
  | cons a as =>
    cases ys with
    | nil => rfl
    | cons b bs =>
      show ((cmp a b).then (cmpList as bs)).swap = (cmp b a).then (cmpList bs as)
      rw [Ordering.swap_then, cmp_swap, cmpList_swap]

theorem cmpEntries_swap (xs ys : List (Value × Value)) :
    (cmpEntries xs ys).swap = cmpEntries ys xs := by
  cases xs with
  | nil => cases ys <;> rfl
  | cons p ps =>
    cases ys with
    | nil => rfl
    | cons q qs =>
      obtain ⟨a, b⟩ := p
      obtain ⟨c, d⟩ := q
      show (((cmp a c).then (cmp b d)).then (cmpEntries ps qs)).swap =
        ((cmp c a).then (cmp d b)).then (cmpEntries qs ps)
      rw [Ordering.swap_then, Ordering.swap_then, cmp_swap, cmp_swap, cmpEntries_swap]

end

/-- A key less than another is greater the other way round. -/
theorem cmp_eq_gt_of_lt {a b : Value} (h : cmp a b = .lt) : cmp b a = .gt := by
  rw [← cmp_swap, h]
  rfl

theorem same_eq_false_of_lt {a b : Value} (h : cmp a b = .lt) : same a b = false := by
  rw [same, h]
  rfl

/-- Keys are equal or not whichever way round they are compared. -/
theorem same_comm (a b : Value) : same a b = same b a := by
  rw [same, same, ← cmp_swap a b]
  cases cmp a b <;> rfl

end Value

/-- An entry whose key is greater than every key of a list goes last. -/
theorem insertSorted_of_gt {β : Type} (key : β → Value) (x : β) :
    ∀ ys : List β, (∀ y ∈ ys, Value.cmp (key x) (key y) = .gt) → insertSorted key x ys = ys ++ [x]
  | [], _ => rfl
  | y :: ys, h => by
    rw [insertSorted, h y List.mem_cons_self]
    dsimp only
    rw [insertSorted_of_gt key x ys (fun z hz => h z (List.mem_cons_of_mem y hz))]
    rfl

/-- An entry whose key equals no key of a list is inserted without dropping any entry. -/
theorem insertSorted_perm {β : Type} (key : β → Value) (x : β) :
    ∀ ys : List β, hasKey key (key x) ys = false → (insertSorted key x ys).Perm (x :: ys)
  | [], _ => List.Perm.refl _
  | y :: ys, h => by
    rw [hasKey, List.any_cons, Bool.or_eq_false_iff] at h
    obtain ⟨hy, hys⟩ := h
    rw [insertSorted]
    split
    · exact List.Perm.refl _
    · -- an equal key is excluded
      rename_i heq
      rw [Value.same_comm, Value.same, heq] at hy
      cases hy
    · exact (List.Perm.cons y (insertSorted_perm key x ys hys)).trans (List.Perm.swap x y ys)

/-- A key that no entry's key equals is not there. -/
theorem hasKey_eq_false {β : Type} (key : β → Value) (k : Value) (ys : List β)
    (h : ∀ y ∈ ys, Value.same (key y) k = false) : hasKey key k ys = false := by
  rw [hasKey, List.any_eq_false]
  intro y hy
  rw [h y hy]
  exact Bool.false_ne_true

end WireCodec
