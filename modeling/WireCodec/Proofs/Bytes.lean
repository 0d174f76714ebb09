import WireCodec.Lz4.Basic

/-!
# Bytes as lists

The codecs and the block encoders work on `ByteArray`s, and their specifications speak of
lists of bytes. The list of an array is `b.data.toList`; these lemmas give the list form
of every array operation the codecs use, so that later proofs never reason about arrays
again. `ByteArray.toList` is a loop over the indices, and it agrees with that list too.
-/

namespace ByteArray

/-- Reading a byte out of range gives zero, as `getD` does. -/
theorem get!_eq_getD (b : ByteArray) (i : Nat) : b.get! i = b.data.toList.getD i 0 := by
  cases b with
  | mk data =>
    show data[i]! = _
    rw [List.getD_eq_getElem?_getD, Array.getElem?_toList, getElem!_def]
    cases data[i]? <;> rfl

theorem toList_eq_data_toList (b : ByteArray) : b.toList = b.data.toList := by
  -- the loop has pushed the bytes before `i`, last first, onto `r`
  suffices h : ∀ i r, i ≤ b.size → toList.loop b i r = r.reverse ++ b.data.toList.drop i by
    simpa [toList] using h 0 [] (Nat.zero_le _)
  intro i r hi
  induction i, r using toList.loop.induct b with
  | case1 i r hlt ih =>
    rw [toList.loop, if_pos hlt, ih (by omega), get!_eq_getD]
    have hl : i < b.data.toList.length := by simpa using hlt
    have hdrop : b.data.toList.drop i =
        b.data.toList.getD i 0 :: b.data.toList.drop (i + 1) := by
      rw [List.drop_eq_getElem_cons hl, List.getD_eq_getElem?_getD, List.getElem?_eq_getElem hl]
      rfl
    rw [hdrop, List.reverse_cons, List.append_assoc]
    rfl
  | case2 i r hge =>
    rw [toList.loop, if_neg hge]
    have hnil : b.data.toList.drop i = [] := by simp; omega
    simp [hnil]

@[simp] theorem data_toList_push (b : ByteArray) (x : UInt8) :
    (b.push x).data.toList = b.data.toList ++ [x] := by
  rw [data_push, Array.toList_push]

@[simp] theorem data_toList_append (a b : ByteArray) :
    (a ++ b).data.toList = a.data.toList ++ b.data.toList := by
  rw [data_append, Array.toList_append]

@[simp] theorem data_toList_extract (b : ByteArray) (i j : Nat) :
    (b.extract i j).data.toList = (b.data.toList.drop i).take (j - i) := by
  rw [data_extract]
  simp

/-- A copy of `len` bytes of `src` from `s` over `dest` from `d`: what lies before `d`, the
copied bytes, and what lies past them. -/
theorem data_toList_copySlice (src dest : ByteArray) (s d len : Nat) :
    (src.copySlice s dest d len).data.toList = dest.data.toList.take d ++
      (src.data.toList.drop s).take len ++ dest.data.toList.drop (d + min len (src.size - s)) := by
  simp only [copySlice, Array.toList_append, Array.toList_extract, List.extract_eq_take_drop,
    List.drop_zero, Nat.sub_zero, Nat.add_sub_cancel_left]
  congr 1
  exact List.take_of_length_le (by simp)

theorem data_toList_copySlice_of_le {src dest : ByteArray} {s d len : Nat}
    (hs : s + len ≤ src.size) :
    (src.copySlice s dest d len).data.toList = dest.data.toList.take d ++
      (src.data.toList.drop s).take len ++ dest.data.toList.drop (d + len) := by
  rw [data_toList_copySlice, Nat.min_eq_left (by omega)]

@[simp] theorem length_data_toList (b : ByteArray) : b.data.toList.length = b.size := by
  simp

/-- Arrays with the same list of bytes are equal. -/
theorem ext_toList {a b : ByteArray} (h : a.data.toList = b.data.toList) : a = b :=
  ByteArray.ext (Array.ext' h)

@[simp] theorem toByteArray_data_toList (b : ByteArray) : b.data.toList.toByteArray = b :=
  ext_toList List.toList_data_toByteArray

/-- The bytes from position `i` on, read by index. -/
theorem get!_of_drop_eq {b : ByteArray} {i : Nat} {xs : List UInt8}
    (h : b.data.toList.drop i = xs) (j : Nat) : b.get! (i + j) = xs.getD j 0 := by
  rw [get!_eq_getD, List.getD_eq_getElem?_getD, List.getD_eq_getElem?_getD, ← List.getElem?_drop,
    h]

/-- Reading a byte in range by index, on the list. -/
theorem getElem_eq_getD (b : ByteArray) (i : Nat) (h : i < b.size) :
    b[i] = b.data.toList.getD i 0 := by
  rw [getElem_eq_getElem_data, ← Array.getElem_toList, List.getD_eq_getElem?_getD,
    List.getElem?_eq_getElem]
  rfl

/-- The bytes from an index in range on start with the byte there. -/
theorem drop_eq_getElem_cons (b : ByteArray) {i : Nat} (h : i < b.size) :
    b.data.toList.drop i = b[i] :: b.data.toList.drop (i + 1) := by
  rw [List.drop_eq_getElem_cons (by simpa using h), getElem_eq_getElem_data, Array.getElem_toList]

theorem drop_eq_get!_cons (b : ByteArray) {i : Nat} (h : i < b.size) :
    b.data.toList.drop i = b.get! i :: b.data.toList.drop (i + 1) := by
  rw [drop_eq_getElem_cons b h, getElem_eq_getD b i h, get!_eq_getD]

/-- Bytes found from `i` on are in range, the first of them at `i`. -/
theorem lt_size_of_drop_eq_cons {b : ByteArray} {i : Nat} {x : UInt8} {xs : List UInt8}
    (h : b.data.toList.drop i = x :: xs) :
    ∃ hi : i < b.size, b[i] = x ∧ b.data.toList.drop (i + 1) = xs := by
  have hi : i < b.size := by
    have := congrArg List.length h
    simp only [List.length_drop, length_data_toList, List.length_cons] at this
    omega
  rw [drop_eq_getElem_cons b hi, List.cons.injEq] at h
  exact ⟨hi, h⟩

section Copies

variable {src dest : ByteArray} {s d len : Nat}

/-- A copy that fits in both arrays keeps the destination's length. -/
theorem size_copySlice_of_le (hs : s + len ≤ src.size) (hd : d + len ≤ dest.size) :
    (src.copySlice s dest d len).size = dest.size := by
  rw [← length_data_toList, data_toList_copySlice_of_le hs]
  simp only [List.length_append, List.length_take, List.length_drop, length_data_toList]
  omega

/-- A copy keeps the bytes before its destination. -/
theorem take_copySlice_of_le {k : Nat} (hk : k ≤ d) (hd : d ≤ dest.size) :
    (src.copySlice s dest d len).data.toList.take k = dest.data.toList.take k := by
  rw [data_toList_copySlice, List.append_assoc,
    List.take_append_of_le_length (by simp; omega), List.take_take, Nat.min_eq_left hk]

/-- Up to the end of a copy, the destination holds what lay before the copy, then the
copied bytes. -/
theorem take_copySlice_add (hs : s + len ≤ src.size) (hd : d + len ≤ dest.size) :
    (src.copySlice s dest d len).data.toList.take (d + len) =
      dest.data.toList.take d ++ (src.data.toList.drop s).take len := by
  rw [data_toList_copySlice_of_le hs]
  apply List.take_left'
  simp only [List.length_append, List.length_take, List.length_drop, length_data_toList]
  omega

end Copies

end ByteArray
