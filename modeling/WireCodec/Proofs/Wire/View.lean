import WireCodec.Proofs.Wire.Reads

/-!
# What a reader shows to its reads

A read sees a reader through the bytes it has yet to read, its position, the size of its
view and its cap on collections (`Reader.view`), and the decoder of timestamps also through
the kind the reader forces. A reader over one buffer and a reader over chunks of the same
bytes show the same view; reading `n` bytes returns the first `n` bytes ahead and moves
the view past them, whichever layout is underneath (`readBytes_run'`, `readSlice_run'`). For chunks this rests on `gather_spec`: gathering
takes the bytes ahead of the chunk cursor in order and leaves the cursor after them.

A reader is `Sound` when its position and the bytes ahead add up to its size and its
cursor lies inside the buffer it reads: the position inside a single buffer, the offset
inside the current chunk. Every read from a sound reader keeps it sound, and the slices it
takes lie inside the buffers (`readBytes_inBounds`).
-/

namespace WireCodec.Wire

/-- The bytes of the chunks `cs` from byte `o` of chunk `i` on. -/
def chunkAhead (cs : List ByteArray) (i o : Nat) : List UInt8 :=
  match cs.drop i with
  | [] => []
  | c :: rest => c.data.toList.drop o ++ (rest.map (·.data.toList)).flatten

/-- What the reads of bytes see of a reader. -/
structure View where
  ahead : List UInt8
  position : Nat
  size : Nat
  cap : Option Nat

/-- The view after `n` more bytes are read. -/
def View.skip (v : View) (n : Nat) : View :=
  { v with ahead := v.ahead.drop n, position := v.position + n }

namespace Reader

/-- The bytes a reader has yet to read, in order. -/
def ahead (r : Reader) : List UInt8 :=
  match r.source with
  | .contiguous b => b.data.toList.drop r.position
  | .chunked cs i o => chunkAhead cs.toList i o

/-- The view of a reader: readers over different layouts of the same bytes, at the same
place and with the same cap, look the same. -/
def view (r : Reader) : View := ⟨r.ahead, r.position, r.size, r.options.maxCollectionLen⟩

/-- The cursor of a sound reader lies inside what it reads: the position and the bytes
ahead make up the size, a single buffer is the whole view, and the offset in the current
chunk is inside that chunk. -/
def Sound (r : Reader) : Prop :=
  r.position + r.ahead.length = r.size ∧
  match r.source with
  | .contiguous b => r.size = b.size
  | .chunked cs i o => ∀ c ∈ (cs.toList.drop i).head?, o ≤ c.size

theorem remaining_eq_of_view {r₁ r₂ : Reader} (h : r₁.view = r₂.view) :
    r₁.remaining = r₂.remaining := by
  simp only [view, View.mk.injEq] at h
  simp only [remaining, h.2.1, h.2.2.1]

theorem position_eq_of_view {r₁ r₂ : Reader} (h : r₁.view = r₂.view) :
    r₁.position = r₂.position :=
  congrArg View.position h

theorem cap_eq_of_view {r₁ r₂ : Reader} (h : r₁.view = r₂.view) :
    r₁.options.maxCollectionLen = r₂.options.maxCollectionLen :=
  congrArg View.cap h

theorem position_of_view_skip {r r' : Reader} {n : Nat} (h : r'.view = r.view.skip n) :
    r'.position = r.position + n :=
  congrArg View.position h

theorem Sound.remaining {r : Reader} (h : r.Sound) : r.remaining = r.ahead.length := by
  rw [Reader.remaining, ← h.1]
  omega

end Reader

/-! ### Gathering bytes across chunks -/

section Gather

variable {cs : Array ByteArray} {i o : Nat}

/-- The bytes ahead of a cursor inside chunk `i` are the rest of that chunk, then the
chunks after it. -/
theorem chunkAhead_of_lt (h : i < cs.size) :
    chunkAhead cs.toList i o = cs[i].data.toList.drop o ++ chunkAhead cs.toList (i + 1) 0 := by
  have hdrop : cs.toList.drop i = cs[i] :: cs.toList.drop (i + 1) := by
    rw [List.drop_eq_getElem_cons (by simpa using h), Array.getElem_toList]
  unfold chunkAhead
  rw [hdrop]
  cases hnext : cs.toList.drop (i + 1) with
  | nil => simp
  | cons c rest => simp

theorem chunkAhead_of_ge (h : cs.size ≤ i) : chunkAhead cs.toList i o = [] := by
  unfold chunkAhead
  rw [List.drop_eq_nil_of_le (by simpa using h)]

/-- Moving `n` bytes inside the current chunk drops them from the bytes ahead. -/
theorem chunkAhead_within {n : Nat} (h : i < cs.size) (hn : n ≤ cs[i].size - o) :
    chunkAhead cs.toList i (o + n) = (chunkAhead cs.toList i o).drop n := by
  rw [chunkAhead_of_lt h, chunkAhead_of_lt h, List.drop_append_of_le_length (by simp; omega),
    List.drop_drop, Nat.add_comm]

/-- Taking `n` bytes of the current chunk, at most what is left of it, takes the first `n`
bytes ahead. -/
theorem extract_chunk {n : Nat} (h : i < cs.size) (hn : n ≤ cs[i].size - o) :
    (cs[i].extract o (o + n)).data.toList = (chunkAhead cs.toList i o).take n := by
  rw [ByteArray.data_toList_extract, chunkAhead_of_lt h, Nat.add_sub_cancel_left,
    List.take_append_of_le_length (by simp; omega)]

/-- Gathering `need` bytes appends the first `need` bytes ahead of the cursor and leaves
the cursor after them. -/
theorem gather_spec (need : Nat) (acc : ByteArray) :
    (gather cs i o need acc).1.data.toList = acc.data.toList ++ (chunkAhead cs.toList i o).take need ∧
      chunkAhead cs.toList (gather cs i o need acc).2.1 (gather cs i o need acc).2.2 =
        (chunkAhead cs.toList i o).drop need := by
  fun_induction gather cs i o need acc with
  | case1 => simp
  | case2 i o need acc hne h n hin ih =>
    -- the rest of the request lies inside chunk `i`
    have hnle : n ≤ cs[i].size - o := Nat.min_le_left _ _
    rw [chunkAhead_within h hnle] at ih
    obtain ⟨hout, hcur⟩ := ih
    refine ⟨?_, ?_⟩
    · rw [hout, ByteArray.data_toList_append, extract_chunk h hnle, List.append_assoc,
        ← List.take_add, Nat.add_sub_cancel' (Nat.min_le_right _ _)]
    · rw [hcur, List.drop_drop, Nat.add_sub_cancel' (Nat.min_le_right _ _)]
  | case3 i o need acc hne h n hout ih =>
    -- chunk `i` is used up, and gathering goes on from the start of the next one
    have hnle : n ≤ cs[i].size - o := Nat.min_le_left _ _
    have hn : n = cs[i].size - o := by omega
    have hnext : chunkAhead cs.toList (i + 1) 0 = (chunkAhead cs.toList i o).drop n := by
      rw [chunkAhead_of_lt h, List.drop_append_of_le_length (by simp; omega), hn]
      simp only [List.drop_drop]
      rw [List.drop_eq_nil_of_le (by simp; omega), List.nil_append]
    rw [hnext] at ih
    obtain ⟨hout', hcur⟩ := ih
    refine ⟨?_, ?_⟩
    · rw [hout', ByteArray.data_toList_append, extract_chunk h hnle, List.append_assoc,
        ← List.take_add, Nat.add_sub_cancel' (Nat.min_le_right _ _)]
    · rw [hcur, List.drop_drop, Nat.add_sub_cancel' (Nat.min_le_right _ _)]
  | case4 i o need acc hne h =>
    rw [chunkAhead_of_ge (Nat.le_of_not_lt h)]
    simp

/-- Gathering leaves the offset inside the current chunk. -/
theorem gather_offset (need : Nat) (acc : ByteArray)
    (ho : ∀ c ∈ (cs.toList.drop i).head?, o ≤ c.size) :
    ∀ c ∈ (cs.toList.drop (gather cs i o need acc).2.1).head?, (gather cs i o need acc).2.2 ≤ c.size := by
  fun_induction gather cs i o need acc with
  | case1 => exact ho
  | case2 i o need acc hne h n hin ih =>
    refine ih fun c hc => ?_
    rw [List.drop_eq_getElem_cons (by simpa using h)] at hc
    simp only [List.head?_cons, Option.mem_def, Option.some.injEq] at hc
    subst hc
    simp only [Array.getElem_toList]
    omega
  | case3 i o need acc hne h n hout ih =>
    exact ih fun c _ => Nat.zero_le _
  | case4 => exact ho

end Gather

/-! ### The two byte reads -/

namespace Reader

theorem ensure_run' (r : Reader) (n : Nat) :
    (ensure n).run' r = if n > r.remaining then (.error (.unexpectedEof n r.remaining), r)
      else (.ok (), r) := by
  simp only [ensure, ReadM.run'_bind, ReadM.run'_get]
  split <;> rfl

/-- Reading past the end fails and leaves the reader as it was. -/
theorem readBytes_run'_short {r : Reader} {n : Nat} (h : r.remaining < n) :
    (readBytes n).run' r = (.error (.unexpectedEof n r.remaining), r) := by
  simp only [readBytes, ReadM.run'_bind, ensure_short h]

theorem readSlice_run'_short {r : Reader} {n : Nat} (h : r.remaining < n) :
    (readSlice n).run' r = (.error (.unexpectedEof n r.remaining), r) := by
  simp only [readSlice, ReadM.run'_bind, ensure_short h]

/-- A read of `n` bytes of a single buffer takes the first `n` bytes ahead and moves the
view past them. -/
theorem contiguous_step {r : Reader} {b : ByteArray} {n : Nat} (hsrc : r.source = .contiguous b)
    (h : n ≤ r.remaining) :
    b.extract r.position (r.position + n) = (r.ahead.take n).toByteArray ∧
      (⟨.contiguous b, r.position + n, r.size, r.options⟩ : Reader).view = r.view.skip n ∧
      (r.Sound → (⟨.contiguous b, r.position + n, r.size, r.options⟩ : Reader).Sound) := by
  refine ⟨?_, ?_, fun hs => ?_⟩
  · apply ByteArray.ext_toList
    simp [ahead, hsrc]
  · simp [view, View.skip, ahead, hsrc, List.drop_drop, Nat.add_comm]
  · obtain ⟨hlen, hb⟩ := hs
    rw [hsrc] at hb
    simp only [ahead, hsrc, List.length_drop, ByteArray.length_data_toList] at hlen
    simp only [Reader.remaining] at h
    refine ⟨?_, hb⟩
    simp only [ahead, List.length_drop, ByteArray.length_data_toList]
    omega

/-- A read through a chunk cursor that takes `n` bytes and leaves the cursor where the bytes
ahead are those after them. -/
theorem chunked_step {r : Reader} {cs : Array ByteArray} {i o i' o' n : Nat}
    (hsrc : r.source = .chunked cs i o) (h : n ≤ r.remaining)
    (hahead : chunkAhead cs.toList i' o' = (chunkAhead cs.toList i o).drop n)
    (hoff : (∀ c ∈ (cs.toList.drop i).head?, o ≤ c.size) →
      ∀ c ∈ (cs.toList.drop i').head?, o' ≤ c.size) :
    (⟨.chunked cs i' o', r.position + n, r.size, r.options⟩ : Reader).view = r.view.skip n ∧
      (r.Sound → (⟨.chunked cs i' o', r.position + n, r.size, r.options⟩ : Reader).Sound) := by
  refine ⟨by simp only [view, View.skip, ahead, hsrc, hahead], fun hs => ?_⟩
  obtain ⟨hlen, ho⟩ := hs
  rw [hsrc] at ho
  refine ⟨?_, hoff ho⟩
  simp only [ahead, hsrc] at hlen
  simp only [Reader.remaining] at h
  simp only [ahead]
  rw [hahead, List.length_drop]
  omega

/-- Reading `n` bytes, when there are that many ahead, returns the first `n` bytes ahead
and moves the view past them. -/
theorem readBytes_run' {r : Reader} {n : Nat} (h : n ≤ r.remaining) :
    ∃ r', (readBytes n).run' r = (.ok (r.ahead.take n).toByteArray, r') ∧ r'.view = r.view.skip n ∧
      r'.options = r.options ∧ (r.Sound → r'.Sound) := by
  simp only [readBytes, ReadM.run'_bind, ensure_ok h, ReadM.run'_get]
  cases hsrc : r.source with
  | contiguous b =>
    obtain ⟨hext, hview, hsound⟩ := contiguous_step hsrc h
    refine ⟨_, ?_, hview, rfl, hsound⟩
    simp only [ReadM.run'_bind, ReadM.run'_set, ReadM.run'_pure, hext]
  | chunked cs i o =>
    obtain ⟨hout, hcur⟩ := @gather_spec cs i o n ByteArray.empty
    obtain ⟨hview, hsound⟩ := chunked_step hsrc h hcur (gather_offset n .empty)
    refine ⟨_, ?_, hview, rfl, hsound⟩
    simp only [ReadM.run'_bind, ReadM.run'_set, ReadM.run'_pure]
    congr 2
    apply ByteArray.ext_toList
    rw [hout, ahead, hsrc]
    simp

/-- Reading a slice of `n` bytes, when there are that many ahead, returns the first `n`
bytes ahead and moves the view past them; only whether they are borrowed depends on the
layout. -/
theorem readSlice_run' {r : Reader} {n : Nat} (h : n ≤ r.remaining) :
    ∃ borrowed r', (readSlice n).run' r = (.ok ((r.ahead.take n).toByteArray, borrowed), r') ∧
      r'.view = r.view.skip n ∧ r'.options = r.options ∧ (r.Sound → r'.Sound) := by
  simp only [readSlice, ReadM.run'_bind, ensure_ok h, ReadM.run'_get]
  -- a slice that is not borrowed is read as a copy
  have hcopy : ∃ borrowed r', ((readBytes n >>= fun b => pure (b, false)) : ReadM _).run' r =
      (.ok ((r.ahead.take n).toByteArray, borrowed), r') ∧ r'.view = r.view.skip n ∧
      r'.options = r.options ∧ (r.Sound → r'.Sound) := by
    obtain ⟨r', hrun, hrest⟩ := readBytes_run' h
    exact ⟨false, r', by rw [ReadM.run'_bind, hrun]; rfl, hrest⟩
  cases hsrc : r.source with
  | contiguous b =>
    obtain ⟨hext, hview, hsound⟩ := contiguous_step hsrc h
    refine ⟨true, _, ?_, hview, rfl, hsound⟩
    simp only [ReadM.run'_bind, ReadM.run'_set, ReadM.run'_pure, hext]
  | chunked cs i o =>
    dsimp only
    split
    · rename_i c hc
      obtain ⟨hi, rfl⟩ : ∃ hi : i < cs.size, cs[i] = c := Array.getElem?_eq_some_iff.mp hc
      split
      · -- the slice lies inside the current chunk and is borrowed
        rename_i hfit
        have hn : n ≤ cs[i].size - o := by omega
        obtain ⟨hview, hsound⟩ := chunked_step hsrc h (chunkAhead_within hi hn) fun _ c hc' => by
          rw [List.drop_eq_getElem_cons (by simpa using hi)] at hc'
          simp only [List.head?_cons, Option.mem_def, Option.some.injEq] at hc'
          subst hc'
          simp only [Array.getElem_toList]
          omega
        refine ⟨true, _, ?_, hview, rfl, hsound⟩
        simp only [ReadM.run'_bind, ReadM.run'_set, ReadM.run'_pure]
        congr 3
        apply ByteArray.ext_toList
        rw [extract_chunk hi hn, ahead, hsrc, List.toList_data_toByteArray]
      · exact hcopy
    · exact hcopy

/-- The byte reads neither look at the options nor change them. -/
theorem readBytes_options (r : Reader) (o : DecodeOptions) (n : Nat) :
    (readBytes n).run' { r with options := o } =
      (((readBytes n).run' r).1, { ((readBytes n).run' r).2 with options := o }) := by
  by_cases h : n ≤ r.remaining
  · have h' : n ≤ ({ r with options := o } : Reader).remaining := h
    simp only [readBytes, ReadM.run'_bind, ensure_ok h, ensure_ok h', ReadM.run'_get]
    cases r.source <;> simp only [ReadM.run'_bind, ReadM.run'_set, ReadM.run'_pure]
  · have h' : ({ r with options := o } : Reader).remaining < n := by
      simp only [remaining] at h ⊢
      omega
    rw [readBytes_run'_short h', readBytes_run'_short (by omega)]
    rfl

theorem readSlice_options (r : Reader) (o : DecodeOptions) (n : Nat) :
    (readSlice n).run' { r with options := o } =
      (((readSlice n).run' r).1, { ((readSlice n).run' r).2 with options := o }) := by
  -- the copy taken when the slice cannot be borrowed is a byte read
  have hcopy : ∀ r : Reader,
      ((readBytes n >>= fun b => pure (b, false)) : ReadM _).run' { r with options := o } =
        ((((readBytes n >>= fun b => pure (b, false)) : ReadM _).run' r).1,
          { (((readBytes n >>= fun b => pure (b, false)) : ReadM _).run' r).2 with options := o }) := by
    intro r
    rw [ReadM.run'_bind, ReadM.run'_bind, readBytes_options]
    rcases (readBytes n).run' r with ⟨_ | b, r'⟩ <;> rfl
  by_cases h : n ≤ r.remaining
  · have h' : n ≤ ({ r with options := o } : Reader).remaining := h
    simp only [readSlice, ReadM.run'_bind, ensure_ok h, ensure_ok h', ReadM.run'_get]
    obtain ⟨src, pos, size, opts⟩ := r
    cases src with
    | contiguous b => simp only [ReadM.run'_bind, ReadM.run'_set, ReadM.run'_pure]
    | chunked cs i o' =>
      dsimp only
      split
      · split
        · simp only [ReadM.run'_bind, ReadM.run'_set, ReadM.run'_pure]
        · exact hcopy ⟨.chunked cs i o', pos, size, opts⟩
      · exact hcopy ⟨.chunked cs i o', pos, size, opts⟩
  · have h' : ({ r with options := o } : Reader).remaining < n := by
      simp only [remaining] at h ⊢
      omega
    rw [readSlice_run'_short h', readSlice_run'_short (by omega)]
    rfl

end Reader

end WireCodec.Wire
