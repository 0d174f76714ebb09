import Mathlib
import WireCodec.Proofs.Wire.Writes
import WireCodec.Proofs.Wire.Varint
import WireCodec.Wire.Buffered

/-!
# A writer over a pooled buffer holds what the format says

`BufferedWriter.view` forgets the buffer and keeps the committed bytes. Each call on a
writer over a pooled buffer is the same call on `Writer` seen through that view, whatever
the pool holds: growing keeps the committed bytes and leaves a span of the room asked for
(`view_grow`, `room_grow`), in both of its ways, within the capacity or into a rented
buffer, which the pool hands out empty; a write fills the span from its start and commits
what it filled (`view_commit`), and the check of `advance?` passes in every write.

So the format's reference (`WriteOp.reference`) says what such a writer holds after any
calls, from any first capacity and as a frame writer, and every way of handing the bytes
over gives exactly them (`bufferedWriter_holds_reference`).
-/

namespace WireCodec.Wire

namespace PooledBuffer

/-- A copy over the bytes from `pos`: what lies before, the copy, and what lies past it. -/
theorem data_toList_write (b : PooledBuffer) (pos : Nat) (bs : ByteArray) :
    (b.write pos bs).data.data.toList =
      b.data.data.toList.take pos ++ bs.data.toList ++ b.data.data.toList.drop (pos + bs.size) := by
  show (bs.copySlice 0 b.data pos bs.size).data.toList = _
  rw [ByteArray.data_toList_copySlice_of_le (by omega), List.drop_zero,
    List.take_of_length_le (show bs.data.toList.length ≤ bs.size by simp)]

/-- Resizing keeps the bytes it does not cut and pads with zeros. -/
theorem data_toList_resize (b : PooledBuffer) (n : Nat) :
    (b.resize n).data.data.toList = b.data.data.toList.take n ++ List.replicate (n - b.data.size) 0 := by
  show (b.data.data.extract 0 n ++ Array.replicate (n - b.data.size) 0).toList = _
  rw [Array.toList_append, Array.toList_extract, List.extract_eq_take_drop, List.drop_zero,
    Nat.sub_zero, Array.toList_replicate]

theorem take_resize (b : PooledBuffer) {n k : Nat} (hk : k ≤ n) (hsize : k ≤ b.data.size) :
    (b.resize n).data.data.toList.take k = b.data.data.toList.take k := by
  rw [data_toList_resize, List.take_append_of_le_length (by simp; omega), List.take_take,
    Nat.min_eq_left hk]

@[simp] theorem data_extend (b : PooledBuffer) (bs : ByteArray) : (b.extend bs).data = b.data ++ bs :=
  rfl

end PooledBuffer

theorem le_classSize_of_rentClass? {n i : Nat} (h : rentClass? n = some i) : n ≤ classSize i := by
  obtain ⟨hi, hle, -⟩ := List.findIdx?_eq_some_iff_getElem.mp h
  rw [classSize, List.getD_eq_getElem _ _ hi]
  simpa using hle

namespace BufferPool

/-- A rented buffer is empty: a reused one is cleared first. -/
@[simp] theorem data_rent (p : BufferPool) (n : Nat) : (p.rent n).1.data = ByteArray.empty := by
  unfold rent
  split
  · rfl
  · split <;> rfl

/-- A rented buffer holds at least the bytes asked for. -/
theorem le_capacity_rent (p : BufferPool) (n : Nat) : n ≤ (p.rent n).1.capacity := by
  unfold rent
  split
  · exact Nat.le_refl n
  · rename_i i hi
    have hclass := le_classSize_of_rentClass? hi
    split
    · exact hclass
    · rename_i c rest hwait
      exact Nat.le_trans hclass (p.classSize_le i c (by rw [hwait]; exact List.mem_cons_self))

end BufferPool

namespace BufferedWriter

theorem committed_toList (w : BufferedWriter) :
    w.committed.data.toList = w.buffer.data.data.toList.take w.written := by
  simp [committed]

@[simp] theorem size_committed (w : BufferedWriter) : w.committed.size = w.written := by
  rw [committed, ByteArray.size_extract]
  have := w.written_le
  omega

@[simp] theorem len_view (w : BufferedWriter) : w.view.len = w.written := size_committed w

/-- Two writers with the same committed bytes and frame state look the same. -/
theorem view_eq_of {w w' : BufferedWriter}
    (hc : w'.buffer.data.data.toList.take w'.written = w.buffer.data.data.toList.take w.written)
    (hs : w'.start = w.start) (hcm : w'.compressible = w.compressible)
    (hf : w'.finished = w.finished) : w'.view = w.view := by
  simp only [view, hs, hcm, hf, Writer.mk.injEq, and_true]
  exact ByteArray.ext_toList (by rw [committed_toList, committed_toList, hc])

/-! ### Growth -/

section Growth

variable (w : BufferedWriter) (p : BufferPool) (hint : Nat)

@[simp] theorem written_grow : (w.grow p hint).1.written = w.written := by
  unfold grow
  split <;> rfl

/-- Growing keeps the committed bytes, whichever way it goes. -/
theorem view_grow : (w.grow p hint).1.view = w.view := by
  have hle := w.written_le
  unfold grow
  split
  · rename_i hfit
    apply view_eq_of _ (by rfl) (by rfl) (by rfl)
    dsimp only
    exact PooledBuffer.take_resize _ (by omega) hle
  · -- the rented buffer is empty, so the committed bytes start it
    apply view_eq_of _ (by rfl) (by rfl) (by rfl)
    show (((p.rent _).1.extend w.committed).resize (w.written + hint)).data.data.toList.take
      w.written = _
    rw [PooledBuffer.take_resize _ (by omega) (by simp), PooledBuffer.data_extend,
      BufferPool.data_rent, ByteArray.empty_append, ← committed_toList,
      List.take_of_length_le (by simp)]

/-- After growing, the buffer has `hint` bytes after those committed. -/
theorem room_grow : w.written + hint ≤ (w.grow p hint).1.buffer.data.size := by
  unfold grow
  split
  · rename_i hfit
    show w.written + hint ≤ (w.buffer.resize _).data.size
    rw [PooledBuffer.size_resize]
    omega
  · show w.written + hint ≤ (PooledBuffer.resize _ _).data.size
    rw [PooledBuffer.size_resize]

@[simp] theorem written_getSpan : (w.getSpan p hint).1.written = w.written := by
  unfold getSpan
  split
  · exact written_grow _ _ _
  · rfl

theorem view_getSpan : (w.getSpan p hint).1.view = w.view := by
  unfold getSpan
  split
  · exact view_grow _ _ _
  · rfl

/-- A span has the room asked for, and at least one byte. -/
theorem room_getSpan : w.written + max hint 1 ≤ (w.getSpan p hint).1.buffer.data.size := by
  unfold getSpan
  split
  · exact room_grow _ _ _
  · rename_i hroom
    have := w.written_le
    dsimp only
    omega

end Growth

/-! ### Filling and committing -/

section Commit

variable (w : BufferedWriter) (bs : ByteArray)

/-- The check of `advance?` passes after a fill: a write never fails it. -/
theorem advance?_fill : (w.fill bs).advance? bs.size = .ok (w.commit bs) := by
  rw [advance?]
  exact dif_pos (room_fill w bs)

/-- Committing a fill appends the filled bytes to the committed ones. -/
theorem view_commit : (w.commit bs).view = w.view.writeBytes bs := by
  have hle := w.written_le
  simp only [view, Writer.writeBytes, Writer.mk.injEq]
  refine ⟨ByteArray.ext_toList ?_, rfl, rfl, rfl⟩
  rw [committed_toList, ByteArray.data_toList_append, committed_toList]
  show (w.buffer.write w.written bs).data.data.toList.take (w.written + bs.size) = _
  rw [PooledBuffer.data_toList_write]
  apply List.take_left'
  simp only [List.length_append, List.length_take, ByteArray.length_data_toList]
  omega

/-- A fill inside the span leaves the buffer as long as it was. -/
theorem size_commit_of_room (h : w.written + bs.size ≤ w.buffer.data.size) :
    (w.commit bs).buffer.data.size = w.buffer.data.size := by
  show (w.buffer.write w.written bs).data.size = _
  rw [PooledBuffer.size_write bs w.written_le]
  omega

end Commit

/-! ### Calls -/

section Calls

variable (w : BufferedWriter) (p : BufferPool)

theorem view_writeBytes (bs : ByteArray) : (w.writeBytes p bs).1.view = w.view.writeBytes bs := by
  simp only [writeBytes, view_commit, view_getSpan]

theorem view_writeU8 (x : UInt8) : (w.writeU8 p x).1.view = w.view.writeU8 x := by
  rw [writeU8, view_writeBytes, Writer.writeU8_eq]
  rfl

theorem view_writeLE (width n : Nat) : (w.writeLE p width n).1.view = w.view.writeLE width n := by
  rw [writeLE, view_writeBytes]
  rfl

theorem view_writeSigned (width : Nat) (n : Int) :
    (w.writeSigned p width n).1.view = w.view.writeSigned width n := by
  rw [writeSigned, view_writeLE]
  rfl

theorem view_writeBool (b : Bool) : (w.writeBool p b).1.view = w.view.writeBool b := by
  rw [writeBool, view_writeU8]
  rfl

theorem view_writeVarint (v : Nat) : (w.writeVarint p v).1.view = w.view.writeVarint v := by
  simp only [writeVarint, view_commit, view_getSpan]
  rfl

theorem view_writeStr (s : String) : (w.writeStr p s).1.view = w.view.writeStr s := by
  rw [writeStr, view_writeBytes, view_writeVarint]
  rfl

theorem view_writeByteRun (b : ByteArray) : (w.writeByteRun p b).1.view = w.view.writeByteRun b := by
  rw [writeByteRun, view_writeBytes, view_writeVarint]
  rfl

/-- A reservation writes four zero bytes and answers the length before them. -/
theorem view_reserveU32 :
    (w.reserveU32 p).1.1.view = w.view.reserveU32.1 ∧ (w.reserveU32 p).2 = w.view.reserveU32.2 := by
  refine ⟨view_writeLE w p 4 0, ?_⟩
  rw [reserveU32, Writer.reserveU32, len_view]

/-- A patch of committed bytes is the patch of the view; both refuse the others. -/
theorem map_view_patchU32? (pos value : Nat) :
    (w.patchU32? pos value).map view = w.view.patchU32? pos value := by
  have hle := w.written_le
  have hbytes := Writer.patchU32?_bytes w.view pos value
  rw [show w.view.bytes.size = w.written from size_committed w] at hbytes
  unfold patchU32?
  split
  · rename_i hfit
    rw [if_pos hfit] at hbytes
    obtain ⟨w', hw', hlist⟩ := Option.map_eq_some_iff.mp hbytes
    rw [hw', Option.map_some]
    have hfields : w' = { w.view with bytes := w'.bytes } :=
      @WriteOp.apply_only_bytes (.patchU32 pos value) w.view w' none
        (by rw [WriteOp.apply, hw', Option.map_some])
    rw [hfields]
    simp only [view, Option.some.injEq, Writer.mk.injEq, and_true]
    apply ByteArray.ext_toList
    rw [hlist, committed_toList, show w.view.bytes = w.committed from rfl, committed_toList]
    show (w.buffer.write pos (Writer.leBytes value 4)).data.data.toList.take w.written = _
    have hfour : (Writer.leBytes value 4).size = 4 := by
      rw [← ByteArray.length_data_toList, Writer.length_leBytes]
    have hlength : (littleEndian value 4).length = 4 := by simp [littleEndian]
    -- past the four patched bytes both sides keep the committed bytes that follow
    rw [PooledBuffer.data_toList_write, hfour, Writer.leBytes_eq_littleEndian, List.take_append,
      List.take_of_length_le (by simp [hlength]; omega), List.take_take, Nat.min_eq_left (by omega),
      List.drop_take]
    simp only [List.length_append, List.length_take, ByteArray.length_data_toList, hlength]
    congr 3
    omega
  · rename_i hfit
    rw [if_neg hfit, Option.map_eq_none_iff] at hbytes
    rw [hbytes, Option.map_none]

/-- A frame holds the flag of a compressed frame and then the block copied after it. -/
theorem take_lz4Frame_write (b : PooledBuffer) (bound : Nat) (block : ByteArray) :
    ((lz4Frame b bound).write 1 block).data.data.toList.take (block.size + 1) =
      flagLz4 :: block.data.toList := by
  have hflag : (lz4Frame b bound).data.data.toList.take 1 = [flagLz4] := by
    rw [lz4Frame, PooledBuffer.data_toList_write, List.take_zero, List.nil_append,
      List.take_append_of_le_length (by simp)]
    rfl
  rw [PooledBuffer.data_toList_write, hflag, List.take_left' (by simp)]
  rfl

@[simp] theorem committed_lz4Frame_write (b : PooledBuffer) (bound : Nat) (block : ByteArray)
    (start : Nat) (compressible finished : Bool) (h) :
    (⟨(lz4Frame b bound).write 1 block, block.size + 1, start, compressible, finished, h⟩ :
      BufferedWriter).committed = ByteArray.empty.push flagLz4 ++ block := by
  apply ByteArray.ext_toList
  rw [committed_toList, ByteArray.data_toList_append, ByteArray.data_toList_push]
  exact take_lz4Frame_write b bound block

@[simp] theorem committed_finished (w : BufferedWriter) :
    ({ w with finished := true } : BufferedWriter).committed = w.committed := rfl

/-- Compressing compresses the committed payload and answers as the view does; the frame
it writes into is rented, and the buffer not kept goes back to the pool. -/
theorem view_compressLz4 (o : CompressionOptions) :
    ((w.compressLz4 p o).1.1.view, (w.compressLz4 p o).2) = w.view.compressLz4 o := by
  -- the payload and its bytes, as each side computes them once it is finished
  have hplain : ({ w with finished := true } : BufferedWriter).payloadLen = w.written - w.start :=
    rfl
  have hplain' : (⟨w.view.bytes, w.view.start, w.view.compressible, true⟩ : Writer).payloadLen =
      w.written - w.start := by
    rw [Writer.payloadLen, show w.view.bytes = w.committed from rfl, size_committed]
    rfl
  have hsrc : w.view.bytes.extract 1 w.view.bytes.size = w.buffer.data.extract 1 w.written := by
    rw [show w.view.bytes = w.committed from rfl, size_committed, committed,
      ByteArray.extract_extract]
    simp
  unfold compressLz4 Writer.compressLz4
  by_cases hclosed : (!w.compressible || w.finished) = true
  · rw [if_pos hclosed, if_pos (show (!w.view.compressible || w.view.finished) = true from hclosed)]
  · rw [if_neg hclosed, if_neg (show ¬(!w.view.compressible || w.view.finished) = true from hclosed)]
    dsimp only
    simp only [hplain, hplain', hsrc]
    by_cases hsmall : w.written - w.start < max o.minCompressSize 1
    · rw [if_pos hsmall, if_pos hsmall]
      rfl
    · rw [if_neg hsmall, if_neg hsmall]
      by_cases hbound : Lz4.compressBound (w.written - w.start) = 0
      · rw [if_pos hbound, if_pos hbound]
        rfl
      · rw [if_neg hbound, if_neg hbound]
        -- both sides compress the same payload with the encoder the options choose; a
        -- failure leaves the payload stored, and a block replaces it, behind the flag, when
        -- it is shorter
        cases o.mode with
        | fast acceleration =>
          dsimp only
          generalize Lz4.compressFast .bits64 (w.buffer.data.extract 1 w.written)
            (Lz4.compressBound (w.written - w.start)) acceleration = r
          cases r with
          | error e => rfl
          | ok block =>
            dsimp only
            split <;> simp only [view, committed_lz4Frame_write, committed_finished]
        | high level =>
          dsimp only
          generalize Lz4.compressHC .bits64 (w.buffer.data.extract 1 w.written)
            (Lz4.compressBound (w.written - w.start)) level = r
          cases r with
          | error e => rfl
          | ok block =>
            dsimp only
            split <;> simp only [view, committed_lz4Frame_write, committed_finished]

end Calls

/-! ### Starting and handing over -/

/-- A new writer has committed nothing. -/
theorem view_withCapacity (p : BufferPool) (capacity : Nat) :
    (withCapacity p capacity).1.view = Writer.empty := by
  simp only [view, withCapacity, Writer.empty, Writer.mk.injEq, and_true]
  apply ByteArray.ext_toList
  rw [committed_toList]
  rfl

/-- A frame writer has committed the flag byte of a stored frame, and its payload starts
after it. -/
theorem view_framed (p : BufferPool) (capacity : Nat) :
    (framed p capacity).1.view = Writer.framed := by
  have hflag := view_writeU8
    { (withCapacity p (Codec.satAdd capacity 1)).1 with compressible := true }
    (withCapacity p (Codec.satAdd capacity 1)).2 flagStored
  have hstart : ({ (withCapacity p (Codec.satAdd capacity 1)).1 with compressible := true } :
      BufferedWriter).view = { Writer.empty with compressible := true } := by
    rw [← view_withCapacity p (Codec.satAdd capacity 1)]
    rfl
  rw [hstart] at hflag
  show { (({ (withCapacity p (Codec.satAdd capacity 1)).1 with compressible := true } :
    BufferedWriter).writeU8 (withCapacity p (Codec.satAdd capacity 1)).2 flagStored).1.view with
      start := 1 } = _
  rw [hflag]
  rfl

theorem intoVec_fst (w : BufferedWriter) (p : BufferPool) : (w.intoVec p).1 = w.committed := by
  unfold intoVec
  split <;> rfl

/-- Handing the bytes over in a representation gives the committed bytes converted to it,
whether the vector was copied or the buffer detached. -/
theorem into_eq_convert (w : BufferedWriter) (p : BufferPool) (rep : Representation) :
    (w.into p rep).1 = (Carrier.slice w.committed).convert rep := by
  cases rep <;> simp only [into, intoVec_fst] <;> rfl

end BufferedWriter

namespace WriteOp

/-- A call made on a writer over a pooled buffer, with the pool it rents from: the writer
and the pool after it and what it answers, or `none` for a patch of bytes not committed. -/
def applyBuffered :
    WriteOp → BufferedWriter × BufferPool → Option ((BufferedWriter × BufferPool) × Option Nat)
  | bytes b, s => some (s.1.writeBytes s.2 b, none)
  | u8 x, s => some (s.1.writeU8 s.2 x, none)
  | bool b, s => some (s.1.writeBool s.2 b, none)
  | unsigned width n, s => some (s.1.writeLE s.2 width n, none)
  | signed width n, s => some (s.1.writeSigned s.2 width n, none)
  | varint v, s => some (s.1.writeVarint s.2 v, none)
  | str t, s => some (s.1.writeStr s.2 t, none)
  | byteRun b, s => some (s.1.writeByteRun s.2 b, none)
  | reserveU32, s => some ((s.1.reserveU32 s.2).1, some (s.1.reserveU32 s.2).2)
  | patchU32 pos value, s => (s.1.patchU32? pos value).map fun w => ((w, s.2), none)

/-- The calls made in order on a writer over a pooled buffer, with their answers; `none`
once a call fails. -/
def runBuffered :
    List WriteOp → BufferedWriter × BufferPool →
      Option ((BufferedWriter × BufferPool) × List (Option Nat))
  | [], s => some (s, [])
  | op :: ops, s =>
    (op.applyBuffered s).bind fun q => (runBuffered ops q.1).map fun r => (r.1, q.2 :: r.2)

/-- A writer over a pooled buffer seen as the writer of its committed bytes, with the
answer of the call that left it. -/
def seen {γ : Type} (r : (BufferedWriter × BufferPool) × γ) : Writer × γ := (r.1.1.view, r.2)

/-- One call on a writer over a pooled buffer is the call on its view. -/
theorem applyBuffered_seen (op : WriteOp) (s : BufferedWriter × BufferPool) :
    (op.applyBuffered s).map seen = op.apply s.1.view := by
  cases op with
  | bytes b => simp [applyBuffered, apply, seen, BufferedWriter.view_writeBytes]
  | u8 x => simp [applyBuffered, apply, seen, BufferedWriter.view_writeU8]
  | bool b => simp [applyBuffered, apply, seen, BufferedWriter.view_writeBool]
  | unsigned width n => simp [applyBuffered, apply, seen, BufferedWriter.view_writeLE]
  | signed width n => simp [applyBuffered, apply, seen, BufferedWriter.view_writeSigned]
  | varint v => simp [applyBuffered, apply, seen, BufferedWriter.view_writeVarint]
  | str t => simp [applyBuffered, apply, seen, BufferedWriter.view_writeStr]
  | byteRun b => simp [applyBuffered, apply, seen, BufferedWriter.view_writeByteRun]
  | reserveU32 =>
    obtain ⟨hview, hanswer⟩ := BufferedWriter.view_reserveU32 s.1 s.2
    simp [applyBuffered, apply, seen, hview, hanswer]
  | patchU32 pos value =>
    rw [applyBuffered, apply, ← BufferedWriter.map_view_patchU32?, Option.map_map, Option.map_map]
    rfl

/-- Calls on a writer over a pooled buffer are the calls on its view. -/
theorem runBuffered_seen : ∀ (ops : List WriteOp) (s : BufferedWriter × BufferPool),
    (runBuffered ops s).map seen = runAll ops s.1.view
  | [], s => rfl
  | op :: ops, s => by
    rw [runBuffered, runAll, ← applyBuffered_seen]
    cases op.applyBuffered s with
    | none => rfl
    | some q =>
      simp only [Option.bind_some, Option.map_some, Option.map_map]
      rw [show (seen q).1 = q.1.1.view from rfl, ← runBuffered_seen ops q.1, Option.map_map]
      rfl

/-- A call other than a patch keeps the bytes committed before it. -/
theorem committed_prefix_applyBuffered {op : WriteOp} (hop : ∀ pos value, op ≠ .patchU32 pos value)
    {s r : BufferedWriter × BufferPool} {a : Option Nat} (h : op.applyBuffered s = some (r, a)) :
    s.1.committed.data.toList <+: r.1.committed.data.toList := by
  have hseen := applyBuffered_seen op s
  rw [h, Option.map_some] at hseen
  exact bytes_prefix_apply hop hseen.symm

end WriteOp

open BufferedWriter in
/-- A writer over a pooled buffer holds the bytes the format says, whatever the pool holds
and whatever capacity it starts with (`BufferedWriter.new` starts with `minSpan`). From the
start, plain or as a frame writer holding the flag byte of a stored frame, any calls leave
committed the bytes the reference writes, with the same answers, and fail exactly where it
fails; a run that succeeds leaves a writer whose length is that of its bytes, whose payload is
all of them but the flag byte of a frame, and which, handed over in any representation, gives
exactly those bytes. Growing, within the capacity or into a rented buffer, keeps the committed
bytes and leaves the span asked for; every call other than a patch keeps the bytes committed
before it. -/
theorem bufferedWriter_holds_reference (framed : Bool) (p : BufferPool) (capacity : Nat)
    (ops : List WriteOp) :
    (WriteOp.runBuffered ops (if framed then BufferedWriter.framed p capacity
        else withCapacity p capacity)).map (fun r => (r.1.1.committed.data.toList, r.2)) =
        WriteOp.reference ops (if framed then [flagStored] else []) ∧
      (∀ s as, WriteOp.runBuffered ops (if framed then BufferedWriter.framed p capacity
          else withCapacity p capacity) = some (s, as) →
        s.1.len = s.1.committed.size ∧ s.1.payloadLen = s.1.len - (if framed then 1 else 0) ∧
          ∀ rep, (s.1.into s.2 rep).1.flatten = s.1.committed) ∧
      (∀ (w : BufferedWriter) (q : BufferPool) (hint : Nat),
        (w.getSpan q hint).1.committed = w.committed ∧
          w.written + max hint 1 ≤ (w.getSpan q hint).1.buffer.data.size) ∧
      ∀ (op : WriteOp) (s r : BufferedWriter × BufferPool) (a : Option Nat),
        (∀ pos value, op ≠ .patchU32 pos value) → op.applyBuffered s = some (r, a) →
          s.1.committed.data.toList <+: r.1.committed.data.toList := by
  have hstart : (if framed then BufferedWriter.framed p capacity
      else withCapacity p capacity).1.view = if framed then Writer.framed else Writer.empty := by
    cases framed
    · exact view_withCapacity p capacity
    · exact view_framed p capacity
  have hseen := WriteOp.runBuffered_seen ops
    (if framed then BufferedWriter.framed p capacity else withCapacity p capacity)
  rw [hstart] at hseen
  obtain ⟨href, hrun, -⟩ := writer_holds_reference framed ops
  refine ⟨?_, fun s as h => ⟨(size_committed s.1).symm, ?_, fun rep => ?_⟩,
    fun w q hint => ⟨congrArg Writer.bytes (view_getSpan w q hint), room_getSpan w q hint⟩,
    fun op s r a hop h => WriteOp.committed_prefix_applyBuffered hop h⟩
  · rw [← href, ← hseen, Option.map_map]
    rfl
  · -- the view's payload is the writer's, and calls never move where it starts
    have hview := (hrun s.1.view as (by rw [← hseen, h]; rfl)).2.2.1
    rwa [Writer.payloadLen, Writer.len, show s.1.view.bytes = s.1.committed from rfl,
      size_committed] at hview
  · rw [into_eq_convert, Carrier.flatten_convert]
    rfl

end WireCodec.Wire
