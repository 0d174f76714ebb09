import WireCodec.Proofs.Codec.Safety

/-!
# Calls on a reader

A client takes a value apart call by call: it fills buffers, takes slices, skips, reads
integers of fixed width, booleans, varints, counts, strings and byte runs (`ReadOp`). A call
answers with what it read (`Answer`); a slice answers with its bytes, whether they were
borrowed from the source or gathered into a copy.

A reader over chunks is a reader over the chunks joined, call for call. From the same
options, every sequence of calls gets the same answers or the same errors with the same
fields, and leaves the two readers at the same position with the same bytes left, from the
first call to the last (`ofChunks_refines_ofBytes`). All along, the chunk cursor accounts
for exactly the bytes read and stays inside the chunk it points at, so no call takes a byte
from past the last chunk. Every call is built from the byte reads, so both facts come from
the two properties every such read has: it sees only the view of its reader (`Oblivious`)
and keeps a sound reader sound (`Safe`).
-/

namespace WireCodec.Wire

/-- What a call on a reader returns. -/
inductive Answer where
  | bytes (b : ByteArray)
  | nat (n : Nat)
  | int (n : Int)
  | bool (b : Bool)
  | text (s : String)
  | done

/-- A call on a reader. -/
inductive ReadOp where
  /-- Fills a buffer of `n` bytes; an array of `n` bytes is read so too. -/
  | bytes (n : Nat)
  /-- Takes `n` bytes, borrowed from the source where its layout allows. -/
  | slice (n : Nat)
  | skip (n : Nat)
  | u8
  /-- An unsigned little-endian integer of `width` bytes; a float is read as its bits. -/
  | unsigned (width : Nat)
  | signed (width : Nat)
  | bool
  /-- A varint; a length is read so too. -/
  | varint
  /-- The element count of the collection `name`, checked against the cap. -/
  | count (name : String)
  | string
  | byteRun

namespace ReadOp

/-- The read a call makes. -/
def run : ReadOp → ReadM Answer
  | bytes n => return .bytes (← Reader.readBytes n)
  | slice n => return .bytes (← Reader.readSlice n).1
  | skip n => do Reader.skip n; return .done
  | u8 => return .nat (← Reader.readU8)
  | unsigned width => return .nat (← Reader.readLE width)
  | signed width => return .int (← Reader.readSigned width)
  | bool => return .bool (← Reader.readBool)
  | varint => return .nat (← Reader.readVarint)
  | count name => return .nat (← Reader.readCount name)
  | string => return .text (← Reader.readString)
  | byteRun => return .bytes (← Reader.readByteRun).1

/-- The reader after the calls, made in order. -/
def after : List ReadOp → Reader → Reader
  | [], r => r
  | op :: ops, r => after ops (op.run.run' r).2

/-- What each call returns, with the position, the bytes left and the length of the view
after it. -/
def trace : List ReadOp → Reader → List (Except DecodeError Answer × Nat × Nat × Nat)
  | [], _ => []
  | op :: ops, r =>
    ((op.run.run' r).1, (op.run.run' r).2.position, (op.run.run' r).2.remaining,
      (op.run.run' r).2.size) :: trace ops (op.run.run' r).2

/-- Every call is built from the byte reads, so it has every property closed under the ways
reads are built. -/
theorem run_closed {P : ∀ {α : Type}, ReadM α → Prop} (hP : Closed P) : ∀ op : ReadOp, P op.run
  | bytes n => hP.map _ (hP.readBytes n)
  | slice n => hP.readSlice_bind n (fun _ => hP.pure _) fun p q h => by rw [h]
  | skip n => hP.bind (hP.readSlice_bind n (fun _ => hP.pure _) fun _ _ _ => rfl) fun _ => hP.pure _
  | u8 => hP.map _ hP.readU8
  | unsigned width => hP.map _ (hP.readLE width)
  | signed width => hP.map _ (hP.map _ (hP.readLE width))
  | bool => hP.map _ hP.readBool
  | varint => hP.map _ hP.readVarint
  | count name => hP.map _ (hP.readCount name)
  | string => hP.map _ hP.readString
  | byteRun => hP.readByteRun_bind (fun _ => hP.pure _) fun p q h => by rw [h]

/-- Readers that show the same view and force the same kind answer every sequence of calls
alike, and show the same counters after each call. -/
theorem trace_eq_of_agree : ∀ (ops : List ReadOp) {r₁ r₂ : Reader}, r₁.Agree r₂ →
    trace ops r₁ = trace ops r₂
  | [], _, _, _ => rfl
  | op :: ops, r₁, r₂, h => by
    -- one call: the same answer, and readers that agree again
    obtain ⟨hres, hafter⟩ := run_closed Codec.oblivious_closed.toClosed op r₁ r₂ h
    have hsize : (op.run.run' r₁).2.size = (op.run.run' r₂).2.size := congrArg View.size hafter.1
    rw [trace, trace, hres, Reader.position_eq_of_view hafter.1,
      Reader.remaining_eq_of_view hafter.1, hsize, trace_eq_of_agree ops hafter]

/-- Calls keep a sound reader sound. -/
theorem after_sound : ∀ (ops : List ReadOp) {r : Reader}, r.Sound → (after ops r).Sound
  | [], _, hs => hs
  | op :: ops, r, hs => after_sound ops (run_closed Codec.safe_closed.toClosed op r hs).1

end ReadOp

/-- A reader over chunks, under any options, is a reader over the chunks joined, call for
call: the two show the same position, bytes left and length at the start; every sequence of
calls gets the same answers, or the same errors with the same fields, and leaves them with
the same position, bytes left and length after each call; and the chunked reader stays
sound after every prefix of the calls, its chunk cursor inside the chunk it points at and
accounting for exactly the bytes read. -/
theorem ofChunks_refines_ofBytes (cs : List ByteArray) (o : Option DecodeOptions)
    (ops : List ReadOp) :
    ((Reader.ofChunks cs.toArray).mergeOptions o).position =
        ((Reader.ofBytes (Carrier.sequence cs).flatten).mergeOptions o).position ∧
      ((Reader.ofChunks cs.toArray).mergeOptions o).remaining =
        ((Reader.ofBytes (Carrier.sequence cs).flatten).mergeOptions o).remaining ∧
      ((Reader.ofChunks cs.toArray).mergeOptions o).size =
        ((Reader.ofBytes (Carrier.sequence cs).flatten).mergeOptions o).size ∧
      ReadOp.trace ops ((Reader.ofChunks cs.toArray).mergeOptions o) =
        ReadOp.trace ops ((Reader.ofBytes (Carrier.sequence cs).flatten).mergeOptions o) ∧
      ∀ k, (ReadOp.after (ops.take k) ((Reader.ofChunks cs.toArray).mergeOptions o)).Sound := by
  have hagree := (Carrier.ofChunks_agree cs).mergeOptions o
  have hsound := (Reader.sound_ofChunks cs).mergeOptions o
  exact ⟨Reader.position_eq_of_view hagree.1, Reader.remaining_eq_of_view hagree.1,
    congrArg View.size hagree.1, ReadOp.trace_eq_of_agree ops hagree,
    fun k => ReadOp.after_sound (ops.take k) hsound⟩

end WireCodec.Wire
