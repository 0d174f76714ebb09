/-!
# Pooled buffers

Writers take their buffers from a pool of reusable ones, kept in size classes of 256 bytes
to 1 MiB, each four times the one before. A request for at least `n` bytes gets a waiting
buffer of the smallest class that holds `n`, emptied, or else a new buffer of that
class's size; a request larger than every class gets a new buffer of exactly `n` bytes,
which never goes back to the pool. A pooled buffer given back waits in the largest class
it fills, unless it is larger than the largest class or that class already holds 32
buffers; then it is let go.

A buffer is its bytes, the length of the vector, and its capacity, the room it was
allocated with. Growing its length past its capacity enlarges the allocation to fit.
-/

namespace WireCodec.Wire

/-- Capacities of the pool's size classes, smallest first. -/
def sizeClasses : List Nat := [256, 1024, 4096, 16384, 65536, 262144, 1048576]

/-- The largest capacity the pool keeps. -/
def maxPooledSize : Nat := 1048576

/-- The most buffers that wait in one class. -/
def maxBuffersPerClass : Nat := 32

/-- The capacity of class `i`; zero past the last class. -/
def classSize (i : Nat) : Nat := sizeClasses.getD i 0

/-- The smallest class that holds `n` bytes. -/
def rentClass? (n : Nat) : Option Nat := sizeClasses.findIdx? (n ≤ ·)

/-- The largest class that a buffer of `capacity` bytes fills. -/
def returnClass? (capacity : Nat) : Option Nat :=
  ((List.range sizeClasses.length).filter (classSize · ≤ capacity)).getLast?

theorem classSize_le_of_returnClass? {capacity i : Nat} (h : returnClass? capacity = some i) :
    classSize i ≤ capacity := by
  have hmem := List.mem_of_getLast? h
  simpa using (List.mem_filter.mp hmem).2

/-- A buffer: its bytes and its capacity. -/
structure PooledBuffer where
  data : ByteArray
  capacity : Nat
  /-- Whether the buffer goes back to the pool when it is let go. -/
  pooled : Bool
  size_le : data.size ≤ capacity

namespace PooledBuffer

/-- A new empty buffer of the given capacity. -/
def fresh (capacity : Nat) (pooled : Bool) : PooledBuffer :=
  ⟨ByteArray.empty, capacity, pooled, Nat.zero_le _⟩

/-- The buffer holding `data`, its allocation enlarged to fit if it must be. -/
def withData (b : PooledBuffer) (data : ByteArray) : PooledBuffer :=
  ⟨data, max b.capacity data.size, b.pooled, Nat.le_max_right _ _⟩

/-- The buffer cut or padded with zeros to `n` bytes. -/
def resize (b : PooledBuffer) (n : Nat) : PooledBuffer :=
  b.withData ⟨b.data.data.extract 0 n ++ Array.replicate (n - b.data.size) 0⟩

/-- The buffer with `bs` appended. -/
def extend (b : PooledBuffer) (bs : ByteArray) : PooledBuffer :=
  b.withData (b.data ++ bs)

/-- The buffer with `bs` copied over its bytes from `pos`. -/
def write (b : PooledBuffer) (pos : Nat) (bs : ByteArray) : PooledBuffer :=
  b.withData (bs.copySlice 0 b.data pos bs.size)

/-- The buffer's first `n` bytes. -/
def truncate (b : PooledBuffer) (n : Nat) : PooledBuffer :=
  b.withData (b.data.extract 0 n)

@[simp] theorem size_resize (b : PooledBuffer) (n : Nat) : (b.resize n).data.size = n := by
  show (b.data.data.extract 0 n ++ Array.replicate (n - b.data.size) 0).size = n
  have hsize : b.data.size = b.data.data.size := rfl
  rw [Array.size_append, Array.size_extract, Array.size_replicate]
  omega

/-- A copy starting inside the bytes leaves them as long as they were, or as long as the
copy reaches. -/
theorem size_write {b : PooledBuffer} {pos : Nat} (bs : ByteArray) (h : pos ≤ b.data.size) :
    (b.write pos bs).data.size = max b.data.size (pos + bs.size) := by
  show (b.data.data.extract 0 pos ++ bs.data.extract 0 (0 + bs.size) ++
    b.data.data.extract (pos + min bs.size (bs.size - 0)) b.data.data.size).size = _
  have hb : b.data.size = b.data.data.size := rfl
  have hbs : bs.size = bs.data.size := rfl
  rw [Array.size_append, Array.size_append, Array.size_extract, Array.size_extract,
    Array.size_extract]
  omega

end PooledBuffer

/-- The buffers waiting in the pool, by class. -/
structure BufferPool where
  /-- The capacities of the buffers waiting in each class, the one given back last first. -/
  waiting : Nat → List Nat
  /-- A waiting buffer fills its class. -/
  classSize_le : ∀ i c, c ∈ waiting i → classSize i ≤ c

namespace BufferPool

/-- The pool with no buffer waiting. -/
def empty : BufferPool := ⟨fun _ => [], fun _ _ h => absurd h List.not_mem_nil⟩

/-- The pool with the buffer that waited last in class `i` taken out. -/
def take (p : BufferPool) (i : Nat) : BufferPool where
  waiting j := if j = i then (p.waiting i).tail else p.waiting j
  classSize_le j c h := by
    by_cases hj : j = i
    · subst hj
      rw [if_pos rfl] at h
      exact p.classSize_le j c (List.mem_of_mem_tail h)
    · rw [if_neg hj] at h
      exact p.classSize_le j c h

/-- A buffer of at least `n` bytes, and the pool after it is taken. -/
def rent (p : BufferPool) (n : Nat) : PooledBuffer × BufferPool :=
  match rentClass? n with
  | none => (PooledBuffer.fresh n false, p)
  | some i =>
    match p.waiting i with
    | [] => (PooledBuffer.fresh (classSize i) true, p)
    | c :: _ => (PooledBuffer.fresh c true, p.take i)

/-- The pool with a buffer of `capacity` bytes waiting in class `i`, which it fills. -/
def put (p : BufferPool) (i capacity : Nat) (h : classSize i ≤ capacity) : BufferPool where
  waiting j := if j = i then capacity :: p.waiting i else p.waiting j
  classSize_le j c hc := by
    by_cases hj : j = i
    · subst hj
      rw [if_pos rfl, List.mem_cons] at hc
      rcases hc with rfl | hc
      · exact h
      · exact p.classSize_le j c hc
    · rw [if_neg hj] at hc
      exact p.classSize_le j c hc

/-- The pool after a buffer of `capacity` bytes comes back to it. -/
def giveBack (p : BufferPool) (capacity : Nat) : BufferPool :=
  match h : returnClass? capacity with
  | none => p
  | some i =>
    if capacity ≤ maxPooledSize ∧ (p.waiting i).length < maxBuffersPerClass then
      p.put i capacity (classSize_le_of_returnClass? h)
    else p

/-- The pool after the buffer `b` is let go: only a pooled buffer comes back. -/
def release (p : BufferPool) (b : PooledBuffer) : BufferPool :=
  if b.pooled then p.giveBack b.capacity else p

end BufferPool

end WireCodec.Wire
