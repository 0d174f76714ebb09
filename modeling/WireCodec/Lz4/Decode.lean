import WireCodec.Lz4.Basic
import WireCodec.Lz4.Error

/-!
# Decoding a block

`decompressBlock src out start` decodes a block into the buffer `out` from position
`start` on, in place. The bytes before `start` are history that back-references may reach
(a dictionary, or nothing). Every read of the block and every write of the output is
checked before it happens; the first violation names its position:

* a block that ends inside a token, an extension, a literal run or an offset is
  `truncatedInput` at the position where bytes were missing;
* an offset of zero, or one reaching before the start of the buffer, is
  `offsetOutOfRange`, at the output position counted from `start`;
* output beyond the end of the buffer is `outputOverflow` at the position where it would
  start.

A block ends when a literal run ends exactly at its last byte. Literals are copied from the
block in one piece. A match no longer than its offset is copied from `offset` bytes back in
one piece too; a longer one reaches into its own bytes, and is copied in chunks of at most
`offset` bytes, each read from bytes already in place, so that it repeats the last
`offset` bytes before it.
-/

namespace WireCodec.Lz4

/-- Reads a length extension at `ip` and adds it to `len`: bytes of 255 continue it and
the first smaller byte ends it. Returns the position after it and the length. -/
def readExtension (src : ByteArray) (ip len : Nat) : Except Error (Nat × Nat) :=
  if h : ip < src.size then
    if src[ip] = 255 then readExtension src (ip + 1) (len + 255)
    else .ok (ip + 1, len + src[ip].toNat)
  else .error (.truncatedInput ip)
termination_by src.size - ip

theorem lt_of_readExtension {src : ByteArray} {ip len : Nat} {r : Nat × Nat}
    (h : readExtension src ip len = .ok r) : ip < r.1 := by
  fun_induction readExtension src ip len with
  | case1 ip len _ _ ih => have := ih h; omega
  | case2 => simp only [Except.ok.injEq] at h; subst h; simp
  | case3 => simp at h

/-- Reads the literal length of a token, with its extension. -/
def literalLength (src : ByteArray) (ip : Nat) (token : UInt8) : Except Error (Nat × Nat) :=
  if token >>> 4 = 15 then readExtension src ip 15 else .ok (ip, (token >>> 4).toNat)

/-- Reads the match length of a token, with its extension, minimum included. -/
def matchLength (src : ByteArray) (ip : Nat) (token : UInt8) : Except Error (Nat × Nat) :=
  if token &&& 15 = 15 then (readExtension src ip 15).map fun (ip, n) => (ip, n + minMatch)
  else .ok (ip, (token &&& 15).toNat + minMatch)

theorem le_of_literalLength {src : ByteArray} {ip : Nat} {token : UInt8} {r : Nat × Nat}
    (h : literalLength src ip token = .ok r) : ip ≤ r.1 := by
  unfold literalLength at h
  split at h
  · exact Nat.le_of_lt (lt_of_readExtension h)
  · simp only [Except.ok.injEq] at h; subst h; simp

theorem le_of_matchLength {src : ByteArray} {ip : Nat} {token : UInt8} {r : Nat × Nat}
    (h : matchLength src ip token = .ok r) : ip ≤ r.1 := by
  unfold matchLength at h
  split at h
  · cases he : readExtension src ip 15 with
    | error e => simp [he, Except.map] at h
    | ok p =>
      simp only [he, Except.map, Except.ok.injEq] at h
      subst h
      exact Nat.le_of_lt (lt_of_readExtension (r := p) he)
  · simp only [Except.ok.injEq] at h; subst h; simp

/-- The `len` bytes of `buf` from `src` written over those from `dst`, all read before any
is written, so that the two ranges may overlap. -/
def copyWithin (buf : ByteArray) (src dst len : Nat) : ByteArray :=
  buf.copySlice src buf dst len

/-- The chunked copy of a match of `len` bytes to `op` from `back`, `offset` bytes before
it, once `copied` of its bytes are in place: each chunk is at most `offset` bytes, so it
reads only bytes already written. -/
def copyChunks (buf : ByteArray) (back op offset len copied : Nat) (hoff : 0 < offset) :
    ByteArray :=
  if copied < len then
    let chunk := min offset (len - copied)
    copyChunks (copyWithin buf (back + copied) (op + copied) chunk) back op offset len
      (copied + chunk) hoff
  else buf
termination_by len - copied
decreasing_by omega

/-- Writes a match of `len` bytes at `op`, copied from `offset` bytes back: in one piece when
it does not reach its own bytes, in chunks otherwise. -/
def copyMatchAt (buf : ByteArray) (op offset len : Nat) (hoff : 0 < offset) : ByteArray :=
  let back := op - offset
  if len ≤ offset then copyWithin buf back op len
  else copyChunks buf back op offset len 0 hoff

/-- Decodes the sequences of `src` from `ip` on into `out` from `op` on; `start` is where the
block's output began. Returns the buffer with the number of bytes produced, or with the
first fault. -/
def decodeInPlace (src : ByteArray) (start ip op : Nat) (out : ByteArray) :
    ByteArray × Except Error Nat :=
  if h : ip < src.size then
    let token := src[ip]
    match hl : literalLength src (ip + 1) token with
    | .error e => (out, .error e)
    | .ok (ip₁, lit) =>
      if src.size < ip₁ + lit then (out, .error (.truncatedInput ip₁))
      else if out.size < op + lit then (out, .error (.outputOverflow op))
      else
        let out := src.copySlice ip₁ out op lit
        let ip₂ := ip₁ + lit
        let op := op + lit
        if ip₂ = src.size then (out, .ok (op - start))
        else if src.size < ip₂ + 2 then (out, .error (.truncatedInput ip₂))
        else
          let offset := (src.get! ip₂).toNat + (src.get! (ip₂ + 1)).toNat * 256
          if hoff : offset = 0 ∨ op < offset then
            (out, .error (.offsetOutOfRange offset (op - start)))
          else
            match hm : matchLength src (ip₂ + 2) token with
            | .error e => (out, .error e)
            | .ok (ip₃, len) =>
              if out.size < op + len then (out, .error (.outputOverflow op))
              else decodeInPlace src start ip₃ (op + len) (copyMatchAt out op offset len (by omega))
  else (out, .error (.truncatedInput ip))
termination_by src.size - ip
decreasing_by
  have h₁ := le_of_literalLength hl
  have h₃ := le_of_matchLength hm
  simp only at h₁ h₃
  omega

/-- Decodes one block into `out` from `start` on. Returns the buffer with the number of
bytes produced, or with the first fault. -/
def decompressBlock (src out : ByteArray) (start : Nat) : ByteArray × Except Error Nat :=
  if out.size < start then (out, .error (.outputOverflow start))
  else decodeInPlace src start 0 start out

/-- A destination of `capacity` zero bytes. -/
def zeros (capacity : Nat) : ByteArray :=
  ⟨Array.replicate capacity 0⟩

/-- Decodes a block into a destination of `capacity` bytes and returns the bytes it
describes. -/
def decompress (src : ByteArray) (capacity : Nat) : Except Error ByteArray :=
  let r := decompressBlock src (zeros capacity) 0
  r.2.map fun k => r.1.extract 0 k

/-- Decodes a block that must fill its destination of `capacity` bytes exactly. -/
def decompressExact (src : ByteArray) (capacity : Nat) : Except Error ByteArray := do
  let out ← decompress src capacity
  if out.size = capacity then .ok out else .error (.lengthMismatch capacity out.size)

/-- Decodes a block whose back-references may reach into the last `dictionarySize` bytes
of `dict`, in a window holding that history followed by the destination. Output positions
in errors count from the end of the history. -/
def decompressWithDict (src dict : ByteArray) (capacity : Nat) : Except Error ByteArray :=
  let history := dict.extract (dict.size - dictionarySize) dict.size
  if history.size = 0 then decompress src capacity
  else
    let r := decompressBlock src (history ++ zeros capacity) history.size
    r.2.map fun k => r.1.extract history.size (history.size + k)

end WireCodec.Lz4
