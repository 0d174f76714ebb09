import Mathlib
import WireCodec.Proofs.Lz4.CheckedReads
import WireCodec.Proofs.Lz4.InPlace

/-!
# Decoding a block never faults

The model decodes with natural numbers, reads bytes with `ByteArray.get!` and copies with
`ByteArray.copySlice`, none of which can fail. On the machine a position or a length is a
word of 64 bits, an addition past the largest word overflows, a subtraction below zero
underflows, and a read or a copy outside its array is out of range. `decodeInPlace?` runs
the decoder with each of these operations checked, `none` standing for the fault: the
additions `checkedAdd`, the subtractions `checkedSub`, the reads `byteAt?` and the copies
`copySlice?` and `copyWithin?`. A length extension is summed with a check that the format
itself reports as `truncatedInput`.

For a block of fewer than `2 ^ 56` bytes no fault happens (`decompressBlock?_eq`): every
position stays within the block or the buffer, and a length is at most `255` for each byte
of the block read so far, so it stays far below the largest word. The main statement,
`decompressBlock_eq_reference`, adds what the decoder computes: the buffer keeps its length
and its history, and a block decodes exactly when its reference output fits the buffer.
-/

namespace WireCodec.Lz4

/-- `a + b`, or a fault when the sum passes the largest machine word. -/
def checkedAdd (a b : Nat) : Option Nat :=
  if a + b < 2 ^ 64 then some (a + b) else none

/-- `len` bytes of `src` from `s` written over `dest` from `d`, or a fault unless both ranges
lie in their arrays. -/
def copySlice? (src : ByteArray) (s : Nat) (dest : ByteArray) (d len : Nat) : Option ByteArray :=
  if s + len ≤ src.size ∧ d + len ≤ dest.size then some (src.copySlice s dest d len) else none

/-- The bytes of `buf` in `[s, e)` written from `d`, or a fault unless both ranges lie in the
buffer. -/
def copyWithin? (buf : ByteArray) (s e d : Nat) : Option ByteArray :=
  if s ≤ e ∧ e ≤ buf.size ∧ d + (e - s) ≤ buf.size then some (copyWithin buf s d (e - s))
  else none

theorem checkedAdd_of_lt {a b : Nat} (h : a + b < 2 ^ 64) : checkedAdd a b = some (a + b) :=
  if_pos h

theorem copySlice?_of_le {src dest : ByteArray} {s d len : Nat} (hs : s + len ≤ src.size)
    (hd : d + len ≤ dest.size) : copySlice? src s dest d len = some (src.copySlice s dest d len) :=
  if_pos ⟨hs, hd⟩

theorem copyWithin?_of_le {buf : ByteArray} {s d len : Nat} (hs : s + len ≤ buf.size)
    (hd : d + len ≤ buf.size) : copyWithin? buf s (s + len) d = some (copyWithin buf s d len) := by
  rw [copyWithin?, if_pos ⟨by omega, hs, by omega⟩, Nat.add_sub_cancel_left]

/-! ## Lengths -/

/-- A length extension read with every step checked: the position steps past each byte as a
machine word, and a sum past the largest word ends the read as `truncatedInput`. -/
def readExtension? (src : ByteArray) (ip len : Nat) : Option (Except Error (Nat × Nat)) :=
  if h : ip < src.size then
    if ip + 1 < 2 ^ 64 then
      if len + src[ip].toNat < 2 ^ 64 then
        if src[ip] = 255 then readExtension? src (ip + 1) (len + 255)
        else some (.ok (ip + 1, len + src[ip].toNat))
      else some (.error (.truncatedInput (ip + 1)))
    else none
  else some (.error (.truncatedInput ip))
termination_by src.size - ip

theorem lt_of_readExtension? {src : ByteArray} {ip len : Nat} {r : Nat × Nat}
    (h : readExtension? src ip len = some (.ok r)) : ip < r.1 := by
  fun_induction readExtension? src ip len with
  | case1 ip len _ _ _ _ ih => have := ih h; omega
  | case2 => simp only [Option.some.injEq, Except.ok.injEq] at h; subst h; simp
  | case3 | case4 | case5 => simp at h

/-- The literal length of a token, its extension read with checks. -/
def literalLength? (src : ByteArray) (ip : Nat) (token : UInt8) :
    Option (Except Error (Nat × Nat)) :=
  if token >>> 4 = 15 then readExtension? src ip 15 else some (.ok (ip, (token >>> 4).toNat))

/-- The match length of a token, its extension read with checks and the minimum added as a
machine word. -/
def matchLength? (src : ByteArray) (ip : Nat) (token : UInt8) :
    Option (Except Error (Nat × Nat)) :=
  (if token &&& 15 = 15 then readExtension? src ip 15 else some (.ok (ip, (token &&& 15).toNat))).bind
    fun r => match r with
      | .error e => some (.error e)
      | .ok (ip, n) => (checkedAdd n minMatch).map fun len => .ok (ip, len)

theorem le_of_literalLength? {src : ByteArray} {ip : Nat} {token : UInt8} {r : Nat × Nat}
    (h : literalLength? src ip token = some (.ok r)) : ip ≤ r.1 := by
  unfold literalLength? at h
  split at h
  · exact Nat.le_of_lt (lt_of_readExtension? h)
  · simp only [Option.some.injEq, Except.ok.injEq] at h; subst h; simp

theorem le_of_matchLength? {src : ByteArray} {ip : Nat} {token : UInt8} {r : Nat × Nat}
    (h : matchLength? src ip token = some (.ok r)) : ip ≤ r.1 := by
  unfold matchLength? at h
  obtain ⟨r₀, hr₀, h⟩ := Option.bind_eq_some_iff.mp h
  cases r₀ with
  | error e => cases h
  | ok p =>
    obtain ⟨len, -, hr⟩ := Option.map_eq_some_iff.mp h
    cases hr
    show ip ≤ p.1
    split at hr₀
    · exact Nat.le_of_lt (lt_of_readExtension? hr₀)
    · simp only [Option.some.injEq, Except.ok.injEq] at hr₀; subst hr₀; simp

section Lengths

variable {src : ByteArray}

/-- An extension started with `len` at most `255` a byte ends with a length of at most `255`
a byte, at a position within the block. -/
theorem readExtension_bound {ip len : Nat} {r : Nat × Nat} (h : readExtension src ip len = .ok r)
    (hlen : len ≤ 255 * ip + 15) : r.2 ≤ 255 * r.1 + 15 ∧ r.1 ≤ src.size := by
  fun_induction readExtension src ip len with
  | case1 ip len _ _ ih => exact ih h (by omega)
  | case2 ip len hip _ =>
    simp only [Except.ok.injEq] at h
    subst h
    have := src[ip].toNat_lt
    simp only
    omega
  | case3 => simp at h

/-- Below `2 ^ 56` bytes an extension never passes a machine word: the checked read is the
model's. -/
theorem readExtension?_eq (hs : src.size < 2 ^ 56) {ip len : Nat} (hlen : len ≤ 255 * ip + 15) :
    readExtension? src ip len = some (readExtension src ip len) := by
  fun_induction readExtension src ip len with
  | case1 ip len hip h255 ih =>
    have hbyte : src[ip].toNat = 255 := by rw [h255]; rfl
    rw [readExtension?, dif_pos hip, if_pos (by omega), if_pos (by omega), if_pos h255,
      ih (by omega)]
  | case2 ip len hip h255 =>
    have := src[ip].toNat_lt
    rw [readExtension?, dif_pos hip, if_pos (by omega), if_pos (by omega), if_neg h255]
  | case3 ip len hip => rw [readExtension?, dif_neg hip]

theorem literalLength?_eq (hs : src.size < 2 ^ 56) (ip : Nat) (token : UInt8) :
    literalLength? src ip token = some (literalLength src ip token) := by
  unfold literalLength? literalLength
  split
  · exact readExtension?_eq hs (by omega)
  · rfl

theorem matchLength?_eq (hs : src.size < 2 ^ 56) (ip : Nat) (token : UInt8) :
    matchLength? src ip token = some (matchLength src ip token) := by
  unfold matchLength? matchLength
  split
  · rw [readExtension?_eq hs (by omega), Option.bind_some]
    cases hr : readExtension src ip 15 with
    | error e => rfl
    | ok r =>
      have hb := readExtension_bound hr (by omega)
      simp only [Except.map]
      rw [checkedAdd_of_lt (by unfold minMatch; omega), Option.map_some]
  · have := (token &&& 15).toNat_lt
    rw [Option.bind_some]
    simp only
    rw [checkedAdd_of_lt (by unfold minMatch; omega), Option.map_some]

end Lengths

/-! ## Copies -/

/-- The chunked copy of a match with every position and count a checked machine word and
every chunk a checked copy. -/
def copyChunks? (buf : ByteArray) (back op offset len copied : Nat) (hoff : 0 < offset) :
    Option ByteArray :=
  if copied < len then
    let chunk := min offset (len - copied)
    if back + copied + chunk < 2 ^ 64 ∧ op + copied < 2 ^ 64 ∧ copied + chunk < 2 ^ 64 then
      (copyWithin? buf (back + copied) (back + copied + chunk) (op + copied)).bind fun buf =>
        copyChunks? buf back op offset len (copied + chunk) hoff
    else none
  else some buf
termination_by len - copied
decreasing_by omega

/-- A match written in place with its start a checked subtraction and its copies checked. -/
def copyMatchAt? (buf : ByteArray) (op offset len : Nat) (hoff : 0 < offset) :
    Option ByteArray :=
  (checkedSub op offset).bind fun back =>
    if len ≤ offset then
      if back + len < 2 ^ 64 then copyWithin? buf back (back + len) op else none
    else copyChunks? buf back op offset len 0 hoff

section Copies

variable {buf : ByteArray} {op offset len : Nat}

theorem copyChunks?_eq {back copied : Nat} {hoff : 0 < offset} (hback : back + offset = op)
    (hlen : op + len ≤ buf.size) (hword : buf.size < 2 ^ 64) :
    copyChunks? buf back op offset len copied hoff =
      some (copyChunks buf back op offset len copied hoff) := by
  -- every chunk reads below `op + copied` and writes below `op + len`, inside the buffer
  fun_induction copyChunks buf back op offset len copied hoff with
  | case1 buf copied hlt chunk ih =>
    have hchunk : chunk ≤ offset ∧ copied + chunk ≤ len := ⟨Nat.min_le_left _ _, by omega⟩
    have hsize : (copyWithin buf (back + copied) (op + copied) chunk).size = buf.size :=
      ByteArray.size_copySlice_of_le (by omega) (by omega)
    rw [copyChunks?, if_pos hlt]
    dsimp only
    rw [if_pos (by omega), copyWithin?_of_le (by omega) (by omega), Option.bind_some,
      ih (by omega) (by omega)]
  | case2 buf copied hge => rw [copyChunks?, if_neg hge]

theorem copyMatchAt?_eq {hoff : 0 < offset} (hle : offset ≤ op) (hlen : op + len ≤ buf.size)
    (hword : buf.size < 2 ^ 64) :
    copyMatchAt? buf op offset len hoff = some (copyMatchAt buf op offset len hoff) := by
  unfold copyMatchAt? copyMatchAt
  rw [checkedSub_of_le hle, Option.bind_some]
  split
  · rw [if_pos (by omega), copyWithin?_of_le (by omega) hlen]
  · exact copyChunks?_eq (by omega) hlen hword

end Copies

/-! ## The run -/

/-- `decodeInPlace` with every read and copy checked against its array and every position,
length and count computed as a checked machine word; `none` is a fault. -/
def decodeInPlace? (src : ByteArray) (start ip op : Nat) (out : ByteArray) :
    Option (ByteArray × Except Error Nat) :=
  if h : ip < src.size then
    let token := src[ip]
    if ip + 1 < 2 ^ 64 then
      match hl : literalLength? src (ip + 1) token with
      | none => none
      | some (.error e) => some (out, .error e)
      | some (.ok (ip₁, lit)) =>
        if src.size < ip₁ + lit then some (out, .error (.truncatedInput ip₁))
        else if out.size < op + lit then some (out, .error (.outputOverflow op))
        else (copySlice? src ip₁ out op lit).bind fun out =>
          let ip₂ := ip₁ + lit
          let op := op + lit
          if ip₂ = src.size then (checkedSub op start).map fun k => (out, .ok k)
          else if ip₂ + 2 < 2 ^ 64 then
            if src.size < ip₂ + 2 then some (out, .error (.truncatedInput ip₂))
            else (byteAt? src ip₂).bind fun b₀ => (byteAt? src (ip₂ + 1)).bind fun b₁ =>
              let offset := b₀.toNat + b₁.toNat * 256
              if hoff : offset = 0 ∨ op < offset then
                (checkedSub op start).map fun p => (out, .error (.offsetOutOfRange offset p))
              else
                match hm : matchLength? src (ip₂ + 2) token with
                | none => none
                | some (.error e) => some (out, .error e)
                | some (.ok (ip₃, len)) =>
                  if out.size < op + len then some (out, .error (.outputOverflow op))
                  else (copyMatchAt? out op offset len (by omega)).bind fun out =>
                    decodeInPlace? src start ip₃ (op + len) out
          else none
    else none
  else some (out, .error (.truncatedInput ip))
termination_by src.size - ip
decreasing_by
  have h₁ := le_of_literalLength? hl
  have h₃ := le_of_matchLength? hm
  simp only at h₁ h₃
  omega

section Run

variable {src : ByteArray} {start : Nat}

theorem decodeInPlace?_eq (hs : src.size < 2 ^ 56) (ip op : Nat) (out : ByteArray) :
    out.size < 2 ^ 64 → start ≤ op →
      decodeInPlace? src start ip op out = some (decodeInPlace src start ip op out) := by
  fun_induction decodeInPlace src start ip op out with
  | case1 ip op out h _ e hl =>
    intro hw hop
    rw [decodeInPlace?, dif_pos h, if_pos (by omega)]
    split <;> rename_i hl' <;> rw [literalLength?_eq hs, hl] at hl' <;> cases hl'
    rfl
  | case2 ip op out h _ ip₁ lit hl hs₁ =>
    intro hw hop
    rw [decodeInPlace?, dif_pos h, if_pos (by omega)]
    split <;> rename_i hl' <;> rw [literalLength?_eq hs, hl] at hl' <;> cases hl'
    rw [if_pos hs₁]
  | case3 ip op out h _ ip₁ lit hl hs₁ hd =>
    intro hw hop
    rw [decodeInPlace?, dif_pos h, if_pos (by omega)]
    split <;> rename_i hl' <;> rw [literalLength?_eq hs, hl] at hl' <;> cases hl'
    rw [if_neg hs₁, if_pos hd]
  | case4 ip op out h _ ip₁ lit hl hs₁ hd out' ip₂ op' hend =>
    intro hw hop
    rw [decodeInPlace?, dif_pos h, if_pos (by omega)]
    split <;> rename_i hl' <;> rw [literalLength?_eq hs, hl] at hl' <;> cases hl'
    rw [if_neg hs₁, if_neg hd, copySlice?_of_le (by omega) (by omega), Option.bind_some]
    dsimp only
    rw [if_pos hend, checkedSub_of_le (by omega), Option.map_some]
  | case5 ip op out h _ ip₁ lit hl hs₁ hd out' ip₂ hend hshort =>
    intro hw hop
    rw [decodeInPlace?, dif_pos h, if_pos (by omega)]
    split <;> rename_i hl' <;> rw [literalLength?_eq hs, hl] at hl' <;> cases hl'
    rw [if_neg hs₁, if_neg hd, copySlice?_of_le (by omega) (by omega), Option.bind_some]
    dsimp only
    rw [if_neg hend, if_pos (by omega), if_pos hshort]
  | case6 ip op out h _ ip₁ lit hl hs₁ hd out' ip₂ op' hend hshort offset hoff =>
    intro hw hop
    rw [decodeInPlace?, dif_pos h, if_pos (by omega)]
    split <;> rename_i hl' <;> rw [literalLength?_eq hs, hl] at hl' <;> cases hl'
    rw [if_neg hs₁, if_neg hd, copySlice?_of_le (by omega) (by omega), Option.bind_some]
    dsimp only
    rw [if_neg hend, if_pos (by omega), if_neg hshort, byteAt?_of_lt (by omega), Option.bind_some,
      byteAt?_of_lt (by omega), Option.bind_some, dif_pos hoff, checkedSub_of_le (by omega), Option.map_some]
  | case7 ip op out h _ ip₁ lit hl hs₁ hd out' ip₂ op' hend hshort offset hoff e hm =>
    intro hw hop
    rw [decodeInPlace?, dif_pos h, if_pos (by omega)]
    split <;> rename_i hl' <;> rw [literalLength?_eq hs, hl] at hl' <;> cases hl'
    rw [if_neg hs₁, if_neg hd, copySlice?_of_le (by omega) (by omega), Option.bind_some]
    dsimp only
    rw [if_neg hend, if_pos (by omega), if_neg hshort, byteAt?_of_lt (by omega), Option.bind_some,
      byteAt?_of_lt (by omega), Option.bind_some, dif_neg hoff]
    split <;> rename_i hm' <;> rw [matchLength?_eq hs, hm] at hm' <;> cases hm'
    rfl
  | case8 ip op out h _ ip₁ lit hl hs₁ hd out' ip₂ op' hend hshort offset hoff ip₃ len hm hlen =>
    intro hw hop
    rw [decodeInPlace?, dif_pos h, if_pos (by omega)]
    split <;> rename_i hl' <;> rw [literalLength?_eq hs, hl] at hl' <;> cases hl'
    rw [if_neg hs₁, if_neg hd, copySlice?_of_le (by omega) (by omega), Option.bind_some]
    dsimp only
    rw [if_neg hend, if_pos (by omega), if_neg hshort, byteAt?_of_lt (by omega), Option.bind_some,
      byteAt?_of_lt (by omega), Option.bind_some, dif_neg hoff]
    split <;> rename_i hm' <;> rw [matchLength?_eq hs, hm] at hm' <;> cases hm'
    rw [if_pos hlen]
  | case9 ip op out h _ ip₁ lit hl hs₁ hd out' ip₂ op' hend hshort offset hoff ip₃ len hm hlen ih =>
    intro hw hop
    have hsize : out'.size = out.size := ByteArray.size_copySlice_of_le (by omega) (by omega)
    have hreach : 0 < offset ∧ offset ≤ op' := by omega
    have hfit : op' + len ≤ out'.size := Nat.le_of_not_lt hlen
    rw [decodeInPlace?, dif_pos h, if_pos (by omega)]
    split <;> rename_i hl' <;> rw [literalLength?_eq hs, hl] at hl' <;> cases hl'
    rw [if_neg hs₁, if_neg hd, copySlice?_of_le (by omega) (by omega), Option.bind_some]
    dsimp only
    rw [if_neg hend, if_pos (by omega), if_neg hshort, byteAt?_of_lt (by omega), Option.bind_some,
      byteAt?_of_lt (by omega), Option.bind_some, dif_neg hoff]
    split <;> rename_i hm' <;> rw [matchLength?_eq hs, hm] at hm' <;> cases hm'
    rw [if_neg hlen, copyMatchAt?_eq hreach.2 hfit (by omega), Option.bind_some]
    exact ih (by rw [(copyMatchAt_spec hreach.1 hreach.2 hfit).1]; omega) (by omega)
  | case10 ip op out h =>
    intro hw hop
    rw [decodeInPlace?, dif_neg h]

/-- `decompressBlock` with its run checked. -/
def decompressBlock? (src out : ByteArray) (start : Nat) : Option (ByteArray × Except Error Nat) :=
  if out.size < start then some (out, .error (.outputOverflow start))
  else decodeInPlace? src start 0 start out

/-- A block of fewer than `2 ^ 56` bytes decodes into a buffer of machine-word length with no
fault. -/
theorem decompressBlock?_eq {src out : ByteArray} {start : Nat} (hs : src.size < 2 ^ 56)
    (hw : out.size < 2 ^ 64) :
    decompressBlock? src out start = some (decompressBlock src out start) := by
  rw [decompressBlock?, decompressBlock]
  split
  · rfl
  · exact decodeInPlace?_eq hs 0 start out hw (Nat.le_refl _)

/-- A proper prefix of a block that decodes to `y` never decodes exactly to `y.size` bytes. -/
theorem decompressExact_prefix {src y : ByteArray} {capacity : Nat}
    (hy : decompress src capacity = .ok y) {p : List UInt8} (hp : p <+: src.data.toList)
    (hlt : p.length < src.size) : ∃ e, decompressExact p.toByteArray y.size = .error e := by
  rw [decompress_eq] at hy
  -- the block decodes to `y` also in a destination of exactly its size
  obtain ⟨b, hb, hdec, -⟩ := block_of_decodeSequences hy
  have hfull : decodeSequences src 0 y.size 0 ByteArray.empty = .ok y := by
    rw [decodeSequences_of_block hb hdec (Nat.le_of_eq (ByteArray.length_data_toList y)),
      ByteArray.toByteArray_data_toList]
  unfold decompressExact
  rw [decompress_eq]
  cases hq : decodeSequences p.toByteArray 0 y.size 0 ByteArray.empty with
  | error e => exact ⟨e, rfl⟩
  | ok y' =>
    have hshort := size_lt_of_prefix (by rwa [List.toList_data_toByteArray])
      (by rwa [List.size_toByteArray]) hq hfull
    exact ⟨.lengthMismatch y.size y'.size, if_neg (Nat.ne_of_lt hshort)⟩

/-- Decoding a block of fewer than `2 ^ 56` bytes into a buffer of machine-word length from
`start` on makes no out-of-range access and no overflowing addition or subtraction. It keeps
the buffer's length and its bytes before `start`. A list `o` is the reference output of the
block after those bytes, fitting the buffer, exactly when the decoder succeeds with
`o.length - start` bytes produced and leaves `o` at the front of the buffer. A failure is a
fault of the block, and a proper prefix of a block never decodes exactly to its output. -/
theorem decompressBlock_eq_reference (src out : ByteArray) (start : Nat) (hs : src.size < 2 ^ 56)
    (hw : out.size < 2 ^ 64) (hstart : start ≤ out.size) :
    decompressBlock? src out start = some (decompressBlock src out start) ∧
      (decompressBlock src out start).1.size = out.size ∧
      (decompressBlock src out start).1.data.toList.take start = out.data.toList.take start ∧
      (∀ o : List UInt8, (∃ b : Block, b.bytes = src.data.toList ∧
          b.decode? (out.data.toList.take start) = some o ∧ o.length ≤ out.size) ↔
        start ≤ o.length ∧ (decompressBlock src out start).2 = .ok (o.length - start) ∧
          (decompressBlock src out start).1.data.toList.take o.length = o) ∧
      (∀ e, (decompressBlock src out start).2 = .error e → e.IsBlockFault) ∧
      (∀ capacity y, decompress src capacity = .ok y → ∀ p : List UInt8, p <+: src.data.toList →
        p.length < src.size → ∃ e, decompressExact p.toByteArray y.size = .error e) := by
  obtain ⟨hres, hout⟩ := @decompressBlock_eq src out start hstart
  have hhist : (out.extract 0 start).data.toList = out.data.toList.take start := by simp
  refine ⟨decompressBlock?_eq hs hw, (decompressBlock_frame src out start).1,
    (decompressBlock_frame src out start).2, fun o => ⟨fun ⟨b, hb, hdec, hfit⟩ => ?_, ?_⟩,
    fun e he => ?_, fun _ _ hy _ hp hlt => decompressExact_prefix hy hp hlt⟩
  · -- a written block that fits decodes, and its output is left in the buffer
    have hlen : start ≤ o.length := by
      have := (Block.prefix_of_decode? hdec).length_le
      rw [List.length_take, ByteArray.length_data_toList] at this
      omega
    rw [← hhist] at hdec
    have hrun : decodeSequences src start out.size 0 (out.extract 0 start) = .ok o.toByteArray :=
      decodeSequences_of_block (show src.data.toList.drop 0 = b.bytes from hb.symm) hdec hfit
    rw [hrun] at hres
    have ho := hout _ hrun
    simp only [List.size_toByteArray, List.toList_data_toByteArray] at ho
    exact ⟨hlen, by rw [hres]; simp [Except.map], ho⟩
  · -- a success reads a written block, whose output is what the buffer holds
    rintro ⟨hlen, hok, htake⟩
    cases hrun : decodeSequences src start out.size 0 (out.extract 0 start) with
    | error e => rw [hrun] at hres; rw [hres] at hok; cases hok
    | ok y =>
      rw [hrun] at hres
      rw [hres] at hok
      obtain ⟨b, hb, hdec, hfit⟩ := block_of_decodeSequences hrun
      have hy : start ≤ y.size := by
        have := (Block.prefix_of_decode? hdec).length_le
        rw [ByteArray.length_data_toList, ByteArray.length_data_toList, ByteArray.size_extract] at this
        omega
      have hsize : y.size = o.length := by
        simp only [Except.map, Except.ok.injEq] at hok
        omega
      refine ⟨b, by simpa using hb.symm, ?_, by omega⟩
      rw [← hhist, hdec, ← htake, ← hsize, hout y hrun]
  · cases hrun : decodeSequences src start out.size 0 (out.extract 0 start) with
    | ok y => rw [hrun] at hres; rw [hres] at he; cases he
    | error e' =>
      rw [hrun] at hres
      rw [hres] at he
      cases he
      exact isBlockFault_of_decodeSequences hrun

/-- The block `a`, a match of nine bytes from one byte back, then five literals, decoded into
fifteen bytes: the match overlaps itself. -/
theorem decompressBlock_eq_reference_overlap :
    (⟨#[0x15, 97, 1, 0, 0x50, 98, 99, 100, 101, 102]⟩ : ByteArray).size < 2 ^ 56 ∧
      (zeros 15).size < 2 ^ 64 ∧ 0 ≤ (zeros 15).size ∧
      decompressBlock? ⟨#[0x15, 97, 1, 0, 0x50, 98, 99, 100, 101, 102]⟩ (zeros 15) 0 =
        some (decompressBlock ⟨#[0x15, 97, 1, 0, 0x50, 98, 99, 100, 101, 102]⟩ (zeros 15) 0) ∧
      (decompressBlock ⟨#[0x15, 97, 1, 0, 0x50, 98, 99, 100, 101, 102]⟩ (zeros 15) 0).1.size =
        (zeros 15).size ∧
      (decompressBlock ⟨#[0x15, 97, 1, 0, 0x50, 98, 99, 100, 101, 102]⟩
        (zeros 15) 0).1.data.toList.take 0 = (zeros 15).data.toList.take 0 ∧
      (∀ o : List UInt8, (∃ b : Block,
          b.bytes = (⟨#[0x15, 97, 1, 0, 0x50, 98, 99, 100, 101, 102]⟩ : ByteArray).data.toList ∧
          b.decode? ((zeros 15).data.toList.take 0) = some o ∧ o.length ≤ (zeros 15).size) ↔
        0 ≤ o.length ∧
          (decompressBlock ⟨#[0x15, 97, 1, 0, 0x50, 98, 99, 100, 101, 102]⟩ (zeros 15) 0).2 =
            .ok (o.length - 0) ∧
          (decompressBlock ⟨#[0x15, 97, 1, 0, 0x50, 98, 99, 100, 101, 102]⟩
            (zeros 15) 0).1.data.toList.take o.length = o) ∧
      (∀ e, (decompressBlock ⟨#[0x15, 97, 1, 0, 0x50, 98, 99, 100, 101, 102]⟩ (zeros 15) 0).2 =
        .error e → e.IsBlockFault) ∧
      (∀ capacity y, decompress ⟨#[0x15, 97, 1, 0, 0x50, 98, 99, 100, 101, 102]⟩ capacity = .ok y →
        ∀ p : List UInt8,
          p <+: (⟨#[0x15, 97, 1, 0, 0x50, 98, 99, 100, 101, 102]⟩ : ByteArray).data.toList →
          p.length < (⟨#[0x15, 97, 1, 0, 0x50, 98, 99, 100, 101, 102]⟩ : ByteArray).size →
            ∃ e, decompressExact p.toByteArray y.size = .error e) :=
  ⟨by decide, by decide, by decide,
    decompressBlock_eq_reference _ _ _ (by decide) (by decide) (by decide)⟩

end Run

end WireCodec.Lz4
