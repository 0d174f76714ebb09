import WireCodec.Lz4.Sequence

/-!
# Blocks as sequences

An LZ4 block is a list of sequences closed by a run of literals. `Block.bytes` lays that
structure out as the format does, and `Block.decode?` gives it its meaning: literals are
appended, and each byte of a match is the byte `offset` places before it, copied one at
a time, so a match longer than its offset repeats its last `offset` bytes. An offset of
zero, or one that reaches before the start of the output, has no meaning.

The main statements are `copyBack_take`, by which a match whose bytes agree with the
bytes `offset` back extends a prefix of a text to a longer prefix, `copyBack_of_le`, by
which a match no longer than its offset is one copy of earlier bytes, and
`Sequence.length_bytes`, by which a sequence takes the room the encoders reserve for it.
-/

namespace WireCodec.Lz4

/-- The bytes that extend a length field holding `n`: none below 15, otherwise a 255 for
each whole 255 above 15, then the remainder. -/
def extensionBytes (n : Nat) : List UInt8 :=
  if 15 ≤ n then List.replicate ((n - 15) / 255) 255 ++ [((n - 15) % 255).toUInt8] else []

@[simp] theorem length_extensionBytes (n : Nat) :
    (extensionBytes n).length = extensionLength n := by
  unfold extensionBytes extensionLength
  split <;> simp [Nat.add_comm]

/-- Appends `n` bytes to `w`, each the byte `offset` places before it. -/
def copyBack (w : List UInt8) (offset : Nat) : Nat → List UInt8
  | 0 => w
  | n + 1 => copyBack (w ++ [w.getD (w.length - offset) 0]) offset n

@[simp] theorem length_copyBack (w : List UInt8) (offset n : Nat) :
    (copyBack w offset n).length = w.length + n := by
  induction n generalizing w with
  | zero => rfl
  | succ n ih => rw [copyBack, ih, List.length_append, List.length_singleton]; omega

theorem prefix_copyBack (w : List UInt8) (offset n : Nat) : w <+: copyBack w offset n := by
  induction n generalizing w with
  | zero => exact List.prefix_refl w
  | succ n ih => exact (List.prefix_append w _).trans (ih _)

/-- A match whose bytes each equal the byte `d` places before them extends the prefix of
`t` before the match to the prefix that ends with it. -/
theorem copyBack_take {t : List UInt8} {p d n : Nat} (hd : 0 < d) (hdp : d ≤ p)
    (hn : p + n ≤ t.length) (hm : ∀ j < n, t.getD (p + j) 0 = t.getD (p - d + j) 0) :
    copyBack (t.take p) d n = t.take (p + n) := by
  induction n generalizing p with
  | zero => rfl
  | succ n ih =>
    have hp : p < t.length := by omega
    -- the first copied byte is the one at `p - d`, which the match says is the one at `p`
    have hbyte : (t.take p).getD ((t.take p).length - d) 0 = t.getD p 0 := by
      have h0 : t.getD p 0 = t.getD (p - d) 0 := by simpa using hm 0 (by omega)
      rw [List.length_take_of_le (by omega), List.getD_eq_getElem?_getD,
        List.getElem?_take_of_lt (by omega), ← List.getD_eq_getElem?_getD, h0]
    have hgrow : t.take p ++ [t.getD p 0] = t.take (p + 1) := by
      rw [List.take_add_one, List.getElem?_eq_getElem hp, List.getD_eq_getElem?_getD,
        List.getElem?_eq_getElem hp]
      rfl
    rw [copyBack, hbyte, hgrow, ih (by omega) (by omega) (fun j hj => ?_)]
    · rw [Nat.add_right_comm, Nat.add_assoc]
    · have := hm (j + 1) (by omega)
      rwa [← Nat.add_assoc, Nat.add_right_comm, show p - d + (j + 1) = p + 1 - d + j by omega]
        at this

theorem copyBack_add (w : List UInt8) (offset m n : Nat) :
    copyBack w offset (m + n) = copyBack (copyBack w offset m) offset n := by
  induction m generalizing w with
  | zero => rw [Nat.zero_add]; rfl
  | succ m ih => rw [Nat.add_right_comm, copyBack, ih, copyBack]

/-- A match no longer than its offset copies the bytes `offset` back in one piece. -/
theorem copyBack_of_le {w : List UInt8} {offset n : Nat} (hpos : 0 < offset)
    (hn : n ≤ offset) (hw : offset ≤ w.length) :
    copyBack w offset n = w ++ (w.drop (w.length - offset)).take n := by
  have hlen : (w ++ (w.drop (w.length - offset)).take n).length = w.length + n := by
    simp only [List.length_append, List.length_take, List.length_drop]
    omega
  have h := @copyBack_take (w ++ (w.drop (w.length - offset)).take n) w.length offset n hpos hw
    (by omega) (fun j hj => ?_)
  · rwa [List.take_left, List.take_of_length_le (by omega)] at h
  · -- the copied byte `j` is the byte `offset` back, which lies in `w`
    rw [List.getD_eq_getElem?_getD, List.getElem?_append_right (by omega), Nat.add_sub_cancel_left,
      List.getElem?_take_of_lt hj, List.getElem?_drop, List.getD_eq_getElem?_getD,
      List.getElem?_append_left (by omega)]

/-- One sequence: literals, then a match of `matchLen` bytes copied from `offset` bytes
back. The offset fits the two bytes that hold it, and the match is as long as a token
can say at least. -/
structure Sequence where
  literals : List UInt8
  offset : Nat
  matchLen : Nat
  offset_le : offset ≤ maxDistance
  minMatch_le : minMatch ≤ matchLen

namespace Sequence

/-- Token, literal-length extension, literals, little-endian offset and match-length
extension. -/
def bytes (s : Sequence) : List UInt8 :=
  ((nibble s.literals.length <<< 4) ||| nibble (s.matchLen - minMatch)) ::
    (extensionBytes s.literals.length ++ s.literals ++
      [(s.offset % 256).toUInt8, (s.offset / 256).toUInt8] ++
      extensionBytes (s.matchLen - minMatch))

/-- The bytes of a sequence followed by more, field by field. -/
theorem bytes_append (s : Sequence) (rest : List UInt8) :
    s.bytes ++ rest =
      ((nibble s.literals.length <<< 4) ||| nibble (s.matchLen - minMatch)) ::
        (extensionBytes s.literals.length ++ (s.literals ++ ((s.offset % 256).toUInt8 ::
          (s.offset / 256).toUInt8 :: (extensionBytes (s.matchLen - minMatch) ++ rest)))) := by
  simp [bytes]

theorem length_bytes (s : Sequence) :
    s.bytes.length = sequencePrice s.literals.length s.matchLen := by
  simp only [bytes, sequencePrice, literalsPrice, List.length_cons, List.length_append,
    length_extensionBytes, List.length_nil]
  omega

/-- The output after `w` once the sequence is decoded; `none` when the offset is zero or
reaches before the start of `w`. -/
def decode? (s : Sequence) (w : List UInt8) : Option (List UInt8) :=
  if 0 < s.offset ∧ s.offset ≤ w.length + s.literals.length then
    some (copyBack (w ++ s.literals) s.offset s.matchLen)
  else none

/-- Decodes the sequences one after the other. -/
def decodeAll? : List Sequence → List UInt8 → Option (List UInt8)
  | [], w => some w
  | s :: ss, w => (s.decode? w).bind (decodeAll? ss)

theorem prefix_of_decode? {s : Sequence} {w o : List UInt8} (h : s.decode? w = some o) :
    w <+: o := by
  unfold decode? at h
  split at h
  · cases h
    exact (List.prefix_append w _).trans (prefix_copyBack _ _ _)
  · cases h

theorem prefix_of_decodeAll? {ss : List Sequence} {w o : List UInt8}
    (h : decodeAll? ss w = some o) : w <+: o := by
  induction ss generalizing w with
  | nil => cases h; exact List.prefix_refl _
  | cons s ss ih =>
    obtain ⟨w', hs, hrest⟩ := Option.bind_eq_some_iff.mp h
    exact (prefix_of_decode? hs).trans (ih hrest)

end Sequence

/-- A block: sequences, then a closing run of literals. The closing token's low nibble
is a match code that the decoder ignores. -/
structure Block where
  sequences : List Sequence
  lastLiterals : List UInt8
  lastCode : UInt8
  lastCode_lt : lastCode < 16

/-- The closing token and its literal run. -/
def closingBytes (literals : List UInt8) (code : UInt8) : List UInt8 :=
  ((nibble literals.length <<< 4) ||| code) :: (extensionBytes literals.length ++ literals)

namespace Block

def bytes (b : Block) : List UInt8 :=
  b.sequences.flatMap Sequence.bytes ++ closingBytes b.lastLiterals b.lastCode

/-- The output after the history `w` once the block is decoded, history included. -/
def decode? (b : Block) (w : List UInt8) : Option (List UInt8) :=
  (Sequence.decodeAll? b.sequences w).map (· ++ b.lastLiterals)

-- a match longer than its offset repeats the bytes it started from
example : (Block.mk [⟨[97, 98], 2, 5, by decide, by decide⟩] [99] 0 (by decide)).decode? [] =
    some [97, 98, 97, 98, 97, 98, 97, 99] := by decide

/-- Decoding never changes the history. -/
theorem prefix_of_decode? {b : Block} {w o : List UInt8} (h : b.decode? w = some o) :
    w <+: o := by
  obtain ⟨o', hs, rfl⟩ := Option.map_eq_some_iff.mp h
  exact (Sequence.prefix_of_decodeAll? hs).trans (List.prefix_append o' _)

end Block

end WireCodec.Lz4
