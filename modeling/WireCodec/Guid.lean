import WireCodec.Text.Quoted

/-!
# Globally unique identifiers

An identifier is sixteen bytes. Its text form is five groups of hexadecimal digits,
8-4-4-4-12, separated by dashes; the first three groups are the little-endian fields of
bytes 0-3, 4-5 and 6-7, and the last two groups are bytes 8-15 in order. Parsing accepts
either case and nothing else; printing uses lowercase.
-/

namespace WireCodec

/-- A 16-byte identifier. -/
structure Guid where
  bytes : ByteArray
  size_eq : bytes.size = 16

/-- Identifiers with the same bytes are the same identifier. -/
theorem Guid.ext_data {a b : Guid} (h : a.bytes.data = b.bytes.data) : a = b := by
  cases a with
  | mk x _ =>
    cases b with
    | mk y _ =>
      cases x
      cases y
      cases h
      rfl

/-- Identifiers are equal exactly when their bytes are. -/
instance : DecidableEq Guid := fun a b =>
  if h : a.bytes.data = b.bytes.data then isTrue (Guid.ext_data h)
  else isFalse (fun e => h (e ▸ rfl))

/-- Why a text is no identifier: the text itself. -/
structure GuidParseError where
  text : String
  deriving DecidableEq, Repr

/-- The text of the error. -/
def GuidParseError.message (e : GuidParseError) : String :=
  "invalid guid text " ++ Text.quote e.text

namespace Guid

/-- The identifier of sixteen bytes; other lengths are cut or padded with zeros. -/
def ofBytes (b : ByteArray) : Guid :=
  let b := (b.extract 0 16) ++ ⟨Array.replicate (16 - b.size) 0⟩
  if h : b.size = 16 then ⟨b, h⟩ else ⟨⟨Array.replicate 16 0⟩, rfl⟩

/-- The all-zero identifier. -/
def nil : Guid := ⟨⟨Array.replicate 16 0⟩, rfl⟩

/-- Whether every byte is zero. -/
def isNil (g : Guid) : Bool :=
  g.bytes.toList.all (· = 0)

/-- `width` little-endian bytes of `n`. -/
def leBytes (n width : Nat) : List UInt8 :=
  (List.range width).map fun i => (n / Nat.pow 256 i % 256).toUInt8

/-- The identifier with text-form fields `a`, `b`, `c` and the eight bytes `d`. -/
def ofFields (a b c : Nat) (d : ByteArray) : Guid :=
  ofBytes ⟨(leBytes a 4 ++ leBytes b 2 ++ leBytes c 2 ++ d.toList).toArray⟩

/-- The number whose little-endian bytes are `bs`. -/
def leValue (bs : List UInt8) : Nat :=
  bs.foldr (fun b acc => b.toNat + 256 * acc) 0

/-- Lowercase hexadecimal digits of `n`, padded with zeros to `width`. -/
def hexPadded (width n : Nat) : String :=
  let s := String.ofList (Nat.toDigits 16 n)
  String.ofList (List.replicate (width - s.length) '0') ++ s

/-- The text form. -/
def display (g : Guid) : String :=
  let b := g.bytes.toList
  let hex (bs : List UInt8) : String := String.join (bs.map fun x => hexPadded 2 x.toNat)
  s!"{hexPadded 8 (leValue (b.take 4))}-{hexPadded 4 (leValue ((b.drop 4).take 2))}-" ++
    s!"{hexPadded 4 (leValue ((b.drop 6).take 2))}-{hex ((b.drop 8).take 2)}-{hex (b.drop 10)}"

/-- The value of a hexadecimal digit. -/
def hexValue (c : Char) : Nat :=
  if c.isDigit then c.toNat - '0'.toNat
  else if 'a' ≤ c ∧ c ≤ 'f' then c.toNat - 'a'.toNat + 10
  else c.toNat - 'A'.toNat + 10

/-- The number a run of hexadecimal digits writes. -/
def hexNumber (cs : List Char) : Nat :=
  cs.foldl (fun acc c => 16 * acc + hexValue c) 0

/-- Bytes of a run of hexadecimal digit pairs. -/
def hexBytes : List Char → List UInt8
  | a :: b :: rest => (16 * hexValue a + hexValue b).toUInt8 :: hexBytes rest
  | _ => []

/-- Parses the text form. -/
def parse (text : String) : Except GuidParseError Guid :=
  let cs := text.toList
  if !cs.all (fun c => c = '-' || c.isDigit || ('a' ≤ c && c ≤ 'f') || ('A' ≤ c && c ≤ 'F')) then
    .error ⟨text⟩
  else
    match cs.splitOn '-' with
    | [g0, g1, g2, g3, g4] =>
      if g0.length = 8 ∧ g1.length = 4 ∧ g2.length = 4 ∧ g3.length = 4 ∧ g4.length = 12 then
        .ok (ofFields (hexNumber g0) (hexNumber g1) (hexNumber g2) ⟨(hexBytes (g3 ++ g4)).toArray⟩)
      else .error ⟨text⟩
    | _ => .error ⟨text⟩

/-- Byte-wise lexicographic order. -/
def compare (a b : Guid) : Ordering :=
  Ord.compare a.bytes.toList b.bytes.toList

end Guid

end WireCodec
