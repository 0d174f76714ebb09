/-!
# Validating UTF-8

`validateUtf8` checks a byte string against the UTF-8 encoding form: no overlong
encodings, no surrogates, nothing above U+10FFFF. On failure it reports how many bytes
form a valid prefix and how long the offending sequence is: the number of bytes of its
longest prefix that could still start a valid sequence, counted up to the first bad
byte, or nothing when the input ends inside a sequence that was valid so far.
-/

namespace WireCodec.Text

/-- Where and how a byte string stops being UTF-8. -/
structure Utf8Error where
  /-- Length of the longest valid prefix. -/
  validUpTo : Nat
  /-- Length of the invalid sequence, or `none` when the input ends inside it. -/
  errorLen : Option Nat
  deriving DecidableEq, Repr

/-- The text of the error. -/
def Utf8Error.message (e : Utf8Error) : String :=
  match e.errorLen with
  | some n => s!"invalid utf-8 sequence of {n} bytes from index {e.validUpTo}"
  | none => s!"incomplete utf-8 byte sequence from index {e.validUpTo}"

/-- A continuation byte: `10xxxxxx`. -/
def isContinuation (b : UInt8) : Bool :=
  0x80 ≤ b && b ≤ 0xBF

/-- Whether `second` may follow the lead byte `lead` in a valid sequence. -/
def secondFits (lead second : UInt8) : Bool :=
  if 0xC2 ≤ lead && lead ≤ 0xDF then isContinuation second
  else if lead = 0xE0 then 0xA0 ≤ second && second ≤ 0xBF
  else if lead = 0xED then 0x80 ≤ second && second ≤ 0x9F
  else if 0xE1 ≤ lead && lead ≤ 0xEF then isContinuation second
  else if lead = 0xF0 then 0x90 ≤ second && second ≤ 0xBF
  else if lead = 0xF4 then 0x80 ≤ second && second ≤ 0x8F
  else if 0xF1 ≤ lead && lead ≤ 0xF3 then isContinuation second
  else false

/-- Bytes in the sequence a lead byte starts; zero for a byte that starts none. -/
def sequenceWidth (lead : UInt8) : Nat :=
  if lead < 0x80 then 1
  else if 0xC2 ≤ lead && lead ≤ 0xDF then 2
  else if 0xE0 ≤ lead && lead ≤ 0xEF then 3
  else if 0xF0 ≤ lead && lead ≤ 0xF4 then 4
  else 0

/-- Checks the bytes after the lead of the sequence at `i` of width `w`: `k` bytes are
checked already. Returns the error length, if any. -/
def checkTail (bytes : ByteArray) (i w : Nat) : Nat → Option (Option Nat)
  | 0 => none
  | k + 1 =>
    -- `k + 1` bytes remain to check, the next one is byte `w - (k + 1)` of the sequence
    let j := w - (k + 1)
    if i + j < bytes.size then
      let b := bytes.get! (i + j)
      let fits := if j = 1 then secondFits (bytes.get! i) b else isContinuation b
      if fits then checkTail bytes i w k else some (some j)
    else some none

/-- Validates `bytes` from position `i` on. -/
def validateFrom (bytes : ByteArray) (i : Nat) : Except Utf8Error Unit :=
  if h : i < bytes.size then
    let w := sequenceWidth bytes[i]
    if w = 0 then .error ⟨i, some 1⟩
    else match checkTail bytes i w (w - 1) with
      | some len => .error ⟨i, len⟩
      | none => validateFrom bytes (i + w)
  else .ok ()
termination_by bytes.size - i
decreasing_by omega

/-- Checks that `bytes` are UTF-8. -/
def validateUtf8 (bytes : ByteArray) : Except Utf8Error Unit :=
  validateFrom bytes 0

/-- The text whose UTF-8 encoding is `bytes`, or where they stop being UTF-8. -/
def decodeUtf8 (bytes : ByteArray) : Except Utf8Error String :=
  (validateUtf8 bytes).map fun _ => (String.fromUTF8? bytes).getD ""

end WireCodec.Text
