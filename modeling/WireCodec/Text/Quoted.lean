import WireCodec.Text.GraphemeExtend

/-!
# Quoted text in diagnostics

`quote s` writes `s` between double quotes the way diagnostics show a string: the
backslash, the double quote, tab, carriage return, line feed and NUL get their short
escapes; characters that extend a grapheme, which would attach to the quote or backslash
before them, and characters that do not print are written `\u{h}` with lowercase
hexadecimal digits; everything else stands for itself.
-/

namespace WireCodec.Text

/-- Lowercase hexadecimal digits of `n`, without leading zeros. -/
def hexDigits (n : Nat) : String :=
  String.ofList (Nat.toDigits 16 n)

/-- The escaped form of one character inside a quoted string. -/
def escapeChar (c : Char) : String :=
  match c with
  | '\t' => "\\t"
  | '\r' => "\\r"
  | '\n' => "\\n"
  | '\\' => "\\\\"
  | '"' => "\\\""
  | '\x00' => "\\0"
  | c =>
    if isGraphemeExtend c || !isPrintable c then "\\u" ++ "\x7b" ++ hexDigits c.toNat ++ "\x7d"
    else c.toString

/-- `s` between double quotes, escaped as described above. -/
def quote (s : String) : String :=
  "\"" ++ String.join (s.toList.map escapeChar) ++ "\""

end WireCodec.Text
