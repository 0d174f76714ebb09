import WireCodec.Lz4.Error
import WireCodec.Text.Utf8

/-!
# Why encoding or decoding fails

Three families of causes: a schema that cannot be used (a union without variants, or
with a repeated tag), a value that cannot be written, and bytes that cannot be read. The
type names in the causes are the qualified names of the schemas concerned, or the short
names that the decoders of scalars, enumerations and unions report.
-/

namespace WireCodec.Wire

/-- A union declaration that cannot be used. -/
inductive ResolveError where
  | duplicateDiscriminator (typeName : String) (tag : Nat)
  | emptyUnion (typeName : String)
  deriving DecidableEq, Repr

namespace ResolveError

def kind : ResolveError → String
  | duplicateDiscriminator .. => "DuplicateDiscriminator"
  | emptyUnion .. => "EmptyUnion"

def message : ResolveError → String
  | duplicateDiscriminator t tag => s!"union {t} declares discriminator {tag} more than once"
  | emptyUnion t => s!"union {t} declares no variants"

end ResolveError

/-- Why a value cannot be written. -/
inductive EncodeError where
  /-- An absent buffer where bytes are needed. -/
  | valueRequired (typeName : String)
  /-- A length beyond what the format can record. -/
  | lengthOverflow (what : String) (len max : Nat)
  /-- Only a writer made for frames can compress. -/
  | notCompressible
  | compression (e : Lz4.Error)
  | resolve (e : ResolveError)
  deriving DecidableEq, Repr

namespace EncodeError

def kind : EncodeError → String
  | valueRequired .. => "ValueRequired"
  | lengthOverflow .. => "LengthOverflow"
  | notCompressible => "NotCompressible"
  | compression e => "Compression." ++ e.kind
  | resolve e => "Resolve." ++ e.kind

def message : EncodeError → String
  | valueRequired t => s!"a value of type {t} is required"
  | lengthOverflow what len max => s!"length {len} of {what} exceeds the wire-format limit of {max}"
  | notCompressible => "writer was not created in compressible mode"
  | compression e => "lz4 compression failed: " ++ e.message
  | resolve e => e.message

end EncodeError

/-- `0x` and the lowercase hexadecimal digits of `n`, padded with zeros to `width` digits. -/
def hexLiteral (width n : Nat) : String :=
  let s := String.ofList (Nat.toDigits 16 n)
  "0x" ++ String.ofList (List.replicate (width - s.length) '0') ++ s

/-- Why a decoded value is not a value of its type. -/
inductive Invalid where
  | notBool (byte : Nat)
  | presenceByte (byte : Nat)
  | notScalarValue (code : Nat)
  | binaryOutOfRange (word : Nat)
  | nanosTooLarge (nanos : Nat)
  | tooManyElements (count max : Nat)
  | duplicateKey
  deriving DecidableEq, Repr

def Invalid.message : Invalid → String
  | notBool b => s!"byte {hexLiteral 2 b} is neither 0 nor 1"
  | presenceByte b => s!"presence byte {hexLiteral 2 b}"
  | notScalarValue c => s!"{hexLiteral 1 c} is not a scalar value"
  | binaryOutOfRange w => s!"binary form {hexLiteral 16 w} is out of range"
  | nanosTooLarge n => s!"{n} nanoseconds exceed one second"
  | tooManyElements count max => s!"{count} elements exceed the limit of {max}"
  | duplicateKey => "duplicate key"

/-- Why bytes cannot be read as a value. -/
inductive DecodeError where
  /-- No source where bytes are needed. -/
  | valueRequired (typeName : String)
  | invalidRange (offset len available : Nat)
  | unexpectedEof (needed remaining : Nat)
  | malformedVarint (position : Nat)
  | invalidDiscriminator (typeName : String) (tag : Nat)
  | lengthMismatch (what : String) (expected actual : Nat)
  | invalidUtf8 (e : Text.Utf8Error)
  | invalidValue (typeName : String) (reason : Invalid)
  | compression (e : Lz4.Error)
  | resolve (e : ResolveError)
  /-- Nesting deeper than any value the input could hold. -/
  | tooDeep
  deriving DecidableEq, Repr

namespace DecodeError

def kind : DecodeError → String
  | valueRequired .. => "ValueRequired"
  | invalidRange .. => "InvalidRange"
  | unexpectedEof .. => "UnexpectedEof"
  | malformedVarint .. => "MalformedVarint"
  | invalidDiscriminator .. => "InvalidDiscriminator"
  | lengthMismatch .. => "LengthMismatch"
  | invalidUtf8 .. => "InvalidUtf8"
  | invalidValue .. => "InvalidValue"
  | compression e => "Compression." ++ e.kind
  | resolve e => "Resolve." ++ e.kind
  | tooDeep => "TooDeep"

def message : DecodeError → String
  | valueRequired t => s!"a source buffer for {t} is required"
  | invalidRange offset len available =>
    s!"range {offset}..{offset}+{len} is outside a buffer of {available} bytes"
  | unexpectedEof needed remaining =>
    s!"unexpected end of input: needed {needed} bytes, {remaining} remaining"
  | malformedVarint position => s!"malformed varint at position {position}"
  | invalidDiscriminator t tag => s!"invalid discriminator {tag} for {t}"
  | lengthMismatch what expected actual =>
    s!"{what}: declared {expected} bytes but {actual} were consumed"
  | invalidUtf8 e => "invalid utf-8 in string payload: " ++ e.message
  | invalidValue t reason => s!"invalid {t} value: {reason.message}"
  | compression e => "lz4 decompression failed: " ++ e.message
  | resolve e => e.message
  | tooDeep => "nesting too deep"

end DecodeError

end WireCodec.Wire
