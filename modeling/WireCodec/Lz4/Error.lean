/-!
# Why an LZ4 operation fails

Every bounds violation of the encoders and the decoder is detected before the offending
read or write, so a corrupted block or a short destination always ends in one of these
causes. `Error.message` holds the wording.
-/

namespace WireCodec.Lz4

/-- The causes of a failed compression or decompression. -/
inductive Error where
  /-- The input is larger than one block may describe. -/
  | inputTooLarge (len max : Nat)
  /-- The destination cannot hold the compressed block. -/
  | outputTooSmall (capacity : Nat)
  /-- The block ends before the current sequence is complete. -/
  | truncatedInput (position : Nat)
  /-- A back-reference points before the start of the output. -/
  | offsetOutOfRange (offset position : Nat)
  /-- Decoding would write past the end of the destination. -/
  | outputOverflow (position : Nat)
  /-- The decoded size differs from the announced one. -/
  | lengthMismatch (expected actual : Nat)
  deriving DecidableEq, Repr

namespace Error

/-- The name of the cause. -/
def kind : Error → String
  | inputTooLarge .. => "InputTooLarge"
  | outputTooSmall .. => "OutputTooSmall"
  | truncatedInput .. => "TruncatedInput"
  | offsetOutOfRange .. => "OffsetOutOfRange"
  | outputOverflow .. => "OutputOverflow"
  | lengthMismatch .. => "LengthMismatch"

/-- The text of the error. -/
def message : Error → String
  | inputTooLarge len max =>
    s!"input of {len} bytes exceeds the maximum block input of {max} bytes"
  | outputTooSmall capacity =>
    s!"destination of {capacity} bytes is too small for the compressed block"
  | truncatedInput position => s!"compressed block truncated at byte {position}"
  | offsetOutOfRange offset position =>
    s!"back-reference offset {offset} is invalid at output position {position}"
  | outputOverflow position =>
    s!"decoded data overflows the destination at output position {position}"
  | lengthMismatch expected actual => s!"decoded {actual} bytes but {expected} were expected"

end Error

end WireCodec.Lz4
