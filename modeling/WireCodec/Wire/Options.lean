import WireCodec.Timestamp

/-!
# Options of reading and of compressing

Reading may force every timestamp to one kind and may cap the element count of
collections. Merging options keeps the settings that the second options leave unset.
Compressing picks the fast encoder with an acceleration or the high-compression encoder
with a level, and a size below which a payload is stored as it is.
-/

namespace WireCodec.Wire

/-- Settings that change how values are read. -/
structure DecodeOptions where
  /-- Every timestamp read gets this kind, its ticks unchanged. -/
  timeKind : Option TimeKind
  /-- Collections with more elements than this are refused. -/
  maxCollectionLen : Option Nat
  deriving DecidableEq, Repr

namespace DecodeOptions

/-- No forced kind and no cap. -/
def none : DecodeOptions := ⟨Option.none, Option.none⟩

/-- Every timestamp read as UTC. -/
def utc : DecodeOptions := ⟨some .utc, Option.none⟩

/-- `o` over `base`: each setting of `o` that is present replaces that of `base`. -/
def merge (base o : DecodeOptions) : DecodeOptions :=
  ⟨o.timeKind.or base.timeKind, o.maxCollectionLen.or base.maxCollectionLen⟩

end DecodeOptions

/-- The encoder a frame is compressed with. -/
inductive CompressionMode where
  /-- The fast encoder; higher accelerations skip faster over data that does not match. -/
  | fast (acceleration : UInt32)
  /-- The high-compression encoder at a level (clamped when used). -/
  | high (level : Int)
  deriving DecidableEq, Repr

/-- How a frame is compressed. -/
structure CompressionOptions where
  mode : CompressionMode
  /-- Payloads shorter than this (and than one byte) are stored. -/
  minCompressSize : Nat
  deriving DecidableEq, Repr

/-- The fast encoder with acceleration one, for payloads of 64 bytes or more. -/
def CompressionOptions.standard : CompressionOptions := ⟨.fast 1, 64⟩

end WireCodec.Wire
