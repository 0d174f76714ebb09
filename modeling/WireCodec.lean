import WireCodec.Lz4.Basic
import WireCodec.Lz4.Error
import WireCodec.Lz4.Sequence
import WireCodec.Lz4.Decode
import WireCodec.Lz4.Count
import WireCodec.Lz4.Fast
import WireCodec.Lz4.Chain
import WireCodec.Lz4.HighCompression
import WireCodec.Lz4.Stream
import WireCodec.Text.Utf8
import WireCodec.Text.Printable
import WireCodec.Text.GraphemeExtend
import WireCodec.Text.Quoted
import WireCodec.Timestamp
import WireCodec.Guid
import WireCodec.Schema.Basic
import WireCodec.Schema.Derive
import WireCodec.Schema.Name
import WireCodec.Value
import WireCodec.Equality
import WireCodec.Wire.Error
import WireCodec.Wire.Options
import WireCodec.Wire.Writer
import WireCodec.Wire.Reader
import WireCodec.Wire.Pool
import WireCodec.Schema.Shape
import WireCodec.Codec.Encode
import WireCodec.Codec.Capacity
import WireCodec.Codec.Decode
import WireCodec.Codec.Carrier
import WireCodec.Codec.Entry
import WireCodec.Wire.Buffered
import WireCodec.Proofs.Bytes
import WireCodec.Proofs.Wire.Append
import WireCodec.Proofs.Wire.Reads
import WireCodec.Proofs.Codec.WireForm
import WireCodec.Proofs.Codec.EncodeForm
import WireCodec.Proofs.Text.Utf8
import WireCodec.Proofs.Codec.KeyOrder
import WireCodec.Proofs.Codec.Scalars
import WireCodec.Proofs.Codec.DecodeForm
import WireCodec.Proofs.Lz4.Block
import WireCodec.Proofs.Lz4.Fields
import WireCodec.Proofs.Lz4.Decoder
import WireCodec.Proofs.Lz4.InPlace
import WireCodec.Proofs.Lz4.Counters
import WireCodec.Proofs.Lz4.Emitter
import WireCodec.Proofs.Lz4.FastRoundTrip
import WireCodec.Proofs.Lz4.HighRoundTrip
import WireCodec.Proofs.Lz4.EndConditions
import WireCodec.Proofs.Lz4.Continuation
import WireCodec.Proofs.Lz4.StreamHistory
import WireCodec.Proofs.Lz4.Interchange
import WireCodec.Proofs.Lz4.Widths
import WireCodec.Proofs.Lz4.StreamWidths
import WireCodec.Proofs.Codec.Appends
import WireCodec.Proofs.Codec.Frame
import WireCodec.Proofs.Lz4.ExactLength
import WireCodec.Proofs.Schema.Classify
import WireCodec.Proofs.Wire.View
import WireCodec.Proofs.Wire.Closure
import WireCodec.Proofs.Codec.Closure
import WireCodec.Proofs.Codec.Layout
import WireCodec.Proofs.Codec.Safety
import WireCodec.Proofs.Wire.Calls
import WireCodec.Proofs.Wire.ShortReads
import WireCodec.Proofs.Wire.Varint
import WireCodec.Proofs.Codec.Nesting
import WireCodec.Proofs.Codec.RoundTrip
import WireCodec.Proofs.Codec.ForcedKind
import WireCodec.Proofs.Codec.CollectionCap
import WireCodec.Proofs.Wire.Writes
import WireCodec.Proofs.Text.GuidText
import WireCodec.Proofs.Codec.FrameWriter
import WireCodec.Proofs.Schema.DerivedUnion
import WireCodec.Proofs.Lz4.ReadBack
import WireCodec.Proofs.Codec.TimestampBinary
import WireCodec.Proofs.Equality
import WireCodec.Proofs.Codec.SizeEstimates
import WireCodec.Proofs.Wire.Buffered
import WireCodec.Proofs.Lz4.LongestPrefix
import WireCodec.Proofs.Lz4.SearchCounters
import WireCodec.Proofs.Lz4.CheckedReads
import WireCodec.Proofs.Lz4.DecoderSafety
import WireCodec.Proofs.Lz4.CheckedWalk
import WireCodec.Proofs.Lz4.SearchSafety
import WireCodec.Proofs.Lz4.BlockSearches
