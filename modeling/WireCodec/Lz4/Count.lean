import WireCodec.Lz4.Basic

/-!
# Match counters

How far two positions of a buffer agree, and how far a run of a repeating four-byte
pattern extends. The forward counters read a register at each position, the
little-endian word of four or eight bytes by `AddressWidth.registerBytes`, and compare
the two by their exclusive or: a zero difference moves both positions a register on, and
otherwise the count stops at byte `trailingZeros diff / 8` of the register, the lowest
byte with a differing bit. What is left before the limit, less than a register, is
compared one byte at a time. The pattern counter compares each register with the pattern
widened to a register (`AddressWidth.spreadPattern`) and its tail with the successive low
bytes of that register.

The backward counter walks four bytes at a time while whole words equal the pattern and
then byte by byte against the pattern's bytes from its last.
-/

namespace WireCodec.Lz4

/-- Byte `k` of the infinite repetition of the little-endian bytes of `pattern`. -/
def patternByte (pattern : UInt32) (k : Nat) : UInt8 :=
  (pattern >>> (8 * (k % 4)).toUInt32).toUInt8

/-- The `n` bytes of `src` from `pos` as a little-endian number. -/
def leWord (src : ByteArray) (pos : Nat) : Nat → Nat
  | 0 => 0
  | n + 1 => (src.get! pos).toNat + 256 * leWord src (pos + 1) n

/-- The number of zero bits below the lowest set bit of a word, 64 for zero. -/
def trailingZeros (x : UInt64) : Nat :=
  x.toBitVec.ctz.toNat

namespace AddressWidth

theorem registerBytes_pos (w : AddressWidth) : 0 < w.registerBytes := by
  cases w <;> decide

/-- The register read at `pos`: the little-endian word of `registerBytes` bytes, the
narrow width reading it as one `readU32`. -/
def readReg : AddressWidth → ByteArray → Nat → UInt64
  | bits32, src, pos => (readU32 src pos).toUInt64
  | bits64, src, pos => (leWord src pos 8).toUInt64

/-- The four-byte pattern widened to a register: once for the narrow width, twice over for
the wide one. -/
def spreadPattern : AddressWidth → UInt32 → UInt64
  | bits32, pattern => pattern.toUInt64
  | bits64, pattern => pattern.toUInt64 ||| pattern.toUInt64 <<< 32

end AddressWidth

/-- Bytes from `ip` up to `limit` that equal the bytes from `matched`, one at a time. -/
def tailCount (src : ByteArray) (ip matched limit : Nat) : Nat :=
  if ip < limit ∧ src.get! ip = src.get! matched then
    tailCount src (ip + 1) (matched + 1) limit + 1
  else 0
termination_by limit - ip

/-- Length of the common prefix of the bytes in `[ip, limit)` and those from `matched`,
counted a register at a time for the width `w`. -/
def matchCount (w : AddressWidth) (src : ByteArray) (ip matched limit : Nat) : Nat :=
  if ip + w.registerBytes ≤ limit then
    let diff := w.readReg src ip ^^^ w.readReg src matched
    if diff = 0 then
      matchCount w src (ip + w.registerBytes) (matched + w.registerBytes) limit + w.registerBytes
    else trailingZeros diff / 8
  else tailCount src ip matched limit
termination_by limit - ip
decreasing_by have := w.registerBytes_pos; omega

/-- Bytes from `ip` up to `limit` that equal the successive low bytes of `reg`, which
moves down a byte after each. -/
def tailRegCount (src : ByteArray) (ip limit : Nat) (reg : UInt64) : Nat :=
  if ip < limit ∧ src.get! ip = reg.toUInt8 then
    tailRegCount src (ip + 1) limit (reg >>> 8) + 1
  else 0
termination_by limit - ip

/-- How many bytes of `[ip, limit)` continue the repetition of `pattern`'s little-endian
bytes started at `ip`, counted a register at a time for the width `w`. -/
def patternCount (w : AddressWidth) (src : ByteArray) (ip limit : Nat) (pattern : UInt32) : Nat :=
  if ip + w.registerBytes ≤ limit then
    let diff := w.readReg src ip ^^^ w.spreadPattern pattern
    if diff = 0 then patternCount w src (ip + w.registerBytes) limit pattern + w.registerBytes
    else trailingZeros diff / 8
  else tailRegCount src ip limit (w.spreadPattern pattern)
termination_by limit - ip
decreasing_by have := w.registerBytes_pos; omega

/-- Whole words below `ip`, down to `low`, that equal `pattern`; returns the position
reached. -/
def reverseWords (src : ByteArray) (ip low : Nat) (pattern : UInt32) : Nat :=
  if low + minMatch ≤ ip ∧ readU32 src (ip - minMatch) = pattern then
    reverseWords src (ip - minMatch) low pattern
  else ip
termination_by ip
decreasing_by simp only [minMatch] at *; omega

/-- Single bytes below `ip`, down to `low`, that equal the pattern's bytes from byte
`idx - 1` down; returns the position reached. -/
def reverseBytes (src : ByteArray) (ip low : Nat) (pattern : UInt32) : Nat → Nat
  | 0 => ip
  | idx + 1 =>
    if low < ip ∧ src.get! (ip - 1) = patternByte pattern idx then
      reverseBytes src (ip - 1) low pattern idx
    else ip

/-- How many bytes before `ip`, down to `low`, continue `pattern` backwards, the pattern's
first byte sitting at `ip`. -/
def reversePatternCount (src : ByteArray) (ip low : Nat) (pattern : UInt32) : Nat :=
  ip - reverseBytes src (reverseWords src ip low pattern) low pattern 4

/-- The pattern as seen `rotate` bytes further along the run. -/
def rotatePattern (rotate : Nat) (pattern : UInt32) : UInt32 :=
  let bits := (rotate % 4 * 8).toUInt32
  if bits = 0 then pattern else (pattern <<< bits) ||| (pattern >>> (32 - bits))

/-- All four bytes of the word are equal: a run of period one. -/
def isRepeating (pattern : UInt32) : Bool :=
  pattern &&& (0xFFFF : UInt32) == pattern >>> 16 && pattern &&& (0xFF : UInt32) == pattern >>> 24

end WireCodec.Lz4
