import Mathlib
import WireCodec.Proofs.Lz4.LongestPrefix

/-!
# Reads and subtractions that fault

The model reads bytes with `ByteArray.get!`, which gives a default byte past the end, and
subtracts natural numbers, which stops at zero. On the machine an index past the end of a
slice and a subtraction below zero are faults. The checked operations here return `none`
where the machine faults: `checkedSub`, `byteAt?`, `wordAt?`, `regAt?`, `slotAt?` and
`setAt?`. The match counters are run again with every read checked (`matchCount?`,
`patternCount?`, `reversePatternCount?`), the forward ones reading a whole register at each
position, as the machine does.

Each checked counter returns the model's count whenever the bytes it may read lie in the
buffer: the forward counters when the limit does and the position compared trails the
position counted, the backward counter when its start does (`matchCount?_eq`,
`patternCount?_eq`, `reversePatternCount?_eq`).
-/

namespace WireCodec.Lz4

/-- `a - b`, or a fault when `b` exceeds `a`. -/
def checkedSub (a b : Nat) : Option Nat :=
  if b ≤ a then some (a - b) else none

/-- The byte at `pos`, or a fault past the end of `src`. -/
def byteAt? (src : ByteArray) (pos : Nat) : Option UInt8 :=
  if pos < src.size then some (src.get! pos) else none

/-- The four bytes at `pos` as `readU32` reads them, or a fault unless all four lie in
`src`. -/
def wordAt? (src : ByteArray) (pos : Nat) : Option UInt32 :=
  if pos + 4 ≤ src.size then some (readU32 src pos) else none

/-- The register of the width `w` at `pos`, or a fault unless all its bytes lie in `src`. -/
def regAt? (w : AddressWidth) (src : ByteArray) (pos : Nat) : Option UInt64 :=
  if pos + w.registerBytes ≤ src.size then some (w.readReg src pos) else none

/-- Slot `i` of a table, or a fault past its end. -/
def slotAt? (t : Array Nat) (i : Nat) : Option Nat :=
  if i < t.size then some (t.getD i 0) else none

/-- The table with slot `i` set to `v`, or a fault past its end. -/
def setAt? (t : Array Nat) (i v : Nat) : Option (Array Nat) :=
  if i < t.size then some (t.set! i v) else none

theorem checkedSub_of_le {a b : Nat} (h : b ≤ a) : checkedSub a b = some (a - b) := if_pos h

theorem byteAt?_of_lt {src : ByteArray} {pos : Nat} (h : pos < src.size) :
    byteAt? src pos = some (src.get! pos) := if_pos h

theorem wordAt?_of_le {src : ByteArray} {pos : Nat} (h : pos + 4 ≤ src.size) :
    wordAt? src pos = some (readU32 src pos) := if_pos h

theorem regAt?_of_le {w : AddressWidth} {src : ByteArray} {pos : Nat}
    (h : pos + w.registerBytes ≤ src.size) : regAt? w src pos = some (w.readReg src pos) :=
  if_pos h

theorem slotAt?_of_lt {t : Array Nat} {i : Nat} (h : i < t.size) :
    slotAt? t i = some (t.getD i 0) := if_pos h

theorem setAt?_of_lt {t : Array Nat} {i : Nat} (v : Nat) (h : i < t.size) :
    setAt? t i v = some (t.set! i v) := if_pos h

/-! ## Forward counters -/

/-- `tailCount` reading each byte with a check. -/
def tailCount? (src : ByteArray) (ip matched limit : Nat) : Option Nat :=
  if ip < limit then
    (byteAt? src ip).bind fun x =>
    (byteAt? src matched).bind fun y =>
      if x = y then (tailCount? src (ip + 1) (matched + 1) limit).map (· + 1) else some 0
  else some 0
termination_by limit - ip

/-- The forward match counter of the width `w` with its register reads checked. -/
def matchCount? (w : AddressWidth) (src : ByteArray) (ip matched limit : Nat) : Option Nat :=
  if ip + w.registerBytes ≤ limit then
    (regAt? w src ip).bind fun a =>
    (regAt? w src matched).bind fun b =>
      if a ^^^ b = 0 then
        (matchCount? w src (ip + w.registerBytes) (matched + w.registerBytes) limit).map
          (· + w.registerBytes)
      else some (trailingZeros (a ^^^ b) / 8)
  else tailCount? src ip matched limit
termination_by limit - ip
decreasing_by have := w.registerBytes_pos; omega

/-- `tailRegCount` reading each byte with a check. -/
def tailRegCount? (src : ByteArray) (ip limit : Nat) (reg : UInt64) : Option Nat :=
  if ip < limit then
    (byteAt? src ip).bind fun x =>
      if x = reg.toUInt8 then (tailRegCount? src (ip + 1) limit (reg >>> 8)).map (· + 1)
      else some 0
  else some 0
termination_by limit - ip

/-- The pattern counter of the width `w` with its register reads checked. -/
def patternCount? (w : AddressWidth) (src : ByteArray) (ip limit : Nat) (pattern : UInt32) :
    Option Nat :=
  if ip + w.registerBytes ≤ limit then
    (regAt? w src ip).bind fun a =>
      if a ^^^ w.spreadPattern pattern = 0 then
        (patternCount? w src (ip + w.registerBytes) limit pattern).map (· + w.registerBytes)
      else some (trailingZeros (a ^^^ w.spreadPattern pattern) / 8)
  else tailRegCount? src ip limit (w.spreadPattern pattern)
termination_by limit - ip
decreasing_by have := w.registerBytes_pos; omega

section Forward

variable {src : ByteArray} {limit : Nat}

theorem tailCount?_eq {ip matched : Nat} (hm : matched ≤ ip) (hsize : limit ≤ src.size) :
    tailCount? src ip matched limit = some (tailCount src ip matched limit) := by
  -- both positions stay below the limit while the bytes are compared
  fun_induction tailCount src ip matched limit with
  | case1 ip matched hc ih =>
    rw [tailCount?, if_pos hc.1, byteAt?_of_lt (by omega), Option.bind_some,
      byteAt?_of_lt (by omega), Option.bind_some, if_pos hc.2, ih (by omega), Option.map_some]
  | case2 ip matched hc =>
    rw [tailCount?]
    by_cases hlt : ip < limit
    · have hne : ¬src.get! ip = src.get! matched := fun heq => hc ⟨hlt, heq⟩
      rw [if_pos hlt, byteAt?_of_lt (by omega), Option.bind_some, byteAt?_of_lt (by omega),
        Option.bind_some, if_neg hne]
    · rw [if_neg hlt]

theorem matchCount?_eq (w : AddressWidth) {ip matched : Nat} (hm : matched ≤ ip)
    (hsize : limit ≤ src.size) :
    matchCount? w src ip matched limit = some (matchCount w src ip matched limit) := by
  -- both registers lie below the limit whenever the first does
  fun_induction matchCount w src ip matched limit with
  | case1 ip matched hfit diff hzero ih =>
    rw [matchCount?, if_pos hfit, regAt?_of_le (by omega), Option.bind_some,
      regAt?_of_le (by omega), Option.bind_some, if_pos hzero, ih (by omega), Option.map_some]
  | case2 ip matched hfit diff hne =>
    rw [matchCount?, if_pos hfit, regAt?_of_le (by omega), Option.bind_some,
      regAt?_of_le (by omega), Option.bind_some, if_neg hne]
  | case3 ip matched hfit =>
    rw [matchCount?, if_neg hfit, tailCount?_eq hm hsize]

theorem tailRegCount?_eq {ip : Nat} {reg : UInt64} (hsize : limit ≤ src.size) :
    tailRegCount? src ip limit reg = some (tailRegCount src ip limit reg) := by
  fun_induction tailRegCount src ip limit reg with
  | case1 ip reg hc ih =>
    rw [tailRegCount?, if_pos hc.1, byteAt?_of_lt (by omega), Option.bind_some, if_pos hc.2,
      ih, Option.map_some]
  | case2 ip reg hc =>
    rw [tailRegCount?]
    by_cases hlt : ip < limit
    · have hne : ¬src.get! ip = reg.toUInt8 := fun heq => hc ⟨hlt, heq⟩
      rw [if_pos hlt, byteAt?_of_lt (by omega), Option.bind_some, if_neg hne]
    · rw [if_neg hlt]

theorem patternCount?_eq (w : AddressWidth) {ip : Nat} {pattern : UInt32}
    (hsize : limit ≤ src.size) :
    patternCount? w src ip limit pattern = some (patternCount w src ip limit pattern) := by
  fun_induction patternCount w src ip limit pattern with
  | case1 ip hfit diff hzero ih =>
    rw [patternCount?, if_pos hfit, regAt?_of_le (by omega), Option.bind_some, if_pos hzero, ih,
      Option.map_some]
  | case2 ip hfit diff hne =>
    rw [patternCount?, if_pos hfit, regAt?_of_le (by omega), Option.bind_some, if_neg hne]
  | case3 ip hfit =>
    rw [patternCount?, if_neg hfit, tailRegCount?_eq hsize]

end Forward

/-! ## The backward counter -/

/-- `reverseWords` reading each word with a check. -/
def reverseWords? (src : ByteArray) (ip low : Nat) (pattern : UInt32) : Option Nat :=
  if low + minMatch ≤ ip then
    (wordAt? src (ip - minMatch)).bind fun word =>
      if word = pattern then reverseWords? src (ip - minMatch) low pattern else some ip
  else some ip
termination_by ip
decreasing_by simp only [minMatch] at *; omega

/-- `reverseBytes` reading each byte with a check. -/
def reverseBytes? (src : ByteArray) (ip low : Nat) (pattern : UInt32) : Nat → Option Nat
  | 0 => some ip
  | idx + 1 =>
    if low < ip then
      (byteAt? src (ip - 1)).bind fun x =>
        if x = patternByte pattern idx then reverseBytes? src (ip - 1) low pattern idx
        else some ip
    else some ip

/-- The backward counter with its reads checked, and the count `ip - reached` a checked
subtraction. -/
def reversePatternCount? (src : ByteArray) (ip low : Nat) (pattern : UInt32) : Option Nat :=
  (reverseWords? src ip low pattern).bind fun words =>
  (reverseBytes? src words low pattern 4).bind fun reached =>
    checkedSub ip reached

section Backward

variable {src : ByteArray} {low : Nat} {pattern : UInt32}

theorem reverseWords?_eq {ip : Nat} (hsize : ip ≤ src.size) :
    reverseWords? src ip low pattern = some (reverseWords src ip low pattern) := by
  fun_induction reverseWords src ip low pattern with
  | case1 ip hc ih =>
    rw [reverseWords?, if_pos hc.1, wordAt?_of_le (by simp only [minMatch] at *; omega),
      Option.bind_some, if_pos hc.2, ih (by omega)]
  | case2 ip hc =>
    rw [reverseWords?]
    by_cases hle : low + minMatch ≤ ip
    · have hne : ¬readU32 src (ip - minMatch) = pattern := fun heq => hc ⟨hle, heq⟩
      rw [if_pos hle, wordAt?_of_le (by simp only [minMatch] at *; omega), Option.bind_some,
        if_neg hne]
    · rw [if_neg hle]

theorem reverseBytes?_eq (idx : Nat) {ip : Nat} (hsize : ip ≤ src.size) :
    reverseBytes? src ip low pattern idx = some (reverseBytes src ip low pattern idx) := by
  induction idx generalizing ip with
  | zero => rfl
  | succ idx ih =>
    rw [reverseBytes?, reverseBytes]
    by_cases hlt : low < ip
    · rw [if_pos hlt, byteAt?_of_lt (by omega), Option.bind_some]
      by_cases heq : src.get! (ip - 1) = patternByte pattern idx
      · rw [if_pos heq, if_pos ⟨hlt, heq⟩, ih (by omega)]
      · rw [if_neg heq, if_neg fun h => heq h.2]
    · rw [if_neg hlt, if_neg fun h => hlt h.1]

theorem reversePatternCount?_eq {ip : Nat} (hlow : low ≤ ip) (hsize : ip ≤ src.size) :
    reversePatternCount? src ip low pattern = some (reversePatternCount src ip low pattern) := by
  obtain ⟨hlowW, hleW, -⟩ := @reverseWords_spec src low pattern ip hlow
  obtain ⟨-, hleB, -⟩ := @reverseBytes_spec src low pattern (reverseWords src ip low pattern) 4 hlowW
  rw [reversePatternCount?, reverseWords?_eq hsize, Option.bind_some, reverseBytes?_eq 4 (by omega),
    Option.bind_some, checkedSub_of_le (by omega), reversePatternCount]

/-- The backward count never passes the lower bound. -/
theorem reversePatternCount_le {ip : Nat} (hlow : low ≤ ip) :
    reversePatternCount src ip low pattern ≤ ip - low := by
  obtain ⟨hlowW, hleW, -⟩ := @reverseWords_spec src low pattern ip hlow
  obtain ⟨hlowB, -⟩ := @reverseBytes_spec src low pattern (reverseWords src ip low pattern) 4 hlowW
  rw [reversePatternCount]
  omega

end Backward

end WireCodec.Lz4
