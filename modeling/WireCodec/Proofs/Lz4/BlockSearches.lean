import Mathlib
import WireCodec.Proofs.Lz4.SearchSafety

/-!
# The block encoder searches only where searching is safe

`HashChains.lazy?`, `HashChains.encodeFrom?` and `HashChains.compressBlock?` are the
high-compression block encoder with every search made by the checked finder
`findWiderMatch?`: a search that would fault on the machine stops the encoder with `none`.
The scan of `encodeFrom?` also stops with `none` where a match would not move it forward.

The scan keeps what `findWiderMatch?_eq` asks of each search (`BlockScan`): the finder is
sound, the pending literals start at or above its low limit, the scan stops `mfLimit`
bytes before the end of the window and matches stop `lastLiterals` bytes before it.
Searches keep the base and the low limit, so this frame never moves, and every position
searched lies between the pending literals and the end of the scan. From a sound finder
whose low limit is at most the start of its block, the checked encoder therefore encodes
as the model does (`HashChains.compressBlock?_eq`). Both encoders start from such a finder:
the one-shot encoder from a fresh one (`compressHC?_eq`), and a stream from its prepared
finder, whose low limit is the first byte of its window (`HcStream.compressContinue?_eq`).
-/

namespace WireCodec.Lz4

namespace HashChains

/-! ## The encoder with checked searches -/

/-- `lazy`, with each search made by the checked finder. -/
def lazy? (c : HashChains) (window : ByteArray) (anchor matchLimit mflimit : Nat)
    (current : ChainMatch) (nextIp attempts : Nat) : Option (HashChains × ChainMatch) :=
  if 0 < attempts ∧ nextIp ≤ mflimit then
    (c.findWiderMatch? window nextIp anchor matchLimit current.len).bind fun r =>
      match r.1 with
      | (c, none) => c.lazy? window anchor matchLimit mflimit current (nextIp + 1) (attempts - 1)
      | (c, some m) =>
        if current.gain anchor < m.gain anchor then
          c.lazy? window anchor matchLimit mflimit m (nextIp + 1) (levelParams c.level).lookahead
        else c.lazy? window anchor matchLimit mflimit current (nextIp + 1) (attempts - 1)
  else some (c, current)
termination_by mflimit + 1 - nextIp

/-- `encodeFrom`, with each search made by the checked finder; a match that does not end
past the searched position stops the scan. -/
def encodeFrom? (c : HashChains) (window : ByteArray) (e : Emitter) (mflimit matchLimit : Nat)
    (anchor ip : Nat) : Option (HashChains × Except Error ByteArray) :=
  if ip ≤ mflimit then
    (c.findWiderMatch? window ip anchor matchLimit (minMatch - 1)).bind fun r =>
      match r.1 with
      | (c₁, some m₁) =>
        (c₁.lazy? window anchor matchLimit mflimit m₁ (ip + 1)
            (levelParams c₁.level).lookahead).bind fun chosen =>
          if ip < chosen.2.stop then
            match e.writeSequence window (anchor - chosen.1.base) (chosen.2.start - anchor)
                chosen.2.offset chosen.2.len with
            | .ok e => chosen.1.encodeFrom? window e mflimit matchLimit chosen.2.stop chosen.2.stop
            | .error err => some (chosen.1, .error err)
          else none
      | (c₁, none) => c₁.encodeFrom? window e mflimit matchLimit anchor (ip + 1)
  else some (c, e.finish window (anchor - c.base) (window.size - (anchor - c.base)))
termination_by mflimit + 1 - ip

/-- `compressBlock`, with each search made by the checked finder. -/
def compressBlock? (c : HashChains) (window : ByteArray) (capacity : Nat) :
    Option (HashChains × Except Error ByteArray) :=
  let stop := c.base + window.size
  let len := stop - c.dictLimit
  if len > maxInputSize then some (c, .error (.inputTooLarge len maxInputSize))
  else if len < minLength then
    some (c, (Emitter.empty capacity).finish window (c.dictLimit - c.base) len)
  else c.encodeFrom? window (Emitter.empty capacity) (stop - mfLimit) (stop - lastLiterals)
    c.dictLimit c.dictLimit

/-! ## The frame of a block's scan -/

/-- What the scan of a block keeps for every search it makes: the finder is sound, the
pending literals start at or above its low limit, the scan stops `mfLimit` bytes before the
end of the window, and matches stop `lastLiterals` bytes before it. -/
structure BlockScan (c : HashChains) (window : ByteArray) (anchor mflimit matchLimit : Nat) :
    Prop where
  sound : c.Sound
  lowLimit_le : c.lowLimit ≤ anchor
  scan_le : mflimit + mfLimit ≤ c.base + window.size
  match_end : matchLimit + lastLiterals = c.base + window.size

namespace BlockScan

variable {c : HashChains} {window : ByteArray} {anchor mflimit matchLimit : Nat}

/-- A search of the scan, between the pending literals and the end of the scan, faults
nowhere. -/
theorem findWiderMatch?_eq (hs : BlockScan c window anchor mflimit matchLimit) {ip : Nat}
    (hanchor : anchor ≤ ip) (hip : ip ≤ mflimit) (longest : Nat) :
    ∃ k, c.findWiderMatch? window ip anchor matchLimit longest =
      some (c.findWiderMatch window ip anchor matchLimit longest, k) := by
  have hscan := hs.scan_le
  obtain ⟨k, -, hk⟩ := HashChains.findWiderMatch?_eq hs.sound hs.lowLimit_le hanchor
    (by omega) hs.match_end longest
  exact ⟨k, hk⟩

/-- A search keeps the frame: it moves neither the base nor the low limit. -/
theorem search (hs : BlockScan c window anchor mflimit matchLimit)
    {ip low limit longest : Nat} {c' : HashChains} {found : Option ChainMatch}
    (h : c.findWiderMatch window ip low limit longest = (c', found)) :
    BlockScan c' window anchor mflimit matchLimit := by
  obtain ⟨hbase, hlow⟩ := findWiderMatch_frame_of_eq c window h
  exact ⟨hs.sound.of_findWiderMatch_eq h, hlow ▸ hs.lowLimit_le, hbase ▸ hs.scan_le,
    hbase ▸ hs.match_end⟩

theorem lazy (hs : BlockScan c window anchor mflimit matchLimit) (current : ChainMatch)
    (nextIp attempts : Nat) :
    BlockScan (c.lazy window anchor matchLimit mflimit current nextIp attempts).1 window anchor
      mflimit matchLimit := by
  fun_induction c.lazy window anchor matchLimit mflimit current nextIp attempts with
  | case1 c current nextIp attempts _ c' m hfind _ ih => exact ih (hs.search hfind)
  | case2 c current nextIp attempts _ c' m hfind _ ih => exact ih (hs.search hfind)
  | case3 c current nextIp attempts _ c' hfind ih => exact ih (hs.search hfind)
  | case4 => exact hs

/-- The pending literals may start later. -/
theorem of_le (hs : BlockScan c window anchor mflimit matchLimit) {anchor' : Nat}
    (h : anchor ≤ anchor') : BlockScan c window anchor' mflimit matchLimit :=
  ⟨hs.sound, Nat.le_trans hs.lowLimit_le h, hs.scan_le, hs.match_end⟩

end BlockScan

/-! ## The checked encoder encodes as the model does -/

section Encode

variable {c : HashChains} {window : ByteArray} {anchor mflimit matchLimit : Nat}

theorem lazy?_eq (hs : BlockScan c window anchor mflimit matchLimit) (current : ChainMatch)
    {nextIp : Nat} (hnext : anchor ≤ nextIp) (attempts : Nat) :
    c.lazy? window anchor matchLimit mflimit current nextIp attempts =
      some (c.lazy window anchor matchLimit mflimit current nextIp attempts) := by
  fun_induction c.lazy window anchor matchLimit mflimit current nextIp attempts with
  | case1 c current nextIp attempts hgo c' m hfind hbetter ih =>
    obtain ⟨k, hk⟩ := hs.findWiderMatch?_eq hnext hgo.2 current.len
    rw [lazy?, if_pos hgo, hk, Option.bind_some]
    simp only [hfind, if_pos hbetter]
    exact ih (hs.search hfind) (by omega)
  | case2 c current nextIp attempts hgo c' m hfind hworse ih =>
    obtain ⟨k, hk⟩ := hs.findWiderMatch?_eq hnext hgo.2 current.len
    rw [lazy?, if_pos hgo, hk, Option.bind_some]
    simp only [hfind, if_neg hworse]
    exact ih (hs.search hfind) (by omega)
  | case3 c current nextIp attempts hgo c' hfind ih =>
    obtain ⟨k, hk⟩ := hs.findWiderMatch?_eq hnext hgo.2 current.len
    rw [lazy?, if_pos hgo, hk, Option.bind_some]
    simp only [hfind]
    exact ih (hs.search hfind) (by omega)
  | case4 c current nextIp attempts hstop =>
    rw [lazy?, if_neg hstop]

/-- The match the scan settles on at `ip` ends past `ip`, so the scan moves forward. -/
theorem ip_lt_chosen_stop {c₁ c₂ : HashChains} {ip : Nat} {m₁ m₂ : ChainMatch}
    (hf : c.findWiderMatch window ip anchor matchLimit (minMatch - 1) = (c₁, some m₁))
    (hl : c₁.lazy window anchor matchLimit mflimit m₁ (ip + 1) (levelParams c₁.level).lookahead =
      (c₂, m₂)) :
    ip < m₂.stop := by
  have h₁ := findWiderMatch_stop hf
  have h₂ := lazy_stop c₁ window anchor matchLimit mflimit m₁ (ip + 1)
    (levelParams c₁.level).lookahead ip (by simp only [minMatch] at h₁; omega) (by omega)
  rw [hl] at h₂
  exact h₂

theorem encodeFrom?_eq (hs : BlockScan c window anchor mflimit matchLimit) (e : Emitter)
    {ip : Nat} (hip : anchor ≤ ip) :
    c.encodeFrom? window e mflimit matchLimit anchor ip =
      some (c.encodeFrom window e mflimit matchLimit anchor ip) := by
  fun_induction c.encodeFrom window e mflimit matchLimit anchor ip with
  | case1 c e anchor ip hle c₁ hf ih =>
    obtain ⟨k, hk⟩ := hs.findWiderMatch?_eq hip hle (minMatch - 1)
    rw [encodeFrom?, if_pos hle, hk, Option.bind_some]
    simp only [hf]
    exact ih (hs.search hf) (by omega)
  | case2 c e anchor ip hle c₁ m₁ hf c₂ m₂ hl err hw =>
    obtain ⟨k, hk⟩ := hs.findWiderMatch?_eq hip hle (minMatch - 1)
    have hlazy := lazy?_eq (hs.search hf) m₁ (show anchor ≤ ip + 1 by omega)
      (levelParams c₁.level).lookahead
    rw [hl] at hlazy
    rw [encodeFrom?, if_pos hle, hk, Option.bind_some]
    simp only [hf, hlazy, Option.bind_some, if_pos (ip_lt_chosen_stop hf hl), hw]
  | case3 c e anchor ip hle c₁ m₁ hf c₂ m₂ hl e' hw ih =>
    obtain ⟨k, hk⟩ := hs.findWiderMatch?_eq hip hle (minMatch - 1)
    have hstop := ip_lt_chosen_stop hf hl
    have hlazy := lazy?_eq (hs.search hf) m₁ (show anchor ≤ ip + 1 by omega)
      (levelParams c₁.level).lookahead
    have hs₂ := (hs.search hf).lazy m₁ (ip + 1) (levelParams c₁.level).lookahead
    rw [hl] at hlazy hs₂
    rw [encodeFrom?, if_pos hle, hk, Option.bind_some]
    simp only [hf, hlazy, Option.bind_some, if_pos hstop, hw]
    exact ih (hs₂.of_le (by omega)) (Nat.le_refl _)
  | case4 c e anchor ip hgt =>
    rw [encodeFrom?, if_neg hgt]

/-- A sound finder whose low limit is at most the start of its block encodes the block with
no search that faults. -/
theorem compressBlock?_eq (hc : c.Sound) (hdict : c.lowLimit ≤ c.dictLimit) (capacity : Nat) :
    c.compressBlock? window capacity = some (c.compressBlock window capacity) := by
  rw [compressBlock?, HashChains.compressBlock]
  by_cases hlarge : c.base + window.size - c.dictLimit > maxInputSize
  · rw [if_pos hlarge, if_pos hlarge]
  rw [if_neg hlarge, if_neg hlarge]
  by_cases hsmall : c.base + window.size - c.dictLimit < minLength
  · rw [if_pos hsmall, if_pos hsmall]
  rw [if_neg hsmall, if_neg hsmall]
  -- a block of at least `minLength` bytes leaves room for the scan and its last literals
  simp only [minLength, mfLimit] at hsmall
  have hs : BlockScan c window c.dictLimit (c.base + window.size - mfLimit)
      (c.base + window.size - lastLiterals) :=
    ⟨hc, hdict, by simp only [mfLimit]; omega, by simp only [lastLiterals]; omega⟩
  exact encodeFrom?_eq hs _ (Nat.le_refl _)

end Encode

end HashChains

/-- The one-shot high-compression encoder with every search checked. -/
def compressHC? (w : AddressWidth) (src : ByteArray) (capacity : Nat) (level : Int) :
    Option (Except Error ByteArray) :=
  if src.size > maxInputSize then some (.error (.inputTooLarge src.size maxInputSize))
  else ((HashChains.fresh w level).compressBlock? src capacity).map Prod.snd

/-- The one-shot high-compression encoder makes no search that faults, on any input. -/
theorem compressHC?_eq (w : AddressWidth) (src : ByteArray) (capacity : Nat) (level : Int) :
    compressHC? w src capacity level = some (compressHC w src capacity level) := by
  rw [compressHC?, compressHC]
  split
  · rfl
  · rw [HashChains.compressBlock?_eq (HashChains.sound_fresh w level) (Nat.le_refl _),
      Option.map_some]

namespace HcStream

/-- `encodeNext`, with the block encoded by the checked encoder. -/
def encodeNext? (p : HcStream) (src : ByteArray) (capacity : Nat) :
    Option (HcStream × Except Error ByteArray) :=
  (p.blockChains.compressBlock? (p.window ++ src) capacity).map fun r =>
    match r.2 with
    | .error e =>
      (⟨{ r.1 with nextToUpdate := min r.1.nextToUpdate r.1.dictLimit }, p.window⟩, .error e)
    | .ok block => (⟨r.1, p.window ++ src⟩, .ok block)

/-- `compressContinue`, with the block encoded by the checked encoder. -/
def compressContinue? (s : HcStream) (src : ByteArray) (capacity : Nat) :
    Option (HcStream × Except Error ByteArray) :=
  if src.size > maxInputSize then some (s, .error (.inputTooLarge src.size maxInputSize))
  else (s.prepare src.size).encodeNext? src capacity

/-- A stream whose low limit is the first byte of its window hands the block encoder a
finder whose low limit is below the block. -/
theorem encodeNext?_eq {p : HcStream} (hp : p.chains.Sound)
    (hlow : p.chains.lowLimit = p.chains.base) (src : ByteArray) (capacity : Nat) :
    p.encodeNext? src capacity = some (p.encodeNext src capacity) := by
  have hdict : p.blockChains.lowLimit ≤ p.blockChains.dictLimit := by
    show p.chains.lowLimit ≤ p.chains.base + p.window.size
    rw [hlow]
    exact Nat.le_add_right _ _
  rw [encodeNext?, HashChains.compressBlock?_eq (blockChains_sound hp) hdict capacity,
    Option.map_some, HcStream.encodeNext]
  simp only [HcStream.blockChains]
  -- the block fails or is returned, and both encoders hand the stream the same finder
  rcases ({ p.chains with dictLimit := p.chains.base + p.window.size } : HashChains).compressBlock
      (p.window ++ src) capacity with ⟨c', _ | block⟩
  · rfl
  · rfl

theorem compressContinue?_eq {s : HcStream} (hs : s.chains.Sound) (src : ByteArray)
    (capacity : Nat) : s.compressContinue? src capacity = some (s.compressContinue src capacity) := by
  rw [compressContinue?, HcStream.compressContinue]
  split
  · rfl
  · exact encodeNext?_eq (prepare_sound hs src.size) (prepare_lowLimit s src.size) src capacity

/-- Whatever calls a stream has had, encoding its next block makes no search that faults. -/
theorem replay_compressContinue?_eq (w : AddressWidth) (level : Int) (ops : List StreamOp)
    (src : ByteArray) (capacity : Nat) :
    (replay w level ops).1.compressContinue? src capacity =
      some ((replay w level ops).1.compressContinue src capacity) :=
  compressContinue?_eq (replay_sound w level ops) src capacity

end HcStream

end WireCodec.Lz4
