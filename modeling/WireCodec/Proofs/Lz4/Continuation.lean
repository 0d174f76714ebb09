import WireCodec.Proofs.Lz4.HighRoundTrip
import WireCodec.Proofs.Lz4.EndConditions

/-!
# High-compression blocks after a history

The high-compression encoder numbers the bytes of its window logically and encodes those
from `dictLimit` on; the bytes before them are history that its matches may reach, a
dictionary or the blocks a stream encoded before. `compressBlock_follows` says what every
block it returns is: it decodes, after that history, to the window, and it keeps the end
conditions of the format for a block of the bytes after the history.

The argument is the one of `compressHC_roundTrip`, with `Emitter.Follows` in place of
`Emitter.Encodes`: every match written fits the block (`chosen_fits`), and it starts no
later than the last position searched, `mfLimit` bytes before the end of the window.
-/

namespace WireCodec.Lz4

namespace HashChains

/-- A match found at `ip` starts there or before. -/
theorem findWiderMatch_start_le {c : HashChains} {window : ByteArray}
    {ip low limit longest : Nat} {c' : HashChains} {m : ChainMatch}
    (h : c.findWiderMatch window ip low limit longest = (c', some m)) : m.start ≤ ip := by
  simp only [findWiderMatch, Prod.mk.injEq] at h
  exact walk_of_found _ _ (fun m => m.start ≤ ip) (fun _ _ _ _ => Nat.sub_le _ _) _ _ _ _ _
    (fun _ hx => by simp at hx) m h.2

/-- The lazy step only takes matches found at positions it searches, none past `mflimit`. -/
theorem lazy_start_le (c : HashChains) (window : ByteArray) (anchor matchLimit mflimit : Nat)
    (current : ChainMatch) (nextIp attempts : Nat) (hcur : current.start ≤ mflimit) :
    (c.lazy window anchor matchLimit mflimit current nextIp attempts).2.start ≤ mflimit := by
  fun_induction c.lazy window anchor matchLimit mflimit current nextIp attempts with
  | case1 c current nextIp attempts hnext c' m hfind _ ih =>
    exact ih (Nat.le_trans (findWiderMatch_start_le hfind) hnext.2)
  | case2 _ _ _ _ _ _ _ _ _ ih => exact ih hcur
  | case3 _ _ _ _ _ _ _ ih => exact ih hcur
  | case4 => exact hcur

/-- The scan from `ip`, with literals pending since `anchor` and the first `h` bytes of the
window as history, closes a block that decodes after the history to the window and keeps
the end conditions, whenever it closes one. -/
theorem encodeFrom_follows {c : HashChains} {window : ByteArray} {e : Emitter}
    {mflimit matchLimit anchor ip h : Nat} (hbase : c.base ≤ c.lowLimit)
    (hanchor : c.base ≤ anchor) (hip : anchor ≤ ip) (hmf : mflimit + minMatch ≤ matchLimit)
    (hend : matchLimit + lastLiterals ≤ c.base + window.size)
    (hmfl : mflimit + mfLimit ≤ c.base + window.size) (hlong : minLength ≤ window.size - h)
    (he : e.Follows window.data.toList h (anchor - c.base)) {out : ByteArray}
    (hout : (c.encodeFrom window e mflimit matchLimit anchor ip).2 = .ok out) :
    ∃ b : Block, out.data.toList = b.bytes ∧
      b.decode? (window.data.toList.take h) = some window.data.toList ∧
      b.Conforms h (window.size - h) := by
  fun_induction c.encodeFrom window e mflimit matchLimit anchor ip with
  | case1 c e anchor ip hle c₁ hf ih =>
    obtain ⟨hb, hl⟩ := findWiderMatch_frame_of_eq c window hf
    rw [hb, hl] at ih
    exact ih hbase hanchor (by omega) hend hmfl he hout
  | case2 => cases hout
  | case3 c e anchor ip hle c₁ m₁ hf c₂ m₂ hl e' hw ih =>
    obtain ⟨hb₂, hl₂, hm₂⟩ := chosen_fits hbase hanchor hip hle hmf hf hl
    -- the chosen match starts no later than the last position searched
    have hstart : m₂.start ≤ mflimit := by
      have := lazy_start_le c₁ window anchor matchLimit mflimit m₁ (ip + 1)
        (levelParams c₁.level).lookahead (Nat.le_trans (findWiderMatch_start_le hf) hle)
      rwa [hl] at this
    have hlow := hm₂.low_le
    have hreach := hm₂.base_le
    have hstop := hm₂.stop_le
    unfold ChainMatch.stop at hstop
    rw [hb₂, show m₂.start - anchor = m₂.start - c.base - (anchor - c.base) by omega] at hw
    have he' := he.writeSequence rfl (by omega) hm₂.offset_pos (by omega) hm₂.offset_le
      hm₂.minMatch_le (by rw [ByteArray.length_data_toList]; omega)
      (by rw [ByteArray.length_data_toList]; omega) hm₂.agree hw
    rw [hb₂, hl₂] at ih
    rw [show m₂.start - c.base + m₂.len = m₂.stop - c.base by unfold ChainMatch.stop; omega] at he'
    exact ih hbase (by unfold ChainMatch.stop; omega) (Nat.le_refl _) hend hmfl he' hout
  | case4 c e anchor ip _ =>
    have hlong' : ¬ window.data.toList.length - h < minLength := by
      rw [ByteArray.length_data_toList]
      omega
    have := he.finish rfl (fun hlt => absurd hlt hlong') hout
    rwa [ByteArray.length_data_toList] at this

/-- Every block the finder's `compressBlock` returns reads as a block that decodes, after
the history in front of `dictLimit`, to the window, and that keeps the end conditions of a
block of the bytes from `dictLimit` on. -/
theorem compressBlock_follows {c : HashChains} {window : ByteArray} {capacity : Nat}
    {c' : HashChains} {block : ByteArray} (hbase : c.base ≤ c.lowLimit)
    (hdict : c.base ≤ c.dictLimit) (hwin : c.dictLimit ≤ c.base + window.size)
    (h : c.compressBlock window capacity = (c', .ok block)) :
    ∃ b : Block, block.data.toList = b.bytes ∧
      b.decode? (window.data.toList.take (c.dictLimit - c.base)) = some window.data.toList ∧
      b.Conforms (c.dictLimit - c.base) (window.size - (c.dictLimit - c.base)) := by
  have he := Emitter.follows_empty capacity
    (show c.dictLimit - c.base ≤ window.data.toList.length by simp; omega)
  rw [compressBlock] at h
  have hlen : c.base + window.size - c.dictLimit = window.size - (c.dictLimit - c.base) := by
    omega
  split at h
  · cases h
  · split at h
    · -- a short block is its literals
      rename_i hshort
      have hfin := congrArg Prod.snd h
      rw [hlen] at hfin
      have := he.finish rfl (fun _ => rfl) hfin
      rwa [ByteArray.length_data_toList] at this
    · rename_i hlong
      unfold minLength mfLimit at hlong
      refine encodeFrom_follows hbase hdict (Nat.le_refl _) ?_ ?_ ?_ ?_ ?_ (congrArg Prod.snd h)
      · unfold mfLimit minMatch lastLiterals
        omega
      · unfold lastLiterals
        omega
      · unfold mfLimit
        omega
      · unfold minLength mfLimit
        omega
      · exact he

end HashChains

end WireCodec.Lz4
