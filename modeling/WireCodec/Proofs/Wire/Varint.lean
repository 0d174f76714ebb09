import Mathlib
import WireCodec.Proofs.Wire.ShortReads

/-!
# Varints

A varint is an LEB128 form of a number: seven bits per byte, lowest first, the high bit of
every byte but the last saying that more follow (`Leb128`). The writer appends the shortest
such form, at most ten bytes for a 64-bit value; no other form of the value is as short.

The reader takes more than the writer writes: any varint of at most ten bytes whose tenth
byte, if it has one, holds only the top bit of a 64-bit value (`Accepted`), forms with
redundant high zero digits included. It returns the number the digits stand for, which then
fits 64 bits, and stops right after the varint. Bytes that start no such varint are refused:
for want of a byte when fewer than ten are left, all with the continuation bit, and else as
a malformed varint reported at the position where it started. All of it holds on every
sound reader, whatever its layout and options (`varint_codec`).
-/

namespace WireCodec.Wire

/-- The number LEB128 bytes stand for: the low seven bits of byte `j` weigh `128 ^ j`. -/
def lebValue : List UInt8 → Nat
  | [] => 0
  | b :: bs => b.toNat % 128 + 128 * lebValue bs

/-- The shape of a varint: bytes with the continuation bit, then one without. -/
def VarintForm (enc : List UInt8) : Prop :=
  ∃ init last, enc = init ++ [last] ∧ (∀ b ∈ init, 128 ≤ b.toNat) ∧ last.toNat < 128

/-- `enc` is an LEB128 form of `v`: a varint whose digits stand for `v`. -/
def Leb128 (enc : List UInt8) (v : Nat) : Prop :=
  VarintForm enc ∧ lebValue enc = v

/-- `last` ends a varint after the bytes `init`, the first `i` bytes of the varint having been
read before them: `init` carries the continuation bit and `last` does not, the varint has at
most ten bytes, and a tenth byte is `0` or `1`. -/
def EndsVarint (i : Nat) (init : List UInt8) (last : UInt8) : Prop :=
  (∀ b ∈ init, 128 ≤ b.toNat) ∧ last.toNat < 128 ∧ i + init.length < 10 ∧
    (i + init.length = 9 → last.toNat ≤ 1)

/-- The varints the reader takes. -/
def Accepted (enc : List UInt8) : Prop :=
  ∃ init last, enc = init ++ [last] ∧ EndsVarint 0 init last

section Value

@[simp] theorem lebValue_nil : lebValue [] = 0 := rfl

@[simp] theorem lebValue_cons (b : UInt8) (bs : List UInt8) :
    lebValue (b :: bs) = b.toNat % 128 + 128 * lebValue bs := rfl

theorem lebValue_append (xs ys : List UInt8) :
    lebValue (xs ++ ys) = lebValue xs + Nat.pow 128 xs.length * lebValue ys := by
  induction xs with
  | nil => simp
  | cons x xs ih =>
    rw [List.cons_append, lebValue_cons, lebValue_cons, ih, List.length_cons]
    rw [show Nat.pow 128 (xs.length + 1) = Nat.pow 128 xs.length * 128 from rfl]
    ring

/-- `n` bytes stand for less than `128 ^ n`. -/
theorem lebValue_lt (enc : List UInt8) : lebValue enc < Nat.pow 128 enc.length := by
  induction enc with
  | nil => simp
  | cons b bs ih =>
    rw [lebValue_cons, List.length_cons,
      show Nat.pow 128 (bs.length + 1) = Nat.pow 128 bs.length * 128 from rfl]
    have := Nat.mod_lt b.toNat (show 0 < 128 by decide)
    nlinarith

/-- An accepted varint stands for a number below `2 ^ 64`: below `2 ^ 63` with at most nine
bytes, and a tenth byte adds at most the top bit. -/
theorem lebValue_lt_of_ends {init : List UInt8} {last : UInt8} (h : EndsVarint 0 init last) :
    lebValue (init ++ [last]) < Nat.pow 2 64 := by
  obtain ⟨-, hlast, hlen, hten⟩ := h
  rw [lebValue_append, lebValue_cons, lebValue_nil, Nat.mul_zero, Nat.add_zero,
    Nat.mod_eq_of_lt hlast]
  have hinit := lebValue_lt init
  have hpow : Nat.pow 128 init.length ≤ Nat.pow 128 9 :=
    Nat.pow_le_pow_right (by decide) (by omega)
  by_cases h9 : init.length = 9
  · -- the tenth byte holds one bit
    have hl := hten (by omega)
    rw [h9] at hinit ⊢
    have h64 : Nat.pow 2 64 = 2 * Nat.pow 128 9 := by decide
    rw [h64]
    nlinarith
  · -- nine bytes or fewer leave the top bit clear
    have hpow' : Nat.pow 128 init.length * 128 ≤ Nat.pow 2 64 := by
      have : Nat.pow 128 init.length ≤ Nat.pow 128 8 := Nat.pow_le_pow_right (by decide) (by omega)
      have h64 : Nat.pow 128 8 * 128 ≤ Nat.pow 2 64 := by decide
      nlinarith
    nlinarith

end Value

section Form

theorem not_varintForm_nil : ¬ VarintForm [] := by
  rintro ⟨init, last, h, -, -⟩
  simp at h

theorem varintForm_singleton (b : UInt8) : VarintForm [b] ↔ b.toNat < 128 := by
  constructor
  · rintro ⟨init, last, h, -, hlast⟩
    rcases List.cons_eq_append_iff.mp h with ⟨-, hl⟩ | ⟨init', -, hnil⟩
    · simp only [List.cons.injEq, and_true] at hl
      exact hl ▸ hlast
    · simp at hnil
  · exact fun h => ⟨[], b, rfl, by simp, h⟩

theorem varintForm_cons_cons (b c : UInt8) (cs : List UInt8) :
    VarintForm (b :: c :: cs) ↔ 128 ≤ b.toNat ∧ VarintForm (c :: cs) := by
  constructor
  · rintro ⟨init, last, h, hinit, hlast⟩
    rcases List.cons_eq_append_iff.mp h with ⟨-, hl⟩ | ⟨init', rfl, htail⟩
    · simp at hl
    · exact ⟨hinit b List.mem_cons_self,
        init', last, htail, fun x hx => hinit x (List.mem_cons_of_mem b hx), hlast⟩
  · rintro ⟨hb, init, last, h, hinit, hlast⟩
    refine ⟨b :: init, last, by rw [h]; rfl, fun x hx => ?_, hlast⟩
    rcases List.mem_cons.mp hx with rfl | hx
    · exact hb
    · exact hinit x hx

/-- Two varints of the same length standing for the same number are the same bytes: each
byte is its digit, with the continuation bit on all but the last. -/
theorem VarintForm.eq_of_lebValue_eq : ∀ {e₁ e₂ : List UInt8}, VarintForm e₁ → VarintForm e₂ →
    e₁.length = e₂.length → lebValue e₁ = lebValue e₂ → e₁ = e₂
  | [], _, h₁, _, _, _ => absurd h₁ not_varintForm_nil
  | _, [], _, h₂, _, _ => absurd h₂ not_varintForm_nil
  | [b], [c], h₁, h₂, _, hv => by
    rw [varintForm_singleton] at h₁ h₂
    simp only [lebValue_cons, lebValue_nil, Nat.mul_zero, Nat.add_zero] at hv
    rw [UInt8.toNat_inj.mp (show b.toNat = c.toNat by omega)]
  | [_], _ :: _ :: _, _, _, hlen, _ => by simp at hlen
  | _ :: _ :: _, [_], _, _, hlen, _ => by simp at hlen
  | b :: b' :: bs, c :: c' :: cs, h₁, h₂, hlen, hv => by
    rw [varintForm_cons_cons] at h₁ h₂
    rw [lebValue_cons b, lebValue_cons c] at hv
    have hb := b.toNat_lt
    have hc := c.toNat_lt
    -- the lowest digits agree, and so do the digits after them
    have hrest : lebValue (b' :: bs) = lebValue (c' :: cs) := by omega
    rw [UInt8.toNat_inj.mp (show b.toNat = c.toNat by omega),
      VarintForm.eq_of_lebValue_eq h₁.2 h₂.2 (by simpa using hlen) hrest]

end Form

section Writer

open Writer

theorem varintBytes_of_lt {v : Nat} (h : v < 128) : varintBytes v = [v.toUInt8] := by
  rw [varintBytes, if_pos h]

theorem varintBytes_of_ge {v : Nat} (h : 128 ≤ v) :
    varintBytes v = (v % 128 + 128).toUInt8 :: varintBytes (v / 128) := by
  rw [varintBytes, if_neg (by omega)]

/-- The writer's bytes are an LEB128 form of the value. -/
theorem leb128_varintBytes (v : Nat) : Leb128 (varintBytes v) v := by
  induction v using Nat.strongRecOn with
  | ind v ih =>
    by_cases h : v < 128
    · rw [varintBytes_of_lt h]
      refine ⟨(varintForm_singleton _).mpr ?_, ?_⟩
      · simp only [Nat.toUInt8_eq, UInt8.toNat_ofNat']
        omega
      · simp only [lebValue_cons, lebValue_nil, Nat.toUInt8_eq, UInt8.toNat_ofNat']
        omega
    · obtain ⟨hform, hval⟩ := ih (v / 128) (by omega)
      rw [varintBytes_of_ge (by omega)]
      have hbyte : (v % 128 + 128).toUInt8.toNat = v % 128 + 128 := by
        simp only [Nat.toUInt8_eq, UInt8.toNat_ofNat']
        omega
      obtain ⟨c, cs, hcs⟩ := List.exists_cons_of_ne_nil
        (show varintBytes (v / 128) ≠ [] from fun hnil => not_varintForm_nil (hnil ▸ hform))
      rw [hcs] at hform hval ⊢
      refine ⟨(varintForm_cons_cons _ _ _).mpr ⟨by omega, hform⟩, ?_⟩
      rw [lebValue_cons, hval, hbyte]
      omega

theorem length_varintBytes_pos (v : Nat) : 0 < (varintBytes v).length := by
  obtain ⟨init, last, h, -, -⟩ := (leb128_varintBytes v).1
  rw [h, List.length_append, List.length_singleton]
  omega

/-- The writer uses no byte it could do without: a value of `n + 1` bytes is at least
`128 ^ n`. -/
theorem pow_length_varintBytes_le (v : Nat) :
    Nat.pow 128 ((varintBytes v).length - 1) ≤ max v 1 := by
  induction v using Nat.strongRecOn with
  | ind v ih =>
    by_cases h : v < 128
    · rw [varintBytes_of_lt h]
      exact Nat.le_max_right _ _
    · rw [varintBytes_of_ge (by omega), List.length_cons, Nat.add_sub_cancel]
      have hrest := ih (v / 128) (by omega)
      have hpos := length_varintBytes_pos (v / 128)
      rw [show (varintBytes (v / 128)).length = (varintBytes (v / 128)).length - 1 + 1 by omega,
        show ∀ k, Nat.pow 128 (k + 1) = Nat.pow 128 k * 128 from fun _ => rfl]
      omega

/-- No LEB128 form of a value is shorter than the writer's, and the one as long is the
writer's. -/
theorem varintBytes_shortest {enc : List UInt8} {v : Nat} (h : Leb128 enc v) :
    (varintBytes v).length ≤ enc.length ∧
      (enc.length = (varintBytes v).length → enc = varintBytes v) := by
  obtain ⟨hform, hval⟩ := h
  refine ⟨?_, fun hlen => hform.eq_of_lebValue_eq (leb128_varintBytes v).1 hlen
    (by rw [hval, (leb128_varintBytes v).2])⟩
  have hpos : 0 < enc.length := by
    obtain ⟨init, last, h, -, -⟩ := hform
    rw [h, List.length_append, List.length_singleton]
    omega
  -- `128 ^ (n - 1) ≤ max v 1 < 128 ^ m` for the writer's `n` bytes and the form's `m`
  have hlow := pow_length_varintBytes_le v
  have hhigh : max v 1 < Nat.pow 128 enc.length := by
    have hlt := lebValue_lt enc
    have hone : 1 < Nat.pow 128 enc.length :=
      Nat.one_lt_pow (Nat.pos_iff_ne_zero.mp hpos) (by decide)
    rw [hval] at hlt
    omega
  have := (Nat.pow_lt_pow_iff_right (show 1 < 128 by decide)).mp (Nat.lt_of_le_of_lt hlow hhigh)
  omega

/-- A 64-bit value takes one to ten bytes. -/
theorem length_varintBytes_le_ten {v : Nat} (hv : v < Nat.pow 2 64) :
    (varintBytes v).length ≤ 10 := by
  have hlow := pow_length_varintBytes_le v
  have hhigh : max v 1 < Nat.pow 128 10 := by
    have : Nat.pow 2 64 < Nat.pow 128 10 := by decide
    omega
  have := (Nat.pow_lt_pow_iff_right (show 1 < 128 by decide)).mp (Nat.lt_of_le_of_lt hlow hhigh)
  omega

end Writer

namespace Reader

open ReadM

/-- What a reader has ahead after moving `n` bytes on. -/
theorem ahead_of_view_skip {r r' : Reader} {n : Nat} (h : r'.view = r.view.skip n) :
    r'.ahead = r.ahead.drop n :=
  congrArg View.ahead h

/-- From byte `i` of a varint on, `acc` holding the value of the bytes before: bytes that end
the varint are read to the last of them, which adds their digits, shifted past the `i` bytes
read before. -/
theorem varintFrom_ends (start : Nat) : ∀ (init : List UInt8) (last : UInt8) (rest : List UInt8)
    (i acc : Nat) {r : Reader}, r.Sound → r.ahead = init ++ last :: rest → EndsVarint i init last →
    ∃ r', (varintFrom start i acc).run' r =
        (.ok (acc + lebValue (init ++ [last]) * Nat.pow 128 i), r') ∧
      r'.view = r.view.skip (init.length + 1) ∧ r'.Sound
  | [], last, rest, i, acc, r, hs, hahead, hends => by
    obtain ⟨-, hlast, hlen, hten⟩ := hends
    obtain ⟨r₁, hbyte, hview, hs₁⟩ := readU8_run'_cons hs hahead
    refine ⟨r₁, ?_, hview, hs₁⟩
    rw [varintFrom, run'_bind_of_ok hbyte]
    dsimp only
    -- the byte ends the varint: no continuation bit, and at most the top bit if it is the tenth
    rw [if_neg (show ¬(i = 9 ∧ last.toNat > 1) by simp at hlen hten; omega), if_pos hlast,
      ReadM.run'_pure]
    simp [Nat.mod_eq_of_lt hlast]
  | b :: init, last, rest, i, acc, r, hs, hahead, hends => by
    obtain ⟨hinit, hlast, hlen, hten⟩ := hends
    have hb : 128 ≤ b.toNat := hinit b List.mem_cons_self
    simp only [List.length_cons] at hlen hten
    obtain ⟨r₁, hbyte, hview, hs₁⟩ := readU8_run'_cons hs (by rw [hahead, List.cons_append])
    have hahead₁ : r₁.ahead = init ++ last :: rest := by
      rw [ahead_of_view_skip hview, hahead, List.cons_append, List.drop_succ_cons, List.drop_zero]
    obtain ⟨r₂, hrun, hview₂, hs₂⟩ := varintFrom_ends start init last rest (i + 1)
      (acc + b.toNat % 128 * Nat.pow 128 i) hs₁ hahead₁
      ⟨fun x hx => hinit x (List.mem_cons_of_mem b hx), hlast, by omega, fun h => hten (by omega)⟩
    refine ⟨r₂, ?_, ?_, hs₂⟩
    · rw [varintFrom, run'_bind_of_ok hbyte]
      dsimp only
      -- a byte with the continuation bit, before the tenth: the varint goes on
      rw [if_neg (show ¬(i = 9 ∧ b.toNat > 1) by omega), if_neg (show ¬b.toNat < 128 by omega),
        dif_neg (show ¬9 ≤ i by omega), hrun, List.cons_append, lebValue_cons,
        show Nat.pow 128 (i + 1) = Nat.pow 128 i * 128 from rfl]
      congr 2
      ring
    · rw [hview₂, hview, View.skip_skip, List.length_cons, Nat.add_comm 1]

/-- From byte `i` of a varint on: bytes that end no varint are refused, for want of a byte
when they run out with the continuation bit on all of them, and as a malformed varint,
reported at `start`, when a tenth byte holds more than the top bit. -/
theorem varintFrom_refused (start : Nat) : ∀ (b : List UInt8) (i acc : Nat) {r : Reader}, i ≤ 9 →
    r.Sound → r.ahead = b → (∀ x ∈ b.take (9 - i), 128 ≤ x.toNat) →
    (∀ x ∈ (b.drop (9 - i)).head?, 1 < x.toNat) →
    ∃ r', (varintFrom start i acc).run' r =
      (.error (if b.length + i < 10 then .unexpectedEof 1 0 else .malformedVarint start), r')
  | [], i, acc, r, hi, hs, hahead, _, _ => by
    have hrem : r.remaining = 0 := by rw [hs.remaining, hahead, List.length_nil]
    refine ⟨r, ?_⟩
    rw [varintFrom, ReadM.run'_bind, readU8_atomic.1 r (by omega), hrem,
      if_pos (by simp only [List.length_nil]; omega)]
  | x :: b, i, acc, r, hi, hs, hahead, hcont, htenth => by
    obtain ⟨r₁, hbyte, hview, hs₁⟩ := readU8_run'_cons hs hahead
    by_cases h9 : i = 9
    · -- the tenth byte holds more than the top bit
      subst h9
      have hx : 1 < x.toNat := htenth x (by simp)
      refine ⟨r₁, ?_⟩
      rw [varintFrom, run'_bind_of_ok hbyte]
      dsimp only
      rw [if_pos ⟨rfl, hx⟩, ReadM.throw_bind, ReadM.run'_throw, if_neg (by simp)]
    · have hsplit : 9 - i = 9 - (i + 1) + 1 := by omega
      rw [hsplit, List.take_succ_cons] at hcont
      rw [hsplit, List.drop_succ_cons] at htenth
      have hx : 128 ≤ x.toNat := hcont x List.mem_cons_self
      have hahead₁ : r₁.ahead = b := by
        rw [ahead_of_view_skip hview, hahead, List.drop_succ_cons, List.drop_zero]
      obtain ⟨r', hrun⟩ := varintFrom_refused start b (i + 1) (acc + x.toNat % 128 * Nat.pow 128 i)
        (by omega) hs₁ hahead₁ (fun y hy => hcont y (List.mem_cons_of_mem x hy)) htenth
      refine ⟨r', ?_⟩
      rw [varintFrom, run'_bind_of_ok hbyte]
      dsimp only
      rw [if_neg (show ¬(i = 9 ∧ x.toNat > 1) by omega), if_neg (show ¬x.toNat < 128 by omega),
        dif_neg (show ¬9 ≤ i by omega), hrun, List.length_cons, Nat.add_right_comm, Nat.add_assoc]

/-- Bytes read from byte `i` of a varint on either end it, or run on with the continuation bit
until they run out or a tenth byte holds more than the top bit. -/
theorem ends_or_refused : ∀ (b : List UInt8) (i : Nat), i ≤ 9 →
    (∃ init last rest, b = init ++ last :: rest ∧ EndsVarint i init last) ∨
      ((∀ x ∈ b.take (9 - i), 128 ≤ x.toNat) ∧ ∀ x ∈ (b.drop (9 - i)).head?, 1 < x.toNat)
  | [], i, _ => Or.inr ⟨by simp, by simp⟩
  | x :: b, i, hi => by
    by_cases h9 : i = 9
    · subst h9
      by_cases hx : x.toNat ≤ 1
      · exact Or.inl ⟨[], x, b, rfl, by simp, by omega, by simp, fun _ => hx⟩
      · exact Or.inr ⟨by simp, by simp; omega⟩
    · by_cases hx : x.toNat < 128
      · exact Or.inl ⟨[], x, b, rfl, by simp, hx, by simp; omega, fun h => by simp at h; omega⟩
      · have hsplit : 9 - i = 9 - (i + 1) + 1 := by omega
        rcases ends_or_refused b (i + 1) (by omega) with
          ⟨init, last, rest, rfl, hinit, hlast, hlen, hten⟩ | ⟨hcont, htenth⟩
        · refine Or.inl ⟨x :: init, last, rest, rfl, fun y hy => ?_, hlast,
            by simp only [List.length_cons]; omega, fun h => hten (by simp only [List.length_cons] at h; omega)⟩
          rcases List.mem_cons.mp hy with rfl | hy
          · omega
          · exact hinit y hy
        · refine Or.inr ⟨?_, ?_⟩
          · rw [hsplit, List.take_succ_cons]
            intro y hy
            rcases List.mem_cons.mp hy with rfl | hy
            · omega
            · exact hcont y hy
          · rw [hsplit, List.drop_succ_cons]
            exact htenth

/-- A varint the reader takes is read to its last byte, and gives the number its digits
stand for. -/
theorem readVarint_accepted {r : Reader} (hs : r.Sound) {enc rest : List UInt8}
    (hahead : r.ahead = enc ++ rest) (henc : Accepted enc) :
    ∃ r', readVarint.run' r = (.ok (lebValue enc), r') ∧ r'.view = r.view.skip enc.length ∧
      r'.Sound := by
  obtain ⟨init, last, rfl, hends⟩ := henc
  obtain ⟨r', hrun, hview, hs'⟩ := varintFrom_ends r.position init last rest 0 0 hs
    (by rw [hahead, List.append_assoc, List.singleton_append]) hends
  refine ⟨r', ?_, by rw [hview, List.length_append, List.length_singleton], hs'⟩
  rw [readVarint, run'_bind_of_ok (ReadM.run'_get r), hrun, show Nat.pow 128 0 = 1 from rfl,
    Nat.mul_one, Nat.zero_add]

/-- Bytes that start no varint the reader takes are refused: for want of a byte when fewer
than ten are left, and as a malformed varint at the reader's position otherwise. -/
theorem readVarint_refused {r : Reader} (hs : r.Sound)
    (hnone : ∀ enc rest, r.ahead = enc ++ rest → ¬ Accepted enc) :
    ∃ r', readVarint.run' r = (.error (if r.ahead.length < 10 then .unexpectedEof 1 0
      else .malformedVarint r.position), r') := by
  rcases ends_or_refused r.ahead 0 (Nat.zero_le _) with
    ⟨init, last, rest, hahead, hends⟩ | ⟨hcont, htenth⟩
  · exact absurd ⟨init, last, rfl, hends⟩
      (hnone (init ++ [last]) rest (by rw [hahead, List.append_assoc, List.singleton_append]))
  · obtain ⟨r', hrun⟩ := varintFrom_refused r.position r.ahead 0 0 (Nat.zero_le _) hs rfl hcont htenth
    refine ⟨r', ?_⟩
    rw [readVarint, run'_bind_of_ok (ReadM.run'_get r), hrun, Nat.add_zero]

end Reader

/-- The writer's varint of a 64-bit value is one the reader takes. -/
theorem accepted_varintBytes {v : Nat} (hv : v < Nat.pow 2 64) : Accepted (Writer.varintBytes v) := by
  obtain ⟨⟨init, last, heq, hinit, hlast⟩, hval⟩ := leb128_varintBytes v
  have hlen := length_varintBytes_le_ten hv
  rw [heq, List.length_append, List.length_singleton] at hlen
  refine ⟨init, last, heq, hinit, hlast, by omega, fun h9 => ?_⟩
  -- a tenth byte weighs `128 ^ 9`, half of `2 ^ 64`
  rw [heq, lebValue_append, lebValue_cons, lebValue_nil, Nat.mul_zero, Nat.add_zero,
    Nat.mod_eq_of_lt hlast, show init.length = 9 by omega] at hval
  have h64 : Nat.pow 2 64 = 2 * Nat.pow 128 9 := by decide
  rw [h64] at hv
  nlinarith

/-- Varints. The writer appends the shortest LEB128 form of a 64-bit value, one to ten
bytes, and no other form as long; read from any sound reader, whatever follows, it gives
the value back and stops right after it. On any sound reader a varint is read exactly when
the bytes ahead start with one the reader takes, non-minimal forms included: the read then
gives the number its digits stand for, which fits 64 bits, and stops after it. Otherwise it
fails: for want of a byte when fewer than ten bytes are left, and else as a malformed varint
reported at the position where it started. -/
theorem varint_codec :
    (∀ (w : Writer) (v : UInt64),
      w.writeVarint v.toNat = w.writeBytes (Writer.varintBytes v.toNat).toByteArray ∧
        Leb128 (Writer.varintBytes v.toNat) v.toNat ∧
        (∀ enc, Leb128 enc v.toNat → (Writer.varintBytes v.toNat).length ≤ enc.length ∧
          (enc.length = (Writer.varintBytes v.toNat).length → enc = Writer.varintBytes v.toNat)) ∧
        0 < (Writer.varintBytes v.toNat).length ∧ (Writer.varintBytes v.toNat).length ≤ 10) ∧
    (∀ (r : Reader) (v : UInt64) (rest : List UInt8), r.Sound →
      r.ahead = Writer.varintBytes v.toNat ++ rest →
      ∃ r', Reader.readVarint.run' r = (.ok v.toNat, r') ∧
        r'.view = r.view.skip (Writer.varintBytes v.toNat).length) ∧
    (∀ (r : Reader) (enc rest : List UInt8), r.Sound → r.ahead = enc ++ rest → Accepted enc →
      ∃ r', Reader.readVarint.run' r = (.ok (lebValue enc), r') ∧ lebValue enc < Nat.pow 2 64 ∧
        r'.view = r.view.skip enc.length) ∧
    (∀ r : Reader, r.Sound → (∀ enc rest, r.ahead = enc ++ rest → ¬ Accepted enc) →
      ∃ r', Reader.readVarint.run' r = (.error (if r.ahead.length < 10 then .unexpectedEof 1 0
        else .malformedVarint r.position), r')) := by
  have hfits : ∀ v : UInt64, v.toNat < Nat.pow 2 64 := fun v => v.toNat_lt
  refine ⟨fun w v => ⟨Writer.writeVarint_eq w _, leb128_varintBytes _,
      fun enc h => varintBytes_shortest h, length_varintBytes_pos _,
      length_varintBytes_le_ten (hfits v)⟩,
    fun r v rest hs hahead => ?_,
    fun r enc rest hs hahead henc => ?_,
    fun r hs hnone => Reader.readVarint_refused hs hnone⟩
  · obtain ⟨r', hrun, hview, -⟩ := Reader.readVarint_accepted hs hahead (accepted_varintBytes (hfits v))
    rw [(leb128_varintBytes _).2] at hrun
    exact ⟨r', hrun, hview⟩
  · obtain ⟨init, last, heq, hends⟩ := henc
    obtain ⟨r', hrun, hview, -⟩ := Reader.readVarint_accepted hs hahead ⟨init, last, heq, hends⟩
    exact ⟨r', hrun, heq ▸ lebValue_lt_of_ends hends, hview⟩

/-- The varint of `300` is the two bytes `0xAC 0x02`; read from a buffer that holds a byte
after them, it gives `300` back and stops two bytes on. -/
theorem varint_codec_reads_300 :
    (Reader.ofBytes ⟨#[0xAC, 0x02, 0x07]⟩).Sound ∧
      (Reader.ofBytes ⟨#[0xAC, 0x02, 0x07]⟩).ahead = Writer.varintBytes (300 : UInt64).toNat ++ [7] ∧
      ∃ r', Reader.readVarint.run' (Reader.ofBytes ⟨#[0xAC, 0x02, 0x07]⟩) =
          (.ok (300 : UInt64).toNat, r') ∧
        r'.view = (Reader.ofBytes ⟨#[0xAC, 0x02, 0x07]⟩).view.skip
          (Writer.varintBytes (300 : UInt64).toNat).length := by
  have hahead : (Reader.ofBytes ⟨#[0xAC, 0x02, 0x07]⟩).ahead =
      Writer.varintBytes (300 : UInt64).toNat ++ [7] := by
    rw [show (300 : UInt64).toNat = 300 from rfl, varintBytes_of_ge (by decide),
      varintBytes_of_lt (by decide)]
    rfl
  exact ⟨Reader.sound_ofBytes _, hahead,
    varint_codec.2.1 _ 300 [7] (Reader.sound_ofBytes _) hahead⟩

end WireCodec.Wire
