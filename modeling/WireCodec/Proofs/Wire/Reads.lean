import WireCodec.Wire.Reader
import WireCodec.Proofs.Wire.Append
import WireCodec.Proofs.Text.Utf8

/-!
# What a read consumes

A read runs on a reader and its bytes. `Reads m bs a` says that `m` consumes exactly the
bytes `bs` and returns `a`: on a reader over one buffer whose bytes left start with
`bs`, whatever follows them, `m` returns `a` and leaves the reader right after `bs`; on
a reader whose bytes left are a proper prefix of `bs`, `m` runs out of input. The two
halves compose along `>>=` and `++` (`Reads.bind`), so a decoder's specification is
assembled from those of its reads, and a truncated input is refused by the same
argument that makes a whole one read back.

The readers in question are `Reader.Plain`: one buffer, no forced timestamp kind and no
cap on collections, as `Reader.ofBytes` makes them.
-/

namespace WireCodec.Wire

namespace ReadM

variable {α β : Type}

@[simp] theorem run'_pure (a : α) (r : Reader) : (pure a : ReadM α).run' r = (.ok a, r) := rfl

@[simp] theorem run'_get (r : Reader) : (get : ReadM Reader).run' r = (.ok r, r) := rfl

@[simp] theorem run'_set (s r : Reader) : (set s : ReadM PUnit).run' r = (.ok ⟨⟩, s) := rfl

@[simp] theorem run'_throw (e : DecodeError) (r : Reader) :
    (throw e : ReadM α).run' r = (.error e, r) := rfl

theorem run'_bind (m : ReadM α) (f : α → ReadM β) (r : Reader) :
    (m >>= f).run' r = match m.run' r with
      | (.ok a, r') => (f a).run' r'
      | (.error e, r') => (.error e, r') := by
  simp only [ReadM.run', ExceptT.run_bind]
  rw [StateT.run_bind]
  rcases (ExceptT.run m).run r with ⟨_ | a, r'⟩
  · simp; rfl
  · simp; rfl

end ReadM

namespace Reader

/-- The reader after `n` more bytes of its buffer. -/
def moved (r : Reader) (n : Nat) : Reader :=
  { r with position := r.position + n }

@[simp] theorem moved_moved (r : Reader) (m n : Nat) : (r.moved m).moved n = r.moved (m + n) := by
  simp [moved, Nat.add_assoc]

@[simp] theorem moved_zero (r : Reader) : r.moved 0 = r := rfl

/-- A reader over one buffer with the default options, the bytes `xs` left to read. -/
def Plain (r : Reader) (xs : List UInt8) : Prop :=
  ∃ b, r.source = .contiguous b ∧ r.size = b.size ∧ r.options = .none ∧
    b.data.toList.drop r.position = xs

theorem plain_ofBytes (b : ByteArray) : (ofBytes b).Plain b.data.toList :=
  ⟨b, rfl, rfl, rfl, List.drop_zero⟩

theorem Plain.remaining {r : Reader} {xs : List UInt8} (h : r.Plain xs) :
    r.remaining = xs.length := by
  obtain ⟨b, -, hsize, -, hxs⟩ := h
  rw [Reader.remaining, hsize, ← hxs, List.length_drop, ByteArray.length_data_toList]

theorem Plain.options {r : Reader} {xs : List UInt8} (h : r.Plain xs) : r.options = .none := by
  obtain ⟨b, -, -, hopt, -⟩ := h
  exact hopt

/-- Reading past a part of the bytes left leaves the rest. -/
theorem Plain.moved {r : Reader} {xs ys : List UInt8} (h : r.Plain (xs ++ ys)) :
    (r.moved xs.length).Plain ys := by
  obtain ⟨b, hsrc, hsize, hopt, hxs⟩ := h
  refine ⟨b, hsrc, hsize, hopt, ?_⟩
  show b.data.toList.drop (r.position + xs.length) = ys
  rw [← List.drop_drop, hxs, List.drop_left]

end Reader

/-- `m` consumes exactly the bytes `bs` and returns `a`: after `bs` on a reader whose
bytes start with them, and with a missing byte on one whose bytes are a proper prefix of
`bs`. -/
structure Reads {α : Type} (m : ReadM α) (bs : List UInt8) (a : α) : Prop where
  whole : ∀ r rest, r.Plain (bs ++ rest) → m.run' r = (.ok a, r.moved bs.length)
  short : ∀ r p, r.Plain p → p <+: bs → p.length < bs.length →
    ∃ needed left r', m.run' r = (.error (.unexpectedEof needed left), r')

namespace Reads

variable {α β : Type}

/-- A proper prefix of `bs ++ cs` is a proper prefix of `bs`, or `bs` followed by a
proper prefix of `cs`. -/
theorem prefix_append_cases {p bs cs : List UInt8} (hp : p <+: bs ++ cs) :
    (p <+: bs ∧ p.length < bs.length) ∨ ∃ q, p = bs ++ q ∧ q <+: cs := by
  by_cases hlt : p.length < bs.length
  · refine Or.inl ⟨?_, hlt⟩
    rw [List.prefix_iff_eq_take] at hp ⊢
    rw [hp, List.take_append_of_le_length (by omega)]
    simp [List.length_take]
  · right
    obtain ⟨t, ht⟩ := hp
    refine ⟨p.drop bs.length, ?_, ?_⟩
    · have htake : p.take bs.length = bs := by
        have := congrArg (List.take bs.length) ht
        rwa [List.take_append_of_le_length (by omega), List.take_left] at this
      calc p = p.take bs.length ++ p.drop bs.length := (List.take_append_drop _ _).symm
        _ = bs ++ p.drop bs.length := by rw [htake]
    · refine ⟨t, ?_⟩
      have := congrArg (List.drop bs.length) ht
      rwa [List.drop_append_of_le_length (by omega), List.drop_left] at this

theorem pure (a : α) : Reads (pure a) [] a where
  whole r _ _ := by simp
  short _ p _ _ hlt := absurd hlt (Nat.not_lt_zero _)

theorem bind {m : ReadM α} {f : α → ReadM β} {bs cs : List UInt8} {a : α} {b : β}
    (hm : Reads m bs a) (hf : Reads (f a) cs b) : Reads (m >>= f) (bs ++ cs) b where
  whole r rest h := by
    rw [List.append_assoc] at h
    rw [ReadM.run'_bind, hm.whole r (cs ++ rest) h]
    simp only
    rw [hf.whole _ rest h.moved, Reader.moved_moved, List.length_append]
  short r p h hp hlt := by
    rw [ReadM.run'_bind]
    rcases prefix_append_cases hp with ⟨hpb, hlb⟩ | ⟨q, rfl, hq⟩
    · obtain ⟨n, l, r', he⟩ := hm.short r p h hpb hlb
      rw [he]
      exact ⟨n, l, r', rfl⟩
    · rw [hm.whole r q h]
      simp only [List.length_append] at hlt
      exact hf.short _ q h.moved hq (by omega)

/-- A read that only looks at the state, of a plain reader, and then reads `bs`. -/
theorem get_bind {f : Reader → ReadM α} {bs : List UInt8} {a : α}
    (hf : ∀ s, s.options = .none → Reads (f s) bs a) : Reads (get >>= f) bs a where
  whole r rest h := by
    rw [ReadM.run'_bind, ReadM.run'_get]
    exact (hf r h.options).whole r rest h
  short r p h hp hlt := by
    rw [ReadM.run'_bind, ReadM.run'_get]
    exact (hf r h.options).short r p h hp hlt

theorem congr {m : ReadM α} {bs bs' : List UInt8} {a a' : α} (h : Reads m bs a)
    (hbs : bs = bs') (ha : a = a') : Reads m bs' a' := by
  subst hbs ha
  exact h

end Reads

end WireCodec.Wire

namespace WireCodec.Wire

open Reader

namespace Reader

/-- Reading the first `bs.length` bytes of a plain reader's buffer gives `bs` and moves
past them. -/
theorem Plain.take {r : Reader} {bs rest : List UInt8} (h : r.Plain (bs ++ rest)) :
    ∃ b, r.source = .contiguous b ∧
      b.extract r.position (r.position + bs.length) = bs.toByteArray ∧
      Reader.mk (.contiguous b) (r.position + bs.length) r.size r.options = r.moved bs.length := by
  obtain ⟨b, hsrc, -, -, hxs⟩ := h
  refine ⟨b, hsrc, ?_, by rw [Reader.moved, hsrc]⟩
  apply ByteArray.ext_toList
  rw [ByteArray.data_toList_extract, hxs, Nat.add_sub_cancel_left, List.take_left,
    List.toList_data_toByteArray]

theorem ensure_ok {r : Reader} {n : Nat} (h : n ≤ r.remaining) :
    (ensure n).run' r = (.ok (), r) := by
  simp only [ensure, ReadM.run'_bind, ReadM.run'_get]
  rw [if_neg (by omega)]
  rfl

theorem ensure_short {r : Reader} {n : Nat} (h : r.remaining < n) :
    (ensure n).run' r = (.error (.unexpectedEof n r.remaining), r) := by
  simp only [ensure, ReadM.run'_bind, ReadM.run'_get]
  rw [if_pos h]
  rfl

/-- The value of the little-endian bytes of `n` from the `s`-th on. -/
theorem leValue_range' (n s w : Nat) :
    ((List.range' s w).map fun i => (n / Nat.pow 256 i % 256).toUInt8).foldr
      (fun x acc => acc * 256 + x.toNat) 0 = n / Nat.pow 256 s % Nat.pow 256 w := by
  induction w generalizing s with
  | zero => simp [Nat.pow, Nat.mod_one]
  | succ w ih =>
    rw [List.range'_succ, List.map_cons, List.foldr_cons, ih (s + 1)]
    have hpow : ∀ k, Nat.pow 256 (k + 1) = Nat.pow 256 k * 256 := fun _ => rfl
    have hdiv : n / Nat.pow 256 (s + 1) = n / Nat.pow 256 s / 256 := by
      rw [hpow, Nat.div_div_eq_div_mul]
    have hbyte : (n / Nat.pow 256 s % 256).toUInt8.toNat = n / Nat.pow 256 s % 256 := by
      simp [Nat.mod_mod_of_dvd]
    rw [hdiv, hbyte, hpow, Nat.mul_comm (Nat.pow 256 w) 256, Nat.mod_mul]
    omega

theorem leValue_leBytes {n w : Nat} (h : n < Nat.pow 256 w) :
    leValue (Writer.leBytes n w).data.toList.toByteArray = n := by
  rw [ByteArray.toByteArray_data_toList, leValue, ByteArray.toList_eq_data_toList,
    Writer.leBytes_toList, List.range_eq_range', leValue_range']
  simpa using Nat.mod_eq_of_lt h

end Reader

namespace Reads

theorem readBytes (bs : List UInt8) : Reads (readBytes bs.length) bs bs.toByteArray where
  whole r rest h := by
    obtain ⟨b, hsrc, hext, hmv⟩ := h.take
    have hrem := h.remaining
    simp only [Reader.readBytes, ReadM.run'_bind, ensure_ok (show bs.length ≤ r.remaining by
      simp at hrem; omega), ReadM.run'_get, hsrc, ReadM.run'_set, ReadM.run'_pure, hext, hmv]
  short r p h hp hlt := by
    simp only [Reader.readBytes, ReadM.run'_bind, ensure_short (show r.remaining < bs.length by
      rw [h.remaining]; exact hlt)]
    exact ⟨_, _, _, rfl⟩

theorem readSlice (bs : List UInt8) : Reads (readSlice bs.length) bs (bs.toByteArray, true) where
  whole r rest h := by
    obtain ⟨b, hsrc, hext, hmv⟩ := h.take
    have hrem := h.remaining
    simp only [Reader.readSlice, ReadM.run'_bind, ensure_ok (show bs.length ≤ r.remaining by
      simp at hrem; omega), ReadM.run'_get, hsrc, ReadM.run'_set, ReadM.run'_pure, hext, hmv]
  short r p h hp hlt := by
    simp only [Reader.readSlice, ReadM.run'_bind, ensure_short (show r.remaining < bs.length by
      rw [h.remaining]; exact hlt)]
    exact ⟨_, _, _, rfl⟩

theorem readU8 (x : UInt8) : Reads Reader.readU8 [x] x.toNat := by
  have h : Reads (Reader.readBytes [x].length >>= fun b => Pure.pure (b.get! 0).toNat) ([x] ++ [])
      ([x].toByteArray.get! 0).toNat :=
    (readBytes [x]).bind (Reads.pure _)
  have hx : ([x].toByteArray.get! 0).toNat = x.toNat := by
    rw [ByteArray.get!_eq_getD, List.toList_data_toByteArray]
    rfl
  exact h.congr rfl hx

theorem readLE {n w : Nat} (h : n < Nat.pow 256 w) :
    Reads (Reader.readLE w) (Writer.leBytes n w).data.toList n := by
  have hr : Reads (Reader.readLE (Writer.leBytes n w).data.toList.length)
      ((Writer.leBytes n w).data.toList ++ []) (leValue (Writer.leBytes n w).data.toList.toByteArray) :=
    (readBytes _).bind (Reads.pure _)
  rwa [Writer.length_leBytes, leValue_leBytes h, List.append_nil] at hr

theorem readBool (b : Bool) : Reads Reader.readBool [if b then 1 else 0] b := by
  cases b
  · exact (readU8 0).bind (Reads.pure false)
  · exact (readU8 1).bind (Reads.pure true)

/-- The varint reader, from its `i`-th byte on, reads the bytes of `v` when `v` fits the
bytes left to it; the value read so far is `acc`. -/
theorem varintFrom (start : Nat) : ∀ (v i acc : Nat), i ≤ 9 → v < 2 * Nat.pow 128 (9 - i) →
    Reads (varintFrom start i acc) (Writer.varintBytes v) (acc + v * Nat.pow 128 i) := by
  intro v
  induction v using Nat.strongRecOn with
  | ind v ih =>
    intro i acc hi hv
    rw [Reader.varintFrom, Writer.varintBytes]
    by_cases hsmall : v < 128
    · rw [if_pos hsmall, show [v.toUInt8] = [v.toUInt8] ++ [] from rfl]
      refine (Reads.readU8 _).bind ?_
      have hbyte : v.toUInt8.toNat = v := by simp; omega
      have hnine : ¬ (i = 9 ∧ v > 1) := by
        rintro ⟨rfl, hv1⟩
        simp at hv
        omega
      simp only [hbyte, if_neg hnine, if_pos hsmall, Nat.mod_eq_of_lt hsmall]
      exact Reads.pure _
    · rw [if_neg hsmall, show ∀ x xs, x :: xs = [x] ++ xs from fun _ _ => rfl]
      refine (Reads.readU8 _).bind ?_
      have hi9 : i < 9 := by
        refine Nat.lt_of_le_of_ne hi ?_
        rintro rfl
        simp at hv
        omega
      have hbyte : (v % 128 + 128).toUInt8.toNat = v % 128 + 128 := by simp; omega
      simp only [hbyte, show ¬ (i = 9 ∧ v % 128 + 128 > 1) from fun h => by omega, if_false,
        show ¬ (v % 128 + 128 < 128) by omega, show ¬ 9 ≤ i by omega, dite_false]
      have hpow : Nat.pow 128 (9 - i) = Nat.pow 128 (9 - (i + 1)) * 128 := by
        rw [show 9 - i = (9 - (i + 1)) + 1 by omega]
        rfl
      have hv' : v / 128 < 2 * Nat.pow 128 (9 - (i + 1)) := by
        rw [hpow] at hv
        omega
      refine (ih (v / 128) (by omega) (i + 1) _ (by omega) hv').congr rfl ?_
      have hmod : (v % 128 + 128) % 128 = v % 128 := by omega
      rw [hmod, show Nat.pow 128 (i + 1) = Nat.pow 128 i * 128 from rfl]
      have hv128 := Nat.div_add_mod v 128
      grind

/-- A varint of a value below `2 ^ 64` reads back. -/
theorem readVarint {v : Nat} (hv : v < Nat.pow 2 64) :
    Reads Reader.readVarint (Writer.varintBytes v) v := by
  have h : ∀ s : Reader, s.options = .none →
      Reads (Reader.varintFrom s.position 0 0) (Writer.varintBytes v) v := by
    intro s _
    refine (varintFrom s.position v 0 0 (Nat.zero_le _) ?_).congr rfl (by simp [Nat.pow])
    exact Nat.lt_of_lt_of_eq hv (by decide)
  exact get_bind h

/-- A count below `2 ^ 64` reads back: a plain reader has no cap. -/
theorem readCount (name : String) {n : Nat} (hn : n < Nat.pow 2 64) :
    Reads (Reader.readCount name) (Writer.varintBytes n) n := by
  unfold Reader.readCount
  rw [show Writer.varintBytes n = Writer.varintBytes n ++ [] by simp]
  refine (readVarint hn).bind (get_bind ?_)
  intro s hs
  rw [hs]
  exact Reads.pure n

theorem readByteRun (b : ByteArray) (hb : b.size < Nat.pow 2 64) :
    Reads Reader.readByteRun (Writer.varintBytes b.size ++ b.data.toList) (b, true) := by
  have h := (readVarint hb).bind (readSlice b.data.toList)
  rw [ByteArray.toByteArray_data_toList] at h
  exact h

/-- A string whose length fits 64 bits reads back. -/
theorem readString (t : String) (h : t.utf8ByteSize < Nat.pow 2 64) :
    Reads Reader.readString (Writer.varintBytes t.utf8ByteSize ++ t.toUTF8.data.toList) t := by
  have hslice := readSlice t.toUTF8.data.toList
  rw [ByteArray.toByteArray_data_toList] at hslice
  unfold Reader.readString Reader.readLen
  refine (readVarint h).bind ?_
  rw [← List.append_nil t.toUTF8.data.toList]
  refine hslice.bind ?_
  simp only [Text.decodeUtf8_toUTF8]
  exact Reads.pure t

/-- A read followed by a pure function of its result. -/
theorem map {m : ReadM α} {bs : List UInt8} {a : α} (f : α → β) (h : Reads m bs a) :
    Reads (m >>= fun x => Pure.pure (f x)) bs (f a) := by
  rw [← List.append_nil bs]
  exact h.bind (Reads.pure (f a))

/-- Reads in order, each consuming its own bytes, consume all of them. -/
theorem mapM {ι γ : Type} {f : γ → ReadM α} (g : ι → γ) (bs : ι → List UInt8) (val : ι → α) :
    ∀ xs : List ι, (∀ i ∈ xs, Reads (f (g i)) (bs i) (val i)) →
      Reads ((xs.map g).mapM f) (xs.map bs).flatten (xs.map val)
  | [], _ => Reads.pure []
  | i :: xs, h => by
    rw [List.map_cons, List.mapM_cons, List.map_cons, List.flatten_cons, List.map_cons]
    refine (h i List.mem_cons_self).bind ?_
    rw [← List.append_nil (xs.map bs).flatten]
    exact (mapM g bs val xs (fun j hj => h j (List.mem_cons_of_mem i hj))).bind (Reads.pure _)

end Reads

end WireCodec.Wire
