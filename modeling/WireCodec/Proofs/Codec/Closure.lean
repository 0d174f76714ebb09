import WireCodec.Proofs.Wire.Closure
import WireCodec.Codec.Decode

/-!
# The decoder is built from the byte reads

The decoder of every schema is a read built as `Wire.Closed` describes, with one more way of
building: the decoder of timestamps looks at the kind the reader forces as well as at its
view. `DecodeClosed P` adds that look to `Closed P`, and `decode_closed` shows that every
such property holds of the decoder, for every catalog, budget and schema; so it holds of
`decodeValue` too. The collection readers it uses (repeated reads, keyed entries, union
variants) are closed first.
-/

namespace WireCodec.Wire.Closed

variable {P : ∀ {α : Type}, ReadM α → Prop} (hP : Closed P)
include hP

theorem readMany {α : Type} {x : ReadM α} (hx : P x) :
    ∀ n acc, P (Codec.readMany x n acc)
  | 0, acc => by
    rw [Codec.readMany]
    exact hP.pure _
  | n + 1, acc => by
    rw [Codec.readMany]
    exact hP.bind hx fun a => readMany hx n (a :: acc)

theorem readKeyed {β : Type} (keyed : Keyed) (key : β → Value) (name : String) {x : ReadM β}
    (hx : P x) : ∀ n acc, P (Codec.readKeyed keyed key name x n acc)
  | 0, acc => by
    rw [Codec.readKeyed]
    exact hP.pure _
  | n + 1, acc => by
    rw [Codec.readKeyed]
    refine hP.bind hx fun e => ?_
    dsimp only
    split
    · exact hP.throw_bind _ _
    · exact readKeyed keyed key name hx n _

theorem readVariant (name : String) {payload : Nat → ReadM Value} (hpay : ∀ tag, P (payload tag)) :
    P (Codec.readVariant name payload) := by
  rw [Codec.readVariant]
  refine hP.bind hP.readVarint fun raw => ?_
  dsimp only
  split
  · exact hP.throw_bind _ _
  · refine hP.bind (hP.readLE 4) fun declared => hP.get_bind (fun r => ?_) fun r₁ r₂ h => ?_
    · split
      · exact hP.throw_bind _ _
      · refine hP.bind (hpay raw) fun v => hP.get_bind (fun r' => ?_) fun r₁' r₂' h' => ?_
        · split
          · exact hP.throw_bind _ _
          · exact hP.pure v
        · rw [Reader.position_eq_of_view h']
    · rw [Reader.remaining_eq_of_view h, Reader.position_eq_of_view h]

/-- The fields of a record or a variant, each skipped or decoded. -/
theorem fields {cat : Catalog} {fuel : Nat} (hdec : ∀ f : Field, P (Codec.decode cat fuel f.schema))
    (fs : List Field) :
    P (fs.mapM fun f => if f.skip then Pure.pure (f.schema.default cat) else Codec.decode cat fuel f.schema) := by
  refine hP.mapM fs fun f _ => ?_
  split
  · exact hP.pure _
  · exact hdec f

end WireCodec.Wire.Closed

namespace WireCodec.Codec

open Wire

/-- `P` is closed as `Closed` says, and also under a look at the reader that sees its view
and the kind it forces. -/
structure DecodeClosed (P : ∀ {α : Type}, ReadM α → Prop) : Prop extends Closed P where
  get_kind_bind : ∀ {α : Type} {f : Reader → ReadM α}, (∀ r, P (f r)) →
    (∀ r₁ r₂, r₁.view = r₂.view → r₁.options.timeKind = r₂.options.timeKind → f r₁ = f r₂) →
    P (get >>= f)

variable {P : ∀ {α : Type}, ReadM α → Prop}

/-- Every property closed under the ways reads are built holds of the decoder. -/
theorem decode_closed (hP : DecodeClosed P) (cat : Catalog) (fuel : Nat) (s : Schema) :
    P (decode cat fuel s) := by
  have hC := hP.toClosed
  fun_induction decode cat fuel s with
  | case1 => exact hC.map _ (hC.readLE _)
  | case2 => exact hC.map _ (hC.readLE 4)
  | case3 => exact hC.map _ (hC.readLE 8)
  | case4 => exact hC.map _ hC.readBool
  | case5 =>
    refine hC.bind (hC.readLE 4) fun c => ?_
    split
    · exact hC.pure _
    · exact hC.throw _
  | case6 => exact hC.pure _
  | case7 => exact hC.map _ hC.readString
  | case8 =>
    -- the only read that looks at the forced kind
    refine hC.bind (hC.readLE 8) fun raw => ?_
    split
    · refine hP.get_kind_bind (fun r => ?_) fun r₁ r₂ _ hk => by rw [hk]
      split
      · exact hC.pure _
      · exact hC.pure _
    · exact hC.throw _
  | case9 => exact hC.map _ (hC.readBytes 16)
  | case10 =>
    refine hC.bind (hC.readLE 8) fun secs => hC.bind (hC.readLE 4) fun nanos => ?_
    dsimp only
    split
    · exact hC.throw_bind _ _
    · exact hC.pure _
  | case11 => exact hC.readByteRun_bind (fun p => hC.pure _) fun p q h => by rw [h]
  | case12 _ _ _ ih =>
    refine hC.bind (hC.readCount _) fun count => ?_
    split
    · exact hC.readSlice_bind count (fun p => hC.pure _) fun p q h => by rw [h]
    · exact hC.map _ (hC.readMany ih count [])
  | case13 => exact hC.readSlice_bind _ (fun p => hC.pure _) fun p q h => by rw [h]
  | case14 _ _ _ _ ih => exact hC.map _ (hC.readMany ih _ [])
  | case15 _ _ ih =>
    refine hC.bind hC.readU8 fun b => ?_
    split
    · exact hC.pure _
    · exact hC.map _ ih
    · exact hC.throw _
  | case16 _ _ _ ih => exact ih
  | case17 _ _ _ _ _ ihk ihv =>
    refine hC.bind (hC.readCount _) fun count => ?_
    exact hC.map _ (hC.readKeyed _ _ _ (hC.bind ihk fun k => hC.map _ ihv) count [])
  | case18 _ _ _ _ ih =>
    exact hC.bind (hC.readCount _) fun count => hC.map _ (hC.readKeyed _ _ _ ih count [])
  | case19 _ _ ih =>
    refine hC.map _ (hC.mapM _ fun y _ => ?_)
    obtain ⟨s, hs⟩ := y
    exact ih s hs
  | case20 => exact hC.throw _
  | case21 => exact hC.pure _
  | case22 _ _ _ _ _ _ _ ih => exact hC.map _ (hC.fields ih _)
  | case23 =>
    refine hC.bind hC.readVarint fun i => ?_
    split
    · exact hC.pure _
    · exact hC.throw _
  | case24 _ _ _ _ _ _ _ ih =>
    refine hC.readVariant _ fun tag => ?_
    split
    · exact hC.map _ (hC.fields ih _)
    · exact hC.throw _
  | case25 => exact hC.pure _
  | case26 => exact hC.pure _

/-- The decoder at the reader's position, with the budget its bytes allow. -/
theorem decodeValue_closed (hP : DecodeClosed P) (cat : Catalog) (s : Schema) :
    P (decodeValue cat s) :=
  hP.get_bind (fun r => decode_closed hP cat _ s) fun _ _ h => by
    rw [Reader.remaining_eq_of_view h]

end WireCodec.Codec
