import WireCodec.Proofs.Codec.EncodeForm
import WireCodec.Proofs.Codec.Nesting

/-!
# The codec round trip

A value of a schema, with its union payloads within 32 bits, is in wire form
(`WireForm`), and then the codec writes it and reads it back: encoding appends its bytes
to any writer, decoding those bytes followed by anything gives back the value with every
skipped field at its default and stops right after them, and decoding any proper prefix of
them runs out of input. The two halves are `encode_of_wireForm` and `decode_of_wireForm`;
here they are read on the reader over the bytes.

A skipped field is not written, so two members of a set, or two keys of a map, that differ
only in skipped fields read back equal: the container is written, and reading it back
refuses the second as a duplicate (`roundTrip_refuses_members_equal_once_defaulted`). Wire
form asks the keys to differ as they are read back; a sorted container then reads them back
in key order, whichever order they were written in.
-/

namespace WireCodec.Codec

open Wire

/-- Every value in wire form round-trips through the codec and delimits itself: it reads back
with its skipped fields at their defaults and its sorted maps and sets in key order. The
decoder needs as much budget as the value unfolds declarations along a path; the budget that
`decodeValue` takes from the bytes left is enough when no declaration comes back to itself
with a new body and no byte read in between. -/
theorem encode_decode_roundTrip {cat : Catalog} (hcat : cat.WellFormed) {d : Nat} {s : Schema}
    {x : Written} (h : WireForm cat d s x) :
    (∀ w, encode cat s x.value w = .ok (w.writeBytes x.bytes.toByteArray)) ∧
    (∀ fuel rest, d ≤ fuel →
      (decode cat fuel s).run' (Reader.ofBytes (x.bytes ++ rest).toByteArray) =
        (.ok x.read,
          { Reader.ofBytes (x.bytes ++ rest).toByteArray with position := x.bytes.length })) ∧
    (∀ fuel p, d ≤ fuel → p <+: x.bytes → p.length < x.bytes.length →
      ∃ needed left r, (decode cat fuel s).run' (Reader.ofBytes p.toByteArray) =
        (.error (.unexpectedEof needed left), r)) ∧
    (s.UnframedCyclesRepeat cat → ∀ rest,
      (decodeValue cat s).run' (Reader.ofBytes (x.bytes ++ rest).toByteArray) =
        (.ok x.read,
          { Reader.ofBytes (x.bytes ++ rest).toByteArray with position := x.bytes.length })) := by
  have hread := decode_of_wireForm hcat h
  have hplain : ∀ bs : List UInt8, (Reader.ofBytes bs.toByteArray).Plain bs := fun bs => by
    have h := Reader.plain_ofBytes bs.toByteArray
    rwa [List.toList_data_toByteArray] at h
  -- the reader after the value is the one over the same bytes at the value's end
  have hend : ∀ rest, (Reader.ofBytes (x.bytes ++ rest).toByteArray).moved x.bytes.length =
      { Reader.ofBytes (x.bytes ++ rest).toByteArray with position := x.bytes.length } :=
    fun rest => by rw [Reader.moved, Reader.ofBytes, Nat.zero_add]
  refine ⟨encode_of_wireForm h, fun fuel rest hfuel => ?_, fun fuel p hfuel hp hlt => ?_,
    fun hrep rest => ?_⟩
  · rw [(hread fuel hfuel).whole _ rest (hplain _), hend]
  · exact (hread fuel hfuel).short _ p (hplain p) hp hlt
  · rw [decodeValue_of_wireForm hcat hrep h (hplain _), hend]

/-- A sorted map of two entries round-trips, with the budget the decoder picks too. -/
theorem encode_decode_roundTrip_map :
    ∃ x : Written, x.value = .map [(.int 1, .bool true), (.int 2, .bool false)] ∧
      Catalog.WellFormed [] ∧ WireForm [] 0 (.map .sorted (.int .u8) .bool) x ∧
      Schema.UnframedCyclesRepeat [] (.map .sorted (.int .u8) .bool) ∧
      ((∀ w, encode [] (.map .sorted (.int .u8) .bool) x.value w =
          .ok (w.writeBytes x.bytes.toByteArray)) ∧
        (∀ fuel rest, 0 ≤ fuel →
          (decode [] fuel (.map .sorted (.int .u8) .bool)).run'
              (Reader.ofBytes (x.bytes ++ rest).toByteArray) =
            (.ok x.read,
              { Reader.ofBytes (x.bytes ++ rest).toByteArray with position := x.bytes.length })) ∧
        (∀ fuel p, 0 ≤ fuel → p <+: x.bytes → p.length < x.bytes.length →
          ∃ needed left r,
            (decode [] fuel (.map .sorted (.int .u8) .bool)).run' (Reader.ofBytes p.toByteArray) =
              (.error (.unexpectedEof needed left), r)) ∧
        (Schema.UnframedCyclesRepeat [] (.map .sorted (.int .u8) .bool) → ∀ rest,
          (decodeValue [] (.map .sorted (.int .u8) .bool)).run'
              (Reader.ofBytes (x.bytes ++ rest).toByteArray) =
            (.ok x.read,
              { Reader.ofBytes (x.bytes ++ rest).toByteArray with position := x.bytes.length }))) := by
  have hcat : Catalog.WellFormed [] := fun _ hd => absurd hd List.not_mem_nil
  have hfree : Catalog.ParameterFree [] := fun _ hd => absurd hd List.not_mem_nil
  have h : WireForm [] 0 (.map .sorted (.int .u8) .bool) ⟨_, _, _⟩ :=
    WireForm.map .sorted (.int .u8) .bool
      [(⟨.int 1, .int 1, [1]⟩, ⟨.bool true, .bool true, [1]⟩),
        (⟨.int 2, .int 2, [2]⟩, ⟨.bool false, .bool false, [0]⟩)]
      (by decide)
      (fun x hx => by
        simp only [List.mem_cons, List.not_mem_nil, or_false] at hx
        rcases hx with rfl | rfl
        · exact WireForm.int .u8 1 (by decide) (by decide)
        · exact WireForm.int .u8 2 (by decide) (by decide))
      (fun x hx => by
        simp only [List.mem_cons, List.not_mem_nil, or_false] at hx
        rcases hx with rfl | rfl
        · exact WireForm.bool true
        · exact WireForm.bool false)
      (by decide)
  exact ⟨_, rfl, hcat, h, hfree.unframedCyclesRepeat _, encode_decode_roundTrip hcat h⟩

/-! ### Members that meet once their skipped fields are defaulted -/

/-- A record of two bytes, the second skipped. -/
def pairKeyDecl : Decl :=
  { name := "K", path := "demo",
    body := .record ⟨.named, [{ name := "a", schema := .int .u8 },
      { name := "b", schema := .int .u8, skip := true }]⟩ }

/-- The record with first byte one is written as that byte, whatever its skipped byte, and
reads back with the skipped byte at zero. -/
theorem pairKey_wireForm (b : Int) :
    WireForm [pairKeyDecl] 1 (.named "K" [])
      ⟨.record [.int 1, .int b], .record [.int 1, .int 0], [1]⟩ := by
  have ha : WireForm [pairKeyDecl] 0 (.int .u8) ⟨.int 1, .int 1, [1]⟩ :=
    .int .u8 1 (by decide) (by decide)
  have hbody : pairKeyDecl.body.subst [] = pairKeyDecl.body := by
    simp [pairKeyDecl, Body.subst, Fields.subst, Schema.subst]
  exact WireForm.record "K" [] pairKeyDecl _ rfl hbody
    [({ name := "a", schema := .int .u8 }, ⟨.int 1, .int 1, [1]⟩),
     ({ name := "b", schema := .int .u8, skip := true }, ⟨.int b, .int 0, []⟩)] rfl
    (fun y hy hskip => by
      simp only [List.mem_cons, List.not_mem_nil, or_false] at hy
      rcases hy with rfl | rfl
      · exact ha
      · cases hskip)
    (fun y hy hskip => by
      simp only [List.mem_cons, List.not_mem_nil, or_false] at hy
      rcases hy with rfl | rfl
      · cases hskip
      · exact ⟨rfl, rfl⟩)

/-- A sorted set of two records that differ only in their skipped field is written as its
count and the two first fields, and reading those bytes back refuses the second member as a
duplicate, however much fuel the decoder has: both members read back as the same record. -/
theorem roundTrip_refuses_members_equal_once_defaulted :
    encode [pairKeyDecl] (.set .sorted (.named "K" []))
        (.seq [.record [.int 1, .int 0], .record [.int 1, .int 1]]) Writer.empty =
      .ok (Writer.empty.writeBytes [2, 1, 1].toByteArray) ∧
    ∀ fuel, (decode [pairKeyDecl] (fuel + 1) (.set .sorted (.named "K" []))).run'
        (Reader.ofBytes [2, 1, 1].toByteArray) =
      (.error (.invalidValue ((Schema.set .sorted (.named "K" [])).typeName [pairKeyDecl])
        .duplicateKey), (Reader.ofBytes [2, 1, 1].toByteArray).moved 3) := by
  have hcat : Catalog.WellFormed [pairKeyDecl] := fun d hd => by
    simp only [List.mem_singleton] at hd
    subst hd
    trivial
  have hcount : Writer.varintBytes 2 = [2] := by
    rw [Writer.varintBytes]
    rfl
  refine ⟨?_, fun fuel => ?_⟩
  · have h := encode_set [pairKeyDecl] .sorted (.named "K" []) [(0 : Int), 1]
      (fun b => .record [.int 1, .int b]) (fun _ => [1])
      (fun b _ w => encode_of_wireForm (pairKey_wireForm b) w) Writer.empty
    rw [List.length_cons, List.length_cons, List.length_nil, hcount] at h
    exact h
  -- both members read back as the record whose first byte is one
  have hmember := decode_of_wireForm hcat (pairKey_wireForm 0) (fuel + 1) (by omega)
  have hread := Reads.readCount ((Schema.set .sorted (.named "K" [])).typeName [pairKeyDecl])
    (show 2 < Nat.pow 2 64 by decide)
  rw [hcount] at hread
  have hplain := Reader.plain_ofBytes [2, 1, 1].toByteArray
  rw [List.toList_data_toByteArray] at hplain
  rw [decode, ReadM.run'_bind, hread.whole _ [1, 1] hplain]
  dsimp only
  -- the first member is new and kept; the second meets it
  have hafter := @Reader.Plain.moved _ [2] [1, 1] hplain
  rw [ReadM.run'_bind, readKeyed_fresh .sorted id _ hmember rfl 1 hafter, if_pos rfl,
    readKeyed_repeat .sorted id _ hmember rfl 0 (@Reader.Plain.moved _ [1] [1] hafter)]
  simp only [Reader.moved_moved, List.length_singleton]

end WireCodec.Codec
