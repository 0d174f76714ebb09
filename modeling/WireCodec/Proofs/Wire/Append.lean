import WireCodec.Codec.Encode
import WireCodec.Proofs.Bytes

/-!
# What the writer appends

Every write appends bytes to those written before and changes nothing else, and what it
appends depends only on the value written. Each primitive is stated here as
`w.writeBytes bs.toByteArray` for its list of bytes `bs`, so that writes compose along
`++` by `writeBytes_writeBytes`.

A union variant is the one write that goes back: the length of its payload is patched
into a slot reserved before the payload. `writeVariant_eq` says that the result is the
tag, the length and the payload in that order, whenever the payload fits 32 bits.
-/

namespace ByteArray

@[simp] theorem data_toList_set! (b : ByteArray) (i : Nat) (x : UInt8) :
    (b.set! i x).data.toList = b.data.toList.set i x := by
  cases b
  simp [ByteArray.set!]

end ByteArray

namespace WireCodec.Wire.Writer

@[simp] theorem bytes_writeBytes (w : Writer) (b : ByteArray) :
    (w.writeBytes b).bytes = w.bytes ++ b := rfl

@[simp] theorem len_writeBytes (w : Writer) (b : ByteArray) :
    (w.writeBytes b).len = w.len + b.size := by
  simp [len, ByteArray.size_append]

theorem writeBytes_writeBytes (w : Writer) (a b : ByteArray) :
    (w.writeBytes a).writeBytes b = w.writeBytes (a ++ b) := by
  simp only [writeBytes, ByteArray.append_assoc]

/-- Appending list by list is appending the lists joined. -/
theorem writeBytes_append (w : Writer) (xs ys : List UInt8) :
    (w.writeBytes xs.toByteArray).writeBytes ys.toByteArray = w.writeBytes (xs ++ ys).toByteArray := by
  rw [writeBytes_writeBytes, List.toByteArray_append]

@[simp] theorem writeBytes_nil (w : Writer) : w.writeBytes [].toByteArray = w := by
  simp [writeBytes, List.toByteArray_nil, ByteArray.append_empty]

theorem leBytes_toList (n width : Nat) : (leBytes n width).data.toList =
    (List.range width).map fun i => (n / Nat.pow 256 i % 256).toUInt8 := rfl

@[simp] theorem length_leBytes (n width : Nat) : (leBytes n width).data.toList.length = width := by
  simp [leBytes_toList]

theorem writeU8_eq (w : Writer) (x : UInt8) : w.writeU8 x = w.writeBytes [x].toByteArray := by
  simp only [writeU8, writeBytes, Writer.mk.injEq, and_true]
  apply ByteArray.ext_toList
  simp

theorem writeLE_eq (w : Writer) (width n : Nat) :
    w.writeLE width n = w.writeBytes (leBytes n width).data.toList.toByteArray := by
  rw [ByteArray.toByteArray_data_toList]
  rfl

theorem writeBool_eq (w : Writer) (b : Bool) :
    w.writeBool b = w.writeBytes [if b then 1 else 0].toByteArray :=
  writeU8_eq w _

theorem writeVarint_eq (w : Writer) (v : Nat) :
    w.writeVarint v = w.writeBytes (varintBytes v).toByteArray := by
  simp only [writeVarint]
  congr 1
  apply ByteArray.ext_toList
  simp

theorem writeStr_eq (w : Writer) (t : String) :
    w.writeStr t = w.writeBytes (varintBytes t.utf8ByteSize ++ t.toUTF8.data.toList).toByteArray := by
  rw [writeStr, writeVarint_eq, ← writeBytes_append, ByteArray.toByteArray_data_toList]

theorem writeByteRun_eq (w : Writer) (b : ByteArray) :
    w.writeByteRun b = w.writeBytes (varintBytes b.size ++ b.data.toList).toByteArray := by
  rw [writeByteRun, writeVarint_eq, ← writeBytes_append, ByteArray.toByteArray_data_toList]

/-- Patching the slot at the end of `pre`, still zero, writes the value there and keeps
the bytes around it. -/
theorem patchU32?_eq (w : Writer) (pre P : List UInt8) (value : Nat)
    (hw : w.bytes.data.toList = pre ++ [0, 0, 0, 0] ++ P) :
    w.patchU32? pre.length value =
      some { w with bytes := (pre ++ (leBytes value 4).data.toList ++ P).toByteArray } := by
  have hlen : pre.length + 4 ≤ w.len := by
    have h := congrArg List.length hw
    simp only [ByteArray.length_data_toList, List.length_append] at h
    simp only [len]
    simp at h
    omega
  simp only [patchU32?, if_pos hlen, Option.some.injEq]
  congr 1
  apply ByteArray.ext_toList
  simp only [List.foldl, List.range_succ, List.range_zero, List.nil_append, List.foldl_append,
    ByteArray.data_toList_set!, hw, List.toList_data_toByteArray, ByteArray.get!_eq_getD,
    leBytes_toList]
  simp [List.append_assoc, List.set_append_right]

end WireCodec.Wire.Writer

namespace WireCodec.Codec

open Wire

/-- A union variant whose payload appends `P`, at most `maxPayload` bytes, is written as
its tag, the length of `P` in four bytes, and `P`. -/
theorem writeVariant_eq (w : Writer) (tag : Nat) (payload : Writer → Except EncodeError Writer)
    (P : List UInt8) (hpayload : ∀ w', payload w' = .ok (w'.writeBytes P.toByteArray))
    (hP : P.length ≤ maxPayload) :
    writeVariant w tag payload = .ok (w.writeBytes
      (Writer.varintBytes tag ++ (Writer.leBytes P.length 4).data.toList ++ P).toByteArray) := by
  have hslot : (w.writeVarint tag).reserveU32 =
      (w.writeBytes (Writer.varintBytes tag ++ [0, 0, 0, 0]).toByteArray,
        (w.bytes.data.toList ++ Writer.varintBytes tag).length) := by
    simp only [Writer.reserveU32, Writer.writeLE_eq, Writer.writeVarint_eq, Writer.writeBytes_append]
    refine Prod.ext ?_ ?_
    · rfl
    · simp [Writer.len]
  have hlen : (w.writeBytes ((Writer.varintBytes tag ++ [0, 0, 0, 0]) ++ P).toByteArray).len -
      (w.writeBytes (Writer.varintBytes tag ++ [0, 0, 0, 0]).toByteArray).len = P.length := by
    simp [List.size_toByteArray]
    omega
  simp only [writeVariant, hslot, hpayload, Writer.writeBytes_append, bind, Except.bind, pure,
    Except.pure, hlen]
  rw [if_neg (by omega)]
  rw [Writer.patchU32?_eq _ (w.bytes.data.toList ++ Writer.varintBytes tag) P P.length (by simp)]
  simp only [Option.getD_some, Except.ok.injEq, Writer.writeBytes]
  congr 1
  apply ByteArray.ext_toList
  simp

end WireCodec.Codec
