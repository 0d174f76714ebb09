import WireCodec.Proofs.Lz4.Fields

/-!
# The decoder against the reference

`decodeSequences` is the decoding of `Decode.lean` with its output appended to a growing
buffer in place of written into a fixed one, and its matches copied one byte at a time
(`copyMatch`); `decodeInPlace_eq` shows the two agree. In this form it
behaves as reading the block's structure (`Block.bytes`) and running the reference decoder
on it (`Block.decode?`), with the capacity of the destination checked on the whole output.
The two halves are `decodeSequences_of_block`, which runs a written block, and
`block_of_decodeSequences`, which finds the block behind every run that succeeds; both rest
on what one step does, `decodeSequences_sequence`, `decodeSequences_closing` and
`decodeSequences_eq_ok`.
-/

namespace WireCodec.Lz4

/-- Appends `n` bytes, each copied from `offset` bytes back in `out`; when `n` exceeds
`offset` the copy repeats the last `offset` bytes. -/
def copyMatch (out : ByteArray) (offset : Nat) : Nat → ByteArray
  | 0 => out
  | n + 1 => copyMatch (out.push (out.get! (out.size - offset))) offset n

/-- Decodes the sequences of `src` from `ip` on, appending to `out`; `start` is the length
of the history at the front of `out` and `capacity` the most `out` may hold. -/
def decodeSequences (src : ByteArray) (start capacity : Nat) (ip : Nat) (out : ByteArray) :
    Except Error ByteArray :=
  if h : ip < src.size then
    let token := src[ip]
    match hl : literalLength src (ip + 1) token with
    | .error e => .error e
    | .ok (ip₁, lit) =>
      if src.size < ip₁ + lit then .error (.truncatedInput ip₁)
      else if capacity < out.size + lit then .error (.outputOverflow out.size)
      else
        let out := out ++ src.extract ip₁ (ip₁ + lit)
        let ip₂ := ip₁ + lit
        if ip₂ = src.size then .ok out
        else if src.size < ip₂ + 2 then .error (.truncatedInput ip₂)
        else
          let offset := (src.get! ip₂).toNat + (src.get! (ip₂ + 1)).toNat * 256
          if offset = 0 ∨ out.size < offset then
            .error (.offsetOutOfRange offset (out.size - start))
          else
            match hm : matchLength src (ip₂ + 2) token with
            | .error e => .error e
            | .ok (ip₃, len) =>
              if capacity < out.size + len then .error (.outputOverflow out.size)
              else decodeSequences src start capacity ip₃ (copyMatch out offset len)
  else .error (.truncatedInput ip)
termination_by src.size - ip
decreasing_by
  have h₁ := le_of_literalLength hl
  have h₃ := le_of_matchLength hm
  simp only at h₁ h₃
  omega

theorem drop_add_of_drop_eq {l xs ys : List UInt8} {i : Nat} (h : l.drop i = xs ++ ys) :
    l.drop (i + xs.length) = ys := by
  rw [← List.drop_drop, h, List.drop_left]

@[simp] theorem data_toList_copyMatch (out : ByteArray) (offset n : Nat) :
    (copyMatch out offset n).data.toList = copyBack out.data.toList offset n := by
  induction n generalizing out with
  | zero => rfl
  | succ n ih =>
    rw [copyMatch, ih, ByteArray.data_toList_push, ByteArray.get!_eq_getD, copyBack,
      ByteArray.length_data_toList]

theorem data_toList_append_extract (out src : ByteArray) (i n : Nat) :
    (out ++ src.extract i (i + n)).data.toList =
      out.data.toList ++ (src.data.toList.drop i).take n := by
  rw [ByteArray.data_append, Array.toList_append, ByteArray.data_toList_extract,
    Nat.add_sub_cancel_left]

/-- Two bytes read little-endian give an offset the format can hold. -/
theorem offset_le_maxDistance (b₀ b₁ : UInt8) : b₀.toNat + b₁.toNat * 256 ≤ maxDistance := by
  have := b₀.toNat_lt
  have := b₁.toNat_lt
  unfold maxDistance
  omega

theorem offset_low (b₀ b₁ : UInt8) : ((b₀.toNat + b₁.toNat * 256) % 256).toUInt8 = b₀ := by
  apply UInt8.toNat_inj.mp
  have := b₀.toNat_lt
  rw [toNat_toUInt8]
  omega

theorem offset_high (b₀ b₁ : UInt8) : ((b₀.toNat + b₁.toNat * 256) / 256).toUInt8 = b₁ := by
  apply UInt8.toNat_inj.mp
  have := b₀.toNat_lt
  have := b₁.toNat_lt
  rw [toNat_toUInt8]
  omega

theorem offset_of_bytes {d : Nat} (hd : d ≤ maxDistance) :
    ((d % 256).toUInt8).toNat + ((d / 256).toUInt8).toNat * 256 = d := by
  rw [toNat_toUInt8, toNat_toUInt8]
  unfold maxDistance at hd
  omega

/-- What decoding one sequence asks of the output: an offset that reaches into it. -/
theorem Sequence.decode?_eq_some {s : Sequence} {w o : List UInt8} (h : s.decode? w = some o) :
    0 < s.offset ∧ s.offset ≤ w.length + s.literals.length ∧
      o = copyBack (w ++ s.literals) s.offset s.matchLen := by
  unfold Sequence.decode? at h
  split at h
  · rename_i hoff
    cases h
    exact ⟨hoff.1, hoff.2, rfl⟩
  · cases h

/-- One sequence, decoded: the decoder reads it, checks it, copies it and goes on right
after it. -/
theorem decodeSequences_sequence {src : ByteArray} {start capacity ip : Nat} {out : ByteArray}
    {s : Sequence} {rest o : List UInt8}
    (hsrc : src.data.toList.drop ip = s.bytes ++ rest) (hs : s.decode? out.data.toList = some o)
    (hcap : o.length ≤ capacity) :
    decodeSequences src start capacity ip out =
      decodeSequences src start capacity (ip + s.bytes.length) o.toByteArray := by
  obtain ⟨hpos, hreach, rfl⟩ := Sequence.decode?_eq_some hs
  rw [ByteArray.length_data_toList] at hreach
  have hlen : (copyBack (out.data.toList ++ s.literals) s.offset s.matchLen).length =
      out.size + s.literals.length + s.matchLen := by simp
  -- the fields of the sequence, at the positions where the decoder meets them
  rw [Sequence.bytes_append] at hsrc
  obtain ⟨hip, htok, h₁⟩ := ByteArray.lt_size_of_drop_eq_cons hsrc
  have hlit := lengthField_of_drop h₁
  have h₂ := drop_add_of_drop_eq h₁
  have h₃ := drop_add_of_drop_eq h₂
  rw [length_extensionBytes] at h₂ h₃
  have h₄ : src.data.toList.drop (ip + 1 + extensionLength s.literals.length +
      s.literals.length + 2) = extensionBytes (s.matchLen - minMatch) ++ rest :=
    @drop_add_of_drop_eq _ [_, _] _ _ h₃
  have hmatch := lengthField_of_drop h₄
  have hsize : ip + 1 + extensionLength s.literals.length + s.literals.length + 2 ≤ src.size := by
    have := congrArg List.length h₃
    simp only [List.length_drop, ByteArray.length_data_toList, List.length_cons] at this
    omega
  have hb₀ := ByteArray.get!_of_drop_eq h₃ 0
  have hb₁ := ByteArray.get!_of_drop_eq h₃ 1
  simp only [Nat.add_zero, List.getD_cons_zero, List.getD_cons_succ] at hb₀ hb₁
  have hoffset : (src.get! (ip + 1 + extensionLength s.literals.length + s.literals.length)).toNat +
      (src.get! (ip + 1 + extensionLength s.literals.length + s.literals.length + 1)).toNat * 256 =
      s.offset := by
    rw [hb₀, hb₁]
    exact offset_of_bytes s.offset_le
  have hout : (out ++ src.extract (ip + 1 + extensionLength s.literals.length)
      (ip + 1 + extensionLength s.literals.length + s.literals.length)).data.toList =
      out.data.toList ++ s.literals := by
    rw [data_toList_append_extract, h₂, List.take_left]
  have hout_size := congrArg List.length hout
  simp only [ByteArray.length_data_toList, List.length_append] at hout_size
  rw [decodeSequences, dif_pos hip]
  dsimp only
  split
  · rename_i e hl
    rw [literalLength_eq, htok, token_shiftRight (nibble_lt _) (nibble_lt _), hlit] at hl
    cases hl
  · rename_i ip₁ lit hl
    rw [literalLength_eq, htok, token_shiftRight (nibble_lt _) (nibble_lt _), hlit] at hl
    obtain ⟨rfl, rfl⟩ := Prod.mk.inj (Except.ok.inj hl)
    rw [hoffset, if_neg (by omega), if_neg (by omega), if_neg (by omega), if_neg (by omega),
      if_neg (by omega)]
    split
    · rename_i e hm
      rw [matchLength_eq, htok, token_and_fifteen (nibble_lt _) (nibble_lt _), hmatch] at hm
      cases hm
    · rename_i ip₃ len hm
      rw [matchLength_eq, htok, token_and_fifteen (nibble_lt _) (nibble_lt _), hmatch] at hm
      obtain ⟨rfl, rfl⟩ := Prod.mk.inj (Except.ok.inj hm)
      rw [Nat.sub_add_cancel s.minMatch_le, if_neg (by omega)]
      congr 1
      · rw [Sequence.length_bytes, sequencePrice, literalsPrice]
        omega
      · apply ByteArray.ext_toList
        rw [data_toList_copyMatch, hout, List.toList_data_toByteArray]

/-- The closing literals, decoded: the decoder copies them and stops at the end of the
block. -/
theorem decodeSequences_closing {src : ByteArray} {start capacity ip : Nat} {out : ByteArray}
    {lits : List UInt8} {code : UInt8} (hcode : code < 16)
    (hsrc : src.data.toList.drop ip = closingBytes lits code)
    (hcap : out.size + lits.length ≤ capacity) :
    decodeSequences src start capacity ip out = .ok (out.data.toList ++ lits).toByteArray := by
  obtain ⟨hip, htok, h₁⟩ := ByteArray.lt_size_of_drop_eq_cons hsrc
  have hlit := lengthField_of_drop h₁
  have h₂ := drop_add_of_drop_eq h₁
  rw [length_extensionBytes] at h₂
  have hend : ip + 1 + extensionLength lits.length + lits.length = src.size := by
    have := congrArg List.length h₁
    simp only [List.length_drop, ByteArray.length_data_toList, List.length_append,
      length_extensionBytes] at this
    omega
  have hout : (out ++ src.extract (ip + 1 + extensionLength lits.length)
      (ip + 1 + extensionLength lits.length + lits.length)).data.toList =
      out.data.toList ++ lits := by
    rw [data_toList_append_extract, h₂, List.take_length]
  rw [decodeSequences, dif_pos hip]
  dsimp only
  split
  · rename_i e hl
    rw [literalLength_eq, htok, token_shiftRight (nibble_lt _) hcode, hlit] at hl
    cases hl
  · rename_i ip₁ lit hl
    rw [literalLength_eq, htok, token_shiftRight (nibble_lt _) hcode, hlit] at hl
    obtain ⟨rfl, rfl⟩ := Prod.mk.inj (Except.ok.inj hl)
    rw [if_neg (by omega), if_neg (by omega), if_pos hend]
    congr 1
    apply ByteArray.ext_toList
    rw [hout, List.toList_data_toByteArray]

/-- A token and its literal count, read: the count is the token's high nibble, and the
text from `ip` is the token, the count's extension bytes and what follows them. -/
theorem literalRun_of_ok {src : ByteArray} {ip ip₁ lit : Nat} (hip : ip < src.size)
    (hl : literalLength src (ip + 1) src[ip] = .ok (ip₁, lit)) :
    ip₁ = ip + 1 + extensionLength lit ∧ (nibble lit <<< 4) ||| (src[ip] &&& 15) = src[ip] ∧
      src.data.toList.drop ip = src[ip] :: (extensionBytes lit ++
        ((src.data.toList.drop ip₁).take lit ++ src.data.toList.drop (ip₁ + lit))) := by
  rw [literalLength_eq] at hl
  have hbyte := src[ip].toNat_lt
  obtain ⟨hnib, h₁, hip₁⟩ := lengthField_eq_ok (by rw [toNat_shiftRight_four]; omega) hl
  simp only at hnib h₁ hip₁
  subst hip₁
  refine ⟨rfl, by rw [← hnib, token_of_fields], ?_⟩
  -- the literals and the rest of the block, split where the literals end
  have hsplit := List.take_append_drop lit (src.data.toList.drop (ip + 1 + extensionLength lit))
  rw [List.drop_drop] at hsplit
  rw [ByteArray.drop_eq_getElem_cons src hip, h₁, hsplit]

/-- What one step of a successful run has read: either the closing literals, which end
the block, or a whole sequence, after which the run goes on. -/
theorem decodeSequences_eq_ok {src : ByteArray} {start capacity ip : Nat} {out y : ByteArray}
    (h : decodeSequences src start capacity ip out = .ok y) :
    (∃ lits code, code < 16 ∧ src.data.toList.drop ip = closingBytes lits code ∧
      out.size + lits.length ≤ capacity ∧ y = (out.data.toList ++ lits).toByteArray) ∨
    (∃ (s : Sequence) (o : List UInt8),
      src.data.toList.drop ip = s.bytes ++ src.data.toList.drop (ip + s.bytes.length) ∧
      s.decode? out.data.toList = some o ∧ o.length ≤ capacity ∧
      decodeSequences src start capacity (ip + s.bytes.length) o.toByteArray = .ok y) := by
  rw [decodeSequences] at h
  split at h
  case isFalse => cases h
  rename_i hip
  dsimp only at h
  split at h
  · cases h
  rename_i ip₁ lit hl
  obtain ⟨rfl, htok, hdrop⟩ := literalRun_of_ok hip hl
  split at h
  · cases h
  rename_i hfit
  split at h
  · cases h
  rename_i hroom
  have hlits : ((src.data.toList.drop (ip + 1 + extensionLength lit)).take lit).length = lit := by
    simp only [List.length_take, List.length_drop, ByteArray.length_data_toList]
    omega
  have hout := data_toList_append_extract out src (ip + 1 + extensionLength lit) lit
  split at h
  · -- the literals end the block
    rename_i hend
    cases h
    have hrest : src.data.toList.drop (ip + 1 + extensionLength lit + lit) = [] := by
      simp only [List.drop_eq_nil_iff, ByteArray.length_data_toList]
      omega
    have hcode : (src[ip] &&& 15) < 16 := by
      show (src[ip] &&& 15).toNat < 16
      rw [toNat_and_fifteen]
      omega
    refine .inl ⟨(src.data.toList.drop (ip + 1 + extensionLength lit)).take lit, src[ip] &&& 15,
      hcode, ?_, by omega, ByteArray.ext_toList ?_⟩
    · rw [hdrop, hrest, List.append_nil, closingBytes, hlits, htok]
    · rw [hout, List.toList_data_toByteArray]
  split at h
  · cases h
  rename_i hoffset_room
  split at h
  · cases h
  rename_i hoff
  split at h
  · cases h
  rename_i ip₃ len hm
  obtain ⟨hmin, hcode', h₄, hip₃⟩ := matchLength_eq_ok hm
  simp only at hmin hcode' h₄ hip₃
  subst hip₃
  split at h
  · cases h
  rename_i hcap
  -- the sequence the step has read
  let s : Sequence := ⟨(src.data.toList.drop (ip + 1 + extensionLength lit)).take lit,
    (src.get! (ip + 1 + extensionLength lit + lit)).toNat +
      (src.get! (ip + 1 + extensionLength lit + lit + 1)).toNat * 256, len,
    offset_le_maxDistance _ _, hmin⟩
  have hbytes : src.data.toList.drop ip = s.bytes ++ src.data.toList.drop
      (ip + 1 + extensionLength lit + lit + 2 + extensionLength (len - minMatch)) := by
    have h₄' : src.data.toList.drop (ip + 1 + extensionLength lit + lit + 1 + 1) =
        extensionBytes (len - minMatch) ++
          src.data.toList.drop (ip + 1 + extensionLength lit + lit + 2 +
            extensionLength (len - minMatch)) := h₄
    rw [Sequence.bytes_append, offset_low, offset_high, hlits, ← hcode', htok, hdrop,
      @ByteArray.drop_eq_get!_cons src (ip + 1 + extensionLength lit + lit) (by omega),
      @ByteArray.drop_eq_get!_cons src (ip + 1 + extensionLength lit + lit + 1) (by omega), h₄']
  have hs_lits : s.literals.length = lit := hlits
  have hs_len : s.matchLen = len := rfl
  have hs_off : s.offset = (src.get! (ip + 1 + extensionLength lit + lit)).toNat +
      (src.get! (ip + 1 + extensionLength lit + lit + 1)).toNat * 256 := rfl
  have hsize : ip + 1 + extensionLength lit + lit + 2 + extensionLength (len - minMatch) =
      ip + s.bytes.length := by
    rw [Sequence.length_bytes, sequencePrice, literalsPrice, hs_lits, hs_len]
    omega
  rw [ByteArray.size_append, ByteArray.size_extract] at hoff hcap
  refine .inr ⟨s, copyBack (out.data.toList ++ s.literals) s.offset s.matchLen,
    hsize ▸ hbytes, ?_, ?_, ?_⟩
  · rw [Sequence.decode?, if_pos]
    rw [ByteArray.length_data_toList, hs_lits, hs_off]
    omega
  · simp only [length_copyBack, List.length_append, ByteArray.length_data_toList, hs_lits, hs_len]
    omega
  · rw [← hsize, ← h]
    congr 1
    apply ByteArray.ext_toList
    rw [List.toList_data_toByteArray, data_toList_copyMatch, hout]

theorem Block.bytes_cons (s : Sequence) (ss : List Sequence) (lits : List UInt8) (code : UInt8)
    (hcode : code < 16) :
    (Block.mk (s :: ss) lits code hcode).bytes = s.bytes ++ (Block.mk ss lits code hcode).bytes := by
  simp [Block.bytes]

/-- A written block decodes to what the reference makes of it, when that fits the
destination. -/
theorem decodeSequences_of_block {src : ByteArray} {start capacity : Nat} {b : Block}
    {o : List UInt8} :
    ∀ {ip : Nat} {out : ByteArray}, src.data.toList.drop ip = b.bytes →
      b.decode? out.data.toList = some o → o.length ≤ capacity →
      decodeSequences src start capacity ip out = .ok o.toByteArray := by
  obtain ⟨ss, lits, code, hcode⟩ := b
  -- the run reads the sequences one by one, so induct on them
  induction ss with
  | nil =>
    intro ip out hsrc hb hcap
    obtain ⟨o', ho', rfl⟩ := Option.map_eq_some_iff.mp hb
    cases ho'
    exact decodeSequences_closing hcode hsrc (by simpa using hcap)
  | cons s ss ih =>
    intro ip out hsrc hb hcap
    obtain ⟨o', hall, rfl⟩ := Option.map_eq_some_iff.mp hb
    obtain ⟨o₁, hs, hrest⟩ := Option.bind_eq_some_iff.mp hall
    rw [Block.bytes_cons] at hsrc
    have hle : o₁.length ≤ (o' ++ lits).length :=
      Nat.le_trans (Sequence.prefix_of_decodeAll? hrest).length_le (List.prefix_append o' lits).length_le
    rw [decodeSequences_sequence hsrc hs (Nat.le_trans hle hcap)]
    refine ih (drop_add_of_drop_eq hsrc) ?_ hcap
    rw [List.toList_data_toByteArray]
    exact Option.map_eq_some_iff.mpr ⟨o', hrest, rfl⟩

/-- Every successful run has read a block, and its output is what the reference makes of
that block. -/
theorem block_of_decodeSequences {src : ByteArray} {start capacity ip : Nat} {out y : ByteArray}
    (h : decodeSequences src start capacity ip out = .ok y) :
    ∃ b : Block, src.data.toList.drop ip = b.bytes ∧
      b.decode? out.data.toList = some y.data.toList ∧ y.size ≤ capacity := by
  rcases decodeSequences_eq_ok h with
    ⟨lits, code, hcode, hsrc, hcap, rfl⟩ | ⟨s, o, hsrc, hs, hcap, hrest⟩
  · refine ⟨⟨[], lits, code, hcode⟩, by simpa [Block.bytes] using hsrc, ?_, ?_⟩
    · simp [Block.decode?, Sequence.decodeAll?]
    · simpa using hcap
  · have hpos : 0 < s.bytes.length := by simp [Sequence.bytes]
    have hip : ip < src.size := by
      have := congrArg List.length hsrc
      simp only [List.length_drop, ByteArray.length_data_toList, List.length_append] at this
      omega
    obtain ⟨b, hb, hdec, hy⟩ := block_of_decodeSequences hrest
    refine ⟨⟨s :: b.sequences, b.lastLiterals, b.lastCode, b.lastCode_lt⟩, ?_, ?_, hy⟩
    · rw [Block.bytes_cons, hsrc, hb]
    · rw [List.toList_data_toByteArray] at hdec
      obtain ⟨o', hall, ho'⟩ := Option.map_eq_some_iff.mp hdec
      exact Option.map_eq_some_iff.mpr ⟨o', Option.bind_eq_some_iff.mpr ⟨o, hs, hall⟩, ho'⟩
termination_by src.size - ip

/-- A run only appends to the output. -/
theorem size_le_of_decodeSequences {src : ByteArray} {start capacity ip : Nat}
    {out y : ByteArray} (h : decodeSequences src start capacity ip out = .ok y) :
    out.size ≤ y.size := by
  obtain ⟨b, -, hdec, -⟩ := block_of_decodeSequences h
  simpa using (Block.prefix_of_decode? hdec).length_le

/-- A proper prefix of a block never decodes to as much as the block: where the prefix
stops after the literals of a sequence, the block goes on to copy its match. -/
theorem size_lt_of_prefix {p src : ByteArray} {start capacity ip : Nat} {out y y' : ByteArray}
    (hp : p.data.toList <+: src.data.toList) (hlt : p.size < src.size)
    (h : decodeSequences p start capacity ip out = .ok y')
    (h' : decodeSequences src start capacity ip out = .ok y) : y'.size < y.size := by
  obtain ⟨t, ht⟩ := hp
  have htail : t ≠ [] := by
    rintro rfl
    rw [List.append_nil] at ht
    have := congrArg List.length ht
    simp only [ByteArray.length_data_toList] at this
    omega
  -- up to the end of the prefix, the source is the prefix followed by `t`
  have hdrop : ∀ i, i ≤ p.size → src.data.toList.drop i = p.data.toList.drop i ++ t := by
    intro i hi
    rw [← ht, List.drop_append_of_le_length (by simpa using hi)]
  have hle : ∀ xs : List UInt8, p.data.toList.drop ip = xs → xs ≠ [] → ip ≤ p.size := by
    intro xs hxs hne
    have := congrArg List.length hxs
    simp only [List.length_drop, ByteArray.length_data_toList] at this
    have := List.length_pos_iff.mpr hne
    omega
  rcases decodeSequences_eq_ok h with
    ⟨lits, code, hcode, hpd, -, rfl⟩ | ⟨s, o, hpd, hs, hcap, hrest⟩
  · -- the prefix closes here, and the source goes on past it
    have hsd : src.data.toList.drop ip = ((nibble lits.length <<< 4) ||| code) ::
        (extensionBytes lits.length ++ (lits ++ t)) := by
      rw [hdrop ip (hle _ hpd (List.cons_ne_nil _ _)), hpd, closingBytes, List.cons_append,
        List.append_assoc]
    rcases decodeSequences_eq_ok h' with
      ⟨lits₂, code₂, hcode₂, hsd₂, -, rfl⟩ | ⟨s₂, o₂, hsd₂, hs₂, -, hrest₂⟩
    · -- both close here; the literal length has one reading, so nothing can follow
      obtain ⟨hL, hlits⟩ := literalField_inj hcode hcode₂ (hsd.symm.trans hsd₂)
      have := congrArg List.length hlits
      rw [List.length_append] at this
      exact absurd (List.eq_nil_of_length_eq_zero (by omega)) htail
    · -- the source reads a sequence with the same literals and then copies its match
      rw [Sequence.bytes_append] at hsd₂
      obtain ⟨hL, -⟩ := literalField_inj hcode (nibble_lt _) (hsd.symm.trans hsd₂)
      obtain ⟨-, -, rfl⟩ := Sequence.decode?_eq_some hs₂
      have hgrow := size_le_of_decodeSequences hrest₂
      have hmin := s₂.minMatch_le
      simp only [List.size_toByteArray, length_copyBack, List.length_append,
        ByteArray.length_data_toList] at hgrow ⊢
      unfold minMatch at hmin
      omega
  · -- the prefix reads a whole sequence, and the source reads the same one
    have hpos : 0 < s.bytes.length := by simp [Sequence.bytes]
    have hip : ip + s.bytes.length ≤ p.size := by
      have := congrArg List.length hpd
      simp only [List.length_drop, ByteArray.length_data_toList, List.length_append] at this
      omega
    have hsd : src.data.toList.drop ip =
        s.bytes ++ (p.data.toList.drop (ip + s.bytes.length) ++ t) := by
      rw [hdrop ip (by omega), hpd, List.append_assoc]
    rw [decodeSequences_sequence hsd hs hcap] at h'
    exact size_lt_of_prefix ⟨t, ht⟩ hlt hrest h'
termination_by p.size - ip

/-- The three ways a block can be bad: it ends too early, it refers to bytes that are not
there, or it describes more output than the destination holds. -/
def Error.IsBlockFault (e : Error) : Prop :=
  (∃ p, e = .truncatedInput p) ∨ (∃ offset p, e = .offsetOutOfRange offset p) ∨
    ∃ p, e = .outputOverflow p

theorem isBlockFault_of_decodeSequences {src : ByteArray} {start capacity ip : Nat}
    {out : ByteArray} {e : Error} (h : decodeSequences src start capacity ip out = .error e) :
    e.IsBlockFault := by
  fun_induction decodeSequences src start capacity ip out
  -- a length field that runs off the end of the block
  case case1 hl => cases h; exact .inl (literalLength_error hl)
  case case7 hm => cases h; exact .inl (matchLength_error hm)
  -- literals, an offset or a token missing
  case case2 | case5 | case10 => cases h; exact .inl ⟨_, rfl⟩
  case case6 => cases h; exact .inr (.inl ⟨_, _, rfl⟩)
  case case3 | case8 => cases h; exact .inr (.inr ⟨_, rfl⟩)
  case case4 => cases h
  case case9 ih => exact ih h

end WireCodec.Lz4
