import RoiCoin.Lib.BigEndian
import RoiCoin.Script.Numbers

/-! The grammar of strict DER signatures, and the check of it (`IsValidSignatureEncoding`).

The check is given once more with each access to the signature as one that can fail, in the order
in which the source makes them. -/

namespace RoiCoin

open BigEndian

/-! ## The reads -/

/-- `sig[i]`; nothing where the access lies outside. -/
def reading (sig : Bytes) (i : Nat) (next : UInt8 → Option Bool) : Option Bool := sig[i]?.bind next

/-- An element whose length byte has been read. -/
def readElement (sig : Bytes) (len position : Nat) (next : Option Bool) : Option Bool :=
  reading sig (position - 2) fun tag =>
    if tag != 0x02 then some false
    else if len = 0 then some false
    else reading sig position fun first =>
      if first &&& 0x80 != 0 then some false
      else if len > 1 ∧ first = 0x00 then
        reading sig (position + 1) fun second => if second &&& 0x80 == 0 then some false else next
      else next

/-- `IsValidSignatureEncoding` with its accesses; nothing where one of them lies outside. -/
def readSignatureEncoding (sig : Bytes) : Option Bool :=
  if sig.length < 9 then some false
  else if sig.length > 73 then some false
  else reading sig 0 fun compound =>
    if compound != 0x30 then some false
    else reading sig 1 fun total =>
      if total.toNat ≠ sig.length - 3 then some false
      else reading sig 3 fun lenR =>
        if 5 + lenR.toNat ≥ sig.length then some false
        else reading sig (5 + lenR.toNat) fun lenS =>
          if lenR.toNat + lenS.toNat + 7 ≠ sig.length then some false
          else readElement sig lenR.toNat 4
            (readElement sig lenS.toNat (lenR.toNat + 6) (some true))

theorem reading_inside (sig : Bytes) (i : Nat) (next : UInt8 → Option Bool)
    (inside : i < sig.length) : reading sig i next = next (nthByte sig i) := by
  simp [reading, nthByte, inside]

theorem readElement_inside (sig : Bytes) (len position : Nat) (next : Option Bool)
    (low : 2 ≤ position) (inside : position + len < sig.length) :
    readElement sig len position next =
      if isValidElement sig len position = true then next else some false := by
  simp only [readElement, isValidElement]
  rw [reading_inside sig (position - 2) _ (by omega)]
  by_cases tag : nthByte sig (position - 2) = 0x02
  · by_cases zero : len = 0
    · simp [tag, zero]
    · rw [reading_inside sig position _ (by omega)]
      by_cases negative : nthByte sig position &&& 0x80 = 0
      · by_cases leading : len > 1 ∧ nthByte sig position = 0x00
        · rw [reading_inside sig (position + 1) _ (by omega)]
          by_cases needed : nthByte sig (position + 1) &&& 0x80 = 0
          · simp [tag, zero, leading, needed]
          · simp [tag, zero, leading, needed]
        · have plain : ¬ (1 < len ∧ nthByte sig position = 0) := leading
          simp [tag, zero, negative, plain]
      · simp [tag, zero, negative]
  · simp [tag]

/-- No access lies outside, and the answer is that of the check. -/
theorem readSignatureEncoding_inside (sig : Bytes) :
    readSignatureEncoding sig = some (isValidSignatureEncoding sig) := by
  simp only [readSignatureEncoding, isValidSignatureEncoding]
  by_cases small : sig.length < 9
  · simp [small]
  by_cases large : sig.length > 73
  · simp [small, large]
  have size : 9 ≤ sig.length ∧ sig.length ≤ 73 := by omega
  rw [if_neg small, if_neg large, reading_inside sig 0 _ (by omega)]
  by_cases compound : nthByte sig 0 = 0x30
  swap
  · simp [compound]
  rw [reading_inside sig 1 _ (by omega)]
  by_cases total : (nthByte sig 1).toNat + 3 = sig.length
  swap
  · have uncovered : (nthByte sig 1).toNat ≠ sig.length - 3 := by omega
    simp [compound, total, uncovered]
  have covered : ¬ (nthByte sig 1).toNat ≠ sig.length - 3 := by omega
  rw [if_neg covered, reading_inside sig 3 _ (by omega), ← lenR]
  by_cases inside : 5 + lenR sig < sig.length
  swap
  · simp [compound, total, inside]
  have within : ¬ 5 + lenR sig ≥ sig.length := by omega
  rw [if_neg within, reading_inside sig (5 + lenR sig) _ inside, ← lenS]
  by_cases sum : lenR sig + lenS sig + 7 = sig.length
  swap
  · simp [compound, total, inside, sum]
  rw [readElement_inside sig (lenR sig) 4 _ (by omega) (by omega),
    readElement_inside sig (lenS sig) (lenR sig + 6) _ (by omega) (by omega)]
  cases r : isValidElement sig (lenR sig) 4 with
  | false => simp [compound, total, inside, sum]
  | true =>
      cases s : isValidElement sig (lenS sig) (lenR sig + 6) with
      | false => simp [compound, total, inside, sum]
      | true => simp [size, compound, total, inside, sum]

/-! ## The grammar -/

/-- An integer of the grammar. -/
structure DerInteger (bytes : Bytes) : Prop where
  shortest : Shortest bytes
  nonnegative : 0 ≤ signed bytes

/-- `0x30 len 0x02 lenR R 0x02 lenS S hashtype` -/
structure StrictDer (sig r s : Bytes) (hashtype : UInt8) : Prop where
  layout : ∃ len lenR lenS : UInt8,
    sig = 0x30 :: len :: 0x02 :: lenR :: (r ++ 0x02 :: lenS :: (s ++ [hashtype])) ∧
      len.toNat + 3 = sig.length ∧ lenR.toNat = r.length ∧ lenS.toNat = s.length
  integerR : DerInteger r
  integerS : DerInteger s
  size : 9 ≤ sig.length ∧ sig.length ≤ 73

/-- A DER integer as the check sees it. -/
theorem derInteger_cons (first : UInt8) (rest : Bytes) :
    DerInteger (first :: rest) ↔ first.toNat < 128 ∧ padded (first :: rest) = false := by
  constructor
  · intro integer
    have plain := (signed_nonneg_iff first rest).mp integer.nonnegative
    exact ⟨plain, (shortest_iff first rest plain).mp integer.shortest⟩
  · intro checked
    exact ⟨(shortest_iff first rest checked.1).mpr checked.2,
      (signed_nonneg_iff first rest).mpr checked.1⟩

theorem nthByte_append (front back : Bytes) (i : Nat) :
    nthByte (front ++ back) (front.length + i) = nthByte back i := by
  simp [nthByte, List.getElem?_append_right]

/-- The check of an element at its place in a signature. -/
theorem isValidElement_iff (front bytes back : Bytes) (tag size : UInt8) :
    isValidElement (front ++ tag :: size :: (bytes ++ back)) bytes.length (front.length + 2) = true ↔
      tag = 0x02 ∧ DerInteger bytes := by
  have typed := nthByte_append front (tag :: size :: (bytes ++ back)) 0
  have start := nthByte_append front (tag :: size :: (bytes ++ back)) 2
  have second := nthByte_append front (tag :: size :: (bytes ++ back)) 3
  rw [Nat.add_zero] at typed
  rw [isValidElement, Nat.add_sub_cancel, typed, start, Nat.add_assoc, second]
  cases bytes with
  | nil =>
      have none : ¬ DerInteger [] := fun integer => integer.shortest.nonempty rfl
      simp [none]
  | cons first rest =>
      rw [derInteger_cons]
      cases rest with
      | nil => simp [nthByte, padded, top_bit_clear]
      | cons next tail =>
          have zero : first.toNat = 0 ↔ first = 0 := by simp [← UInt8.toNat_inj]
          simp [nthByte, padded, top_bit_clear, zero]
          tauto

theorem split_pair (bytes : Bytes) (n : Nat) (long : n + 2 ≤ bytes.length) :
    ∃ front first second back, bytes = front ++ first :: second :: back ∧ front.length = n := by
  have some : n < bytes.length := by omega
  have another : n + 1 < bytes.length := by omega
  refine ⟨bytes.take n, bytes[n], bytes[n + 1], bytes.drop (n + 2), ?_, by simp; omega⟩
  rw [← List.drop_eq_getElem_cons another, ← List.drop_eq_getElem_cons some, List.take_append_drop]

/-- Where the lengths add up, they cut the signature into its parts. -/
theorem signature_parts (sig : Bytes) (inside : 5 + lenR sig < sig.length)
    (sum : lenR sig + lenS sig + 7 = sig.length) :
    ∃ (compound total tagR sizeR tagS sizeS hashtype : UInt8) (r s : Bytes),
      sig = compound :: total :: tagR :: sizeR :: (r ++ tagS :: sizeS :: (s ++ [hashtype])) ∧
        sizeR.toNat = r.length ∧ sizeS.toNat = s.length := by
  obtain ⟨none, compound, total, sig', rfl, zero⟩ := split_pair sig 0 (by omega)
  cases List.length_eq_zero_iff.mp zero
  rw [List.nil_append] at inside sum ⊢
  have long : 2 ≤ sig'.length := by
    simp at inside
    omega
  obtain ⟨none, tagR, sizeR, rest, rfl, zero⟩ := split_pair sig' 0 (by omega)
  cases List.length_eq_zero_iff.mp zero
  rw [List.nil_append] at inside sum ⊢
  have sizeFirst : lenR (compound :: total :: tagR :: sizeR :: rest) = sizeR.toNat := rfl
  rw [sizeFirst] at inside sum
  simp only [List.length_cons] at inside sum
  obtain ⟨r, tagS, sizeS, rest', rfl, first⟩ := split_pair rest sizeR.toNat (by omega)
  have sizeSecond : lenS (compound :: total :: tagR :: sizeR :: (r ++ tagS :: sizeS :: rest')) =
      sizeS.toNat := by
    have place := nthByte_append (compound :: total :: tagR :: sizeR :: r)
      (tagS :: sizeS :: rest') 1
    rw [lenS, sizeFirst, ← first, Nat.add_comm 5]
    exact congrArg UInt8.toNat place
  rw [sizeSecond] at sum
  simp only [List.length_append, List.length_cons] at sum
  obtain none | ⟨s, hashtype, rfl⟩ := List.eq_nil_or_concat rest'
  · rw [none] at sum
    simp at sum
    omega
  · refine ⟨compound, total, tagR, sizeR, tagS, sizeS, hashtype, r, s, ?_, first.symm, ?_⟩
    · simp
    · simp at sum
      omega

/-- The check of a signature that is cut into its parts. -/
theorem parts_valid (compound total tagR sizeR tagS sizeS hashtype : UInt8) (r s : Bytes)
    (first : sizeR.toNat = r.length) (second : sizeS.toNat = s.length) :
    isValidSignatureEncoding
        (compound :: total :: tagR :: sizeR :: (r ++ tagS :: sizeS :: (s ++ [hashtype]))) = true ↔
      (9 ≤ r.length + s.length + 7 ∧ r.length + s.length + 7 ≤ 73) ∧ compound = 0x30 ∧
        total.toNat + 3 = r.length + s.length + 7 ∧ (tagR = 0x02 ∧ DerInteger r) ∧
        (tagS = 0x02 ∧ DerInteger s) := by
  generalize whole :
    compound :: total :: tagR :: sizeR :: (r ++ tagS :: sizeS :: (s ++ [hashtype])) = sig
  have size : sig.length = r.length + s.length + 7 := by
    rw [← whole]
    simp
    omega
  have sizeFirst : lenR sig = r.length := by
    rw [← whole, ← first]
    rfl
  have sizeSecond : lenS sig = s.length := by
    have place := nthByte_append (compound :: total :: tagR :: sizeR :: r)
      (tagS :: sizeS :: (s ++ [hashtype])) 1
    rw [lenS, sizeFirst, Nat.add_comm 5, ← whole, ← second]
    exact congrArg UInt8.toNat place
  have elementFirst : isValidElement sig r.length 4 = true ↔ tagR = 0x02 ∧ DerInteger r := by
    rw [← whole]
    exact isValidElement_iff [compound, total] r _ tagR sizeR
  have elementSecond : isValidElement sig s.length (r.length + 6) = true ↔
      tagS = 0x02 ∧ DerInteger s := by
    rw [← whole]
    exact isValidElement_iff (compound :: total :: tagR :: sizeR :: r) s [hashtype] tagS sizeS
  have compoundFirst : nthByte sig 0 = compound := by
    rw [← whole]
    rfl
  have totalSecond : nthByte sig 1 = total := by
    rw [← whole]
    rfl
  have within : 5 + r.length < r.length + s.length + 7 := by omega
  simp only [isValidSignatureEncoding, size, sizeFirst, sizeSecond, compoundFirst, totalSecond,
    Bool.and_eq_true, decide_eq_true_eq, beq_iff_eq, elementFirst, elementSecond, within,
    and_true, and_assoc]

theorem valid_signature_iff (sig : Bytes) :
    isValidSignatureEncoding sig = true ↔ ∃ r s hashtype, StrictDer sig r s hashtype := by
  constructor
  · intro valid
    have shape := valid
    simp only [isValidSignatureEncoding, Bool.and_eq_true, decide_eq_true_eq, beq_iff_eq] at shape
    obtain ⟨compound, total, tagR, sizeR, tagS, sizeS, hashtype, r, s, rfl, first, second⟩ :=
      signature_parts sig shape.1.1.1.2 shape.1.1.2
    rw [parts_valid compound total tagR sizeR tagS sizeS hashtype r s first second] at valid
    obtain ⟨size, rfl, covered, ⟨rfl, integerR⟩, rfl, integerS⟩ := valid
    have length : (0x30 :: total :: 0x02 :: sizeR ::
        (r ++ 0x02 :: sizeS :: (s ++ [hashtype]))).length = r.length + s.length + 7 := by
      simp
      omega
    refine ⟨r, s, hashtype, ⟨⟨total, sizeR, sizeS, rfl, ?_, first, second⟩, integerR, integerS, ?_⟩⟩
    · rw [length]
      exact covered
    · rw [length]
      exact size
  · rintro ⟨r, s, hashtype, strict⟩
    obtain ⟨total, sizeR, sizeS, layout, covered, first, second⟩ := strict.layout
    have length : sig.length = r.length + s.length + 7 := by
      rw [layout]
      simp
      omega
    have size := strict.size
    rw [length] at covered size
    rw [layout, parts_valid _ total _ sizeR _ sizeS hashtype r s first second]
    exact ⟨size, rfl, covered, ⟨rfl, strict.integerR⟩, rfl, strict.integerS⟩

/-- The check accepts exactly the strict DER signatures, and reads no byte that is not there. -/
theorem signature_encoding_strict (sig : Bytes) :
    ∃ valid, readSignatureEncoding sig = some valid ∧
      (valid = true ↔ ∃ r s hashtype, StrictDer sig r s hashtype) :=
  ⟨isValidSignatureEncoding sig, readSignatureEncoding_inside sig, valid_signature_iff sig⟩

end RoiCoin
