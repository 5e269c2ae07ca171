import RoiCoin.Script.FindAndDelete
import RoiCoin.Serialize
import RoiCoin.Transaction

/-! The signature hash (`script/interpreter.cpp`) and the implementation it replaced
(`test/sighash_tests.cpp`). Counts are natural numbers. -/

namespace RoiCoin

/-! ## Serialized transactions -/

/-- Two's complement in `count` bytes. -/
def writeSigned (count : Nat) (value : Int) : Bytes :=
  writeLE count (value % 2 ^ (8 * count)).toNat

def writeScriptBytes (script : CScript) : Bytes := writeCompactSize script.length ++ script

def COutPoint.write (out : COutPoint) : Bytes := writeLE 32 out.hash.toNat ++ writeLE 4 out.n.toNat

def CTxIn.write (txin : CTxIn) : Bytes :=
  txin.prevout.write ++ writeScriptBytes txin.scriptSig ++ writeLE 4 txin.nSequence.toNat

def CTxOut.write (txout : CTxOut) : Bytes :=
  writeSigned 8 txout.nValue ++ writeScriptBytes txout.scriptPubKey

def CTransaction.write (tx : CTransaction) : Bytes :=
  writeSigned 4 tx.nVersion ++ writeVector CTxIn.write tx.vin ++
    writeVector CTxOut.write tx.vout ++ writeLE 4 tx.nLockTime.toNat

/-! ## Hash types -/

abbrev sighashAll : BitVec 32 := 1
abbrev sighashNone : BitVec 32 := 2
abbrev sighashSingle : BitVec 32 := 3
abbrev sighashAnyonecanpay : BitVec 32 := 0x80

def fAnyoneCanPay (nHashType : BitVec 32) : Bool := nHashType &&& sighashAnyonecanpay != 0
def fHashSingle (nHashType : BitVec 32) : Bool := nHashType &&& 0x1f == sighashSingle
def fHashNone (nHashType : BitVec 32) : Bool := nHashType &&& 0x1f == sighashNone

/-! ## `CTransactionSignatureSerializer` -/

/-- The first loop of `SerializeScriptCode`. -/
def countSeparators : Nat → CScript → Nat
  | 0, _ => 0
  | fuel + 1, it =>
      match getOp it with
      | none => 0
      | some op =>
          countSeparators fuel op.rest + if op.opcode = opCodeseparator then 1 else 0

/-- The second loop: the bytes written from `itBegin` on, with the position `it`. -/
def writeScriptCode : Nat → CScript → CScript → Bytes
  | 0, itBegin, it => itBegin.take (itBegin.length - (stopsAt it).length)
  | fuel + 1, itBegin, it =>
      match getOp it with
      | some op =>
          if op.opcode = opCodeseparator then
            itBegin.take (itBegin.length - op.rest.length - 1) ++
              writeScriptCode fuel op.rest op.rest
          else writeScriptCode fuel itBegin op.rest
      | none =>
          if itBegin = [] then [] else itBegin.take (itBegin.length - (stopsAt it).length)

/-- The size that `SerializeScriptCode` announces. -/
def announcedSize (scriptCode : CScript) : Nat :=
  scriptCode.length - countSeparators scriptCode.length scriptCode

def serializeScriptCode (scriptCode : CScript) : Bytes :=
  writeCompactSize (announcedSize scriptCode) ++
    writeScriptCode scriptCode.length scriptCode scriptCode

section Serializer

variable (scriptCode : CScript) (txTo : CTransaction) (nIn : Nat) (nHashType : BitVec 32)

/-- `txTo.vin[nInput]` is in range wherever this is called. -/
def serializeInput (nInput : Nat) : Bytes :=
  let nInput := if fAnyoneCanPay nHashType then nIn else nInput
  (txTo.vin[nInput]?).elim [] fun txin =>
    txin.prevout.write ++
      (if nInput ≠ nIn then writeScriptBytes [] else serializeScriptCode scriptCode) ++
      (if nInput ≠ nIn ∧ (fHashSingle nHashType || fHashNone nHashType) then writeLE 4 0
        else writeLE 4 txin.nSequence.toNat)

def serializeOutput (nOutput : Nat) : Bytes :=
  if fHashSingle nHashType ∧ nOutput ≠ nIn then CTxOut.null.write
  else (txTo.vout[nOutput]?).elim [] CTxOut.write

def serializeForSignature : Bytes :=
  let nInputs := if fAnyoneCanPay nHashType then 1 else txTo.vin.length
  let nOutputs := if fHashNone nHashType then 0
    else if fHashSingle nHashType then nIn + 1 else txTo.vout.length
  writeSigned 4 txTo.nVersion ++
    (writeCompactSize nInputs ++
      (List.range nInputs).flatMap (serializeInput scriptCode txTo nIn nHashType)) ++
    (writeCompactSize nOutputs ++
      (List.range nOutputs).flatMap (serializeOutput txTo nIn nHashType)) ++
    writeLE 4 txTo.nLockTime.toNat

/-- What `SignatureHash` returns without hashing, or the bytes that it hashes. -/
def signatureMessage : Except Uint256 Bytes :=
  if txTo.vin.length ≤ nIn then .error 1
  else if fHashSingle nHashType ∧ txTo.vout.length ≤ nIn then .error 1
  else .ok (serializeForSignature scriptCode txTo nIn nHashType ++ writeLE 4 nHashType.toNat)

/-! ## `SignatureHashOld` -/

/-- The inputs with all scripts but one blanked. -/
def oldInputs (script : CScript) : List CTxIn :=
  txTo.vin.mapIdx fun i txin => { txin with scriptSig := if i = nIn then script else [] }

/-- The other inputs may be updated at will. -/
def releaseSequences (vin : List CTxIn) : List CTxIn :=
  vin.mapIdx fun i txin => if i ≠ nIn then { txin with nSequence := 0 } else txin

/-- The modified copy of the transaction, unless an index is out of range. -/
def oldTransaction : Except Uint256 CTransaction :=
  if txTo.vin.length ≤ nIn then .error 1
  else
    let scriptCode := (findAndDelete scriptCode [opCodeseparator]).2
    let txTmp := { txTo with vin := oldInputs txTo nIn scriptCode }
    let blanked : Except Uint256 CTransaction :=
      if fHashNone nHashType then
        .ok { txTmp with vout := [], vin := releaseSequences nIn txTmp.vin }
      else if fHashSingle nHashType then
        if txTmp.vout.length ≤ nIn then .error 1
        else .ok { txTmp with
          vout := (txTmp.vout.take (nIn + 1)).mapIdx fun i txout =>
            if i < nIn then CTxOut.null else txout
          vin := releaseSequences nIn txTmp.vin }
      else .ok txTmp
    blanked.map fun txTmp =>
      if fAnyoneCanPay nHashType then { txTmp with vin := (txTmp.vin[nIn]?).toList } else txTmp

def signatureMessageOld : Except Uint256 Bytes :=
  (oldTransaction scriptCode txTo nIn nHashType).map fun txTmp =>
    txTmp.write ++ writeLE 4 nHashType.toNat

end Serializer

/-! ## The script field -/

theorem countSeparators_eq (fuel : Nat) (it : CScript) (enough : it.length ≤ fuel) :
    countSeparators fuel it = separators it := by
  induction fuel generalizing it with
  | zero =>
      have empty : it = [] := List.eq_nil_of_length_eq_zero (by omega)
      rw [empty, separators, operations_none [] rfl]
      rfl
  | succ fuel ih =>
      rw [countSeparators]
      cases parsed : getOp it with
      | none => rw [separators, operations_none it parsed]; rfl
      | some op =>
          have shorter := getOp_consumes it op parsed
          dsimp only
          rw [ih op.rest (by omega), separators_some it op parsed]

theorem announcedSize_eq (scriptCode : CScript) :
    announcedSize scriptCode = (withoutSeparators scriptCode).length := by
  have length := withoutSeparators_length scriptCode
  rw [announcedSize, countSeparators_eq _ _ (Nat.le_refl _)]
  omega

theorem stopsAt_suffix (pc : CScript) : stopsAt pc <:+ pc := by
  cases pc with
  | nil => exact List.suffix_rfl
  | cons opcode pc =>
      rw [stopsAt]
      split
      · exact (List.drop_suffix _ _).trans (List.suffix_cons opcode pc)
      · exact List.suffix_cons opcode pc

theorem take_before (front back suffix : Bytes) (part : suffix <:+ back) :
    (front ++ back).take ((front ++ back).length - suffix.length) ++ suffix = front ++ back := by
  obtain ⟨middle, whole⟩ := part
  rw [← whole, ← List.append_assoc, List.length_append, Nat.add_sub_cancel, List.take_left]

/-- The bytes written from a position, and the ones never read, are the script from there without
its separators. -/
theorem writeScriptCode_unread (fuel : Nat) (front it : CScript) (enough : it.length ≤ fuel) :
    writeScriptCode fuel (front ++ it) it ++ unread it = front ++ withoutSeparators it := by
  induction fuel generalizing front it with
  | zero =>
      have empty : it = [] := List.eq_nil_of_length_eq_zero (by omega)
      subst empty
      rw [withoutSeparators_none [] rfl, unread, operations_none [] rfl, writeScriptCode]
      exact take_before front [] _ (stopsAt_suffix [])
  | succ fuel ih =>
      rw [writeScriptCode]
      cases parsed : getOp it with
      | none =>
          rw [withoutSeparators_none it parsed, unread, operations_none it parsed]
          dsimp only
          split
          · rename_i empty
            obtain ⟨no_front, rfl⟩ := List.append_eq_nil_iff.mp empty
            rw [no_front]
            rfl
          · exact take_before front it _ (stopsAt_suffix it)
      | some op =>
          have shorter := getOp_consumes it op parsed
          have whole := opBytes_append it op parsed
          rw [withoutSeparators_some it op parsed, unread_some it op parsed]
          dsimp only
          split
          · rename_i separator
            rw [(opBytes_separator it op parsed).mpr separator] at whole
            have next := ih [] op.rest (by omega)
            rw [List.nil_append, List.nil_append] at next
            have before : (front ++ it).take ((front ++ it).length - op.rest.length - 1) = front := by
              rw [← whole, List.length_append, List.length_append, List.length_singleton]
              have width : front.length + (1 + op.rest.length) - op.rest.length - 1 =
                  front.length := by omega
              rw [width, List.take_left]
            rw [before, List.append_assoc, next, List.nil_append]
          · have next := ih (front ++ opBytes it op) op.rest (by omega)
            rw [List.append_assoc, whole] at next
            rw [next, List.append_assoc]

/-- The script field of the serializer falls short of the reference's by the bytes never read. -/
theorem serializeScriptCode_unread (scriptCode : CScript) :
    serializeScriptCode scriptCode ++ unread scriptCode =
      writeScriptBytes (findAndDelete scriptCode [opCodeseparator]).2 := by
  have written := writeScriptCode_unread scriptCode.length [] scriptCode (Nat.le_refl _)
  rw [List.nil_append, List.nil_append] at written
  rw [findAndDelete_separator, serializeScriptCode, announcedSize_eq, List.append_assoc, written]
  rfl

theorem announced_written_iff (scriptCode : CScript) :
    announcedSize scriptCode =
        (writeScriptCode scriptCode.length scriptCode scriptCode).length ↔
      unread scriptCode = [] := by
  have written := writeScriptCode_unread scriptCode.length [] scriptCode (Nat.le_refl _)
  rw [List.nil_append, List.nil_append] at written
  have length := congrArg List.length written
  rw [List.length_append] at length
  rw [announcedSize_eq, ← List.length_eq_zero_iff]
  omega

/-! ## The rest of the message -/

section Message

variable (txTo : CTransaction) (nIn : Nat) (nHashType : BitVec 32)

/-- An input with its script field. -/
def inputField (script : Bytes) (i : Nat) (txin : CTxIn) : Bytes :=
  txin.prevout.write ++ (if i ≠ nIn then writeScriptBytes [] else script) ++
    (if i ≠ nIn ∧ (fHashSingle nHashType || fHashNone nHashType) then writeLE 4 0
      else writeLE 4 txin.nSequence.toNat)

/-- The inputs with the script field of the signed one. -/
def inputFields (script : Bytes) : Bytes :=
  if fAnyoneCanPay nHashType then
    writeCompactSize 1 ++
      ((txTo.vin[nIn]?).toList.map (inputField nIn nHashType script nIn)).flatten
  else
    writeCompactSize txTo.vin.length ++
      (txTo.vin.mapIdx (inputField nIn nHashType script)).flatten

theorem range_flatMap {α : Type} (l : List α) (f : Nat → α → Bytes) :
    (List.range l.length).flatMap (fun i => (l[i]?).elim [] (f i)) = (l.mapIdx f).flatten := by
  rw [List.flatMap_def]
  congr 1
  apply List.ext_getElem
  · rw [List.length_map, List.length_range, List.length_mapIdx]
  · intro i within _
    rw [List.length_map, List.length_range] at within
    rw [List.getElem_map, List.getElem_range, List.getElem_mapIdx, List.getElem?_eq_getElem within]
    rfl

theorem hash_single_not_none (single : fHashSingle nHashType = true) :
    fHashNone nHashType = false := by
  simp only [fHashSingle, fHashNone, beq_iff_eq] at single ⊢
  rw [single]
  rfl

theorem streamed_inputs (scriptCode : CScript) :
    let nInputs := if fAnyoneCanPay nHashType then 1 else txTo.vin.length
    writeCompactSize nInputs ++
        (List.range nInputs).flatMap (serializeInput scriptCode txTo nIn nHashType) =
      inputFields txTo nIn nHashType (serializeScriptCode scriptCode) := by
  intro nInputs
  rw [inputFields]
  by_cases alone : fAnyoneCanPay nHashType = true
  · simp only [nInputs, alone, if_true, List.range_one, List.flatMap_singleton, serializeInput]
    cases txTo.vin[nIn]? with
    | none => rfl
    | some txin =>
        simp only [Option.toList_some, List.map_cons, List.map_nil, List.flatten_cons,
          List.flatten_nil, List.append_nil]
        rfl
  · simp only [nInputs, alone, Bool.false_eq_true, if_false]
    rw [← range_flatMap]
    congr 2
    funext i
    simp only [serializeInput, alone, Bool.false_eq_true, if_false]
    rfl

/-- The outputs as the hash type leaves them. -/
def outputFields : Bytes :=
  if fHashNone nHashType then writeCompactSize 0
  else if fHashSingle nHashType then
    writeCompactSize (nIn + 1) ++ ((txTo.vout.take (nIn + 1)).mapIdx fun i txout =>
      if i < nIn then CTxOut.null.write else txout.write).flatten
  else writeVector CTxOut.write txTo.vout

theorem streamed_outputs (present : fHashSingle nHashType = true → nIn < txTo.vout.length) :
    let nOutputs := if fHashNone nHashType then 0
      else if fHashSingle nHashType then nIn + 1 else txTo.vout.length
    writeCompactSize nOutputs ++
        (List.range nOutputs).flatMap (serializeOutput txTo nIn nHashType) =
      outputFields txTo nIn nHashType := by
  intro nOutputs
  rw [outputFields]
  by_cases none : fHashNone nHashType = true
  · simp only [nOutputs, none, if_true, List.range_zero, List.flatMap_nil, List.append_nil]
  · by_cases single : fHashSingle nHashType = true
    · have enough := present single
      have length : (txTo.vout.take (nIn + 1)).length = nIn + 1 := by
        rw [List.length_take]
        omega
      simp only [nOutputs, none, single, Bool.false_eq_true, if_false, if_true]
      congr 1
      rw [List.flatMap_def]
      congr 1
      apply List.ext_getElem
      · rw [List.length_map, List.length_range, List.length_mapIdx, length]
      · intro i within _
        rw [List.length_map, List.length_range] at within
        rw [List.getElem_map, List.getElem_range, List.getElem_mapIdx, List.getElem_take,
          serializeOutput, List.getElem?_eq_getElem (by omega)]
        by_cases other : i < nIn
        · rw [if_pos other, if_pos ⟨single, by omega⟩]
        · rw [if_neg other, if_neg (fun both => both.2 (by omega))]
          rfl
    · simp only [nOutputs, none, single, Bool.false_eq_true, if_false, writeVector]
      congr 1
      have plain : serializeOutput txTo nIn nHashType = fun nOutput =>
          (txTo.vout[nOutput]?).elim [] CTxOut.write := by
        funext nOutput
        simp only [serializeOutput, single, Bool.false_eq_true, false_and, if_false]
      rw [plain, range_flatMap txTo.vout (fun _ => CTxOut.write), List.flatMap_def]
      congr 1
      apply List.ext_getElem
      · rw [List.length_mapIdx, List.length_map]
      · intro i _ _
        rw [List.getElem_mapIdx, List.getElem_map]

/-- The inputs of the modified copy, before all others are dropped. -/
def oldVin (script : CScript) : List CTxIn :=
  if fHashSingle nHashType || fHashNone nHashType then
    releaseSequences nIn (oldInputs txTo nIn script)
  else oldInputs txTo nIn script

/-- One input of the modified copy. -/
def oldInput (script : CScript) (i : Nat) (txin : CTxIn) : CTxIn where
  prevout := txin.prevout
  scriptSig := if i = nIn then script else []
  nSequence := if i ≠ nIn ∧ (fHashSingle nHashType || fHashNone nHashType) then 0
    else txin.nSequence

theorem oldVin_eq (script : CScript) :
    oldVin txTo nIn nHashType script = txTo.vin.mapIdx (oldInput nIn nHashType script) := by
  rw [oldVin]
  split
  · rename_i released
    rw [releaseSequences, oldInputs, List.mapIdx_mapIdx]
    congr 1
    funext i txin
    simp only [Function.comp_apply, oldInput, released, and_true]
    split
    · rfl
    · rfl
  · rename_i kept
    rw [oldInputs]
    congr 1
    funext i txin
    simp only [oldInput, kept, and_false, if_false, Bool.false_eq_true]

theorem oldInput_write (script : CScript) (i : Nat) (txin : CTxIn) :
    (oldInput nIn nHashType script i txin).write =
      inputField nIn nHashType (writeScriptBytes script) i txin := by
  rw [CTxIn.write, inputField]
  by_cases signed : i = nIn
  · simp only [oldInput, signed, if_true, ne_eq, not_true_eq_false, false_and, if_false]
  · simp only [oldInput, signed, if_false, ne_eq, not_false_eq_true, true_and, if_true]
    split <;> rfl

theorem oldVin_write (script : CScript) :
    (oldVin txTo nIn nHashType script).map CTxIn.write =
      txTo.vin.mapIdx (inputField nIn nHashType (writeScriptBytes script)) := by
  rw [oldVin_eq]
  apply List.ext_getElem
  · rw [List.length_map, List.length_mapIdx, List.length_mapIdx]
  · intro i _ _
    rw [List.getElem_map, List.getElem_mapIdx, List.getElem_mapIdx, oldInput_write]

theorem oldVin_length (script : CScript) :
    (oldVin txTo nIn nHashType script).length = txTo.vin.length := by
  have written := congrArg List.length (oldVin_write txTo nIn nHashType script)
  rwa [List.length_map, List.length_mapIdx] at written

/-- The inputs that the reference writes. -/
theorem old_inputs (script : CScript) (inRange : nIn < txTo.vin.length) :
    writeVector CTxIn.write (if fAnyoneCanPay nHashType then
        ((oldVin txTo nIn nHashType script)[nIn]?).toList
      else oldVin txTo nIn nHashType script) =
      inputFields txTo nIn nHashType (writeScriptBytes script) := by
  have length := oldVin_length txTo nIn nHashType script
  have written := oldVin_write txTo nIn nHashType script
  rw [inputFields, writeVector]
  split
  · have signed := congrArg (fun l => l[nIn]?) written
    simp only [List.getElem?_map, List.getElem?_mapIdx] at signed
    rw [List.getElem?_eq_getElem (by omega : nIn < (oldVin txTo nIn nHashType script).length),
      List.getElem?_eq_getElem inRange] at signed ⊢
    simp only [Option.map_some, Option.some.injEq] at signed
    simp only [Option.toList_some, List.length_singleton, List.flatMap_singleton, List.map_cons,
      List.map_nil, List.flatten_singleton, signed]
  · rw [length, List.flatMap_def, written]

/-- The outputs that the reference writes. -/
theorem old_outputs_single (single : fHashSingle nHashType = true)
    (present : nIn < txTo.vout.length) :
    writeVector CTxOut.write ((txTo.vout.take (nIn + 1)).mapIdx fun i txout =>
        if i < nIn then CTxOut.null else txout) = outputFields txTo nIn nHashType := by
  have length : (txTo.vout.take (nIn + 1)).length = nIn + 1 := by
    rw [List.length_take]
    omega
  rw [outputFields, hash_single_not_none nHashType single, if_neg Bool.false_ne_true, if_pos single,
    writeVector, List.length_mapIdx, length, List.flatMap_def]
  congr 2
  apply List.ext_getElem
  · rw [List.length_map, List.length_mapIdx, List.length_mapIdx]
  · intro i _ _
    rw [List.getElem_map, List.getElem_mapIdx, List.getElem_mapIdx]
    split <;> rfl

/-- The bytes hashed, around the script field. -/
def messageBytes (script : Bytes) : Bytes :=
  writeSigned 4 txTo.nVersion ++ inputFields txTo nIn nHashType script ++
    outputFields txTo nIn nHashType ++ writeLE 4 txTo.nLockTime.toNat ++
    writeLE 4 nHashType.toNat

variable (scriptCode : CScript)

theorem signatureMessage_bytes (inRange : nIn < txTo.vin.length)
    (present : fHashSingle nHashType = true → nIn < txTo.vout.length) :
    signatureMessage scriptCode txTo nIn nHashType =
      .ok (messageBytes txTo nIn nHashType (serializeScriptCode scriptCode)) := by
  rw [signatureMessage, if_neg (by omega), if_neg (fun absent => by
    have within := present absent.1
    omega)]
  have inputs := streamed_inputs txTo nIn nHashType scriptCode
  have outputs := streamed_outputs txTo nIn nHashType present
  simp only at inputs outputs
  simp only [serializeForSignature, messageBytes, inputs, outputs]

theorem signatureMessageOld_bytes (inRange : nIn < txTo.vin.length)
    (present : fHashSingle nHashType = true → nIn < txTo.vout.length) :
    signatureMessageOld scriptCode txTo nIn nHashType =
      .ok (messageBytes txTo nIn nHashType
        (writeScriptBytes (findAndDelete scriptCode [opCodeseparator]).2)) := by
  have inputs := old_inputs txTo nIn nHashType (findAndDelete scriptCode [opCodeseparator]).2 inRange
  rw [signatureMessageOld, oldTransaction, if_neg (by omega), messageBytes, ← inputs]
  by_cases none : fHashNone nHashType = true
  · simp only [none, if_true, oldVin, outputFields, Bool.or_true]
    split <;> rfl
  · by_cases single : fHashSingle nHashType = true
    · have within := present single
      rw [← old_outputs_single txTo nIn nHashType single within]
      simp only [none, single, if_true, oldVin, Bool.true_or, Bool.false_eq_true, if_false,
        if_neg (by omega : ¬ txTo.vout.length ≤ nIn)]
      split <;> rfl
    · simp only [none, single, oldVin, outputFields, Bool.or_self, Bool.false_eq_true, if_false]
      split <;> rfl

/-- A longer script field makes a longer message. -/
theorem inputFields_length (script more : Bytes) (inRange : nIn < txTo.vin.length) :
    (inputFields txTo nIn nHashType (script ++ more)).length =
      (inputFields txTo nIn nHashType script).length + more.length := by
  have signed : ∀ txin, (inputField nIn nHashType (script ++ more) nIn txin).length =
      (inputField nIn nHashType script nIn txin).length + more.length := by
    intro txin
    simp only [inputField, ne_eq, not_true_eq_false, if_false, List.length_append]
    omega
  rw [inputFields, inputFields]
  split
  · rw [List.getElem?_eq_getElem inRange]
    simp only [Option.toList_some, List.map_cons, List.map_nil, List.flatten_singleton,
      List.length_append, signed]
    omega
  · have split : txTo.vin = txTo.vin.take nIn ++ txTo.vin[nIn] :: txTo.vin.drop (nIn + 1) := by
      rw [← List.drop_eq_getElem_cons inRange, List.take_append_drop]
    have width : (txTo.vin.take nIn).length = nIn := by
      rw [List.length_take]
      omega
    have others : ∀ i, i ≠ nIn → inputField nIn nHashType (script ++ more) i =
        inputField nIn nHashType script i := by
      intro i other
      funext txin
      simp only [inputField, ne_eq, other, not_false_eq_true, if_true]
    have before : (txTo.vin.take nIn).mapIdx (inputField nIn nHashType (script ++ more)) =
        (txTo.vin.take nIn).mapIdx (inputField nIn nHashType script) := by
      rw [List.mapIdx_eq_mapIdx_iff]
      intro i within
      rw [others i (by omega)]
    have after : (txTo.vin.drop (nIn + 1)).mapIdx
          (fun i => inputField nIn nHashType (script ++ more) (i + 1 + nIn)) =
        (txTo.vin.drop (nIn + 1)).mapIdx
          (fun i => inputField nIn nHashType script (i + 1 + nIn)) := by
      rw [List.mapIdx_eq_mapIdx_iff]
      intro i _
      rw [others _ (by omega)]
    have parts : ∀ field : Bytes, (txTo.vin.mapIdx (inputField nIn nHashType field)).flatten =
        ((txTo.vin.take nIn).mapIdx (inputField nIn nHashType field)).flatten ++
          (inputField nIn nHashType field nIn txTo.vin[nIn] ++
            ((txTo.vin.drop (nIn + 1)).mapIdx
              (fun i => inputField nIn nHashType field (i + 1 + nIn))).flatten) := by
      intro field
      conv_lhs => rw [split]
      rw [List.mapIdx_append, List.mapIdx_cons, width, List.flatten_append, List.flatten_cons,
        Nat.zero_add]
    rw [parts, parts, before, after]
    simp only [List.length_append, signed]
    omega

/-- The streamed message is the reference's, and the announced size the written one, unless the
script code ends in bytes that its parsing never reaches. -/
theorem signature_message_eq_iff :
    (signatureMessage scriptCode txTo nIn nHashType =
        signatureMessageOld scriptCode txTo nIn nHashType ↔
      txTo.vin.length ≤ nIn ∨ (fHashSingle nHashType = true ∧ txTo.vout.length ≤ nIn) ∨
        unread scriptCode = []) ∧
    (announcedSize scriptCode =
        (writeScriptCode scriptCode.length scriptCode scriptCode).length ↔
      unread scriptCode = []) := by
  refine ⟨?_, announced_written_iff scriptCode⟩
  by_cases inRange : nIn < txTo.vin.length
  · by_cases present : fHashSingle nHashType = true → nIn < txTo.vout.length
    · have field := serializeScriptCode_unread scriptCode
      rw [signatureMessage_bytes txTo nIn nHashType scriptCode inRange present,
        signatureMessageOld_bytes txTo nIn nHashType scriptCode inRange present, ← field]
      constructor
      · intro same
        have length := congrArg List.length (Except.ok.inj same)
        simp only [messageBytes, List.length_append,
          inputFields_length txTo nIn nHashType (serializeScriptCode scriptCode)
            (unread scriptCode) inRange] at length
        exact .inr (.inr (List.eq_nil_of_length_eq_zero (by omega)))
      · rintro (out | absent | all)
        · omega
        · have within := present absent.1
          omega
        · rw [all, List.append_nil]
    · have absent : fHashSingle nHashType = true ∧ txTo.vout.length ≤ nIn := by
        rw [Classical.not_imp] at present
        exact ⟨present.1, by omega⟩
      have not_none := hash_single_not_none nHashType absent.1
      have streamed : signatureMessage scriptCode txTo nIn nHashType = .error 1 := by
        rw [signatureMessage, if_neg (by omega), if_pos absent]
      have old : signatureMessageOld scriptCode txTo nIn nHashType = .error 1 := by
        simp only [signatureMessageOld, oldTransaction, if_neg (by omega : ¬ txTo.vin.length ≤ nIn),
          not_none, absent.1, absent.2, if_true, Bool.false_eq_true, if_false]
        rfl
      simp only [streamed, old, absent.1, absent.2, and_self, true_or, or_true]
  · have out : txTo.vin.length ≤ nIn := by omega
    have streamed : signatureMessage scriptCode txTo nIn nHashType = .error 1 := by
      rw [signatureMessage, if_pos out]
    have old : signatureMessageOld scriptCode txTo nIn nHashType = .error 1 := by
      rw [signatureMessageOld, oldTransaction, if_pos out]
      rfl
    simp only [streamed, old, out, true_or]

end Message

/-- A check of a signature followed by a push of two bytes of which one is missing. -/
theorem truncated_push_message :
    let txTo : CTransaction := ⟨1, [⟨⟨0, 0⟩, [], 0⟩], [⟨0, []⟩], 0⟩
    signatureMessage [0xac, 0x02, 0xaa] txTo 0 sighashAll ≠
        signatureMessageOld [0xac, 0x02, 0xaa] txTo 0 sighashAll ∧
      announcedSize [0xac, 0x02, 0xaa] = 3 ∧
      writeScriptCode 3 [0xac, 0x02, 0xaa] [0xac, 0x02, 0xaa] = [0xac, 0x02] := by
  decide

end RoiCoin
