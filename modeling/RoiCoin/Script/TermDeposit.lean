import RoiCoin.Script.Standard

/-! Term-deposit scripts as the consensus recogniser and the template matcher read them.

Both read a script `k :: num ++ tail`: a direct push of `k` bytes followed by the
locking code. The recogniser tests fixed offsets of `tail`, the matcher parses it. -/

namespace RoiCoin

/-- The direct push of one to five bytes a script starts with, and what follows it. -/
def leadingNumber : CScript → Option (Bytes × CScript)
  | [] => none
  | k :: pc =>
      if 0 < k ∧ k < 6 ∧ k.toNat ≤ pc.length then some (pc.take k.toNat, pc.drop k.toNat) else none

/-- The recogniser's tests relative to the end of the number. -/
def tailTests : List (Nat × UInt8) :=
  [(0, opChecklocktimeverify), (1, opDrop), (2, opDup), (3, opHash160), (25, opEqualverify),
    (26, opChecksig)]

def lockOpcodes : Bytes := [opChecklocktimeverify, opDrop, opDup, opHash160]

/-- The leading number and the code after the lock operations that follow it. -/
def lockedCode (script : CScript) : Option (Bytes × CScript) :=
  match leadingNumber script with
  | none => none
  | some (num, tail) =>
      if tail.take 4 = lockOpcodes then some (num, tail.drop 4) else none

/-- The recogniser's tests on the code after the lock operations. -/
def codeTests : List (Nat × UInt8) := [(21, opEqualverify), (22, opChecksig)]

/-! ## The two readings of the leading push -/

theorem small_direct (k : UInt8) (small : k < 6) : k < opPushdata1 := by
  rw [UInt8.lt_iff_toNat_lt] at small ⊢
  exact Nat.lt_trans small (by decide)

theorem leadingNumber_some (script num tail : Bytes)
    (leads : leadingNumber script = some (num, tail)) :
    ∃ k : UInt8, 0 < k ∧ k < 6 ∧ num.length = k.toNat ∧ script = k :: (num ++ tail) := by
  cases script with
  | nil => cases leads
  | cons k pc =>
      simp only [leadingNumber] at leads
      split at leads
      · rename_i complete
        cases leads
        refine ⟨k, complete.1, complete.2.1, ?_, ?_⟩
        · rw [List.length_take]
          omega
        · rw [List.take_append_drop]
      · cases leads

theorem number_length (script num tail : Bytes) (leads : leadingNumber script = some (num, tail)) :
    1 ≤ num.length ∧ num.length ≤ 5 ∧ script.length = 1 + num.length + tail.length := by
  obtain ⟨k, positive, small, length, rfl⟩ := leadingNumber_some script num tail leads
  rw [UInt8.lt_iff_toNat_lt] at positive small
  have six : (6 : UInt8).toNat = 6 := rfl
  have zero : (0 : UInt8).toNat = 0 := rfl
  simp only [List.length_cons, List.length_append]
  omega

theorem getOp_leading (script num tail : Bytes) (leads : leadingNumber script = some (num, tail)) :
    ∃ k : UInt8, 0 < k ∧ k < 6 ∧ getOp script = some ⟨k, num, tail⟩ := by
  obtain ⟨k, positive, small, length, rfl⟩ := leadingNumber_some script num tail leads
  refine ⟨k, positive, small, ?_⟩
  rw [getOp_direct k _ (small_direct k small), takePush_some, ← length]
  simp

theorem getOp_opcode (k : UInt8) (pc : CScript) (op : ScriptOp)
    (parsed : getOp (k :: pc) = some op) : op.opcode = k := by
  simp only [getOp, takePush] at parsed
  split at parsed
  · split at parsed
    · split at parsed <;> simp only [reduceCtorEq, Option.some.injEq] at parsed
      rw [← parsed]
    · split at parsed
      · cases parsed
      · split at parsed <;> simp only [reduceCtorEq, Option.some.injEq] at parsed
        rw [← parsed]
  · simp only [Option.some.injEq] at parsed
    rw [← parsed]

/-- Only a direct push has an opcode from one to five. -/
theorem getOp_small (script : CScript) (op : ScriptOp) (parsed : getOp script = some op)
    (positive : 0 < op.opcode) (small : op.opcode < 6) :
    leadingNumber script = some (op.vch, op.rest) := by
  cases script with
  | nil => cases parsed
  | cons k pc =>
      have opcode := getOp_opcode k pc op parsed
      rw [opcode] at positive small
      rw [getOp_direct k pc (small_direct k small), takePush_some] at parsed
      rw [leadingNumber, if_pos ⟨positive, small, parsed.1⟩, parsed.2]

theorem scriptNum_minimal (num : Bytes) (short : num.length ≤ 5)
    (minimal : minimallyEncoded num = true) : scriptNum num true 5 = .ok (setVch num) := by
  rw [scriptNum, if_neg (by omega), minimal]
  rfl

theorem scriptNum_padded (num : Bytes) (short : num.length ≤ 5)
    (padded : minimallyEncoded num = false) :
    scriptNum num true 5 = .error (.scriptnumError "non-minimally encoded script number") := by
  rw [scriptNum, if_neg (by omega), padded]
  rfl

/-! ## The recogniser -/

theorem bytesMatch_shift (front tail : Bytes) (tests : List (Nat × UInt8)) :
    bytesMatch (front ++ tail) (tests.map fun test => (front.length + test.1, test.2)) =
      bytesMatch tail tests := by
  induction tests with
  | nil => rfl
  | cons test tests ih =>
      have here : byteAt (front ++ tail) (front.length + test.1) = byteAt tail test.1 := by
        rw [byteAt, byteAt, List.getElem?_append_right (by omega), Nat.add_sub_cancel_left]
      simp only [List.map_cons, bytesMatch, here, ih]

theorem tests_shift (k : UInt8) (num : Bytes) (length : num.length = k.toNat) :
    termDepositTests k.toNat =
      tailTests.map fun test => ((k :: num).length + test.1, test.2) := by
  simp only [termDepositTests, tailTests, List.map_cons, List.map_nil, List.length_cons, length]

/-- The recogniser in terms of the pushed number and the code after it. -/
theorem release_block_eq (script : CScript) :
    getTermDepositReleaseBlock script =
      match leadingNumber script with
      | none => .ok (-1)
      | some (num, tail) =>
          if 29 ≤ script.length ∧ script.length ≤ 32 ∧ num.length ≤ 4 then
            match bytesMatch tail tailTests with
            | .error fault => .error fault
            | .ok false => .ok (-1)
            | .ok true => (scriptNum num true 5).map getint
          else .ok (-1) := by
  cases script with
  | nil => rfl
  | cons k pc =>
      have zero : (0 : UInt8).toNat = 0 := rfl
      have four : (4 : UInt8).toNat = 4 := rfl
      by_cases sized : (k :: pc).length < 29 ∨ (k :: pc).length > 32
      · rw [getTermDepositReleaseBlock, if_pos sized]
        split
        · rfl
        · rw [if_neg (by omega)]
      · have read : byteAt (k :: pc) 0 = .ok k := rfl
        simp only [getTermDepositReleaseBlock, if_neg sized, read]
        by_cases pushes : k > 4 ∨ k = 0
        · rw [if_pos pushes]
          split
          · rfl
          · rename_i num tail leads
            obtain ⟨_, positive, small, length, same⟩ := leadingNumber_some _ _ _ leads
            cases same
            rcases pushes with wide | none
            · rw [gt_iff_lt, UInt8.lt_iff_toNat_lt, four] at wide
              rw [if_neg (by omega)]
            · rw [none] at positive
              exact absurd positive (UInt8.lt_irrefl 0)
        · have positive : 0 < k := by
            rw [UInt8.lt_iff_toNat_lt, zero]
            rcases Nat.eq_zero_or_pos k.toNat with none | some
            · exact absurd (.inr (UInt8.toNat_inj.mp none)) pushes
            · exact some
          have atMost : k.toNat ≤ 4 := by
            have notWide : ¬ k > 4 := fun wide => pushes (.inl wide)
            rw [gt_iff_lt, UInt8.lt_iff_toNat_lt, four] at notWide
            omega
          have small : k < 6 := by
            rw [UInt8.lt_iff_toNat_lt]
            exact Nat.lt_of_le_of_lt atMost (by decide)
          have complete : k.toNat ≤ pc.length := by
            simp only [List.length_cons] at sized
            omega
          have leads : leadingNumber (k :: pc) = some (pc.take k.toNat, pc.drop k.toNat) := by
            rw [leadingNumber, if_pos ⟨positive, small, complete⟩]
          have length : (pc.take k.toNat).length = k.toNat := by
            rw [List.length_take]
            omega
          obtain ⟨_, -, -, parsed⟩ := getOp_leading _ _ _ leads
          have tests : bytesMatch (k :: pc) (termDepositTests k.toNat) =
              bytesMatch (pc.drop k.toNat) tailTests := by
            have shifted := bytesMatch_shift (k :: pc.take k.toNat) (pc.drop k.toNat) tailTests
            rwa [List.cons_append, List.take_append_drop, ← tests_shift k _ length] at shifted
          rw [if_neg pushes, leads, tests]
          simp only [parsed, Option.map_some, Option.getD_some]
          exact (if_pos (by omega)).symm

theorem lockedCode_some (script num code : Bytes) (locked : lockedCode script = some (num, code)) :
    leadingNumber script = some (num, lockOpcodes ++ code) := by
  rw [lockedCode] at locked
  split at locked
  · cases locked
  · rename_i num' tail leads
    split at locked
    · rename_i lock
      cases locked
      rw [leads, ← lock, List.take_append_drop]
    · cases locked

theorem lockedCode_length (script num code : Bytes)
    (locked : lockedCode script = some (num, code)) :
    1 ≤ num.length ∧ num.length ≤ 5 ∧ script.length = num.length + code.length + 5 := by
  obtain ⟨least, most, length⟩ := number_length _ _ _ (lockedCode_some _ _ _ locked)
  have lock : lockOpcodes.length = 4 := rfl
  rw [List.length_append, lock] at length
  omega

theorem tail_tests (tail : Bytes) (enough : 4 ≤ tail.length) :
    bytesMatch tail tailTests =
      if tail.take 4 = lockOpcodes then bytesMatch (tail.drop 4) codeTests else .ok false := by
  match tail, enough with
  | a :: b :: c :: d :: code, _ =>
      by_cases first : a = opChecklocktimeverify <;> by_cases second : b = opDrop <;>
        by_cases third : c = opDup <;> by_cases fourth : d = opHash160 <;>
        simp [tailTests, codeTests, lockOpcodes, bytesMatch, byteAt, first, second, third, fourth]

/-- The recogniser on the code after the lock operations. -/
theorem release_block_locked (script : CScript) :
    getTermDepositReleaseBlock script =
      match lockedCode script with
      | none => .ok (-1)
      | some (num, code) =>
          if 24 ≤ num.length + code.length ∧ num.length + code.length ≤ 27 ∧ num.length ≤ 4 then
            match bytesMatch code codeTests with
            | .error fault => .error fault
            | .ok false => .ok (-1)
            | .ok true => (scriptNum num true 5).map getint
          else .ok (-1) := by
  rw [release_block_eq]
  cases leads : leadingNumber script with
  | none => simp only [lockedCode, leads]
  | some pair =>
      obtain ⟨num, tail⟩ := pair
      obtain ⟨least, most, length⟩ := number_length _ _ _ leads
      by_cases sized : 29 ≤ script.length ∧ script.length ≤ 32 ∧ num.length ≤ 4
      · have enough : 4 ≤ tail.length := by omega
        by_cases lock : tail.take 4 = lockOpcodes
        · have code : (tail.drop 4).length = tail.length - 4 := List.length_drop
          simp only [lockedCode, leads, if_pos lock, if_pos sized, tail_tests tail enough]
          rw [if_pos (by omega)]
        · simp only [lockedCode, leads, if_neg lock, if_pos sized, tail_tests tail enough]
      · by_cases lock : tail.take 4 = lockOpcodes
        · have code : (tail.drop 4).length = tail.length - 4 := List.length_drop
          have locked : (tail.take 4).length = 4 := by rw [lock]; rfl
          rw [List.length_take] at locked
          simp only [lockedCode, leads, if_pos lock, if_neg sized]
          rw [if_neg (by omega)]
        · simp only [lockedCode, leads, if_neg lock, if_neg sized]

theorem code_tests_true (code : Bytes) :
    bytesMatch code codeTests = .ok true ↔
      code[21]? = some opEqualverify ∧ code[22]? = some opChecksig := by
  simp only [codeTests, bytesMatch, byteAt]
  cases code[21]? with
  | none => simp
  | some a =>
      cases code[22]? with
      | none => by_cases equal : a = opEqualverify <;> simp [equal]
      | some b =>
          by_cases equal : a = opEqualverify <;> by_cases sig : b = opChecksig <;>
            simp [equal, sig]

theorem code_tests_ok (code : Bytes) :
    (∃ verdict, bytesMatch code codeTests = .ok verdict) ↔
      ¬ (code.length ≤ 21 ∨ code.length = 22 ∧ code[21]? = some opEqualverify) := by
  simp only [codeTests, bytesMatch, byteAt]
  by_cases short : code.length ≤ 21
  · rw [List.getElem?_eq_none short]
    simp [short]
  · rw [List.getElem?_eq_getElem (by omega)]
    by_cases equal : code[21] = opEqualverify
    · by_cases exact : code.length = 22
      · rw [List.getElem?_eq_none (by omega)]
        simp [equal, exact]
      · rw [List.getElem?_eq_getElem (by omega)]
        by_cases sig : code[22] = opChecksig <;> simp [equal, sig, exact, short]
    · simp [equal, short]

/-! ## The template matcher -/

/-- A template operation that is a plain opcode matches that byte only. -/
theorem matchTemplate_plain (nMaxDatacarrierBytes : Nat) (opcode2 : UInt8) (template : List UInt8)
    (script1 : CScript) (sofar : Matched) (plain : opPushdata4 < opcode2)
    (ordinary : opcode2 < opSmalldata) :
    matchTemplate nMaxDatacarrierBytes (opcode2 :: template) script1 sofar =
      match script1 with
      | [] => .ok none
      | k :: pc =>
          if k = opcode2 then matchTemplate nMaxDatacarrierBytes template pc sofar else .ok none := by
  have special : opcode2 ≠ opPubkeys ∧ opcode2 ≠ opPubkey ∧ opcode2 ≠ opPubkeyhash ∧
      opcode2 ≠ opSmallinteger ∧ opcode2 ≠ opLocktimeinteger ∧ opcode2 ≠ opSmalldata := by
    rw [UInt8.lt_iff_toNat_lt] at ordinary
    have small : opSmalldata.toNat = 0xf9 := rfl
    refine ⟨?_, ?_, ?_, ?_, ?_, ?_⟩ <;> rintro rfl <;> exact absurd ordinary (by decide)
  have compare : ∀ opcode1 vch1, matchOp nMaxDatacarrierBytes opcode2 opcode1 vch1 sofar =
      if opcode1 ≠ opcode2 ∨ vch1 ≠ [] then .ok none else .ok (some sofar) := by
    intro opcode1 vch1
    rw [matchOp, if_neg special.2.1, if_neg special.2.2.1, if_neg special.2.2.2.1,
      if_neg special.2.2.2.2.1, if_neg special.2.2.2.2.2]
  cases script1 with
  | nil => rfl
  | cons k pc =>
      by_cases same : k = opcode2
      · subst same
        rw [matchTemplate, getOp_plain k pc plain]
        simp only [if_neg special.1, compare, ne_eq, not_true_eq_false, or_self, if_false, if_true]
      · rw [matchTemplate]
        split
        · simp only [if_neg same]
        · rename_i op parsed
          simp only [if_neg special.1, compare, if_neg same]
          rw [if_pos (.inl fun opcode => same (by rw [← opcode, getOp_opcode k pc op parsed]))]

/-- The code pushes twenty bytes, whatever the push opcode, and closes the template. -/
def keyHashPush (code : CScript) : Option Bytes :=
  match getOp code with
  | none => none
  | some op =>
      if op.vch.length = 20 ∧ op.rest = [opEqualverify, opChecksig] then some op.vch else none

theorem keyHash_template (nMaxDatacarrierBytes : Nat) (code : CScript) (sofar : Matched) :
    matchTemplate nMaxDatacarrierBytes [opPubkeyhash, opEqualverify, opChecksig] code sofar =
      .ok ((keyHashPush code).map fun hash =>
        { sofar with vSolutions := sofar.vSolutions ++ [hash] }) := by
  rw [matchTemplate, keyHashPush]
  cases getOp code with
  | none => rfl
  | some op =>
      have compare : matchOp nMaxDatacarrierBytes opPubkeyhash op.opcode op.vch sofar =
          if op.vch.length ≠ 20 then .ok none
          else .ok (some { sofar with vSolutions := sofar.vSolutions ++ [op.vch] }) := rfl
      have pubkeys : opPubkeyhash ≠ opPubkeys := by decide
      simp only [if_neg pubkeys, compare]
      by_cases sized : op.vch.length = 20
      · simp only [sized, ne_eq, not_true_eq_false, if_false, true_and]
        rw [matchTemplate_plain _ _ _ _ _ (by decide) (by decide)]
        cases op.rest with
        | nil => rfl
        | cons a rest =>
            by_cases first : a = opEqualverify
            · simp only [first, if_true]
              rw [matchTemplate_plain _ _ _ _ _ (by decide) (by decide)]
              cases rest with
              | nil => simp
              | cons b rest =>
                  by_cases second : b = opChecksig
                  · cases rest <;> simp [second, matchTemplate]
                  · simp [second]
            · simp [first]
      · simp only [ne_eq, sized, not_false_eq_true, if_true, false_and, if_false]
        rfl

theorem lock_template (nMaxDatacarrierBytes : Nat) (tail : CScript) (sofar : Matched) :
    matchTemplate nMaxDatacarrierBytes (termDepositTemplate.drop 1) tail sofar =
      .ok (if tail.take 4 = lockOpcodes then
        (keyHashPush (tail.drop 4)).map fun hash =>
          { sofar with vSolutions := sofar.vSolutions ++ [hash] }
      else none) := by
  have template : termDepositTemplate.drop 1 =
      lockOpcodes ++ [opPubkeyhash, opEqualverify, opChecksig] := rfl
  have peel : ∀ (lock rest : List UInt8) (tail : CScript),
      (∀ opcode ∈ lock, opPushdata4 < opcode ∧ opcode < opSmalldata) →
      matchTemplate nMaxDatacarrierBytes (lock ++ rest) tail sofar =
        if tail.take lock.length = lock then
          matchTemplate nMaxDatacarrierBytes rest (tail.drop lock.length) sofar
        else .ok none := by
    intro lock
    induction lock with
    | nil => intro rest tail plain; simp
    | cons opcode lock ih =>
        intro rest tail plain
        have here := plain opcode List.mem_cons_self
        rw [List.cons_append, matchTemplate_plain _ _ _ _ _ here.1 here.2]
        cases tail with
        | nil => simp
        | cons k pc =>
            by_cases same : k = opcode
            · simp only [same, if_true, List.length_cons, List.take_succ_cons, List.drop_succ_cons,
                List.cons.injEq, true_and]
              exact ih rest pc fun op member => plain op (List.mem_cons_of_mem _ member)
            · simp [same]
  have plain : ∀ opcode ∈ lockOpcodes, opPushdata4 < opcode ∧ opcode < opSmalldata := by
    intro opcode member
    simp only [lockOpcodes, List.mem_cons, List.not_mem_nil, or_false] at member
    rcases member with rfl | rfl | rfl | rfl <;> decide
  rw [template, peel lockOpcodes _ tail plain]
  have four : lockOpcodes.length = 4 := rfl
  rw [four]
  split
  · exact keyHash_template nMaxDatacarrierBytes (tail.drop 4) sofar
  · rfl

theorem term_deposit_template (nMaxDatacarrierBytes : Nat) (script : CScript) :
    matchTemplate nMaxDatacarrierBytes termDepositTemplate script ⟨[], none⟩ =
      match leadingNumber script with
      | none => .ok none
      | some (num, tail) =>
          match scriptNum num true 5 with
          | .error fault => .error fault
          | .ok n => .ok (if tail.take 4 = lockOpcodes then
              (keyHashPush (tail.drop 4)).map fun hash => ⟨[hash], some (getint n)⟩
            else none) := by
  have compare : ∀ opcode1 vch1, matchOp nMaxDatacarrierBytes opLocktimeinteger opcode1 vch1
      ⟨[], none⟩ = if opcode1 > 0 ∧ opcode1 < 6 then
        (scriptNum vch1 true 5).map fun n => some ⟨[], some (getint n)⟩
      else .ok none := fun opcode1 vch1 => rfl
  have pubkeys : opLocktimeinteger ≠ opPubkeys := by decide
  have template : termDepositTemplate = opLocktimeinteger :: termDepositTemplate.drop 1 := rfl
  rw [template, matchTemplate]
  cases leads : leadingNumber script with
  | none =>
      cases parsed : getOp script with
      | none => rfl
      | some op =>
          have other : ¬ (op.opcode > 0 ∧ op.opcode < 6) := by
            rintro ⟨positive, small⟩
            rw [getOp_small script op parsed positive small] at leads
            cases leads
          simp only [if_neg pubkeys, compare, if_neg other]
  | some pair =>
      obtain ⟨k, positive, small, parsed⟩ := getOp_leading script pair.1 pair.2 leads
      simp only [parsed, if_neg pubkeys, compare]
      rw [if_pos ⟨positive, small⟩]
      cases scriptNum pair.1 true 5 with
      | error fault => rfl
      | ok n => exact lock_template nMaxDatacarrierBytes pair.2 ⟨[], some (getint n)⟩

theorem matchOp_total (nMaxDatacarrierBytes : Nat) (opcode2 opcode1 : UInt8) (vch1 : Bytes)
    (sofar : Matched) (other : opcode2 ≠ opLocktimeinteger) :
    ∃ r, matchOp nMaxDatacarrierBytes opcode2 opcode1 vch1 sofar = .ok r := by
  simp only [matchOp, if_neg other]
  repeat' split
  all_goals exact ⟨_, rfl⟩

/-- Only the lock-time operation of a template reads a number. -/
theorem matchTemplate_total (nMaxDatacarrierBytes : Nat) (template : List UInt8)
    (script1 : CScript) (sofar : Matched) (other : opLocktimeinteger ∉ template) :
    ∃ r, matchTemplate nMaxDatacarrierBytes template script1 sofar = .ok r := by
  fun_induction matchTemplate nMaxDatacarrierBytes template script1 sofar with
  | case4 script1 sofar first _ op vs _ next2 template fault failed =>
      have next : next2 ≠ opLocktimeinteger := by
        rintro rfl
        exact other (by simp)
      obtain ⟨r, passed⟩ := matchOp_total nMaxDatacarrierBytes next2 op.opcode op.vch
        ⟨vs, sofar.cltvReleaseBlock⟩ next
      rw [passed] at failed
      cases failed
  | case6 script1 sofar first _ op vs _ next2 template sofar' _ ih =>
      exact ih fun member => other (List.mem_cons_of_mem _ (List.mem_cons_of_mem _ member))
  | case7 opcode2 template script1 sofar op _ _ fault failed =>
      have here : opcode2 ≠ opLocktimeinteger := by
        rintro rfl
        exact other List.mem_cons_self
      obtain ⟨r, passed⟩ := matchOp_total nMaxDatacarrierBytes opcode2 op.opcode op.vch sofar here
      rw [passed] at failed
      cases failed
  | case9 opcode2 template script1 sofar op _ _ sofar' _ ih =>
      exact ih fun member => other (List.mem_cons_of_mem _ member)
  | _ => exact ⟨_, rfl⟩

/-! ## The scan over all templates -/

theorem isPayToScriptHash_leading (script num tail : Bytes)
    (leads : leadingNumber script = some (num, tail)) : isPayToScriptHash script = false := by
  obtain ⟨k, -, small, -, rfl⟩ := leadingNumber_some script num tail leads
  have other : k ≠ opHash160 := by
    rintro rfl
    exact absurd small (by decide)
  simp [isPayToScriptHash, other]

/-- Before the lock-time template no template matches a script that starts with a number. -/
theorem leading_matches_none (nMaxDatacarrierBytes : Nat) (script num tail : Bytes)
    (leads : leadingNumber script = some (num, tail)) :
    matchTemplate nMaxDatacarrierBytes [opPubkey, opChecksig] script ⟨[], none⟩ = .ok none ∧
    (∀ opcode2 rest, 5 < opcode2 → opPushdata4 < opcode2 → opcode2 < opSmalldata →
      matchTemplate nMaxDatacarrierBytes (opcode2 :: rest) script ⟨[], none⟩ = .ok none) ∧
    ∀ rest, matchTemplate nMaxDatacarrierBytes (opSmallinteger :: rest) script ⟨[], none⟩ =
      .ok none := by
  obtain ⟨k, positive, small, parsed⟩ := getOp_leading script num tail leads
  obtain ⟨least, most, -⟩ := number_length script num tail leads
  have five : k.toNat ≤ 5 := by
    rw [UInt8.lt_iff_toNat_lt] at small
    exact Nat.le_of_lt_succ small
  refine ⟨?_, fun opcode2 rest above plain ordinary => ?_, fun rest => ?_⟩
  · have compare : matchOp nMaxDatacarrierBytes opPubkey k num ⟨[], none⟩ =
        if num.length < 33 ∨ num.length > 65 then .ok none
        else .ok (some ⟨[num], none⟩) := rfl
    have pubkeys : opPubkey ≠ opPubkeys := by decide
    rw [matchTemplate, parsed]
    simp only [if_neg pubkeys, compare]
    rw [if_pos (by omega)]
  · obtain ⟨first, -, below, -, rfl⟩ := leadingNumber_some script num tail leads
    have other : first ≠ opcode2 := by
      rintro rfl
      rw [UInt8.lt_iff_toNat_lt] at above below
      exact absurd (Nat.lt_of_lt_of_le below above) (Nat.lt_irrefl _)
    rw [matchTemplate_plain _ _ _ _ _ plain ordinary]
    simp only [if_neg other]
  · have compare : matchOp nMaxDatacarrierBytes opSmallinteger k num ⟨[], none⟩ =
        if k = op0 ∨ (k ≥ op1 ∧ k ≤ op16) then .ok (some ⟨[[decodeOpN k]], none⟩)
        else .ok none := rfl
    have pubkeys : opSmallinteger ≠ opPubkeys := by decide
    have other : ¬ (k = op0 ∨ (k ≥ op1 ∧ k ≤ op16)) := by
      rintro (rfl | ⟨high, -⟩)
      · exact absurd positive (by decide)
      · rw [ge_iff_le, UInt8.le_iff_toNat_le] at high
        have word : op1.toNat = 0x51 := rfl
        omega
    rw [matchTemplate, parsed]
    simp only [if_neg pubkeys, compare, if_neg other]

/-- `Solver` on a script that starts with a number is the lock-time template alone. -/
theorem solver_leading (fDatacarrier : Bool) (nMaxDatacarrierBytes : Nat)
    (script num tail : Bytes) (leads : leadingNumber script = some (num, tail)) :
    solver fDatacarrier nMaxDatacarrierBytes script =
      match scriptNum num true 5 with
      | .error fault => .error fault
      | .ok n =>
          match (if tail.take 4 = lockOpcodes then keyHashPush (tail.drop 4) else none) with
          | none => .ok ⟨false, .nonstandard, [], none⟩
          | some hash => .ok ⟨true, .checklocktimeverify, [hash], some (getint n)⟩ := by
  obtain ⟨pubkey, plain, multisig⟩ := leading_matches_none nMaxDatacarrierBytes script num tail leads
  have hash := plain opDup [opHash160, opPubkeyhash, opEqualverify, opChecksig] (by decide)
    (by decide) (by decide)
  have data := fun rest => plain opReturn rest (by decide) (by decide) (by decide)
  have deposit := term_deposit_template nMaxDatacarrierBytes script
  rw [leads] at deposit
  rw [solver, isPayToScriptHash_leading script num tail leads]
  simp only [Bool.false_eq_true, if_false, mTemplates, List.cons_append, List.nil_append,
    scanTemplates, pubkey, hash, multisig, deposit]
  cases scriptNum num true 5 with
  | error fault => rfl
  | ok n =>
      by_cases lock : tail.take 4 = lockOpcodes
      · simp only [if_pos lock]
        cases keyHashPush (tail.drop 4) with
        | none => cases fDatacarrier <;> simp [scanTemplates, data]
        | some key => rfl
      · simp only [if_neg lock]
        cases fDatacarrier <;> simp [scanTemplates, data]

/-- A scan whose templates all compare without a fault. -/
theorem scanTemplates_total (nMaxDatacarrierBytes : Nat) (script : CScript)
    (templates : List (TxnOutType × List UInt8))
    (compared : ∀ pair ∈ templates, ∃ r,
      matchTemplate nMaxDatacarrierBytes pair.2 script ⟨[], none⟩ = .ok r ∧
        (pair.1 = .checklocktimeverify → r = none)) :
    ∃ solved, scanTemplates nMaxDatacarrierBytes script templates = .ok solved ∧
      solved.typeRet ≠ .checklocktimeverify := by
  induction templates with
  | nil => exact ⟨_, rfl, by decide⟩
  | cons pair templates ih =>
      obtain ⟨r, match_ok, lock⟩ := compared pair List.mem_cons_self
      cases r with
      | none =>
          obtain ⟨solved, scanned, other⟩ :=
            ih fun pair member => compared pair (List.mem_cons_of_mem _ member)
          refine ⟨solved, ?_, other⟩
          simp only [scanTemplates, match_ok, scanned]
      | some matched =>
          simp only [scanTemplates, match_ok]
          refine ⟨_, rfl, ?_⟩
          intro same
          cases lock same

theorem solver_other (fDatacarrier : Bool) (nMaxDatacarrierBytes : Nat) (script : CScript)
    (other : leadingNumber script = none) :
    ∃ solved, solver fDatacarrier nMaxDatacarrierBytes script = .ok solved ∧
      solved.typeRet ≠ .checklocktimeverify := by
  rw [solver]
  split
  · exact ⟨_, rfl, by simp⟩
  · apply scanTemplates_total
    have deposit := term_deposit_template nMaxDatacarrierBytes script
    rw [other] at deposit
    have total : ∀ typeRet template, opLocktimeinteger ∉ template →
        typeRet ≠ TxnOutType.checklocktimeverify → ∃ r,
          matchTemplate nMaxDatacarrierBytes template script ⟨[], none⟩ = .ok r ∧
            (typeRet = .checklocktimeverify → r = none) := by
      intro typeRet template plain kind
      obtain ⟨r, compared⟩ := matchTemplate_total nMaxDatacarrierBytes template script ⟨[], none⟩ plain
      exact ⟨r, compared, fun same => absurd same kind⟩
    intro pair member
    have listed : pair.1 = .checklocktimeverify ∧ pair.2 = termDepositTemplate ∨
        opLocktimeinteger ∉ pair.2 ∧ pair.1 ≠ .checklocktimeverify := by
      revert pair
      cases fDatacarrier <;> decide
    rcases listed with ⟨-, template⟩ | ⟨plain, kind⟩
    · exact ⟨none, by rw [template]; exact deposit, fun _ => rfl⟩
    · exact total pair.1 pair.2 plain kind

end RoiCoin
