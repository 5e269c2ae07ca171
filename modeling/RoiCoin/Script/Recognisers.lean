import RoiCoin.Script.TermDeposit

/-! The two readings of a term deposit on arbitrary bytes: when both return, and when they agree.

Consensus pays interest by `GetTermDepositReleaseBlock`; the wallet owns, spends and relays by
`Solver`. -/

namespace RoiCoin

/-! ## Totality -/

/-- A lock-time push of one to five bytes that is not the shortest encoding of its number. -/
def PaddedNumber (script : CScript) : Prop :=
  ∃ num tail, leadingNumber script = some (num, tail) ∧ minimallyEncoded num = false

/-- The recogniser's last tests lie past the end: the size test counts from the front of the
script, the tests from the end of the pushed number. -/
def OverrunsTests (script : CScript) : Prop :=
  ∃ num code, lockedCode script = some (num, code) ∧ 24 ≤ num.length + code.length ∧
    num.length ≤ 4 ∧ (code.length ≤ 21 ∨ code.length = 22 ∧ code[21]? = some opEqualverify)

theorem solver_ok_iff (fDatacarrier : Bool) (nMaxDatacarrierBytes : Nat) (script : CScript) :
    (∃ solved, solver fDatacarrier nMaxDatacarrierBytes script = .ok solved) ↔
      ¬ PaddedNumber script := by
  cases leads : leadingNumber script with
  | none =>
      obtain ⟨solved, returned, -⟩ := solver_other fDatacarrier nMaxDatacarrierBytes script leads
      have plain : ¬ PaddedNumber script := by
        rintro ⟨num, tail, leads', -⟩
        rw [leads] at leads'
        cases leads'
      exact ⟨fun _ => plain, fun _ => ⟨solved, returned⟩⟩
  | some pair =>
      obtain ⟨num, tail⟩ := pair
      obtain ⟨-, short, -⟩ := number_length script num tail leads
      rw [solver_leading fDatacarrier nMaxDatacarrierBytes script num tail leads]
      cases minimal : minimallyEncoded num with
      | true =>
          rw [scriptNum_minimal num short minimal]
          have plain : ¬ PaddedNumber script := by
            rintro ⟨num', tail', leads', padded⟩
            rw [leads] at leads'
            cases leads'
            rw [minimal] at padded
            cases padded
          refine ⟨fun _ => plain, fun _ => ?_⟩
          dsimp only
          split <;> exact ⟨_, rfl⟩
      | false =>
          rw [scriptNum_padded num short minimal]
          have padded : PaddedNumber script := ⟨num, tail, leads, minimal⟩
          simp only [reduceCtorEq, exists_false, false_iff, not_not]
          exact padded

theorem release_block_ok (script : CScript) (inside : ¬ OverrunsTests script)
    (plain : ¬ PaddedNumber script) : ∃ release, getTermDepositReleaseBlock script = .ok release := by
  rw [release_block_locked]
  cases locked : lockedCode script with
  | none => exact ⟨_, rfl⟩
  | some pair =>
      obtain ⟨num, code⟩ := pair
      obtain ⟨-, short, -⟩ := lockedCode_length script num code locked
      have minimal : minimallyEncoded num = true := by
        by_contra padded
        exact plain ⟨num, _, lockedCode_some _ _ _ locked, by simpa using padded⟩
      by_cases sized : 24 ≤ num.length + code.length ∧ num.length + code.length ≤ 27 ∧
          num.length ≤ 4
      · have covered : ¬ (code.length ≤ 21 ∨ code.length = 22 ∧ code[21]? = some opEqualverify) :=
          fun past => inside ⟨num, code, locked, sized.1, sized.2.2, past⟩
        obtain ⟨verdict, tested⟩ := (code_tests_ok code).mpr covered
        simp only [if_pos sized, tested, scriptNum_minimal num short minimal]
        cases verdict <;> exact ⟨_, rfl⟩
      · simp only [if_neg sized]
        exact ⟨_, rfl⟩

theorem overrun_faults (script : CScript) (overruns : OverrunsTests script) :
    ¬ ∃ release, getTermDepositReleaseBlock script = .ok release := by
  obtain ⟨num, code, locked, least, short, past⟩ := overruns
  have untested : ¬ ∃ verdict, bytesMatch code codeTests = .ok verdict :=
    fun tested => (code_tests_ok code).mp tested past
  rw [release_block_locked, locked]
  simp only
  rw [if_pos ⟨least, by omega, short⟩]
  cases tested : bytesMatch code codeTests with
  | error fault => simp
  | ok verdict => exact absurd ⟨verdict, tested⟩ untested

/-- Both recognisers return on a script exactly when its lock number is minimally encoded and
the fixed offsets stay inside the script. -/
theorem recognisers_return_iff (fDatacarrier : Bool) (nMaxDatacarrierBytes : Nat)
    (script : CScript) :
    ((∃ release, getTermDepositReleaseBlock script = .ok release) ∧
      ∃ solved, solver fDatacarrier nMaxDatacarrierBytes script = .ok solved) ↔
    ¬ OverrunsTests script ∧ ¬ PaddedNumber script := by
  constructor
  · rintro ⟨released, solved⟩
    exact ⟨fun overruns => overrun_faults script overruns released,
      (solver_ok_iff fDatacarrier nMaxDatacarrierBytes script).mp solved⟩
  · rintro ⟨inside, plain⟩
    exact ⟨release_block_ok script inside plain,
      (solver_ok_iff fDatacarrier nMaxDatacarrierBytes script).mpr plain⟩

/-- A deposit locked until block zero, written as a one-byte push of zero, and a script of 29
bytes whose length byte moves the last tests past its end. -/
theorem recognisers_fault_on_hostile_scripts :
    let keyHash : Bytes := List.replicate 20 7
    let padded : CScript :=
      [1, 0] ++ lockOpcodes ++ [0x14] ++ keyHash ++ [opEqualverify, opChecksig]
    let overrun : CScript := [4, 1, 1, 1, 1] ++ lockOpcodes ++ keyHash
    (∃ fault, getTermDepositReleaseBlock padded = .error (.scriptnumError fault)) ∧
    (∃ fault, solver true 40 padded = .error (.scriptnumError fault)) ∧
    getTermDepositReleaseBlock overrun = .error .outOfBounds := by
  refine ⟨⟨"non-minimally encoded script number", ?_⟩,
    ⟨"non-minimally encoded script number", ?_⟩, ?_⟩ <;> decide

/-! ## Agreement -/

/-- The recogniser's reading of the code after the lock operations. -/
def fitsOffsets (num code : Bytes) : Prop :=
  num.length ≤ 4 ∧ num.length + code.length ≤ 27 ∧
    code[21]? = some opEqualverify ∧ code[22]? = some opChecksig

/-- A push of a key hash by the given push bytes, closed by the template's last two opcodes. -/
def pushesKeyHash (push code : Bytes) : Prop :=
  ∃ hash : Bytes, hash.length = 20 ∧ code = push ++ hash ++ [opEqualverify, opChecksig]

/-- The four ways to push twenty bytes. -/
def directPush : Bytes := [0x14]
def pushdata1 : Bytes := [opPushdata1, 0x14]
def pushdata2 : Bytes := [opPushdata2, 0x14, 0]
def pushdata4 : Bytes := [opPushdata4, 0x14, 0, 0, 0]

theorem toNat_eq_twenty (byte : UInt8) (value : byte.toNat = 20) : byte = 0x14 :=
  UInt8.toNat_inj.mp value

theorem readLE_cons (byte : UInt8) (bytes : Bytes) :
    readLE (byte :: bytes) = byte.toNat + 256 * readLE bytes := rfl

theorem readLE_zero (bytes : Bytes) (value : readLE bytes = 0) :
    bytes = List.replicate bytes.length 0 := by
  induction bytes with
  | nil => rfl
  | cons byte bytes ih =>
      rw [readLE_cons] at value
      have low : byte = 0 := UInt8.toNat_inj.mp (by
        have zero : (0 : UInt8).toNat = 0 := rfl
        omega)
      rw [List.length_cons, List.replicate_succ, ← ih (by omega), low]

theorem readLE_twenty (bytes : Bytes) (n : Nat) (length : bytes.length = n + 1)
    (value : readLE bytes = 20) : bytes = 0x14 :: List.replicate n 0 := by
  cases bytes with
  | nil => cases length
  | cons byte bytes =>
      rw [readLE_cons] at value
      have small := byte.toNat_lt
      rw [List.length_cons, Nat.add_right_cancel_iff] at length
      have high := readLE_zero bytes (by omega)
      rw [toNat_eq_twenty byte (by omega), ← length]
      exact congrArg _ high

theorem width_pushdata :
    lengthWidth opPushdata1 = 1 ∧ lengthWidth opPushdata2 = 2 ∧ lengthWidth opPushdata4 = 4 := by
  decide

theorem pushdata_cases (k : UInt8) (push : k ≤ opPushdata4) (long : ¬ k < opPushdata1) :
    k = opPushdata1 ∨ k = opPushdata2 ∨ k = opPushdata4 := by
  rw [UInt8.le_iff_toNat_le] at push
  rw [UInt8.lt_iff_toNat_lt] at long
  have low : opPushdata1.toNat = 76 := rfl
  have high : opPushdata4.toNat = 78 := rfl
  have three : k.toNat = 76 ∨ k.toNat = 77 ∨ k.toNat = 78 := by omega
  rcases three with value | value | value
  · exact .inl (UInt8.toNat_inj.mp value)
  · exact .inr (.inl (UInt8.toNat_inj.mp value))
  · exact .inr (.inr (UInt8.toNat_inj.mp value))

theorem keyHashPush_of_pushed (opcode : UInt8) (nSize : Nat) (pc hash : Bytes)
    (parsed : getOp (opcode :: pc) = takePush opcode nSize (hash ++ [opEqualverify, opChecksig]))
    (sized : hash.length = 20) (twenty : nSize = 20) :
    keyHashPush (opcode :: pc) = some hash := by
  have pushed : getOp (opcode :: pc) = some ⟨opcode, hash, [opEqualverify, opChecksig]⟩ := by
    rw [parsed, takePush_some, twenty, ← sized]
    simp
  rw [keyHashPush, pushed]
  simp [sized]

/-- The pushes the matcher accepts for a key hash. -/
theorem keyHashPush_some_iff (code : CScript) :
    (∃ hash, keyHashPush code = some hash) ↔
      pushesKeyHash directPush code ∨ pushesKeyHash pushdata1 code ∨
        pushesKeyHash pushdata2 code ∨ pushesKeyHash pushdata4 code := by
  constructor
  · rintro ⟨hash, found⟩
    rw [keyHashPush] at found
    cases code with
    | nil => cases found
    | cons k pc =>
        cases parsed : getOp (k :: pc) with
        | none =>
            rw [parsed] at found
            cases found
        | some op =>
            rw [parsed] at found
            simp only [Option.ite_none_right_eq_some] at found
            obtain ⟨⟨sized, closes⟩, -⟩ := found
            by_cases direct : k < opPushdata1
            · rw [getOp_direct k pc direct, takePush_some] at parsed
              obtain ⟨enough, rfl⟩ := parsed
              simp only [List.length_take] at sized closes
              have first := toNat_eq_twenty k (by omega)
              refine .inl ⟨pc.take k.toNat, by rw [List.length_take]; omega, ?_⟩
              rw [← closes, List.append_assoc, List.take_append_drop, first]
              rfl
            · by_cases push : k ≤ opPushdata4
              · by_cases short : pc.length < lengthWidth k
                · rw [getOp, if_pos push, if_neg direct, if_pos short] at parsed
                  cases parsed
                · rw [getOp_length k pc push direct (by omega), takePush_some] at parsed
                  obtain ⟨enough, rfl⟩ := parsed
                  simp only [List.length_take, List.length_drop] at sized closes enough
                  have twenty : readLE (pc.take (lengthWidth k)) = 20 := by omega
                  have split : pc = pc.take (lengthWidth k) ++
                      ((pc.drop (lengthWidth k)).take 20 ++ [opEqualverify, opChecksig]) := by
                    rw [← closes, twenty, List.take_append_drop, List.take_append_drop]
                  have hashed : ((pc.drop (lengthWidth k)).take 20).length = 20 := by
                    rw [List.length_take, List.length_drop]
                    omega
                  have width : (pc.take (lengthWidth k)).length = lengthWidth k := by
                    rw [List.length_take]
                    omega
                  rcases pushdata_cases k push direct with rfl | rfl | rfl
                  · refine .inr (.inl ⟨_, hashed, ?_⟩)
                    rw [readLE_twenty _ 0 width twenty] at split
                    exact congrArg _ split
                  · refine .inr (.inr (.inl ⟨_, hashed, ?_⟩))
                    rw [readLE_twenty _ 1 width twenty] at split
                    exact congrArg _ split
                  · refine .inr (.inr (.inr ⟨_, hashed, ?_⟩))
                    rw [readLE_twenty _ 3 width twenty] at split
                    exact congrArg _ split
              · rw [getOp_plain k pc (UInt8.not_le.mp push)] at parsed
                cases parsed
                cases sized
  · rintro (⟨hash, sized, rfl⟩ | ⟨hash, sized, rfl⟩ | ⟨hash, sized, rfl⟩ | ⟨hash, sized, rfl⟩)
    · exact ⟨hash, keyHashPush_of_pushed _ _ _ _ (getOp_direct 0x14 _ (by decide)) sized rfl⟩
    · exact ⟨hash, keyHashPush_of_pushed _ _ _ _
        (getOp_length opPushdata1 _ (by decide) (by decide) (by simp [width_pushdata])) sized rfl⟩
    · exact ⟨hash, keyHashPush_of_pushed _ _ _ _
        (getOp_length opPushdata2 _ (by decide) (by decide) (by simp [width_pushdata])) sized rfl⟩
    · exact ⟨hash, keyHashPush_of_pushed _ _ _ _
        (getOp_length opPushdata4 _ (by decide) (by decide) (by simp [width_pushdata])) sized rfl⟩

theorem getint_nonneg (n : Int) : 0 ≤ getint n ↔ 0 ≤ n := by
  rw [getint]
  split
  · constructor <;> intro _ <;> omega
  · split
    · constructor <;> intro _ <;> omega
    · exact Iff.rfl

theorem exists_locked (property : Bytes → Bytes → Prop) (num code : Bytes) :
    (∃ num' code', some (num, code) = some (num', code') ∧ property num' code') ↔
      property num code := by
  constructor
  · rintro ⟨num', code', same, holds⟩
    cases same
    exact holds
  · exact fun holds => ⟨num, code, rfl, holds⟩

/-- What the recogniser reads out of a script. -/
theorem deposit_read_iff (script : CScript) (r : Int) (height : 0 ≤ r) :
    getTermDepositReleaseBlock script = .ok r ↔
      ∃ num code, lockedCode script = some (num, code) ∧ minimallyEncoded num = true ∧
        getint (setVch num) = r ∧ fitsOffsets num code := by
  have negative : ¬ ((-1 : Int) = r) := by omega
  rw [release_block_locked]
  cases locked : lockedCode script with
  | none => simp [negative]
  | some pair =>
      obtain ⟨num, code⟩ := pair
      obtain ⟨least, short, -⟩ := lockedCode_length script num code locked
      rw [exists_locked]
      dsimp only
      by_cases sized : 24 ≤ num.length + code.length ∧ num.length + code.length ≤ 27 ∧
          num.length ≤ 4
      · rw [if_pos sized]
        cases tested : bytesMatch code codeTests with
        | error fault =>
            have past : ¬ fitsOffsets num code := by
              rintro ⟨-, -, tests⟩
              rw [(code_tests_true code).mpr tests] at tested
              cases tested
            simp [past]
        | ok verdict =>
            cases verdict with
            | false =>
                have differs : ¬ fitsOffsets num code := by
                  rintro ⟨-, -, tests⟩
                  rw [(code_tests_true code).mpr tests] at tested
                  cases tested
                simp [differs, negative]
            | true =>
                have fits : fitsOffsets num code :=
                  ⟨sized.2.2, sized.2.1, (code_tests_true code).mp tested⟩
                cases minimal : minimallyEncoded num with
                | true =>
                    rw [scriptNum_minimal num short minimal]
                    simp [fits, Except.map]
                | false =>
                    rw [scriptNum_padded num short minimal]
                    simp [Except.map]
      · have outside : ¬ fitsOffsets num code := by
          rintro ⟨narrow, fits, -, sig⟩
          have reached := (List.getElem?_eq_some_iff.mp sig).1
          omega
        simp [if_neg sized, negative, outside]

/-- What the matcher reads out of a script. -/
theorem deposit_matched_iff (fDatacarrier : Bool) (nMaxDatacarrierBytes : Nat) (script : CScript)
    (r : Int) :
    (∃ vSolutions, solver fDatacarrier nMaxDatacarrierBytes script =
        .ok ⟨true, .checklocktimeverify, vSolutions, some r⟩) ↔
      ∃ num code, lockedCode script = some (num, code) ∧ minimallyEncoded num = true ∧
        getint (setVch num) = r ∧ ∃ hash, keyHashPush code = some hash := by
  cases leads : leadingNumber script with
  | none =>
      obtain ⟨solved, returned, kind⟩ := solver_other fDatacarrier nMaxDatacarrierBytes script leads
      have unlocked : lockedCode script = none := by simp only [lockedCode, leads]
      simp only [returned, unlocked, reduceCtorEq, false_and, exists_false, iff_false, not_exists,
        Except.ok.injEq]
      rintro vSolutions rfl
      exact kind rfl
  | some pair =>
      obtain ⟨num, tail⟩ := pair
      obtain ⟨-, short, -⟩ := number_length script num tail leads
      rw [solver_leading fDatacarrier nMaxDatacarrierBytes script num tail leads]
      cases minimal : minimallyEncoded num with
      | false =>
          rw [scriptNum_padded num short minimal]
          simp only [reduceCtorEq, exists_false, false_iff, not_exists]
          rintro num' code ⟨locked, minimal', -⟩
          have leads' := lockedCode_some _ _ _ locked
          rw [leads] at leads'
          cases leads'
          rw [minimal] at minimal'
          cases minimal'
      | true =>
          rw [scriptNum_minimal num short minimal]
          by_cases lock : tail.take 4 = lockOpcodes
          · have locked : lockedCode script = some (num, tail.drop 4) := by
              simp only [lockedCode, leads, if_pos lock]
            rw [locked, if_pos lock]
            rw [exists_locked]
            cases keyHashPush (tail.drop 4) <;> simp [minimal]
          · have unlocked : lockedCode script = none := by
              simp only [lockedCode, leads, if_neg lock]
            rw [unlocked, if_neg lock]
            simp

/-- The code after the lock operations reads alike by offset and by template. -/
structure ReadsAlike (num code : Bytes) : Prop where
  /-- What fits the offsets is a direct or a two-byte-length push of twenty bytes. -/
  offsets : fitsOffsets num code → pushesKeyHash directPush code ∨ pushesKeyHash pushdata2 code
  direct : pushesKeyHash directPush code → num.length ≤ 4
  narrow : ¬ pushesKeyHash pushdata1 code
  /-- The hash itself ends in the two closing opcodes. -/
  wide : pushesKeyHash pushdata2 code →
    num.length ≤ 2 ∧ code[21]? = some opEqualverify ∧ code[22]? = some opChecksig
  widest : ¬ pushesKeyHash pushdata4 code

theorem pushes_length (push code : Bytes) (pushes : pushesKeyHash push code) :
    code.length = push.length + 22 := by
  obtain ⟨hash, sized, rfl⟩ := pushes
  simp [sized]

theorem pushes_closing (push code : Bytes) (pushes : pushesKeyHash push code) :
    code[push.length + 20]? = some opEqualverify ∧ code[push.length + 21]? = some opChecksig := by
  obtain ⟨hash, sized, rfl⟩ := pushes
  have front : (push ++ hash).length = push.length + 20 := by rw [List.length_append, sized]
  rw [List.getElem?_append_right (by omega), List.getElem?_append_right (by omega), front]
  simp

theorem reads_alike_iff (num code : Bytes) (least : 1 ≤ num.length) :
    (fitsOffsets num code ↔ ∃ hash, keyHashPush code = some hash) ↔ ReadsAlike num code := by
  rw [keyHashPush_some_iff]
  have narrow : pushesKeyHash pushdata1 code → ¬ fitsOffsets num code := by
    rintro pushes ⟨-, -, -, sig⟩
    have closing := (pushes_closing pushdata1 code pushes).1
    rw [show pushdata1.length + 20 = 22 from rfl, sig] at closing
    exact absurd (Option.some.inj closing) (by decide)
  have widest : pushesKeyHash pushdata4 code → ¬ fitsOffsets num code := by
    rintro pushes ⟨-, fits, -⟩
    have length := pushes_length pushdata4 code pushes
    have five : pushdata4.length = 5 := rfl
    omega
  constructor
  · intro alike
    refine ⟨fun fits => ?_, fun direct => ?_, fun pushes => ?_, fun pushes => ?_, fun pushes => ?_⟩
    · rcases alike.mp fits with direct | push1 | push2 | push4
      · exact .inl direct
      · exact absurd fits (narrow push1)
      · exact .inr push2
      · exact absurd fits (widest push4)
    · exact (alike.mpr (.inl direct)).1
    · exact narrow pushes (alike.mpr (.inr (.inl pushes)))
    · have fits := alike.mpr (.inr (.inr (.inl pushes)))
      have length := pushes_length pushdata2 code pushes
      have three : pushdata2.length = 3 := rfl
      exact ⟨by have := fits.2.1; omega, fits.2.2⟩
    · exact widest pushes (alike.mpr (.inr (.inr (.inr pushes))))
  · intro alike
    constructor
    · intro fits
      rcases alike.offsets fits with direct | push2
      · exact .inl direct
      · exact .inr (.inr (.inl push2))
    · rintro (direct | push1 | push2 | push4)
      · have length := pushes_length directPush code direct
        have one : directPush.length = 1 := rfl
        have short := alike.direct direct
        exact ⟨short, by omega, pushes_closing directPush code direct⟩
      · exact absurd push1 alike.narrow
      · have length := pushes_length pushdata2 code push2
        have three : pushdata2.length = 3 := rfl
        obtain ⟨short, closing⟩ := alike.wide push2
        exact ⟨by omega, by omega, closing⟩
      · exact absurd push4 alike.widest

/-- The recognisers extract the same release heights from a script exactly when its code after
a minimally encoded, non-negative lock number reads alike. -/
theorem recognisers_agree_iff (fDatacarrier : Bool) (nMaxDatacarrierBytes : Nat)
    (script : CScript) :
    (∀ r : Int, 0 ≤ r →
      (getTermDepositReleaseBlock script = .ok r ↔
        ∃ vSolutions, solver fDatacarrier nMaxDatacarrierBytes script =
          .ok ⟨true, .checklocktimeverify, vSolutions, some r⟩)) ↔
    ∀ num code, lockedCode script = some (num, code) → minimallyEncoded num = true →
      0 ≤ setVch num → ReadsAlike num code := by
  constructor
  · intro agree num code locked minimal height
    obtain ⟨least, -, -⟩ := lockedCode_length script num code locked
    rw [← reads_alike_iff num code least]
    have same := agree (getint (setVch num)) ((getint_nonneg _).mpr height)
    rw [deposit_read_iff script _ ((getint_nonneg _).mpr height), deposit_matched_iff, locked,
      exists_locked, exists_locked] at same
    simpa [minimal] using same
  · intro alike r height
    rw [deposit_read_iff script r height, deposit_matched_iff]
    cases locked : lockedCode script with
    | none => simp
    | some pair =>
        obtain ⟨num, code⟩ := pair
        obtain ⟨least, -, -⟩ := lockedCode_length script num code locked
        rw [exists_locked, exists_locked]
        refine and_congr_right fun minimal => and_congr_right fun value => ?_
        have lock : 0 ≤ setVch num := (getint_nonneg _).mp (value ▸ height)
        exact (reads_alike_iff num code least).mpr (alike num code locked minimal lock)

/-- One byte after the template: consensus reads a deposit released at height ten, the wallet
a script it does not know. -/
theorem recognisers_differ_on_trailing_byte :
    let script : CScript := [1, 10] ++ lockOpcodes ++ [0x14] ++ List.replicate 20 7 ++
      [opEqualverify, opChecksig, 0x61]
    ¬ (getTermDepositReleaseBlock script = .ok 10 ↔
      ∃ vSolutions, solver true 40 script =
        .ok ⟨true, .checklocktimeverify, vSolutions, some 10⟩) := by
  intro script agree
  have read : getTermDepositReleaseBlock script = .ok 10 := by decide
  have unknown : solver true 40 script = .ok ⟨false, .nonstandard, [], none⟩ := by decide
  obtain ⟨vSolutions, matched⟩ := agree.mp read
  rw [unknown] at matched
  cases matched

end RoiCoin
