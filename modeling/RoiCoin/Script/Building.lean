import RoiCoin.Script.Pushes

/-! Scripts built with `operator<<` and read back with `GetOp` (`script/script.h`).

`GetOp2` is here with the width of its comparisons: the number of bytes left is cut to 32 bits. It
faults where it would read past the end. -/

namespace RoiCoin

/-- What `GetOp2` leaves behind: its value, `opcodeRet`, `*pvchRet` and `pc`. -/
structure GetOpResult where
  fRet : Bool
  opcodeRet : UInt8
  vchRet : Bytes
  pc : CScript
  deriving DecidableEq

def refused (pc : CScript) : GetOpResult := ⟨false, opInvalidopcode, [], pc⟩

/-- Read so many bytes at a position. -/
def bytesAt (pc : CScript) (n : Nat) : Except ScriptFault (Bytes × CScript) :=
  if pc.length < n then .error .outOfBounds else .ok (pc.take n, pc.drop n)

/-- The size of a push and the position behind it; nothing if its length field is cut off. -/
def pushSize (opcode : UInt8) (pc : CScript) : Except ScriptFault (Option (Nat × CScript)) :=
  if opcode < opPushdata1 then .ok (some (opcode.toNat, pc))
  else if pc.length < lengthWidth opcode then .ok none
  else do
    let field ← bytesAt pc (lengthWidth opcode)
    return some (readLE field.1, field.2)

def getOperand (opcode : UInt8) (nSize : Nat) (pc : CScript) : Except ScriptFault GetOpResult :=
  if pc.length % 2 ^ 32 < nSize then .ok (refused pc)
  else do
    let operand ← bytesAt pc nSize
    return ⟨true, opcode, operand.1, operand.2⟩

/-- The immediate operand. -/
def getPush (opcode : UInt8) (pc : CScript) : Except ScriptFault GetOpResult := do
  match ← pushSize opcode pc with
  | none => return refused pc
  | some (nSize, pc) => getOperand opcode nSize pc

def getOp2 : CScript → Except ScriptFault GetOpResult
  | [] => .ok (refused [])
  | opcode :: pc =>
      if opcode ≤ opPushdata4 then getPush opcode pc else .ok ⟨true, opcode, [], pc⟩

/-- `while (GetOp(pc, opcode, vch))`: the operations read and the position at the end, or nothing if
the rounds do not suffice. -/
def parseLoop : Nat → CScript → Except ScriptFault (Option (List (UInt8 × Bytes) × CScript))
  | 0, _ => .ok none
  | rounds + 1, pc => do
      let op ← getOp2 pc
      if op.fRet then do
        let rest ← parseLoop rounds op.pc
        return rest.map fun read => ((op.opcodeRet, op.vchRet) :: read.1, read.2)
      else return some ([], op.pc)

def parse (script : CScript) : Except ScriptFault (Option (List (UInt8 × Bytes) × CScript)) :=
  parseLoop (script.length + 1) script

/-- What is appended to a script. -/
inductive ScriptItem where
  | opcode (op : UInt8)
  | data (b : Bytes)

/-- `operator<<` -/
def ScriptItem.appendTo (script : CScript) : ScriptItem → CScript
  | .opcode op => script ++ [op]
  | .data b => script ++ pushData b

def build (items : List ScriptItem) : CScript := items.foldl ScriptItem.appendTo []

/-- The item as `GetOp` is to give it back. -/
def ScriptItem.parsed : ScriptItem → UInt8 × Bytes
  | .opcode op => (op, [])
  | .data b => (pushOpcode b, b)

/-! ## Any bytes -/

theorem bytesAt_ok (pc : CScript) (n : Nat) (enough : n ≤ pc.length) :
    bytesAt pc n = .ok (pc.take n, pc.drop n) := if_neg (by omega)

theorem getOperand_inside (opcode : UInt8) (nSize : Nat) (pc : CScript) :
    ∃ result, getOperand opcode nSize pc = .ok result ∧ ∃ used, pc = used ++ result.pc := by
  rw [getOperand]
  split
  · exact ⟨refused pc, rfl, [], rfl⟩
  · rename_i enough
    have least := Nat.mod_le pc.length (2 ^ 32)
    rw [bytesAt_ok pc nSize (by omega)]
    exact ⟨_, rfl, pc.take nSize, (List.take_append_drop _ _).symm⟩

theorem getPush_inside (opcode : UInt8) (pc : CScript) :
    ∃ result, getPush opcode pc = .ok result ∧ ∃ used, pc = used ++ result.pc := by
  rw [getPush, pushSize]
  split
  · exact getOperand_inside opcode _ pc
  · split
    · exact ⟨refused pc, rfl, [], rfl⟩
    · rename_i long
      rw [bytesAt_ok pc _ (by omega)]
      obtain ⟨result, read, used, split⟩ := getOperand_inside opcode
        (readLE (pc.take (lengthWidth opcode))) (pc.drop (lengthWidth opcode))
      refine ⟨result, read, pc.take (lengthWidth opcode) ++ used, ?_⟩
      rw [List.append_assoc, ← split, List.take_append_drop]

/-- `GetOp` reads inside the script, and moves on unless it is at the end. -/
theorem getOp2_advances (script : CScript) :
    ∃ result, getOp2 script = .ok result ∧
      (∃ used, script = used ++ result.pc ∧ (script ≠ [] → used ≠ [])) ∧
      (result.fRet = true → result.pc.length < script.length) := by
  cases script with
  | nil => exact ⟨refused [], rfl, ⟨[], rfl, fun some => absurd rfl some⟩, Bool.false_ne_true.elim⟩
  | cons opcode pc =>
      rw [getOp2]
      split
      · obtain ⟨result, read, used, split⟩ := getPush_inside opcode pc
        have size := congrArg List.length split
        rw [List.length_append] at size
        refine ⟨result, read, ⟨opcode :: used, congrArg _ split, fun _ => List.cons_ne_nil _ _⟩, ?_⟩
        intro _
        rw [List.length_cons]
        omega
      · exact ⟨_, rfl, ⟨[opcode], rfl, fun _ => List.cons_ne_nil _ _⟩,
          fun _ => Nat.lt_succ_self _⟩

/-- The loop over a script ends. -/
theorem parseLoop_ends (rounds : Nat) (pc : CScript) (enough : pc.length < rounds) :
    ∃ read, parseLoop rounds pc = .ok (some read) := by
  induction rounds generalizing pc with
  | zero => omega
  | succ rounds ih =>
      obtain ⟨op, parsed, -, shorter⟩ := getOp2_advances pc
      rw [parseLoop, parsed]
      by_cases more : op.fRet = true
      · obtain ⟨rest, read⟩ := ih op.pc (by have less := shorter more; omega)
        refine ⟨((op.opcodeRet, op.vchRet) :: rest.1, rest.2), ?_⟩
        show (if op.fRet = true then _ else _) = _
        rw [if_pos more, read]
        rfl
      · refine ⟨([], op.pc), ?_⟩
        show (if op.fRet = true then _ else _) = _
        rw [if_neg more]
        rfl

/-! ## Built scripts -/

/-- Cutting the number of bytes left is harmless where the operand still fits into what is left. -/
theorem getOp2_getOp (script : CScript) (op : ScriptOp) (parsed : getOp script = some op)
    (fits : op.vch.length ≤ (op.vch.length + op.rest.length) % 2 ^ 32) :
    getOp2 script = .ok ⟨true, op.opcode, op.vch, op.rest⟩ := by
  have operand : ∀ opcode nSize pc, takePush opcode nSize pc = some op →
      getOperand opcode nSize pc = .ok ⟨true, op.opcode, op.vch, op.rest⟩ := by
    intro opcode nSize pc taken
    obtain ⟨enough, rfl⟩ := (takePush_some opcode nSize pc op).mp taken
    have sizes : (pc.take nSize).length + (pc.drop nSize).length = pc.length := by
      rw [← List.length_append, List.take_append_drop]
    rw [sizes, List.length_take, Nat.min_eq_left enough] at fits
    rw [getOperand, if_neg (by omega), bytesAt_ok pc nSize enough]
    rfl
  cases script with
  | nil => cases parsed
  | cons opcode pc =>
      rw [getOp] at parsed
      rw [getOp2]
      split at parsed
      · rename_i push
        rw [if_pos push, getPush, pushSize]
        split at parsed
        · rename_i direct
          rw [if_pos direct]
          exact operand opcode _ pc parsed
        · rename_i counted
          rw [if_neg counted]
          split at parsed
          · cases parsed
          · rename_i long
            rw [if_neg long, bytesAt_ok pc _ (by omega)]
            exact operand opcode _ _ parsed
      · rename_i plain
        cases parsed
        rw [if_neg plain]

/-- What an item adds to a script. -/
def ScriptItem.bytes : ScriptItem → CScript
  | .opcode op => [op]
  | .data b => pushData b

theorem foldl_appendTo (items : List ScriptItem) (script : CScript) :
    items.foldl ScriptItem.appendTo script = script ++ items.flatMap ScriptItem.bytes := by
  induction items generalizing script with
  | nil => simp
  | cons item items ih =>
      have added : ScriptItem.appendTo script item = script ++ item.bytes := by cases item <;> rfl
      rw [List.foldl_cons, ih, added, List.flatMap_cons, List.append_assoc]

theorem build_flatMap (items : List ScriptItem) : build items = items.flatMap ScriptItem.bytes := by
  rw [build, foldl_appendTo, List.nil_append]

/-- An opcode that is not followed by data of its own; data that can be counted in 32 bits. -/
def ScriptItem.Plain : ScriptItem → Prop
  | .opcode op => op = op0 ∨ opPushdata4 < op
  | .data b => b.length < 2 ^ 32

instance (item : ScriptItem) : Decidable item.Plain :=
  match item with
  | .opcode op => inferInstanceAs (Decidable (op = op0 ∨ opPushdata4 < op))
  | .data b => inferInstanceAs (Decidable (b.length < 2 ^ 32))

/-- Where data is pushed, the number of bytes left in the script is not cut below the size of the
data. -/
def LeftOver : List ScriptItem → Prop
  | [] => True
  | .opcode _ :: items => LeftOver items
  | .data b :: items =>
      b.length ≤ (b.length + (items.flatMap ScriptItem.bytes).length) % 2 ^ 32 ∧ LeftOver items

theorem item_parsed (item : ScriptItem) (rest : CScript) (plain : item.Plain) :
    getOp (item.bytes ++ rest) = some ⟨item.parsed.1, item.parsed.2, rest⟩ := by
  cases item with
  | data b => exact getOp_pushData b rest plain
  | opcode op =>
      rcases plain with zero | high
      · rw [zero]
        exact getOp_pushData [] rest (by decide)
      · exact getOp_plain op rest high

theorem parseLoop_built (items : List ScriptItem) (rounds : Nat) (enough : items.length < rounds)
    (plain : ∀ item ∈ items, item.Plain) (left : LeftOver items) :
    parseLoop rounds (items.flatMap ScriptItem.bytes) =
      .ok (some (items.map ScriptItem.parsed, [])) := by
  induction items generalizing rounds with
  | nil =>
      cases rounds with
      | zero => cases enough
      | succ rounds => rfl
  | cons item items ih =>
      cases rounds with
      | zero => cases enough
      | succ rounds =>
          rw [List.length_cons] at enough
          have whole := plain item List.mem_cons_self
          have fits : item.parsed.2.length ≤
              (item.parsed.2.length + (items.flatMap ScriptItem.bytes).length) % 2 ^ 32 := by
            cases item with
            | opcode op => exact Nat.zero_le _
            | data b => exact left.1
          have later : LeftOver items := by
            cases item with
            | opcode op => exact left
            | data b => exact left.2
          have first := getOp2_getOp _ _ (item_parsed item (items.flatMap ScriptItem.bytes) whole) fits
          have rest := ih rounds (by omega)
            (fun other member => plain other (List.mem_cons_of_mem _ member)) later
          rw [List.flatMap_cons, parseLoop, first]
          show (do
            let rest ← parseLoop rounds (items.flatMap ScriptItem.bytes)
            return rest.map fun (read : List (UInt8 × Bytes) × CScript) =>
              ((item.parsed.1, item.parsed.2) :: read.1, read.2)) = _
          rw [rest]
          rfl

theorem built_length (items : List ScriptItem) : items.length ≤ (build items).length := by
  rw [build_flatMap]
  induction items with
  | nil => exact Nat.le_refl _
  | cons item items ih =>
      have some : 1 ≤ item.bytes.length := by
        cases item with
        | opcode op => exact Nat.le_refl _
        | data b =>
            have more := (pushData_length b).1
            exact Nat.lt_of_le_of_lt (Nat.zero_le _) more
      rw [List.flatMap_cons, List.length_append, List.length_cons]
      omega

/-- In a script of fewer than 2^32 bytes nothing is cut. -/
theorem leftOver_short (items : List ScriptItem) (short : (build items).length < 2 ^ 32) :
    LeftOver items := by
  rw [build_flatMap] at short
  induction items with
  | nil => trivial
  | cons item items ih =>
      rw [List.flatMap_cons, List.length_append] at short
      have later := ih (by omega)
      cases item with
      | opcode op => exact later
      | data b =>
          have longer : b.length < (ScriptItem.bytes (.data b)).length := (pushData_length b).1
          refine ⟨?_, later⟩
          rw [Nat.mod_eq_of_lt (by omega)]
          exact Nat.le_add_right _ _

/-- Items without bare push opcodes come back from the script that was built of them, to its end; and
in any script `GetOp` stays inside and moves on, so the loop ends. -/
theorem scripts_build_and_parse :
    (∀ items : List ScriptItem, (∀ item ∈ items, item.Plain) → LeftOver items →
      parse (build items) = .ok (some (items.map ScriptItem.parsed, []))) ∧
      ∀ script : CScript, (∃ read, parse script = .ok (some read)) ∧
        ∃ result, getOp2 script = .ok result ∧
          (∃ used, script = used ++ result.pc ∧ (script ≠ [] → used ≠ [])) ∧
          (result.fRet = true → result.pc.length < script.length) := by
  constructor
  · intro items plain left
    have enough := built_length items
    rw [parse]
    generalize (build items).length = size at *
    rw [build_flatMap]
    exact parseLoop_built items (size + 1) (by omega) plain left
  · intro script
    exact ⟨parseLoop_ends _ script (Nat.lt_succ_self _), getOp2_advances script⟩

/-- `OP_RETURN`, data of no, one and eighty bytes, `OP_0`. -/
def sampleItems : List ScriptItem :=
  [.opcode opReturn, .data [], .data [7], .data (List.replicate 80 9), .opcode op0]

theorem scripts_build_and_parse_sample :
    (∀ item ∈ sampleItems, item.Plain) ∧ LeftOver sampleItems ∧
      parse (build sampleItems) = .ok (some (sampleItems.map ScriptItem.parsed, [])) := by
  have plain : ∀ item ∈ sampleItems, item.Plain := by decide
  have left := leftOver_short sampleItems (by decide)
  exact ⟨plain, left, scripts_build_and_parse.1 sampleItems plain left⟩

/-- With exactly 2^32 bytes left, none seem to be left. -/
theorem cut_count_refuses (b : Bytes) (size : b.length = 2 ^ 32 - 6) :
    parse (build [.data [7], .data b]) = .ok (some ([], 7 :: pushData b)) := by
  have long : (pushData b).length = 2 ^ 32 - 1 := by
    rw [pushData, if_neg (by omega), if_neg (by omega), if_neg (by omega), List.length_cons,
      List.length_append, writeLE_length]
    omega
  have script : build [.data [7], .data b] = 1 :: 7 :: pushData b := by
    rw [build_flatMap]
    simp only [List.flatMap_cons, List.flatMap_nil, List.append_nil, ScriptItem.bytes]
    rfl
  have operand : getOperand 1 1 (7 :: pushData b) = .ok (refused (7 :: pushData b)) := by
    rw [getOperand, if_pos]
    rw [List.length_cons, long]
    decide
  have one : getOp2 (1 :: 7 :: pushData b) = getOperand 1 1 (7 :: pushData b) := by
    rw [getOp2, if_pos (by decide), getPush, pushSize, if_pos (by decide)]
    rfl
  rw [script, parse, parseLoop, one, operand]
  rfl

/-- A bare push opcode takes what follows for its data, here more than there is; and of two pushes in
a script of 2^32 + 1 bytes not even the first is read. -/
theorem not_parsed_back :
    (parse (build [.opcode opPushdata1]) = .ok (some ([], [])) ∧
        [ScriptItem.opcode opPushdata1].map ScriptItem.parsed ≠ []) ∧
      ∃ b : Bytes, b.length = 2 ^ 32 - 6 ∧
        parse (build [.data [7], .data b]) = .ok (some ([], 7 :: pushData b)) := by
  refine ⟨⟨by decide, by decide⟩, List.replicate (2 ^ 32 - 6) 0, List.length_replicate, ?_⟩
  exact cut_count_refuses _ List.length_replicate

end RoiCoin
