import RoiCoin.Script.Script
import Mathlib.Data.List.Basic

/-! Editing scripts at operation boundaries (`CScript::FindAndDelete` in `script/script.h`).

A position in a script is the list of bytes from it to the end. -/

namespace RoiCoin

abbrev opCodeseparator : UInt8 := 0xab

/-- Where `GetOp2` leaves its position when it fails: past the opcode and the bytes of the length
it could read. -/
def stopsAt : CScript → CScript
  | [] => []
  | opcode :: pc =>
      if opcode ≤ opPushdata4 ∧ ¬ opcode < opPushdata1 ∧ ¬ pc.length < lengthWidth opcode then
        pc.drop (lengthWidth opcode)
      else pc

/-- The inner loop of `FindAndDelete`: erases every copy of `b` in front. -/
def eraseCopies (b : Bytes) : Nat → CScript → Nat × CScript
  | 0, pc => (0, pc)
  | fuel + 1, pc =>
      if b.isPrefixOf pc then
        let (nFound, rest) := eraseCopies b fuel (pc.drop b.length)
        (nFound + 1, rest)
      else (0, pc)

/-- The bytes of one operation. -/
def opBytes (pc : CScript) (op : ScriptOp) : Bytes := pc.take (pc.length - op.rest.length)

def findAndDeleteLoop (b : Bytes) : Nat → CScript → Nat × CScript
  | 0, pc => eraseCopies b pc.length pc
  | fuel + 1, pc =>
      let (nFound, pc) := eraseCopies b pc.length pc
      match getOp pc with
      | none => (nFound, pc)
      | some op =>
          let (more, rest) := findAndDeleteLoop b fuel op.rest
          (nFound + more, opBytes pc op ++ rest)

/-- The number of copies found and the script without them. -/
def findAndDelete (script : CScript) (b : Bytes) : Nat × CScript :=
  if b = [] then (0, script) else findAndDeleteLoop b script.length script

/-! ## Operations -/

/-- Every script stops parsing or has a first operation and the script after it. -/
theorem script_induction (P : CScript → Prop) (stops : ∀ pc, getOp pc = none → P pc)
    (steps : ∀ pc op, getOp pc = some op → P op.rest → P pc) (pc : CScript) : P pc := by
  generalize length : pc.length = n
  induction n using Nat.strong_induction_on generalizing pc with
  | _ n ih =>
      cases parsed : getOp pc with
      | none => exact stops pc parsed
      | some op =>
          have shorter := getOp_consumes pc op parsed
          exact steps pc op parsed (ih op.rest.length (by omega) op.rest rfl)

theorem takePush_suffix (opcode : UInt8) (nSize : Nat) (pc : CScript) (op : ScriptOp)
    (parsed : takePush opcode nSize pc = some op) : op.rest <:+ pc ∧ op.opcode = opcode := by
  obtain ⟨-, rfl⟩ := (takePush_some opcode nSize pc op).mp parsed
  exact ⟨List.drop_suffix _ _, rfl⟩

/-- An operation starts with its opcode and ends before the rest of the script; a plain opcode is
all of its operation. -/
theorem getOp_shape (opcode : UInt8) (pc : CScript) (op : ScriptOp)
    (parsed : getOp (opcode :: pc) = some op) :
    op.rest <:+ pc ∧ op.opcode = opcode ∧ (opPushdata4 < opcode → op.rest = pc) := by
  by_cases push : opcode ≤ opPushdata4
  · have not_plain : ¬ opPushdata4 < opcode := by rwa [UInt8.not_lt]
    by_cases direct : opcode < opPushdata1
    · rw [getOp_direct opcode pc direct] at parsed
      obtain ⟨suffix, same⟩ := takePush_suffix _ _ _ _ parsed
      exact ⟨suffix, same, fun plain => absurd plain not_plain⟩
    · by_cases enough : lengthWidth opcode ≤ pc.length
      · rw [getOp_length opcode pc push direct enough] at parsed
        obtain ⟨suffix, same⟩ := takePush_suffix _ _ _ _ parsed
        exact ⟨suffix.trans (List.drop_suffix _ _), same, fun plain => absurd plain not_plain⟩
      · rw [getOp, if_pos push, if_neg direct, if_pos (by omega)] at parsed
        cases parsed
  · rw [getOp_plain opcode pc (by rwa [UInt8.not_le] at push)] at parsed
    cases parsed
    exact ⟨List.suffix_rfl, rfl, fun _ => rfl⟩

theorem opBytes_append (pc : CScript) (op : ScriptOp) (parsed : getOp pc = some op) :
    opBytes pc op ++ op.rest = pc := by
  cases pc with
  | nil => cases parsed
  | cons opcode pc =>
      have suffix := (getOp_shape opcode pc op parsed).1.trans (List.suffix_cons opcode pc)
      obtain ⟨front, whole⟩ := suffix
      rw [opBytes, ← whole, List.length_append, Nat.add_sub_cancel, List.take_left]

theorem opBytes_separator (pc : CScript) (op : ScriptOp) (parsed : getOp pc = some op) :
    opBytes pc op = [opCodeseparator] ↔ op.opcode = opCodeseparator := by
  have whole := opBytes_append pc op parsed
  cases pc with
  | nil => cases parsed
  | cons opcode pc =>
      obtain ⟨-, same, plain⟩ := getOp_shape opcode pc op parsed
      constructor
      · intro alone
        rw [alone, List.singleton_append] at whole
        rw [same]
        exact (List.cons.inj whole).1.symm
      · intro separator
        rw [separator] at same
        have rest := plain (by rw [← same]; decide)
        rw [rest, ← List.singleton_append (x := opcode)] at whole
        rw [same]
        exact List.append_cancel_right whole

/-- The operations of a script and the end that does not parse. -/
def operations (pc : CScript) : List Bytes × CScript :=
  match _parsed : getOp pc with
  | none => ([], pc)
  | some op => (opBytes pc op :: (operations op.rest).1, (operations op.rest).2)
termination_by pc.length
decreasing_by all_goals exact getOp_consumes pc op _parsed

theorem operations_none (pc : CScript) (failed : getOp pc = none) : operations pc = ([], pc) := by
  rw [operations]
  split
  · rfl
  · rename_i parsed
    rw [failed] at parsed
    cases parsed

theorem operations_some (pc : CScript) (op : ScriptOp) (parsed : getOp pc = some op) :
    operations pc = (opBytes pc op :: (operations op.rest).1, (operations op.rest).2) := by
  rw [operations]
  split
  · rename_i failed
    rw [failed] at parsed
    cases parsed
  · rename_i op' parsed'
    rw [parsed'] at parsed
    cases parsed
    rfl

/-! ## Separators -/

def separators (pc : CScript) : Nat := (operations pc).1.count [opCodeseparator]

/-- The operations of a script but the separators, and the end that does not parse. -/
def withoutSeparators (pc : CScript) : CScript :=
  ((operations pc).1.filter (· != [opCodeseparator])).flatten ++ (operations pc).2

/-- The bytes that no reading of the script reaches. -/
def unread (pc : CScript) : CScript := stopsAt (operations pc).2

section Step

variable (pc : CScript) (op : ScriptOp) (parsed : getOp pc = some op)

include parsed

theorem separators_some :
    separators pc = separators op.rest + if op.opcode = opCodeseparator then 1 else 0 := by
  rw [separators, separators, operations_some pc op parsed, List.count_cons]
  simp only [beq_iff_eq, opBytes_separator pc op parsed]

theorem withoutSeparators_some :
    withoutSeparators pc = (if op.opcode = opCodeseparator then [] else opBytes pc op) ++
      withoutSeparators op.rest := by
  rw [withoutSeparators, withoutSeparators, operations_some pc op parsed]
  by_cases separator : op.opcode = opCodeseparator
  · rw [List.filter_cons_of_neg (by simp [(opBytes_separator pc op parsed).mpr separator]),
      if_pos separator, List.nil_append]
  · rw [List.filter_cons_of_pos (by simp [opBytes_separator pc op parsed, separator]),
      if_neg separator, List.flatten_cons, List.append_assoc]

theorem unread_some : unread pc = unread op.rest := by
  rw [unread, unread, operations_some pc op parsed]

end Step

theorem withoutSeparators_none (pc : CScript) (failed : getOp pc = none) :
    withoutSeparators pc = pc := by
  rw [withoutSeparators, operations_none pc failed]
  rfl

theorem withoutSeparators_length (pc : CScript) :
    (withoutSeparators pc).length + separators pc = pc.length := by
  induction pc using script_induction with
  | stops pc failed =>
      rw [withoutSeparators_none pc failed, separators, operations_none pc failed]
      rfl
  | steps pc op parsed ih =>
      have whole := congrArg List.length (opBytes_append pc op parsed)
      rw [List.length_append] at whole
      rw [withoutSeparators_some pc op parsed, separators_some pc op parsed, List.length_append]
      split
      · rename_i separator
        rw [(opBytes_separator pc op parsed).mpr separator] at whole
        simp only [List.length_singleton, List.length_nil] at whole ⊢
        omega
      · omega

/-! ## What `FindAndDelete` does to them -/

theorem eraseCopies_separator (fuel : Nat) (pc : CScript) (enough : pc.length ≤ fuel) :
    withoutSeparators (eraseCopies [opCodeseparator] fuel pc).2 = withoutSeparators pc ∧
      (eraseCopies [opCodeseparator] fuel pc).2.length ≤ pc.length ∧
      (eraseCopies [opCodeseparator] fuel pc).2.head? ≠ some opCodeseparator := by
  induction fuel generalizing pc with
  | zero =>
      have empty : pc = [] := List.eq_nil_of_length_eq_zero (by omega)
      rw [empty]
      exact ⟨rfl, Nat.le_refl _, by simp [eraseCopies]⟩
  | succ fuel ih =>
      cases pc with
      | nil => exact ⟨rfl, Nat.le_refl _, by simp [eraseCopies]⟩
      | cons opcode pc =>
          by_cases separator : opcode = opCodeseparator
          · subst separator
            have front : eraseCopies [opCodeseparator] (fuel + 1) (opCodeseparator :: pc) =
                ((eraseCopies [opCodeseparator] fuel pc).1 + 1,
                  (eraseCopies [opCodeseparator] fuel pc).2) := by
              simp [eraseCopies]
            have parsed := getOp_plain opCodeseparator pc (by decide)
            rw [List.length_cons] at enough
            obtain ⟨same, shorter, first⟩ := ih pc (by omega)
            rw [front, withoutSeparators_some _ _ parsed, if_pos rfl, List.nil_append]
            exact ⟨same, Nat.le_succ_of_le shorter, first⟩
          · have stays : eraseCopies [opCodeseparator] (fuel + 1) (opcode :: pc) =
                (0, opcode :: pc) := by
              simp [eraseCopies, List.isPrefixOf, Ne.symm separator]
            rw [stays]
            exact ⟨rfl, Nat.le_refl _, by simpa using separator⟩

theorem findAndDeleteLoop_separator (fuel : Nat) (pc : CScript) (enough : pc.length ≤ fuel) :
    (findAndDeleteLoop [opCodeseparator] fuel pc).2 = withoutSeparators pc := by
  induction fuel generalizing pc with
  | zero =>
      have empty : pc = [] := List.eq_nil_of_length_eq_zero (by omega)
      rw [empty, withoutSeparators_none [] rfl]
      rfl
  | succ fuel ih =>
      obtain ⟨same, shorter, first⟩ := eraseCopies_separator pc.length pc (Nat.le_refl _)
      rw [findAndDeleteLoop, ← same]
      generalize eraseCopies [opCodeseparator] pc.length pc = erased at *
      obtain ⟨nFound, left⟩ := erased
      dsimp only at shorter first ⊢
      cases parsed : getOp left with
      | none => exact (withoutSeparators_none left parsed).symm
      | some op =>
          have shorter' := getOp_consumes left op parsed
          have not_separator : op.opcode ≠ opCodeseparator := by
            intro separator
            cases left with
            | nil => cases parsed
            | cons opcode left =>
                rw [(getOp_shape opcode left op parsed).2.1] at separator
                exact first (by rw [List.head?_cons, separator])
          rw [withoutSeparators_some left op parsed, if_neg not_separator]
          dsimp only
          rw [ih op.rest (by omega)]

/-- `FindAndDelete` of the separator removes the separators among the operations and no others. -/
theorem findAndDelete_separator (script : CScript) :
    (findAndDelete script [opCodeseparator]).2 = withoutSeparators script := by
  rw [findAndDelete, if_neg (List.cons_ne_nil _ _)]
  exact findAndDeleteLoop_separator script.length script (Nat.le_refl _)

end RoiCoin
