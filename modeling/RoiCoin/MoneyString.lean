import RoiCoin.Amount
import RoiCoin.CString
import RoiCoin.Lib.Checked
import RoiCoin.Lib.RadixConversion

/-! Amounts as text (`utilmoneystr.cpp`), and what formatting and parsing them give for every
input. -/

namespace RoiCoin

open Checked RadixConversion

/-- How the conversions can fail other than by returning false. -/
inductive MoneyFault where
  | signedOverflow
  | outOfBounds
  deriving DecidableEq, Repr

abbrev Moneying := Except MoneyFault

/-- The result of an operation on `int64_t`. -/
def int64 (n : Int) : Moneying Int :=
  if -2 ^ 63 ≤ n ∧ n < 2 ^ 63 then .ok n else .error .signedOverflow

def point : UInt8 := charByte '.'

def digitChar (digit : Nat) : UInt8 := UInt8.ofNat (0x30 + digit)

def digitOf (c : UInt8) : Nat := c.toNat - 0x30

/-! ## Formatting -/

/-- A number that is not negative, with leading zeros up to the width; `%d` has width one. -/
def printDecimal (width n : Nat) : Bytes :=
  (compose 10 (width - (Nat.digits 10 n).length) n).map digitChar

/-- The loop that counts excess zeros, on the string read from its end. -/
def trimLoop : Bytes → Moneying Nat
  | [] => .error .outOfBounds
  | c :: rest =>
      if c = charByte '0' then
        match rest[1]? with
        | none => .error .outOfBounds
        | some before =>
            if isDigit before then (trimLoop rest).map (· + 1) else .ok 0
      else .ok 0

/-- `n > 0 ? n : -n` -/
def absMoney (n : Int) : Moneying Int := if n > 0 then .ok n else int64 (-n)

def formatMoney (n : Int) (fPlus : Bool) : Moneying Bytes := do
  let nAbs ← absMoney n
  let quotient := nAbs.tdiv coin
  let remainder := nAbs.tmod coin
  let str := printDecimal 1 quotient.toNat ++ [point] ++ printDecimal 8 remainder.toNat
  let nTrim ← trimLoop str.reverse
  let str := str.take (str.length - nTrim)
  return if n < 0 then charByte '-' :: str else if fPlus ∧ n > 0 then charByte '+' :: str else str

/-! ## Parsing -/

/-- The digits after the point. -/
def fractionLoop : Bytes → Int → Int → Moneying (Int × Bytes)
  | [], _, nUnits => .ok (nUnits, [])
  | c :: p, nMult, nUnits =>
      if isDigit c ∧ nMult > 0 then do
        let more ← int64 (nMult * digitOf c)
        let nUnits ← int64 (nUnits + more)
        fractionLoop p (nMult.tdiv 10) nUnits
      else .ok (nUnits, c :: p)

/-- The loop over the characters: `strWhole`, `nUnits` and the rest, or `none` where it returns
false. -/
def wholeLoop : Bytes → Bytes → Moneying (Option (Bytes × Int × Bytes))
  | [], strWhole => .ok (some (strWhole, 0, []))
  | c :: p, strWhole =>
      if c = point then do
        let (nUnits, p) ← fractionLoop p 10000000 0
        return some (strWhole, nUnits, p)
      else if isSpace c then .ok (some (strWhole, 0, c :: p))
      else if !isDigit c then .ok none
      else wholeLoop p (strWhole ++ [c])

/-- `atoi64` of a string of digits. -/
def atoi64 (digits : Bytes) : Int := min (value 10 (digits.map digitOf) : Int) (2 ^ 63 - 1)

/-- What `ParseMoney` does after its first loop. -/
def finishMoney (strWhole : Bytes) (nUnits : Int) (p : Bytes) : Moneying (Option Int) :=
  if !p.all isSpace then .ok none
  else if strWhole.length > 10 then .ok none
  else if nUnits < 0 ∨ nUnits > coin then .ok none
  else do
    let nWhole := atoi64 strWhole
    let scaled ← int64 (nWhole * coin)
    let nValue ← int64 (scaled + nUnits)
    return some nValue

/-- `ParseMoney(const char*, ..)` -/
def parseMoneyPsz (pszIn : Bytes) : Moneying (Option Int) := do
  let read ← wholeLoop (pszIn.dropWhile isSpace) []
  match read with
  | none => return none
  | some (strWhole, nUnits, p) => finishMoney strWhole nUnits p

/-- `ParseMoney(const string&, ..)`, which passes `c_str()` on. -/
def parseMoney (str : Bytes) : Moneying (Option Int) := parseMoneyPsz (cStr str)

/-! ## Digits -/

theorem isDigit_iff (c : UInt8) : isDigit c = true ↔ 0x30 ≤ c.toNat ∧ c.toNat ≤ 0x39 := by
  rw [isDigit, Bool.and_eq_true, decide_eq_true_eq, decide_eq_true_eq, UInt8.le_iff_toNat_le,
    UInt8.le_iff_toNat_le]
  rfl

theorem digitOf_lt (c : UInt8) (digit : isDigit c = true) : digitOf c < 10 := by
  rw [isDigit_iff] at digit
  rw [digitOf]
  omega

theorem digitChar_toNat (digit : Nat) (small : digit < 10) :
    (digitChar digit).toNat = 0x30 + digit := by
  rw [digitChar, UInt8.toNat_ofNat']
  omega

theorem digitOf_digitChar (digit : Nat) (small : digit < 10) :
    digitOf (digitChar digit) = digit := by
  rw [digitOf, digitChar_toNat digit small]
  omega

theorem isDigit_digitChar (digit : Nat) (small : digit < 10) :
    isDigit (digitChar digit) = true := by
  rw [isDigit_iff, digitChar_toNat digit small]
  omega

theorem isSpace_iff (c : UInt8) :
    isSpace c = true ↔ c.toNat = 0x20 ∨ 0x09 ≤ c.toNat ∧ c.toNat ≤ 0x0d := by
  rw [isSpace, Bool.or_eq_true, Bool.and_eq_true, beq_iff_eq, decide_eq_true_eq,
    decide_eq_true_eq, UInt8.le_iff_toNat_le, UInt8.le_iff_toNat_le, ← UInt8.toNat_inj]
  rfl

theorem digit_other (c : UInt8) (digit : isDigit c = true) :
    isSpace c = false ∧ c ≠ point ∧ c ≠ 0 := by
  rw [isDigit_iff] at digit
  refine ⟨?_, ?_, ?_⟩
  · by_contra space
    rw [Bool.not_eq_false, isSpace_iff] at space
    omega
  · intro same
    have code : point.toNat = 0x2e := rfl
    rw [same] at digit
    omega
  · intro same
    rw [same] at digit
    exact absurd digit.1 (by decide)

/-- The number that a string of digits stands for. -/
def decimalValue (digits : Bytes) : Nat := value 10 (digits.map digitOf)

theorem decimalValue_lt (digits : Bytes) (all : ∀ c ∈ digits, isDigit c = true) :
    decimalValue digits < 10 ^ digits.length := by
  have bound := value_lt 10 (digits.map digitOf) (by decide) (by
    intro digit member
    obtain ⟨c, inside, same⟩ := List.mem_map.mp member
    rw [← same]
    exact digitOf_lt c (all c inside))
  rwa [List.length_map] at bound

theorem decimalValue_cons (c : UInt8) (digits : Bytes) :
    decimalValue (c :: digits) = decimalValue digits + 10 ^ digits.length * digitOf c := by
  rw [decimalValue, List.map_cons, value_cons, List.length_map]
  rfl

/-! ## Parsing -/

theorem int64_ok (n : Int) (least : -2 ^ 63 ≤ n) (most : n < 2 ^ 63) : int64 n = .ok n :=
  if_pos ⟨least, most⟩

/-- The weight of the next digit after the point, with so many places left. -/
def placeValue : Nat → Int
  | 0 => 0
  | left + 1 => 10 ^ left

theorem placeValue_succ (left : Nat) : placeValue (left + 1) = 10 ^ left := rfl

theorem placeValue_next (left : Nat) : (placeValue (left + 1)).tdiv 10 = placeValue left := by
  cases left with
  | zero => rfl
  | succ left =>
      rw [placeValue_succ, placeValue_succ, pow_succ]
      exact Int.mul_tdiv_cancel _ (by decide)

theorem fractionLoop_step (c : UInt8) (p : Bytes) (nMult nUnits more sum : Int)
    (digit : isDigit c = true) (positive : nMult > 0)
    (scaled : int64 (nMult * digitOf c) = .ok more) (added : int64 (nUnits + more) = .ok sum) :
    fractionLoop (c :: p) nMult nUnits = fractionLoop p (nMult.tdiv 10) sum := by
  rw [fractionLoop, if_pos ⟨digit, positive⟩, scaled]
  simp only [bind, Except.bind, added]

/-- The loop after the point takes the digits for which there are places. -/
theorem fractionLoop_ok (p : Bytes) (left : Nat) (nUnits : Int) (nonneg : 0 ≤ nUnits)
    (room : nUnits + 10 ^ left ≤ coin) :
    fractionLoop p (placeValue left) nUnits =
      .ok (nUnits + decimalValue ((p.takeWhile isDigit).take left) *
          10 ^ (left - ((p.takeWhile isDigit).take left).length),
        p.drop ((p.takeWhile isDigit).take left).length) := by
  induction p generalizing left nUnits with
  | nil => simp [fractionLoop, decimalValue]
  | cons c p ih =>
      by_cases digit : isDigit c = true
      · rw [List.takeWhile_cons_of_pos digit]
        cases left with
        | zero => simp [fractionLoop, placeValue, decimalValue]
        | succ left =>
            have small := digitOf_lt c digit
            have limit : coin = 100000000 := rfl
            have weight : (0 : Int) < 10 ^ left := by positivity
            have most : (10 : Int) ^ left * digitOf c ≤ 10 ^ left * 9 := by
              apply mul_le_mul_of_nonneg_left _ weight.le
              omega
            have least : (0 : Int) ≤ 10 ^ left * digitOf c := by positivity
            have split : (10 : Int) ^ (left + 1) = 10 ^ left * 10 := pow_succ 10 left
            have positive : placeValue (left + 1) > 0 := by
              rw [placeValue_succ]
              exact weight
            have scaled : int64 (placeValue (left + 1) * digitOf c) =
                .ok (10 ^ left * digitOf c) := by
              rw [placeValue_succ]
              exact int64_ok _ (by omega) (by omega)
            have added : int64 (nUnits + 10 ^ left * digitOf c) =
                .ok (nUnits + 10 ^ left * digitOf c) := int64_ok _ (by omega) (by omega)
            have later := ih left (nUnits + 10 ^ left * digitOf c) (by omega) (by omega)
            obtain ⟨taken, same⟩ : ∃ taken, taken = (p.takeWhile isDigit).take left := ⟨_, rfl⟩
            have inside : taken.length ≤ left := same ▸ List.length_take_le left _
            have places : (10 : Int) ^ left = 10 ^ taken.length * 10 ^ (left - taken.length) := by
              rw [← pow_add, Nat.add_sub_cancel' inside]
            have total : nUnits + 10 ^ left * digitOf c +
                  decimalValue taken * 10 ^ (left - taken.length) =
                nUnits + ((decimalValue taken + 10 ^ taken.length * digitOf c : Nat) : Int) *
                  10 ^ (left - taken.length) := by
              rw [places]
              push_cast
              ring
            rw [fractionLoop_step c p _ nUnits _ _ digit positive scaled added, placeValue_next,
              later, List.take_succ_cons, List.length_cons, List.drop_succ_cons,
              decimalValue_cons, Nat.add_sub_add_right, ← same, total]
      · rw [List.takeWhile_cons_of_neg digit]
        simp [fractionLoop, digit, decimalValue]

/-- The first loop collects the digits before anything else. -/
theorem wholeLoop_digits (body strWhole : Bytes) :
    wholeLoop body strWhole =
      wholeLoop (body.dropWhile isDigit) (strWhole ++ body.takeWhile isDigit) := by
  induction body generalizing strWhole with
  | nil => simp
  | cons c body ih =>
      by_cases digit : isDigit c = true
      · obtain ⟨visible, other, _⟩ := digit_other c digit
        rw [wholeLoop, if_neg other, visible, List.dropWhile_cons_of_pos digit,
          List.takeWhile_cons_of_pos digit]
        simp only [digit, Bool.false_eq_true, Bool.not_true, if_false]
        rw [ih, List.append_assoc, List.singleton_append]
      · rw [List.dropWhile_cons_of_neg digit, List.takeWhile_cons_of_neg digit, List.append_nil]

/-- The checks after the loops; the value fits. -/
theorem finishMoney_ok (strWhole : Bytes) (nUnits : Int) (p : Bytes)
    (digits : ∀ c ∈ strWhole, isDigit c = true) (nonneg : 0 ≤ nUnits) (small : nUnits < coin) :
    finishMoney strWhole nUnits p =
      .ok (if p.all isSpace && decide (strWhole.length ≤ 10) then
          some (decimalValue strWhole * coin + nUnits)
        else none) := by
  rw [finishMoney]
  by_cases spaces : p.all isSpace = true
  · by_cases long : strWhole.length > 10
    · have refused : decide (strWhole.length ≤ 10) = false := by simpa using long
      simp [spaces, long]
    · have short : strWhole.length ≤ 10 := Nat.le_of_not_lt long
      have limit : coin = 100000000 := rfl
      have bound : decimalValue strWhole < 10 ^ 10 :=
        Nat.lt_of_lt_of_le (decimalValue_lt strWhole digits)
          (Nat.pow_le_pow_right (by decide) short)
      have read : atoi64 strWhole = decimalValue strWhole := by
        rw [atoi64, ← decimalValue]
        omega
      have product : (decimalValue strWhole : Int) * coin = decimalValue strWhole * 100000000 := by
        rw [limit]
      have scaled : int64 (decimalValue strWhole * coin) = .ok (decimalValue strWhole * coin) :=
        int64_ok _ (by omega) (by omega)
      have added : int64 (decimalValue strWhole * coin + nUnits) =
          .ok (decimalValue strWhole * coin + nUnits) := int64_ok _ (by omega) (by omega)
      have inside : ¬ (nUnits < 0 ∨ nUnits > coin) := by omega
      rw [if_neg (by simp [spaces]), if_neg long, if_neg inside]
      simp only [read, scaled, bind, Except.bind, added, spaces, short, decide_true, Bool.and_true,
        if_true]
      rfl
  · simp [spaces]

/-- The digits before the point. -/
def wholeDigits (psz : Bytes) : Bytes := (psz.dropWhile isSpace).takeWhile isDigit

/-- The digits after the point, and what follows them. -/
def splitFraction : Bytes → Bytes × Bytes
  | [] => ([], [])
  | c :: p => if c = point then (p.takeWhile isDigit, p.dropWhile isDigit) else ([], c :: p)

def fractionOf (psz : Bytes) : Bytes × Bytes :=
  splitFraction ((psz.dropWhile isSpace).dropWhile isDigit)

/-- Spaces, at most ten digits, possibly a point and at most eight digits, spaces. -/
def isMoney (psz : Bytes) : Bool :=
  (fractionOf psz).2.all isSpace && decide ((fractionOf psz).1.length ≤ 8) &&
    decide ((wholeDigits psz).length ≤ 10)

def moneyValue (psz : Bytes) : Int :=
  decimalValue (wholeDigits psz) * coin +
    decimalValue (fractionOf psz).1 * 10 ^ (8 - (fractionOf psz).1.length)

theorem takeWhile_digits (p : Bytes) : ∀ c ∈ p.takeWhile isDigit, isDigit c = true :=
  fun _ member => List.mem_takeWhile_imp member

/-- A fraction stands for less than one coin. -/
theorem fraction_small (digits : Bytes) (all : ∀ c ∈ digits, isDigit c = true)
    (short : digits.length ≤ 8) :
    (decimalValue digits : Int) * 10 ^ (8 - digits.length) < coin := by
  have bound := decimalValue_lt digits all
  have whole : coin = 10 ^ digits.length * 10 ^ (8 - digits.length) := by
    rw [← pow_add, Nat.add_sub_cancel' short]
    rfl
  rw [whole]
  apply mul_lt_mul_of_pos_right _ (by positivity)
  exact_mod_cast bound

theorem drop_takeWhile (p : Bytes) :
    p.drop (p.takeWhile isDigit).length = p.dropWhile isDigit := by
  have split := congrArg (List.drop (p.takeWhile isDigit).length)
    (List.takeWhile_append_dropWhile (p := isDigit) (l := p))
  rwa [List.drop_left, eq_comm] at split

/-- After the eighth digit of a longer fraction there is no space. -/
theorem long_fraction (p : Bytes) (long : 8 < (p.takeWhile isDigit).length) :
    (p.drop 8).all isSpace = false := by
  have some : (p.takeWhile isDigit).drop 8 ≠ [] := by
    rw [ne_eq, List.drop_eq_nil_iff]
    omega
  obtain ⟨c, member⟩ := List.exists_mem_of_ne_nil _ some
  have inside : c ∈ p.drop 8 := ((List.takeWhile_prefix isDigit).drop 8).subset member
  have digit := takeWhile_digits p c (List.mem_of_mem_drop member)
  rw [List.all_eq_false]
  exact ⟨c, inside, by simp [(digit_other c digit).1]⟩

theorem parse_ok (psz : Bytes) :
    parseMoneyPsz psz = .ok (if isMoney psz then some (moneyValue psz) else none) := by
  have digits := takeWhile_digits (psz.dropWhile isSpace)
  have one : (0 : Int) < coin := by decide
  rw [parseMoneyPsz, wholeLoop_digits, List.nil_append, isMoney, moneyValue, fractionOf,
    ← wholeDigits]
  rw [← wholeDigits] at digits
  cases after : (psz.dropWhile isSpace).dropWhile isDigit with
  | nil =>
      have finished := finishMoney_ok (wholeDigits psz) 0 [] digits (Int.le_refl 0) one
      simp only [wholeLoop, bind, Except.bind, finished, splitFraction]
      simp [decimalValue]
  | cons c p =>
      by_cases dot : c = point
      · have places : placeValue 8 = 10000000 := by norm_num [placeValue]
        have fraction := fractionLoop_ok p 8 0 (Int.le_refl 0) (by decide)
        rw [places, Int.zero_add] at fraction
        rw [wholeLoop, if_pos dot, splitFraction, if_pos dot]
        by_cases short : (p.takeWhile isDigit).length ≤ 8
        · rw [List.take_of_length_le short, drop_takeWhile] at fraction
          have small := fraction_small _ (takeWhile_digits p) short
          have finished := finishMoney_ok (wholeDigits psz) _ (p.dropWhile isDigit) digits
            (by positivity) small
          simp only [fraction, bind, Except.bind]
          refine finished.trans ?_
          simp [short]
        · have long := Nat.lt_of_not_le short
          have eight : ((p.takeWhile isDigit).take 8).length = 8 :=
            List.length_take_of_le (Nat.le_of_lt long)
          have all : ∀ c ∈ (p.takeWhile isDigit).take 8, isDigit c = true :=
            fun c member => takeWhile_digits p c (List.mem_of_mem_take member)
          have small := fraction_small _ all (Nat.le_of_eq eight)
          have finished := finishMoney_ok (wholeDigits psz) _
            (p.drop ((p.takeWhile isDigit).take 8).length) digits (by positivity) small
          simp only [fraction, bind, Except.bind]
          refine finished.trans ?_
          rw [eight, long_fraction p long]
          simp [long]
      · have other : ¬ isDigit c = true := by
          have stops := List.head?_dropWhile_not isDigit (psz.dropWhile isSpace)
          simpa [after] using stops
        rw [wholeLoop, if_neg dot, splitFraction, if_neg dot]
        by_cases space : isSpace c = true
        · have finished :=
            finishMoney_ok (wholeDigits psz) 0 (c :: p) digits (Int.le_refl 0) one
          simp only [if_pos space, bind, Except.bind]
          refine finished.trans ?_
          simp [decimalValue]
        · simp only [space, other, bind, Except.bind]
          simp [space]

/-! ## The value of a string -/

/-- The string is a decimal number between spaces that is worth exactly so many base units. -/
def WorthExactly (str : Bytes) (nValue : Int) : Prop :=
  ∃ before whole dot fraction after : Bytes,
    str = before ++ (whole ++ (dot ++ (fraction ++ after))) ∧
    (∀ c ∈ before ++ after, isSpace c = true) ∧ (∀ c ∈ whole ++ fraction, isDigit c = true) ∧
    whole ++ fraction ≠ [] ∧ (dot = [point] ∨ dot = [] ∧ fraction = []) ∧ fraction.length ≤ 8 ∧
    nValue * 10 ^ fraction.length =
      (decimalValue whole * 10 ^ fraction.length + decimalValue fraction) * coin

theorem worth_plain (str : Bytes) (nValue : Int) (worth : WorthExactly str nValue) :
    0 ∉ str ∧ ∃ c ∈ str, isDigit c = true := by
  obtain ⟨before, whole, dot, fraction, after, split, spaces, digits, some, dots, _⟩ := worth
  constructor
  · intro zero
    have visible : isSpace 0 = false := by decide
    have other : isDigit 0 = false := by decide
    have space (c : UInt8) (member : c ∈ before ++ after) : c ≠ 0 := by
      intro same
      have marked := spaces c member
      rw [same, visible] at marked
      cases marked
    have digit (c : UInt8) (member : c ∈ whole ++ fraction) : c ≠ 0 :=
      (digit_other c (digits c member)).2.2
    have inside : (0 : UInt8) ∈ dot := by
      rw [split] at zero
      simp only [List.mem_append] at zero space digit
      rcases zero with early | early | here | late | late
      · exact absurd rfl (space 0 (Or.inl early))
      · exact absurd rfl (digit 0 (Or.inl early))
      · exact here
      · exact absurd rfl (digit 0 (Or.inr late))
      · exact absurd rfl (space 0 (Or.inr late))
    rcases dots with same | none
    · rw [same] at inside
      exact absurd (List.mem_singleton.mp inside) (by decide)
    · rw [none.1] at inside
      cases inside
  · obtain ⟨c, member⟩ := List.exists_mem_of_ne_nil _ some
    refine ⟨c, ?_, digits c member⟩
    rw [split]
    simp only [List.mem_append] at member ⊢
    tauto

/-- The parts that the parser sees. -/
theorem money_parts (psz : Bytes) :
    ∃ dot, psz = psz.takeWhile isSpace ++ (wholeDigits psz ++ (dot ++
        ((fractionOf psz).1 ++ (fractionOf psz).2))) ∧
      (∀ c ∈ (fractionOf psz).1, isDigit c = true) ∧
      (dot = [point] ∨ dot = [] ∧ (fractionOf psz).1 = []) := by
  have body : psz.takeWhile isSpace ++ (wholeDigits psz ++
      (psz.dropWhile isSpace).dropWhile isDigit) = psz := by
    rw [wholeDigits, List.takeWhile_append_dropWhile, List.takeWhile_append_dropWhile]
  rw [fractionOf]
  cases after : (psz.dropWhile isSpace).dropWhile isDigit with
  | nil =>
      rw [after] at body
      exact ⟨[], by simpa [splitFraction] using body.symm, by simp [splitFraction],
        Or.inr ⟨rfl, rfl⟩⟩
  | cons c p =>
      rw [after] at body
      by_cases dot : c = point
      · subst dot
        refine ⟨[point], ?_, ?_, Or.inl rfl⟩
        · rw [splitFraction, if_pos rfl, List.takeWhile_append_dropWhile]
          exact body.symm
        · rw [splitFraction, if_pos rfl]
          exact takeWhile_digits p
      · rw [splitFraction, if_neg dot]
        exact ⟨[], body.symm, List.forall_mem_nil _, Or.inr ⟨rfl, rfl⟩⟩

/-- A string with a digit that the parser accepts is worth the value it gives. -/
theorem worth_of_money (psz : Bytes) (good : isMoney psz = true)
    (some : ∃ c ∈ psz, isDigit c = true) : WorthExactly psz (moneyValue psz) := by
  obtain ⟨dot, split, digits, dots⟩ := money_parts psz
  simp only [isMoney, Bool.and_eq_true, decide_eq_true_eq, List.all_eq_true] at good
  obtain ⟨⟨spaces, short⟩, _⟩ := good
  refine ⟨_, _, dot, _, _, split, ?_, ?_, ?_, dots, short, ?_⟩
  · intro c member
    rcases List.mem_append.mp member with early | late
    · exact List.mem_takeWhile_imp early
    · exact spaces c late
  · intro c member
    rcases List.mem_append.mp member with early | late
    · exact takeWhile_digits _ c early
    · exact digits c late
  · intro none
    obtain ⟨c, member, digit⟩ := some
    obtain ⟨visible, other, _⟩ := digit_other c digit
    rw [List.append_eq_nil_iff] at none
    rw [split, none.1, none.2, List.nil_append, List.nil_append, List.mem_append,
      List.mem_append] at member
    rcases member with early | here | late
    · have space := List.mem_takeWhile_imp early
      rw [visible] at space
      cases space
    · rcases dots with same | nothing
      · rw [same] at here
        exact other (List.mem_singleton.mp here)
      · rw [nothing.1] at here
        cases here
    · have space := spaces c late
      rw [visible] at space
      cases space
  · have whole : coin = 10 ^ (8 - (fractionOf psz).1.length) * 10 ^ (fractionOf psz).1.length := by
      rw [← pow_add, Nat.sub_add_cancel short]
      rfl
    rw [moneyValue]
    calc (decimalValue (wholeDigits psz) * coin +
            decimalValue (fractionOf psz).1 * 10 ^ (8 - (fractionOf psz).1.length)) *
          10 ^ (fractionOf psz).1.length
        = decimalValue (wholeDigits psz) * 10 ^ (fractionOf psz).1.length * coin +
            decimalValue (fractionOf psz).1 * (10 ^ (8 - (fractionOf psz).1.length) *
              10 ^ (fractionOf psz).1.length) := by ring
      _ = decimalValue (wholeDigits psz) * 10 ^ (fractionOf psz).1.length * coin +
            decimalValue (fractionOf psz).1 * coin := by rw [← whole]
      _ = (decimalValue (wholeDigits psz) * 10 ^ (fractionOf psz).1.length +
            decimalValue (fractionOf psz).1) * coin := by ring

/-- Parsing does not overflow, and a string that is accepted is worth the result. -/
def ReadsExactly (str : Bytes) : Prop :=
  ∃ result, parseMoney str = .ok result ∧ ∀ nRet, result = some nRet → WorthExactly str nRet

theorem readsExactly_iff (str : Bytes) :
    ReadsExactly str ↔
      (isMoney (cStr str) = true → 0 ∉ str ∧ ∃ c ∈ str, isDigit c = true) := by
  have parsed : parseMoney str = _ := parse_ok (cStr str)
  constructor
  · intro reads good
    obtain ⟨result, found, exactly⟩ := reads
    rw [parsed, if_pos good, Except.ok.injEq] at found
    exact worth_plain str _ (exactly _ found.symm)
  · intro condition
    refine ⟨_, parsed, fun nRet accepted => ?_⟩
    by_cases good : isMoney (cStr str) = true
    · obtain ⟨plain, some⟩ := condition good
      rw [if_pos good, Option.some.injEq] at accepted
      rw [cStr_plain str plain] at good accepted
      rw [← accepted]
      exact worth_of_money str good some
    · rw [if_neg good] at accepted
      cases accepted

/-! ## Formatting -/

theorem printDecimal_value (width n : Nat) : decimalValue (printDecimal width n) = n := by
  have small := compose_lt 10 (width - (Nat.digits 10 n).length) n (by decide)
  rw [decimalValue, printDecimal,
    map_back digitChar digitOf _ fun digit member => digitOf_digitChar digit (small digit member),
    value_compose]

theorem printDecimal_digits (width n : Nat) :
    ∀ c ∈ printDecimal width n, isDigit c = true := by
  intro c member
  obtain ⟨digit, inside, same⟩ := List.mem_map.mp member
  rw [← same]
  exact isDigit_digitChar digit (compose_lt 10 _ n (by decide) digit inside)

/-- A number with at most so many digits fills the width. -/
theorem length_printDecimal (width n : Nat) (fits : n < 10 ^ width) :
    (printDecimal width n).length = width := by
  have length := (Nat.digits_length_le_iff (b := 10) (by decide) n).mpr fits
  rw [printDecimal, List.length_map, length_compose]
  omega

theorem length_printDecimal_le (width n most : Nat) (wide : width ≤ most) (fits : n < 10 ^ most) :
    (printDecimal width n).length ≤ most := by
  have length := (Nat.digits_length_le_iff (b := 10) (by decide) n).mpr fits
  rw [printDecimal, List.length_map, length_compose]
  omega

/-- The loop stops two places after the point, and counts zeros only. -/
theorem trimLoop_ok (fraction whole : Bytes) (long : 2 ≤ fraction.length)
    (digits : ∀ c ∈ fraction, isDigit c = true) :
    ∃ nTrim, trimLoop (fraction ++ point :: whole) = .ok nTrim ∧ nTrim + 2 ≤ fraction.length ∧
      fraction.take nTrim = List.replicate nTrim (charByte '0') := by
  induction fraction with
  | nil => simp at long
  | cons c fraction ih =>
      have others : ∀ c ∈ fraction, isDigit c = true := (List.forall_mem_cons.mp digits).2
      rw [List.cons_append, trimLoop]
      by_cases zero : c = charByte '0'
      · rw [if_pos zero]
        match fraction, ih, others with
        | [], _, _ => simp at long
        | [second], _, _ =>
            have stops : isDigit point = false := by decide
            exact ⟨0, by simp [stops], long, rfl⟩
        | second :: third :: rest, ih, others =>
            have third_digit := others third (List.mem_cons_of_mem _ List.mem_cons_self)
            obtain ⟨nTrim, loop, bound, zeros⟩ := ih (by simp) others
            refine ⟨nTrim + 1, ?_, ?_, ?_⟩
            · simp only [List.cons_append, List.getElem?_cons_succ, List.getElem?_cons_zero,
                third_digit, if_true]
              rw [List.cons_append, List.cons_append] at loop
              rw [loop]
              rfl
            · simp only [List.length_cons] at bound ⊢
              omega
            · rw [List.take_succ_cons, zeros, zero, List.replicate_succ]
      · exact ⟨0, if_neg zero, long, rfl⟩

/-- A formatted fraction without its last zeros is worth as much. -/
theorem trimmed_value (fraction : Bytes) (nTrim : Nat)
    (zeros : fraction.reverse.take nTrim = List.replicate nTrim (charByte '0')) :
    decimalValue (fraction.take (fraction.length - nTrim)) * 10 ^ nTrim =
      decimalValue fraction := by
  have last : fraction.drop (fraction.length - nTrim) = List.replicate nTrim (charByte '0') := by
    rw [List.take_reverse] at zeros
    rw [← List.reverse_reverse (fraction.drop _), zeros, List.reverse_replicate]
  have whole : fraction =
      fraction.take (fraction.length - nTrim) ++ List.replicate nTrim (charByte '0') := by
    rw [← last, List.take_append_drop]
  have digit : digitOf (charByte '0') = 0 := rfl
  calc decimalValue (fraction.take (fraction.length - nTrim)) * 10 ^ nTrim
      = value 10 ((fraction.take (fraction.length - nTrim)).map digitOf ++
          List.replicate nTrim 0) := (value_append_zeros 10 nTrim _).symm
    _ = decimalValue (fraction.take (fraction.length - nTrim) ++
          List.replicate nTrim (charByte '0')) := by
        rw [decimalValue, List.map_append, List.map_replicate, digit]
    _ = decimalValue fraction := by rw [← whole]

/-- What the parser sees in digits, a point and more digits. -/
theorem parts_of_formatted (whole fraction : Bytes) (some : whole ≠ [])
    (digits : ∀ c ∈ whole, isDigit c = true) (more : ∀ c ∈ fraction, isDigit c = true) :
    cStr (whole ++ point :: fraction) = whole ++ point :: fraction ∧
      wholeDigits (whole ++ point :: fraction) = whole ∧
      fractionOf (whole ++ point :: fraction) = (fraction, []) := by
  have start : (whole ++ point :: fraction).dropWhile isSpace = whole ++ point :: fraction := by
    obtain ⟨c, rest, same⟩ := List.exists_cons_of_ne_nil some
    have visible := (digit_other c (digits c (by simp [same]))).1
    rw [same, List.cons_append, List.dropWhile_cons_of_neg (by simp [visible])]
  have stops : ¬ isDigit point = true := by decide
  refine ⟨?_, ?_, ?_⟩
  · apply cStr_plain
    intro zero
    rcases List.mem_append.mp zero with early | late
    · exact (digit_other 0 (digits 0 early)).2.2 rfl
    · rcases List.mem_cons.mp late with here | after
      · exact absurd here (by decide)
      · exact (digit_other 0 (more 0 after)).2.2 rfl
  · rw [wholeDigits, start, List.takeWhile_append_of_pos digits,
      List.takeWhile_cons_of_neg stops, List.append_nil]
  · rw [fractionOf, start, List.dropWhile_append_of_pos digits,
      List.dropWhile_cons_of_neg stops, splitFraction, if_pos rfl,
      List.takeWhile_eq_self_iff.mpr more, List.dropWhile_eq_nil_iff.mpr more]

/-- An amount is formatted without overflow as digits, a point and at least two digits, which
stand for its coins and base units. -/
theorem format_ok (n : Nat) (inside : (n : Int) ≤ maxMoney) :
    ∃ whole fraction, formatMoney n false = .ok (whole ++ point :: fraction) ∧ whole ≠ [] ∧
      (∀ c ∈ whole, isDigit c = true) ∧ (∀ c ∈ fraction, isDigit c = true) ∧
      whole.length ≤ 10 ∧ fraction.length ≤ 8 ∧ decimalValue whole = n / 100000000 ∧
      decimalValue fraction * 10 ^ (8 - fraction.length) = n % 100000000 := by
  have limit : maxMoney = 600000000000000000 := rfl
  have unit : coin = 100000000 := rfl
  have same : absMoney n = .ok n := by
    by_cases positive : (n : Int) > 0
    · exact if_pos positive
    · have zero : n = 0 := by omega
      subst zero
      rfl
  have quotient : ((n : Int).tdiv coin).toNat = n / 100000000 := by
    rw [unit, Int.tdiv_eq_ediv_of_nonneg (Int.natCast_nonneg n)]
    omega
  have remainder : ((n : Int).tmod coin).toNat = n % 100000000 := by
    rw [unit, Int.tmod_eq_emod_of_nonneg (Int.natCast_nonneg n)]
    omega
  obtain ⟨whole, printed⟩ : ∃ whole, whole = printDecimal 1 (n / 100000000) := ⟨_, rfl⟩
  obtain ⟨fraction, padded⟩ : ∃ fraction, fraction = printDecimal 8 (n % 100000000) := ⟨_, rfl⟩
  have digits : ∀ c ∈ whole, isDigit c = true := printed ▸ printDecimal_digits 1 _
  have more : ∀ c ∈ fraction, isDigit c = true := padded ▸ printDecimal_digits 8 _
  have eight : fraction.length = 8 := padded ▸ length_printDecimal 8 _ (Nat.mod_lt _ (by decide))
  have ten : whole.length ≤ 10 :=
    printed ▸ length_printDecimal_le 1 _ 10 (by decide) (by omega)
  obtain ⟨nTrim, loop, bound, zeros⟩ := trimLoop_ok fraction.reverse whole.reverse
    (by rw [List.length_reverse, eight]; decide)
    (fun c member => more c (List.mem_reverse.mp member))
  rw [List.length_reverse, eight] at bound
  have reversed : (whole ++ [point] ++ fraction).reverse =
      fraction.reverse ++ point :: whole.reverse := by simp
  have kept : (whole ++ [point] ++ fraction).take ((whole ++ [point] ++ fraction).length - nTrim) =
      whole ++ point :: fraction.take (fraction.length - nTrim) := by
    have front : (whole ++ [point]).length ≤
        (whole ++ [point] ++ fraction).length - nTrim := by
      simp only [List.length_append, List.length_singleton]
      omega
    have left : (whole ++ [point] ++ fraction).length - nTrim - (whole ++ [point]).length =
        fraction.length - nTrim := by
      simp only [List.length_append, List.length_singleton]
      omega
    rw [List.take_append, List.take_of_length_le front, left, List.append_assoc]
    rfl
  have value := trimmed_value fraction nTrim zeros
  refine ⟨whole, fraction.take (fraction.length - nTrim), ?_, ?_, digits,
    fun c member => more c (List.mem_of_mem_take member), ten, ?_, ?_, ?_⟩
  · have sign : ¬ (n : Int) < 0 := by omega
    simp only [formatMoney, same, bind, Except.bind, quotient, remainder, ← printed, ← padded,
      reversed, loop, kept, if_neg sign]
    rfl
  · intro empty
    have positive : 0 < (printDecimal 1 (n / 100000000)).length := by
      rw [printDecimal, List.length_map, length_compose]
      omega
    rw [← printed, empty] at positive
    cases positive
  · rw [List.length_take]
    omega
  · rw [printed, printDecimal_value]
  · have places : 8 - (fraction.take (fraction.length - nTrim)).length = nTrim := by
      rw [List.length_take]
      omega
    rw [places, value, padded, printDecimal_value]

/-- A formatted amount is parsed to itself, and a string that is accepted is worth the result
exactly if it has a digit and does not go on after a C string that would be accepted. -/
theorem money_round_trip (n : Int) (str : Bytes) :
    (0 ≤ n → n ≤ maxMoney →
      ∃ formatted, formatMoney n false = .ok formatted ∧ parseMoney formatted = .ok (some n)) ∧
    (ReadsExactly str ↔
      (isMoney (cStr str) = true → 0 ∉ str ∧ ∃ c ∈ str, isDigit c = true)) := by
  refine ⟨fun nonneg inside => ?_, readsExactly_iff str⟩
  obtain ⟨k, rfl⟩ := Int.eq_ofNat_of_zero_le nonneg
  obtain ⟨whole, fraction, formatted, some, digits, more, ten, eight, coins, units⟩ :=
    format_ok k inside
  obtain ⟨plain, before, after⟩ := parts_of_formatted whole fraction some digits more
  refine ⟨_, formatted, ?_⟩
  have good : isMoney (whole ++ point :: fraction) = true := by
    rw [isMoney, after, before]
    simp [ten, eight]
  have value : moneyValue (whole ++ point :: fraction) = k := by
    have total : (decimalValue fraction : Int) * 10 ^ (8 - fraction.length) =
        (k % 100000000 : Nat) := by exact_mod_cast units
    have unit : coin = 100000000 := rfl
    rw [moneyValue, after, before, total, coins, unit]
    omega
  rw [parseMoney, plain, parse_ok, if_pos good, value]

theorem money_round_trip_once :
    (∃ formatted, formatMoney 123456700 false = .ok formatted ∧
        parseMoney formatted = .ok (some 123456700)) ∧
      (ReadsExactly [0x31, 0, 0x32] ↔
        (isMoney (cStr [0x31, 0, 0x32]) = true →
          0 ∉ ([0x31, 0, 0x32] : Bytes) ∧ ∃ c ∈ ([0x31, 0, 0x32] : Bytes), isDigit c = true)) :=
  ⟨(money_round_trip 123456700 []).1 (by decide) (by decide),
    (money_round_trip 0 [0x31, 0, 0x32]).2⟩

/-- A point alone is accepted as zero; the byte zero ends the string that is read. -/
theorem money_round_trip_fails :
    (parseMoney [0x31, 0, 0x32] = .ok (some 100000000) ∧ ¬ ReadsExactly [0x31, 0, 0x32]) ∧
      (parseMoney [point] = .ok (some 0) ∧ ¬ ReadsExactly [point]) := by
  refine ⟨⟨by decide +kernel, ?_⟩, by decide +kernel, ?_⟩
  · rw [readsExactly_iff]
    decide +kernel
  · rw [readsExactly_iff]
    decide +kernel

end RoiCoin
