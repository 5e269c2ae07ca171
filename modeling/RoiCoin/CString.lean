import RoiCoin.Script.Script

/-! Characters and C strings in the C locale. A C string is the list of the bytes before its end. -/

namespace RoiCoin

def charByte (c : Char) : UInt8 := UInt8.ofNat c.toNat

/-- `isspace` -/
def isSpace (c : UInt8) : Bool := c == 0x20 || (decide (0x09 ≤ c) && decide (c ≤ 0x0d))

/-- `isdigit` -/
def isDigit (c : UInt8) : Bool := decide (0x30 ≤ c) && decide (c ≤ 0x39)

/-- `c_str()`: the string up to its first zero byte. -/
def cStr (str : Bytes) : Bytes := str.takeWhile (· != 0)

theorem cStr_plain (str : Bytes) (plain : 0 ∉ str) : cStr str = str := by
  induction str with
  | nil => rfl
  | cons c str ih =>
      rw [List.mem_cons, not_or] at plain
      rw [cStr, List.takeWhile_cons_of_pos (by simpa using Ne.symm plain.1)]
      exact congrArg (c :: ·) (ih plain.2)

/-- A map undone on the list at hand. -/
theorem map_back {α β : Type} (f : α → β) (g : β → α) (list : List α)
    (inverse : ∀ a ∈ list, g (f a) = a) : (list.map f).map g = list := by
  calc (list.map f).map g = list.map (g ∘ f) := List.map_map
    _ = list.map id := List.map_congr_left inverse
    _ = list := List.map_id list

end RoiCoin
