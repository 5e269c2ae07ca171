import RoiCoin.Compressor
import RoiCoin.Lib.Checked

/-! Compressing an amount, with every operation on words checked. -/

namespace RoiCoin

open Checked

inductive AmountFault where
  | overflow
  /-- `assert(d >= 1 && d <= 9)` -/
  | assertion
  deriving DecidableEq, Repr

/-- The result of an operation on `uint64_t`. -/
def word64 (n : Nat) : Except AmountFault Nat :=
  if n < 2 ^ 64 then .ok n else .error .overflow

theorem word64_ok (n result : Nat) : word64 n = .ok result ↔ n < 2 ^ 64 ∧ n = result := by
  rw [word64]
  split <;> simp_all

/-- `CompressAmount`, where no operation may wrap. -/
def compressAmountChecked (n : Nat) : Except AmountFault Nat :=
  if n = 0 then .ok 0
  else
    let (n, e) := stripZeros 9 n
    if e < 9 then do
      let d := n % 10
      require (d ≥ 1 ∧ d ≤ 9) .assertion
      let product ← word64 (n / 10 * 9)
      let sum ← word64 (product + d)
      let scaled ← word64 ((sum - 1) * 10)
      let code ← word64 (1 + scaled)
      word64 (code + e)
    else do
      let scaled ← word64 ((n - 1) * 10)
      let code ← word64 (1 + scaled)
      word64 (code + 9)

/-- Only the last sum can overflow first, and the assertion holds. -/
theorem compressAmountChecked_ok (n x : Nat) :
    compressAmountChecked n = .ok x ↔ amountCode n < 2 ^ 64 ∧ amountCode n = x := by
  by_cases zero : n = 0
  · simp [compressAmountChecked, amountCode, zero]
  obtain ⟨m, e, stripped, _, _, _, _, stopped⟩ := stripped_amount n zero
  rw [compressAmountChecked, amountCode, if_neg zero, if_neg zero, stripped]
  dsimp only
  split
  · rename_i early
    have digit := stopped early
    simp only [bind_ok, require_ok, word64_ok]
    constructor
    · intro returned
      obtain ⟨_, _, _, ⟨_, rfl⟩, _, ⟨_, rfl⟩, _, ⟨_, rfl⟩, _, ⟨_, rfl⟩, fits, rfl⟩ := returned
      exact ⟨fits, rfl⟩
    · intro both
      obtain ⟨fits, rfl⟩ := both
      exact ⟨(), by omega, _, ⟨by omega, rfl⟩, _, ⟨by omega, rfl⟩, _, ⟨by omega, rfl⟩, _,
        ⟨by omega, rfl⟩, fits, rfl⟩
  · simp only [bind_ok, word64_ok]
    constructor
    · intro returned
      obtain ⟨_, ⟨_, rfl⟩, _, ⟨_, rfl⟩, fits, rfl⟩ := returned
      exact ⟨fits, rfl⟩
    · intro both
      obtain ⟨fits, rfl⟩ := both
      exact ⟨_, ⟨by omega, rfl⟩, _, ⟨by omega, rfl⟩, fits, rfl⟩

/-- What the checked operations give is what the words hold. -/
theorem compressAmountChecked_exact (n x : Nat) (checked : compressAmountChecked n = .ok x) :
    compressAmount n = x := by
  obtain ⟨fits, same⟩ := (compressAmountChecked_ok n x).mp checked
  rw [compressAmount_eq, Nat.mod_eq_of_lt fits, same]

/-- Amounts of money are compressed without overflow and found again, so that no two share a code;
and a code that was made without overflow is made again from the amount it stands for. -/
theorem amount_compression_lossless :
    (∀ n ≤ maxMoney.toNat, ∃ x, compressAmountChecked n = .ok x ∧ compressAmount n = x ∧
      decompressAmount x = n) ∧
    (∀ n ≤ maxMoney.toNat, ∀ m ≤ maxMoney.toNat, compressAmount n = compressAmount m → n = m) ∧
    ∀ n < 2 ^ 64, ∀ x, compressAmountChecked n = .ok x →
      compressAmount n = x ∧ compressAmount (decompressAmount x) = x := by
  refine ⟨fun n money => ?_, fun n money m money' same => ?_, fun n word x checked => ?_⟩
  · have fits := amountCode_lt n money
    have checked := (compressAmountChecked_ok n _).mpr ⟨fits, rfl⟩
    have exact_code := compressAmountChecked_exact n _ checked
    refine ⟨amountCode n, checked, exact_code, ?_⟩
    rw [← exact_code, decompress_compressAmount n money]
  · rw [← decompress_compressAmount n money, same, decompress_compressAmount m money']
  · have same := compressAmountChecked_exact n x checked
    obtain ⟨_, code⟩ := (compressAmountChecked_ok n x).mp checked
    refine ⟨same, ?_⟩
    rw [← code, decompress_amountCode n word, code, same]

theorem amount_compression_lossless_most :
    ∃ x, compressAmountChecked 600000000000000000 = .ok x ∧
      compressAmount 600000000000000000 = x ∧ decompressAmount x = 600000000000000000 :=
  amount_compression_lossless.1 600000000000000000 (by decide)

end RoiCoin
