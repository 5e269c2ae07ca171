import RoiCoin.Lib.Subsets
import RoiCoin.Wallet.AvailableCoins
import Mathlib.Data.List.Sort

/-! Choosing the coins of a payment (`ApproximateBestSubset`, `SelectCoinsMinConf`, `SelectCoins`).

The random numbers are streams: `getRandInt i` is what `random_shuffle` draws for its position `i`
and `bits nRep i` the bit that decides on the coin `i` in a repetition. -/

namespace RoiCoin

open Checked Subsets

def cent : Int := 1000000

/-- `pair<const CWalletTx*, unsigned int>` -/
abbrev WalletCoin := Uint256 × Nat

def COutput.coin (out : COutput) : WalletCoin := (out.tx.hash, out.i)

/-- `pair<CAmount, pair<const CWalletTx*, unsigned int> >` -/
abbrev ValuedCoin := Int × WalletCoin

/-! ## The best subset -/

structure Best where
  vfBest : List Bool
  nBest : Int
  deriving DecidableEq, Repr

/-- The variables of one repetition. -/
structure Trial where
  nTotal : Int
  fReachedTarget : Bool
  vfIncluded : List Bool
  best : Best
  deriving DecidableEq, Repr

section Subset

variable (vValue : List Int) (nTargetValue : Int)

/-- The coin `i` is included, and left out again when the target is reached with it. -/
def tryCoin (i : Nat) (t : Trial) : Walleting Trial := do
  let nTotal ← amount (t.nTotal + vValue.getD i 0)
  let vfIncluded := t.vfIncluded.set i true
  if nTotal ≥ nTargetValue then
    return {
      nTotal := nTotal - vValue.getD i 0
      fReachedTarget := true
      vfIncluded := vfIncluded.set i false
      best := if nTotal < t.best.nBest then ⟨vfIncluded, nTotal⟩ else t.best }
  else return { t with nTotal, vfIncluded }

/-- The inner loop with `left` coins to go. -/
def passFrom (chooses : Nat → Trial → Bool) : (left : Nat) → Nat → Trial → Walleting Trial
  | 0, _, t => .ok t
  | left + 1, i, t => do
      let t ← if chooses i t then tryCoin vValue nTargetValue i t else .ok t
      passFrom chooses left (i + 1) t

/-- Two passes: by the bits, then over the coins not included. -/
def repetition (bits : Nat → Bool) (best : Best) : Walleting Best := do
  let start : Trial := ⟨0, false, List.replicate vValue.length false, best⟩
  let t ← passFrom vValue nTargetValue (fun i _ => bits i) vValue.length 0 start
  if t.fReachedTarget then return t.best
  else do
    let t ← passFrom vValue nTargetValue (fun i t => !t.vfIncluded.getD i false) vValue.length 0 t
    return t.best

def repetitions (bits : Nat → Nat → Bool) : (left : Nat) → Nat → Best → Walleting Best
  | 0, _, best => .ok best
  | left + 1, nRep, best =>
      if best.nBest = nTargetValue then .ok best
      else do
        let best ← repetition vValue nTargetValue (bits nRep) best
        repetitions bits left (nRep + 1) best

def approximateBestSubset (nTotalLower : Int) (iterations : Nat) (bits : Nat → Nat → Bool) :
    Walleting Best :=
  repetitions vValue nTargetValue bits iterations 0
    ⟨List.replicate vValue.length true, nTotalLower⟩

end Subset

/-! ## `SelectCoinsMinConf` -/

/-- What the loop over the outputs has gathered; without a larger coin the value is the maximum. -/
structure Gathered where
  vValue : List ValuedCoin
  nTotalLower : Int
  lowestLarger : Int
  coinLowestLarger : Option WalletCoin
  deriving DecidableEq, Repr

/-- The coins found, their value, and whether they are enough. -/
structure SelectedCoins where
  enough : Bool
  setCoinsRet : List WalletCoin
  nValueRet : Int
  deriving DecidableEq, Repr

/-- `setCoinsRet.insert(coin.second); nValueRet += coin.first` -/
def SelectedCoins.take (s : SelectedCoins) (coin : ValuedCoin) : Walleting SelectedCoins := do
  let nValueRet ← amount (s.nValueRet + coin.1)
  return { s with setCoinsRet := s.setCoinsRet.insert coin.2, nValueRet }

def takeAll (coins : List ValuedCoin) : Walleting SelectedCoins :=
  coins.foldlM SelectedCoins.take ⟨true, [], 0⟩

def takeOne (value : Int) (coin : WalletCoin) : Walleting SelectedCoins :=
  SelectedCoins.take ⟨true, [], 0⟩ (value, coin)

/-- `random_shuffle`: position `i` is swapped with one that is not after it. -/
def randomShuffle {α : Type} (getRandInt : Nat → Nat) (v : Array α) : Array α :=
  (List.range v.size).foldl (fun v i => v.swapIfInBounds i (getRandInt i % (i + 1))) v

section Select

variable (w : CWalletStore) (node : NodeView) (nTargetValue nConfMine nConfTheirs : Int)

/-- The value of an output that may be chosen. -/
def eligibleValue (output : COutput) : Walleting (Option Int) :=
  if !output.fSpendable then .ok none
  else do
    let fromMe ← w.isFromMe node output.tx
    if output.nDepth < (if fromMe then nConfMine else nConfTheirs) then return none
    else do
      let txout ← output.tx.output output.i
      some <$> output.tx.nextValue node txout

/-- The loop over the outputs: a coin of exactly the target, or what it has gathered. -/
def gather : List COutput → Gathered → Walleting (ValuedCoin ⊕ Gathered)
  | [], g => .ok (.inr g)
  | output :: vCoins, g => do
      match ← eligibleValue w node nConfMine nConfTheirs output with
      | none => gather vCoins g
      | some n =>
          if n = nTargetValue then return .inl (n, output.coin)
          else do
            let limit ← amount (nTargetValue + cent)
            if n < limit then do
              let nTotalLower ← amount (g.nTotalLower + n)
              gather vCoins { g with vValue := g.vValue ++ [(n, output.coin)], nTotalLower }
            else if n < g.lowestLarger then
              gather vCoins { g with lowestLarger := n, coinLowestLarger := some output.coin }
            else gather vCoins g

/-- The coins in the order of `sort(vValue.rbegin(), vValue.rend(), CompareValueOnly())`. -/
def sortedDown (vValue : List ValuedCoin) : List ValuedCoin :=
  vValue.insertionSort fun a b => a.1 ≥ b.1

/-- The stochastic approximation, once more for a target that leaves change. -/
def bestSubset (vValue : List ValuedCoin) (nTotalLower : Int) (bits : Nat → Nat → Nat → Bool) :
    Walleting Best := do
  let values := vValue.map Prod.fst
  let best ← approximateBestSubset values nTargetValue nTotalLower 1000 (bits 0)
  if best.nBest ≠ nTargetValue then do
    let raised ← amount (nTargetValue + cent)
    if nTotalLower ≥ raised then
      approximateBestSubset values raised nTotalLower 1000 (bits 1)
    else return best
  else return best

/-- The choice between the subset and the next larger coin. -/
def largerIsBetter (g : Gathered) (best : Best) : Walleting Bool := do
  if g.coinLowestLarger.isNone then return false
  else if best.nBest = nTargetValue then return decide (g.lowestLarger ≤ best.nBest)
  else do
    let raised ← amount (nTargetValue + cent)
    return decide (best.nBest < raised) || decide (g.lowestLarger ≤ best.nBest)

/-- What follows the loop over the outputs. -/
def settle (g : Gathered) (bits : Nat → Nat → Nat → Bool) : Walleting SelectedCoins :=
  if g.nTotalLower = nTargetValue then takeAll g.vValue
  else if g.nTotalLower < nTargetValue then
    match g.coinLowestLarger with
    | none => .ok ⟨false, [], 0⟩
    | some coin => takeOne g.lowestLarger coin
  else do
    let vValue := sortedDown g.vValue
    let best ← bestSubset nTargetValue vValue g.nTotalLower bits
    match ← largerIsBetter nTargetValue g best, g.coinLowestLarger with
    | true, some coin => takeOne g.lowestLarger coin
    | _, _ => takeAll (chosen best.vfBest vValue)

def selectCoinsMinConf (getRandInt : Nat → Nat) (bits : Nat → Nat → Nat → Bool)
    (vCoins : List COutput) : Walleting SelectedCoins := do
  let shuffled := (randomShuffle getRandInt vCoins.toArray).toList
  match ← gather w node nTargetValue nConfMine nConfTheirs shuffled ⟨[], 0, 2 ^ 63 - 1, none⟩ with
  | .inl coin => takeOne coin.1 coin.2
  | .inr g => settle nTargetValue g bits

end Select

end RoiCoin
