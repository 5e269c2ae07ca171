import RoiCoin.CoinsCache
import RoiCoin.Lib.Ledger

/-! The coins view that validation works on: the flat map the top of a stack of caches shows.

`modify` is `ModifyCoins` with the mutation and the release of the modifier, as `modifyFlat`. -/

namespace RoiCoin

open CCoins

structure FlatView where
  coins : Uint256 → Option CCoins
  hashBlock : Uint256

/-- An unspent output with the fields of its record. -/
structure Coin where
  txout : CTxOut
  nHeight : Int
  fCoinBase : Bool
  nVersion : Int
  deriving DecidableEq, Repr

def CCoins.coin (coins : CCoins) (n : Nat) : Option Coin :=
  (coins.output n).map fun txout => ⟨txout, coins.nHeight, coins.fCoinBase, coins.nVersion⟩

def COutPoint.name (out : COutPoint) : Uint256 × Nat := (out.hash, out.n.toNat)

namespace FlatView

def accessCoins (view : FlatView) (hash : Uint256) : Option CCoins := view.coins hash

/-- The record `ModifyCoins` hands out. -/
def record (view : FlatView) (txid : Uint256) : CCoins := (view.coins txid).getD .empty

def modify (view : FlatView) (txid : Uint256) (change : CCoins → CCoins) : FlatView :=
  { view with coins := modifyFlat change view.coins txid }

def setBestBlock (view : FlatView) (hashBlock : Uint256) : FlatView := { view with hashBlock }

/-- The unspent outputs the view stands for. -/
def utxo (view : FlatView) : Ledger.Coins Uint256 Coin :=
  fun hash n => (view.coins hash).bind fun coins => coins.coin n

/-- The test of one input in `HaveInputs`. -/
def haveInput (view : FlatView) (txin : CTxIn) : Bool :=
  ((view.accessCoins txin.prevout.hash).map fun coins =>
    coins.isAvailable txin.prevout.n.toNat).getD false

def haveInputs (view : FlatView) (tx : CTransaction) : Bool :=
  tx.isCoinBase || tx.vin.all view.haveInput

def getOutputFor (view : FlatView) (txin : CTxIn) : Checking CTxOut :=
  match (view.accessCoins txin.prevout.hash).bind fun coins =>
      coins.output txin.prevout.n.toNat with
  | some txout => .ok txout
  | none => .error (.assertion .outputFor)

/-! ## Outputs after a modification -/

theorem coin_cleanup (coins : CCoins) (n : Nat) : coins.cleanup.coin n = coins.coin n := by
  rw [CCoins.coin, output_cleanup]
  rfl

theorem coin_live (coins : CCoins) (n : Nat) :
    (coins.live.bind fun coins => coins.coin n) = coins.coin n := by
  cases pruned : coins.isPruned with
  | true =>
      rw [live_pruned coins pruned, CCoins.coin, (isPruned_iff coins).mp pruned n]
      rfl
  | false => rw [live_unpruned coins pruned, Option.bind_some]

theorem coins_modify_other (view : FlatView) (txid hash : Uint256) (change : CCoins → CCoins)
    (other : hash ≠ txid) : (view.modify txid change).coins hash = view.coins hash :=
  Function.update_of_ne other _ _

theorem coins_modify_self (view : FlatView) (txid : Uint256) (change : CCoins → CCoins) :
    (view.modify txid change).coins txid =
      (change (view.record txid)).cleanup.live :=
  Function.update_self _ _ _

theorem utxo_modify_self (view : FlatView) (txid : Uint256) (change : CCoins → CCoins) (n : Nat) :
    (view.modify txid change).utxo txid n = (change (view.record txid)).coin n := by
  rw [utxo, coins_modify_self, coin_live, coin_cleanup]

theorem utxo_modify_other (view : FlatView) (txid hash : Uint256) (change : CCoins → CCoins)
    (n : Nat) (other : hash ≠ txid) : (view.modify txid change).utxo hash n = view.utxo hash n := by
  rw [utxo, utxo, coins_modify_other view txid hash change other]

@[simp] theorem utxo_setBestBlock (view : FlatView) (hashBlock : Uint256) :
    (view.setBestBlock hashBlock).utxo = view.utxo := rfl

theorem coin_record (view : FlatView) (hash : Uint256) (n : Nat) :
    (view.record hash).coin n = view.utxo hash n := by
  rw [utxo, record]
  cases view.coins hash with
  | none => rfl
  | some coins => rfl

theorem coin_spend (coins : CCoins) (n m : Nat) :
    (coins.spend n).coin m = if m = n then none else coins.coin m := by
  have fields : (coins.spend n).nHeight = coins.nHeight ∧
      (coins.spend n).fCoinBase = coins.fCoinBase ∧ (coins.spend n).nVersion = coins.nVersion := by
    rw [spend]
    split <;> exact ⟨rfl, rfl, rfl⟩
  rw [CCoins.coin, output_spend, fields.1, fields.2.1, fields.2.2]
  split
  · rfl
  · rfl

theorem utxo_spend (view : FlatView) (hash : Uint256) (n : Nat) :
    (view.modify hash fun coins => coins.spend n).utxo =
      Ledger.spendAll view.utxo [(hash, n)] := by
  funext id m
  by_cases same : id = hash
  · subst same
    rw [utxo_modify_self, coin_spend, coin_record]
    by_cases here : m = n
    · rw [if_pos here, Ledger.spendAll_of_mem _ _ _ _ (by simp [here])]
    · rw [if_neg here, Ledger.spendAll_of_notMem _ _ _ _ (by simp [here])]
  · rw [utxo_modify_other _ _ _ _ _ same, Ledger.spendAll_of_notMem _ _ _ _ (by simp [same])]

theorem haveInput_iff (view : FlatView) (txin : CTxIn) :
    view.haveInput txin = true ↔
      (view.utxo txin.prevout.hash txin.prevout.n.toNat).isSome = true := by
  rw [haveInput, accessCoins, utxo]
  cases view.coins txin.prevout.hash with
  | none => simp
  | some coins => simp [isAvailable, CCoins.coin]

/-- A record has coins of its own exactly when it is not pruned. -/
theorem vacant_iff_pruned (view : FlatView) (hash : Uint256) :
    Ledger.Vacant view.utxo hash ↔ ∀ coins, view.coins hash = some coins → coins.isPruned = true := by
  constructor
  · intro vacant coins present
    rw [isPruned_iff]
    intro n
    have none_here := vacant n
    rw [utxo, present, Option.bind_some, CCoins.coin, Option.map_eq_none_iff] at none_here
    exact none_here
  · intro pruned n
    rw [utxo]
    cases present : view.coins hash with
    | none => rfl
    | some coins =>
        rw [Option.bind_some, CCoins.coin, (isPruned_iff coins).mp (pruned coins present) n]
        rfl

end FlatView

end RoiCoin
