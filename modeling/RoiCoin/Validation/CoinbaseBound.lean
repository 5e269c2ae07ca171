import RoiCoin.Validation.ConnectBlock

/-! What the coinbase of an accepted block may pay.

`ConnectBlock` computes `blockReward` and never compares it with the coinbase. -/

namespace RoiCoin

open Checked FlatView

/-- The fees as `ConnectBlock` values them: the inputs of each transaction in the view that the
transactions before it have left. -/
def feesAlong (env : Environment) (nHeight : Int) : FlatView → List CTransaction → Int
  | _, [] => 0
  | view, tx :: vtx =>
      txFee env nHeight view.utxo tx +
        match updateCoins env nHeight view tx with
        | .ok (_, view) => feesAlong env nHeight view vtx
        | .error _ => 0

/-- The fees read off the block and the coins before it: an input is worth the output of the last
transaction `past` it in the block with that id, else the coin before the block. -/
def blockFees (env : Environment) (nHeight : Int) (coins : Ledger.Coins Uint256 Coin) :
    List CTransaction → List CTransaction → Int
  | _, [] => 0
  | past, tx :: vtx =>
      txFee env nHeight (Ledger.lookup coins (past.map (ledgerEntry env.getHash nHeight))) tx +
        blockFees env nHeight coins (tx :: past) vtx

theorem inputsWorth_congr (env : Environment) (nHeight : Int)
    (first second : Ledger.Coins Uint256 Coin) (vin : List CTxIn)
    (same : ∀ txin ∈ vin, first txin.prevout.hash txin.prevout.n.toNat =
      second txin.prevout.hash txin.prevout.n.toNat) :
    inputsWorth env nHeight first vin = inputsWorth env nHeight second vin := by
  apply congrArg List.sum
  apply List.map_congr_left
  intro txin member
  rw [inputWorth, inputWorth, same txin member]

/-- Spending inside the block does not change what an input is worth. -/
theorem txFee_lookup (env : Environment) (nHeight nSpendHeight : Int)
    (coins : Ledger.Coins Uint256 Coin) (past : List (Ledger.Entry Uint256 Coin))
    (tx : CTransaction)
    (spends : tx.isCoinBase = false →
      InputsOk env nSpendHeight (Ledger.state coins past) tx) :
    txFee env nHeight (Ledger.state coins past) tx =
      txFee env nHeight (Ledger.lookup coins past) tx := by
  rw [txFee, txFee]
  cases special : tx.isCoinBase with
  | true => rfl
  | false =>
      rw [if_neg Bool.false_ne_true, if_neg Bool.false_ne_true]
      apply congrArg (· - tx.outputs)
      apply inputsWorth_congr
      intro txin member
      obtain ⟨coin, present, -⟩ := (spends special).spends txin member
      rw [present, Ledger.state_lookup coins past _ _ coin present]

theorem connectTxs_fees (env : Environment) (context : BlockContext)
    (coins : Ledger.Coins Uint256 Coin) (vtx : List CTransaction) (past : List CTransaction)
    (i : Nat) (st st' : Connecting) (checked : ∀ tx ∈ vtx, CheckedTransaction tx)
    (reached : st.view.utxo =
      Ledger.state coins (past.map (ledgerEntry env.getHash context.nHeight)))
    (connected : connectTxs env context i st vtx = .ok st') :
    feesAlong env context.nHeight st.view vtx = blockFees env context.nHeight coins past vtx ∧
      wrap64 st'.nFees = wrap64 (st.nFees + feesAlong env context.nHeight st.view vtx) := by
  induction vtx generalizing past i st with
  | nil =>
      cases connected
      exact ⟨rfl, by rw [feesAlong, Int.add_zero]⟩
  | cons tx vtx ih =>
      rw [connectTxs, bind_ok] at connected
      obtain ⟨middle, first, others⟩ := connected
      rw [List.forall_mem_cons] at checked
      obtain ⟨txundo, step⟩ := connectTx_ok env context i st middle tx checked.1 first
      have after := (utxo_updateCoins env _ st.view middle.view tx txundo step.updated).1
      rw [reached] at after
      obtain ⟨fees, total⟩ := ih (tx :: past) (i + 1) middle checked.2 after others
      have along : feesAlong env context.nHeight st.view (tx :: vtx) =
          txFee env context.nHeight st.view.utxo tx +
            feesAlong env context.nHeight middle.view vtx := by
        rw [feesAlong, step.updated]
      have valued : txFee env context.nHeight st.view.utxo tx =
          txFee env context.nHeight
            (Ledger.lookup coins (past.map (ledgerEntry env.getHash context.nHeight))) tx := by
        cases special : tx.isCoinBase with
        | true => simp only [txFee, special, if_true]
        | false =>
            obtain ⟨nSpendHeight, -, spends⟩ := step.spends special
            rw [reached] at spends ⊢
            exact txFee_lookup env context.nHeight nSpendHeight coins _ tx fun _ => spends
      constructor
      · rw [along, valued, fees, blockFees]
      · calc
          wrap64 st'.nFees =
              wrap64 (middle.nFees + feesAlong env context.nHeight middle.view vtx) := total
          _ = wrap64 (st.nFees + txFee env context.nHeight st.view.utxo tx +
                feesAlong env context.nHeight middle.view vtx) :=
              wrap64_add_congr _ _ _ step.fees
          _ = wrap64 (st.nFees + feesAlong env context.nHeight st.view (tx :: vtx)) := by
              rw [along, Int.add_assoc]

/-- A first block whose coinbase pays out `MAX_MONEY`. -/
def overpayingBlock : CBlock := ⟨firstHeader 7, [coinbasePaying maxMoney]⟩

end RoiCoin
