import RoiCoin.Wallet.CoinSelection

/-! The coins that `SelectCoinsMinConf` chooses are worth the target, and it finds some whenever the
coins it may choose from are. -/

namespace RoiCoin

open Checked Subsets

theorem amount_ok (n result : Int) : amount n = .ok result ↔ fitsAmount n ∧ result = n := by
  rw [amount]
  split
  · rename_i fits
    simp [fits, eq_comm]
  · rename_i fits
    simp [fits]

theorem amount_of (n : Int) (fits : fitsAmount n) : amount n = .ok n := by
  rw [amount, if_pos fits]

/-! ## Shuffling -/

theorem perm_shuffle {α : Type} (getRandInt : Nat → Nat) (v : Array α) :
    (randomShuffle getRandInt v).toList.Perm v.toList := by
  have steps : ∀ (l : List Nat) (v' : Array α), v'.toList.Perm v.toList →
      (l.foldl (fun v i => v.swapIfInBounds i (getRandInt i % (i + 1))) v').toList.Perm
        v.toList := by
    intro l
    induction l with
    | nil => exact fun v' same => same
    | cons i l ih =>
        intro v' same
        apply ih
        simp only [Array.swapIfInBounds_def]
        split
        · split
          · exact (Array.swap_perm _ _).toList.trans same
          · exact same
        · exact same
  exact steps _ v (List.Perm.refl _)

/-! ## The best subset -/

section Subset

variable (vValue : List Int) (nTargetValue : Int)

/-- A subset with its sum, which reaches the target. -/
structure Reaches (best : Best) : Prop where
  sum : best.nBest = picked best.vfBest vValue
  target : nTargetValue ≤ best.nBest

/-- The sum of a trial is that of the coins included. -/
structure Tracks (t : Trial) : Prop where
  size : t.vfIncluded.length = vValue.length
  total : t.nTotal = picked t.vfIncluded vValue
  best : Reaches vValue nTargetValue t.best

/-- The values are amounts, also all together. -/
structure SumFits : Prop where
  nonneg : ∀ value ∈ vValue, 0 ≤ value
  fits : fitsAmount vValue.sum

theorem SumFits.picked {vValue : List Int} (fits : SumFits vValue) (flags : List Bool) :
    fitsAmount (picked flags vValue) := by
  have least : 0 ≤ Subsets.picked flags vValue :=
    List.sum_nonneg fun value member => fits.nonneg value ((chosen_sublist _ _).subset member)
  have most := picked_le flags vValue fits.nonneg
  exact ⟨by omega, lt_of_le_of_lt most fits.fits.2⟩

/-- A coin that is not included keeps the sum right, and no other flag changes. -/
theorem tryCoin_tracks (fits : SumFits vValue) (i : Nat) (t : Trial)
    (tracks : Tracks vValue nTargetValue t) (unset : t.vfIncluded[i]? = some false) :
    ∃ t', tryCoin vValue nTargetValue i t = .ok t' ∧ Tracks vValue nTargetValue t' ∧
      ∀ j, j ≠ i → t'.vfIncluded[j]? = t.vfIncluded[j]? := by
  obtain ⟨inside, -⟩ := List.getElem?_eq_some_iff.mp unset
  have here : vValue[i]? = some (vValue.getD i 0) := by
    rw [List.getD_eq_getElem?_getD, List.getElem?_eq_getElem (tracks.size ▸ inside),
      Option.getD_some]
  have added := picked_set t.vfIncluded vValue i _ unset here
  have sum : t.nTotal + vValue.getD i 0 = picked (t.vfIncluded.set i true) vValue := by
    rw [added, tracks.total]
  have back : (t.vfIncluded.set i true).set i false = t.vfIncluded := by
    rw [List.set_set]
    apply List.ext_getElem?
    intro j
    rw [List.getElem?_set]
    split
    · rename_i same
      rw [← same, unset]
    · rfl
  have others : ∀ j, j ≠ i → (t.vfIncluded.set i true)[j]? = t.vfIncluded[j]? := by
    intro j other
    rw [List.getElem?_set_ne (Ne.symm other)]
  rw [tryCoin, sum, amount_of _ (fits.picked _)]
  dsimp only [bind, Except.bind]
  by_cases reached : picked (t.vfIncluded.set i true) vValue ≥ nTargetValue
  · rw [if_pos reached, back]
    refine ⟨_, rfl, ⟨tracks.size, ?_, ?_⟩, fun j _ => rfl⟩
    · dsimp only
      omega
    · dsimp only
      split
      · exact ⟨rfl, reached⟩
      · exact tracks.best
  · rw [if_neg reached]
    exact ⟨_, rfl, ⟨by rw [List.length_set]; exact tracks.size, rfl, tracks.best⟩, others⟩

/-- A pass over the coins from `i` on, whose flags are still those of `base`. -/
theorem passFrom_tracks (fits : SumFits vValue) (chooses : Nat → Trial → Bool) (base : List Bool)
    (fresh : ∀ j t, j < vValue.length → t.vfIncluded.length = vValue.length →
      t.vfIncluded[j]? = base[j]? → chooses j t = true → t.vfIncluded[j]? = some false)
    (left i : Nat) (t : Trial) (tracks : Tracks vValue nTargetValue t)
    (whole : i + left = vValue.length) (kept : ∀ j, i ≤ j → t.vfIncluded[j]? = base[j]?) :
    ∃ t', passFrom vValue nTargetValue chooses left i t = .ok t' ∧
      Tracks vValue nTargetValue t' := by
  induction left generalizing i t with
  | zero => exact ⟨t, rfl, tracks⟩
  | succ left ih =>
      rw [passFrom]
      by_cases taken : chooses i t = true
      · obtain ⟨t', tried, tracks', others⟩ := tryCoin_tracks vValue nTargetValue fits i t tracks
          (fresh i t (by omega) tracks.size (kept i le_rfl) taken)
        rw [if_pos taken, tried]
        apply ih (i + 1) t' tracks' (by omega)
        intro j later
        rw [others j (by omega), kept j (by omega)]
      · rw [if_neg taken]
        exact ih (i + 1) t tracks (by omega) fun j later => kept j (by omega)

theorem repetition_reaches (fits : SumFits vValue) (bits : Nat → Bool) (best : Best)
    (reaches : Reaches vValue nTargetValue best) :
    ∃ best', repetition vValue nTargetValue bits best = .ok best' ∧
      Reaches vValue nTargetValue best' := by
  have start : Tracks vValue nTargetValue
      ⟨0, false, List.replicate vValue.length false, best⟩ :=
    ⟨List.length_replicate, (picked_none _ _).symm, reaches⟩
  obtain ⟨t, first, tracks⟩ := passFrom_tracks vValue nTargetValue fits (fun i _ => bits i)
    (List.replicate vValue.length false)
    (fun j t inside _ same _ => by rw [same, List.getElem?_replicate, if_pos inside])
    vValue.length 0 _ start (Nat.zero_add _) fun _ _ => rfl
  obtain ⟨t', second, tracks'⟩ := passFrom_tracks vValue nTargetValue fits
    (fun i t => !t.vfIncluded.getD i false) t.vfIncluded
    (fun j t inside size _ taken => by
      rw [List.getD_eq_getElem?_getD, List.getElem?_eq_getElem (by omega)] at taken
      rw [List.getElem?_eq_getElem (by omega)]
      simpa using taken)
    vValue.length 0 t tracks (Nat.zero_add _) fun _ _ => rfl
  rw [repetition, first]
  by_cases reached : t.fReachedTarget = true
  · exact ⟨t.best, by simp [bind, Except.bind, pure, Except.pure, reached], tracks.best⟩
  · refine ⟨t'.best, ?_, tracks'.best⟩
    simp only [bind, Except.bind, pure, Except.pure, if_neg reached, second]

theorem repetitions_reaches (fits : SumFits vValue) (bits : Nat → Nat → Bool) (left nRep : Nat)
    (best : Best) (reaches : Reaches vValue nTargetValue best) :
    ∃ best', repetitions vValue nTargetValue bits left nRep best = .ok best' ∧
      Reaches vValue nTargetValue best' := by
  induction left generalizing nRep best with
  | zero => exact ⟨best, rfl, reaches⟩
  | succ left ih =>
      rw [repetitions]
      split
      · exact ⟨best, rfl, reaches⟩
      · obtain ⟨next, repeated, reaches'⟩ :=
          repetition_reaches vValue nTargetValue fits (bits nRep) best reaches
        rw [repeated]
        exact ih (nRep + 1) next reaches'

/-- Whatever the bits, the subset returned has the sum returned, and that reaches the target. -/
theorem approximateBestSubset_reaches (fits : SumFits vValue)
    (target : nTargetValue ≤ vValue.sum) (iterations : Nat) (bits : Nat → Nat → Bool) :
    ∃ best, approximateBestSubset vValue nTargetValue vValue.sum iterations bits = .ok best ∧
      Reaches vValue nTargetValue best :=
  repetitions_reaches vValue nTargetValue fits bits iterations 0 _
    ⟨(picked_all vValue).symm, target⟩

end Subset

/-! ## Taking coins -/

/-- Coins with different names are taken in order, with the sum of their values. -/
theorem takeAll_sum (coins : List ValuedCoin) (distinct : (coins.map Prod.snd).Nodup)
    (fits : SumFits (coins.map Prod.fst)) :
    takeAll coins = .ok ⟨true, (coins.map Prod.snd).reverse, (coins.map Prod.fst).sum⟩ := by
  have front : ∀ first last : List ValuedCoin, coins = first ++ last →
      last.foldlM SelectedCoins.take
        ⟨true, (first.map Prod.snd).reverse, (first.map Prod.fst).sum⟩ =
          .ok ⟨true, (coins.map Prod.snd).reverse, (coins.map Prod.fst).sum⟩ := by
    intro first last whole
    induction last generalizing first with
    | nil =>
        rw [List.append_nil] at whole
        rw [whole]
        rfl
    | cons coin last ih =>
        have next := ih (first ++ [coin]) (by rw [whole, List.append_assoc]; rfl)
        have sum : (first.map Prod.fst).sum + coin.1 = ((first ++ [coin]).map Prod.fst).sum := by
          simp
        have part : ((first ++ [coin]).map Prod.fst).Sublist (coins.map Prod.fst) := by
          rw [whole, List.append_cons first coin last]
          exact (List.sublist_append_left _ _).map _
        have least : 0 ≤ ((first ++ [coin]).map Prod.fst).sum :=
          List.sum_nonneg fun value member => fits.nonneg value (part.subset member)
        have most := part.sum_le_sum fits.nonneg
        have inside : fitsAmount ((first ++ [coin]).map Prod.fst).sum :=
          ⟨by omega, lt_of_le_of_lt most fits.fits.2⟩
        have other : coin.2 ∉ (first.map Prod.snd).reverse := by
          rw [whole, List.map_append, List.map_cons] at distinct
          intro member
          exact List.disjoint_of_nodup_append distinct (List.mem_reverse.mp member)
            List.mem_cons_self
        rw [List.foldlM_cons, SelectedCoins.take, sum, amount_of _ inside]
        simp only [List.insert_of_not_mem other]
        rw [List.map_append, List.reverse_append] at next
        exact next
  exact front [] coins rfl

/-! ## Gathering -/

section Gather

variable (w : CWalletStore) (node : NodeView) (nTargetValue nConfMine nConfTheirs : Int)

/-- A coin of an output that may be chosen, with its value. -/
def Offers (vCoins : List COutput) (coin : ValuedCoin) : Prop :=
  ∃ out ∈ vCoins, out.coin = coin.2 ∧
    eligibleValue w node nConfMine nConfTheirs out = .ok (some coin.1)

/-- What an output adds to the coins that may be chosen. -/
def offerWorth (out : COutput) : Int :=
  match eligibleValue w node nConfMine nConfTheirs out with
  | .ok (some n) => n
  | _ => 0

theorem eligibleValue_range (out : COutput) (n : Int)
    (found : eligibleValue w node nConfMine nConfTheirs out = .ok (some n)) :
    0 ≤ n ∧ n ≤ maxMoney := by
  rw [eligibleValue] at found
  split at found
  · cases found
  · rw [bind_ok] at found
    obtain ⟨fromMe, -, found⟩ := found
    by_cases few : out.nDepth < if fromMe = true then nConfMine else nConfTheirs
    · rw [if_pos few] at found
      cases found
    · rw [if_neg few] at found
      simp only [bind_ok, map_ok, Option.some.injEq, exists_eq_right] at found
      obtain ⟨txout, read, value⟩ := found
      rw [CWalletTx.output] at read
      split at read
      · rename_i here
        cases read
        have inside := out.tx.inRange txout (List.mem_of_getElem? here)
        rw [CWalletTx.nextValue, CWalletTx.valueWithInterest, CTxOut.getValueWithInterest] at value
        cases released : getTermDepositReleaseBlock txout.scriptPubKey with
        | error fault =>
            rw [released] at value
            cases value
        | ok release =>
            rw [released] at value
            cases value
            exact (moneyRange_iff _).mp (getInterest_range _ _ _ _ _ _ inside)
      · cases read

/-- What the loop has gathered from the outputs it has seen. -/
structure Collected (seen : List COutput) (g : Gathered) : Prop where
  names : (g.vValue.map Prod.snd).Sublist (seen.map COutput.coin)
  offered : ∀ coin ∈ g.vValue, Offers w node nConfMine nConfTheirs seen coin
  total : g.nTotalLower = (g.vValue.map Prod.fst).sum
  fits : fitsAmount g.nTotalLower
  larger : ∀ coin, g.coinLowestLarger = some coin →
    Offers w node nConfMine nConfTheirs seen (g.lowestLarger, coin) ∧ nTargetValue ≤ g.lowestLarger
  none_larger : g.coinLowestLarger = none →
    g.lowestLarger = 2 ^ 63 - 1 ∧
      (seen.map (offerWorth w node nConfMine nConfTheirs)).sum = g.nTotalLower

/-- A coin of exactly the target, or what has been gathered. -/
def Found (seen : List COutput) : ValuedCoin ⊕ Gathered → Prop
  | .inl coin => coin.1 = nTargetValue ∧ Offers w node nConfMine nConfTheirs seen coin
  | .inr g => Collected w node nTargetValue nConfMine nConfTheirs seen g

theorem Offers.later {w : CWalletStore} {node : NodeView} {nConfMine nConfTheirs : Int}
    {seen : List COutput} {coin : ValuedCoin}
    (offers : Offers w node nConfMine nConfTheirs seen coin)
    (more : List COutput) : Offers w node nConfMine nConfTheirs (seen ++ more) coin := by
  obtain ⟨out, member, name, value⟩ := offers
  exact ⟨out, List.mem_append_left more member, name, value⟩

theorem gather_collects (seen l : List COutput) (g : Gathered)
    (collected : Collected w node nTargetValue nConfMine nConfTheirs seen g)
    (result : ValuedCoin ⊕ Gathered)
    (returned : gather w node nTargetValue nConfMine nConfTheirs l g = .ok result) :
    Found w node nTargetValue nConfMine nConfTheirs (seen ++ l) result := by
  induction l generalizing seen g with
  | nil =>
      cases returned
      rw [List.append_nil]
      exact collected
  | cons out l ih =>
      rw [gather, bind_ok] at returned
      obtain ⟨eligible, found, returned⟩ := returned
      have step : seen ++ out :: l = seen ++ [out] ++ l := List.append_cons seen out l
      have worth_eq : offerWorth w node nConfMine nConfTheirs out = eligible.getD 0 := by
        rw [offerWorth, found]
        cases eligible <;> rfl
      have sums : ((seen ++ [out]).map (offerWorth w node nConfMine nConfTheirs)).sum =
          (seen.map (offerWorth w node nConfMine nConfTheirs)).sum + eligible.getD 0 := by
        simp [worth_eq]
      have names : (g.vValue.map Prod.snd).Sublist ((seen ++ [out]).map COutput.coin) := by
        rw [List.map_append]
        exact collected.names.trans (List.sublist_append_left _ _)
      rw [step]
      cases eligible with
      | none =>
          refine ih (seen ++ [out]) g ?_ returned
          exact ⟨names, fun coin member => (collected.offered coin member).later _,
            collected.total, collected.fits,
            fun coin some =>
              ⟨(collected.larger coin some).1.later _, (collected.larger coin some).2⟩,
            fun nothing => ⟨(collected.none_larger nothing).1, by
              rw [sums, (collected.none_larger nothing).2]
              exact add_zero _⟩⟩
      | some n =>
          have range := eligibleValue_range w node nConfMine nConfTheirs out n found
          have own : Offers w node nConfMine nConfTheirs (seen ++ [out]) (n, out.coin) :=
            ⟨out, by simp, rfl, found⟩
          dsimp only at returned
          split at returned
          · rename_i exact_target
            cases returned
            exact ⟨exact_target, own.later l⟩
          · rw [bind_ok] at returned
            obtain ⟨limit, raised, returned⟩ := returned
            obtain ⟨-, rfl⟩ := (amount_ok _ _).mp raised
            split at returned
            · rw [bind_ok] at returned
              obtain ⟨total, added, returned⟩ := returned
              obtain ⟨inside, rfl⟩ := (amount_ok _ _).mp added
              refine ih (seen ++ [out]) _ ?_ returned
              refine ⟨?_, ?_, ?_, inside, ?_, ?_⟩
              · simpa using collected.names.append (List.Sublist.refl [out.coin])
              · intro coin member
                rcases List.mem_append.mp member with before | new
                · exact (collected.offered coin before).later _
                · rw [List.mem_singleton.mp new]
                  exact own
              · simp [collected.total]
              · exact fun coin some =>
                  ⟨(collected.larger coin some).1.later _, (collected.larger coin some).2⟩
              · intro nothing
                have before := collected.none_larger nothing
                exact ⟨before.1, by rw [sums, before.2]; rfl⟩
            · rename_i large
              have beyond : nTargetValue ≤ n := by
                have positive : cent = 1000000 := rfl
                omega
              split at returned
              · refine ih (seen ++ [out]) _ ?_ returned
                refine ⟨names, fun coin member => (collected.offered coin member).later _,
                  collected.total, collected.fits, ?_, ?_⟩
                · intro coin same
                  cases same
                  exact ⟨own, beyond⟩
                · intro nothing
                  cases nothing
              · rename_i higher
                refine ih (seen ++ [out]) g ?_ returned
                refine ⟨names, fun coin member => (collected.offered coin member).later _,
                  collected.total, collected.fits,
                  fun coin some =>
                    ⟨(collected.larger coin some).1.later _, (collected.larger coin some).2⟩, ?_⟩
                intro nothing
                have sentinel := (collected.none_larger nothing).1
                have most : maxMoney = 600000000000000000 := rfl
                omega

theorem offerWorth_range (out : COutput) : 0 ≤ offerWorth w node nConfMine nConfTheirs out := by
  rw [offerWorth]
  split
  · rename_i n found
    exact (eligibleValue_range w node nConfMine nConfTheirs out n found).1
  · exact le_rfl

theorem offerWorths_nonneg (l : List COutput) :
    0 ≤ (l.map (offerWorth w node nConfMine nConfTheirs)).sum := by
  apply List.sum_nonneg
  intro value member
  obtain ⟨out, -, rfl⟩ := List.mem_map.mp member
  exact offerWorth_range w node nConfMine nConfTheirs out

/-- The loop ends with a result unless a sum leaves `CAmount`. -/
theorem gather_ends (l : List COutput) (g : Gathered) (least : 0 ≤ g.nTotalLower)
    (read : ∀ out ∈ l, ∃ value, eligibleValue w node nConfMine nConfTheirs out = .ok value) :
    (∃ result, gather w node nTargetValue nConfMine nConfTheirs l g = .ok result) ∨
      gather w node nTargetValue nConfMine nConfTheirs l g = .error .overflow ∧
        ¬ (fitsAmount (nTargetValue + cent) ∧
          fitsAmount (g.nTotalLower + (l.map (offerWorth w node nConfMine nConfTheirs)).sum)) := by
  induction l generalizing g with
  | nil => exact .inl ⟨.inr g, rfl⟩
  | cons out l ih =>
      rw [List.forall_mem_cons] at read
      obtain ⟨⟨eligible, found⟩, rest⟩ := read
      have own := offerWorth_range w node nConfMine nConfTheirs out
      have others := offerWorths_nonneg w node nConfMine nConfTheirs l
      rw [gather, found, List.map_cons, List.sum_cons]
      have skipped : ∀ g' : Gathered, g'.nTotalLower = g.nTotalLower →
          (∃ result, gather w node nTargetValue nConfMine nConfTheirs l g' = .ok result) ∨
            gather w node nTargetValue nConfMine nConfTheirs l g' = .error .overflow ∧
              ¬ (fitsAmount (nTargetValue + cent) ∧
                fitsAmount (g.nTotalLower + (offerWorth w node nConfMine nConfTheirs out +
                  (l.map (offerWorth w node nConfMine nConfTheirs)).sum))) := by
        intro g' same
        rcases ih g' (by omega) rest with done | ⟨stopped, large⟩
        · exact .inl done
        · refine .inr ⟨stopped, fun fits => large ⟨fits.1, ?_⟩⟩
          rw [same]
          exact ⟨by omega, by have := fits.2.2; omega⟩
      cases eligible with
      | none => exact skipped g rfl
      | some n =>
          have value : offerWorth w node nConfMine nConfTheirs out = n := by rw [offerWorth, found]
          simp only [bind, Except.bind]
          split
          · exact .inl ⟨_, rfl⟩
          · rw [amount]
            by_cases raised : fitsAmount (nTargetValue + cent)
            · rw [if_pos raised]
              dsimp only
              split
              · rw [amount]
                by_cases inside : fitsAmount (g.nTotalLower + n)
                · rw [if_pos inside]
                  dsimp only
                  rcases ih { g with
                    vValue := g.vValue ++ [(n, out.coin)], nTotalLower := g.nTotalLower + n }
                    (by dsimp only; omega) rest with done | ⟨stopped, large⟩
                  · exact .inl done
                  · refine .inr ⟨stopped, fun fits => large ⟨fits.1, ?_⟩⟩
                    dsimp only
                    rw [add_assoc, ← value]
                    exact fits.2
                · rw [if_neg inside]
                  refine .inr ⟨rfl, fun fits => inside ⟨by omega, ?_⟩⟩
                  have := fits.2.2
                  omega
              · split
                · exact skipped _ rfl
                · exact skipped g rfl
            · rw [if_neg raised]
              exact .inr ⟨rfl, fun fits => raised fits.1⟩

/-! ## Choosing -/

/-- The coins are different ones that may be chosen, and their values reach the target. -/
def Pays (vCoins : List COutput) (s : SelectedCoins) : Prop :=
  ∃ coins : List ValuedCoin, s.setCoinsRet = coins.map Prod.snd ∧ s.setCoinsRet.Nodup ∧
    (∀ coin ∈ coins, Offers w node nConfMine nConfTheirs vCoins coin) ∧
    s.nValueRet = (coins.map Prod.fst).sum ∧ nTargetValue ≤ s.nValueRet

theorem bestSubset_reaches (vValue : List ValuedCoin) (fits : SumFits (vValue.map Prod.fst))
    (target : nTargetValue ≤ (vValue.map Prod.fst).sum) (bits : Nat → Nat → Nat → Bool) :
    (∃ best, bestSubset nTargetValue vValue (vValue.map Prod.fst).sum bits = .ok best ∧
      Reaches (vValue.map Prod.fst) nTargetValue best) ∨
    bestSubset nTargetValue vValue (vValue.map Prod.fst).sum bits = .error .overflow ∧
      ¬ fitsAmount (nTargetValue + cent) := by
  obtain ⟨best, found, reaches⟩ :=
    approximateBestSubset_reaches _ nTargetValue fits target 1000 (bits 0)
  rw [bestSubset, found]
  simp only [bind, Except.bind]
  split
  · rw [amount]
    by_cases raised : fitsAmount (nTargetValue + cent)
    · rw [if_pos raised]
      dsimp only
      split
      · rename_i more
        obtain ⟨best', found', reaches'⟩ :=
          approximateBestSubset_reaches _ (nTargetValue + cent) fits more 1000 (bits 1)
        have positive : cent = 1000000 := rfl
        have higher := reaches'.target
        exact .inl ⟨best', found', reaches'.sum, by omega⟩
      · exact .inl ⟨best, rfl, reaches⟩
    · rw [if_neg raised]
      exact .inr ⟨rfl, raised⟩
  · exact .inl ⟨best, rfl, reaches⟩

theorem largerIsBetter_cases (g : Gathered) (best : Best) :
    (∃ better, largerIsBetter nTargetValue g best = .ok better ∧
      (better = true → ∃ coin, g.coinLowestLarger = some coin)) ∨
    largerIsBetter nTargetValue g best = .error .overflow ∧
      ¬ fitsAmount (nTargetValue + cent) := by
  rw [largerIsBetter]
  cases larger : g.coinLowestLarger with
  | none => exact .inl ⟨false, rfl, fun contra => by cases contra⟩
  | some coin =>
      simp only [Option.isNone_some, Bool.false_eq_true, if_false]
      split
      · exact .inl ⟨_, rfl, fun _ => ⟨coin, rfl⟩⟩
      · rw [amount]
        by_cases raised : fitsAmount (nTargetValue + cent)
        · rw [if_pos raised]
          exact .inl ⟨_, rfl, fun _ => ⟨coin, rfl⟩⟩
        · rw [if_neg raised]
          exact .inr ⟨rfl, raised⟩

variable {w node nTargetValue nConfMine nConfTheirs}

theorem Collected.fit {seen : List COutput} {g : Gathered}
    (collected : Collected w node nTargetValue nConfMine nConfTheirs seen g)
    (sorted : List ValuedCoin) (same : sorted.Perm g.vValue) :
    SumFits (sorted.map Prod.fst) ∧ (sorted.map Prod.fst).sum = g.nTotalLower := by
  have sum : (sorted.map Prod.fst).sum = g.nTotalLower := by
    rw [collected.total]
    exact (same.map Prod.fst).sum_eq
  refine ⟨⟨?_, by rw [sum]; exact collected.fits⟩, sum⟩
  intro value member
  obtain ⟨coin, inside, rfl⟩ := List.mem_map.mp member
  obtain ⟨out, -, -, found⟩ := collected.offered coin (same.subset inside)
  exact (eligibleValue_range w node nConfMine nConfTheirs out _ found).1

/-- A part of the gathered coins that reaches the target pays. -/
theorem Collected.pays {seen : List COutput} {g : Gathered}
    (collected : Collected w node nTargetValue nConfMine nConfTheirs seen g)
    (distinct : (seen.map COutput.coin).Nodup) (sorted coins : List ValuedCoin)
    (same : sorted.Perm g.vValue) (part : coins.Sublist sorted)
    (target : nTargetValue ≤ (coins.map Prod.fst).sum) :
    ∃ s, takeAll coins = .ok s ∧ s.enough = true ∧
      Pays w node nTargetValue nConfMine nConfTheirs seen s := by
  obtain ⟨whole, -⟩ := collected.fit sorted same
  have names : (coins.map Prod.snd).Nodup :=
    (part.map Prod.snd).nodup ((same.map Prod.snd).nodup_iff.mpr
      (collected.names.nodup distinct))
  have nonneg : ∀ value ∈ coins.map Prod.fst, 0 ≤ value :=
    fun value member => whole.nonneg value ((part.map Prod.fst).subset member)
  have least := List.sum_nonneg nonneg
  have most := (part.map Prod.fst).sum_le_sum whole.nonneg
  have fits : SumFits (coins.map Prod.fst) :=
    ⟨nonneg, by omega, lt_of_le_of_lt most whole.fits.2⟩
  refine ⟨_, takeAll_sum coins names fits, rfl, coins.reverse, ?_, ?_, ?_, ?_, target⟩
  · rw [List.map_reverse]
  · exact List.nodup_reverse.mpr names
  · intro coin member
    exact collected.offered coin (same.subset (part.subset (List.mem_reverse.mp member)))
  · rw [List.map_reverse, List.sum_reverse]

/-- So does one coin that reaches the target alone. -/
theorem Offers.pays {vCoins : List COutput} {coin : ValuedCoin}
    (offers : Offers w node nConfMine nConfTheirs vCoins coin) (target : nTargetValue ≤ coin.1) :
    ∃ s, takeOne coin.1 coin.2 = .ok s ∧ s.enough = true ∧
      Pays w node nTargetValue nConfMine nConfTheirs vCoins s := by
  obtain ⟨out, -, -, found⟩ := id offers
  have range := eligibleValue_range w node nConfMine nConfTheirs out _ found
  have most : maxMoney = 600000000000000000 := rfl
  have fits : fitsAmount (0 + coin.1) := ⟨by omega, by omega⟩
  refine ⟨⟨true, [coin.2], 0 + coin.1⟩, ?_, rfl, [coin], rfl, List.nodup_singleton _, ?_, ?_, ?_⟩
  · rw [takeOne, SelectedCoins.take, amount_of _ fits]
    rfl
  · intro other member
    rw [List.mem_singleton.mp member]
    exact offers
  · simp
  · dsimp only
    omega

/-- What follows the loop: coins that pay, or none when all that may be chosen is too little. -/
theorem Collected.settles {seen : List COutput} {g : Gathered}
    (collected : Collected w node nTargetValue nConfMine nConfTheirs seen g)
    (distinct : (seen.map COutput.coin).Nodup) (bits : Nat → Nat → Nat → Bool) :
    (∃ s, settle nTargetValue g bits = .ok s ∧ s.enough = true ∧
        Pays w node nTargetValue nConfMine nConfTheirs seen s) ∨
      (settle nTargetValue g bits = .ok ⟨false, [], 0⟩ ∧
        (seen.map (offerWorth w node nConfMine nConfTheirs)).sum < nTargetValue) ∨
      settle nTargetValue g bits = .error .overflow ∧ ¬ fitsAmount (nTargetValue + cent) := by
  have larger : ∀ coin, g.coinLowestLarger = some coin → ∃ s,
      takeOne g.lowestLarger coin = .ok s ∧ s.enough = true ∧
        Pays w node nTargetValue nConfMine nConfTheirs seen s :=
    fun coin there => (collected.larger coin there).1.pays (collected.larger coin there).2
  rw [settle]
  split
  · rename_i equal
    left
    apply collected.pays distinct g.vValue g.vValue (List.Perm.refl _) (List.Sublist.refl _)
    rw [← collected.total, equal]
  · split
    · cases there : g.coinLowestLarger with
      | none =>
          right
          left
          exact ⟨rfl, by rw [(collected.none_larger there).2]; assumption⟩
      | some coin => exact .inl (larger coin there)
    · rename_i different enough
      have same : (sortedDown g.vValue).Perm g.vValue := List.perm_insertionSort _ _
      obtain ⟨fits, sum⟩ := collected.fit (sortedDown g.vValue) same
      have reached : nTargetValue ≤ ((sortedDown g.vValue).map Prod.fst).sum := by omega
      rcases bestSubset_reaches nTargetValue (sortedDown g.vValue) fits reached bits with
        ⟨best, found, reaches⟩ | ⟨stopped, large⟩
      · rw [sum] at found
        dsimp only
        rw [found]
        simp only [bind, Except.bind]
        have subset := collected.pays distinct (sortedDown g.vValue)
          (chosen best.vfBest (sortedDown g.vValue)) same (chosen_sublist _ _) (by
            rw [← picked_map, ← reaches.sum]
            exact reaches.target)
        rcases largerIsBetter_cases nTargetValue g best with
          ⟨better, decided, has⟩ | ⟨stopped, large⟩
        · rw [decided]
          dsimp only
          cases better with
          | true =>
              obtain ⟨coin, there⟩ := has rfl
              rw [there]
              exact .inl (larger coin there)
          | false => exact .inl subset
        · rw [stopped]
          exact .inr (.inr ⟨rfl, large⟩)
      · rw [sum] at stopped
        dsimp only
        rw [stopped]
        exact .inr (.inr ⟨rfl, large⟩)

theorem Offers.among {l vCoins : List COutput} {coin : ValuedCoin} (same : l.Perm vCoins)
    (offers : Offers w node nConfMine nConfTheirs l coin) :
    Offers w node nConfMine nConfTheirs vCoins coin := by
  obtain ⟨out, member, found⟩ := offers
  exact ⟨out, same.subset member, found⟩

theorem Pays.among {l vCoins : List COutput} {s : SelectedCoins} (same : l.Perm vCoins)
    (pays : Pays w node nTargetValue nConfMine nConfTheirs l s) :
    Pays w node nTargetValue nConfMine nConfTheirs vCoins s := by
  obtain ⟨coins, set, distinct, offered, rest⟩ := pays
  exact ⟨coins, set, distinct, fun coin member => (offered coin member).among same, rest⟩

variable (w node nTargetValue nConfMine nConfTheirs)

theorem collected_nothing :
    Collected w node nTargetValue nConfMine nConfTheirs [] ⟨[], 0, 2 ^ 63 - 1, none⟩ where
  names := List.Sublist.refl _
  offered := fun _ member => absurd member List.not_mem_nil
  total := rfl
  fits := by decide
  larger := fun _ there => by cases there
  none_larger := fun _ => ⟨rfl, rfl⟩

/-- A run that returns has paid, or all the coins together are too little. -/
theorem selectCoinsMinConf_returns (vCoins : List COutput)
    (distinct : (vCoins.map COutput.coin).Nodup) (getRandInt : Nat → Nat)
    (bits : Nat → Nat → Nat → Bool) (s : SelectedCoins)
    (returned : selectCoinsMinConf w node nTargetValue nConfMine nConfTheirs getRandInt bits
      vCoins = .ok s) :
    s.enough = true ∧ Pays w node nTargetValue nConfMine nConfTheirs vCoins s ∨
      s.enough = false ∧
        (vCoins.map (offerWorth w node nConfMine nConfTheirs)).sum < nTargetValue := by
  have same : (randomShuffle getRandInt vCoins.toArray).toList.Perm vCoins :=
    perm_shuffle getRandInt vCoins.toArray
  have shuffled := ((same.map COutput.coin).nodup_iff).mpr distinct
  rw [selectCoinsMinConf, bind_ok] at returned
  obtain ⟨result, gathered, returned⟩ := returned
  have found := gather_collects w node nTargetValue nConfMine nConfTheirs [] _ _
    (collected_nothing w node nTargetValue nConfMine nConfTheirs) result gathered
  rw [List.nil_append] at found
  cases result with
  | inl coin =>
      obtain ⟨s', taken, enough, pays⟩ := found.2.pays (le_of_eq found.1.symm)
      dsimp only at returned
      rw [taken] at returned
      cases returned
      exact .inl ⟨enough, pays.among same⟩
  | inr g =>
      dsimp only at returned
      rcases Collected.settles found shuffled bits with
        ⟨s', settled, enough, pays⟩ | ⟨settled, few⟩ | ⟨stopped, -⟩
      · rw [settled] at returned
        cases returned
        exact .inl ⟨enough, pays.among same⟩
      · rw [settled] at returned
        cases returned
        refine .inr ⟨rfl, ?_⟩
        rwa [← (same.map (offerWorth w node nConfMine nConfTheirs)).sum_eq]
      · rw [stopped] at returned
        cases returned

/-- With the values of all the outputs known, only a sum that leaves `CAmount` stops it. -/
theorem selectCoinsMinConf_ends (vCoins : List COutput)
    (distinct : (vCoins.map COutput.coin).Nodup) (getRandInt : Nat → Nat)
    (bits : Nat → Nat → Nat → Bool)
    (read : ∀ out ∈ vCoins, ∃ value, eligibleValue w node nConfMine nConfTheirs out = .ok value) :
    (∃ s, selectCoinsMinConf w node nTargetValue nConfMine nConfTheirs getRandInt bits vCoins =
      .ok s) ∨
    selectCoinsMinConf w node nTargetValue nConfMine nConfTheirs getRandInt bits vCoins =
        .error .overflow ∧
      ¬ (fitsAmount (nTargetValue + cent) ∧
        fitsAmount (vCoins.map (offerWorth w node nConfMine nConfTheirs)).sum) := by
  have same : (randomShuffle getRandInt vCoins.toArray).toList.Perm vCoins :=
    perm_shuffle getRandInt vCoins.toArray
  have shuffled := ((same.map COutput.coin).nodup_iff).mpr distinct
  have total := (same.map (offerWorth w node nConfMine nConfTheirs)).sum_eq
  rw [selectCoinsMinConf]
  rcases gather_ends w node nTargetValue nConfMine nConfTheirs _ ⟨[], 0, 2 ^ 63 - 1, none⟩ le_rfl
    (fun out member => read out (same.subset member)) with ⟨result, gathered⟩ | ⟨stopped, large⟩
  · have found := gather_collects w node nTargetValue nConfMine nConfTheirs [] _ _
      (collected_nothing w node nTargetValue nConfMine nConfTheirs) result gathered
    rw [List.nil_append] at found
    rw [gathered]
    simp only [bind, Except.bind]
    cases result with
    | inl coin =>
        obtain ⟨s, taken, -, -⟩ := found.2.pays (le_of_eq found.1.symm)
        exact .inl ⟨s, taken⟩
    | inr g =>
        rcases Collected.settles found shuffled bits with
          ⟨s, settled, -, -⟩ | ⟨settled, -⟩ | ⟨stopped, large⟩
        · exact .inl ⟨s, settled⟩
        · exact .inl ⟨_, settled⟩
        · exact .inr ⟨stopped, fun fits => large fits.1⟩
  · rw [stopped]
    refine .inr ⟨rfl, fun fits => large ⟨fits.1, ?_⟩⟩
    rw [total, zero_add]
    exact fits.2

theorem mapM_values (l : List COutput) (values : List (Option Int))
    (counted : l.mapM (eligibleValue w node nConfMine nConfTheirs) = .ok values) :
    (∀ out ∈ l, ∃ value, eligibleValue w node nConfMine nConfTheirs out = .ok value) ∧
      (l.map (offerWorth w node nConfMine nConfTheirs)).sum =
        (values.map fun value => value.getD 0).sum := by
  induction l generalizing values with
  | nil =>
      cases counted
      exact ⟨fun _ member => absurd member List.not_mem_nil, rfl⟩
  | cons out l ih =>
      simp only [List.mapM_cons, bind_ok, pure_ok] at counted
      obtain ⟨value, found, rest, others, rfl⟩ := counted
      obtain ⟨read, sum⟩ := ih rest others
      refine ⟨List.forall_mem_cons.mpr ⟨⟨value, found⟩, read⟩, ?_⟩
      have own : offerWorth w node nConfMine nConfTheirs out = value.getD 0 := by
        rw [offerWorth, found]
        cases value <;> rfl
      rw [List.map_cons, List.sum_cons, List.map_cons, List.sum_cons, own, sum]

end Gather

/-- A wallet without keys or transactions of its own. -/
def emptyWallet : CWalletStore where
  mapWallet := []
  mapTxSpends := []
  setLockedCoins := []
  keystore := ⟨fun _ => false, fun _ => false, []⟩
  hash160 := fun _ => 0
  fDatacarrier := true
  nMaxDatacarrierBytes := 40
  bSpendZeroConfChange := true
  distinct := List.nodup_nil
  keyed := fun _ member => absurd member List.not_mem_nil

/-- A node at height 100 that has every transaction in its memory pool. -/
def quietNode : NodeView where
  pow := fun _ _ => 0
  hash256 := fun _ => []
  height := 100
  adjustedTime := 0
  mapBlockIndex := fun _ => none
  mempoolExists := fun _ => true

/-- Outputs of 3, 5 and 7 to anyone. -/
def threeOutputs : CWalletTx where
  tx := ⟨1, [], [⟨3, [op1]⟩, ⟨5, [op1]⟩, ⟨7, [op1]⟩], 0⟩
  hash := 1
  hashBlock := 0
  vMerkleBranch := []
  nIndex := -1
  fMerkleVerified := false
  inRange := by decide

end RoiCoin
