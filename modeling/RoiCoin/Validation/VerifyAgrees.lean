import RoiCoin.Validation.StartUp

/-! Start-up verification against run time: when the blocks that `VerifyDB` connects again get the
input values they got from `ConnectTip`. -/

namespace RoiCoin

open ArithUint256 Checked FlatView CVerifyDB

/-- The index entries of a chain of nodes. -/
def chainOf (nodes : List Node) : List CBlockIndex := nodes.map fun node => node.tip.pindex

/-- The blocks that level 4 connects again, each with the node it was connected to at first. -/
def reconnectedLinks (env : Environment) (disk : Disk) (machine : Machine) (node : Node)
    (before : List Node) (coinsview : FlatView) (nCheckLevel nCheckDepth : Int) :
    List (Node × Node) :=
  match verifyDown env disk machine node.tip.pindex (chainOf before) coinsview nCheckLevel
      nCheckDepth with
  | .ok (some walk) =>
      if 4 ≤ clampLevel nCheckLevel then linksAbove (standsOn walk) (node :: before) else []
  | _ => []

/-- `VerifyDB` of a process that has just been started agrees with the run that connected the
chain: no block is found unconnectable, and the calls of `ConnectBlock` give every input the value
it got at first. -/
structure StartUpAgrees (env : Environment) (disk : Disk) (machine : Machine) (adjustedTime : Int)
    (node : Node) (before : List Node) (coinsview : FlatView) (nCheckLevel nCheckDepth : Int) :
    Prop where
  connectable : ∀ pindex failure, verifyDB (env.moved 0 adjustedTime) disk machine
    (chainOf (node :: before)) coinsview nCheckLevel nCheckDepth ≠
      .error (.unconnectable pindex failure)
  values : (connectCalls (env.moved 0 adjustedTime) disk machine node.tip.pindex (chainOf before)
      coinsview nCheckLevel nCheckDepth).map (ConnectCall.values (env.moved 0 adjustedTime)) =
    (reconnectedLinks (env.moved 0 adjustedTime) disk machine node before coinsview nCheckLevel
      nCheckDepth).map (firstValues env)

/-- A coin spent at a height where the rates before and after the fork are not mixed up: the height
is not above the fork, or the coin is from before it, or both rates give the coin one value. -/
def RatesAgree (env : Environment) (nHeight : Int) (coin : Coin) : Prop :=
  nHeight ≤ fork1Height ∨ coin.nHeight < fork1Height ∨
    coin.worth (env.at 0) nHeight = coin.worth (env.at fork1Height) nHeight

/-- No coin that the block finds in the view is one the rates are mixed up for. -/
def LinkRatesAgree (env : Environment) (link : Node × Node) : Prop :=
  ∀ tx ∈ link.1.tip.block.vtx, ∀ txin ∈ tx.spentInputs, ∀ coin,
    link.2.pcoinsTip.utxo txin.prevout.hash txin.prevout.n.toNat = some coin →
      RatesAgree env link.1.height coin

/-! ## Rates -/

theorem worth_congr (env : Environment) (c t c' t' nHeight : Int) (coin : Coin)
    (same : belowFork1 coin.nHeight = true ∨ belowFork1 c = belowFork1 c') :
    coin.worth (env.moved c t) nHeight = coin.worth (env.moved c' t') nHeight := by
  rw [Coin.worth, Coin.worth, CTxOut.getValueWithInterest, CTxOut.getValueWithInterest]
  cases getTermDepositReleaseBlock coin.txout.scriptPubKey with
  | error fault => rfl
  | ok maturationBlock => exact getInterest_congr env.pow c c' _ _ _ _ same

/-- The chain height zero of a fresh process values a coin as the height below the block did exactly
when the rates are not mixed up. -/
theorem worth_restarted (env : Environment) (t nHeight : Int) (coin : Coin) (lower : 0 ≤ nHeight)
    (mined : 1 ≤ coin.nHeight) :
    coin.worth (env.at nHeight) (nHeight + 1) = coin.worth (env.moved 0 t) (nHeight + 1) ↔
      RatesAgree env (nHeight + 1) coin := by
  have fork : fork1Height = 25000 := rfl
  have zero : belowFork1 0 = true := rfl
  have past : belowFork1 fork1Height = false := rfl
  by_cases early : coin.nHeight < fork1Height
  · have below : belowFork1 coin.nHeight = true := by
      rw [belowFork1, Bool.and_eq_true, decide_eq_true_eq, decide_eq_true_eq]
      omega
    have same := worth_congr env nHeight env.adjustedTime 0 t (nHeight + 1) coin (.inl below)
    exact ⟨fun _ => .inr (.inl early), fun _ => same⟩
  · by_cases reached : fork1Height ≤ nHeight
    · have above : belowFork1 nHeight = false := by
        rw [belowFork1, Bool.and_eq_false_iff, decide_eq_false_iff_not, decide_eq_false_iff_not]
        omega
      have first : coin.worth (env.at nHeight) (nHeight + 1) =
          coin.worth (env.at fork1Height) (nHeight + 1) :=
        worth_congr env nHeight env.adjustedTime fork1Height env.adjustedTime _ coin
          (.inr (above.trans past.symm))
      have second : coin.worth (env.moved 0 t) (nHeight + 1) =
          coin.worth (env.at 0) (nHeight + 1) :=
        worth_congr env 0 t 0 env.adjustedTime _ coin (.inr rfl)
      rw [first, second, RatesAgree]
      constructor
      · exact fun same => .inr (.inr same.symm)
      · rintro (low | old | same)
        · omega
        · exact absurd old early
        · exact same.symm
    · have below : belowFork1 nHeight = true := by
        rw [belowFork1, Bool.and_eq_true, decide_eq_true_eq, decide_eq_true_eq]
        omega
      have same := worth_congr env nHeight env.adjustedTime 0 t (nHeight + 1) coin
        (.inr (below.trans zero.symm))
      exact ⟨fun _ => .inl (by omega), fun _ => same⟩

theorem linkAlike_iff (env : Environment) (t adjustedTime : Int) (node node' : Node)
    (result : Connected) (link : Link env node node' adjustedTime result)
    (standing : Standing env node) :
    LinkAlike env 0 t (node', node) ↔ LinkRatesAgree env (node', node) := by
  obtain ⟨height, -⟩ := link_height env node node' adjustedTime result link standing
  have worth : ∀ coin, CoinOk coin →
      (coin.worth (env.at node.height) node'.height =
        coin.worth (env.moved 0 t) node'.height ↔ RatesAgree env node'.height coin) := by
    intro coin ok
    rw [height]
    exact worth_restarted env t node.height coin standing.height ok.mined
  constructor
  · intro alike tx member txin input coin present
    exact (worth coin (standing.coins _ _ coin present)).mp
      (alike tx member txin input coin present)
  · intro agree tx member txin input coin present
    exact (worth coin (standing.coins _ _ coin present)).mpr
      (agree tx member txin input coin present)

theorem linksAbove_links (env : Environment) (t : Int) (stop : Node → Bool) (nodes : List Node)
    (grown : Grown env nodes) :
    ∀ link ∈ linksAbove stop nodes, (LinkAlike env 0 t link ↔ LinkRatesAgree env link) := by
  induction grown with
  | genesis node start => simp [linksAbove]
  | connectTip adjustedTime block pindexNew node node' before grown next connected ih =>
      obtain ⟨result, link⟩ :=
        connectTip_link env adjustedTime block pindexNew node node' next connected
      have standing := grown_standing env _ grown node List.mem_cons_self
      rw [linksAbove]
      split
      · simp
      · rw [List.forall_mem_append, List.forall_mem_singleton]
        exact ⟨ih, linkAlike_iff env t adjustedTime node node' result link standing⟩

/-! ## What the walk can report -/

theorem walkDown_report (env : Environment) (disk : Disk) (machine : Machine)
    (nCheckLevel nLowest : Int) (walk : Walk) (chain : List CBlockIndex) (pindex : CBlockIndex)
    (failure : Failure) : Avoids (VerifyError.unconnectable pindex failure)
      (walkDown env disk machine nCheckLevel nLowest walk chain) := by
  induction chain generalizing walk with
  | nil => exact avoids_ok _ _
  | cons here below ih =>
      rw [walkDown]
      split
      · exact avoids_ok _ _
      · apply avoids_bind
        · rw [checkBlockAt]
          split
          · simp
          · apply avoids_bind _ _ _ (avoids_require _ _ _ (by simp))
            intro _ _
            apply avoids_bind _ _ _ (avoids_require _ _ _ (by simp))
            intro _ _
            rw [disconnect]
            split
            · split <;> simp
            · exact avoids_ok _ _
        · intro walk' _
          split
          · exact avoids_ok _ _
          · exact ih walk'

theorem verifyDown_report (env : Environment) (disk : Disk) (machine : Machine) (tip : CBlockIndex)
    (below : List CBlockIndex) (coinsview : FlatView) (nCheckLevel nCheckDepth : Int)
    (pindex : CBlockIndex) (failure : Failure) : Avoids (VerifyError.unconnectable pindex failure)
      (verifyDown env disk machine tip below coinsview nCheckLevel nCheckDepth) := by
  apply avoids_bind _ _ _ (walkDown_report _ _ _ _ _ _ _ _ _)
  intro walked _
  cases walked with
  | none => exact avoids_ok _ _
  | some walk =>
      dsimp only
      split <;> simp

/-- What is left to go wrong on the way up when every block can be read. -/
theorem reconnect_report (env : Environment) (disk : Disk) (coins : FlatView)
    (chain : List CBlockIndex) (readable : ∀ pindex ∈ chain, disk.readBlock pindex ≠ none) :
    (∃ coins', reconnect env disk coins chain = .ok coins') ∨
      ∃ pindex failure, reconnect env disk coins chain = .error (.unconnectable pindex failure) := by
  induction chain generalizing coins with
  | nil => exact .inl ⟨coins, rfl⟩
  | cons pindex chain ih =>
      rw [List.forall_mem_cons] at readable
      obtain ⟨block, read⟩ := Option.ne_none_iff_exists'.mp readable.1
      rw [reconnect, read]
      dsimp only
      cases connectBlock env block pindex coins false with
      | error failure => exact .inr ⟨pindex, failure, rfl⟩
      | ok connected => exact ih connected.view readable.2

theorem verifyDown_some (env : Environment) (disk : Disk) (machine : Machine) (tip : CBlockIndex)
    (below : List CBlockIndex) (coinsview : FlatView) (nCheckLevel nCheckDepth : Int) (walk : Walk)
    (walked : verifyDown env disk machine tip below coinsview nCheckLevel nCheckDepth =
      .ok (some walk)) :
    walkDown env disk machine (clampLevel nCheckLevel)
      (tip.nHeight - clampDepth tip.nHeight nCheckDepth) ⟨coinsview, tip.phashBlock, none, 0⟩
      (tip :: below) = .ok (some walk) := by
  rw [verifyDown, bind_ok] at walked
  obtain ⟨result, ran, passed⟩ := walked
  cases result with
  | none => cases passed
  | some reached =>
      dsimp only at passed
      split at passed
      · cases passed
        exact ran
      · cases passed

/-! ## The whole check -/

/-- The check from a walk that has come to its end. -/
theorem walked_agrees (env : Environment) (disk : Disk) (t : Int) (node : Node)
    (before : List Node) (walk : Walk) (chain : List CBlockIndex) (grown : Grown env (node :: before))
    (undamaged : Undamaged disk (node :: before)) (same : chain = indicesAbove walk (node :: before))
    (stands : ∃ top last bottom, node :: before = top ++ last :: bottom ∧
      Stands (env.moved 0 t) top last walk) :
    ((∀ pindex failure, reconnect (env.moved 0 t) disk walk.coins chain ≠
          .error (.unconnectable pindex failure)) ∧
        (reconnectCalls (env.moved 0 t) disk walk.coins chain).map
            (ConnectCall.values (env.moved 0 t)) =
          (linksAbove (standsOn walk) (node :: before)).map (firstValues env)) ↔
      ∀ link ∈ linksAbove (standsOn walk) (node :: before), LinkRatesAgree env link := by
  obtain ⟨top, last, bottom, split, here⟩ := stands
  have links := linksAbove_links env t (standsOn walk) (node :: before) grown
  have readable : ∀ pindex ∈ chain, disk.readBlock pindex ≠ none := by
    intro pindex member
    rw [same, indicesAbove, List.mem_reverse] at member
    obtain ⟨other, among, rfl⟩ := List.mem_map.mp ((List.takeWhile_sublist _).subset member)
    rw [undamaged.blocks other among]
    simp
  have grown' := grown
  have undamaged' := undamaged
  rw [split] at grown' undamaged'
  obtain ⟨up, down⟩ := reconnect_above env 0 t disk top bottom last walk grown' undamaged' here
  rw [← split, ← same] at up down
  constructor
  · rintro ⟨connectable, values⟩ link member
    rcases reconnect_report (env.moved 0 t) disk walk.coins chain readable with
      ⟨coins, reached⟩ | ⟨pindex, failure, failed⟩
    · exact (links link member).mp ((down coins reached).2 values link member)
    · exact absurd failed (connectable pindex failure)
  · intro agree
    obtain ⟨coins, reached, values⟩ := up fun link member => (links link member).mpr (agree link member)
    refine ⟨?_, values⟩
    intro pindex failure failed
    rw [reached] at failed
    cases failed

/-- What `VerifyDB` returns once the walk is over. -/
theorem verifyDB_walked (env : Environment) (disk : Disk) (machine : Machine) (tip : CBlockIndex)
    (below : List CBlockIndex) (coinsview : FlatView) (nCheckLevel nCheckDepth : Int)
    (higher : tip.pprev ≠ none) :
    verifyDB env disk machine (tip :: below) coinsview nCheckLevel nCheckDepth =
      match verifyDown env disk machine tip below coinsview nCheckLevel nCheckDepth with
      | .error report => .error report
      | .ok none => .ok ()
      | .ok (some walk) =>
          (fun _ => ()) <$>
            reconnect env disk walk.coins (toReconnect nCheckLevel (tip :: below) walk) := by
  rw [verifyDB.eq_def]
  dsimp only
  rw [if_neg higher]
  cases verifyDown env disk machine tip below coinsview nCheckLevel nCheckDepth with
  | error report => rfl
  | ok walked =>
      cases walked with
      | none => rfl
      | some walk =>
          simp only [bind, Except.bind]
          cases reconnect env disk walk.coins (toReconnect nCheckLevel (tip :: below) walk) <;> rfl

theorem verifyDown_first (env : Environment) (disk : Disk) (machine : Machine) (tip : CBlockIndex)
    (below : List CBlockIndex) (coinsview : FlatView) (nCheckLevel nCheckDepth : Int)
    (first : tip.pprev = none) :
    verifyDown env disk machine tip below coinsview nCheckLevel nCheckDepth =
      .ok (some ⟨coinsview, tip.phashBlock, none, 0⟩) := by
  rw [verifyDown, walkDown, if_pos (.inl first)]
  rfl

/-- A walk that stands on the tip leaves nothing to connect again. -/
theorem indicesAbove_tip (node : Node) (before : List Node) (walk : Walk)
    (state : walk.pindexState = node.tip.pindex.phashBlock) :
    indicesAbove walk (node :: before) = [] ∧
      linksAbove (standsOn walk) (node :: before) = [] := by
  have here : standsOn walk node = true := by
    rw [standsOn, state]
    simp
  exact ⟨indicesAbove_stop walk node before here, linksAbove_stop _ node before here⟩

/-- How a check can end: no block is connected again, or level 4 goes back up from a walk that stands
on a node of the chain. -/
theorem start_up_cases (env : Environment) (disk : Disk) (machine : Machine) (t : Int)
    (node : Node) (before : List Node) (coinsview : FlatView) (nCheckLevel nCheckDepth : Int)
    (grown : Grown env (node :: before)) (undamaged : Undamaged disk (node :: before))
    (saved : Mirrors node.pcoinsTip coinsview) :
    ((∀ pindex failure, verifyDB (env.moved 0 t) disk machine (chainOf (node :: before)) coinsview
          nCheckLevel nCheckDepth ≠ .error (.unconnectable pindex failure)) ∧
        connectCalls (env.moved 0 t) disk machine node.tip.pindex (chainOf before) coinsview
          nCheckLevel nCheckDepth = [] ∧
        reconnectedLinks (env.moved 0 t) disk machine node before coinsview nCheckLevel
          nCheckDepth = []) ∨
      ∃ walk,
        (∃ top last bottom, node :: before = top ++ last :: bottom ∧
          Stands (env.moved 0 t) top last walk) ∧
        verifyDB (env.moved 0 t) disk machine (chainOf (node :: before)) coinsview nCheckLevel
            nCheckDepth =
          (fun _ => ()) <$>
            reconnect (env.moved 0 t) disk walk.coins (indicesAbove walk (node :: before)) ∧
        connectCalls (env.moved 0 t) disk machine node.tip.pindex (chainOf before) coinsview
            nCheckLevel nCheckDepth =
          reconnectCalls (env.moved 0 t) disk walk.coins (indicesAbove walk (node :: before)) ∧
        reconnectedLinks (env.moved 0 t) disk machine node before coinsview nCheckLevel
            nCheckDepth = linksAbove (standsOn walk) (node :: before) := by
  have chain : chainOf (node :: before) = node.tip.pindex :: chainOf before := rfl
  rw [chain, connectCalls, reconnectedLinks]
  by_cases first : node.tip.pindex.pprev = none
  · -- only the genesis block: nothing is checked
    left
    obtain ⟨indices, links⟩ := indicesAbove_tip node before
      ⟨coinsview, node.tip.pindex.phashBlock, none, 0⟩ rfl
    have again : toReconnect nCheckLevel (node.tip.pindex :: chainOf before)
        ⟨coinsview, node.tip.pindex.phashBlock, none, 0⟩ = [] := by
      rw [toReconnect]
      split
      · exact indices
      · rfl
    rw [verifyDB.eq_def, verifyDown_first _ disk machine _ _ coinsview nCheckLevel nCheckDepth
      first]
    dsimp only
    rw [if_pos first, again, links, ite_self]
    exact ⟨by simp, rfl, rfl⟩
  · have report := verifyDown_report (env.moved 0 t) disk machine node.tip.pindex
      (chainOf before) coinsview nCheckLevel nCheckDepth
    rw [verifyDB_walked _ disk machine node.tip.pindex _ coinsview nCheckLevel nCheckDepth first]
    cases walked : verifyDown (env.moved 0 t) disk machine node.tip.pindex (chainOf before)
        coinsview nCheckLevel nCheckDepth with
    | error fault =>
        left
        rw [walked] at report
        simp only [avoids_error] at report
        refine ⟨?_, rfl, rfl⟩
        intro pindex failure
        rw [ne_eq, Except.error.injEq]
        exact report pindex failure
    | ok result =>
        cases result with
        | none => exact .inl ⟨by simp, rfl, rfl⟩
        | some walk =>
            dsimp only
            by_cases level : 4 ≤ clampLevel nCheckLevel
            · right
              have stands := walkDown_stands env 0 t disk machine (clampLevel nCheckLevel)
                (node.tip.pindex.nHeight - clampDepth node.tip.pindex.nHeight nCheckDepth)
                (node :: before) grown undamaged
                ⟨coinsview, node.tip.pindex.phashBlock, none, 0⟩ walk
                (by
                  intro tip head
                  cases head
                  exact ⟨rfl, saved, rfl, by simp⟩)
                (verifyDown_some _ disk machine node.tip.pindex (chainOf before) coinsview
                  nCheckLevel nCheckDepth walk walked)
              rw [toReconnect, if_pos level, if_pos level]
              exact ⟨walk, stands, rfl, rfl, rfl⟩
            · left
              rw [toReconnect, if_neg level, if_neg level]
              exact ⟨by simp [reconnect], rfl, rfl⟩

/-- When the start-up check agrees, the rates agree for every block connected again. -/
theorem start_up_only_if (env : Environment) (disk : Disk) (machine : Machine) (adjustedTime : Int)
    (node : Node) (before : List Node) (coinsview : FlatView) (nCheckLevel nCheckDepth : Int)
    (grown : Grown env (node :: before)) (undamaged : Undamaged disk (node :: before))
    (saved : Mirrors node.pcoinsTip coinsview)
    (agrees : StartUpAgrees env disk machine adjustedTime node before coinsview nCheckLevel
      nCheckDepth) :
    ∀ link ∈ reconnectedLinks (env.moved 0 adjustedTime) disk machine node before coinsview
      nCheckLevel nCheckDepth, LinkRatesAgree env link := by
  obtain ⟨connectable, values⟩ := agrees
  rcases start_up_cases env disk machine adjustedTime node before coinsview nCheckLevel nCheckDepth
    grown undamaged saved with ⟨-, -, links⟩ | ⟨walk, stands, returned, calls, links⟩
  · rw [links]
    simp
  · rw [calls, links] at values
    rw [links]
    apply (walked_agrees env disk adjustedTime node before walk _ grown undamaged rfl stands).mp
    refine ⟨?_, values⟩
    intro pindex failure failed
    apply connectable pindex failure
    rw [returned, failed]
    rfl

def hashAt (n : Nat) : Uint256 := if n = 0 then mainHashGenesisBlock else BitVec.ofNat 256 n

def emptyCoinbase : CTransaction := ⟨1, [⟨⟨0, -1⟩, [1, 1], -1⟩], [⟨0, [opReturn]⟩], 0⟩

def payingCoinbase : CTransaction := ⟨2, [⟨⟨0, -1⟩, [1, 1], -1⟩], [⟨100 * coin, []⟩], 0⟩

def laterSpend : CTransaction := ⟨1, [⟨⟨9, 0⟩, [], 0⟩], [⟨100 * coin, []⟩], 0⟩

def vtxAt (n : Nat) : List CTransaction :=
  if n = 25360 then [emptyCoinbase, laterSpend]
  else if n = 25000 then [payingCoinbase] else [emptyCoinbase]

def merkleAt (n : Nat) : Uint256 := if n = 25360 then 15 else if n = 25000 then 9 else 7

def headerAt (n : Nat) : CBlockHeader :=
  ⟨1, hashAt (n - 1), merkleAt n, 0, 0x2000ffff, BitVec.ofNat 32 n, 0, 0⟩

def blockAt (n : Nat) : CBlock := ⟨headerAt n, vtxAt n⟩

def indexAt (n : Nat) : CBlockIndex :=
  .ofHeader (headerAt n) (some (hashAt n)) (some (hashAt (n - 1))) n

/-- The post-fork product, over the integers. -/
def exactPow (amount periods : Int) : Int :=
  amount * 10000005975 ^ periods.toNat / 10000000000 ^ periods.toNat

def longEnvironment : Environment :=
  { plainEnvironment with
    getHash := fun tx => if tx.isCoinBase then (if tx.nVersion = 2 then 9 else 7) else 8
    blockHash := fun header => if header.hashPrevBlock = 0 then mainHashGenesisBlock
      else BitVec.ofNat 256 header.nNonce.toNat
    pow := exactPow
    mapBlockIndex := fun hash => if hash = mainHashGenesisBlock then some genesisIndex
      else some (indexAt hash.toNat) }

/-- The view after block `n`, for `n` below 25360. -/
def viewAt (n : Nat) : FlatView where
  coins hash := if hash = 9 ∧ 25000 ≤ n then
    some ⟨true, [some ⟨100 * coin, []⟩], 25000, 2⟩ else none
  hashBlock := hashAt n

def nodeAt : Nat → Node
  | 0 => ⟨⟨⟨genesisHeader, []⟩, genesisIndex, none⟩, [], viewAt 0, .empty⟩
  | n + 1 =>
      ⟨⟨blockAt (n + 1), indexAt (n + 1), some []⟩, (nodeAt n).tip :: (nodeAt n).below,
        viewAt (n + 1), .empty⟩

def nodesAt : Nat → List Node
  | 0 => [nodeAt 0]
  | n + 1 => nodeAt (n + 1) :: nodesAt n

theorem nodeAt_fields (n : Nat) : (nodeAt n).pcoinsTip = viewAt n ∧
    (nodeAt n).tip.pindex.phashBlock = some (hashAt n) ∧ (nodeAt n).height = n ∧
    (nodeAt n).mempool = .empty := by
  cases n with
  | zero => exact ⟨rfl, rfl, rfl, rfl⟩
  | succ n => exact ⟨rfl, rfl, rfl, rfl⟩

theorem hashAt_later (n : Nat) (later : n ≠ 0) (small : n < 2 ^ 20) :
    hashAt n ≠ mainHashGenesisBlock ∧ hashAt n ≠ 0 ∧ (hashAt n).toNat = n := by
  have large : 2 ^ 20 ≤ mainHashGenesisBlock.toNat := by decide
  have value : (hashAt n).toNat = n := by
    rw [hashAt, if_neg later, BitVec.toNat_ofNat]
    exact Nat.mod_eq_of_lt (by omega)
  refine ⟨?_, ?_, value⟩
  · intro same
    rw [same] at value
    omega
  · intro same
    rw [same] at value
    exact later value.symm

theorem hashAt_nonzero (n : Nat) (small : n < 2 ^ 20) : hashAt n ≠ 0 := by
  by_cases first : n = 0
  · rw [first]
    decide
  · exact (hashAt_later n first small).2.1

theorem blockHash_at (n : Nat) (later : n ≠ 0) (small : n < 2 ^ 20) :
    longEnvironment.blockHash (headerAt n) = hashAt n := by
  have previous := hashAt_nonzero (n - 1) (by omega)
  have own : hashAt n = BitVec.ofNat 256 n := by rw [hashAt, if_neg later]
  simp only [longEnvironment, headerAt, if_neg previous]
  rw [own, BitVec.toNat_ofNat, Nat.mod_eq_of_lt (by omega)]

/-- The header of every block passes: its hash is far below the target. -/
theorem header_at (n : Nat) (later : n ≠ 0) (small : n < 2 ^ 20) :
    checkBlockHeader longEnvironment.blockHash 0 mainParams (headerAt n) true = .ok () := by
  have target : (2 ^ 20 : Nat) ≤ (setCompact 0x2000ffff).target.toNat := by decide
  have shape : ((setCompact 0x2000ffff).fNegative || (setCompact 0x2000ffff).target == 0 ||
      (setCompact 0x2000ffff).fOverflow || decide ((setCompact 0x2000ffff).target >
        activePowLimit mainParams fullForkVersionMax 1)) = false := by decide
  have low : ¬ hashAt n > (setCompact 0x2000ffff).target := by
    rw [gt_iff_lt, BitVec.lt_def, (hashAt_later n later small).2.2]
    omega
  simp only [checkBlockHeader, then_ok, require_ok]
  have bits : (headerAt n).nBits = 0x2000ffff ∧ (headerAt n).nVersion = 1 ∧
      (headerAt n).getBlockTime = 0 := ⟨rfl, rfl, rfl⟩
  rw [bits.1, bits.2.1, bits.2.2, blockHash_at n later small, checkProofOfWork, shape]
  simp only [low]
  decide

/-- The checks of a block do not change with the header, as long as its own checks pass. -/
theorem checkBlock_header (env : Environment) (header header' : CBlockHeader)
    (vtx : List CTransaction) (root : header'.hashMerkleRoot = header.hashMerkleRoot)
    (own : checkBlockHeader env.blockHash env.adjustedTime env.params header' true = .ok ())
    (passed : checkBlock env ⟨header, vtx⟩ true true = .ok ()) :
    checkBlock env ⟨header', vtx⟩ true true = .ok () := by
  simp only [checkBlock, checkMerkleRoot, then_ok, require_ok, root] at passed ⊢
  exact ⟨own, passed.2⟩

theorem block_at (n : Nat) (later : n ≠ 0) (below : n < 25360) :
    checkBlock longEnvironment (blockAt n) true true = .ok () := by
  have own := header_at n later (by omega)
  have notLast : n ≠ 25360 := by omega
  by_cases paying : n = 25000
  · rw [paying]
    decide
  · have vtx : vtxAt n = vtxAt 1 := by rw [vtxAt, if_neg notLast, if_neg paying]; rfl
    have root : (headerAt n).hashMerkleRoot = (headerAt 1).hashMerkleRoot := by
      change merkleAt n = merkleAt 1
      rw [merkleAt, if_neg notLast, if_neg paying]
      rfl
    rw [blockAt, vtx]
    exact checkBlock_header longEnvironment (headerAt 1) (headerAt n) (vtxAt 1) root own
      (by decide)

theorem connectTxs_coinbase (env : Environment) (context : BlockContext) (view : FlatView)
    (tx : CTransaction) (special : tx.isCoinBase = true)
    (few : 0 + getLegacySigOpCount tx ≤ maxBlockSigOps) :
    connectTxs env context 0 ⟨view, 0, 0, [], []⟩ [tx] =
      .ok ⟨addOutputs env context.nHeight view tx, 0, 0 + getLegacySigOpCount tx, [], []⟩ := by
  simp only [connectTxs, bind_ok, connectTx, require_ok, pure_ok, connectInputs, special, if_true,
    updateCoins, spentInputs_coinbase tx special, spendInputs, Prod.exists]
  exact ⟨_, ⟨(), few, _, rfl, _, _, ⟨_, _, rfl, rfl⟩, rfl⟩, rfl⟩

theorem flatView_ext (first second : FlatView) (coins : ∀ hash, first.coins hash = second.coins hash)
    (best : first.hashBlock = second.hashBlock) : first = second := by
  rcases first with ⟨firstCoins, firstBest⟩
  rcases second with ⟨secondCoins, secondBest⟩
  have coins : firstCoins = secondCoins := funext coins
  have best : firstBest = secondBest := best
  rw [coins, best]

/-- The only transaction of a block below 25360. -/
def coinbaseAt (n : Nat) : CTransaction := if n = 25000 then payingCoinbase else emptyCoinbase

theorem vtxAt_coinbase (n : Nat) (below : n < 25360) : vtxAt n = [coinbaseAt n] := by
  rw [vtxAt, if_neg (by omega), coinbaseAt]
  split <;> rfl

theorem coinbaseAt_id (n : Nat) :
    longEnvironment.getHash (coinbaseAt n) = if n = 25000 then 9 else 7 := by
  rw [coinbaseAt]
  split <;> rfl

theorem coins_addOutputs (env : Environment) (nHeight : Int) (view : FlatView)
    (tx : CTransaction) (hash : Uint256) :
    (addOutputs env nHeight view tx).coins hash =
      if hash = env.getHash tx then (CCoins.fromTx tx nHeight).cleanup.live
      else view.coins hash := by
  rw [addOutputs]
  split
  · rename_i own
    rw [own, coins_modify_self]
  · rename_i other
    exact coins_modify_other view _ hash _ other

/-- What the coinbase of a block below 25360 adds to the view. -/
theorem coinbaseAt_coins (n : Nat) :
    (CCoins.fromTx (coinbaseAt n) n).cleanup.live =
      if n = 25000 then some ⟨true, [some ⟨100 * coin, []⟩], 25000, 2⟩ else none := by
  rw [coinbaseAt]
  split
  · rename_i paying
    rw [paying]
    decide
  · exact CCoins.live_pruned _ rfl

theorem viewAt_next (n : Nat) (c t : Int) :
    (addOutputs (longEnvironment.moved c t) (n + 1 : Nat) (viewAt n)
      (coinbaseAt (n + 1))).setBestBlock (hashAt (n + 1)) = viewAt (n + 1) := by
  apply flatView_ext
  · intro hash
    have id : (longEnvironment.moved c t).getHash (coinbaseAt (n + 1)) = _ :=
      coinbaseAt_id (n + 1)
    rw [FlatView.setBestBlock]
    dsimp only
    rw [coins_addOutputs, id, coinbaseAt_coins, viewAt, viewAt]
    dsimp only
    by_cases paying : n + 1 = 25000
    · have before : ¬ 25000 ≤ n := by omega
      have reached : 25000 ≤ n + 1 := by omega
      simp only [if_pos paying, before, reached, and_true, and_false, if_false]
    · have same : 25000 ≤ n + 1 ↔ 25000 ≤ n := by omega
      simp only [if_neg paying, same]
      by_cases own : hash = 7
      · simp only [own, if_true]
        rfl
      · rw [if_neg own]
  · rfl

theorem connect_at (n : Nat) (below : n + 1 < 25360) :
    ∃ reward, connectBlock (longEnvironment.moved n 0) (blockAt (n + 1)) (indexAt (n + 1))
      (viewAt n) false = .ok ⟨viewAt (n + 1), some [], reward⟩ := by
  have later : n + 1 ≠ 0 := Nat.succ_ne_zero n
  obtain ⟨other, -, -⟩ := hashAt_later (n + 1) later (by omega)
  have checked := block_at (n + 1) later below
  have special : (coinbaseAt (n + 1)).isCoinBase = true := by
    rw [coinbaseAt]
    split <;> rfl
  have few : 0 + getLegacySigOpCount (coinbaseAt (n + 1)) ≤ maxBlockSigOps := by
    rw [coinbaseAt]
    split <;> decide
  have regular : (longEnvironment.moved n 0).blockHash (blockAt (n + 1)).header ≠
      (longEnvironment.moved n 0).params.hashGenesisBlock := by
    change longEnvironment.blockHash (headerAt (n + 1)) ≠ mainHashGenesisBlock
    rw [blockHash_at (n + 1) later (by omega)]
    exact other
  have vtx : (blockAt (n + 1)).vtx = [coinbaseAt (n + 1)] := vtxAt_coinbase (n + 1) below
  have free : (viewAt n).coins (longEnvironment.getHash (coinbaseAt (n + 1))) = none := by
    rw [coinbaseAt_id, viewAt]
    dsimp only
    split
    · rw [if_neg (by omega)]
    · rfl
  have bip30 : checkBIP30 (longEnvironment.moved n 0) (indexAt (n + 1)) (viewAt n)
      [coinbaseAt (n + 1)] = .ok () := by
    rw [checkBIP30]
    split
    · rw [each_ok, List.forall_mem_singleton, require_ok]
      intro coins present
      have absent : (viewAt n).accessCoins
          ((longEnvironment.moved n 0).getHash (coinbaseAt (n + 1))) = none := free
      rw [absent] at present
      cases present
    · rfl
  have ran := connectTxs_coinbase (longEnvironment.moved n 0)
    (blockContext (longEnvironment.moved n 0) (blockAt (n + 1)) (indexAt (n + 1))) (viewAt n)
    (coinbaseAt (n + 1)) special few
  refine ⟨wrap64 (0 + getBlockSubsidy (indexAt (n + 1)).nHeight + 1000), ?_⟩
  rw [connectBlock, if_neg regular, ← viewAt_next n n 0]
  simp only [connectTransactions, bind_ok, require_ok, vtx]
  exact ⟨(), checked, (), rfl, (), bip30, _, ran, (), by simp, rfl⟩

theorem indexAt_known (n : Nat) (later : n ≠ 0) (small : n < 2 ^ 20) :
    longEnvironment.mapBlockIndex (hashAt n) = some (indexAt n) := by
  obtain ⟨other, -, value⟩ := hashAt_later n later small
  simp only [longEnvironment, if_neg other, value]

theorem next_at (n : Nat) (below : n + 1 ≤ 25360) :
    NextBlock longEnvironment (blockAt (n + 1)) (indexAt (n + 1)) := by
  have later : n + 1 ≠ 0 := Nat.succ_ne_zero n
  obtain ⟨other, -, -⟩ := hashAt_later (n + 1) later (by omega)
  refine ⟨⟨?_, ⟨hashAt (n + 1), rfl, indexAt_known (n + 1) later (by omega)⟩, ?_⟩, ?_, ?_, ?_, ?_⟩
  · change longEnvironment.blockHash (headerAt (n + 1)) ≠ mainHashGenesisBlock
    rw [blockHash_at (n + 1) later (by omega)]
    exact other
  · intro hash previous
    have previous : hashAt n = hash := Option.some.inj previous
    by_cases first : n = 0
    · refine ⟨genesisIndex, ?_, ?_⟩
      · rw [← previous, first]
        rfl
      · rw [first]
        rfl
    · refine ⟨indexAt n, ?_, ?_⟩
      · rw [← previous]
        exact indexAt_known n first (by omega)
      · exact Int.natCast_succ n
  · have named : (indexAt (n + 1)).phashBlock = some (hashAt (n + 1)) := rfl
    rw [enforceBIP30, named]
    simp only [beq_eq_false_iff_ne.mpr other, Bool.and_false, Bool.not_false]
  · change ((n + 1 : Nat) : Int) < 2 ^ 31
    omega
  · change ∀ tx ∈ vtxAt (n + 1), tx.nVersion < 2 ^ 31
    rw [vtxAt]
    split
    · decide
    · split <;> decide
  · change ∀ first ∈ vtxAt (n + 1), ∀ second ∈ vtxAt (n + 1),
      longEnvironment.getHash first = longEnvironment.getHash second → first = second
    rw [vtxAt]
    split
    · decide
    · split <;> decide

theorem grown_at (n : Nat) (below : n < 25360) : Grown longEnvironment (nodesAt n) := by
  induction n with
  | zero =>
      refine .genesis (nodeAt 0) ⟨rfl, ⟨mainHashGenesisBlock, rfl, rfl⟩, rfl, rfl, rfl, ?_⟩
      intro id m
      rw [(nodeAt_fields 0).1, FlatView.utxo, viewAt]
      simp
  | succ n ih =>
      have grown := ih (by omega)
      obtain ⟨before, shape⟩ : ∃ before, nodesAt n = nodeAt n :: before := by
        cases n with
        | zero => exact ⟨_, rfl⟩
        | succ n => exact ⟨_, rfl⟩
      obtain ⟨reward, connected⟩ := connect_at n below
      obtain ⟨view, hash, height, mempool⟩ := nodeAt_fields n
      have environment : (nodeAt n).environment (longEnvironment.moved 0 0) =
          longEnvironment.moved n 0 := by
        rw [Node.environment, height]
        rfl
      rw [nodesAt, shape]
      rw [shape] at grown
      refine .connectTip 0 (blockAt (n + 1)) (indexAt (n + 1)) (nodeAt n) (nodeAt (n + 1)) before
        grown (next_at n (by omega)) ?_
      simp only [Node.connectTip, bind_ok, require_ok, pure_ok, environment, view, mempool, hash]
      refine ⟨(), rfl, _, connected, ?_⟩
      rw [nodeAt]
      have pool : CTxMemPool.empty.removeForBlock (longEnvironment.moved 0 0).getHash
          (blockAt (n + 1)).vtx = .empty := by
        change CTxMemPool.empty.removeForBlock longEnvironment.getHash (vtxAt (n + 1)) = .empty
        rw [vtxAt_coinbase (n + 1) below, coinbaseAt]
        split <;> rfl
      rw [pool]
      rfl

theorem nodesAt_cons (n : Nat) : ∃ before, nodesAt n = nodeAt n :: before := by
  cases n with
  | zero => exact ⟨_, rfl⟩
  | succ n => exact ⟨_, rfl⟩

theorem mem_nodesAt (n : Nat) : ∀ node ∈ nodesAt n, ∃ m, m ≤ n ∧ node = nodeAt m := by
  induction n with
  | zero =>
      rw [nodesAt, List.forall_mem_singleton]
      exact ⟨0, Nat.le_refl 0, rfl⟩
  | succ n ih =>
      rw [nodesAt, List.forall_mem_cons]
      refine ⟨⟨n + 1, Nat.le_refl _, rfl⟩, ?_⟩
      intro node member
      obtain ⟨m, least, same⟩ := ih node member
      exact ⟨m, by omega, same⟩

def lastAttempt : Checking Connected :=
  connectBlock (longEnvironment.moved 25359 0) (blockAt 25360) (indexAt 25360) (viewAt 25359) false

/-- What connecting block 25360 returns. -/
def lastConnected : Connected := lastAttempt.toOption.getD ⟨viewAt 0, none, 0⟩

theorem ok_of_toBool {α : Type} (result : Checking α) (fallback : α)
    (succeeds : result.toBool = true) : result = .ok (result.toOption.getD fallback) := by
  cases result with
  | error failure => cases succeeds
  | ok a => rfl

theorem last_accepted : lastAttempt.toBool = true := by decide +kernel

theorem last_connected : lastAttempt = .ok lastConnected :=
  ok_of_toBool lastAttempt ⟨viewAt 0, none, 0⟩ last_accepted

/-- The files after block 25360. -/
def longDisk : Disk where
  readBlock pindex :=
    if pindex.nHeight = 0 then some ⟨genesisHeader, []⟩ else some (blockAt pindex.nHeight.toNat)
  hasUndoPos _ := true
  readUndo pindex :=
    if pindex.nHeight = 25360 then lastConnected.blockundo.map storedUndo else some []

theorem longDisk_undamaged (n : Nat) (below : n < 25360) : Undamaged longDisk (nodesAt n) := by
  constructor
  · intro node member
    obtain ⟨m, least, rfl⟩ := mem_nodesAt n node member
    cases m with
    | zero => rfl
    | succ m =>
        have height : (nodeAt (m + 1)).tip.pindex.nHeight = (m : Int) + 1 := rfl
        rw [longDisk]
        dsimp only
        rw [height, if_neg (by omega)]
        rfl
  · intro node member blockUndo written
    obtain ⟨m, least, rfl⟩ := mem_nodesAt n node member
    refine ⟨rfl, ?_⟩
    cases m with
    | zero => cases written
    | succ m =>
        cases written
        have height : (nodeAt (m + 1)).tip.pindex.nHeight = (m : Int) + 1 := rfl
        rw [longDisk]
        dsimp only
        rw [height, if_neg (by omega)]

def roomyMachine : Machine := ⟨fun _ => true, fun _ => false⟩

theorem linksAbove_mem (stop : Node → Bool) (nodes : List Node) :
    ∀ link ∈ linksAbove stop nodes, link.1 ∈ nodes := by
  induction nodes with
  | nil => simp [linksAbove]
  | cons node' before ih =>
      cases before with
      | nil => simp [linksAbove]
      | cons node before =>
          rw [linksAbove]
          split
          · simp
          · rw [List.forall_mem_append, List.forall_mem_singleton]
            exact ⟨fun link member => List.mem_cons_of_mem _ (ih link member),
              List.mem_cons_self⟩

theorem reconnectedLinks_mem (env : Environment) (disk : Disk) (machine : Machine) (node : Node)
    (before : List Node) (coinsview : FlatView) (nCheckLevel nCheckDepth : Int) :
    ∀ link ∈ reconnectedLinks env disk machine node before coinsview nCheckLevel nCheckDepth,
      link.1 ∈ node :: before := by
  rw [reconnectedLinks]
  split
  · split
    · exact linksAbove_mem _ _
    · simp
  · simp

/-- No block below 25360 spends anything. -/
theorem nodesAt_spends (n : Nat) (below : n < 25360) :
    ∀ node ∈ nodesAt n, ∀ tx ∈ node.tip.block.vtx, tx.spentInputs = [] := by
  intro node member
  obtain ⟨m, least, rfl⟩ := mem_nodesAt n node member
  cases m with
  | zero => simp [nodeAt]
  | succ m =>
      change ∀ tx ∈ vtxAt (m + 1), tx.spentInputs = []
      rw [vtxAt_coinbase (m + 1) (by omega), List.forall_mem_singleton, coinbaseAt]
      split <;> rfl

def lastNode : Node where
  tip := ⟨blockAt 25360, indexAt 25360, lastConnected.blockundo.map storedUndo⟩
  below := (nodeAt 25359).tip :: (nodeAt 25359).below
  pcoinsTip := lastConnected.view
  mempool := CTxMemPool.empty.removeForBlock longEnvironment.getHash (blockAt 25360).vtx

theorem lastNode_grown : Grown longEnvironment (lastNode :: nodesAt 25359) := by
  obtain ⟨before, shape⟩ := nodesAt_cons 25359
  have grown := grown_at 25359 (by omega)
  obtain ⟨view, hash, height, mempool⟩ := nodeAt_fields 25359
  have environment : (nodeAt 25359).environment (longEnvironment.moved 0 0) =
      longEnvironment.moved 25359 0 := by
    rw [Node.environment, height]
    rfl
  have connected := last_connected
  rw [lastAttempt] at connected
  rw [shape] at grown ⊢
  refine .connectTip 0 (blockAt 25360) (indexAt 25360) (nodeAt 25359) lastNode before grown
    (next_at 25359 (by omega)) ?_
  simp only [Node.connectTip, bind_ok, require_ok, pure_ok, environment, view, mempool, hash]
  exact ⟨(), rfl, lastConnected, connected, rfl⟩

theorem lastNode_undamaged : Undamaged longDisk (lastNode :: nodesAt 25359) := by
  obtain ⟨blocks, undo⟩ := longDisk_undamaged 25359 (by omega)
  refine ⟨List.forall_mem_cons.mpr ⟨rfl, blocks⟩, List.forall_mem_cons.mpr ⟨?_, undo⟩⟩
  intro blockUndo written
  exact ⟨rfl, written⟩

/-- The walk of a check of depth one from block 25360. -/
def lastWalk : Except VerifyError (Option Walk) :=
  verifyDown (longEnvironment.moved 0 0) longDisk roomyMachine (indexAt 25360)
    (chainOf (nodesAt 25359)) lastConnected.view 4 1

theorem lastWalk_left : (match lastWalk with
    | .ok (some walk) => !standsOn walk lastNode
    | _ => false) = true := by
  decide +kernel

theorem lastNode_saved : Mirrors lastNode.pcoinsTip lastConnected.view := by
  have same : lastNode.pcoinsTip = lastConnected.view := by rw [lastNode]
  rw [same]
  exact ⟨restores_refl _, rfl⟩

theorem lastNode_coin : (viewAt 25359).utxo 9 0 = some ⟨⟨100 * coin, []⟩, 25000, true, 2⟩ := by
  decide

theorem lastNode_rates : ¬ RatesAgree longEnvironment 25360 ⟨⟨100 * coin, []⟩, 25000, true, 2⟩ := by
  have worths : Coin.worth (longEnvironment.at 0) 25360 ⟨⟨100 * coin, []⟩, 25000, true, 2⟩ ≠
      Coin.worth (longEnvironment.at fork1Height) 25360 ⟨⟨100 * coin, []⟩, 25000, true, 2⟩ := by
    decide +kernel
  rintro (low | old | same)
  · exact absurd low (by decide)
  · exact absurd old (by decide)
  · exact worths same

end RoiCoin
