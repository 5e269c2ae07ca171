import RoiCoin.Validation.VerifyDB

/-! Chains grown from the genesis block by `ConnectTip`, and the check of their last blocks after a
restart. -/

namespace RoiCoin

open Checked FlatView CVerifyDB

/-! ## Chains -/

/-- The node once the genesis block has been connected: it has added no coins. -/
structure AtGenesis (env : Environment) (node : Node) : Prop where
  below : node.below = []
  indexed : node.tip.Indexed env
  height : node.height = 0
  first : node.tip.pindex.pprev = none
  best : node.tip.pindex.phashBlock = some node.pcoinsTip.hashBlock
  coins : ∀ id n, node.pcoinsTip.utxo id n = none

/-- A block that `ConnectTip` is called with: its entry is in the index, heights and versions are
`int`s, and no two transactions of the block share an id. -/
structure NextBlock (env : Environment) (block : CBlock) (pindexNew : CBlockIndex) : Prop where
  offered : (NodeStep.connectTip block pindexNew).Offered env
  bip30 : enforceBIP30 pindexNew = true
  height : pindexNew.nHeight < 2 ^ 31
  versions : ∀ tx ∈ block.vtx, tx.nVersion < 2 ^ 31
  collisionFree : ∀ first ∈ block.vtx, ∀ second ∈ block.vtx,
    env.getHash first = env.getHash second → first = second

/-- The nodes of a chain connected block by block from the genesis block, the last one first. Every
block is connected at a time of its own. -/
inductive Grown (env : Environment) : List Node → Prop
  | genesis (node : Node) (start : AtGenesis env node) : Grown env [node]
  | connectTip (adjustedTime : Int) (block : CBlock) (pindexNew : CBlockIndex) (node node' : Node)
      (before : List Node) (grown : Grown env (node :: before))
      (next : NextBlock env block pindexNew)
      (connected : node.connectTip (env.moved 0 adjustedTime) block pindexNew = .ok node') :
      Grown env (node' :: node :: before)

/-- A node and the node that `ConnectTip` has made of it. -/
structure Link (env : Environment) (node node' : Node) (adjustedTime : Int)
    (result : Connected) : Prop where
  next : NextBlock env node'.tip.block node'.tip.pindex
  onTip : node'.tip.pindex.pprev = node.tip.pindex.phashBlock
  connected : connectBlock (env.moved node.height adjustedTime) node'.tip.block node'.tip.pindex
    node.pcoinsTip false = .ok result
  undo : node'.tip.blockundo = result.blockundo.map storedUndo
  view : node'.pcoinsTip = result.view

theorem connectTip_link (env : Environment) (adjustedTime : Int) (block : CBlock)
    (pindexNew : CBlockIndex) (node node' : Node) (next : NextBlock env block pindexNew)
    (connected : node.connectTip (env.moved 0 adjustedTime) block pindexNew = .ok node') :
    ∃ result, Link env node node' adjustedTime result := by
  simp only [Node.connectTip, bind_ok, require_ok, pure_ok] at connected
  obtain ⟨_, onTip, result, accepted, rfl⟩ := connected
  exact ⟨result, next, onTip, accepted, rfl, rfl⟩

/-- What holds of every node of a grown chain. -/
structure Standing (env : Environment) (node : Node) : Prop where
  indexed : node.tip.Indexed env
  best : node.tip.pindex.phashBlock = some node.pcoinsTip.hashBlock
  height : 0 ≤ node.height
  coins : CoinsOk node.pcoinsTip.utxo

theorem coinsOk_connectTxs (env : Environment) (context : BlockContext) (i : Nat)
    (vtx : List CTransaction) (st st' : Connecting) (mined : 1 ≤ context.nHeight)
    (height : context.nHeight < 2 ^ 31) (checked : ∀ tx ∈ vtx, CheckedTransaction tx)
    (versions : ∀ tx ∈ vtx, tx.nVersion < 2 ^ 31) (coins : CoinsOk st.view.utxo)
    (connected : connectTxs env context i st vtx = .ok st') : CoinsOk st'.view.utxo := by
  induction vtx generalizing i st with
  | nil =>
      cases connected
      exact coins
  | cons tx vtx ih =>
      rw [connectTxs, bind_ok] at connected
      obtain ⟨middle, first, others⟩ := connected
      rw [List.forall_mem_cons] at checked versions
      obtain ⟨txundo, step⟩ := connectTx_ok env context i st middle tx checked.1 first
      apply ih (i + 1) middle checked.2 versions.2 _ others
      rw [(utxo_updateCoins env _ st.view middle.view tx txundo step.updated).1]
      exact coinsOk_apply _ _ coins
        (createdCoin_ok context.nHeight tx checked.1 mined height versions.1)

/-- The height of a new tip, and the height its inputs are valued at. -/
theorem link_height (env : Environment) (node node' : Node) (adjustedTime : Int)
    (result : Connected) (link : Link env node node' adjustedTime result)
    (standing : Standing env node) :
    node'.height = node.height + 1 ∧
      nextHeight (env.moved node.height adjustedTime) node.pcoinsTip = .ok node'.height := by
  obtain ⟨hash, own, found⟩ := standing.indexed
  obtain ⟨-, -, above⟩ := link.next.offered
  obtain ⟨parent, found', height⟩ := above hash (link.onTip.trans own)
  rw [found, Option.some.injEq] at found'
  have step : node'.height = node.height + 1 := by
    rw [Node.height, height, ← found']
    rfl
  refine ⟨step, ?_⟩
  have best := standing.best
  rw [own, Option.some.injEq] at best
  have here : (env.moved node.height adjustedTime).mapBlockIndex node.pcoinsTip.hashBlock =
      some node.tip.pindex := by
    rw [← best]
    exact found
  rw [nextHeight, here, step]
  rfl

theorem link_standing (env : Environment) (node node' : Node) (adjustedTime : Int)
    (result : Connected) (link : Link env node node' adjustedTime result)
    (standing : Standing env node) : Standing env node' := by
  obtain ⟨height, -⟩ := link_height env node node' adjustedTime result link standing
  have lower := standing.height
  obtain ⟨regular, ⟨hash, own, found⟩, -⟩ := link.next.offered
  obtain ⟨st, passed⟩ := connectBlock_ok (env.moved node.height adjustedTime) _ _ _ _ result
    regular link.connected
  obtain ⟨_, hash', -, own', shape⟩ := finishBlock_view _ _ _ _ passed.finished
  have mined : 1 ≤ node'.height := by omega
  refine ⟨⟨hash, own, found⟩, ?_, by omega, ?_⟩
  · rw [link.view, shape, own']
    rfl
  · rw [link.view, shape, utxo_setBestBlock]
    exact coinsOk_connectTxs _ (blockContext _ node'.tip.block node'.tip.pindex) 0
      node'.tip.block.vtx ⟨node.pcoinsTip, 0, 0, [], []⟩ st mined link.next.height
      passed.checked.checked link.next.versions standing.coins passed.connected

theorem grown_standing (env : Environment) (nodes : List Node) (grown : Grown env nodes) :
    ∀ node ∈ nodes, Standing env node := by
  induction grown with
  | genesis node start =>
      rw [List.forall_mem_singleton]
      have height := start.height
      refine ⟨start.indexed, start.best, by omega, ?_⟩
      intro id n coin present
      rw [start.coins] at present
      cases present
  | connectTip adjustedTime block pindexNew node node' before grown next connected ih =>
      rw [List.forall_mem_cons]
      have lower := ih node List.mem_cons_self
      obtain ⟨result, link⟩ :=
        connectTip_link env adjustedTime block pindexNew node node' next connected
      exact ⟨link_standing env node node' adjustedTime result link lower, ih⟩

/-! ## One block down -/

theorem disconnectTxs_moved (env : Environment) (c t c' t' nHeight : Int) (st : Disconnected)
    (vtx : List (CTransaction × Option CTxUndo)) :
    disconnectTxs (env.moved c t) nHeight st vtx = disconnectTxs (env.moved c' t') nHeight st vtx := by
  induction vtx with
  | nil => rfl
  | cons connected vtx ih =>
      rw [disconnectTxs, disconnectTxs, ih]
      rfl

/-- Disconnecting the tip from coins that were saved gives the coins before it. -/
theorem disconnect_link (env : Environment) (c t adjustedTime : Int) (node node' : Node)
    (result : Connected) (back : FlatView) (link : Link env node node' adjustedTime result)
    (standing : Standing env node) (saved : Mirrors node'.pcoinsTip back) :
    ∃ blockUndo after, node'.tip.blockundo = some blockUndo ∧
      disconnectBlockWith (env.moved c t) node'.tip.block node'.tip.pindex back (.ok blockUndo) =
        .ok after ∧
      after.fClean = true ∧ Mirrors node.pcoinsTip after.view := by
  obtain ⟨height, -⟩ := link_height env node node' adjustedTime result link standing
  have lower := standing.height
  have mined : 1 ≤ node'.tip.pindex.nHeight := by
    rw [Node.height] at height
    omega
  obtain ⟨st, passed⟩ := connectBlock_ok (env.moved node.height adjustedTime) _ _ _ _ result
    link.next.offered.1 link.connected
  obtain ⟨parent, hash, previous, own, shape⟩ := finishBlock_view _ _ _ _ passed.finished
  have describable : Describable (env.moved node.height adjustedTime) node'.tip.block
      node'.tip.pindex node.pcoinsTip :=
    ⟨mined, link.next.height, link.next.versions, standing.coins, link.next.collisionFree⟩
  have coins := saved.coins
  have best := saved.best
  rw [link.view, shape] at coins best
  obtain ⟨-, count, w, ran, clean, restores⟩ := undo_block (env.moved node.height adjustedTime)
    node'.tip.block node'.tip.pindex node.pcoinsTip result st passed link.next.bip30 describable
    back coins
  have onTip := passed.best
  rw [disconnectTxs_moved env _ _ c t] at ran
  refine ⟨storedUndo st.vtxundo, { w with view := w.view.setBestBlock parent }, ?_, ?_, clean,
    restores, ?_⟩
  · rw [link.undo, shape]
    rfl
  · rw [disconnectBlockWith, own]
    simp only [bind_ok, require_ok, pure_ok, Except.ok.injEq, exists_eq_left']
    refine ⟨(), best.symm, (), ?_, w, ran, by rw [previous, Option.getD_some]⟩
    rw [storedUndo, List.length_map]
    exact count
  · rw [previous, Option.getD_some] at onTip
    exact onTip

/-! ## The walk down the chain -/

/-- The disk still gives the blocks and undo data of a chain as they were written. -/
structure Undamaged (disk : Disk) (nodes : List Node) : Prop where
  blocks : ∀ node ∈ nodes, disk.readBlock node.tip.pindex = some node.tip.block
  undo : ∀ node ∈ nodes, ∀ blockUndo, node.tip.blockundo = some blockUndo →
    disk.hasUndoPos node.tip.pindex = true ∧ disk.readUndo node.tip.pindex = some blockUndo

/-- The walk has disconnected the blocks of the nodes `top` and stands on `node`. -/
structure Stands (env : Environment) (top : List Node) (node : Node) (walk : Walk) : Prop where
  state : walk.pindexState = node.tip.pindex.phashBlock
  coins : Mirrors node.pcoinsTip walk.coins
  clean : walk.pindexFailure = none
  checked : ∀ above ∈ top, checkBlock env above.tip.block true true = .ok ()

theorem grown_heights (env : Environment) (nodes : List Node) (grown : Grown env nodes) :
    nodes.Pairwise fun node' node => node.height < node'.height := by
  induction grown with
  | genesis node start => exact List.pairwise_singleton _ node
  | connectTip adjustedTime block pindexNew node node' before grown next connected ih =>
      obtain ⟨result, link⟩ :=
        connectTip_link env adjustedTime block pindexNew node node' next connected
      obtain ⟨height, -⟩ := link_height env node node' adjustedTime result link
        (grown_standing env _ grown node List.mem_cons_self)
      have lower := List.pairwise_cons.mp ih
      rw [List.pairwise_cons, List.forall_mem_cons]
      refine ⟨⟨by omega, ?_⟩, ih⟩
      intro other member
      have below := lower.1 other member
      omega

theorem grown_distinct (env : Environment) (nodes : List Node) (grown : Grown env nodes) :
    nodes.Pairwise fun node' node => node.tip.pindex.phashBlock ≠ node'.tip.pindex.phashBlock := by
  have standing := grown_standing env nodes grown
  apply (grown_heights env nodes grown).imp_of_mem
  intro node' node member' member lower same
  obtain ⟨hash, own, found⟩ := (standing node member).indexed
  obtain ⟨hash', own', found'⟩ := (standing node' member').indexed
  rw [own, own', Option.some.injEq] at same
  rw [same, found', Option.some.injEq] at found
  rw [Node.height, Node.height, found] at lower
  exact Int.lt_irrefl _ lower

theorem toBool_ok {ε : Type} (result : Except ε Unit) (succeeds : result.toBool = true) :
    result = .ok () :=
  (exists_ok result succeeds).elim fun _ same => same

theorem checkBlockAt_still (env : Environment) (disk : Disk) (machine : Machine)
    (nCheckLevel : Int) (walk walk' : Walk) (pindex : CBlockIndex)
    (elsewhere : pindex.phashBlock ≠ walk.pindexState)
    (checked : checkBlockAt env disk machine nCheckLevel walk pindex = .ok walk') :
    walk' = walk := by
  rw [checkBlockAt] at checked
  cases read : disk.readBlock pindex with
  | none =>
      rw [read] at checked
      cases checked
  | some block =>
      rw [read] at checked
      simp only [bind_ok, disconnect, elsewhere, false_and, and_false, if_false,
        Except.ok.injEq] at checked
      obtain ⟨_, -, _, -, same⟩ := checked
      exact same.symm

/-- A block that the walk does not stand on is only read and checked. -/
theorem walkDown_still (env : Environment) (disk : Disk) (machine : Machine)
    (nCheckLevel nLowest : Int) (walk walk' : Walk) (chain : List CBlockIndex)
    (elsewhere : ∀ pindex ∈ chain, pindex.phashBlock ≠ walk.pindexState)
    (walked : walkDown env disk machine nCheckLevel nLowest walk chain = .ok (some walk')) :
    walk' = walk := by
  induction chain with
  | nil =>
      cases walked
      rfl
  | cons pindex below ih =>
      rw [List.forall_mem_cons] at elsewhere
      rw [walkDown] at walked
      split at walked
      · cases walked
        rfl
      · simp only [bind_ok] at walked
        obtain ⟨middle, here, rest⟩ := walked
        have same :=
          checkBlockAt_still env disk machine nCheckLevel walk middle pindex elsewhere.1 here
        rw [same] at rest
        split at rest
        · cases rest
        · exact ih elsewhere.2 rest

/-- At the block it stands on, the walk stays or goes one block down. -/
theorem checkBlockAt_link (env : Environment) (c t adjustedTime : Int) (disk : Disk)
    (machine : Machine) (nCheckLevel : Int) (nodes : List Node) (node node' : Node)
    (result : Connected) (walk walk' : Walk) (undamaged : Undamaged disk nodes)
    (member : node' ∈ nodes) (link : Link env node node' adjustedTime result)
    (standing : Standing env node) (stands : Stands (env.moved c t) [] node' walk)
    (checked : checkBlockAt (env.moved c t) disk machine nCheckLevel walk node'.tip.pindex =
      .ok walk') :
    walk' = walk ∨ Stands (env.moved c t) [node'] node walk' := by
  rw [checkBlockAt, undamaged.blocks node' member] at checked
  simp only [bind_ok, require_ok] at checked
  obtain ⟨_, valid, _, -, gone⟩ := checked
  rw [disconnect] at gone
  split at gone
  · rename_i levels
    obtain ⟨level, -, -⟩ := levels
    obtain ⟨blockUndo, after, written, ran, clean, mirrors⟩ :=
      disconnect_link env c t adjustedTime node node' result walk.coins link standing stands.coins
    obtain ⟨position, read⟩ := undamaged.undo node' member blockUndo written
    have undo : undoFor disk node'.tip.pindex = .ok blockUndo := by rw [undoFor, position, read]
    rw [undo, ran] at gone
    cases gone
    right
    refine ⟨link.onTip, mirrors, ?_, ?_⟩
    · rw [Walk.disconnected, clean, if_pos rfl]
      exact stands.clean
    · rw [List.forall_mem_singleton]
      exact toBool_ok _ (valid (by omega))
  · cases gone
    exact .inl rfl

theorem walkDown_stands (env : Environment) (c t : Int) (disk : Disk) (machine : Machine)
    (nCheckLevel nLowest : Int) (nodes : List Node) (grown : Grown env nodes)
    (undamaged : Undamaged disk nodes) (walk walk' : Walk)
    (stands : ∀ node, nodes.head? = some node → Stands (env.moved c t) [] node walk)
    (walked : walkDown (env.moved c t) disk machine nCheckLevel nLowest walk
      (nodes.map fun node => node.tip.pindex) = .ok (some walk')) :
    ∃ top node bottom, nodes = top ++ node :: bottom ∧
      Stands (env.moved c t) top node walk' := by
  induction grown generalizing walk with
  | genesis node start =>
      rw [List.map_cons, walkDown, if_pos (.inl start.first)] at walked
      cases walked
      exact ⟨[], node, [], rfl, stands node rfl⟩
  | connectTip adjustedTime block pindexNew node node' before grown next connected ih =>
      obtain ⟨result, link⟩ :=
        connectTip_link env adjustedTime block pindexNew node node' next connected
      have standing := grown_standing env _ grown node List.mem_cons_self
      have here := stands node' rfl
      rw [List.map_cons, walkDown] at walked
      split at walked
      · cases walked
        exact ⟨[], node', node :: before, rfl, here⟩
      · simp only [bind_ok] at walked
        obtain ⟨middle, checked, rest⟩ := walked
        split at rest
        · cases rest
        · rcases checkBlockAt_link env c t adjustedTime disk machine nCheckLevel _ node node'
            result walk middle undamaged List.mem_cons_self link standing here checked with
            same | lower
          · -- not disconnected: the walk stays on this block
            have distinct := grown_distinct env _
              (.connectTip adjustedTime block pindexNew node node' before grown next connected)
            have elsewhere : ∀ pindex ∈ (node :: before).map fun node => node.tip.pindex,
                pindex.phashBlock ≠ middle.pindexState := by
              intro pindex member
              obtain ⟨other, among, rfl⟩ := List.mem_map.mp member
              rw [same, here.state]
              exact (List.pairwise_cons.mp distinct).1 other among
            have stayed := walkDown_still _ disk machine nCheckLevel nLowest middle walk' _
              elsewhere rest
            rw [stayed, same]
            exact ⟨[], node', node :: before, rfl, here⟩
          · have undamagedRest : Undamaged disk (node :: before) :=
              ⟨fun other among => undamaged.blocks other (List.mem_cons_of_mem _ among),
                fun other among => undamaged.undo other (List.mem_cons_of_mem _ among)⟩
            obtain ⟨top, last, bottom, split, final⟩ := ih undamagedRest middle
              (by
                intro other head
                cases head
                exact ⟨lower.state, lower.coins, lower.clean, by simp⟩) rest
            refine ⟨node' :: top, last, bottom, by rw [split]; rfl, final.state, final.coins,
              final.clean, ?_⟩
            rw [List.forall_mem_cons]
            exact ⟨lower.checked node' List.mem_cons_self, final.checked⟩

/-! ## The way back up -/

/-- The blocks above the one where `stop` holds, each with the node it was connected to, the lowest
first. -/
def linksAbove (stop : Node → Bool) : List Node → List (Node × Node)
  | node' :: node :: before =>
      if stop node' then [] else linksAbove stop (node :: before) ++ [(node', node)]
  | _ => []

/-- The values that the inputs of a block got when `ConnectTip` connected it; the time does not
matter to them. -/
def firstValues (env : Environment) (link : Node × Node) : List (List Int) :=
  blockValues (link.2.environment env) link.1.tip.block link.1.tip.pindex link.2.pcoinsTip

/-- The coins that a block spends are worth the same to the process that has been started. -/
def LinkAlike (env : Environment) (c t : Int) (link : Node × Node) : Prop :=
  ∀ tx ∈ link.1.tip.block.vtx, SameWorth (link.2.environment env) (env.moved c t) link.1.height
    link.2.pcoinsTip.utxo tx.spentInputs

theorem grown_head (env : Environment) (node' node : Node) (before : List Node)
    (grown : Grown env (node' :: node :: before)) :
    Grown env (node :: before) ∧ Standing env node ∧
      ∃ adjustedTime result, Link env node node' adjustedTime result := by
  cases grown with
  | connectTip adjustedTime block pindexNew _ _ _ grown next connected =>
      exact ⟨grown, grown_standing env _ grown node List.mem_cons_self, adjustedTime,
        connectTip_link env adjustedTime block pindexNew node node' next connected⟩

theorem firstValues_link (env : Environment) (node node' : Node) (adjustedTime : Int)
    (result : Connected) (link : Link env node node' adjustedTime result)
    (standing : Standing env node) :
    firstValues env (node', node) = blockValues (env.moved node.height adjustedTime)
      node'.tip.block node'.tip.pindex node.pcoinsTip := by
  obtain ⟨-, height⟩ := link_height env node node' adjustedTime result link standing
  obtain ⟨st, passed⟩ := connectBlock_ok (env.moved node.height adjustedTime) _ _ _ _ result
    link.next.offered.1 link.connected
  have replaying := block_replaying _ _ _ _ result st passed link.next.bip30 height
  obtain ⟨-, -, -, values⟩ := connectTxs_mirrors (env.moved node.height adjustedTime) node.height
    env.adjustedTime _ 0 node.pcoinsTip.utxo node'.tip.block.vtx ⟨node.pcoinsTip, 0, 0, [], []⟩ st
    ⟨node.pcoinsTip, 0, 0, [], []⟩ replaying ⟨⟨restores_refl _, rfl⟩, rfl, rfl, rfl⟩
    (fun _ _ _ _ _ _ => rfl) passed.connected
  rw [firstValues, blockValues, blockValues, ← values]
  have context := blockContext_moved (env.moved node.height adjustedTime) node.height
    env.adjustedTime node'.tip.block node'.tip.pindex
  rw [← context]
  rfl

theorem reconnect_append (env : Environment) (disk : Disk) (coins : FlatView)
    (lower upper : List CBlockIndex) :
    reconnect env disk coins (lower ++ upper) =
      reconnect env disk coins lower >>= fun coins => reconnect env disk coins upper := by
  induction lower generalizing coins with
  | nil => rfl
  | cons pindex lower ih =>
      rw [List.cons_append, reconnect, reconnect]
      cases disk.readBlock pindex with
      | none => rfl
      | some block =>
          dsimp only
          cases connectBlock env block pindex coins false with
          | error failure => rfl
          | ok connected => exact ih connected.view

theorem reconnectCalls_append (env : Environment) (disk : Disk) (coins middle : FlatView)
    (lower upper : List CBlockIndex) (reached : reconnect env disk coins lower = .ok middle) :
    reconnectCalls env disk coins (lower ++ upper) =
      reconnectCalls env disk coins lower ++ reconnectCalls env disk middle upper := by
  induction lower generalizing coins with
  | nil =>
      cases reached
      rfl
  | cons pindex lower ih =>
      rw [reconnect] at reached
      rw [List.cons_append, reconnectCalls, reconnectCalls]
      cases read : disk.readBlock pindex with
      | none =>
          rw [read] at reached
          cases reached
      | some block =>
          rw [read] at reached
          dsimp only at reached ⊢
          cases accepted : connectBlock env block pindex coins false with
          | error failure =>
              rw [accepted] at reached
              cases reached
          | ok connected =>
              rw [accepted] at reached
              dsimp only at reached ⊢
              rw [ih connected.view reached, List.cons_append]

/-- One block up: it connects when its coins are worth the same, and then its values are the first
ones; and it leaves the coins of the node behind. -/
theorem reconnect_link (env : Environment) (c t adjustedTime : Int) (disk : Disk)
    (node node' : Node) (result : Connected) (coins : FlatView)
    (link : Link env node node' adjustedTime result) (standing : Standing env node)
    (read : disk.readBlock node'.tip.pindex = some node'.tip.block)
    (checked : checkBlock (env.moved c t) node'.tip.block true true = .ok ())
    (mirrors : Mirrors node.pcoinsTip coins) :
    (LinkAlike env c t (node', node) → ∃ coins',
      reconnect (env.moved c t) disk coins [node'.tip.pindex] = .ok coins' ∧
        (reconnectCalls (env.moved c t) disk coins [node'.tip.pindex]).map
            (ConnectCall.values (env.moved c t)) = [firstValues env (node', node)]) ∧
    ∀ coins', reconnect (env.moved c t) disk coins [node'.tip.pindex] = .ok coins' →
      Mirrors node'.pcoinsTip coins' ∧
        ((reconnectCalls (env.moved c t) disk coins [node'.tip.pindex]).map
            (ConnectCall.values (env.moved c t)) = [firstValues env (node', node)] →
          LinkAlike env c t (node', node)) := by
  have first := firstValues_link env node node' adjustedTime result link standing
  obtain ⟨-, height⟩ := link_height env node node' adjustedTime result link standing
  constructor
  · intro alike
    obtain ⟨result', accepted, values⟩ := connectBlock_again (env.moved node.height adjustedTime)
      c t node'.tip.block node'.tip.pindex node.pcoinsTip coins result link.next.offered.1
      link.next.bip30 height mirrors checked alike link.connected
    have accepted : connectBlock (env.moved c t) node'.tip.block node'.tip.pindex coins false =
      .ok result' := accepted
    refine ⟨result'.view, ?_, ?_⟩
    · simp only [reconnect, read, accepted]
    · simp only [reconnectCalls, read, accepted, List.map_cons, List.map_nil]
      rw [first, ← values]
      rfl
  · intro coins' reached
    simp only [reconnect, read] at reached
    cases accepted : connectBlock (env.moved c t) node'.tip.block node'.tip.pindex coins false with
    | error failure =>
        rw [accepted] at reached
        cases reached
    | ok result' =>
        rw [accepted] at reached
        cases reached
        obtain ⟨final, worth⟩ := connectBlock_values (env.moved node.height adjustedTime) c t
          node'.tip.block node'.tip.pindex node.pcoinsTip coins result result'
          link.next.offered.1 link.next.bip30 height mirrors link.connected accepted
        refine ⟨link.view ▸ final, ?_⟩
        intro same
        simp only [reconnectCalls, read, accepted, List.map_cons, List.map_nil] at same
        rw [first, List.cons.injEq] at same
        exact worth same.1

/-- Whether the node is the one that the walk stands on. -/
def standsOn (walk : Walk) (node : Node) : Bool :=
  !(node.tip.pindex.phashBlock != walk.pindexState)

/-- The blocks of the nodes above the one the walk stands on, the lowest first. -/
def indicesAbove (walk : Walk) (nodes : List Node) : List CBlockIndex :=
  ((nodes.map fun node => node.tip.pindex).takeWhile fun pindex =>
    pindex.phashBlock != walk.pindexState).reverse

theorem indicesAbove_cons (walk : Walk) (node : Node) (nodes : List Node)
    (above : standsOn walk node = false) :
    indicesAbove walk (node :: nodes) = indicesAbove walk nodes ++ [node.tip.pindex] := by
  rw [standsOn, Bool.not_eq_false'] at above
  rw [indicesAbove, List.map_cons, List.takeWhile_cons, if_pos above, List.reverse_cons]
  rfl

theorem indicesAbove_stop (walk : Walk) (node : Node) (nodes : List Node)
    (here : standsOn walk node = true) : indicesAbove walk (node :: nodes) = [] := by
  rw [standsOn, Bool.not_eq_true'] at here
  rw [indicesAbove, List.map_cons, List.takeWhile_cons, here, if_neg Bool.false_ne_true]
  rfl

theorem linksAbove_stop (stop : Node → Bool) (node : Node) (nodes : List Node)
    (here : stop node = true) : linksAbove stop (node :: nodes) = [] := by
  cases nodes with
  | nil => rfl
  | cons other nodes => rw [linksAbove, if_pos here]

theorem stands_iff (env : Environment) (top bottom : List Node) (node : Node) (walk : Walk)
    (grown : Grown env (top ++ node :: bottom))
    (state : walk.pindexState = node.tip.pindex.phashBlock) :
    standsOn walk node = true ∧ ∀ above ∈ top, standsOn walk above = false := by
  have distinct := List.pairwise_append.mp (grown_distinct env _ grown)
  constructor
  · rw [standsOn, state]
    simp
  · intro above member
    have other := distinct.2.2 above member node List.mem_cons_self
    rw [standsOn, state]
    simpa using Ne.symm other

/-- The way up: every block connects when the coins of every block are worth the same, and then the
values are the first ones. -/
theorem reconnect_above (env : Environment) (c t : Int) (disk : Disk) (top bottom : List Node)
    (node : Node) (walk : Walk) (grown : Grown env (top ++ node :: bottom))
    (undamaged : Undamaged disk (top ++ node :: bottom))
    (stands : Stands (env.moved c t) top node walk) :
    ((∀ link ∈ linksAbove (standsOn walk) (top ++ node :: bottom), LinkAlike env c t link) →
      ∃ coins, reconnect (env.moved c t) disk walk.coins
          (indicesAbove walk (top ++ node :: bottom)) = .ok coins ∧
        (reconnectCalls (env.moved c t) disk walk.coins
            (indicesAbove walk (top ++ node :: bottom))).map (ConnectCall.values (env.moved c t)) =
          (linksAbove (standsOn walk) (top ++ node :: bottom)).map (firstValues env)) ∧
    ∀ coins, reconnect (env.moved c t) disk walk.coins
        (indicesAbove walk (top ++ node :: bottom)) = .ok coins →
      (∀ last, (top ++ node :: bottom).head? = some last → Mirrors last.pcoinsTip coins) ∧
        ((reconnectCalls (env.moved c t) disk walk.coins
            (indicesAbove walk (top ++ node :: bottom))).map (ConnectCall.values (env.moved c t)) =
          (linksAbove (standsOn walk) (top ++ node :: bottom)).map (firstValues env) →
          ∀ link ∈ linksAbove (standsOn walk) (top ++ node :: bottom), LinkAlike env c t link) := by
  induction top with
  | nil =>
      obtain ⟨here, -⟩ := stands_iff env [] bottom node walk grown stands.state
      rw [List.nil_append, linksAbove_stop _ _ _ here, indicesAbove_stop _ _ _ here]
      refine ⟨fun _ => ⟨walk.coins, rfl, rfl⟩, ?_⟩
      intro coins reached
      cases reached
      refine ⟨?_, by simp⟩
      intro last head
      cases head
      exact stands.coins
  | cons node' top ih =>
      obtain ⟨-, above⟩ := stands_iff env (node' :: top) bottom node walk grown stands.state
      have here := above node' List.mem_cons_self
      have read := undamaged.blocks node' List.mem_cons_self
      have checked := stands.checked node' List.mem_cons_self
      have standsBelow : Stands (env.moved c t) top node walk :=
        ⟨stands.state, stands.coins, stands.clean,
          fun other member => stands.checked other (List.mem_cons_of_mem _ member)⟩
      have undamagedBelow : Undamaged disk (top ++ node :: bottom) :=
        ⟨fun other among => undamaged.blocks other (List.mem_cons_of_mem _ among),
          fun other among => undamaged.undo other (List.mem_cons_of_mem _ among)⟩
      rw [List.cons_append, indicesAbove_cons _ _ _ here]
      rw [List.cons_append] at grown
      -- the block at the upper end is connected to the head of the rest
      generalize rest : top ++ node :: bottom = nodes at *
      cases nodes with
      | nil => simp at rest
      | cons parent before =>
          obtain ⟨lower, standing, adjustedTime, result, link⟩ :=
            grown_head env node' parent before grown
          obtain ⟨up, down⟩ := ih lower undamagedBelow standsBelow
          rw [linksAbove, here, if_neg Bool.false_ne_true]
          simp only [reconnect_append, List.map_append, bind_ok, List.forall_mem_append,
            List.forall_mem_singleton, List.map_cons, List.map_nil]
          constructor
          · rintro ⟨alike, last⟩
            obtain ⟨middle, reached, values⟩ := up alike
            obtain ⟨mirrors, -⟩ := down middle reached
            obtain ⟨final, -⟩ := reconnect_link env c t adjustedTime disk parent node' result
              middle link standing read checked (mirrors parent rfl)
            obtain ⟨coins, one, value⟩ := final last
            refine ⟨coins, ⟨middle, reached, one⟩, ?_⟩
            rw [reconnectCalls_append _ _ _ _ _ _ reached, List.map_append, values, value]
          · rintro coins ⟨middle, reached, one⟩
            obtain ⟨mirrors, values⟩ := down middle reached
            obtain ⟨-, final⟩ := reconnect_link env c t adjustedTime disk parent node' result
              middle link standing read checked (mirrors parent rfl)
            obtain ⟨kept, value⟩ := final coins one
            refine ⟨?_, ?_⟩
            · intro last head
              cases head
              exact kept
            · intro same
              rw [reconnectCalls_append _ _ _ _ _ _ reached, List.map_append] at same
              have size : (reconnectCalls (env.moved c t) disk middle [node'.tip.pindex]).length =
                  1 := by
                have step := one
                simp only [reconnect, read] at step
                cases accepted : connectBlock (env.moved c t) node'.tip.block node'.tip.pindex
                    middle false with
                | error failure =>
                    rw [accepted] at step
                    cases step
                | ok connected => simp only [reconnectCalls, read, accepted, List.length_cons,
                    List.length_nil]
              obtain ⟨first, last⟩ := List.append_inj' same (by
                rw [List.length_map, size]
                rfl)
              exact ⟨values first, value last⟩

end RoiCoin
