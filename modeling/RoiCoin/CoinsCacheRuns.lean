import RoiCoin.CoinsCache

/-! Runs of cache operations on the top of a stack, against one flat map. -/

namespace RoiCoin

open CCoins

/-- An operation on the top layer, or a change of the stack itself. -/
inductive CacheOp where
  | getCoins (txid : Uint256)
  | haveCoins (txid : Uint256)
  | accessCoins (txid : Uint256)
  | modifyCoins (txid : Uint256) (change : CCoins → CCoins)
  | push
  | flush
  | flushPop

inductive CacheAnswer where
  | coins (found : Option CCoins)
  | present (found : Bool)
  | done
  deriving DecidableEq, Repr

/-- A pruned record counts as absent. -/
def CacheAnswer.normal : CacheAnswer → CacheAnswer
  | .coins found => .coins (found.bind live)
  | .present found => .present found
  | .done => .done

section Runs

variable {σ : Type} (B : CCoinsViewBase σ)

/-- The view below a flushed layer; over the bare base a new layer is pushed at once. -/
def popLayer : CoinsView σ → Option (CoinsView σ)
  | .base _ => none
  | .cache _ (.base state) => some (.cache .new (.base state))
  | .cache _ (.cache layer below) => some (.cache layer below)

def CacheOp.step (op : CacheOp) (view : CoinsView σ) : Option (CacheAnswer × CoinsView σ) :=
  match op with
  | .getCoins txid => some (.coins (fetchCoins B view txid).1, (fetchCoins B view txid).2)
  | .haveCoins txid => some (.present (RoiCoin.haveCoins B view txid).1, (RoiCoin.haveCoins B view txid).2)
  | .accessCoins txid => some (.coins (fetchCoins B view txid).1, (fetchCoins B view txid).2)
  | .modifyCoins txid change => (RoiCoin.modifyCoins B change view txid).map fun view => (.done, view)
  | .push => some (.done, .cache .new view)
  | .flush => (RoiCoin.flush B view).map fun view => (.done, view)
  | .flushPop => ((RoiCoin.flush B view).bind popLayer).map fun view => (.done, view)

def runOps : List CacheOp → CoinsView σ → Option (List CacheAnswer × CoinsView σ)
  | [], view => some ([], view)
  | op :: ops, view =>
      (op.step B view).bind fun (answer, view) =>
        (runOps ops view).map fun (answers, view) => (answer :: answers, view)

end Runs

def CacheOp.flat (op : CacheOp) (flat : Uint256 → Option CCoins) :
    CacheAnswer × (Uint256 → Option CCoins) :=
  match op with
  | .getCoins txid => (.coins (flat txid), flat)
  | .haveCoins txid => (.present (flat txid).isSome, flat)
  | .accessCoins txid => (.coins (flat txid), flat)
  | .modifyCoins txid change => (.done, modifyFlat change flat txid)
  | .push => (.done, flat)
  | .flush => (.done, flat)
  | .flushPop => (.done, flat)

def runFlat : List CacheOp → (Uint256 → Option CCoins) → List CacheAnswer × (Uint256 → Option CCoins)
  | [], flat => ([], flat)
  | op :: ops, flat =>
      let (answer, flat) := op.flat flat
      let (answers, flat) := runFlat ops flat
      (answer :: answers, flat)

def CacheOp.Uniform : CacheOp → Prop
  | .modifyCoins _ change => UniformOnPruned change
  | _ => True

section Refinement

variable {σ : Type} (B : CCoinsViewBase σ)

/-- The layers under the first one. -/
def beneath : CoinsView σ → Option (CoinsView σ)
  | .base _ => none
  | .cache _ below => some below

/-- What a flush of the top layer does to the stack. -/
theorem flush_ok (layer : CCoinsViewCache) (below : CoinsView σ)
    (ok : ViewOk B (.cache layer below)) :
    ∃ below', flush B (.cache layer below) = some (.cache { layer with cacheCoins := ∅ } below') ∧
      ViewOk B (.cache { layer with cacheCoins := ∅ } below') ∧
      shown B below' = shown B (.cache layer below) ∧ beneath below' = beneath below := by
  obtain ⟨below', written, belowOk, shows⟩ := batchWrite_ok B layer below ok
  refine ⟨below', ?_, ⟨?_, belowOk⟩, shows, ?_⟩
  · rw [flush, written, Option.map_some]
  · intro txid entry present
    rw [AList.lookup_empty] at present
    cases present
  · cases below with
    | base state =>
        cases written
        rfl
    | cache parent under =>
        rw [batchWrite, Option.map_eq_some_iff] at written
        obtain ⟨cacheCoins, -, rfl⟩ := written
        rfl

theorem shown_new (view : CoinsView σ) : shown B (.cache .new view) = shown B view := by
  funext txid
  simp only [shown, CCoinsViewCache.new, AList.lookup_empty]

theorem viewOk_new (view : CoinsView σ) (ok : ViewOk B view) : ViewOk B (.cache .new view) := by
  refine ⟨fun txid entry present => ?_, ok⟩
  rw [CCoinsViewCache.new, AList.lookup_empty] at present
  cases present

theorem have_live (coins : CCoins) (clean : coins.cleanup = coins) :
    (!coins.vout.isEmpty) = coins.live.isSome := by
  cases pruned : coins.isPruned with
  | true =>
      have none : coins.vout = [] := by
        rw [← clean]
        exact Slots.trim_vacant _ pruned
      rw [live_pruned coins pruned, none]
      rfl
  | false =>
      rw [live_unpruned coins pruned]
      cases listed : coins.vout with
      | nil =>
          rw [isPruned, listed] at pruned
          cases pruned
      | cons txout vout => rfl

/-- A right stack whose top is a cache. -/
structure StackOk (view : CoinsView σ) : Prop where
  top : (beneath view).isSome
  ok : ViewOk B view

theorem fetchCoins_top (view : CoinsView σ) (txid : Uint256) (top : (beneath view).isSome) :
    (beneath (fetchCoins B view txid).2).isSome := by
  cases view with
  | base state => exact absurd top Bool.false_ne_true
  | cache layer below =>
      rw [fetchCoins]
      split
      · rfl
      · split <;> rfl

theorem fetch_step (view : CoinsView σ) (txid : Uint256) (stack : StackOk B view) :
    (fetchCoins B view txid).1.bind live = shown B view txid ∧
      StackOk B (fetchCoins B view txid).2 ∧
      shown B (fetchCoins B view txid).2 = shown B view := by
  have fetched := fetchCoins_ok B view txid stack.ok
  exact ⟨fetched.answer, ⟨fetchCoins_top B view txid stack.top, fetched.ok⟩, fetched.same⟩

/-- One operation answers as the flat map does and keeps the stack right. -/
theorem step_refines (op : CacheOp) (uniform : op.Uniform) (view : CoinsView σ)
    (stack : StackOk B view) :
    ∃ answer view', op.step B view = some (answer, view') ∧ StackOk B view' ∧
      answer.normal = (op.flat (shown B view)).1 ∧ shown B view' = (op.flat (shown B view)).2 := by
  cases view with
  | base state => exact absurd stack.top Bool.false_ne_true
  | cache layer below =>
      cases op with
      | getCoins txid =>
          obtain ⟨answer, right, same⟩ := fetch_step B _ txid stack
          exact ⟨_, _, rfl, right, by rw [CacheAnswer.normal, answer]; rfl, same⟩
      | accessCoins txid =>
          obtain ⟨answer, right, same⟩ := fetch_step B _ txid stack
          exact ⟨_, _, rfl, right, by rw [CacheAnswer.normal, answer]; rfl, same⟩
      | haveCoins txid =>
          obtain ⟨answer, right, same⟩ := fetch_step B _ txid stack
          have clean := (fetchCoins_ok B (.cache layer below) txid stack.ok).clean
          refine ⟨_, _, rfl, right, ?_, same⟩
          rw [CacheAnswer.normal, CacheOp.flat, ← answer, haveCoins]
          cases found : (fetchCoins B (.cache layer below) txid).1 with
          | none => rfl
          | some coins =>
              rw [Option.map_some, Option.getD_some, Option.bind_some,
                have_live coins (clean coins found)]
      | modifyCoins txid change =>
          obtain ⟨layer', below', modified, right, -, shows⟩ :=
            modifyCoins_ok B change uniform layer below txid stack.ok
          refine ⟨.done, _, ?_, ⟨rfl, right⟩, rfl, shows⟩
          rw [CacheOp.step, modified, Option.map_some]
      | push =>
          exact ⟨.done, _, rfl, ⟨rfl, viewOk_new B _ stack.ok⟩, rfl, shown_new B _⟩
      | flush =>
          obtain ⟨below', flushed, right, shows, -⟩ := flush_ok B layer below stack.ok
          refine ⟨.done, _, ?_, ⟨rfl, right⟩, rfl, ?_⟩
          · rw [CacheOp.step, flushed, Option.map_some]
          · exact (shown_new B below').trans shows
      | flushPop =>
          obtain ⟨below', flushed, right, shows, -⟩ := flush_ok B layer below stack.ok
          cases below' with
          | base state =>
              refine ⟨.done, .cache .new (.base state), ?_, ⟨rfl, viewOk_new B _ right.2⟩, rfl, ?_⟩
              · rw [CacheOp.step, flushed]
                rfl
              · rw [shown_new B, shows]
                rfl
          | cache parent under =>
              refine ⟨.done, .cache parent under, ?_, ⟨rfl, right.2⟩, rfl, shows⟩
              rw [CacheOp.step, flushed]
              rfl

theorem run_refines (ops : List CacheOp) (uniform : ∀ op ∈ ops, op.Uniform) (view : CoinsView σ)
    (stack : StackOk B view) :
    ∃ answers view', runOps B ops view = some (answers, view') ∧ StackOk B view' ∧
      answers.map CacheAnswer.normal = (runFlat ops (shown B view)).1 ∧
      shown B view' = (runFlat ops (shown B view)).2 := by
  induction ops generalizing view with
  | nil => exact ⟨[], view, rfl, stack, rfl, rfl⟩
  | cons op ops ih =>
      obtain ⟨answer, next, stepped, right, same, shows⟩ :=
        step_refines B op (uniform op List.mem_cons_self) view stack
      obtain ⟨answers, final, ran, finalOk, sameRest, finalShows⟩ :=
        ih (fun op member => uniform op (List.mem_cons_of_mem _ member)) next right
      refine ⟨answer :: answers, final, ?_, finalOk, ?_, ?_⟩
      · simp only [runOps, stepped, Option.bind_some, ran, Option.map_some]
      · rw [List.map_cons, same, sameRest, shows]
        rfl
      · rw [finalShows, shows]
        rfl

/-- The answers of a stack of caches are those of one flat map, no assertion fails on the way, and
from every state reached a flush changes only the layer below, to what the top layer showed. -/
theorem cache_stack_refines_flat_map (start : σ) (ops : List CacheOp)
    (uniform : ∀ op ∈ ops, op.Uniform) :
    ∃ answers layer below,
      runOps B ops (.cache .new (.base start)) = some (answers, .cache layer below) ∧
      answers.map CacheAnswer.normal = (runFlat ops (shown B (.base start))).1 ∧
      shown B (.cache layer below) = (runFlat ops (shown B (.base start))).2 ∧
      ∃ below', flush B (.cache layer below) =
          some (.cache { layer with cacheCoins := ∅ } below') ∧
        shown B below' = shown B (.cache layer below) ∧ beneath below' = beneath below := by
  have initial : StackOk B (.cache .new (.base start)) := ⟨rfl, viewOk_new B _ trivial⟩
  obtain ⟨answers, view, ran, stack, same, shows⟩ := run_refines B ops uniform _ initial
  rw [shown_new] at same shows
  cases view with
  | base state => exact absurd stack.top Bool.false_ne_true
  | cache layer below =>
      obtain ⟨below', flushed, -, flushShows, under⟩ := flush_ok B layer below stack.ok
      exact ⟨answers, layer, below, ran, same, shows, below', flushed, flushShows, under⟩

end Refinement

/-- The coin database: modified entries are written, pruned ones erased. -/
def coinsViewDB : CCoinsViewBase (Uint256 → Option CCoins) where
  getCoins stored txid := (stored txid).map cleanup
  batchWrite stored mapCoins _ txid :=
    match mapCoins.lookup txid with
    | some entry => if entry.dirty then entry.coins.live else stored txid
    | none => stored txid
  clean := by
    intro stored txid coins found
    obtain ⟨record, -, rfl⟩ := Option.map_eq_some_iff.mp found
    exact cleanup_cleanup record
  writes_dirty := by
    intro stored mapCoins _ txid entry present clean dirty
    simp only [present, dirty, if_true]
    cases pruned : entry.coins.isPruned with
    | true => rw [live_pruned _ pruned]; rfl
    | false => rw [live_unpruned _ pruned, Option.map_some, Option.bind_some, clean,
        live_unpruned _ pruned]
  writes_clean := by
    intro stored mapCoins _ txid entry present _ dirty same
    simp only [present, dirty, Bool.false_eq_true, if_false]
    exact same.symm
  keeps := by
    intro stored mapCoins _ txid absent
    simp only [absent]

def sampleCoins : CCoins := ⟨false, [some ⟨5, []⟩], 7, 1⟩

theorem uniform_spend (nPos : Nat) : UniformOnPruned fun coins => coins.spend nPos := by
  intro coins none
  have unavailable : coins.isAvailable nPos = false := by
    rw [isAvailable, output, none]
    rfl
  have pruned : coins.isPruned = true := by
    rw [isPruned, none]
    rfl
  simp only [spend, unavailable]
  rw [live_pruned _ (by simpa using pruned)]
  rfl

/-- A database record spent in the upper of two caches, flushed away and read through the other. -/
theorem cache_stack_refines_flat_map_spend :
    ∃ answers layer below,
      runOps coinsViewDB [.push, .modifyCoins 1 fun coins => coins.spend 0, .flushPop, .getCoins 1]
          (.cache .new (.base fun _ => some sampleCoins)) = some (answers, .cache layer below) ∧
      answers.map CacheAnswer.normal = [.done, .done, .done, .coins none] ∧
      shown coinsViewDB (.cache layer below) 1 = none := by
  obtain ⟨answers, layer, below, ran, same, shows, -⟩ := cache_stack_refines_flat_map coinsViewDB
    (fun _ => some sampleCoins)
    [.push, .modifyCoins 1 fun coins => coins.spend 0, .flushPop, .getCoins 1] (by
      intro op member
      rcases List.mem_cons.mp member with rfl | member
      · trivial
      rcases List.mem_cons.mp member with rfl | member
      · exact uniform_spend 0
      rcases List.mem_cons.mp member with rfl | member
      · trivial
      rcases List.mem_cons.mp member with rfl | member
      · trivial
      · cases member)
  exact ⟨answers, layer, below, ran, same, by rw [shows]; decide⟩

/-- A mutation that keeps the other fields of a pruned record sees whether the record was erased:
the cache still has the height of the spent coins, a flat map without it has none. -/
theorem cache_stack_keeps_pruned_fields :
    let ops : List CacheOp := [.modifyCoins 1 fun coins => coins.spend 0,
      .modifyCoins 1 fun coins => { coins with vout := [some ⟨5, []⟩] }, .getCoins 1]
    let start := fun _ => some sampleCoins
    (runOps coinsViewDB ops (.cache .new (.base start))).map
        (fun run => run.1.map CacheAnswer.normal) ≠
      some (runFlat ops (shown coinsViewDB (.base start))).1 := by
  decide

end RoiCoin
