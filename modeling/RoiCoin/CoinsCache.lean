import Mathlib.Data.List.AList
import RoiCoin.Coins

/-! The stack of coins caches (`CCoinsViewCache` in `coins.cpp`) over an arbitrary base view.

`fetchCoins` and `batchWrite` follow the layers down as the virtual calls do; `none` stands for a
failed assertion. Modifiers are released before the next operation. -/

namespace RoiCoin

structure CCoinsCacheEntry where
  coins : CCoins
  /-- Potentially different from the version in the parent view. -/
  dirty : Bool
  /-- The parent view does not have this entry, or it is pruned. -/
  fresh : Bool
  deriving DecidableEq, Repr

abbrev CCoinsMap := AList fun _ : Uint256 => CCoinsCacheEntry

structure CCoinsViewCache where
  hashBlock : Uint256
  cacheCoins : CCoinsMap

def CCoinsViewCache.new : CCoinsViewCache := ⟨0, ∅⟩

namespace CCoins

/-- A record as a flat map keeps it: a pruned record counts as absent. -/
def live (coins : CCoins) : Option CCoins := if coins.isPruned then none else some coins

@[simp] theorem live_empty : live empty = none := rfl

theorem live_pruned (coins : CCoins) (pruned : coins.isPruned = true) : coins.live = none := by
  rw [live, if_pos pruned]

theorem live_unpruned (coins : CCoins) (unpruned : coins.isPruned = false) :
    coins.live = some coins := by
  rw [live, unpruned]
  rfl

end CCoins

open CCoins

/-- The view at the bottom of the stack: its state is of any type, its writes keep the records
they are given, and it may or may not store pruned records and unmodified entries. -/
structure CCoinsViewBase (σ : Type) where
  getCoins : σ → Uint256 → Option CCoins
  batchWrite : σ → CCoinsMap → Uint256 → σ
  clean : ∀ s txid coins, getCoins s txid = some coins → coins.cleanup = coins
  writes_dirty : ∀ s mapCoins hashBlock txid entry, mapCoins.lookup txid = some entry →
    entry.coins.cleanup = entry.coins → entry.dirty = true →
    (getCoins (batchWrite s mapCoins hashBlock) txid).bind live = entry.coins.live
  writes_clean : ∀ s mapCoins hashBlock txid entry, mapCoins.lookup txid = some entry →
    entry.coins.cleanup = entry.coins → entry.dirty = false →
    entry.coins.live = (getCoins s txid).bind live →
    (getCoins (batchWrite s mapCoins hashBlock) txid).bind live = entry.coins.live
  keeps : ∀ s mapCoins hashBlock txid, mapCoins.lookup txid = none →
    (getCoins (batchWrite s mapCoins hashBlock) txid).bind live = (getCoins s txid).bind live

inductive CoinsView (σ : Type) where
  | base (state : σ)
  | cache (layer : CCoinsViewCache) (below : CoinsView σ)

section Operations

variable {σ : Type} (B : CCoinsViewBase σ)

/-- `FetchCoins`; also `GetCoins` and `AccessCoins`, which only differ in how they return. -/
def fetchCoins : CoinsView σ → Uint256 → Option CCoins × CoinsView σ
  | .base state, txid => (B.getCoins state txid, .base state)
  | .cache layer below, txid =>
      match layer.cacheCoins.lookup txid with
      | some entry => (some entry.coins, .cache layer below)
      | none =>
          match fetchCoins below txid with
          | (none, below) => (none, .cache layer below)
          | (some coins, below) =>
              (some coins, .cache { layer with
                cacheCoins := layer.cacheCoins.insert txid ⟨coins, false, coins.isPruned⟩ } below)

def haveCoins (view : CoinsView σ) (txid : Uint256) : Bool × CoinsView σ :=
  let fetched := fetchCoins B view txid
  ((fetched.1.map fun coins => !coins.vout.isEmpty).getD false, fetched.2)

/-- The entry a modifier refers to, before the caller's mutation. -/
def modifierEntry (layer : CCoinsViewCache) (below : CoinsView σ) (txid : Uint256) :
    CCoinsCacheEntry × CoinsView σ :=
  match layer.cacheCoins.lookup txid with
  | some entry => ({ entry with dirty := true }, below)
  | none =>
      match fetchCoins B below txid with
      | (none, below) => (⟨.empty, true, true⟩, below)
      | (some coins, below) => (⟨coins, true, coins.isPruned⟩, below)

/-- The destructor of `CCoinsModifier`. -/
def releaseModifier (cacheCoins : CCoinsMap) (txid : Uint256) (entry : CCoinsCacheEntry) :
    CCoinsMap :=
  if entry.fresh && entry.coins.cleanup.isPruned then cacheCoins.erase txid
  else cacheCoins.insert txid { entry with coins := entry.coins.cleanup }

/-- `ModifyCoins`, a mutation of the record and the release of the modifier; only a cache has it. -/
def modifyCoins (change : CCoins → CCoins) : CoinsView σ → Uint256 → Option (CoinsView σ)
  | .base _, _ => none
  | .cache layer below, txid =>
      let (entry, below) := modifierEntry B layer below txid
      some (.cache { layer with
        cacheCoins := releaseModifier layer.cacheCoins txid
          { entry with coins := change entry.coins } } below)

/-- One entry of a child's map, merged into the parent's. -/
def mergeEntry (cacheCoins : CCoinsMap) (txid : Uint256) (child : CCoinsCacheEntry) :
    Option CCoinsMap :=
  if !child.dirty then some cacheCoins
  else
    match cacheCoins.lookup txid with
    | none =>
        if child.coins.isPruned then some cacheCoins
        else if child.fresh then some (cacheCoins.insert txid ⟨child.coins, true, true⟩)
        else none
    | some itUs =>
        if itUs.fresh && child.coins.isPruned then some (cacheCoins.erase txid)
        else some (cacheCoins.insert txid ⟨child.coins, true, itUs.fresh⟩)

def mergeEntries (cacheCoins : CCoinsMap) :
    List (Sigma fun _ : Uint256 => CCoinsCacheEntry) → Option CCoinsMap
  | [] => some cacheCoins
  | ⟨txid, child⟩ :: mapCoins =>
      (mergeEntry cacheCoins txid child).bind fun cacheCoins => mergeEntries cacheCoins mapCoins

def batchWrite : CoinsView σ → CCoinsMap → Uint256 → Option (CoinsView σ)
  | .base state, mapCoins, hashBlock => some (.base (B.batchWrite state mapCoins hashBlock))
  | .cache layer below, mapCoins, hashBlock =>
      (mergeEntries layer.cacheCoins mapCoins.entries).map fun cacheCoins =>
        .cache ⟨hashBlock, cacheCoins⟩ below

def flush : CoinsView σ → Option (CoinsView σ)
  | .base _ => none
  | .cache layer below =>
      (batchWrite B below layer.cacheCoins layer.hashBlock).map fun below =>
        .cache { layer with cacheCoins := ∅ } below

end Operations

/-! ## What a view shows -/

section Shown

variable {σ : Type} (B : CCoinsViewBase σ)

/-- The flat map a view stands for. -/
def shown : CoinsView σ → Uint256 → Option CCoins
  | .base state, txid => (B.getCoins state txid).bind live
  | .cache layer below, txid =>
      match layer.cacheCoins.lookup txid with
      | some entry => entry.coins.live
      | none => shown below txid

/-- A view that is a cache has an entry of its own. -/
def holds : CoinsView σ → Uint256 → Prop
  | .base _, _ => True
  | .cache layer _, txid => (layer.cacheCoins.lookup txid).isSome

/-- The meaning of the flags of one entry over the view below. -/
structure EntryOk (below : CoinsView σ) (txid : Uint256) (entry : CCoinsCacheEntry) : Prop where
  clean : entry.coins.cleanup = entry.coins
  unchanged : entry.dirty = false → entry.coins.live = shown B below txid
  fresh : entry.fresh = true → shown B below txid = none
  fetched : entry.fresh = false → holds below txid

def LayerOk (layer : CCoinsViewCache) (below : CoinsView σ) : Prop :=
  ∀ txid entry, layer.cacheCoins.lookup txid = some entry → EntryOk B below txid entry

def ViewOk : CoinsView σ → Prop
  | .base _ => True
  | .cache layer below => LayerOk B layer below ∧ ViewOk below

/-- Layers stay right over a view that shows the same and has no fewer entries. -/
theorem entryOk_below {below below' : CoinsView σ} {txid : Uint256} {entry : CCoinsCacheEntry}
    (ok : EntryOk B below txid entry) (same : shown B below' txid = shown B below txid)
    (kept : holds below txid → holds below' txid) : EntryOk B below' txid entry :=
  ⟨ok.clean, fun clean => by rw [same, ok.unchanged clean], fun fresh => by rw [same, ok.fresh fresh],
    fun stale => kept (ok.fetched stale)⟩

/-- What fetching leaves behind. -/
structure Fetched (view : CoinsView σ) (txid : Uint256) (found : Option CCoins)
    (view' : CoinsView σ) : Prop where
  answer : found.bind live = shown B view txid
  clean : ∀ coins, found = some coins → coins.cleanup = coins
  ok : ViewOk B view'
  same : shown B view' = shown B view
  kept : ∀ other, holds view other → holds view' other
  held : found.isSome → holds view' txid

theorem fetchCoins_ok (view : CoinsView σ) (txid : Uint256) (ok : ViewOk B view) :
    Fetched B view txid (fetchCoins B view txid).1 (fetchCoins B view txid).2 := by
  induction view with
  | base state =>
      exact ⟨rfl, fun coins found => B.clean state txid coins found, trivial, rfl,
        fun _ present => present, fun _ => trivial⟩
  | cache layer below ih =>
      obtain ⟨layerOk, belowOk⟩ := ok
      have rest := ih belowOk
      rw [fetchCoins]
      cases here : layer.cacheCoins.lookup txid with
      | some entry =>
          refine ⟨?_, ?_, ⟨layerOk, belowOk⟩, rfl, fun _ present => present, fun _ => ?_⟩
          · simp only [shown, here, Option.bind_some]
          · rintro coins found
            cases found
            exact (layerOk txid entry here).clean
          · simp only [holds, here, Option.isSome_some]
      | none =>
          cases fetched : fetchCoins B below txid with
          | mk found below' =>
              rw [fetched] at rest
              have layerOk' : LayerOk B layer below' := fun other entry present =>
                entryOk_below B (layerOk other entry present) (congrFun rest.same other)
                  (rest.kept other)
              cases found with
              | none =>
                  refine ⟨?_, ?_, ⟨layerOk', rest.ok⟩, ?_, fun _ present => present, ?_⟩
                  · simp only [shown, here]
                    exact rest.answer
                  · intro coins absent
                    cases absent
                  · funext other
                    simp only [shown, rest.same]
                  · intro absent
                    cases absent
              | some coins =>
                  have answer : coins.live = shown B below txid := rest.answer
                  refine ⟨?_, rest.clean, ⟨?_, rest.ok⟩, ?_, ?_, fun _ => ?_⟩
                  · simp only [shown, here]
                    exact rest.answer
                  · intro other entry present
                    by_cases target : other = txid
                    · subst target
                      rw [AList.lookup_insert, Option.some.injEq] at present
                      subst present
                      refine ⟨rest.clean coins rfl, fun _ => ?_, fun pruned => ?_, fun _ =>
                        rest.held rfl⟩
                      · rw [rest.same, answer]
                      · rw [rest.same, ← answer, live_pruned coins pruned]
                    · rw [AList.lookup_insert_ne target] at present
                      exact layerOk' other entry present
                  · funext other
                    by_cases target : other = txid
                    · subst target
                      simp only [shown, AList.lookup_insert, here, answer]
                    · simp only [shown, AList.lookup_insert_ne target, rest.same]
                  · intro other present
                    by_cases target : other = txid
                    · subst target
                      simp only [holds, AList.lookup_insert, Option.isSome_some]
                    · simpa only [holds, AList.lookup_insert_ne target] using present
                  · simp only [holds, AList.lookup_insert, Option.isSome_some]

/-! ## Modifying the top layer -/

/-- The entry a modifier refers to holds what the view shows, under flags that say so. -/
theorem modifierEntry_ok (layer : CCoinsViewCache) (below : CoinsView σ) (txid : Uint256)
    (layerOk : LayerOk B layer below) (belowOk : ViewOk B below) :
    let (entry, below') := modifierEntry B layer below txid
    entry.coins.live = shown B (.cache layer below) txid ∧ entry.coins.cleanup = entry.coins ∧
      entry.dirty = true ∧ EntryOk B below' txid entry ∧ LayerOk B layer below' ∧ ViewOk B below' ∧
      shown B below' = shown B below := by
  rw [modifierEntry]
  cases here : layer.cacheCoins.lookup txid with
  | some entry =>
      have ok := layerOk txid entry here
      refine ⟨?_, ok.clean, rfl, ⟨ok.clean, fun clean => ?_, ok.fresh, ok.fetched⟩, layerOk, belowOk,
        rfl⟩
      · simp only [shown, here]
      · cases clean
  | none =>
      have rest := fetchCoins_ok B below txid belowOk
      cases fetched : fetchCoins B below txid with
      | mk found below' =>
          rw [fetched] at rest
          have layerOk' : LayerOk B layer below' := fun other entry present =>
            entryOk_below B (layerOk other entry present) (congrFun rest.same other)
              (rest.kept other)
          have answer := rest.answer
          cases found with
          | none =>
              refine ⟨?_, rfl, rfl, ⟨rfl, fun clean => ?_, fun _ => ?_, fun stale => ?_⟩, layerOk',
                rest.ok, rest.same⟩
              · simp only [shown, here]
                exact answer
              · cases clean
              · rw [rest.same]
                exact answer.symm
              · cases stale
          | some coins =>
              refine ⟨?_, rest.clean coins rfl, rfl,
                ⟨rest.clean coins rfl, fun clean => ?_, fun pruned => ?_, fun _ => rest.held rfl⟩,
                layerOk', rest.ok, rest.same⟩
              · simp only [shown, here]
                exact answer
              · cases clean
              · rw [rest.same, ← answer]
                exact live_pruned coins pruned

/-- After a release the layer shows the mutated record, or nothing if that is pruned. -/
theorem releaseModifier_ok (layer : CCoinsViewCache) (below : CoinsView σ) (txid : Uint256)
    (entry : CCoinsCacheEntry) (layerOk : LayerOk B layer below) (dirty : entry.dirty = true)
    (fresh : entry.fresh = true → shown B below txid = none)
    (fetched : entry.fresh = false → holds below txid) :
    let layer' := { layer with cacheCoins := releaseModifier layer.cacheCoins txid entry }
    LayerOk B layer' below ∧
      shown B (.cache layer' below) =
        Function.update (shown B (.cache layer below)) txid entry.coins.cleanup.live := by
  rw [releaseModifier]
  split
  · rename_i erased
    rw [Bool.and_eq_true] at erased
    refine ⟨?_, ?_⟩
    · intro other kept present
      by_cases target : other = txid
      · subst target
        rw [AList.lookup_erase] at present
        cases present
      · rw [AList.lookup_erase_ne target] at present
        exact layerOk other kept present
    · funext other
      by_cases target : other = txid
      · subst target
        simp only [shown, AList.lookup_erase, fresh erased.1, Function.update_self,
          live_pruned _ erased.2]
      · simp only [shown, AList.lookup_erase_ne target, Function.update_of_ne target]
  · refine ⟨?_, ?_⟩
    · intro other kept present
      by_cases target : other = txid
      · subst target
        rw [AList.lookup_insert, Option.some.injEq] at present
        subst present
        refine ⟨cleanup_cleanup _, fun clean => ?_, fresh, fetched⟩
        rw [dirty] at clean
        cases clean
      · rw [AList.lookup_insert_ne target] at present
        exact layerOk other kept present
    · funext other
      by_cases target : other = txid
      · subst target
        simp only [shown, AList.lookup_insert, Function.update_self]
      · simp only [shown, AList.lookup_insert_ne target, Function.update_of_ne target]

/-- A mutation gives the same coins for every empty record, whatever the record's other fields. -/
def UniformOnPruned (change : CCoins → CCoins) : Prop :=
  ∀ coins : CCoins, coins.vout = [] → (change coins).cleanup.live = (change .empty).cleanup.live

/-- The same mutation on a flat map. -/
def modifyFlat (change : CCoins → CCoins) (flat : Uint256 → Option CCoins) (txid : Uint256) :
    Uint256 → Option CCoins :=
  Function.update flat txid (change ((flat txid).getD .empty)).cleanup.live

theorem change_live (change : CCoins → CCoins) (uniform : UniformOnPruned change) (coins : CCoins)
    (clean : coins.cleanup = coins) :
    (change coins).cleanup.live = (change (coins.live.getD .empty)).cleanup.live := by
  cases pruned : coins.isPruned with
  | true =>
      have none : coins.vout = [] := by
        rw [← clean]
        exact Slots.trim_vacant _ pruned
      rw [uniform coins none, live_pruned coins pruned, Option.getD_none]
  | false => rw [live_unpruned coins pruned, Option.getD_some]

theorem modifyCoins_ok (change : CCoins → CCoins) (uniform : UniformOnPruned change)
    (layer : CCoinsViewCache) (below : CoinsView σ) (txid : Uint256)
    (ok : ViewOk B (.cache layer below)) :
    ∃ layer' below', modifyCoins B change (.cache layer below) txid = some (.cache layer' below') ∧
      ViewOk B (.cache layer' below') ∧ shown B below' = shown B below ∧
      shown B (.cache layer' below') = modifyFlat change (shown B (.cache layer below)) txid := by
  have entryOk := modifierEntry_ok B layer below txid ok.1 ok.2
  rw [modifyCoins]
  cases found : modifierEntry B layer below txid with
  | mk entry below' =>
      rw [found] at entryOk
      obtain ⟨answer, clean, dirty, flags, layerOk, belowOk, same⟩ := entryOk
      obtain ⟨released, shows⟩ := releaseModifier_ok B layer below' txid
        { entry with coins := change entry.coins } layerOk dirty flags.fresh flags.fetched
      refine ⟨_, below', rfl, ⟨released, belowOk⟩, same, ?_⟩
      have sameTop : shown B (.cache layer below') = shown B (.cache layer below) := by
        funext other
        simp only [shown, same]
      rw [shows, sameTop, modifyFlat, ← answer, ← change_live change uniform entry.coins clean]

/-! ## Flushing the top layer -/

/-- Merging one right entry shows it, keeps the layer right and touches no other key. -/
theorem mergeEntry_ok (hashBlock : Uint256) (cacheCoins : CCoinsMap) (below : CoinsView σ)
    (txid : Uint256) (child : CCoinsCacheEntry) (layerOk : LayerOk B ⟨hashBlock, cacheCoins⟩ below)
    (ok : EntryOk B (.cache ⟨hashBlock, cacheCoins⟩ below) txid child) :
    ∃ cacheCoins', mergeEntry cacheCoins txid child = some cacheCoins' ∧
      LayerOk B ⟨hashBlock, cacheCoins'⟩ below ∧
      shown B (.cache ⟨hashBlock, cacheCoins'⟩ below) txid = child.coins.live ∧
      ∀ other, other ≠ txid → cacheCoins'.lookup other = cacheCoins.lookup other := by
  rw [mergeEntry]
  cases dirty : child.dirty with
  | false => exact ⟨cacheCoins, rfl, layerOk, (ok.unchanged dirty).symm, fun _ _ => rfl⟩
  | true =>
      have inserted : ∀ fresh : Bool, (fresh = true → shown B below txid = none) →
          (fresh = false → holds below txid) →
          LayerOk B ⟨hashBlock, cacheCoins.insert txid ⟨child.coins, true, fresh⟩⟩ below ∧
            shown B (.cache ⟨hashBlock, cacheCoins.insert txid ⟨child.coins, true, fresh⟩⟩ below)
              txid = child.coins.live ∧
            ∀ other, other ≠ txid →
              (cacheCoins.insert txid ⟨child.coins, true, fresh⟩).lookup other =
                cacheCoins.lookup other := by
        intro fresh absent fetched
        refine ⟨?_, by simp only [shown, AList.lookup_insert], fun other target =>
          AList.lookup_insert_ne target⟩
        intro other entry present
        by_cases target : other = txid
        · subst target
          rw [AList.lookup_insert, Option.some.injEq] at present
          subst present
          exact ⟨ok.clean, fun clean => (Bool.false_ne_true clean.symm).elim, absent, fetched⟩
        · rw [AList.lookup_insert_ne target] at present
          exact layerOk other entry present
      simp only [Bool.not_true, Bool.false_eq_true, if_false]
      cases here : cacheCoins.lookup txid with
      | none =>
          -- an entry the parent does not hold was fetched as fresh
          have fresh : child.fresh = true := by
            by_contra stale
            have held := ok.fetched (Bool.not_eq_true _ ▸ stale)
            simp only [holds, here, Option.isSome_none, Bool.false_eq_true] at held
          have absent : shown B below txid = none := by
            have above := ok.fresh fresh
            simpa only [shown, here] using above
          cases pruned : child.coins.isPruned with
          | true =>
              refine ⟨cacheCoins, rfl, layerOk, ?_, fun _ _ => rfl⟩
              rw [live_pruned _ pruned]
              exact ok.fresh fresh
          | false =>
              exact ⟨_, by rw [fresh]; rfl, inserted true (fun _ => absent) fun stale => nomatch stale⟩
      | some itUs =>
          have parentOk := layerOk txid itUs here
          by_cases erased : (itUs.fresh && child.coins.isPruned) = true
          · rw [Bool.and_eq_true] at erased
            refine ⟨cacheCoins.erase txid, by simp [erased], ?_, ?_, fun other target =>
              AList.lookup_erase_ne target⟩
            · intro other entry present
              by_cases target : other = txid
              · subst target
                rw [AList.lookup_erase] at present
                cases present
              · rw [AList.lookup_erase_ne target] at present
                exact layerOk other entry present
            · simp only [shown, AList.lookup_erase]
              rw [parentOk.fresh erased.1, live_pruned _ erased.2]
          · exact ⟨_, if_neg erased, inserted itUs.fresh parentOk.fresh parentOk.fetched⟩

theorem mergeEntries_ok (hashBlock : Uint256) (below : CoinsView σ)
    (mapCoins : List (Sigma fun _ : Uint256 => CCoinsCacheEntry)) (distinct : mapCoins.NodupKeys)
    (cacheCoins : CCoinsMap) (layerOk : LayerOk B ⟨hashBlock, cacheCoins⟩ below)
    (ok : ∀ pair ∈ mapCoins, EntryOk B (.cache ⟨hashBlock, cacheCoins⟩ below) pair.1 pair.2) :
    ∃ cacheCoins', mergeEntries cacheCoins mapCoins = some cacheCoins' ∧
      LayerOk B ⟨hashBlock, cacheCoins'⟩ below ∧
      ∀ txid, shown B (.cache ⟨hashBlock, cacheCoins'⟩ below) txid =
        match mapCoins.dlookup txid with
        | some child => child.coins.live
        | none => shown B (.cache ⟨hashBlock, cacheCoins⟩ below) txid := by
  induction mapCoins generalizing cacheCoins with
  | nil => exact ⟨cacheCoins, rfl, layerOk, fun _ => rfl⟩
  | cons pair mapCoins ih =>
      obtain ⟨txid, child⟩ := pair
      rw [List.nodupKeys_cons] at distinct
      obtain ⟨merged, mergedEq, mergedOk, shows, others⟩ := mergeEntry_ok B hashBlock cacheCoins below
        txid child layerOk (ok ⟨txid, child⟩ List.mem_cons_self)
      have rest : ∀ pair ∈ mapCoins,
          EntryOk B (.cache ⟨hashBlock, merged⟩ below) pair.1 pair.2 := by
        intro pair member
        have target : pair.1 ≠ txid := by
          intro same
          exact distinct.1 (by rw [← same]; exact List.mem_keys.mpr ⟨pair.2, member⟩)
        apply entryOk_below B (ok pair (List.mem_cons_of_mem _ member))
        · simp only [shown, others pair.1 target]
        · simp only [holds, others pair.1 target, imp_self]
      obtain ⟨final, finalEq, finalOk, finalShows⟩ := ih distinct.2 merged mergedOk rest
      refine ⟨final, ?_, finalOk, ?_⟩
      · rw [mergeEntries, mergedEq, Option.bind_some, finalEq]
      · intro other
        rw [finalShows]
        by_cases target : other = txid
        · subst target
          rw [List.dlookup_eq_none.mpr distinct.1, List.dlookup_cons_eq]
          exact shows
        · have skipped : List.dlookup other (⟨txid, child⟩ :: mapCoins) = mapCoins.dlookup other :=
            List.dlookup_cons_ne mapCoins ⟨txid, child⟩ target
          rw [skipped]
          cases mapCoins.dlookup other with
          | some entry => rfl
          | none => simp only [shown, others other target]

/-- Writing a right layer to the view below makes that view show what the layer showed. -/
theorem batchWrite_ok (layer : CCoinsViewCache) (below : CoinsView σ)
    (ok : ViewOk B (.cache layer below)) :
    ∃ below', batchWrite B below layer.cacheCoins layer.hashBlock = some below' ∧
      ViewOk B below' ∧ shown B below' = shown B (.cache layer below) := by
  obtain ⟨layerOk, belowOk⟩ := ok
  cases below with
  | base state =>
      refine ⟨_, rfl, trivial, ?_⟩
      funext txid
      simp only [shown]
      cases here : layer.cacheCoins.lookup txid with
      | none => exact B.keeps state _ _ txid here
      | some entry =>
          have entryOk := layerOk txid entry here
          cases dirty : entry.dirty with
          | true => exact B.writes_dirty state _ _ txid entry here entryOk.clean dirty
          | false =>
              exact B.writes_clean state _ _ txid entry here entryOk.clean dirty
                (entryOk.unchanged dirty)
  | cache parent under =>
      have entries : ∀ pair ∈ layer.cacheCoins.entries,
          EntryOk B (.cache ⟨parent.hashBlock, parent.cacheCoins⟩ under) pair.1 pair.2 :=
        fun pair member => layerOk pair.1 pair.2
          (List.mem_dlookup layer.cacheCoins.nodupKeys member)
      obtain ⟨merged, mergedEq, mergedOk, shows⟩ := mergeEntries_ok B parent.hashBlock under
        layer.cacheCoins.entries layer.cacheCoins.nodupKeys parent.cacheCoins belowOk.1 entries
      refine ⟨.cache ⟨layer.hashBlock, merged⟩ under, ?_, ⟨mergedOk, belowOk.2⟩, ?_⟩
      · rw [batchWrite, mergedEq, Option.map_some]
      · funext txid
        exact shows txid

end Shown

end RoiCoin
