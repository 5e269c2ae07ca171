import RoiCoin.Lib.Checked
import RoiCoin.Lib.Runs
import RoiCoin.Net.AddrMan

/-! The operations of the address manager keep it consistent, in any order. -/

namespace RoiCoin

open Checked

namespace CAddrMan

/-! ## The whole invariant -/

/-- What `Check_` asks of the times. -/
def Dated (m : CAddrMan) : Prop :=
  ∀ id info, m.mapInfo id = some info → 0 ≤ info.nLastTry ∧ 0 ≤ info.nLastSuccess ∧
    (info.fInTried = true → 0 < info.nLastSuccess)

def dates (info : CAddrInfo) : Int × Int × Bool :=
  (info.nLastTry, info.nLastSuccess, info.fInTried)

theorem dated_view (m m' : CAddrMan) (id : Nat) (info : CAddrInfo)
    (same : (m'.mapInfo id).map dates = (m.mapInfo id).map dates)
    (found : m'.mapInfo id = some info) (dated : Dated m) : 0 ≤ info.nLastTry ∧
      0 ≤ info.nLastSuccess ∧ (info.fInTried = true → 0 < info.nLastSuccess) := by
  obtain ⟨before, there, eq⟩ := entry_of_view same info found
  simp only [dates, Prod.mk.injEq] at eq
  rw [eq.1, eq.2.1, eq.2.2]
  exact dated id before there

theorem dated_same (m m' : CAddrMan)
    (same : ∀ id, (m'.mapInfo id).map dates = (m.mapInfo id).map dates) (dated : Dated m) :
    Dated m' := fun id info found => dated_view m m' id info (same id) found dated

section Sound

variable (hashes : AddrHashes)

structure Sound (limbo : Finset Nat) (spare : Int) (m : CAddrMan) : Prop where
  listed : Listed m
  tabled : Tabled hashes limbo m
  counted : Counted limbo spare m
  dated : Dated m

variable {hashes} (limbo : Finset Nat) (spare : Int) (m : CAddrMan)

theorem Sound.inside {limbo : Finset Nat} {spare : Int} {m : CAddrMan}
    (sound : Sound hashes limbo spare m) (id : Nat) (info : CAddrInfo)
    (found : m.mapInfo id = some info) : id < m.nIdCount :=
  sound.listed.fresh id (by rw [found]; rfl)

/-- Everything but the position in `vRandom` decides. -/
theorem sound_moved (m' : CAddrMan) (moved : Moved m m')
    (listed : Listed m') (sound : Sound hashes limbo spare m) : Sound hashes limbo spare m' := by
  have view : ∀ {α : Type} (f : CAddrInfo → α), (∀ info, f (rest info) = f info) →
      ∀ id, (m'.mapInfo id).map f = (m.mapInfo id).map f := by
    intro α f keeps id
    have same := congrArg (Option.map f) (moved.entries id)
    rw [Option.map_map, Option.map_map] at same
    have through : f ∘ rest = f := funext keeps
    rwa [through] at same
  exact ⟨listed,
    tabled_same limbo m m' (view standing fun _ => rfl) moved.nKey moved.vvTried moved.vvNew
      sound.tabled,
    counted_same limbo spare m m' (view CAddrInfo.fInTried fun _ => rfl) moved.nIdCount moved.nTried
      moved.nNew sound.counted,
    dated_same m m' (view dates fun _ => rfl) sound.dated⟩

/-- Another counter of the new entries. -/
theorem sound_renew (limbo : Finset Nat) (spare nNew : Int) (m : CAddrMan)
    (sound : Sound hashes limbo spare m) :
    Sound hashes limbo (spare + (nNew - m.nNew)) { m with nNew } := by
  refine ⟨listed_same m _ (fun _ => rfl) rfl rfl rfl sound.listed,
    tabled_same limbo m _ (fun _ => rfl) rfl rfl rfl sound.tabled,
    ⟨sound.counted.nTried, ?_⟩, dated_same m _ (fun _ => rfl) sound.dated⟩
  have new := sound.counted.nNew
  have same : CAddrMan.isNew limbo { m with nNew } = m.isNew limbo := rfl
  rw [same]
  dsimp only
  omega

theorem sound_exempt (id : Nat)
    (info : CAddrInfo) (found : m.mapInfo id = some info) (untried : info.fInTried = false)
    (outside : id ∉ limbo) (sound : Sound hashes limbo spare m) :
    Sound hashes (insert id limbo) (spare + 1) m :=
  ⟨sound.listed, tabled_exempt limbo m id info found untried sound.tabled,
    counted_exempt limbo spare m id info found untried (sound.inside id info found) outside
      sound.counted,
    sound.dated⟩

theorem sound_settle (id : Nat)
    (info : CAddrInfo) (found : m.mapInfo id = some info) (untried : info.fInTried = false)
    (used : 0 < info.nRefCount) (exempt : id ∈ limbo) (sound : Sound hashes limbo spare m) :
    Sound hashes (limbo.erase id) (spare - 1) m :=
  ⟨sound.listed, tabled_settle limbo m id info found used sound.tabled,
    counted_settle limbo spare m id info found untried (sound.inside id info found) exempt
      sound.counted,
    sound.dated⟩

/-- Slots of the new table and references do not concern the list, the counters and the times. -/
theorem sound_refer (id : Nat) (more : Int)
    (vvNew : Nat → Nat → Option Nat)
    (tabled : Tabled hashes limbo { m.modify id (refer more) with vvNew })
    (sound : Sound hashes limbo spare m) :
    Sound hashes limbo spare { m.modify id (refer more) with vvNew } :=
  ⟨listed_same m _ (fun other => modify_view _ m id other (refer more) fun _ => rfl) rfl rfl rfl
      sound.listed,
    tabled,
    counted_same limbo spare m _ (fun other => modify_view _ m id other (refer more) fun _ => rfl)
      rfl rfl rfl sound.counted,
    dated_same m _ (fun other => modify_view _ m id other (refer more) fun _ => rfl) sound.dated⟩

theorem sound_leave (bucket pos id : Nat)
    (slot : m.vvNew bucket pos = some id) (exempt : id ∈ limbo)
    (sound : Sound hashes limbo spare m) :
    Sound hashes limbo spare (m.leaveSlot bucket pos id) :=
  sound_refer limbo spare m id (-1) _
    (tabled_leave limbo m bucket pos id slot exempt sound.tabled) sound

theorem sound_fill (bucket pos id : Nat)
    (info : CAddrInfo) (slot : m.vvNew bucket pos = none) (found : m.mapInfo id = some info)
    (untried : info.fInTried = false) (few : info.nRefCount < addrmanNewBucketsPerAddress)
    (inside : bucket < addrmanNewBucketCount)
    (own : pos = info.getBucketPosition hashes m.nKey true bucket)
    (sound : Sound hashes limbo spare m) :
    Sound hashes limbo spare (m.fillSlot bucket pos id) :=
  sound_refer limbo spare m id 1 _
    (tabled_fill limbo m bucket pos id info slot found untried few inside own sound.tabled)
    sound

theorem sound_delete (id : Nat)
    (info : CAddrInfo) (found : m.mapInfo id = some info) (untried : info.fInTried = false)
    (unused : info.nRefCount = 0) (exempt : id ∈ limbo) (sound : Sound hashes limbo spare m) :
    ∃ m', m.delete id = some m' ∧ Sound hashes (limbo.erase id) (spare - 1) m' ∧
      Without id m m' := by
  obtain ⟨m', ran, listed, without⟩ :=
    delete_listed m sound.listed id info found untried unused
  refine ⟨m', ran, ⟨listed,
    tabled_without limbo m m' id info found untried unused without sound.tabled,
    counted_without limbo spare m m' id info found untried (sound.inside id info found) exempt
      without sound.counted, ?_⟩, without⟩
  intro other after there
  have different : other ≠ id := by
    rintro rfl
    rw [without.missing] at there
    cases there
  have same := congrArg (Option.map dates) (without.entries other different)
  rw [Option.map_map, Option.map_map] at same
  exact dated_view m m' other after same there sound.dated

/-- Entries in limbo have no references yet. -/
def Idle (limbo : Finset Nat) (m : CAddrMan) : Prop :=
  ∀ id ∈ limbo, ∀ info, m.mapInfo id = some info → info.nRefCount = 0

/-- What `ClearNew` leaves alone, where `kept` is an entry without the slot. -/
structure Cleared (bucket pos : Nat) (m m' : CAddrMan) : Prop where
  slot : m'.vvNew bucket pos = none
  nKey : m'.nKey = m.nKey
  vvTried : m'.vvTried = m.vvTried
  kept : ∀ id, m.vvNew bucket pos ≠ some id → (m'.mapInfo id).map rest = (m.mapInfo id).map rest

theorem clearNew_sound (bucket pos : Nat)
    (idle : Idle limbo m) (sound : Sound hashes limbo spare m) :
    ∃ m', m.clearNew bucket pos = some m' ∧ Sound hashes limbo spare m' ∧
      Cleared bucket pos m m' := by
  rw [clearNew]
  cases slot : m.vvNew bucket pos with
  | none => exact ⟨m, rfl, sound, ⟨slot, rfl, rfl, fun _ _ => rfl⟩⟩
  | some id =>
      obtain ⟨inside, info, found, untried, own⟩ := (sound.tabled id).newSlot bucket pos slot
      have outside : id ∉ limbo := fun member =>
        tabled_idle limbo m sound.tabled id info found (idle id member info found) bucket pos
          slot
      have used := ((sound.tabled id).new info found untried).2.2 outside
      have left := sound_leave (insert id limbo) (spare + 1) m bucket pos id slot
        (Finset.mem_insert_self id limbo)
        (sound_exempt limbo spare m id info found untried outside sound)
      have found' : ∀ other, (m.leaveSlot bucket pos id).mapInfo other =
          if other = id then some (refer (-1) info) else m.mapInfo other := by
        intro other
        rw [← Option.map_some, ← found]
        exact modify_found m id other (refer (-1))
      have own' : (m.leaveSlot bucket pos id).mapInfo id = some (refer (-1) info) := by
        rw [found', if_pos rfl]
      have empty : (m.leaveSlot bucket pos id).vvNew bucket pos = none :=
        (setSlot_found m.vvNew bucket pos none bucket pos).trans (if_pos ⟨rfl, rfl⟩)
      have others : ∀ other, some id ≠ some other →
          (m.leaveSlot bucket pos id).mapInfo other = m.mapInfo other := by
        intro other different
        rw [found', if_neg fun eq => different (congrArg some eq.symm)]
      dsimp only
      rw [found, Option.bind_some, if_pos used]
      by_cases last : info.nRefCount - 1 = 0
      · obtain ⟨m', ran, gone, without⟩ := sound_delete (insert id limbo) (spare + 1)
          (m.leaveSlot bucket pos id) id (refer (-1) info) own' untried last
          (Finset.mem_insert_self id limbo) left
        rw [if_pos last, ran]
        rw [Finset.erase_insert outside, add_sub_cancel_right] at gone
        refine ⟨m', rfl, gone, ?_, without.nKey, without.vvTried, ?_⟩
        · rw [without.vvNew]
          exact empty
        · intro other different
          rw [without.entries other fun eq => different (by rw [slot, eq]),
            others other (by rw [← slot]; exact different)]
      · rw [if_neg last]
        have settled := sound_settle (insert id limbo) (spare + 1)
          (m.leaveSlot bucket pos id) id (refer (-1) info) own' untried (by rw [refer]; dsimp only; omega)
          (Finset.mem_insert_self id limbo) left
        rw [Finset.erase_insert outside, add_sub_cancel_right] at settled
        refine ⟨_, rfl, settled, empty, rfl, rfl, ?_⟩
        intro other different
        rw [others other (by rw [← slot]; exact different)]

/-! ## Eviction -/

theorem sound_leaveTried (bucket pos id : Nat)
    (slot : m.vvTried bucket pos = some id) (sound : Sound hashes limbo spare m) :
    Sound hashes (insert id limbo) spare (m.leaveTried bucket pos id) := by
  obtain ⟨info, found, isTried, -⟩ := (sound.tabled id).triedSlot bucket pos slot
  refine ⟨listed_same m _ (fun other => modify_view _ m id other (setTried false) fun _ => rfl)
      rfl rfl rfl sound.listed,
    tabled_leaveTried limbo m bucket pos id slot sound.tabled,
    counted_leaveTried limbo spare m bucket pos id info found isTried
      (sound.inside id info found) sound.counted, ?_⟩
  intro other after there
  have there' := (setTried_found m id other false info found).symm.trans there
  split at there'
  · cases there'
    have before := sound.dated id info found
    refine ⟨before.1, before.2.1, fun impossible => ?_⟩
    cases impossible
  · exact sound.dated other after there'

theorem evict_sound (bucket pos id : Nat)
    (slot : m.vvTried bucket pos = some id) (idle : Idle limbo m)
    (sound : Sound hashes limbo spare m) :
    ∃ m', evict hashes m bucket pos id = some m' ∧ Sound hashes limbo spare m' ∧
      m'.vvTried bucket pos = none ∧ m'.nKey = m.nKey ∧
      ∀ other ∈ limbo, (m'.mapInfo other).map rest = (m.mapInfo other).map rest := by
  obtain ⟨info, found, isTried, -⟩ := (sound.tabled id).triedSlot bucket pos slot
  have outside : id ∉ limbo := by
    intro member
    obtain ⟨other, there, untried⟩ := (sound.tabled id).limbo member
    rw [found] at there
    cases there
    rw [isTried] at untried
    cases untried
  have unused := ((sound.tabled id).tried info found isTried).2
  let left := m.leaveTried bucket pos id
  have found_left : ∀ other, left.mapInfo other =
      if other = id then some (setTried false info) else m.mapInfo other :=
    fun other => setTried_found m id other false info found
  have own_left : left.mapInfo id = some (setTried false info) := by rw [found_left, if_pos rfl]
  have sound_left := sound_leaveTried limbo spare m bucket pos id slot sound
  have idle_left : Idle (insert id limbo) left := by
    intro other member after there
    rw [found_left] at there
    split at there
    · cases there
      exact unused
    · rename_i different
      exact idle other (Finset.mem_of_mem_insert_of_ne member different) after there
  let nUBucket := info.getNewBucket hashes left.nKey info.source
  let nUBucketPos := info.getBucketPosition hashes left.nKey true nUBucket
  obtain ⟨cleared, ran, sound_cleared, kept⟩ := clearNew_sound (insert id limbo) spare left
    nUBucket nUBucketPos idle_left sound_left
  have not_there : ∀ other ∈ insert id limbo, left.vvNew nUBucket nUBucketPos ≠ some other := by
    intro other member slot'
    obtain ⟨after, there, -⟩ := (sound_left.tabled other).limbo member
    exact tabled_idle _ left sound_left.tabled other after there
      (idle_left other member after there) nUBucket nUBucketPos slot'
  obtain ⟨after, there, eq⟩ := entry_of_view
    (kept.kept id (not_there id (Finset.mem_insert_self id limbo))).symm _ own_left
  have refs : after.nRefCount = 0 := by
    have same := congrArg CAddrInfo.nRefCount eq
    exact same.symm.trans unused
  have untried : after.fInTried = false := (congrArg CAddrInfo.fInTried eq).symm
  have service : after.toCService = info.toCService :=
    (congrArg (fun info : CAddrInfo => info.toCService) eq).symm
  have once : cleared.modify id referOnce = cleared.modify id (refer 1) := by
    have same : (cleared.mapInfo id).map referOnce = (cleared.mapInfo id).map (refer 1) := by
      rw [there, Option.map_some, Option.map_some, referOnce, refer, refs]
      rfl
    rw [modify, modify, same]
  have filled := sound_fill (insert id limbo) spare cleared nUBucket nUBucketPos id after
    kept.slot there untried (by rw [refs]; decide) (Nat.mod_lt _ (by decide))
    (by rw [kept.nKey, service]) sound_cleared
  have own_filled : (cleared.fillSlot nUBucket nUBucketPos id).mapInfo id =
      some (refer 1 after) := by
    refine (modify_found cleared id id (refer 1)).trans ?_
    rw [if_pos rfl, there]
    rfl
  have settled := sound_settle (insert id limbo) spare _ id (refer 1 after) own_filled untried
    (by rw [refer]; dsimp only; omega) (Finset.mem_insert_self id limbo) filled
  rw [Finset.erase_insert outside] at settled
  have renewed := sound_renew limbo (spare - 1) (cleared.nNew + 1) _ settled
  have balance : spare - 1 +
      (cleared.nNew + 1 - (cleared.fillSlot nUBucket nUBucketPos id).nNew) = spare := by
    have same : (cleared.fillSlot nUBucket nUBucketPos id).nNew = cleared.nNew := rfl
    rw [same]
    omega
  rw [balance] at renewed
  refine ⟨_, ?_, renewed, ?_, kept.nKey, ?_⟩
  · rw [evict, found, Option.bind_some]
    dsimp only
    rw [ran, Option.bind_some, if_pos kept.slot, once]
    rfl
  · have tables : cleared.vvTried bucket pos = none := by
      rw [kept.vvTried]
      exact (setSlot_found m.vvTried bucket pos none bucket pos).trans (if_pos ⟨rfl, rfl⟩)
    exact tables
  · intro other member
    have different : other ≠ id := fun eq => outside (eq ▸ member)
    have stays : (cleared.fillSlot nUBucket nUBucketPos id).mapInfo other =
        cleared.mapInfo other :=
      (modify_found cleared id other (refer 1)).trans (if_neg different)
    dsimp only
    rw [stays, kept.kept other (not_there other (Finset.mem_insert_of_mem member)), found_left,
      if_neg different]

/-! ## To the tried table -/

theorem enterTried_sound (bucket pos id : Nat)
    (info : CAddrInfo) (found : m.mapInfo id = some info) (exempt : id ∈ limbo)
    (untried : info.fInTried = false) (unused : info.nRefCount = 0)
    (succeeded : 0 < info.nLastSuccess) (own_bucket : bucket = info.getTriedBucket hashes m.nKey)
    (own_pos : pos = info.getBucketPosition hashes m.nKey false bucket)
    (slot : m.vvTried bucket pos = none) (sound : Sound hashes limbo spare m) :
    ∃ m', m.enterTried bucket pos id = some m' ∧ Sound hashes (limbo.erase id) spare m' ∧
      m'.nKey = m.nKey := by
  obtain ⟨m', ran, nKey⟩ : ∃ m', m.enterTried bucket pos id = some m' ∧ m'.nKey = m.nKey := by
    rw [enterTried, if_pos slot]
    exact ⟨_, rfl, rfl⟩
  refine ⟨m', ran, ⟨?_, tabled_enterTried limbo m m' bucket pos id info found untried unused
    own_bucket own_pos ran sound.tabled, counted_enterTried limbo spare m m' bucket pos id info found
    untried (sound.inside id info found) exempt ran sound.counted, ?_⟩, nKey⟩
  · rw [enterTried, if_pos slot] at ran
    rw [← Option.some.inj ran]
    exact listed_same m _ (fun other => modify_view _ m id other (setTried true) fun _ => rfl)
      rfl rfl rfl sound.listed
  · rw [enterTried, if_pos slot] at ran
    intro other after there
    rw [← Option.some.inj ran] at there
    have there' := (setTried_found m id other true info found).symm.trans there
    split at there'
    · cases there'
      have before := sound.dated id info found
      exact ⟨before.1, before.2.1, fun _ => succeeded⟩
    · exact sound.dated other after there'

/-- An entry but for its references. -/
def unreferenced (info : CAddrInfo) : CAddrInfo := { info with nRefCount := 0 }

/-- Only slots of the new table are given up. -/
structure Leaving (m m' : CAddrMan) : Prop where
  nKey : m'.nKey = m.nKey
  slots : ∀ bucket pos id, m'.vvNew bucket pos = some id → m.vvNew bucket pos = some id
  entries : ∀ id, (m'.mapInfo id).map unreferenced = (m.mapInfo id).map unreferenced

theorem leaveBucket_sound (limbo : Finset Nat) (spare : Int) (info : CAddrInfo) (id : Nat)
    (exempt : id ∈ limbo) (m : CAddrMan) (bucket : Nat) (sound : Sound hashes limbo spare m) :
    Sound hashes limbo spare (leaveBucket hashes info id m bucket) ∧
      Leaving m (leaveBucket hashes info id m bucket) ∧
      (leaveBucket hashes info id m bucket).vvNew bucket
        (info.getBucketPosition hashes m.nKey true bucket) ≠ some id := by
  rw [leaveBucket]
  split
  · rename_i slot
    refine ⟨sound_leave limbo spare m bucket _ id slot exempt sound, ⟨rfl, ?_, ?_⟩, ?_⟩
    · intro bucket' pos' other slot'
      rw [leaveSlot] at slot'
      have slot'' := (setSlot_found m.vvNew bucket _ none bucket' pos').symm.trans slot'
      split at slot''
      · cases slot''
      · exact slot''
    · exact fun other => modify_view unreferenced m id other (refer (-1)) fun _ => rfl
    · have empty : (m.leaveSlot bucket (info.getBucketPosition hashes m.nKey true bucket) id).vvNew
          bucket (info.getBucketPosition hashes m.nKey true bucket) = none :=
        (setSlot_found m.vvNew bucket _ none bucket _).trans (if_pos ⟨rfl, rfl⟩)
      rw [empty]
      simp
  · rename_i other
    exact ⟨sound, ⟨rfl, fun _ _ _ slot => slot, fun _ => rfl⟩, other⟩

theorem leaveBuckets_sound (limbo : Finset Nat) (spare : Int) (info : CAddrInfo) (id : Nat)
    (exempt : id ∈ limbo) (buckets : List Nat) (m : CAddrMan) (sound : Sound hashes limbo spare m) :
    Sound hashes limbo spare (buckets.foldl (leaveBucket hashes info id) m) ∧
      Leaving m (buckets.foldl (leaveBucket hashes info id) m) ∧
      ∀ bucket ∈ buckets, (buckets.foldl (leaveBucket hashes info id) m).vvNew bucket
        (info.getBucketPosition hashes m.nKey true bucket) ≠ some id := by
  induction buckets generalizing m with
  | nil =>
      exact ⟨sound, ⟨rfl, fun _ _ _ slot => slot, fun _ => rfl⟩, fun _ none => by cases none⟩
  | cons bucket buckets ih =>
      obtain ⟨sound', leaving, left⟩ :=
        leaveBucket_sound limbo spare info id exempt m bucket sound
      obtain ⟨sound'', leaving', left'⟩ := ih _ sound'
      rw [List.foldl_cons]
      refine ⟨sound'', ⟨leaving'.nKey.trans leaving.nKey, ?_, ?_⟩, ?_⟩
      · exact fun bucket' pos' other slot =>
          leaving.slots bucket' pos' other (leaving'.slots bucket' pos' other slot)
      · exact fun other => (leaving'.entries other).trans (leaving.entries other)
      · rw [List.forall_mem_cons]
        refine ⟨fun slot => left (leaving'.slots _ _ id slot), ?_⟩
        intro other member
        rw [← leaving.nKey]
        exact left' other member

/-- The entry has no references after the first loop of `MakeTried`. -/
theorem leaveNew_sound (id : Nat) (info before : CAddrInfo)
    (found : m.mapInfo id = some before) (service : before.toCService = info.toCService)
    (untried : before.fInTried = false) (sound : Sound hashes ∅ 0 m) :
    Sound hashes (insert id ∅) (0 + 1) (leaveNew hashes m info id) ∧
      (leaveNew hashes m info id).nKey = m.nKey ∧ ∃ after, (leaveNew hashes m info id).mapInfo id = some after ∧
        after.toCService = info.toCService ∧ after.fInTried = false ∧ after.nRefCount = 0 ∧
        after.nLastSuccess = before.nLastSuccess := by
  obtain ⟨sound_left, leaving, gone⟩ := leaveBuckets_sound (insert id ∅) (0 + 1) info id
    (Finset.mem_insert_self id ∅) (List.range addrmanNewBucketCount) m
    (sound_exempt ∅ 0 m id before found untried (Finset.notMem_empty id) sound)
  obtain ⟨after, there, eq⟩ := entry_of_view (leaving.entries id).symm before found
  have untried' : after.fInTried = false := (congrArg CAddrInfo.fInTried eq).symm.trans untried
  have service' : after.toCService = info.toCService :=
    (congrArg (fun info : CAddrInfo => info.toCService) eq).symm.trans service
  rw [leaveNew]
  refine ⟨sound_left, leaving.nKey, after, there, service', untried', ?_,
    (congrArg CAddrInfo.nLastSuccess eq).symm⟩
  rw [((sound_left.tabled id).new after there untried').1, Nat.cast_eq_zero, slots,
    Finset.card_eq_zero, Finset.filter_eq_empty_iff]
  intro bucket member held
  rw [holds, decide_eq_true_eq, service', leaving.nKey] at held
  exact gone bucket (List.mem_range.mpr (Finset.mem_range.mp member)) held

theorem moveToTried_sound (id : Nat) (info after : CAddrInfo)
    (there : m.mapInfo id = some after) (service : after.toCService = info.toCService)
    (untried : after.fInTried = false) (unused : after.nRefCount = 0)
    (succeeded : 0 < after.nLastSuccess) (sound : Sound hashes (insert id ∅) 0 m) :
    ∃ m', moveToTried hashes m info id = some m' ∧ Sound hashes ∅ 0 m' ∧ m'.nKey = m.nKey := by
  have exempt : id ∈ (insert id ∅ : Finset Nat) := Finset.mem_insert_self id ∅
  have erased : (insert id ∅ : Finset Nat).erase id = ∅ :=
    Finset.erase_insert (Finset.notMem_empty id)
  have idle : Idle (insert id ∅) m := by
    intro other member info' there'
    rw [Finset.mem_insert, or_iff_left (Finset.notMem_empty other)] at member
    rw [member, there] at there'
    cases there'
    exact unused
  rw [moveToTried, there, Option.bind_some, if_pos unused]
  dsimp only
  split
  · rename_i slot
    obtain ⟨m', ran, entered, key⟩ := enterTried_sound (insert id ∅) 0 m _ _ id after there exempt
      untried unused succeeded (by rw [service]) (by rw [service]) slot sound
    rw [erased] at entered
    exact ⟨m', ran, entered, key⟩
  · rename_i nIdEvict slot
    obtain ⟨evicted, ran, sound_evicted, empty, nKey, kept⟩ :=
      evict_sound (insert id ∅) 0 m _ _ nIdEvict slot idle sound
    obtain ⟨last, there', eq⟩ := entry_of_view (kept id exempt).symm after there
    have service' : last.toCService = info.toCService :=
      (congrArg (fun info : CAddrInfo => info.toCService) eq).symm.trans service
    have date : last.nLastSuccess = after.nLastSuccess := (congrArg CAddrInfo.nLastSuccess eq).symm
    obtain ⟨m', entered, sound', key⟩ := enterTried_sound (insert id ∅) 0 evicted _ _ id last there'
      exempt ((congrArg CAddrInfo.fInTried eq).symm.trans untried)
      ((congrArg CAddrInfo.nRefCount eq).symm.trans unused) (by rw [date]; exact succeeded)
      (by rw [nKey, service']) (by rw [nKey, service']) empty sound_evicted
    rw [erased] at sound'
    exact ⟨m', by rw [ran, Option.bind_some]; exact entered, sound', key.trans nKey⟩

theorem makeTried_sound (id : Nat) (info before : CAddrInfo)
    (found : m.mapInfo id = some before) (service : before.toCService = info.toCService)
    (untried : before.fInTried = false) (succeeded : 0 < before.nLastSuccess)
    (sound : Sound hashes ∅ 0 m) :
    ∃ m', makeTried hashes m info id = some m' ∧ Sound hashes ∅ 0 m' ∧ m'.nKey = m.nKey := by
  obtain ⟨sound_left, nKey, after, there, service', untried', unused, date⟩ :=
    leaveNew_sound m id info before found service untried sound
  rw [makeTried]
  generalize leaveNew hashes m info id = left at sound_left nKey there
  have renewed := sound_renew (insert id ∅) (0 + 1) (left.nNew - 1) left sound_left
  have balance : 0 + 1 + (left.nNew - 1 - left.nNew) = 0 := by omega
  rw [balance] at renewed
  obtain ⟨m', ran, sound', key⟩ := moveToTried_sound { left with nNew := left.nNew - 1 } id
    info after there service' untried' unused (by rw [date]; exact succeeded) renewed
  exact ⟨m', ran, sound', key.trans nKey⟩

/-! ## Operations -/

theorem find_some (addr : CNetAddr) (id : Nat) (info : CAddrInfo)
    (found : m.find addr = some (id, info)) : m.mapInfo id = some info := by
  rw [find, Option.bind_eq_some_iff] at found
  obtain ⟨other, -, there⟩ := found
  obtain ⟨before, there', eq⟩ := Option.map_eq_some_iff.mp there
  cases eq
  exact there'

theorem find_none (addr : CNetAddr) (listed : Listed m)
    (missing : m.find addr = none) : m.mapAddr addr = none := by
  by_contra leads
  obtain ⟨id, leads⟩ := Option.ne_none_iff_exists'.mp leads
  obtain ⟨info, found, -⟩ := listed.owned addr id leads
  rw [find, leads, Option.bind_some, found] at missing
  cases missing

/-- A change to an entry that moves it nowhere. -/
theorem sound_touch (id : Nat)
    (change : CAddrInfo → CAddrInfo) (lists : ∀ info, (change info).nRandomPos = info.nRandomPos)
    (stands : ∀ info, standing (change info) = standing info)
    (dated : ∀ info, m.mapInfo id = some info → 0 ≤ (change info).nLastTry ∧
      0 ≤ (change info).nLastSuccess ∧ (info.fInTried = true → 0 < (change info).nLastSuccess))
    (sound : Sound hashes limbo spare m) : Sound hashes limbo spare (m.modify id change) := by
  have service : ∀ info, (change info).toCService = info.toCService := fun info =>
    (Prod.mk.inj (stands info)).1
  have table : ∀ info, (change info).fInTried = info.fInTried := fun info =>
    (Prod.mk.inj (Prod.mk.inj (stands info)).2).1
  refine ⟨listed_same m _ (fun other => modify_view _ m id other change fun info => ?_) rfl rfl rfl
      sound.listed,
    tabled_same limbo m _ (fun other => modify_view standing m id other change stands) rfl rfl
      rfl sound.tabled,
    counted_same limbo spare m _ (fun other => modify_view _ m id other change table) rfl rfl rfl
      sound.counted, ?_⟩
  · rw [lists, service]
  · intro other after there
    rw [modify_found] at there
    split at there
    · obtain ⟨before, there', rfl⟩ := Option.map_eq_some_iff.mp there
      rw [table]
      exact dated before there'
    · exact sound.dated other after there

theorem good_sound (addr : CService) (nTime : Int) (draw : Nat)
    (positive : 0 < nTime) (sound : Sound hashes ∅ 0 m) :
    ∃ m', good hashes m addr nTime draw = some m' ∧ Sound hashes ∅ 0 m' ∧ m'.nKey = m.nKey := by
  rw [good]
  split
  · exact ⟨m, rfl, sound, rfl⟩
  · rename_i id info found
    have there := find_some m addr.ip id info found
    have touched : Sound hashes ∅ 0 (m.modify id (succeed nTime)) :=
      sound_touch ∅ 0 m id (succeed nTime) (fun _ => rfl) (fun _ => rfl)
        (fun _ _ => ⟨positive.le, positive.le, fun _ => positive⟩) sound
    split_ifs with different tried
    · exact ⟨m, rfl, sound, rfl⟩
    · exact ⟨_, rfl, touched, rfl⟩
    · dsimp only
      split
      · exact ⟨_, rfl, touched, rfl⟩
      · have there' : (m.modify id (succeed nTime)).mapInfo id = some (succeed nTime info) := by
          rw [modify_found, if_pos rfl, there]
          rfl
        exact makeTried_sound _ id info (succeed nTime info) there' rfl
          (Bool.eq_false_iff.mpr tried) positive touched

theorem attempt_sound (addr : CService) (nTime : Int) (nonneg : 0 ≤ nTime)
    (sound : Sound hashes ∅ 0 m) :
    Sound hashes ∅ 0 (m.attempt addr nTime) ∧ (m.attempt addr nTime).nKey = m.nKey := by
  rw [attempt]
  split
  · exact ⟨sound, rfl⟩
  · rename_i id info found
    split_ifs
    · exact ⟨sound, rfl⟩
    · refine ⟨?_, rfl⟩
      refine sound_touch ∅ 0 m id (tryOnce nTime) (fun _ => rfl) (fun _ => rfl) ?_ sound
      intro before there
      have dated := sound.dated id before there
      exact ⟨nonneg, dated.2⟩

theorem connected_sound (addr : CService) (nTime : Int)
    (sound : Sound hashes ∅ 0 m) :
    Sound hashes ∅ 0 (m.connected addr nTime) ∧ (m.connected addr nTime).nKey = m.nKey := by
  rw [connected]
  split
  · exact ⟨sound, rfl⟩
  · rename_i id info found
    split_ifs
    · exact ⟨sound, rfl⟩
    · exact ⟨sound_touch ∅ 0 m id (seen nTime) (fun _ => rfl) (fun _ => rfl)
        (fun before there => sound.dated id before there) sound, rfl⟩
    · exact ⟨sound, rfl⟩

/-! ## Adding -/

theorem addSlot_sound (id : Nat)
    (info : CAddrInfo) (source : CNetAddr) (nNow : Int) (found : m.mapInfo id = some info)
    (untried : info.fInTried = false) (few : info.nRefCount < addrmanNewBucketsPerAddress)
    (fresh_or_not : info.nRefCount = 0 ∧ limbo = insert id ∅ ∧ spare = 1 ∨
      info.nRefCount ≠ 0 ∧ limbo = ∅ ∧ spare = 0)
    (sound : Sound hashes limbo spare m) :
    ∃ m', addSlot hashes m id source nNow = some m' ∧ Sound hashes ∅ 0 m' ∧ m'.nKey = m.nKey := by
  have erased : (insert id ∅ : Finset Nat).erase id = ∅ :=
    Finset.erase_insert (Finset.notMem_empty id)
  rw [addSlot, found, Option.bind_some]
  dsimp only
  let bucket := info.getNewBucket hashes m.nKey source
  let pos := info.getBucketPosition hashes m.nKey true bucket
  have idle : Idle limbo m := by
    intro other member after there
    rcases fresh_or_not with ⟨unused, is_limbo, -⟩ | ⟨-, no_limbo, -⟩
    · rw [is_limbo, Finset.mem_insert, or_iff_left (Finset.notMem_empty other)] at member
      rw [member, found] at there
      cases there
      exact unused
    · rw [no_limbo] at member
      exact absurd member (Finset.notMem_empty other)
  by_cases has : m.vvNew bucket pos = some id
  · rw [if_pos has]
    rcases fresh_or_not with ⟨unused, -, -⟩ | ⟨-, rfl, rfl⟩
    · exact absurd has (tabled_idle limbo m sound.tabled id info found unused bucket pos)
    · exact ⟨m, rfl, sound, rfl⟩
  · rw [if_neg has]
    obtain ⟨insert_it, decided⟩ : ∃ insert_it,
        fInsert m (m.vvNew bucket pos) info nNow = some insert_it := by
      cases slot : m.vvNew bucket pos with
      | none => exact ⟨true, rfl⟩
      | some existing =>
          obtain ⟨-, other, there, -⟩ := (sound.tabled existing).newSlot bucket pos slot
          exact ⟨_, by rw [fInsert, there]; rfl⟩
    rw [decided, Option.bind_some]
    cases insert_it with
    | true =>
        rw [if_pos rfl]
        obtain ⟨cleared, ran, sound', kept⟩ :=
          clearNew_sound limbo spare m bucket pos idle sound
        obtain ⟨after, there, eq⟩ := entry_of_view (kept.kept id has).symm info found
        have service : after.toCService = info.toCService :=
          (congrArg (fun info : CAddrInfo => info.toCService) eq).symm
        have refs : after.nRefCount = info.nRefCount := (congrArg CAddrInfo.nRefCount eq).symm
        have untried' : after.fInTried = false :=
          (congrArg CAddrInfo.fInTried eq).symm.trans untried
        have filled := sound_fill limbo spare cleared bucket pos id after kept.slot there
          untried' (by rw [refs]; exact few) (Nat.mod_lt _ (by decide))
          (by rw [kept.nKey, service]) sound'
        refine ⟨_, by rw [ran]; rfl, ?_⟩
        rcases fresh_or_not with ⟨unused, rfl, rfl⟩ | ⟨-, rfl, rfl⟩
        · have own : (cleared.fillSlot bucket pos id).mapInfo id = some (refer 1 after) := by
            refine (modify_found cleared id id (refer 1)).trans ?_
            rw [if_pos rfl, there]
            rfl
          have settled := sound_settle (insert id ∅) 1 _ id (refer 1 after) own untried'
            (by rw [refer]; dsimp only; omega) (Finset.mem_insert_self id ∅) filled
          rw [erased] at settled
          exact ⟨settled, kept.nKey⟩
        · exact ⟨filled, kept.nKey⟩
    | false =>
        rw [if_neg Bool.false_ne_true]
        rcases fresh_or_not with ⟨unused, rfl, rfl⟩ | ⟨used, rfl, rfl⟩
        · obtain ⟨m', ran, gone, without⟩ := sound_delete (insert id ∅) 1 m id info found untried
            unused (Finset.mem_insert_self id ∅) sound
          rw [erased] at gone
          rw [if_pos unused]
          exact ⟨m', ran, gone, without.nKey⟩
        · rw [if_neg used]
          exact ⟨m, rfl, sound, rfl⟩

/-- The entry that `Create` makes. -/
def created (m : CAddrMan) (addr : CAddress) (addrSource : CNetAddr) : CAddrInfo :=
  ⟨addr, 0, addrSource, 0, 0, 0, false, m.vRandom.length⟩

theorem create_found (addr : CAddress) (addrSource : CNetAddr) (id : Nat) :
    (m.create addr addrSource).1.mapInfo id =
      if id = m.nIdCount then some (m.created addr addrSource) else m.mapInfo id :=
  Function.update_apply m.mapInfo m.nIdCount _ id

theorem create_listed (addr : CAddress) (addrSource : CNetAddr)
    (new : m.mapAddr addr.ip = none) (listed : Listed m) :
    Listed (m.create addr addrSource).1 := by
  have found := create_found m addr addrSource
  have fresh : m.mapInfo m.nIdCount = none := by
    by_contra present
    exact Nat.lt_irrefl _ (listed.fresh m.nIdCount (Option.isSome_iff_ne_none.mpr present))
  have outside : m.nIdCount ∉ m.vRandom := by
    rw [listed.listed, fresh]
    exact Bool.false_ne_true
  have list : (m.create addr addrSource).1.vRandom = m.vRandom ++ [m.nIdCount] := rfl
  have leads : ∀ ip, (m.create addr addrSource).1.mapAddr ip =
      if ip = addr.ip then some m.nIdCount else m.mapAddr ip :=
    fun ip => Function.update_apply m.mapAddr addr.ip _ ip
  refine ⟨?_, ?_, ?_, ?_, ?_, ?_⟩
  · rw [list]
    exact List.nodup_append.mpr ⟨listed.distinct, List.nodup_singleton _,
      fun id member other last => by
        rw [List.mem_singleton.mp last]
        exact fun eq => outside (eq ▸ member)⟩
  · intro id
    rw [list, found]
    split
    · rename_i own
      rw [own]
      simp
    · rename_i different
      rw [List.mem_append, List.mem_singleton, or_iff_left different]
      exact listed.listed id
  · intro id info there
    rw [found] at there
    rw [list]
    split at there
    · rename_i own
      cases there
      rw [own, created]
      simp
    · have stays := listed.position id info there
      rw [List.getElem?_append_left (List.getElem?_eq_some_iff.mp stays).1]
      exact stays
  · intro id info there
    rw [found] at there
    rw [leads]
    split at there
    · rename_i own
      cases there
      rw [own]
      exact if_pos rfl
    · have stays := listed.address id info there
      rw [if_neg]
      · exact stays
      · intro eq
        rw [eq, new] at stays
        cases stays
  · intro ip id there
    rw [leads] at there
    split at there
    · rename_i own
      cases there
      exact ⟨m.created addr addrSource, by rw [found, if_pos rfl], own.symm⟩
    · obtain ⟨info, present, own⟩ := listed.owned ip id there
      have different : id ≠ m.nIdCount := by
        rintro rfl
        rw [fresh] at present
        cases present
      exact ⟨info, by rw [found, if_neg different]; exact present, own⟩
  · intro id present
    rw [found] at present
    have count : (m.create addr addrSource).1.nIdCount = m.nIdCount + 1 := rfl
    rw [count]
    split at present
    · omega
    · exact Nat.lt_succ_of_lt (listed.fresh id present)

theorem create_tabled (addr : CAddress) (addrSource : CNetAddr)
    (fresh : m.mapInfo m.nIdCount = none) (tabled : Tabled hashes ∅ m) :
    Tabled hashes (insert m.nIdCount ∅) (m.create addr addrSource).1 := by
  have found := create_found m addr addrSource
  have own : (m.create addr addrSource).1.mapInfo m.nIdCount =
      some (m.created addr addrSource) := by rw [found, if_pos rfl]
  have idle : ∀ bucket pos, m.vvNew bucket pos ≠ some m.nIdCount := by
    intro bucket pos slot
    obtain ⟨-, info, there, -⟩ := (tabled m.nIdCount).newSlot bucket pos slot
    rw [fresh] at there
    cases there
  refine tabled_change ∅ _ m _ m.nIdCount rfl
    (fun other different => by rw [found, if_neg different]) (fun _ _ _ _ => Iff.rfl)
    (fun _ _ _ _ => Iff.rfl) (fun other different => by simp [different]) ⟨?_, ?_, ?_, ?_, ?_⟩ tabled
  · intro bucket pos slot
    obtain ⟨info, there, -⟩ := (tabled m.nIdCount).triedSlot bucket pos slot
    rw [fresh] at there
    cases there
  · exact fun bucket pos slot => (idle bucket pos slot).elim
  · intro info there isTried
    rw [own] at there
    cases there
    cases isTried
  · intro info there _
    rw [own] at there
    cases there
    have none : slots hashes (m.create addr addrSource).1 m.nIdCount addr.toCService = 0 := by
      rw [slots, Finset.card_eq_zero, Finset.filter_eq_empty_iff]
      intro bucket _ held
      rw [holds, decide_eq_true_eq] at held
      exact idle bucket _ held
    have service : (m.created addr addrSource).toCService = addr.toCService := rfl
    rw [service, none]
    have few : (0 : Int) ≤ addrmanNewBucketsPerAddress := by decide
    exact ⟨rfl, few, fun outside => absurd (Finset.mem_insert_self _ ∅) outside⟩
  · exact fun _ => ⟨m.created addr addrSource, own, rfl⟩

theorem create_counted (addr : CAddress) (addrSource : CNetAddr)
    (counted : Counted ∅ 0 m) :
    Counted (insert m.nIdCount ∅) 0 (m.create addr addrSource).1 := by
  have found := create_found m addr addrSource
  have count : (m.create addr addrSource).1.nIdCount = m.nIdCount + 1 := rfl
  have own : (m.create addr addrSource).1.mapInfo m.nIdCount =
      some (m.created addr addrSource) := by rw [found, if_pos rfl]
  have before : ∀ id ∈ Finset.range m.nIdCount,
      (m.create addr addrSource).1.isTried id = m.isTried id ∧
      (m.create addr addrSource).1.isNew (insert m.nIdCount ∅) id = m.isNew ∅ id := by
    intro id member
    have different : id ≠ m.nIdCount := (Finset.mem_range.mp member).ne
    exact isNew_other ∅ _ m _ id (by rw [found, if_neg different]) (by simp [different])
  constructor
  · rw [count, Finset.range_add_one, Finset.filter_insert, isTried_found _ _ _ own]
    rw [if_neg (by rw [created]; exact Bool.false_ne_true),
      Finset.filter_congr fun id member => by rw [(before id member).1]]
    exact counted.nTried
  · rw [count, Finset.range_add_one, Finset.filter_insert, isNew_found _ _ _ _ own]
    rw [if_neg (by simp), Finset.filter_congr fun id member => by rw [(before id member).2]]
    exact counted.nNew

theorem create_sound (addr : CAddress) (addrSource : CNetAddr)
    (new : m.mapAddr addr.ip = none) (sound : Sound hashes ∅ 0 m) :
    Sound hashes (insert m.nIdCount ∅) 0 (m.create addr addrSource).1 := by
  have fresh : m.mapInfo m.nIdCount = none := by
    by_contra present
    exact Nat.lt_irrefl _ (sound.listed.fresh m.nIdCount (Option.isSome_iff_ne_none.mpr present))
  refine ⟨create_listed m addr addrSource new sound.listed,
    create_tabled m addr addrSource fresh sound.tabled,
    create_counted m addr addrSource sound.counted, ?_⟩
  intro id info there
  rw [create_found] at there
  split at there
  · cases there
    exact ⟨le_refl 0, le_refl 0, fun impossible => by cases impossible⟩
  · exact sound.dated id info there

theorem enrol_sound (addr : CAddress) (source : CNetAddr) (nTimePenalty : Int)
    (new : m.mapAddr addr.ip = none) (sound : Sound hashes ∅ 0 m) :
    Sound hashes (insert m.nIdCount ∅) 1 (m.enrol addr source nTimePenalty).1 := by
  have made := create_sound m addr source new sound
  have touched := sound_touch (insert m.nIdCount ∅) 0 _ m.nIdCount
    (penalise nTimePenalty) (fun _ => rfl) (fun _ => rfl)
    (fun before there => made.dated m.nIdCount before there) made
  have counted := sound_renew (insert m.nIdCount ∅) 0 (m.nNew + 1) _ touched
  have one : 0 + (m.nNew + 1 -
      ((m.create addr source).1.modify m.nIdCount (penalise nTimePenalty)).nNew) = 1 := by
    have same : ((m.create addr source).1.modify m.nIdCount (penalise nTimePenalty)).nNew =
        m.nNew := rfl
    omega
  rw [one] at counted
  exact counted

theorem enrol_found (addr : CAddress) (source : CNetAddr) (nTimePenalty : Int) :
    (m.enrol addr source nTimePenalty).1.mapInfo m.nIdCount =
      some (penalise nTimePenalty (m.created addr source)) := by
  refine (modify_found (m.create addr source).1 m.nIdCount m.nIdCount _).trans ?_
  rw [if_pos rfl, create_found, if_pos rfl]
  rfl

theorem add_sound (addr : CAddress) (source : CNetAddr)
    (nTimePenalty nNow : Int) (draw : Nat) (sound : Sound hashes ∅ 0 m) :
    ∃ m' fNew, add hashes m addr source nTimePenalty nNow draw = some (m', fNew) ∧
      Sound hashes ∅ 0 m' ∧ m'.nKey = m.nKey := by
  rw [add]
  split
  · exact ⟨m, false, rfl, sound, rfl⟩
  · split
    · rename_i id info found
      have there := find_some m addr.ip id info found
      have touched : Sound hashes ∅ 0 (m.modify id (refresh addr nTimePenalty nNow)) :=
        sound_touch ∅ 0 m id _ (fun _ => rfl) (fun _ => rfl)
          (fun before there => sound.dated id before there) sound
      have there' : (m.modify id (refresh addr nTimePenalty nNow)).mapInfo id =
          some (refresh addr nTimePenalty nNow info) := by
        rw [modify_found, if_pos rfl, there]
        rfl
      dsimp only
      split_ifs with old tried full unlucky
      · exact ⟨_, false, rfl, touched, rfl⟩
      · exact ⟨_, false, rfl, touched, rfl⟩
      · exact ⟨_, false, rfl, touched, rfl⟩
      · exact ⟨_, false, rfl, touched, rfl⟩
      · have untried : (refresh addr nTimePenalty nNow info).fInTried = false :=
          Bool.eq_false_iff.mpr tried
        obtain ⟨-, few, positive⟩ := (touched.tabled id).new _ there' untried
        have used := positive (Finset.notMem_empty id)
        obtain ⟨m', ran, sound', key⟩ := addSlot_sound ∅ 0 _ id _ source nNow there' untried
          (by omega) (.inr ⟨by omega, rfl, rfl⟩) touched
        exact ⟨m', false, by rw [ran]; rfl, sound', key⟩
    · rename_i missing
      have enrolled := enrol_sound m addr source nTimePenalty
        (find_none m addr.ip sound.listed missing) sound
      have few : (0 : Int) < addrmanNewBucketsPerAddress := by decide
      obtain ⟨m', ran, sound', key⟩ := addSlot_sound (insert m.nIdCount ∅) 1 _ m.nIdCount _ source
        nNow (enrol_found m addr source nTimePenalty) rfl few (.inl ⟨rfl, rfl, rfl⟩) enrolled
      exact ⟨m', true, congrArg (Option.map fun m => (m, true)) ran, sound', key⟩

/-! ## Reading -/

theorem empty_sound (nKey : Uint256) : Sound hashes ∅ 0 (empty nKey) where
  listed := {
    distinct := List.nodup_nil
    listed := fun id => by simp [empty]
    position := fun id info found => by cases found
    address := fun id info found => by cases found
    owned := fun ip id leads => by cases leads
    fresh := fun id present => by cases present }
  tabled id := {
    triedSlot := fun bucket pos slot => by cases slot
    newSlot := fun bucket pos slot => by cases slot
    tried := fun info found => by cases found
    new := fun info found => by cases found
    limbo := fun member => (Finset.notMem_empty id member).elim }
  counted := ⟨rfl, rfl⟩
  dated id info found := by cases found

theorem Moved.refl (m : CAddrMan) : Moved m m :=
  ⟨rfl, rfl, rfl, rfl, rfl, rfl, rfl, rfl, fun _ => rfl⟩

theorem Moved.trans {m m' m'' : CAddrMan} (first : Moved m m') (second : Moved m' m'') :
    Moved m m'' where
  nKey := second.nKey.trans first.nKey
  nIdCount := second.nIdCount.trans first.nIdCount
  mapAddr := second.mapAddr.trans first.mapAddr
  nTried := second.nTried.trans first.nTried
  vvTried := second.vvTried.trans first.vvTried
  nNew := second.nNew.trans first.nNew
  vvNew := second.vvNew.trans first.vvNew
  length := second.length.trans first.length
  entries id := (second.entries id).trans (first.entries id)

theorem Moved.perm {m m' : CAddrMan} (moved : Moved m m') (listed : Listed m)
    (listed' : Listed m') : m'.vRandom.Perm m.vRandom := by
  refine (List.perm_ext_iff_of_nodup listed'.distinct listed.distinct).mpr fun id => ?_
  rw [listed'.listed, listed.listed, isSome_of_view (moved.entries id)]

/-- What `GetAddr_` takes from an entry. -/
def offer (m : CAddrMan) (nNow : Int) (id : Nat) : Option CAddress :=
  (m.mapInfo id).bind fun ai => if ai.isTerrible nNow then none else some ai.toCAddress

theorem Moved.offer {m m' : CAddrMan} (moved : Moved m m') (nNow : Int) :
    m'.offer nNow = m.offer nNow := by
  funext id
  have same := congrArg (fun entry : Option CAddrInfo => entry.bind fun ai =>
    if ai.isTerrible nNow then none else some ai.toCAddress) (moved.entries id)
  simp only [Option.bind_map] at same
  exact same

theorem swapRandom_front (m m' : CAddrMan) (nRndPos1 nRndPos2 front : Nat)
    (after1 : front ≤ nRndPos1) (after2 : front ≤ nRndPos2)
    (swapped : m.swapRandom nRndPos1 nRndPos2 = some m') :
    m'.vRandom.take front = m.vRandom.take front := by
  rw [swapRandom] at swapped
  split_ifs at swapped
  · cases swapped
    rfl
  · obtain ⟨nId1, -, swapped⟩ := Option.bind_eq_some_iff.mp swapped
    obtain ⟨nId2, -, swapped⟩ := Option.bind_eq_some_iff.mp swapped
    split_ifs at swapped
    cases swapped
    rw [exchange, List.take_set_of_le after2, List.take_set_of_le after1]

/-- The loop takes the good addresses of the first positions, which it leaves as they are. -/
theorem getAddrLoop_sound (nNow : Int) (draws : Nat → Nat) (nNodes left n : Nat) (m : CAddrMan)
    (vAddr : List CAddress) (sound : Sound hashes ∅ 0 m) (all : n + left = m.vRandom.length)
    (taken : vAddr = (m.vRandom.take n).filterMap (m.offer nNow)) (few : vAddr.length ≤ nNodes) :
    ∃ m' vAddr' front, m.getAddrLoop nNow draws nNodes left n vAddr = some (m', vAddr') ∧
      Sound hashes ∅ 0 m' ∧ Moved m m' ∧
      vAddr' = (m'.vRandom.take front).filterMap (m'.offer nNow) ∧ vAddr'.length ≤ nNodes ∧
      (m'.vRandom.length ≤ front ∨ nNodes ≤ vAddr'.length) := by
  induction left generalizing n m vAddr with
  | zero =>
      exact ⟨m, vAddr, n, rfl, sound, Moved.refl m, taken, few, .inl (by omega)⟩
  | succ left ih =>
      rw [getAddrLoop]
      split_ifs with full
      · exact ⟨m, vAddr, n, rfl, sound, Moved.refl m, taken, few, .inr full⟩
      · have inside : n < m.vRandom.length := by omega
        have there : getRandInt (draws n) (m.vRandom.length - n) + n < m.vRandom.length := by
          have below := Nat.mod_lt (draws n) (Nat.sub_pos_of_lt inside)
          rw [getRandInt, if_neg (Nat.sub_ne_zero_of_lt inside)]
          omega
        obtain ⟨m', swapped, listed, moved, -⟩ := swapRandom_listed m sound.listed n
          (getRandInt (draws n) (m.vRandom.length - n) + n) _ _
          (List.getElem?_eq_getElem inside) (List.getElem?_eq_getElem there)
        have sound' := sound_moved ∅ 0 m m' moved listed sound
        have inside' : n < m'.vRandom.length := by
          rw [moved.length]
          exact inside
        have next := List.getElem?_eq_getElem inside'
        obtain ⟨ai, found⟩ := Option.isSome_iff_exists.mp
          ((listed.listed _).mp (List.getElem_mem inside'))
        have front := swapRandom_front m m' n _ n (Nat.le_refl n) (Nat.le_add_left _ _) swapped
        have offers : m'.offer nNow m'.vRandom[n] =
            if ai.isTerrible nNow then none else some ai.toCAddress := by
          rw [offer, found]
          rfl
        have taken' : (if ai.isTerrible nNow then vAddr else vAddr ++ [ai.toCAddress]) =
            (m'.vRandom.take (n + 1)).filterMap (m'.offer nNow) := by
          rw [List.take_succ_eq_append_getElem inside', List.filterMap_append, front, moved.offer,
            ← taken, ← moved.offer nNow, List.filterMap_cons, List.filterMap_nil, offers]
          cases ai.isTerrible nNow with
          | true => exact (List.append_nil vAddr).symm
          | false => rfl
        have few' : (if ai.isTerrible nNow then vAddr
            else vAddr ++ [ai.toCAddress]).length ≤ nNodes := by
          split_ifs
          · exact few
          · rw [List.length_append, List.length_singleton]
            omega
        obtain ⟨last, vAddr', stop, ran, kept, moves, result⟩ := ih (n + 1) m' _ sound'
          (by rw [moved.length]; omega) taken' few'
        refine ⟨last, vAddr', stop, ?_, kept, moved.trans moves, result⟩
        dsimp only
        rw [swapped, Option.bind_some, next, Option.bind_some, found, Option.bind_some]
        exact ran

/-- A sample of the addresses that are not terrible. -/
structure Sampled (m : CAddrMan) (nNow : Int) (vAddr : List CAddress) : Prop where
  distinct : (vAddr.map fun addr => addr.ip).Nodup
  good : ∀ addr ∈ vAddr, ∃ id info, m.mapInfo id = some info ∧ info.isTerrible nNow = false ∧
    info.toCAddress = addr
  few : vAddr.length ≤ min (addrmanGetaddrMaxPct * m.vRandom.length / 100) addrmanGetaddrMax
  all : vAddr.length < min (addrmanGetaddrMaxPct * m.vRandom.length / 100) addrmanGetaddrMax →
    ∀ id info, m.mapInfo id = some info → info.isTerrible nNow = false → info.toCAddress ∈ vAddr

theorem offer_iff (m : CAddrMan) (nNow : Int) (id : Nat) (addr : CAddress) :
    m.offer nNow id = some addr ↔ ∃ info, m.mapInfo id = some info ∧
      info.isTerrible nNow = false ∧ info.toCAddress = addr := by
  rw [offer, Option.bind_eq_some_iff]
  refine exists_congr fun info => and_congr_right fun _ => ?_
  cases info.isTerrible nNow <;> simp

/-- Different ids have different addresses. -/
theorem offer_distinct (m : CAddrMan) (listed : Listed m) (nNow : Int) (id other : Nat)
    (ip : CNetAddr) (first : (m.offer nNow id).map (fun addr => addr.ip) = some ip)
    (second : (m.offer nNow other).map (fun addr => addr.ip) = some ip) : id = other := by
  obtain ⟨addr, offered, rfl⟩ := Option.map_eq_some_iff.mp first
  obtain ⟨addr', offered', same⟩ := Option.map_eq_some_iff.mp second
  obtain ⟨info, found, -, rfl⟩ := (offer_iff m nNow id addr).mp offered
  obtain ⟨info', found', -, rfl⟩ := (offer_iff m nNow other addr').mp offered'
  have leads := listed.address id info found
  have leads' := listed.address other info' found'
  rw [same, leads] at leads'
  exact Option.some.inj leads'

theorem getAddr_sound (m : CAddrMan) (nNow : Int) (draws : Nat → Nat)
    (sound : Sound hashes ∅ 0 m) :
    ∃ m' vAddr, m.getAddr nNow draws = some (m', vAddr) ∧ Sound hashes ∅ 0 m' ∧ Moved m m' ∧
      Sampled m nNow vAddr := by
  obtain ⟨m', vAddr, front, ran, sound', moved, taken, few, stopped⟩ :=
    getAddrLoop_sound nNow draws
      (min (addrmanGetaddrMaxPct * m.vRandom.length / 100) addrmanGetaddrMax) m.vRandom.length 0 m
      [] sound (Nat.zero_add _) rfl (Nat.zero_le _)
  have perm := moved.perm sound.listed sound'.listed
  refine ⟨m', vAddr, ran, sound', moved, ⟨?_, ?_, few, ?_⟩⟩
  · rw [taken, List.map_filterMap]
    refine List.Nodup.filterMap (fun id other ip first second => ?_)
      (sound'.listed.distinct.sublist (List.take_sublist front _))
    exact offer_distinct m' sound'.listed nNow id other ip first second
  · intro addr member
    rw [taken, moved.offer] at member
    obtain ⟨id, -, offered⟩ := List.mem_filterMap.mp member
    obtain ⟨info, found, fine⟩ := (offer_iff m nNow id addr).mp offered
    exact ⟨id, info, found, fine⟩
  · intro short id info found fine
    have whole : m'.vRandom.take front = m'.vRandom := by
      rcases stopped with stopped | stopped
      · exact List.take_of_length_le stopped
      · omega
    have member : id ∈ m'.vRandom := by
      rw [perm.mem_iff, sound.listed.listed, found]
      rfl
    rw [taken, whole, moved.offer]
    exact List.mem_filterMap.mpr ⟨id, member, (offer_iff m nNow id _).mpr ⟨info, found, fine, rfl⟩⟩

/-! ## Choosing -/

/-- The tables share the listed addresses between them. -/
theorem size_counted (m : CAddrMan) (sound : Sound hashes ∅ 0 m) :
    (m.vRandom.length : Int) = m.nTried + m.nNew := by
  have ids : m.vRandom.toFinset = (Finset.range m.nIdCount).filter fun id =>
      m.isTried id = true ∨ m.isNew ∅ id = true := by
    ext id
    rw [List.mem_toFinset, sound.listed.listed, Finset.mem_filter, Finset.mem_range]
    constructor
    · intro present
      refine ⟨sound.listed.fresh id present, ?_⟩
      obtain ⟨info, found⟩ := Option.isSome_iff_exists.mp present
      rw [isTried_found m id info found, isNew_found ∅ m id info found]
      cases info.fInTried <;> simp
    · rintro ⟨-, tried | new⟩
      · by_contra missing
        rw [isTried, Option.not_isSome_iff_eq_none.mp missing] at tried
        cases tried
      · by_contra missing
        rw [isNew, Option.not_isSome_iff_eq_none.mp missing] at new
        cases new
  have apart : Disjoint ((Finset.range m.nIdCount).filter fun id => m.isTried id = true)
      ((Finset.range m.nIdCount).filter fun id => m.isNew ∅ id = true) := by
    refine Finset.disjoint_filter.mpr fun id _ tried new => ?_
    rw [isTried] at tried
    rw [isNew] at new
    cases found : m.mapInfo id with
    | none => rw [found] at tried; cases tried
    | some info =>
        rw [found, Option.map_some, Option.getD_some] at tried new
        rw [tried] at new
        cases new
  have counted := List.toFinset_card_of_nodup sound.listed.distinct
  rw [ids, Finset.filter_or, Finset.card_union_of_disjoint apart] at counted
  rw [sound.counted.nTried, sound.counted.nNew]
  omega

variable (hashes) in
theorem getTriedBucket_lt (service : CService) (nKey : Uint256) :
    service.getTriedBucket hashes nKey < addrmanTriedBucketCount :=
  Nat.mod_lt _ (by decide)

variable (hashes) in
theorem getBucketPosition_lt (service : CService) (nKey : Uint256) (fNew : Bool) (nBucket : Nat) :
    service.getBucketPosition hashes nKey fNew nBucket < addrmanBucketSize :=
  Nat.mod_lt _ (by decide)

/-- Where entries are counted as tried, the table has one. -/
theorem tried_slot (m : CAddrMan) (sound : Sound hashes ∅ 0 m) (some_tried : 0 < m.nTried) :
    ∃ bucket pos id, bucket < addrmanTriedBucketCount ∧ pos < addrmanBucketSize ∧
      m.vvTried bucket pos = some id := by
  rw [sound.counted.nTried, Int.natCast_pos, Finset.card_pos] at some_tried
  obtain ⟨id, member⟩ := some_tried
  have tried := (Finset.mem_filter.mp member).2
  cases found : m.mapInfo id with
  | none => rw [isTried, found] at tried; cases tried
  | some info =>
      rw [isTried_found m id info found] at tried
      exact ⟨_, _, id, getTriedBucket_lt hashes _ _, getBucketPosition_lt hashes _ _ _ _,
        ((sound.tabled id).tried info found tried).1⟩

theorem new_slot (m : CAddrMan) (sound : Sound hashes ∅ 0 m) (some_new : 0 < m.nNew) :
    ∃ bucket pos id, bucket < addrmanNewBucketCount ∧ pos < addrmanBucketSize ∧
      m.vvNew bucket pos = some id := by
  rw [sound.counted.nNew, add_zero, Int.natCast_pos, Finset.card_pos] at some_new
  obtain ⟨id, member⟩ := some_new
  have new := (Finset.mem_filter.mp member).2
  cases found : m.mapInfo id with
  | none => rw [isNew, found] at new; cases new
  | some info =>
      rw [isNew_found ∅ m id info found, Bool.and_eq_true, Bool.not_eq_true'] at new
      obtain ⟨count, -, used⟩ := (sound.tabled id).new info found new.1
      have positive := used (Finset.notMem_empty id)
      rw [count, Int.natCast_pos, slots, Finset.card_pos] at positive
      obtain ⟨bucket, member⟩ := positive
      obtain ⟨inside, here⟩ := Finset.mem_filter.mp member
      exact ⟨bucket, _, id, Finset.mem_range.mp inside, getBucketPosition_lt hashes _ _ _ _,
        of_decide_eq_true here⟩

section Loop

variable (m : CAddrMan) (table : Nat → Nat → Option Nat) (count : Nat)

/-- A loop of `Select_` meets no slot without an entry. -/
theorem selectLoop_found (right : CAddrInfo → Prop) (draws : List SelectDraw)
    (entries : ∀ bucket pos id, table bucket pos = some id →
      ∃ info, m.mapInfo id = some info ∧ right info) :
    ∃ selected, m.selectLoop table count draws = some selected ∧ (selected = .going ∨
      ∃ id info, selected = .entry info ∧ m.mapInfo id = some info ∧ right info) := by
  induction draws with
  | nil => exact ⟨.going, rfl, .inl rfl⟩
  | cons draw draws ih =>
      rw [selectLoop]
      split
      · exact ih
      · rename_i id slot
        obtain ⟨info, found, fits⟩ := entries _ _ id slot
        rw [found, Option.bind_some]
        split_ifs
        · exact ⟨.entry info, rfl, .inr ⟨id, info, rfl, found, fits⟩⟩
        · exact ih

/-- One more turn can end the loop. -/
theorem selectLoop_ends (bucket pos id : Nat) (info : CAddrInfo) (draws : List SelectDraw)
    (inside : bucket < count) (within : pos < addrmanBucketSize) (slot : table bucket pos = some id)
    (found : m.mapInfo id = some info) (going : m.selectLoop table count draws = some .going) :
    m.selectLoop table count (draws ++ [⟨bucket, pos, true⟩]) = some (.entry info) := by
  induction draws with
  | nil =>
      have drawn : getRandInt bucket count = bucket := by
        rw [getRandInt, if_neg (by omega), Nat.mod_eq_of_lt inside]
      have placed : getRandInt pos addrmanBucketSize = pos := by
        rw [getRandInt, if_neg (by omega), Nat.mod_eq_of_lt within]
      rw [List.nil_append, selectLoop, drawn, placed, slot]
      dsimp only
      rw [found, Option.bind_some, if_pos rfl]
  | cons draw draws ih =>
      rw [selectLoop] at going
      rw [List.cons_append, selectLoop]
      split at going
      · rename_i empty
        exact ih going
      · rename_i other taken
        obtain ⟨info', found', going⟩ := Option.bind_eq_some_iff.mp going
        rw [found', Option.bind_some]
        split_ifs at going ⊢
        · cases going
        · exact ih going

end Loop

/-- Whether `Select_` takes the tried table. -/
def triesTried (m : CAddrMan) (coin : Nat) : Bool :=
  decide (m.nTried > 0 ∧ (m.nNew = 0 ∨ getRandInt coin 2 = 0))

/-- What `Select_` gives on draws: an entry of its table, or the draws do not end its loop, but one
more turn can. -/
structure Choice (m : CAddrMan) (coin : Nat) (draws : List SelectDraw) (selected : Selected) :
    Prop where
  noAddress : selected = .noAddress ↔ m.vRandom = []
  entry : ∀ info, selected = .entry info → info.fInTried = m.triesTried coin ∧
    ∃ id, m.mapInfo id = some info
  going : selected = .going → ∃ draw info,
    m.select coin (draws ++ [draw]) = some (.entry info)

/-- `Select_` where it loops over a table that has an entry. -/
theorem choice_of_table (m : CAddrMan) (coin : Nat) (draws : List SelectDraw)
    (table : Nat → Nat → Option Nat) (count bucket pos id : Nat) (not_empty : m.vRandom ≠ [])
    (loops : ∀ draws, m.select coin draws = m.selectLoop table count draws)
    (entries : ∀ bucket pos id, table bucket pos = some id →
      ∃ info, m.mapInfo id = some info ∧ info.fInTried = m.triesTried coin)
    (inside : bucket < count) (within : pos < addrmanBucketSize)
    (slot : table bucket pos = some id) :
    ∃ selected, m.select coin draws = some selected ∧ Choice m coin draws selected := by
  obtain ⟨selected, ran, result⟩ := selectLoop_found m table count
    (fun info => info.fInTried = m.triesTried coin) draws entries
  obtain ⟨info, found, -⟩ := entries bucket pos id slot
  refine ⟨selected, (loops draws).trans ran, ?_, ?_, ?_⟩
  · refine ⟨fun nothing => ?_, fun empty => (not_empty empty).elim⟩
    rcases result with going | ⟨other, info', chosen, -⟩
    · rw [nothing] at going
      cases going
    · rw [nothing] at chosen
      cases chosen
  · intro info' chosen
    rcases result with going | ⟨other, info'', chosen', found', right⟩
    · rw [chosen] at going
      cases going
    · rw [chosen] at chosen'
      cases chosen'
      exact ⟨right, other, found'⟩
  · intro going
    rw [going] at ran
    refine ⟨⟨bucket, pos, true⟩, info, (loops _).trans ?_⟩
    exact selectLoop_ends m table count bucket pos id info draws inside within slot found ran

theorem select_sound (m : CAddrMan) (coin : Nat) (draws : List SelectDraw)
    (sound : Sound hashes ∅ 0 m) :
    ∃ selected, m.select coin draws = some selected ∧ Choice m coin draws selected := by
  have size := size_counted m sound
  by_cases none_there : m.vRandom.length = 0
  · refine ⟨.noAddress, by rw [select, if_pos none_there], ?_, ?_, ?_⟩
    · exact ⟨fun _ => List.length_eq_zero_iff.mp none_there, fun _ => rfl⟩
    · intro info impossible
      cases impossible
    · intro impossible
      cases impossible
  · have not_empty : m.vRandom ≠ [] := fun empty => none_there (by rw [empty]; rfl)
    by_cases chosen : m.nTried > 0 ∧ (m.nNew = 0 ∨ getRandInt coin 2 = 0)
    · obtain ⟨bucket, pos, id, inside, within, slot⟩ := tried_slot m sound chosen.1
      refine choice_of_table m coin draws m.vvTried addrmanTriedBucketCount bucket pos id not_empty
        (fun draws => by rw [select, if_neg none_there, if_pos chosen]) ?_ inside within slot
      intro bucket pos id slot
      obtain ⟨info, found, tried, -⟩ := (sound.tabled id).triedSlot bucket pos slot
      exact ⟨info, found, tried.trans (decide_eq_true chosen).symm⟩
    · have nonneg : 0 ≤ m.nTried := by
        rw [sound.counted.nTried]
        exact Int.natCast_nonneg _
      have some_new : 0 < m.nNew := by
        have least : 0 ≤ m.nNew := by
          rw [sound.counted.nNew, add_zero]
          exact Int.natCast_nonneg _
        by_contra no_new
        exact chosen ⟨by omega, .inl (by omega)⟩
      obtain ⟨bucket, pos, id, inside, within, slot⟩ := new_slot m sound some_new
      refine choice_of_table m coin draws m.vvNew addrmanNewBucketCount bucket pos id not_empty
        (fun draws => by rw [select, if_neg none_there, if_neg chosen]) ?_ inside within slot
      intro bucket pos id slot
      obtain ⟨-, info, found, new, -⟩ := (sound.tabled id).newSlot bucket pos slot
      exact ⟨info, found, new.trans (decide_eq_false chosen).symm⟩

/-! ## `Check_` -/

/-- The sets that `Check_` fills and empties again. -/
structure Checking where
  setTried : Finset Nat
  mapNew : Nat → Option Int

/-- The part of the first loop of `Check_` that depends on the table of the entry. -/
def checkTable (c : Checking) (n : Nat) (info : CAddrInfo) : Except Int Checking :=
  if info.fInTried then do
    require (info.nLastSuccess ≠ 0) (-1)
    require (info.nRefCount = 0) (-2)
    pure { c with setTried := insert n c.setTried }
  else do
    require (0 ≤ info.nRefCount ∧ info.nRefCount ≤ addrmanNewBucketsPerAddress) (-3)
    require (info.nRefCount ≠ 0) (-4)
    pure { c with mapNew := Function.update c.mapNew n (some info.nRefCount) }

def checkEntry (m : CAddrMan) (c : Checking) (n : Nat) : Except Int Checking :=
  match m.mapInfo n with
  | none => pure c
  | some info => do
      let c ← checkTable c n info
      require ((m.mapAddr info.ip).getD 0 = n) (-5)
      require (m.vRandom[info.nRandomPos]? = some n) (-14)
      require (0 ≤ info.nLastTry) (-6)
      require (0 ≤ info.nLastSuccess) (-8)
      pure c

variable (hashes) in
def checkTriedSlot (m : CAddrMan) (c : Checking) (slot : Nat × Nat) : Except Int Checking :=
  match m.vvTried slot.1 slot.2 with
  | none => pure c
  | some nId => do
      let info := m.mapInfo nId
      require (nId ∈ c.setTried) (-11)
      require (info.map (fun info => info.getTriedBucket hashes m.nKey) = some slot.1) (-17)
      require (info.map (fun info => info.getBucketPosition hashes m.nKey false slot.1) =
        some slot.2) (-18)
      pure { c with setTried := c.setTried.erase nId }

/-- One reference less; the last one takes the id out of the map. -/
def oneLess (count : Int) : Option Int := if count - 1 = 0 then none else some (count - 1)

variable (hashes) in
def checkNewSlot (m : CAddrMan) (c : Checking) (slot : Nat × Nat) : Except Int Checking :=
  match m.vvNew slot.1 slot.2 with
  | none => pure c
  | some nId => do
      let info := m.mapInfo nId
      require ((c.mapNew nId).isSome = true) (-12)
      require (info.map (fun info => info.getBucketPosition hashes m.nKey true slot.1) =
        some slot.2) (-19)
      pure { c with mapNew := Function.update c.mapNew nId ((c.mapNew nId).bind oneLess) }

/-- The slots of a table in the order of the loops over it. -/
def tableSlots (count : Nat) : List (Nat × Nat) :=
  (List.range count).flatMap fun n => (List.range addrmanBucketSize).map (Prod.mk n)

/-- The size of a map from ids. -/
def mapSize (m : CAddrMan) (map : Nat → Option Int) : Nat :=
  ((Finset.range m.nIdCount).filter fun n => (map n).isSome = true).card

variable (hashes) in
def checks (m : CAddrMan) : Except Int Unit := do
  require ((m.vRandom.length : Int) = m.nTried + m.nNew) (-7)
  let c ← (List.range m.nIdCount).foldlM (checkEntry m) ⟨∅, fun _ => none⟩
  require ((c.setTried.card : Int) = m.nTried) (-9)
  require ((m.mapSize c.mapNew : Int) = m.nNew) (-10)
  let c ← (tableSlots addrmanTriedBucketCount).foldlM (checkTriedSlot hashes m) c
  let c ← (tableSlots addrmanNewBucketCount).foldlM (checkNewSlot hashes m) c
  require (c.setTried.card = 0) (-13)
  require (m.mapSize c.mapNew = 0) (-15)
  require (m.nKey ≠ 0) (-16)

variable (hashes) in
/-- `Check_`: zero, or the number of the check that fails. -/
def check (m : CAddrMan) : Int :=
  match m.checks hashes with
  | .error code => code
  | .ok () => 0

/-- The references of an entry of the new table. -/
def newCount (m : CAddrMan) (id : Nat) : Option Int :=
  (m.mapInfo id).bind fun info => if info.fInTried then none else some info.nRefCount

/-- What is collected from the entries that the first loop has seen. -/
structure Collected (m : CAddrMan) (done : List Nat) (c : Checking) : Prop where
  tried : ∀ id, id ∈ c.setTried ↔ id ∈ done ∧ m.isTried id = true
  new : ∀ id, c.mapNew id = if id ∈ done then m.newCount id else none

theorem checkTable_collects (m : CAddrMan) (sound : Sound hashes ∅ 0 m) (done : List Nat)
    (n : Nat) (info : CAddrInfo) (found : m.mapInfo n = some info) (c : Checking)
    (collected : Collected m done c) :
    ∃ c', checkTable c n info = pure c' ∧ Collected m (done ++ [n]) c' := by
  have member : ∀ id, id ∈ done ++ [n] ↔ id = n ∨ id ∈ done := by
    intro id
    rw [List.mem_append, List.mem_singleton, or_comm]
  cases tried : info.fInTried with
  | true =>
      have here : m.isTried n = true := (isTried_found m n info found).trans tried
      have uncounted : m.newCount n = none := by
        rw [newCount, found, Option.bind_some, if_pos tried]
      have never : info.nLastSuccess ≠ 0 :=
        ((sound.dated n info found).2.2 tried).ne'
      refine ⟨{ c with setTried := insert n c.setTried }, ?_, ?_, ?_⟩
      · rw [checkTable, if_pos tried, require_of _ _ never,
          require_of _ _ ((sound.tabled n).tried info found tried).2]
        rfl
      · intro id
        rw [Finset.mem_insert, collected.tried, member]
        by_cases same : id = n
        · subst same
          simp [here]
        · simp [same]
      · intro id
        rw [collected.new]
        by_cases same : id = n
        · subst same
          simp [member, uncounted]
        · simp [member, same]
  | false =>
      obtain ⟨count, few, used⟩ := (sound.tabled n).new info found tried
      have positive := used (Finset.notMem_empty n)
      have not_here : m.isTried n = false := (isTried_found m n info found).trans tried
      have counted : m.newCount n = some info.nRefCount := by
        rw [newCount, found, Option.bind_some, tried]
        rfl
      refine ⟨{ c with mapNew := Function.update c.mapNew n (some info.nRefCount) }, ?_, ?_, ?_⟩
      · rw [checkTable, tried, if_neg Bool.false_ne_true, require_of _ _ ⟨positive.le, few⟩,
          require_of _ _ positive.ne']
        rfl
      · intro id
        rw [collected.tried, member]
        by_cases same : id = n
        · subst same
          simp [not_here]
        · simp [same]
      · intro id
        refine (Function.update_apply c.mapNew n _ id).trans ?_
        rw [collected.new]
        by_cases same : id = n
        · subst same
          simp [member, counted]
        · simp [member, same]

theorem checkEntries_collect (m : CAddrMan) (sound : Sound hashes ∅ 0 m) :
    ∃ c, (List.range m.nIdCount).foldlM (checkEntry m) ⟨∅, fun _ => none⟩ =
        (pure c : Except Int Checking) ∧ Collected m (List.range m.nIdCount) c := by
  refine Runs.foldlM_reaches (checkEntry m) (Collected m) _ _ ⟨by simp, by simp⟩ ?_
  intro done n rest c all collected
  rw [checkEntry]
  split
  · rename_i missing
    have not_tried : m.isTried n = false := by
      rw [isTried, missing]
      rfl
    have uncounted : m.newCount n = none := by
      rw [newCount, missing]
      rfl
    refine ⟨c, rfl, ?_, ?_⟩
    · intro id
      rw [collected.tried, List.mem_append, List.mem_singleton]
      by_cases same : id = n
      · subst same
        simp [not_tried]
      · simp [same]
    · intro id
      rw [collected.new]
      by_cases same : id = n
      · subst same
        simp [uncounted]
      · simp [same]
  · rename_i info found
    obtain ⟨c', passed, collected'⟩ := checkTable_collects m sound done n info found c
      collected
    obtain ⟨last, success, -⟩ := sound.dated n info found
    have leads : (m.mapAddr info.ip).getD 0 = n := by
      rw [sound.listed.address n info found]
      rfl
    refine ⟨c', ?_, collected'⟩
    rw [passed, pure_bind, require_of _ _ leads,
      require_of _ _ (sound.listed.position n info found), require_of _ _ last,
      require_of _ _ success]
    rfl

theorem mem_tableSlots (count : Nat) (slot : Nat × Nat) :
    slot ∈ tableSlots count ↔ slot.1 < count ∧ slot.2 < addrmanBucketSize := by
  rw [tableSlots, List.mem_flatMap]
  constructor
  · rintro ⟨n, inside, member⟩
    obtain ⟨i, within, rfl⟩ := List.mem_map.mp member
    exact ⟨List.mem_range.mp inside, List.mem_range.mp within⟩
  · rintro ⟨inside, within⟩
    exact ⟨slot.1, List.mem_range.mpr inside, List.mem_map.mpr ⟨slot.2, List.mem_range.mpr within, rfl⟩⟩

theorem tableSlots_nodup (count : Nat) : (tableSlots count).Nodup := by
  refine List.nodup_flatMap.mpr ⟨fun n _ => ?_, ?_⟩
  · exact (List.nodup_range).map fun i j same => (Prod.mk.inj same).2
  · refine (List.nodup_range (n := count)).imp fun different slot first second => ?_
    obtain ⟨i, -, rfl⟩ := List.mem_map.mp first
    obtain ⟨j, -, same⟩ := List.mem_map.mp second
    exact different (Prod.mk.inj same).1.symm

/-- The tried ids whose slot the loop has not seen are left. -/
structure TriedLeft (m : CAddrMan) (mapNew : Nat → Option Int) (done : List (Nat × Nat))
    (c : Checking) : Prop where
  left : ∀ id, id ∈ c.setTried ↔ m.isTried id = true ∧
    ∀ slot ∈ done, m.vvTried slot.1 slot.2 ≠ some id
  mapNew : c.mapNew = mapNew

theorem checkTriedSlot_erases (m : CAddrMan) (sound : Sound hashes ∅ 0 m)
    (mapNew : Nat → Option Int) (done rest : List (Nat × Nat)) (slot : Nat × Nat) (c : Checking)
    (all : done ++ slot :: rest = tableSlots addrmanTriedBucketCount)
    (left : TriedLeft m mapNew done c) :
    ∃ c', checkTriedSlot hashes m c slot = pure c' ∧ TriedLeft m mapNew (done ++ [slot]) c' := by
  rw [checkTriedSlot]
  split
  · rename_i empty
    refine ⟨c, rfl, fun id => ?_, left.mapNew⟩
    simp only [left.left, List.mem_append, List.mem_singleton, or_imp, forall_and, forall_eq, empty,
      ne_eq, reduceCtorEq, not_false_eq_true, and_true]
  · rename_i nId taken
    obtain ⟨info, found, here, own, place⟩ := (sound.tabled nId).triedSlot slot.1 slot.2 taken
    have nodup := tableSlots_nodup addrmanTriedBucketCount
    rw [← all] at nodup
    have first : slot ∉ done := fun member =>
      (List.nodup_append.mp nodup).2.2 _ member _ List.mem_cons_self rfl
    have there : nId ∈ c.setTried := by
      refine (left.left nId).mpr ⟨(isTried_found m nId info found).trans here, ?_⟩
      intro other member again
      obtain ⟨info', found', -, own', place'⟩ :=
        (sound.tabled nId).triedSlot other.1 other.2 again
      rw [found] at found'
      cases found'
      have same : other = slot := Prod.ext (own'.trans own.symm) (by rw [place', place, own', own])
      exact first (same ▸ member)
    refine ⟨{ c with setTried := c.setTried.erase nId }, ?_, fun id => ?_, left.mapNew⟩
    · dsimp only
      rw [require_of _ _ there, require_of _ _ (by rw [found, own]; rfl),
        require_of _ _ (by rw [found, place]; rfl)]
      rfl
    · rw [Finset.mem_erase, left.left]
      simp only [List.mem_append, List.mem_singleton, or_imp, forall_and, forall_eq, taken,
        ne_eq, Option.some.injEq]
      rw [and_left_comm, and_comm (a := ¬id = nId), eq_comm (a := id)]

theorem checkTriedSlots_erase (m : CAddrMan) (sound : Sound hashes ∅ 0 m) (c : Checking)
    (tried : ∀ id, id ∈ c.setTried ↔ m.isTried id = true) :
    ∃ c', (tableSlots addrmanTriedBucketCount).foldlM (checkTriedSlot hashes m) c =
        (pure c' : Except Int Checking) ∧ c'.setTried = ∅ ∧ c'.mapNew = c.mapNew := by
  obtain ⟨c', ran, left⟩ := Runs.foldlM_reaches (checkTriedSlot hashes m)
    (TriedLeft m c.mapNew) (tableSlots addrmanTriedBucketCount) c
    ⟨fun id => by simp [tried id], rfl⟩ fun done slot rest c' all =>
      checkTriedSlot_erases m sound c.mapNew done rest slot c' all
  refine ⟨c', ran, Finset.eq_empty_of_forall_notMem fun id member => ?_, left.mapNew⟩
  obtain ⟨here, unseen⟩ := (left.left id).mp member
  cases found : m.mapInfo id with
  | none => rw [isTried, found] at here; cases here
  | some info =>
      rw [isTried_found m id info found] at here
      exact unseen (_, _) ((mem_tableSlots _ _).mpr ⟨getTriedBucket_lt hashes _ _,
        getBucketPosition_lt hashes _ _ _ _⟩) ((sound.tabled id).tried info found here).1

/-- How many of the slots hold an entry. -/
def uses (m : CAddrMan) (seen : List (Nat × Nat)) (id : Nat) : Nat :=
  seen.countP fun slot => decide (m.vvNew slot.1 slot.2 = some id)

/-- In one bucket only its own slot can hold an entry. -/
theorem uses_bucket (m : CAddrMan) (sound : Sound hashes ∅ 0 m) (id : Nat) (info : CAddrInfo)
    (found : m.mapInfo id = some info) (bucket : Nat) :
    m.uses ((List.range addrmanBucketSize).map (Prod.mk bucket)) id =
      if holds hashes m id info.toCService bucket = true then 1 else 0 := by
  rw [uses, List.countP_map]
  split_ifs with here
  · have own := of_decide_eq_true here
    have only : ∀ pos, m.vvNew bucket pos = some id ↔
        info.getBucketPosition hashes m.nKey true bucket = pos := by
      intro pos
      constructor
      · intro slot
        obtain ⟨-, info', found', -, place⟩ := (sound.tabled id).newSlot bucket pos slot
        rw [found] at found'
        cases found'
        exact place.symm
      · rintro rfl
        exact own
    have once := List.count_eq_one_of_mem (List.nodup_range (n := addrmanBucketSize))
      (List.mem_range.mpr (getBucketPosition_lt hashes info.toCService m.nKey true bucket))
    rw [← once, List.count]
    refine List.countP_congr fun pos _ => ?_
    rw [Function.comp_apply, decide_eq_true_eq, only, beq_iff_eq, eq_comm]
  · refine List.countP_eq_zero.mpr fun pos _ => ?_
    simp only [Function.comp_apply, decide_eq_true_eq]
    intro slot
    obtain ⟨-, info', found', -, place⟩ := (sound.tabled id).newSlot bucket pos slot
    rw [found] at found'
    cases found'
    rw [place] at slot
    exact here (decide_eq_true slot)

/-- The slots that the loop over the new table goes through are the references of an entry. -/
theorem uses_all (m : CAddrMan) (sound : Sound hashes ∅ 0 m) (id : Nat) (info : CAddrInfo)
    (found : m.mapInfo id = some info) (new : info.fInTried = false) :
    info.nRefCount = m.uses (tableSlots addrmanNewBucketCount) id := by
  have each : m.uses (tableSlots addrmanNewBucketCount) id =
      ((List.range addrmanNewBucketCount).map fun bucket =>
        if holds hashes m id info.toCService bucket = true then 1 else 0).sum := by
    rw [uses, tableSlots, List.countP_flatMap]
    refine congrArg List.sum (List.map_congr_left fun bucket _ => ?_)
    exact uses_bucket m sound id info found bucket
  rw [((sound.tabled id).new info found new).1, each, slots, Finset.card_filter]
  rfl

/-- What is left of a number of references after some of them. -/
def remaining (count : Int) (seen : Nat) : Option Int :=
  if count - seen = 0 then none else some (count - seen)

theorem remaining_oneLess (count : Int) (seen : Nat) (more : (seen : Int) < count) :
    (remaining count seen).bind oneLess = remaining count (seen + 1) := by
  have next : count - seen - 1 = count - (seen + 1 : Nat) := by omega
  rw [remaining, if_neg (by omega), Option.bind_some, oneLess, remaining, next]

/-- Every entry of the new table is left with the references the loop has not seen. -/
structure NewLeft (m : CAddrMan) (setTried : Finset Nat) (done : List (Nat × Nat))
    (c : Checking) : Prop where
  left : ∀ id, c.mapNew id = (m.newCount id).bind fun count => remaining count (m.uses done id)
  setTried : c.setTried = setTried

theorem newCount_some (m : CAddrMan) (id : Nat) (count : Int) (counted : m.newCount id = some count) :
    ∃ info, m.mapInfo id = some info ∧ info.fInTried = false ∧ info.nRefCount = count := by
  obtain ⟨info, found, counted⟩ := Option.bind_eq_some_iff.mp counted
  cases tried : info.fInTried with
  | true => rw [tried] at counted; cases counted
  | false =>
      rw [tried] at counted
      exact ⟨info, found, tried, Option.some.inj counted⟩

theorem uses_next (m : CAddrMan) (done : List (Nat × Nat)) (slot : Nat × Nat) (id : Nat) :
    m.uses (done ++ [slot]) id =
      m.uses done id + if m.vvNew slot.1 slot.2 = some id then 1 else 0 := by
  rw [uses, List.countP_append, List.countP_singleton, uses]
  simp only [decide_eq_true_eq]

theorem checkNewSlot_counts (m : CAddrMan) (sound : Sound hashes ∅ 0 m) (setTried : Finset Nat)
    (done rest : List (Nat × Nat)) (slot : Nat × Nat) (c : Checking)
    (all : done ++ slot :: rest = tableSlots addrmanNewBucketCount)
    (left : NewLeft m setTried done c) :
    ∃ c', checkNewSlot hashes m c slot = pure c' ∧ NewLeft m setTried (done ++ [slot]) c' := by
  rw [checkNewSlot]
  split
  · rename_i empty
    refine ⟨c, rfl, fun id => ?_, left.setTried⟩
    rw [left.left, uses_next, empty, if_neg (by simp), add_zero]
  · rename_i nId taken
    obtain ⟨-, info, found, new, place⟩ := (sound.tabled nId).newSlot slot.1 slot.2 taken
    have counted : m.newCount nId = some info.nRefCount := by
      rw [newCount, found, Option.bind_some, new]
      rfl
    have more : (m.uses done nId : Int) < info.nRefCount := by
      have one : m.uses (slot :: rest) nId = m.uses rest nId + 1 :=
        List.countP_cons_of_pos (decide_eq_true taken)
      have split : m.uses (done ++ slot :: rest) nId = m.uses done nId + m.uses (slot :: rest) nId :=
        List.countP_append
      rw [uses_all m sound nId info found new, ← all]
      omega
    have here : c.mapNew nId = remaining info.nRefCount (m.uses done nId) := by
      rw [left.left, counted, Option.bind_some]
    have present : (c.mapNew nId).isSome = true := by
      rw [here, remaining, if_neg (by omega)]
      rfl
    refine ⟨{ c with mapNew := Function.update c.mapNew nId ((c.mapNew nId).bind oneLess) }, ?_,
      fun id => ?_, left.setTried⟩
    · dsimp only
      rw [require_of _ _ present, require_of _ _ (by rw [found, place]; rfl)]
      rfl
    · refine (Function.update_apply c.mapNew nId _ id).trans ?_
      rw [uses_next]
      split_ifs with same again again
      · rw [here, remaining_oneLess _ _ more, same, counted, Option.bind_some]
      · exact (again (by rw [taken, same])).elim
      · exact (same (Option.some.inj (again.symm.trans taken))).elim
      · exact left.left id

theorem checkNewSlots_count (m : CAddrMan) (sound : Sound hashes ∅ 0 m) (c : Checking)
    (new : ∀ id, c.mapNew id = m.newCount id) :
    ∃ c', (tableSlots addrmanNewBucketCount).foldlM (checkNewSlot hashes m) c =
        (pure c' : Except Int Checking) ∧ c'.setTried = c.setTried ∧ ∀ id, c'.mapNew id = none := by
  have start : NewLeft m c.setTried [] c := by
    refine ⟨fun id => ?_, rfl⟩
    rw [new]
    cases counted : m.newCount id with
    | none => rfl
    | some count =>
        obtain ⟨info, found, untried, rfl⟩ := newCount_some m id count counted
        have positive := ((sound.tabled id).new info found untried).2.2 (Finset.notMem_empty id)
        rw [Option.bind_some, uses, List.countP_nil, remaining, if_neg (by omega)]
        simp
  obtain ⟨c', ran, left⟩ := Runs.foldlM_reaches (checkNewSlot hashes m) (NewLeft m c.setTried)
    (tableSlots addrmanNewBucketCount) c start fun done slot rest c' all =>
      checkNewSlot_counts m sound c.setTried done rest slot c' all
  refine ⟨c', ran, left.setTried, fun id => ?_⟩
  rw [left.left]
  cases counted : m.newCount id with
  | none => rfl
  | some count =>
      obtain ⟨info, found, untried, rfl⟩ := newCount_some m id count counted
      rw [Option.bind_some, remaining, uses_all m sound id info found untried,
        if_pos (Int.sub_self _)]

theorem check_sound (m : CAddrMan) (sound : Sound hashes ∅ 0 m) (key : m.nKey ≠ 0) :
    m.check hashes = 0 := by
  obtain ⟨c, ran, collected⟩ := checkEntries_collect m sound
  have present : ∀ id, (m.mapInfo id).isSome = true → id ∈ List.range m.nIdCount := fun id there =>
    List.mem_range.mpr (sound.listed.fresh id there)
  have tried : ∀ id, id ∈ c.setTried ↔ m.isTried id = true := by
    intro id
    rw [collected.tried, and_iff_right_iff_imp]
    intro here
    refine present id ?_
    by_contra missing
    rw [isTried, Option.not_isSome_iff_eq_none.mp missing] at here
    cases here
  have new : ∀ id, c.mapNew id = m.newCount id := by
    intro id
    rw [collected.new]
    split_ifs with inside
    · rfl
    · cases found : m.mapInfo id with
      | none => rw [newCount, found]; rfl
      | some info => exact (inside (present id (by rw [found]; rfl))).elim
  have triedSize : (c.setTried.card : Int) = m.nTried := by
    rw [sound.counted.nTried]
    congr 2
    ext id
    rw [collected.tried, Finset.mem_filter, List.mem_range, Finset.mem_range]
  have newSize : (m.mapSize c.mapNew : Int) = m.nNew := by
    rw [sound.counted.nNew, add_zero, mapSize]
    congr 2
    refine Finset.filter_congr fun id _ => ?_
    rw [new]
    cases found : m.mapInfo id with
    | none => simp [newCount, isNew, found]
    | some info => cases here : info.fInTried <;> simp [newCount, isNew, found, here]
  obtain ⟨c', ran', emptied, same⟩ := checkTriedSlots_erase m sound c tried
  obtain ⟨c'', ran'', still, cleared⟩ := checkNewSlots_count m sound c' (by rwa [same])
  have passed : m.checks hashes = .ok () := by
    have noTried : c''.setTried.card = 0 := by
      rw [still, emptied]
      rfl
    have noNew : m.mapSize c''.mapNew = 0 := by
      rw [mapSize, Finset.card_eq_zero, Finset.filter_eq_empty_iff]
      intro id _
      rw [cleared]
      exact Bool.false_ne_true
    rw [checks, require_of _ _ (size_counted m sound), ran, ok_then, pure_bind,
      require_of _ _ triedSize, ok_then, require_of _ _ newSize, ok_then, ran', pure_bind, ran'',
      pure_bind, require_of _ _ noTried, ok_then, require_of _ _ noNew, ok_then,
      require_of _ _ key]
  rw [check, passed]

/-! ## Runs -/

/-- A call of an operation, with its times and its random choices. -/
inductive AddrStep where
  | add (addr : CAddress) (source : CNetAddr) (nTimePenalty nNow : Int) (draw : Nat)
  | good (addr : CService) (nTime : Int) (draw : Nat)
  | attempt (addr : CService) (nTime : Int)
  | connected (addr : CService) (nTime : Int)
  | getAddr (nNow : Int) (draws : Nat → Nat)
  | select (coin : Nat) (draws : List SelectDraw)

/-- The adjusted time is after the epoch. -/
def AddrStep.Dated : AddrStep → Prop
  | .good _ nTime _ => 0 < nTime
  | .attempt _ nTime => 0 ≤ nTime
  | _ => True

variable (hashes) in
def AddrStep.run (m : CAddrMan) : AddrStep → Option CAddrMan
  | .add addr source nTimePenalty nNow draw =>
      (m.add hashes addr source nTimePenalty nNow draw).map Prod.fst
  | .good addr nTime draw => m.good hashes addr nTime draw
  | .attempt addr nTime => some (m.attempt addr nTime)
  | .connected addr nTime => some (m.connected addr nTime)
  | .getAddr nNow draws => (m.getAddr nNow draws).map Prod.fst
  | .select coin draws => (m.select coin draws).map fun _ => m

variable (hashes) in
def runAddrSteps (m : CAddrMan) (steps : List AddrStep) : Option CAddrMan :=
  steps.foldlM (AddrStep.run hashes) m

theorem step_sound (m : CAddrMan) (step : AddrStep) (dated : step.Dated)
    (sound : Sound hashes ∅ 0 m) :
    ∃ m', step.run hashes m = some m' ∧ Sound hashes ∅ 0 m' ∧ m'.nKey = m.nKey := by
  cases step with
  | add addr source nTimePenalty nNow draw =>
      obtain ⟨m', fNew, ran, kept⟩ := add_sound m addr source nTimePenalty nNow draw sound
      exact ⟨m', by rw [AddrStep.run, ran]; rfl, kept⟩
  | good addr nTime draw =>
      have ran := good_sound m addr nTime draw dated sound
      exact ran
  | attempt addr nTime => exact ⟨_, rfl, attempt_sound m addr nTime dated sound⟩
  | connected addr nTime => exact ⟨_, rfl, connected_sound m addr nTime sound⟩
  | getAddr nNow draws =>
      obtain ⟨m', vAddr, ran, sound', moved, -⟩ := getAddr_sound m nNow draws sound
      exact ⟨m', by rw [AddrStep.run, ran]; rfl, sound', moved.nKey⟩
  | select coin draws =>
      obtain ⟨selected, ran, -⟩ := select_sound m coin draws sound
      exact ⟨m, by rw [AddrStep.run, ran]; rfl, sound, rfl⟩

theorem steps_sound (nKey : Uint256) (steps : List AddrStep) (dated : ∀ step ∈ steps, step.Dated) :
    ∃ m, runAddrSteps hashes (empty nKey) steps = some m ∧ Sound hashes ∅ 0 m ∧ m.nKey = nKey := by
  refine Runs.foldlM_reaches (AddrStep.run hashes)
    (fun _ m => Sound hashes ∅ 0 m ∧ m.nKey = nKey) steps (empty nKey)
    ⟨empty_sound nKey, rfl⟩ ?_
  rintro done step rest m all ⟨sound, key⟩
  have member : step ∈ steps := by
    rw [← all]
    exact List.mem_append_right done List.mem_cons_self
  obtain ⟨m', ran, sound', key'⟩ := step_sound m step (dated step member) sound
  exact ⟨m', ran, sound', key'.trans key⟩

end Sound

end CAddrMan

open CAddrMan

namespace TwoPeers

/-- Every address is in one group, and the bucket depends on the length of what is hashed. -/
def hashes : AddrHashes := ⟨fun bytes => BitVec.ofNat 64 bytes.length, fun _ => [], fun _ => true⟩

def first : CAddress := ⟨⟨0x0a000001#128, 8333#16⟩, 1#64, 1000000#32⟩

def second : CAddress := ⟨⟨0x0a000002#128, 8333#16⟩, 1#64, 1000000#32⟩

/-- The addresses have the same slots: the second one to be tried evicts the first. -/
def steps : List AddrStep :=
  [.add first first.ip 0 1000000 0, .good first.toCService 1000000 0,
    .add second first.ip 0 1000000 0, .attempt second.toCService 1000000,
    .good second.toCService 1000000 7, .getAddr 1000000 id, .select 0 [⟨0, 0, true⟩]]

theorem steps_dated : ∀ step ∈ steps, step.Dated := by
  intro step member
  simp only [steps, List.mem_cons, List.not_mem_nil, or_false] at member
  rcases member with rfl | rfl | rfl | rfl | rfl | rfl | rfl <;> simp [AddrStep.Dated]

end TwoPeers

end RoiCoin
