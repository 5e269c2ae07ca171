import RoiCoin.Lib.Runs
import Mathlib.Data.Finset.Max
import Mathlib.Data.Finset.Lattice.Fold
import Mathlib.Order.Lattice.Nat

/-! The key pool of the wallet (`TopUpKeyPool`, `NewKeyPool`, `ReserveKeyFromKeyPool`, `KeepKey`,
`ReturnKey`, `GetKeyFromPool`, `CReserveKey`).

A key is named by the number of keys that `GenerateNewKey` made before it. Writing to the database
succeeds. -/

namespace RoiCoin

/-- `nIndex` is -1 and `vchPubKey` invalid where there is none. -/
structure CReserveKey where
  nIndex : Option Nat
  vchPubKey : Option Nat
  deriving DecidableEq, Repr

/-- The pool with its records in the database and the objects that reserve keys. `handedOut` lists
the keys that were handed out and not returned, `readFailed` tells that reading a record has failed;
nothing in the source reads these two. -/
structure CWallet where
  setKeyPool : Finset Nat
  pool : Nat → Option Nat
  nGenerated : Nat
  locked : Bool
  reserves : Nat → CReserveKey
  handedOut : List Nat
  readFailed : Bool

/-- What `ReserveKeyFromKeyPool` comes to; the last two throw, after `nIndex` has been set. -/
inductive Reserved where
  | nothing
  | key (nIndex vchPubKey : Nat)
  | readFailed (nIndex : Nat)
  | unknownKey (nIndex : Nat)
  deriving DecidableEq, Repr

namespace CWallet

/-- `HaveKey` -/
def HaveKey (w : CWallet) (vchPubKey : Nat) : Prop := vchPubKey < w.nGenerated

instance (w : CWallet) (vchPubKey : Nat) : Decidable (w.HaveKey vchPubKey) :=
  inferInstanceAs (Decidable (_ < _))

/-- `walletdb.ErasePool(nIndex)` -/
def erasePool (w : CWallet) (nIndex : Nat) : CWallet :=
  { w with pool := Function.update w.pool nIndex none }

/-- `GenerateNewKey`, `walletdb.WritePool(nIndex, ..)` and `setKeyPool.insert(nIndex)`. -/
def addKey (w : CWallet) (nIndex : Nat) : CWallet :=
  { w with
    nGenerated := w.nGenerated + 1
    pool := Function.update w.pool nIndex (some w.nGenerated)
    setKeyPool := insert nIndex w.setKeyPool }

section Pool

-- `GetArg("-keypool", 100)`
variable (keypool : Int)

/-- All records of the pool are erased. -/
def clearPool (w : CWallet) : CWallet :=
  { w with
    pool := fun nIndex => if nIndex ∈ w.setKeyPool then none else w.pool nIndex
    setKeyPool := ∅ }

def newKeyPool (w : CWallet) : CWallet :=
  if w.locked then w.clearPool
  else (List.range (max keypool 0).toNat).foldl (fun w i => w.addKey (i + 1)) w.clearPool

/-- One more than the last index of the pool. -/
def nEnd (w : CWallet) : Nat := w.setKeyPool.sup id + 1

/-- The loop of `TopUpKeyPool`, which adds one index in every turn; the bound is fuel enough. -/
def topUpLoop (bound : Nat) : Nat → CWallet → CWallet
  | 0, w => w
  | fuel + 1, w => if w.setKeyPool.card < bound then topUpLoop bound fuel (w.addKey w.nEnd) else w

/-- `nTargetSize + 1` in an `unsigned int`. -/
def topUpBound (kpSize : BitVec 32) : Nat :=
  ((if 0 < kpSize then kpSize else BitVec.ofInt 32 (max keypool 0)) + 1).toNat

def topUpKeyPool (kpSize : BitVec 32) (w : CWallet) : CWallet :=
  if w.locked then w else topUpLoop (topUpBound keypool kpSize) (topUpBound keypool kpSize) w

/-- The index leaves the pool. -/
def takeOut (w : CWallet) (nIndex : Nat) : CWallet :=
  { w with setKeyPool := w.setKeyPool.erase nIndex }

/-- The record of an index that left the pool. -/
def readPool (w : CWallet) (nIndex : Nat) : Reserved :=
  match w.pool nIndex with
  | none => .readFailed nIndex
  | some vchPubKey => if w.HaveKey vchPubKey then .key nIndex vchPubKey else .unknownKey nIndex

/-- `ReserveKeyFromKeyPool` after the pool was filled: the oldest key. -/
def reserveOldest (w : CWallet) : CWallet × Reserved :=
  if nonempty : w.setKeyPool.Nonempty then
    let nIndex := w.setKeyPool.min' nonempty
    (w.takeOut nIndex, (w.takeOut nIndex).readPool nIndex)
  else (w, .nothing)

def reserveKeyFromKeyPool (w : CWallet) : CWallet × Reserved :=
  reserveOldest (if w.locked then w else w.topUpKeyPool keypool 0)

def getKeyFromPool (w : CWallet) : CWallet :=
  match w.reserveKeyFromKeyPool keypool with
  | (w, .nothing) =>
      if w.locked then w
      else { w with nGenerated := w.nGenerated + 1, handedOut := w.nGenerated :: w.handedOut }
  | (w, .key nIndex vchPubKey) =>
      { w.erasePool nIndex with handedOut := vchPubKey :: w.handedOut }
  | (w, .readFailed _) => { w with readFailed := true }
  | (w, .unknownKey _) => w

/-- `GetOldestKeyPoolTime` returns the key that it reserves. -/
def getOldestKeyPoolTime (w : CWallet) : CWallet :=
  match w.reserveKeyFromKeyPool keypool with
  | (w, .nothing) => w
  | (w, .key nIndex _) => { w with setKeyPool := insert nIndex w.setKeyPool }
  | (w, .readFailed _) => { w with readFailed := true }
  | (w, .unknownKey _) => w

/-! ## The objects that reserve keys -/

/-- `CReserveKey::GetReservedKey`; a key that the object has already is given again. -/
def getReservedKey (object : Nat) (w : CWallet) : CWallet :=
  match (w.reserves object).nIndex with
  | some _ => w
  | none =>
      match w.reserveKeyFromKeyPool keypool with
      | (w, .nothing) => w
      | (w, .key nIndex vchPubKey) =>
          { w with
            reserves := Function.update w.reserves object ⟨some nIndex, some vchPubKey⟩
            handedOut := vchPubKey :: w.handedOut }
      | (w, .readFailed nIndex) =>
          { w with
            reserves := Function.update w.reserves object ⟨some nIndex, none⟩
            readFailed := true }
      | (w, .unknownKey nIndex) =>
          { w with reserves := Function.update w.reserves object ⟨some nIndex, none⟩ }

end Pool

/-- `CReserveKey::KeepKey` -/
def keepKey (object : Nat) (w : CWallet) : CWallet :=
  match (w.reserves object).nIndex with
  | none => w
  | some nIndex =>
      { w.erasePool nIndex with reserves := Function.update w.reserves object ⟨none, none⟩ }

/-- `CReserveKey::ReturnKey`, which the destructor calls as well. -/
def returnKey (object : Nat) (w : CWallet) : CWallet :=
  match w.reserves object with
  | ⟨none, _⟩ => w
  | ⟨some nIndex, vchPubKey⟩ =>
      { w with
        setKeyPool := insert nIndex w.setKeyPool
        reserves := Function.update w.reserves object ⟨none, none⟩
        handedOut := vchPubKey.elim w.handedOut w.handedOut.erase }

end CWallet

inductive KeyPoolCall where
  | topUpKeyPool (kpSize : BitVec 32)
  | newKeyPool
  | getReservedKey (object : Nat)
  | keepKey (object : Nat)
  | returnKey (object : Nat)
  | getKeyFromPool
  | getOldestKeyPoolTime
  | setLocked (locked : Bool)
  deriving DecidableEq, Repr

def CWallet.call (keypool : Int) (w : CWallet) : KeyPoolCall → CWallet
  | .topUpKeyPool kpSize => w.topUpKeyPool keypool kpSize
  | .newKeyPool => w.newKeyPool keypool
  | .getReservedKey object => w.getReservedKey keypool object
  | .keepKey object => w.keepKey object
  | .returnKey object => w.returnKey object
  | .getKeyFromPool => w.getKeyFromPool keypool
  | .getOldestKeyPoolTime => w.getOldestKeyPoolTime keypool
  | .setLocked locked => { w with locked }

/-! ## Safety -/

namespace CWallet

/-- An object holds the index. -/
def Outstanding (w : CWallet) (nIndex : Nat) : Prop :=
  ∃ object, (w.reserves object).nIndex = some nIndex

structure Safe (w : CWallet) : Prop where
  distinct : ∀ one two nIndex, (w.reserves one).nIndex = some nIndex →
    (w.reserves two).nIndex = some nIndex → one = two
  apart : ∀ nIndex, w.Outstanding nIndex → nIndex ∉ w.setKeyPool
  records : ∀ nIndex, nIndex ∈ w.setKeyPool ∨ w.Outstanding nIndex → ∃ key, w.pool nIndex = some key
  own : ∀ m n key, m ∈ w.setKeyPool ∨ w.Outstanding m → n ∈ w.setKeyPool ∨ w.Outstanding n →
    w.pool m = some key → w.pool n = some key → m = n
  once : w.handedOut.Nodup
  read : w.readFailed = false

/-- What keeps a wallet safe: the records are those of generated keys, an object has the key of its
record, which counts as handed out, and no key in the pool does. -/
structure Sound (w : CWallet) : Prop where
  safe : w.Safe
  generated : ∀ nIndex key, w.pool nIndex = some key → key < w.nGenerated
  handed : ∀ key ∈ w.handedOut, key < w.nGenerated
  held : ∀ object nIndex, (w.reserves object).nIndex = some nIndex →
    ∃ key ∈ w.handedOut, (w.reserves object).vchPubKey = some key ∧ w.pool nIndex = some key
  unused : ∀ nIndex ∈ w.setKeyPool, ∀ key, w.pool nIndex = some key → key ∉ w.handedOut

/-- No object reserves a key, and every index of the pool has a record of its own. -/
structure Loaded (w : CWallet) : Prop where
  free : ∀ object, w.reserves object = ⟨none, none⟩
  records : ∀ nIndex ∈ w.setKeyPool, ∃ key, w.pool nIndex = some key
  own : ∀ m ∈ w.setKeyPool, ∀ n ∈ w.setKeyPool, ∀ key, w.pool m = some key →
    w.pool n = some key → m = n
  generated : ∀ nIndex key, w.pool nIndex = some key → key < w.nGenerated
  handedOut : w.handedOut = []
  readFailed : w.readFailed = false

/-- The indices whose records `TopUpKeyPool` writes. -/
def topUpIndices (keypool : Int) (kpSize : BitVec 32) (w : CWallet) : List Nat :=
  if w.locked then []
  else List.range' w.nEnd (topUpBound keypool kpSize - w.setKeyPool.card)

/-- The indices whose records a call writes. -/
def written (keypool : Int) (w : CWallet) : KeyPoolCall → List Nat
  | .topUpKeyPool kpSize => w.topUpIndices keypool kpSize
  | .newKeyPool => if w.locked then [] else List.range' 1 (max keypool 0).toNat
  | .getReservedKey object =>
      if (w.reserves object).nIndex.isSome then [] else w.topUpIndices keypool 0
  | .getKeyFromPool => w.topUpIndices keypool 0
  | .getOldestKeyPoolTime => w.topUpIndices keypool 0
  | .keepKey _ => []
  | .returnKey _ => []
  | .setLocked _ => []

/-- No record of an outstanding index is written. -/
def Careful (keypool : Int) (w : CWallet) (call : KeyPoolCall) : Prop :=
  ∀ nIndex ∈ w.written keypool call, ¬ w.Outstanding nIndex

/-! ## New records -/

/-- The loops write one record after the other. -/
def addKeys (w : CWallet) (indices : List Nat) : CWallet := indices.foldl addKey w

/-- Every record is that of a generated key. -/
def Generated (w : CWallet) : Prop := ∀ nIndex key, w.pool nIndex = some key → key < w.nGenerated

theorem addKey_generated (w : CWallet) (n : Nat) (generated : w.Generated) :
    (w.addKey n).Generated := by
  intro nIndex key found
  dsimp only [addKey] at found ⊢
  rw [Function.update_apply] at found
  split at found
  · cases found
    omega
  · have before := generated nIndex key found
    omega

theorem addKeys_generated (w : CWallet) (indices : List Nat) (generated : w.Generated) :
    (w.addKeys indices).Generated := by
  induction indices generalizing w with
  | nil => exact generated
  | cons n indices ih => exact ih (w.addKey n) (addKey_generated w n generated)

/-- An index that was written has a record. -/
theorem addKeys_recorded (w : CWallet) (indices : List Nat) (n : Nat)
    (member : n ∈ indices ∨ ∃ key, w.pool n = some key) :
    ∃ key, (w.addKeys indices).pool n = some key := by
  induction indices generalizing w with
  | nil => exact member.resolve_left (List.not_mem_nil)
  | cons m indices ih =>
      apply ih (w.addKey m)
      dsimp only [addKey]
      rw [Function.update_apply]
      split
      · exact .inr ⟨_, rfl⟩
      · rename_i apart
        rcases member with among | found
        · exact .inl ((List.mem_cons.mp among).resolve_left apart)
        · exact .inr found

theorem mem_addKeys (w : CWallet) (indices : List Nat) (nIndex : Nat) :
    nIndex ∈ (w.addKeys indices).setKeyPool ↔ nIndex ∈ indices ∨ nIndex ∈ w.setKeyPool := by
  induction indices generalizing w with
  | nil => simp [addKeys]
  | cons n indices ih =>
      have rest := ih (w.addKey n)
      rw [addKeys, List.foldl_cons]
      rw [addKeys] at rest
      rw [rest, addKey, Finset.mem_insert, List.mem_cons]
      tauto

/-- What writing records leaves alone. -/
theorem addKeys_same (w : CWallet) (indices : List Nat) :
    (w.addKeys indices).reserves = w.reserves ∧ (w.addKeys indices).locked = w.locked ∧
      (w.addKeys indices).handedOut = w.handedOut ∧
      (w.addKeys indices).readFailed = w.readFailed := by
  induction indices generalizing w with
  | nil => exact ⟨rfl, rfl, rfl, rfl⟩
  | cons n indices ih => exact ih (w.addKey n)

theorem addKey_sound (w : CWallet) (n : Nat) (sound : w.Sound) (free : ¬ w.Outstanding n) :
    (w.addKey n).Sound := by
  have elsewhere : ∀ i, i ≠ n → (w.addKey n).pool i = w.pool i :=
    fun i other => Function.update_of_ne other _ _
  have here : (w.addKey n).pool n = some w.nGenerated := Function.update_self _ _ _
  have used : ∀ i, i ∈ (w.addKey n).setKeyPool ∨ (w.addKey n).Outstanding i →
      i = n ∨ (i ≠ n ∧ (i ∈ w.setKeyPool ∨ w.Outstanding i)) := by
    intro i among
    by_cases same : i = n
    · exact .inl same
    · refine .inr ⟨same, ?_⟩
      rcases among with pooled | held
      · exact .inl ((Finset.mem_insert.mp pooled).resolve_left same)
      · exact .inr held
  have fresh : ∀ i, w.pool i ≠ some w.nGenerated := by
    intro i found
    exact absurd (sound.generated i _ found) (Nat.lt_irrefl _)
  refine ⟨⟨sound.safe.distinct, ?_, ?_, ?_, sound.safe.once, sound.safe.read⟩,
    addKey_generated w n sound.generated, ?_, ?_, ?_⟩
  · intro i held pooled
    rcases Finset.mem_insert.mp pooled with same | before
    · exact free (same ▸ held)
    · exact sound.safe.apart i held before
  · intro i among
    rcases used i among with same | ⟨other, before⟩
    · rw [same]
      exact ⟨_, here⟩
    · obtain ⟨key, found⟩ := sound.safe.records i before
      exact ⟨key, (elsewhere i other).trans found⟩
  · intro i j key amongI amongJ foundI foundJ
    rcases used i amongI with sameI | ⟨otherI, beforeI⟩
    · rcases used j amongJ with sameJ | ⟨otherJ, beforeJ⟩
      · rw [sameI, sameJ]
      · rw [sameI, here] at foundI
        rw [elsewhere j otherJ, ← foundI] at foundJ
        exact (fresh j foundJ).elim
    · rw [elsewhere i otherI] at foundI
      rcases used j amongJ with sameJ | ⟨otherJ, beforeJ⟩
      · rw [sameJ, here] at foundJ
        rw [← foundJ] at foundI
        exact (fresh i foundI).elim
      · rw [elsewhere j otherJ] at foundJ
        exact sound.safe.own i j key beforeI beforeJ foundI foundJ
  · intro key member
    exact Nat.lt_succ_of_lt (sound.handed key member)
  · intro object i held
    obtain ⟨key, member, own, found⟩ := sound.held object i held
    refine ⟨key, member, own, ?_⟩
    rw [elsewhere i fun same => free ⟨object, same ▸ held⟩]
    exact found
  · intro i pooled key found handed
    by_cases same : i = n
    · rw [same, here] at found
      cases found
      exact absurd (sound.handed _ handed) (Nat.lt_irrefl _)
    · rw [elsewhere i same] at found
      exact sound.unused i ((Finset.mem_insert.mp pooled).resolve_left same) key found handed

theorem addKeys_sound (w : CWallet) (indices : List Nat) (sound : w.Sound)
    (free : ∀ n ∈ indices, ¬ w.Outstanding n) : (w.addKeys indices).Sound := by
  induction indices generalizing w with
  | nil => exact sound
  | cons n indices ih =>
      apply ih (w.addKey n) (addKey_sound w n sound (free n List.mem_cons_self))
      intro m member
      exact free m (List.mem_cons_of_mem n member)

/-! ## Filling the pool -/

theorem lt_nEnd (w : CWallet) (nIndex : Nat) (pooled : nIndex ∈ w.setKeyPool) :
    nIndex < w.nEnd :=
  Nat.lt_succ_of_le (Finset.le_sup (f := id) pooled)

theorem addKey_nEnd (w : CWallet) :
    (w.addKey w.nEnd).nEnd = w.nEnd + 1 ∧
      (w.addKey w.nEnd).setKeyPool.card = w.setKeyPool.card + 1 := by
  constructor
  · rw [nEnd, addKey]
    dsimp only
    rw [Finset.sup_insert, id, sup_eq_left.mpr]
    exact Nat.le_succ _
  · exact Finset.card_insert_of_notMem fun pooled => absurd (lt_nEnd w _ pooled) (Nat.lt_irrefl _)

theorem topUpLoop_eq (bound fuel : Nat) (w : CWallet)
    (enough : bound - w.setKeyPool.card ≤ fuel) :
    topUpLoop bound fuel w = w.addKeys (List.range' w.nEnd (bound - w.setKeyPool.card)) := by
  induction fuel generalizing w with
  | zero =>
      have none_left : bound - w.setKeyPool.card = 0 := by omega
      rw [none_left]
      rfl
  | succ fuel ih =>
      rw [topUpLoop]
      obtain ⟨last, size⟩ := addKey_nEnd w
      split
      · rename_i less
        have counted : bound - w.setKeyPool.card =
            (bound - (w.addKey w.nEnd).setKeyPool.card) + 1 := by omega
        rw [ih (w.addKey w.nEnd) (by omega), last, counted, List.range'_succ]
        rfl
      · have none_left : bound - w.setKeyPool.card = 0 := by omega
        rw [none_left]
        rfl

variable (keypool : Int)

theorem topUp_eq (kpSize : BitVec 32) (w : CWallet) :
    w.topUpKeyPool keypool kpSize = w.addKeys (w.topUpIndices keypool kpSize) := by
  rw [topUpKeyPool, topUpIndices]
  split
  · rfl
  · exact topUpLoop_eq _ _ w (Nat.sub_le _ _)

theorem topUp_sound (kpSize : BitVec 32) (w : CWallet) (sound : w.Sound)
    (free : ∀ n ∈ w.topUpIndices keypool kpSize, ¬ w.Outstanding n) :
    (w.topUpKeyPool keypool kpSize).Sound := by
  rw [topUp_eq]
  exact addKeys_sound w _ sound free

theorem topUp_same (kpSize : BitVec 32) (w : CWallet) :
    (w.topUpKeyPool keypool kpSize).reserves = w.reserves ∧
      (w.topUpKeyPool keypool kpSize).locked = w.locked ∧
      (w.topUpKeyPool keypool kpSize).handedOut = w.handedOut ∧
      (w.topUpKeyPool keypool kpSize).readFailed = w.readFailed := by
  rw [topUp_eq]
  exact addKeys_same w _

theorem mem_topUp (kpSize : BitVec 32) (w : CWallet) (nIndex : Nat) :
    nIndex ∈ (w.topUpKeyPool keypool kpSize).setKeyPool ↔
      nIndex ∈ w.topUpIndices keypool kpSize ∨ nIndex ∈ w.setKeyPool := by
  rw [topUp_eq]
  exact mem_addKeys w _ nIndex

/-! ## Reserving -/

/-- What the record of an index that left the pool makes of the call. -/
inductive Takes (w : CWallet) (nIndex : Nat) : Reserved → Prop where
  | key (vchPubKey : Nat) (found : w.pool nIndex = some vchPubKey)
      (known : vchPubKey < w.nGenerated) : Takes w nIndex (.key nIndex vchPubKey)
  | unknownKey (vchPubKey : Nat) (found : w.pool nIndex = some vchPubKey)
      (unknown : ¬ vchPubKey < w.nGenerated) : Takes w nIndex (.unknownKey nIndex)
  | readFailed (missing : w.pool nIndex = none) : Takes w nIndex (.readFailed nIndex)

theorem reserve_cases (w : CWallet) :
    (w.reserveKeyFromKeyPool keypool = (w.topUpKeyPool keypool 0, .nothing) ∧
      (w.topUpKeyPool keypool 0).setKeyPool = ∅) ∨
    ∃ nIndex ∈ (w.topUpKeyPool keypool 0).setKeyPool, ∃ result,
      w.reserveKeyFromKeyPool keypool = ((w.topUpKeyPool keypool 0).takeOut nIndex, result) ∧
        Takes (w.topUpKeyPool keypool 0) nIndex result := by
  have filled : (if w.locked then w else w.topUpKeyPool keypool 0) = w.topUpKeyPool keypool 0 := by
    rw [topUpKeyPool]
    split <;> rfl
  rw [reserveKeyFromKeyPool, filled]
  generalize w.topUpKeyPool keypool 0 = w'
  rw [reserveOldest]
  split
  · rename_i nonempty
    right
    refine ⟨w'.setKeyPool.min' nonempty, Finset.min'_mem _ _, _, rfl, ?_⟩
    generalize w'.setKeyPool.min' nonempty = nIndex
    rw [readPool, takeOut]
    dsimp only
    cases found : w'.pool nIndex with
    | none => exact .readFailed found
    | some key =>
        dsimp only
        split
        · rename_i known
          exact .key key found known
        · rename_i unknown
          exact .unknownKey key found unknown
  · rename_i empty
    exact .inl ⟨rfl, Finset.not_nonempty_iff_eq_empty.mp empty⟩

/-- In a sound wallet an index of the pool gives its key. -/
theorem takes_sound (w : CWallet) (sound : w.Sound) (nIndex : Nat) (pooled : nIndex ∈ w.setKeyPool)
    (result : Reserved) (takes : Takes w nIndex result) :
    ∃ key, result = .key nIndex key ∧ w.pool nIndex = some key := by
  obtain ⟨key, found⟩ := sound.safe.records nIndex (.inl pooled)
  cases takes with
  | key key' found' known => exact ⟨key', rfl, found'⟩
  | unknownKey key' found' unknown => exact (unknown (sound.generated nIndex key' found')).elim
  | readFailed missing =>
      rw [missing] at found
      cases found

/-- A key of the pool goes to an object that has none. -/
theorem give_sound (w : CWallet) (sound : w.Sound) (object nIndex key : Nat)
    (pooled : nIndex ∈ w.setKeyPool) (found : w.pool nIndex = some key) :
    { w.takeOut nIndex with
      reserves := Function.update w.reserves object ⟨some nIndex, some key⟩
      handedOut := key :: w.handedOut : CWallet }.Sound := by
  have unheld : ¬ w.Outstanding nIndex := fun held => sound.safe.apart nIndex held pooled
  have other : ∀ a i, a ≠ object →
      (Function.update w.reserves object ⟨some nIndex, some key⟩ a).nIndex = some i →
        (w.reserves a).nIndex = some i ∧ i ≠ nIndex := by
    intro a i apart held
    rw [Function.update_of_ne apart] at held
    exact ⟨held, fun same => unheld ⟨a, same ▸ held⟩⟩
  have own : ∀ i, (Function.update w.reserves object ⟨some nIndex, some key⟩ object).nIndex =
      some i → i = nIndex := by
    intro i held
    rw [Function.update_self] at held
    exact (Option.some.inj held).symm
  have used : ∀ i, i ∈ w.setKeyPool.erase nIndex ∨
      (∃ a, (Function.update w.reserves object ⟨some nIndex, some key⟩ a).nIndex = some i) →
        i ∈ w.setKeyPool ∨ w.Outstanding i := by
    intro i among
    rcases among with pool | ⟨a, held⟩
    · exact .inl (Finset.mem_of_mem_erase pool)
    · by_cases mine : a = object
      · rw [mine] at held
        exact .inl (own i held ▸ pooled)
      · exact .inr ⟨a, (other a i mine held).1⟩
  refine ⟨⟨?_, ?_, fun i among => sound.safe.records i (used i among),
    fun i j k amongI amongJ => sound.safe.own i j k (used i amongI) (used j amongJ), ?_,
    sound.safe.read⟩, sound.generated, ?_, ?_, ?_⟩
  · intro a b i heldA heldB
    dsimp only at heldA heldB
    by_cases mineA : a = object
    · by_cases mineB : b = object
      · rw [mineA, mineB]
      · rw [mineA] at heldA
        exact ((other b i mineB heldB).2 (own i heldA)).elim
    · by_cases mineB : b = object
      · rw [mineB] at heldB
        exact ((other a i mineA heldA).2 (own i heldB)).elim
      · exact sound.safe.distinct a b i (other a i mineA heldA).1 (other b i mineB heldB).1
  · rintro i ⟨a, held⟩ pool
    dsimp only [takeOut] at held pool
    by_cases mine : a = object
    · rw [mine] at held
      exact (Finset.mem_erase.mp pool).1 (own i held)
    · exact sound.safe.apart i ⟨a, (other a i mine held).1⟩ (Finset.mem_of_mem_erase pool)
  · exact List.nodup_cons.mpr ⟨sound.unused nIndex pooled key found, sound.safe.once⟩
  · intro k member
    rcases List.mem_cons.mp member with same | before
    · rw [same]
      exact sound.generated nIndex key found
    · exact sound.handed k before
  · intro a i held
    dsimp only at held ⊢
    by_cases mine : a = object
    · rw [mine] at held
      rw [mine, Function.update_self, own i held]
      exact ⟨key, List.mem_cons_self, rfl, found⟩
    · have before := (other a i mine held).1
      obtain ⟨k, member, same, there⟩ := sound.held a i before
      rw [Function.update_of_ne mine]
      exact ⟨k, List.mem_cons_of_mem key member, same, there⟩
  · intro i pool k there handed
    dsimp only [takeOut] at pool there handed
    obtain ⟨apart, pool⟩ := Finset.mem_erase.mp pool
    rcases List.mem_cons.mp handed with same | before
    · rw [same] at there
      exact apart (sound.safe.own i nIndex key (.inl pool) (.inl pooled) there found)
    · exact sound.unused i pool k there before

/-- An object lets go of its key; its record goes. -/
theorem keepKey_sound (w : CWallet) (sound : w.Sound) (object : Nat) : (w.keepKey object).Sound := by
  rw [keepKey]
  cases held : (w.reserves object).nIndex with
  | none => exact sound
  | some nIndex =>
      have mine : w.Outstanding nIndex := ⟨object, held⟩
      have other : ∀ a i, (Function.update w.reserves object ⟨none, none⟩ a).nIndex = some i →
          a ≠ object ∧ (w.reserves a).nIndex = some i ∧ i ≠ nIndex := by
        intro a i found
        by_cases same : a = object
        · rw [same, Function.update_self] at found
          cases found
        · rw [Function.update_of_ne same] at found
          refine ⟨same, found, fun clash => same ?_⟩
          exact sound.safe.distinct a object nIndex (clash ▸ found) held
      have used : ∀ i, i ∈ w.setKeyPool ∨
          (∃ a, (Function.update w.reserves object ⟨none, none⟩ a).nIndex = some i) →
            i ≠ nIndex ∧ (i ∈ w.setKeyPool ∨ w.Outstanding i) := by
        intro i among
        rcases among with pool | ⟨a, found⟩
        · exact ⟨fun same => sound.safe.apart nIndex mine (same ▸ pool), .inl pool⟩
        · obtain ⟨-, before, apart⟩ := other a i found
          exact ⟨apart, .inr ⟨a, before⟩⟩
      have elsewhere : ∀ i, i ≠ nIndex → Function.update w.pool nIndex none i = w.pool i :=
        fun i apart => Function.update_of_ne apart _ _
      refine ⟨⟨?_, ?_, ?_, ?_, sound.safe.once, sound.safe.read⟩, ?_, sound.handed, ?_, ?_⟩
      · intro a b i heldA heldB
        exact sound.safe.distinct a b i (other a i heldA).2.1 (other b i heldB).2.1
      · rintro i ⟨a, found⟩
        exact sound.safe.apart i ⟨a, (other a i found).2.1⟩
      · intro i among
        obtain ⟨apart, before⟩ := used i among
        obtain ⟨key, found⟩ := sound.safe.records i before
        exact ⟨key, (elsewhere i apart).trans found⟩
      · intro i j key amongI amongJ foundI foundJ
        obtain ⟨apartI, beforeI⟩ := used i amongI
        obtain ⟨apartJ, beforeJ⟩ := used j amongJ
        exact sound.safe.own i j key beforeI beforeJ ((elsewhere i apartI).symm.trans foundI)
          ((elsewhere j apartJ).symm.trans foundJ)
      · intro i key found
        dsimp only [erasePool] at found
        rw [Function.update_apply] at found
        split at found
        · cases found
        · exact sound.generated i key found
      · intro a i found
        obtain ⟨apart, before, away⟩ := other a i found
        obtain ⟨key, member, own, there⟩ := sound.held a i before
        dsimp only [erasePool]
        rw [Function.update_of_ne apart, elsewhere i away]
        exact ⟨key, member, own, there⟩
      · intro i pool key found
        have away := (used i (.inl pool)).1
        exact sound.unused i pool key ((elsewhere i away).symm.trans found)

/-- A key that is returned is in the pool again, and no longer handed out. -/
theorem returnKey_sound (w : CWallet) (sound : w.Sound) (object : Nat) :
    (w.returnKey object).Sound := by
  rw [returnKey]
  cases reserved : w.reserves object with
  | mk nIndex vchPubKey =>
  cases nIndex with
  | none => exact sound
  | some nIndex =>
      have held : (w.reserves object).nIndex = some nIndex := by rw [reserved]
      obtain ⟨key, member, own, found⟩ := sound.held object nIndex held
      rw [reserved] at own
      dsimp only at own
      rw [own]
      have other : ∀ a i, (Function.update w.reserves object ⟨none, none⟩ a).nIndex = some i →
          a ≠ object ∧ (w.reserves a).nIndex = some i ∧ i ≠ nIndex := by
        intro a i there
        by_cases same : a = object
        · rw [same, Function.update_self] at there
          cases there
        · rw [Function.update_of_ne same] at there
          refine ⟨same, there, fun clash => same ?_⟩
          exact sound.safe.distinct a object nIndex (clash ▸ there) held
      have used : ∀ i, i ∈ insert nIndex w.setKeyPool ∨
          (∃ a, (Function.update w.reserves object ⟨none, none⟩ a).nIndex = some i) →
            i ∈ w.setKeyPool ∨ w.Outstanding i := by
        intro i among
        rcases among with pool | ⟨a, there⟩
        · rcases Finset.mem_insert.mp pool with same | before
          · exact .inr ⟨object, same ▸ held⟩
          · exact .inl before
        · exact .inr ⟨a, (other a i there).2.1⟩
      refine ⟨⟨?_, ?_, fun i among => sound.safe.records i (used i among),
        fun i j k amongI amongJ => sound.safe.own i j k (used i amongI) (used j amongJ),
        sound.safe.once.erase key, sound.safe.read⟩, sound.generated,
        fun k handed => sound.handed k (List.mem_of_mem_erase handed), ?_, ?_⟩
      · intro a b i heldA heldB
        exact sound.safe.distinct a b i (other a i heldA).2.1 (other b i heldB).2.1
      · rintro i ⟨a, there⟩ pool
        obtain ⟨-, before, away⟩ := other a i there
        rcases Finset.mem_insert.mp pool with same | pooled
        · exact away same
        · exact sound.safe.apart i ⟨a, before⟩ pooled
      · intro a i there
        obtain ⟨apart, before, away⟩ := other a i there
        obtain ⟨k, handed, mine, record⟩ := sound.held a i before
        dsimp only
        rw [Function.update_of_ne apart]
        refine ⟨k, ?_, mine, record⟩
        rw [Option.elim_some, List.mem_erase_of_ne]
        · exact handed
        · intro same
          rw [same] at record
          exact away (sound.safe.own i nIndex key (.inr ⟨a, before⟩) (.inr ⟨object, held⟩) record
            found)
      · intro i pool k record handed
        dsimp only [Option.elim_some] at pool record handed
        rcases Finset.mem_insert.mp pool with same | pooled
        · rw [same, found] at record
          cases record
          exact List.Nodup.not_mem_erase sound.safe.once handed
        · exact sound.unused i pooled k record (List.mem_of_mem_erase handed)

/-- A key of the pool is handed out for good. -/
theorem spend_sound (w : CWallet) (sound : w.Sound) (nIndex key : Nat)
    (pooled : nIndex ∈ w.setKeyPool) (found : w.pool nIndex = some key) :
    { (w.takeOut nIndex).erasePool nIndex with
      handedOut := key :: w.handedOut : CWallet }.Sound := by
  have unheld : ¬ w.Outstanding nIndex := fun held => sound.safe.apart nIndex held pooled
  have used : ∀ i, i ∈ w.setKeyPool.erase nIndex ∨ w.Outstanding i →
      i ≠ nIndex ∧ (i ∈ w.setKeyPool ∨ w.Outstanding i) := by
    intro i among
    rcases among with pool | held
    · obtain ⟨apart, before⟩ := Finset.mem_erase.mp pool
      exact ⟨apart, .inl before⟩
    · exact ⟨fun same => unheld (same ▸ held), .inr held⟩
  have elsewhere : ∀ i, i ≠ nIndex → Function.update w.pool nIndex none i = w.pool i :=
    fun i apart => Function.update_of_ne apart _ _
  refine ⟨⟨sound.safe.distinct, ?_, ?_, ?_, ?_, sound.safe.read⟩, ?_, ?_, ?_, ?_⟩
  · intro i held pool
    exact sound.safe.apart i held (Finset.mem_of_mem_erase pool)
  · intro i among
    obtain ⟨apart, before⟩ := used i among
    obtain ⟨k, there⟩ := sound.safe.records i before
    exact ⟨k, (elsewhere i apart).trans there⟩
  · intro i j k amongI amongJ foundI foundJ
    obtain ⟨apartI, beforeI⟩ := used i amongI
    obtain ⟨apartJ, beforeJ⟩ := used j amongJ
    exact sound.safe.own i j k beforeI beforeJ ((elsewhere i apartI).symm.trans foundI)
      ((elsewhere j apartJ).symm.trans foundJ)
  · exact List.nodup_cons.mpr ⟨sound.unused nIndex pooled key found, sound.safe.once⟩
  · intro i k there
    dsimp only [erasePool, takeOut] at there
    rw [Function.update_apply] at there
    split at there
    · cases there
    · exact sound.generated i k there
  · intro k member
    rcases List.mem_cons.mp member with same | before
    · rw [same]
      exact sound.generated nIndex key found
    · exact sound.handed k before
  · intro a i held
    obtain ⟨k, member, own, there⟩ := sound.held a i held
    refine ⟨k, List.mem_cons_of_mem key member, own, ?_⟩
    exact (elsewhere i (used i (.inr ⟨a, held⟩)).1).trans there
  · intro i pool k there handed
    obtain ⟨apart, before⟩ := used i (.inl pool)
    have record := (elsewhere i apart).symm.trans there
    obtain ⟨-, pooled'⟩ := Finset.mem_erase.mp pool
    rcases List.mem_cons.mp handed with same | old
    · rw [same] at record
      exact apart (sound.safe.own i nIndex key before (.inl pooled) record found)
    · exact sound.unused i pooled' k record old

/-- A new key is handed out without having been in the pool. -/
theorem generate_sound (w : CWallet) (sound : w.Sound) :
    { w with
      nGenerated := w.nGenerated + 1
      handedOut := w.nGenerated :: w.handedOut : CWallet }.Sound := by
  have fresh : w.nGenerated ∉ w.handedOut :=
    fun handed => absurd (sound.handed _ handed) (Nat.lt_irrefl _)
  refine ⟨⟨sound.safe.distinct, sound.safe.apart, sound.safe.records, sound.safe.own,
    List.nodup_cons.mpr ⟨fresh, sound.safe.once⟩, sound.safe.read⟩,
    fun i key found => Nat.lt_succ_of_lt (sound.generated i key found), ?_, ?_, ?_⟩
  · intro key member
    rcases List.mem_cons.mp member with same | before
    · rw [same]
      exact Nat.lt_succ_self _
    · exact Nat.lt_succ_of_lt (sound.handed key before)
  · intro object i held
    obtain ⟨key, member, own, there⟩ := sound.held object i held
    exact ⟨key, List.mem_cons_of_mem _ member, own, there⟩
  · intro i pool key found handed
    rcases List.mem_cons.mp handed with same | before
    · rw [same] at found
      exact absurd (sound.generated i _ found) (Nat.lt_irrefl _)
    · exact sound.unused i pool key found before

theorem newKeyPool_eq (w : CWallet) :
    w.newKeyPool keypool = w.clearPool.addKeys (w.written keypool .newKeyPool) := by
  have indices : w.written keypool .newKeyPool =
      if w.locked then [] else List.range' 1 (max keypool 0).toNat := rfl
  rw [newKeyPool, indices]
  split
  · rfl
  · rw [addKeys, List.range'_eq_map_range, List.foldl_map]
    simp only [Nat.add_comm]

theorem newKeyPool_sound (w : CWallet) (sound : w.Sound)
    (careful : w.Careful keypool .newKeyPool) : (w.newKeyPool keypool).Sound := by
  rw [newKeyPool_eq]
  apply addKeys_sound w.clearPool _ ?_ careful
  have kept : ∀ i, w.Outstanding i →
      (if i ∈ w.setKeyPool then none else w.pool i) = w.pool i :=
    fun i held => if_neg (sound.safe.apart i held)
  have used : ∀ i, i ∈ (∅ : Finset Nat) ∨ w.Outstanding i → w.Outstanding i := by
    intro i among
    rcases among with none_there | held
    · exact (Finset.notMem_empty i none_there).elim
    · exact held
  refine ⟨⟨sound.safe.distinct, fun i _ => Finset.notMem_empty i, ?_, ?_, sound.safe.once,
    sound.safe.read⟩, ?_, sound.handed, ?_, fun i pool => (Finset.notMem_empty i pool).elim⟩
  · intro i among
    obtain ⟨key, found⟩ := sound.safe.records i (.inr (used i among))
    exact ⟨key, (kept i (used i among)).trans found⟩
  · intro i j key amongI amongJ foundI foundJ
    exact sound.safe.own i j key (.inr (used i amongI)) (.inr (used j amongJ))
      ((kept i (used i amongI)).symm.trans foundI) ((kept j (used j amongJ)).symm.trans foundJ)
  · intro i key found
    dsimp only [clearPool] at found
    split at found
    · cases found
    · exact sound.generated i key found
  · intro object i held
    obtain ⟨key, member, own, found⟩ := sound.held object i held
    exact ⟨key, member, own, (kept i ⟨object, held⟩).trans found⟩

/-! ## Every call -/

theorem call_sound (w : CWallet) (call : KeyPoolCall) (sound : w.Sound)
    (careful : w.Careful keypool call) : (w.call keypool call).Sound := by
  have reserving : (∀ n ∈ w.topUpIndices keypool 0, ¬ w.Outstanding n) →
      w.reserveKeyFromKeyPool keypool = (w.topUpKeyPool keypool 0, .nothing) ∨
      ∃ nIndex ∈ (w.topUpKeyPool keypool 0).setKeyPool, ∃ key,
        (w.topUpKeyPool keypool 0).pool nIndex = some key ∧
        w.reserveKeyFromKeyPool keypool =
          ((w.topUpKeyPool keypool 0).takeOut nIndex, .key nIndex key) := by
    intro free
    rcases reserve_cases keypool w with ⟨nothing, -⟩ | ⟨nIndex, pooled, result, same, takes⟩
    · exact .inl nothing
    · obtain ⟨key, rfl, found⟩ :=
        takes_sound _ (topUp_sound keypool 0 w sound free) nIndex pooled result takes
      exact .inr ⟨nIndex, pooled, key, found, same⟩
  cases call with
  | topUpKeyPool kpSize => exact topUp_sound keypool kpSize w sound careful
  | newKeyPool => exact newKeyPool_sound keypool w sound careful
  | getReservedKey object =>
      rw [CWallet.call, getReservedKey]
      cases held : (w.reserves object).nIndex with
      | some nIndex => exact sound
      | none =>
          have free : ∀ n ∈ w.topUpIndices keypool 0, ¬ w.Outstanding n := by
            intro n member
            refine careful n ?_
            have indices : w.written keypool (.getReservedKey object) =
                if (w.reserves object).nIndex.isSome then [] else w.topUpIndices keypool 0 := rfl
            rw [indices, held]
            exact member
          have filled := topUp_sound keypool 0 w sound free
          rcases reserving free with nothing | ⟨nIndex, pooled, key, found, same⟩
          · rw [nothing]
            exact filled
          · rw [same]
            exact give_sound _ filled object nIndex key pooled found
  | keepKey object => exact keepKey_sound w sound object
  | returnKey object => exact returnKey_sound w sound object
  | getKeyFromPool =>
      have filled := topUp_sound keypool 0 w sound careful
      rw [CWallet.call, getKeyFromPool]
      rcases reserving careful with nothing | ⟨nIndex, pooled, key, found, same⟩
      · rw [nothing]
        dsimp only
        split
        · exact filled
        · exact generate_sound _ filled
      · rw [same]
        exact spend_sound _ filled nIndex key pooled found
  | getOldestKeyPoolTime =>
      have filled := topUp_sound keypool 0 w sound careful
      rw [CWallet.call, getOldestKeyPoolTime]
      rcases reserving careful with nothing | ⟨nIndex, pooled, key, found, same⟩
      · rw [nothing]
        exact filled
      · rw [same]
        generalize w.topUpKeyPool keypool 0 = w' at filled pooled ⊢
        dsimp only [takeOut]
        rw [Finset.insert_erase pooled]
        exact filled
  | setLocked locked =>
      exact ⟨⟨sound.safe.distinct, sound.safe.apart, sound.safe.records, sound.safe.own,
        sound.safe.once, sound.safe.read⟩, sound.generated, sound.handed, sound.held, sound.unused⟩

/-- After the pool was filled over an outstanding index, no outcome of reserving is safe: the index
is in the pool, or was taken from it. -/
theorem reserve_breaks (w : CWallet) (sound : w.Sound) (n : Nat)
    (overwritten : n ∈ w.topUpIndices keypool 0) :
    ∃ nIndex result,
      w.reserveKeyFromKeyPool keypool = ((w.topUpKeyPool keypool 0).takeOut nIndex, result) ∧
      (nIndex = n → ∃ key, result = .key n key) ∧
      (nIndex ≠ n → n ∈ ((w.topUpKeyPool keypool 0).takeOut nIndex).setKeyPool) ∧
      (result = .readFailed nIndex ∨ result = .unknownKey nIndex ∨ ∃ key, result = .key nIndex key)
    := by
  have pooled : n ∈ (w.topUpKeyPool keypool 0).setKeyPool :=
    (mem_topUp keypool 0 w n).mpr (.inl overwritten)
  have generated : (w.topUpKeyPool keypool 0).Generated := by
    rw [topUp_eq]
    exact addKeys_generated w _ sound.generated
  have recorded : ∃ key, (w.topUpKeyPool keypool 0).pool n = some key := by
    rw [topUp_eq]
    exact addKeys_recorded w _ n (.inl overwritten)
  rcases reserve_cases keypool w with ⟨-, empty⟩ | ⟨nIndex, -, result, same, takes⟩
  · rw [empty] at pooled
    exact (Finset.notMem_empty n pooled).elim
  · refine ⟨nIndex, result, same, ?_, fun apart => Finset.mem_erase.mpr ⟨Ne.symm apart, pooled⟩, ?_⟩
    · intro here
      obtain ⟨key, found⟩ := recorded
      rw [here] at takes
      cases takes with
      | key key' found' known => exact ⟨key', rfl⟩
      | unknownKey key' found' unknown => exact (unknown (generated n key' found')).elim
      | readFailed missing =>
          rw [missing] at found
          cases found
    · cases takes with
      | key key found known => exact .inr (.inr ⟨key, rfl⟩)
      | unknownKey key found unknown => exact .inr (.inl rfl)
      | readFailed missing => exact .inl rfl

theorem call_breaks (w : CWallet) (call : KeyPoolCall) (sound : w.Sound)
    (careless : ¬ w.Careful keypool call) : ¬ (w.call keypool call).Safe := by
  rw [Careful] at careless
  push Not at careless
  obtain ⟨n, overwritten, object, held⟩ := careless
  intro safe
  have filled : (w.topUpKeyPool keypool 0).reserves = w.reserves := (topUp_same keypool 0 w).1
  cases call with
  | topUpKeyPool kpSize =>
      have same : (w.topUpKeyPool keypool kpSize).reserves = w.reserves :=
        (topUp_same keypool kpSize w).1
      exact safe.apart n ⟨object, by rw [CWallet.call, same]; exact held⟩
        ((mem_topUp keypool kpSize w n).mpr (.inl overwritten))
  | newKeyPool =>
      have same : (w.newKeyPool keypool).reserves = w.reserves := by
        rw [newKeyPool_eq]
        exact (addKeys_same w.clearPool _).1
      refine safe.apart n ⟨object, by rw [CWallet.call, same]; exact held⟩ ?_
      rw [CWallet.call, newKeyPool_eq]
      exact (mem_addKeys w.clearPool _ n).mpr (.inl overwritten)
  | getReservedKey other =>
      have indices : w.written keypool (.getReservedKey other) =
          if (w.reserves other).nIndex.isSome then [] else w.topUpIndices keypool 0 := rfl
      rw [indices] at overwritten
      rw [CWallet.call, getReservedKey] at safe
      cases free : (w.reserves other).nIndex with
      | some nIndex =>
          rw [free] at overwritten
          cases overwritten
      | none =>
          rw [free] at overwritten safe
          obtain ⟨nIndex, result, same, here, apart, outcome⟩ :=
            reserve_breaks keypool w sound n overwritten
          have apart_objects : object ≠ other := by
            intro clash
            rw [clash, free] at held
            cases held
          have still : ∀ given, (Function.update w.reserves other given object).nIndex = some n := by
            intro given
            rw [Function.update_of_ne apart_objects]
            exact held
          have clash : ∀ w' : CWallet, ∀ key, w'.Safe →
              w'.reserves = Function.update w.reserves other ⟨some nIndex, key⟩ →
              w'.setKeyPool = ((w.topUpKeyPool keypool 0).takeOut nIndex).setKeyPool → False := by
            intro w' key safe' reserves pool
            by_cases taken : nIndex = n
            · refine apart_objects (safe'.distinct object other n ?_ ?_)
              · rw [reserves]
                exact still _
              · rw [reserves, Function.update_self, taken]
            · refine safe'.apart n ⟨object, ?_⟩ (by rw [pool]; exact apart taken)
              rw [reserves]
              exact still _
          rw [same] at safe
          rcases outcome with rfl | rfl | ⟨key, rfl⟩
          · exact clash _ none safe (by dsimp only [takeOut]; rw [filled]) rfl
          · exact clash _ none safe (by dsimp only [takeOut]; rw [filled]) rfl
          · exact clash _ (some key) safe (by dsimp only [takeOut]; rw [filled]) rfl
  | keepKey other => cases overwritten
  | returnKey other => cases overwritten
  | getKeyFromPool =>
      obtain ⟨nIndex, result, same, here, apart, outcome⟩ :=
        reserve_breaks keypool w sound n overwritten
      have outstanding : ∀ w' : CWallet, w'.reserves = (w.topUpKeyPool keypool 0).reserves →
          w'.Outstanding n := fun w' reserves => ⟨object, by rw [reserves, filled]; exact held⟩
      rw [CWallet.call, getKeyFromPool, same] at safe
      by_cases taken : nIndex = n
      · obtain ⟨key, rfl⟩ := here taken
        obtain ⟨record, found⟩ := safe.records n (.inr (outstanding _ rfl))
        dsimp only [erasePool] at found
        rw [Function.update_self] at found
        cases found
      · rcases outcome with rfl | rfl | ⟨key, rfl⟩
        · exact Bool.false_ne_true safe.read.symm
        · exact safe.apart n (outstanding _ rfl) (apart taken)
        · exact safe.apart n (outstanding _ rfl) (apart taken)
  | getOldestKeyPoolTime =>
      obtain ⟨nIndex, result, same, here, apart, outcome⟩ :=
        reserve_breaks keypool w sound n overwritten
      have outstanding : ∀ w' : CWallet, w'.reserves = (w.topUpKeyPool keypool 0).reserves →
          w'.Outstanding n := fun w' reserves => ⟨object, by rw [reserves, filled]; exact held⟩
      rw [CWallet.call, getOldestKeyPoolTime, same] at safe
      by_cases taken : nIndex = n
      · obtain ⟨key, rfl⟩ := here taken
        exact safe.apart n (outstanding _ rfl) (Finset.mem_insert_self n _)
      · rcases outcome with rfl | rfl | ⟨key, rfl⟩
        · exact safe.apart n (outstanding _ rfl) (apart taken)
        · exact safe.apart n (outstanding _ rfl) (apart taken)
        · exact safe.apart n (outstanding _ rfl) (Finset.mem_insert_of_mem (apart taken))
  | setLocked locked => cases overwritten

theorem loaded_sound (w : CWallet) (loaded : w.Loaded) : w.Sound := by
  have free : ∀ i, ¬ w.Outstanding i := by
    rintro i ⟨object, held⟩
    rw [loaded.free object] at held
    cases held
  have pooled : ∀ i, i ∈ w.setKeyPool ∨ w.Outstanding i → i ∈ w.setKeyPool :=
    fun i among => among.resolve_right (free i)
  refine ⟨⟨?_, fun i held => (free i held).elim, fun i among => loaded.records i (pooled i among),
    fun i j key amongI amongJ => loaded.own i (pooled i amongI) j (pooled j amongJ) key, ?_,
    loaded.readFailed⟩, loaded.generated, ?_, ?_, ?_⟩
  · intro one two i held
    exact (free i ⟨one, held⟩).elim
  · rw [loaded.handedOut]
    exact List.nodup_nil
  · intro key member
    rw [loaded.handedOut] at member
    cases member
  · intro object i held
    exact (free i ⟨object, held⟩).elim
  · intro i pool key found member
    rw [loaded.handedOut] at member
    cases member

/-- In every run from a loaded wallet the pool is safe in every state exactly if no call writes the
record of an outstanding index. -/
theorem key_pool_safe (w : CWallet) (loaded : w.Loaded) (calls : List KeyPoolCall) :
    Runs.Always (call keypool) Safe w calls ↔
      Runs.EachStep (call keypool) (Careful keypool) w calls :=
  Runs.always_iff (call keypool) Safe Sound (Careful keypool) (fun _ sound => sound.safe)
    (call_sound keypool) (call_breaks keypool) w calls (loaded_sound w loaded)

/-- Nothing in the pool yet. -/
def brandNew : CWallet where
  setKeyPool := ∅
  pool _ := none
  nGenerated := 0
  locked := false
  reserves _ := ⟨none, none⟩
  handedOut := []
  readFailed := false

theorem brandNew_loaded : brandNew.Loaded where
  free _ := rfl
  records n member := (Finset.notMem_empty n member).elim
  own n member := (Finset.notMem_empty n member).elim
  generated _ _ found := by cases found
  handedOut := rfl
  readFailed := rfl

/-- With a pool of size 0 two objects reserve the same index, and the record of the first one is
gone; when the first one keeps its key, the second has no record at all. -/
theorem two_reservations_collide :
    brandNew.Loaded ∧
    ¬ Runs.Always (call 0) Safe brandNew [.getReservedKey 0, .getReservedKey 1] ∧
    ((Runs.run (call 0) brandNew [.getReservedKey 0, .getReservedKey 1]).reserves 0).nIndex =
      some 1 ∧
    ((Runs.run (call 0) brandNew [.getReservedKey 0, .getReservedKey 1]).reserves 1).nIndex =
      some 1 ∧
    (Runs.run (call 0) brandNew
      [.getReservedKey 0, .getReservedKey 1, .keepKey 0]).pool 1 = none := by
  have first : ((Runs.run (call 0) brandNew
      [.getReservedKey 0, .getReservedKey 1]).reserves 0).nIndex = some 1 := by decide +kernel
  have second : ((Runs.run (call 0) brandNew
      [.getReservedKey 0, .getReservedKey 1]).reserves 1).nIndex = some 1 := by decide +kernel
  refine ⟨brandNew_loaded, ?_, first, second, by decide +kernel⟩
  intro always
  have safe := Runs.always_run (call 0) Safe brandNew _ always
  exact absurd (safe.distinct 0 1 1 first second) (by decide)

theorem key_pool_safe_brand_new :
    Runs.Always (call 1) Safe brandNew [.getReservedKey 0, .getKeyFromPool, .returnKey 0] ↔
      Runs.EachStep (call 1) (Careful 1) brandNew
        [.getReservedKey 0, .getKeyFromPool, .returnKey 0] :=
  key_pool_safe 1 brandNew brandNew_loaded [.getReservedKey 0, .getKeyFromPool, .returnKey 0]

end CWallet

end RoiCoin
