import RoiCoin.Lib.Tally
import RoiCoin.Net.PartialMerkleTree
import RoiCoin.Serialize

/-! The stochastic address manager (`addrman.h`, `addrman.cpp`).

What classifies network addresses is a parameter, and so is the hash function. A slot that is `-1`
in the tables is `none` here. `none` as a result is an assertion that fails, or the use of an entry
that is not there. The counter of ids is a natural number. -/

namespace RoiCoin

abbrev CNetAddr := BitVec 128

structure CService where
  ip : CNetAddr
  port : BitVec 16
  deriving DecidableEq, Repr

structure CAddress extends CService where
  nServices : BitVec 64
  nTime : BitVec 32
  deriving DecidableEq, Repr

/-- `nRandomPos` is set as soon as an entry is made. -/
structure CAddrInfo extends CAddress where
  nLastTry : Int
  source : CNetAddr
  nLastSuccess : Int
  nAttempts : Int
  nRefCount : Int
  fInTried : Bool
  nRandomPos : Nat
  deriving DecidableEq, Repr

def addrmanTriedBucketCount : Nat := 256
def addrmanNewBucketCount : Nat := 1024
def addrmanBucketSize : Nat := 64
def addrmanTriedBucketsPerGroup : Nat := 8
def addrmanNewBucketsPerSourceGroup : Nat := 64
def addrmanNewBucketsPerAddress : Nat := 8
def addrmanHorizonDays : Int := 30
def addrmanRetries : Int := 3
def addrmanMaxFailures : Int := 10
def addrmanMinFailDays : Int := 7
def addrmanGetaddrMaxPct : Nat := 23
def addrmanGetaddrMax : Nat := 2500

/-- What the buckets depend on besides the address manager. -/
structure AddrHashes where
  /-- `GetCheapHash` of the hash of what a `CHashWriter` was given -/
  cheapHash : Bytes → BitVec 64
  getGroup : CNetAddr → Bytes
  isRoutable : CNetAddr → Bool

def CService.getKey (service : CService) : Bytes :=
  writeLE 16 service.ip.toNat ++
    [UInt8.ofNat (service.port.toNat / 0x100), UInt8.ofNat (service.port.toNat % 0x100)]

/-- `GetRandInt(nMax)`; a draw below the last multiple of the bound. -/
def getRandInt (draw nMax : Nat) : Nat := if nMax = 0 then 0 else draw % nMax

section Buckets

variable (hashes : AddrHashes) (nKey : Uint256)

def writeKey (bytes : Bytes) : Bytes := writeCompactSize bytes.length ++ bytes

def CService.getTriedBucket (service : CService) : Nat :=
  let hash1 := (hashes.cheapHash (writeUint256 nKey ++ writeKey service.getKey)).toNat
  let hash2 := (hashes.cheapHash (writeUint256 nKey ++ writeKey (hashes.getGroup service.ip) ++
    writeLE 8 (hash1 % addrmanTriedBucketsPerGroup))).toNat
  hash2 % addrmanTriedBucketCount

def CService.getNewBucket (service : CService) (src : CNetAddr) : Nat :=
  let vchSourceGroupKey := hashes.getGroup src
  let hash1 := (hashes.cheapHash (writeUint256 nKey ++ writeKey (hashes.getGroup service.ip) ++
    writeKey vchSourceGroupKey)).toNat
  let hash2 := (hashes.cheapHash (writeUint256 nKey ++ writeKey vchSourceGroupKey ++
    writeLE 8 (hash1 % addrmanNewBucketsPerSourceGroup))).toNat
  hash2 % addrmanNewBucketCount

def CService.getBucketPosition (service : CService) (fNew : Bool) (nBucket : Nat) : Nat :=
  let hash1 := (hashes.cheapHash (writeUint256 nKey ++ [if fNew then 0x4e else 0x4b] ++
    writeLE 4 nBucket ++ writeKey service.getKey)).toNat
  hash1 % addrmanBucketSize

end Buckets

def CAddrInfo.isTerrible (info : CAddrInfo) (nNow : Int) : Bool :=
  let nTime : Int := info.nTime.toNat
  if info.nLastTry ≠ 0 ∧ info.nLastTry ≥ nNow - 60 then false
  else if nTime > nNow + 10 * 60 then true
  else if nTime = 0 ∨ nNow - nTime > addrmanHorizonDays * 24 * 60 * 60 then true
  else if info.nLastSuccess = 0 ∧ info.nAttempts ≥ addrmanRetries then true
  else decide (nNow - info.nLastSuccess > addrmanMinFailDays * 24 * 60 * 60 ∧
    info.nAttempts ≥ addrmanMaxFailures)

structure CAddrMan where
  nKey : Uint256
  nIdCount : Nat
  mapInfo : Nat → Option CAddrInfo
  mapAddr : CNetAddr → Option Nat
  vRandom : List Nat
  nTried : Int
  vvTried : Nat → Nat → Option Nat
  nNew : Int
  vvNew : Nat → Nat → Option Nat

namespace CAddrMan

/-- The constructor; `Clear` draws the key. -/
def empty (nKey : Uint256) : CAddrMan :=
  ⟨nKey, 0, fun _ => none, fun _ => none, [], 0, fun _ _ => none, 0, fun _ _ => none⟩

/-- An assignment to one slot of a table. -/
def setSlot (table : Nat → Nat → Option Nat) (bucket pos : Nat) (entry : Option Nat) :
    Nat → Nat → Option Nat :=
  Function.update table bucket (Function.update (table bucket) pos entry)

/-- A change to an entry that is there. -/
def modify (m : CAddrMan) (nId : Nat) (change : CAddrInfo → CAddrInfo) : CAddrMan :=
  { m with mapInfo := Function.update m.mapInfo nId ((m.mapInfo nId).map change) }

def find (m : CAddrMan) (addr : CNetAddr) : Option (Nat × CAddrInfo) :=
  (m.mapAddr addr).bind fun nId => (m.mapInfo nId).map fun info => (nId, info)

def create (m : CAddrMan) (addr : CAddress) (addrSource : CNetAddr) : CAddrMan × Nat :=
  let nId := m.nIdCount
  ({ m with
    nIdCount := m.nIdCount + 1
    mapInfo := Function.update m.mapInfo nId
      (some ⟨addr, 0, addrSource, 0, 0, 0, false, m.vRandom.length⟩)
    mapAddr := Function.update m.mapAddr addr.ip (some nId)
    vRandom := m.vRandom ++ [nId] }, nId)

def moveTo (nRandomPos : Nat) (info : CAddrInfo) : CAddrInfo := { info with nRandomPos }

/-- The assignments of `SwapRandom`. -/
def exchange (m : CAddrMan) (nRndPos1 nRndPos2 nId1 nId2 : Nat) : CAddrMan :=
  { (m.modify nId1 (moveTo nRndPos2)).modify nId2 (moveTo nRndPos1) with
    vRandom := (m.vRandom.set nRndPos1 nId2).set nRndPos2 nId1 }

def swapRandom (m : CAddrMan) (nRndPos1 nRndPos2 : Nat) : Option CAddrMan :=
  if nRndPos1 = nRndPos2 then some m
  else
    (m.vRandom[nRndPos1]?).bind fun nId1 => (m.vRandom[nRndPos2]?).bind fun nId2 =>
      if (m.mapInfo nId1).isSome = true ∧ (m.mapInfo nId2).isSome = true then
        some (m.exchange nRndPos1 nRndPos2 nId1 nId2)
      else none

/-- The last lines of `Delete`, when the id stands last in `vRandom`. -/
def forget (m : CAddrMan) (nId : Nat) (addr : CNetAddr) : CAddrMan :=
  { m with
    vRandom := m.vRandom.dropLast
    mapAddr := Function.update m.mapAddr addr none
    mapInfo := Function.update m.mapInfo nId none
    nNew := m.nNew - 1 }

def delete (m : CAddrMan) (nId : Nat) : Option CAddrMan :=
  (m.mapInfo nId).bind fun info =>
    if info.fInTried = false ∧ info.nRefCount = 0 then
      (m.swapRandom info.nRandomPos (m.vRandom.length - 1)).map fun m => m.forget nId info.ip
    else none

/-- A change of the reference count. -/
def refer (more : Int) (info : CAddrInfo) : CAddrInfo :=
  { info with nRefCount := info.nRefCount + more }

/-- An entry leaves a slot of the new table. -/
def leaveSlot (m : CAddrMan) (nUBucket nUBucketPos nId : Nat) : CAddrMan :=
  { m.modify nId (refer (-1)) with
    vvNew := setSlot m.vvNew nUBucket nUBucketPos none }

def clearNew (m : CAddrMan) (nUBucket nUBucketPos : Nat) : Option CAddrMan :=
  match m.vvNew nUBucket nUBucketPos with
  | none => some m
  | some nIdDelete =>
      (m.mapInfo nIdDelete).bind fun infoDelete =>
        if infoDelete.nRefCount > 0 then
          let left := m.leaveSlot nUBucket nUBucketPos nIdDelete
          if infoDelete.nRefCount - 1 = 0 then left.delete nIdDelete else some left
        else none

section Buckets

variable (hashes : AddrHashes)

/-- One turn of the first loop of `MakeTried`. -/
def leaveBucket (info : CAddrInfo) (nId : Nat) (m : CAddrMan) (bucket : Nat) : CAddrMan :=
  let pos := info.getBucketPosition hashes m.nKey true bucket
  if m.vvNew bucket pos = some nId then m.leaveSlot bucket pos nId else m

def setTried (fInTried : Bool) (info : CAddrInfo) : CAddrInfo := { info with fInTried }

/-- An entry leaves its slot of the tried table. -/
def leaveTried (m : CAddrMan) (nKBucket nKBucketPos nId : Nat) : CAddrMan :=
  { m.modify nId (setTried false) with
    vvTried := setSlot m.vvTried nKBucket nKBucketPos none
    nTried := m.nTried - 1 }

def referOnce (info : CAddrInfo) : CAddrInfo := { info with nRefCount := 1 }

/-- Make space in the tried table. -/
def evict (m : CAddrMan) (nKBucket nKBucketPos nIdEvict : Nat) : Option CAddrMan :=
  (m.mapInfo nIdEvict).bind fun infoOld =>
    let m := m.leaveTried nKBucket nKBucketPos nIdEvict
    let nUBucket := infoOld.getNewBucket hashes m.nKey infoOld.source
    let nUBucketPos := infoOld.getBucketPosition hashes m.nKey true nUBucket
    (m.clearNew nUBucket nUBucketPos).bind fun m =>
      if m.vvNew nUBucket nUBucketPos = none then
        some { m.modify nIdEvict referOnce with
          vvNew := setSlot m.vvNew nUBucket nUBucketPos (some nIdEvict)
          nNew := m.nNew + 1 }
      else none

/-- The first loop of `MakeTried`. -/
def leaveNew (m : CAddrMan) (info : CAddrInfo) (nId : Nat) : CAddrMan :=
  (List.range addrmanNewBucketCount).foldl (leaveBucket hashes info nId) m

/-- Put an entry into a slot of the tried table. -/
def enterTried (m : CAddrMan) (nKBucket nKBucketPos nId : Nat) : Option CAddrMan :=
  if m.vvTried nKBucket nKBucketPos = none then
    some { m.modify nId (setTried true) with
      vvTried := setSlot m.vvTried nKBucket nKBucketPos (some nId)
      nTried := m.nTried + 1 }
  else none

/-- The part of `MakeTried` after its first loop. -/
def moveToTried (m : CAddrMan) (info : CAddrInfo) (nId : Nat) : Option CAddrMan :=
  (m.mapInfo nId).bind fun here =>
    if here.nRefCount = 0 then
      let nKBucket := info.getTriedBucket hashes m.nKey
      let nKBucketPos := info.getBucketPosition hashes m.nKey false nKBucket
      match m.vvTried nKBucket nKBucketPos with
      | none => m.enterTried nKBucket nKBucketPos nId
      | some nIdEvict => (evict hashes m nKBucket nKBucketPos nIdEvict).bind fun m =>
          m.enterTried nKBucket nKBucketPos nId
    else none

def makeTried (m : CAddrMan) (info : CAddrInfo) (nId : Nat) : Option CAddrMan :=
  let left := leaveNew hashes m info nId
  moveToTried hashes { left with nNew := left.nNew - 1 } info nId

def succeed (nTime : Int) (info : CAddrInfo) : CAddrInfo :=
  { info with nLastSuccess := nTime, nLastTry := nTime, nAttempts := 0 }

/-- `Good_`; `draw` is the random number. -/
def good (m : CAddrMan) (addr : CService) (nTime : Int) (draw : Nat) : Option CAddrMan :=
  match m.find addr.ip with
  | none => some m
  | some (nId, info) =>
      if info.toCService ≠ addr then some m
      else
        let m := m.modify nId (succeed nTime)
        if info.fInTried then some m
        else
          let nRnd := getRandInt draw addrmanNewBucketCount
          let nUBucket := (List.range addrmanNewBucketCount).find? fun n =>
            let nB := (n + nRnd) % addrmanNewBucketCount
            m.vvNew nB (info.getBucketPosition hashes m.nKey true nB) = some nId
          match nUBucket with
          | none => some m
          | some _ => makeTried hashes m info nId

/-- The changes of `Add_` to an entry that is there: time and services. -/
def refresh (addr : CAddress) (nTimePenalty nNow : Int) (info : CAddrInfo) : CAddrInfo :=
  let addrTime : Int := addr.nTime.toNat
  let fCurrentlyOnline := nNow - addrTime < 24 * 60 * 60
  let nUpdateInterval : Int := if fCurrentlyOnline then 60 * 60 else 24 * 60 * 60
  { info with
    nTime :=
      if addr.nTime ≠ 0 ∧ (info.nTime = 0 ∨
          (info.nTime.toNat : Int) < addrTime - nUpdateInterval - nTimePenalty) then
        BitVec.ofInt 32 (max 0 (addrTime - nTimePenalty))
      else info.nTime
    nServices := info.nServices ||| addr.nServices }

/-- Put an entry into a slot of the new table. -/
def fillSlot (m : CAddrMan) (nUBucket nUBucketPos nId : Nat) : CAddrMan :=
  { m.modify nId (refer 1) with
    vvNew := setSlot m.vvNew nUBucket nUBucketPos (some nId) }

/-- Whether an entry may take a slot. -/
def fInsert (m : CAddrMan) (slot : Option Nat) (info : CAddrInfo) (nNow : Int) : Option Bool :=
  match slot with
  | none => some true
  | some existing => (m.mapInfo existing).map fun infoExisting : CAddrInfo =>
      infoExisting.isTerrible nNow || decide (infoExisting.nRefCount > 1 ∧ info.nRefCount = 0)

/-- The last part of `Add_`, for an entry that is there. -/
def addSlot (m : CAddrMan) (nId : Nat) (source : CNetAddr) (nNow : Int) : Option CAddrMan :=
  (m.mapInfo nId).bind fun info =>
    let nUBucket := info.getNewBucket hashes m.nKey source
    let nUBucketPos := info.getBucketPosition hashes m.nKey true nUBucket
    if m.vvNew nUBucket nUBucketPos = some nId then some m
    else
      (fInsert m (m.vvNew nUBucket nUBucketPos) info nNow).bind fun insert =>
        if insert then
          (m.clearNew nUBucket nUBucketPos).map fun m => m.fillSlot nUBucket nUBucketPos nId
        else if info.nRefCount = 0 then m.delete nId
        else some m

def penalise (nTimePenalty : Int) (info : CAddrInfo) : CAddrInfo :=
  { info with nTime := BitVec.ofInt 32 (max 0 ((info.nTime.toNat : Int) - nTimePenalty)) }

/-- The part of `Add_` that makes an entry. -/
def enrol (m : CAddrMan) (addr : CAddress) (source : CNetAddr) (nTimePenalty : Int) :
    CAddrMan × Nat :=
  let made := m.create addr source
  ({ made.1.modify made.2 (penalise nTimePenalty) with nNew := made.1.nNew + 1 }, made.2)

/-- `Add_` -/
def add (m : CAddrMan) (addr : CAddress) (source : CNetAddr) (nTimePenalty nNow : Int)
    (draw : Nat) : Option (CAddrMan × Bool) :=
  if hashes.isRoutable addr.ip = false then some (m, false)
  else
    match m.find addr.ip with
    | some (nId, info) =>
        let m := m.modify nId (refresh addr nTimePenalty nNow)
        let info := refresh addr nTimePenalty nNow info
        if addr.nTime = 0 ∨ (info.nTime ≠ 0 ∧ addr.nTime ≤ info.nTime) then some (m, false)
        else if info.fInTried then some (m, false)
        else if info.nRefCount = addrmanNewBucketsPerAddress then some (m, false)
        else if info.nRefCount > 0 ∧ getRandInt draw (2 ^ info.nRefCount.toNat) ≠ 0 then
          some (m, false)
        else (addSlot hashes m nId source nNow).map fun m => (m, false)
    | none =>
        let enrolled := m.enrol addr source nTimePenalty
        (addSlot hashes enrolled.1 enrolled.2 source nNow).map fun m => (m, true)

end Buckets

def tryOnce (nTime : Int) (info : CAddrInfo) : CAddrInfo :=
  { info with nLastTry := nTime, nAttempts := info.nAttempts + 1 }

/-- `Attempt_` -/
def attempt (m : CAddrMan) (addr : CService) (nTime : Int) : CAddrMan :=
  match m.find addr.ip with
  | none => m
  | some (nId, info) =>
      if info.toCService ≠ addr then m
      else m.modify nId (tryOnce nTime)

def seen (nTime : Int) (info : CAddrInfo) : CAddrInfo :=
  { info with nTime := BitVec.ofInt 32 nTime }

/-- `Connected_` -/
def connected (m : CAddrMan) (addr : CService) (nTime : Int) : CAddrMan :=
  match m.find addr.ip with
  | none => m
  | some (nId, info) =>
      if info.toCService ≠ addr then m
      else if nTime - (info.nTime.toNat : Int) > 20 * 60 then
        m.modify nId (seen nTime)
      else m

/-- The loop of `GetAddr_`, from position `n` on. -/
def getAddrLoop (nNow : Int) (draws : Nat → Nat) (nNodes : Nat) :
    (left n : Nat) → List CAddress → CAddrMan → Option (CAddrMan × List CAddress)
  | 0, _, vAddr, m => some (m, vAddr)
  | left + 1, n, vAddr, m =>
      if vAddr.length ≥ nNodes then some (m, vAddr)
      else
        let nRndPos := getRandInt (draws n) (m.vRandom.length - n) + n
        (m.swapRandom n nRndPos).bind fun m =>
          (m.vRandom[n]?).bind fun nId => (m.mapInfo nId).bind fun ai =>
            getAddrLoop nNow draws nNodes left (n + 1)
              (if ai.isTerrible nNow then vAddr else vAddr ++ [ai.toCAddress]) m

/-- `GetAddr_` -/
def getAddr (m : CAddrMan) (nNow : Int) (draws : Nat → Nat) :
    Option (CAddrMan × List CAddress) :=
  let nNodes := min (addrmanGetaddrMaxPct * m.vRandom.length / 100) addrmanGetaddrMax
  m.getAddrLoop nNow draws nNodes m.vRandom.length 0 []

/-- The random choices of one turn of a loop of `Select_`; `taken` is the test with `GetChance`. -/
structure SelectDraw where
  bucket : Nat
  pos : Nat
  taken : Bool

/-- What `Select_` returns: `CAddrInfo()` where there are no addresses, and `going` where the draws
there are do not end its loop. -/
inductive Selected where
  | noAddress
  | going
  | entry (info : CAddrInfo)

/-- A loop of `Select_`. -/
def selectLoop (m : CAddrMan) (table : Nat → Nat → Option Nat) (count : Nat) :
    List SelectDraw → Option Selected
  | [] => some .going
  | draw :: draws =>
      match table (getRandInt draw.bucket count) (getRandInt draw.pos addrmanBucketSize) with
      | none => selectLoop m table count draws
      | some nId => (m.mapInfo nId).bind fun info =>
          if draw.taken then some (.entry info) else selectLoop m table count draws

/-- `Select_` -/
def select (m : CAddrMan) (coin : Nat) (draws : List SelectDraw) : Option Selected :=
  if m.vRandom.length = 0 then some .noAddress
  else if m.nTried > 0 ∧ (m.nNew = 0 ∨ getRandInt coin 2 = 0) then
    m.selectLoop m.vvTried addrmanTriedBucketCount draws
  else m.selectLoop m.vvNew addrmanNewBucketCount draws

/-! ## Changes to one entry -/

theorem modify_found (m : CAddrMan) (nId other : Nat) (change : CAddrInfo → CAddrInfo) :
    (m.modify nId change).mapInfo other =
      if other = nId then (m.mapInfo nId).map change else m.mapInfo other :=
  Function.update_apply m.mapInfo nId _ other

/-- What a change does not touch is the same in every entry. -/
theorem modify_view {α : Type} (view : CAddrInfo → α) (m : CAddrMan) (nId other : Nat)
    (change : CAddrInfo → CAddrInfo) (keeps : ∀ info, view (change info) = view info) :
    ((m.modify nId change).mapInfo other).map view = (m.mapInfo other).map view := by
  rw [modify_found]
  split
  · rename_i own
    subst own
    rw [Option.map_map]
    exact congrArg (fun f => (m.mapInfo other).map f) (funext keeps)
  · rfl

theorem entry_of_view {α : Type} {view : CAddrInfo → α} {first second : Option CAddrInfo}
    (same : first.map view = second.map view) (info : CAddrInfo) (found : first = some info) :
    ∃ before, second = some before ∧ view info = view before := by
  rw [found, Option.map_some] at same
  obtain ⟨before, there, eq⟩ := Option.map_eq_some_iff.mp same.symm
  exact ⟨before, there, eq.symm⟩

theorem isSome_of_view {α : Type} {view : CAddrInfo → α} {first second : Option CAddrInfo}
    (same : first.map view = second.map view) : first.isSome = second.isSome := by
  rw [← Option.isSome_map (f := view), same, Option.isSome_map]

/-! ## The list of ids -/

/-- `vRandom` lists the ids once, every entry has its position there, and an address leads to its
entry. -/
structure Listed (m : CAddrMan) : Prop where
  distinct : m.vRandom.Nodup
  listed : ∀ id, id ∈ m.vRandom ↔ (m.mapInfo id).isSome = true
  position : ∀ id info, m.mapInfo id = some info → m.vRandom[info.nRandomPos]? = some id
  address : ∀ id info, m.mapInfo id = some info → m.mapAddr info.ip = some id
  owned : ∀ ip id, m.mapAddr ip = some id → ∃ info, m.mapInfo id = some info ∧ info.ip = ip
  fresh : ∀ id, (m.mapInfo id).isSome = true → id < m.nIdCount

/-- The list depends on the addresses and the positions of the entries. -/
theorem listed_same (m m' : CAddrMan) (same : ∀ id,
      (m'.mapInfo id).map (fun info => (info.ip, info.nRandomPos)) =
        (m.mapInfo id).map fun info => (info.ip, info.nRandomPos))
    (vRandom : m'.vRandom = m.vRandom) (mapAddr : m'.mapAddr = m.mapAddr)
    (nIdCount : m'.nIdCount = m.nIdCount) (listed : Listed m) : Listed m' := by
  refine ⟨?_, ?_, ?_, ?_, ?_, ?_⟩
  · rw [vRandom]
    exact listed.distinct
  · intro id
    rw [vRandom, isSome_of_view (same id)]
    exact listed.listed id
  · intro id info found
    obtain ⟨before, there, eq⟩ := entry_of_view (same id) info found
    rw [vRandom, (Prod.mk.inj eq).2]
    exact listed.position id before there
  · intro id info found
    obtain ⟨before, there, eq⟩ := entry_of_view (same id) info found
    rw [mapAddr, (Prod.mk.inj eq).1]
    exact listed.address id before there
  · intro ip id leads
    rw [mapAddr] at leads
    obtain ⟨before, there, own⟩ := listed.owned ip id leads
    obtain ⟨info, found, eq⟩ := entry_of_view (same id).symm before there
    exact ⟨info, found, (Prod.mk.inj eq).1.symm.trans own⟩
  · intro id present
    rw [isSome_of_view (same id)] at present
    rw [nIdCount]
    exact listed.fresh id present

/-- An entry but for its position in `vRandom`. -/
def rest (info : CAddrInfo) : CAddrInfo := { info with nRandomPos := 0 }

/-- Only positions in `vRandom` are different. -/
structure Moved (m m' : CAddrMan) : Prop where
  nKey : m'.nKey = m.nKey
  nIdCount : m'.nIdCount = m.nIdCount
  mapAddr : m'.mapAddr = m.mapAddr
  nTried : m'.nTried = m.nTried
  vvTried : m'.vvTried = m.vvTried
  nNew : m'.nNew = m.nNew
  vvNew : m'.vvNew = m.vvNew
  length : m'.vRandom.length = m.vRandom.length
  entries : ∀ id, (m'.mapInfo id).map rest = (m.mapInfo id).map rest

theorem swapRandom_listed (m : CAddrMan) (listed : Listed m) (nRndPos1 nRndPos2 nId1 nId2 : Nat)
    (first : m.vRandom[nRndPos1]? = some nId1) (second : m.vRandom[nRndPos2]? = some nId2) :
    ∃ m', m.swapRandom nRndPos1 nRndPos2 = some m' ∧ Listed m' ∧ Moved m m' ∧
      m'.vRandom[nRndPos2]? = some nId1 := by
  by_cases same : nRndPos1 = nRndPos2
  · refine ⟨m, by rw [swapRandom, if_pos same], listed, ⟨rfl, rfl, rfl, rfl, rfl, rfl, rfl, rfl,
      fun _ => rfl⟩, ?_⟩
    rw [← same]
    exact first
  · have inside1 := (List.getElem?_eq_some_iff.mp first).1
    have inside2 := (List.getElem?_eq_some_iff.mp second).1
    have value1 := (List.getElem?_eq_some_iff.mp first).2
    have value2 := (List.getElem?_eq_some_iff.mp second).2
    have other : nId1 ≠ nId2 := by
      intro eq
      rw [← value1, ← value2] at eq
      exact same ((List.Nodup.getElem_inj_iff listed.distinct).mp eq)
    have present1 := (listed.listed nId1).mp (List.mem_of_getElem? first)
    have present2 := (listed.listed nId2).mp (List.mem_of_getElem? second)
    let swapped := m.exchange nRndPos1 nRndPos2 nId1 nId2
    have perm : swapped.vRandom.Perm m.vRandom := by
      have exchange := List.set_set_perm inside1 inside2
      rwa [value1, value2] at exchange
    have entries : ∀ id, (swapped.mapInfo id).map rest = (m.mapInfo id).map rest := by
      intro id
      exact (modify_view rest _ nId2 id (moveTo nRndPos1) fun _ => rfl).trans
        (modify_view rest m nId1 id (moveTo nRndPos2) fun _ => rfl)
    have at2 : swapped.vRandom[nRndPos2]? = some nId1 :=
      List.getElem?_set_self (by simpa using inside2)
    refine ⟨swapped, ?_, ⟨perm.nodup_iff.mpr listed.distinct, ?_, ?_, ?_, ?_, ?_⟩,
      ⟨rfl, rfl, rfl, rfl, rfl, rfl, rfl, perm.length_eq, entries⟩, at2⟩
    · rw [swapRandom, if_neg same, first, second, Option.bind_some, Option.bind_some,
        if_pos ⟨present1, present2⟩]
    · intro id
      rw [perm.mem_iff, isSome_of_view (entries id)]
      exact listed.listed id
    · intro id info found
      have list : swapped.vRandom = (m.vRandom.set nRndPos1 nId2).set nRndPos2 nId1 := rfl
      simp only [swapped, exchange, modify_found] at found
      split_ifs at found with is2 is12 is1
      · exact absurd is12.symm other
      · obtain ⟨before, there, rfl⟩ := Option.map_eq_some_iff.mp found
        rw [is2, list, moveTo, List.getElem?_set_ne (Ne.symm same), List.getElem?_set_self inside1]
      · obtain ⟨before, there, rfl⟩ := Option.map_eq_some_iff.mp found
        rw [is1]
        exact at2
      · have stays := listed.position id info found
        have not1 : nRndPos1 ≠ info.nRandomPos := by
          intro eq
          rw [← eq, first] at stays
          exact is1 (Option.some.inj stays).symm
        have not2 : nRndPos2 ≠ info.nRandomPos := by
          intro eq
          rw [← eq, second] at stays
          exact is2 (Option.some.inj stays).symm
        rw [list, List.getElem?_set_ne not2, List.getElem?_set_ne not1]
        exact stays
    · intro id info found
      obtain ⟨before, there, eq⟩ := entry_of_view (entries id) info found
      have ip : info.ip = before.ip := congrArg (fun info => info.ip) eq
      rw [ip]
      exact listed.address id before there
    · intro ip id leads
      obtain ⟨before, there, own⟩ := listed.owned ip id leads
      obtain ⟨info, found, eq⟩ := entry_of_view (entries id).symm before there
      exact ⟨info, found, (congrArg (fun info => info.ip) eq).symm.trans own⟩
    · intro id present
      rw [isSome_of_view (entries id)] at present
      exact listed.fresh id present

/-- An entry is gone, and the others differ in their positions only. -/
structure Without (gone : Nat) (m m' : CAddrMan) : Prop where
  nKey : m'.nKey = m.nKey
  nIdCount : m'.nIdCount = m.nIdCount
  nTried : m'.nTried = m.nTried
  vvTried : m'.vvTried = m.vvTried
  nNew : m'.nNew = m.nNew - 1
  vvNew : m'.vvNew = m.vvNew
  missing : m'.mapInfo gone = none
  entries : ∀ id, id ≠ gone → (m'.mapInfo id).map rest = (m.mapInfo id).map rest

theorem delete_listed (m : CAddrMan) (listed : Listed m) (nId : Nat) (info : CAddrInfo)
    (found : m.mapInfo nId = some info) (untried : info.fInTried = false)
    (unused : info.nRefCount = 0) :
    ∃ m', m.delete nId = some m' ∧ Listed m' ∧ Without nId m m' := by
  have place := listed.position nId info found
  have inside := (List.getElem?_eq_some_iff.mp place).1
  obtain ⟨nIdLast, last⟩ : ∃ nIdLast, m.vRandom[m.vRandom.length - 1]? = some nIdLast :=
    ⟨_, List.getElem?_eq_getElem (by omega)⟩
  obtain ⟨moved, ran, listed', same, at_end⟩ :=
    swapRandom_listed m listed _ _ nId nIdLast place last
  have cut : moved.vRandom.dropLast ++ [nId] = moved.vRandom := by
    apply List.dropLast_append_getLast?
    rw [List.getLast?_eq_getElem?, same.length, at_end]
    rfl
  have distinct := listed'.distinct
  rw [← cut, List.nodup_append] at distinct
  obtain ⟨distinct_left, -, apart⟩ := distinct
  have absent : nId ∉ moved.vRandom.dropLast := fun member =>
    apart nId member nId (List.mem_singleton_self nId) rfl
  have address : moved.mapAddr info.ip = some nId := by
    rw [same.mapAddr]
    exact listed.address nId info found
  refine ⟨moved.forget nId info.ip,
    by rw [delete, found, Option.bind_some, if_pos ⟨untried, unused⟩, ran]; rfl,
    ⟨distinct_left, ?_, ?_, ?_, ?_, ?_⟩,
    ⟨same.nKey, same.nIdCount, same.nTried, same.vvTried, by rw [forget, same.nNew], same.vvNew,
      Function.update_self _ _ _, ?_⟩⟩
  · intro id
    dsimp only [forget]
    by_cases own : id = nId
    · rw [own, Function.update_self]
      exact iff_of_false absent (by simp)
    · rw [Function.update_of_ne own, ← listed'.listed id, ← cut]
      simp [own]
  · intro id other there
    dsimp only [forget] at there ⊢
    by_cases own : id = nId
    · rw [own, Function.update_self] at there
      cases there
    · rw [Function.update_of_ne own] at there
      have stays := listed'.position id other there
      have before_end : other.nRandomPos < moved.vRandom.length - 1 := by
        have bound := (List.getElem?_eq_some_iff.mp stays).1
        by_contra late
        have exactly : other.nRandomPos = m.vRandom.length - 1 := by
          rw [same.length] at bound late
          omega
        rw [exactly, at_end] at stays
        exact own (Option.some.inj stays).symm
      rw [List.getElem?_dropLast, if_pos before_end]
      exact stays
  · intro id other there
    dsimp only [forget] at there ⊢
    by_cases own : id = nId
    · rw [own, Function.update_self] at there
      cases there
    · rw [Function.update_of_ne own] at there
      have leads := listed'.address id other there
      rw [Function.update_of_ne]
      · exact leads
      · intro eq
        rw [eq, address] at leads
        exact own (Option.some.inj leads).symm
  · intro ip id leads
    dsimp only [forget] at leads ⊢
    by_cases here : ip = info.ip
    · rw [here, Function.update_self] at leads
      cases leads
    · rw [Function.update_of_ne here] at leads
      obtain ⟨other, there, own⟩ := listed'.owned ip id leads
      have different : id ≠ nId := by
        intro eq
        rw [eq] at there
        obtain ⟨before, before_there, eq'⟩ := entry_of_view (same.entries nId) other there
        rw [found] at before_there
        cases before_there
        exact here (own.symm.trans (congrArg (fun info => info.ip) eq'))
      exact ⟨other, by rw [Function.update_of_ne different]; exact there, own⟩
  · intro id present
    dsimp only [forget] at present ⊢
    by_cases own : id = nId
    · rw [own, Function.update_self] at present
      cases present
    · rw [Function.update_of_ne own] at present
      exact listed'.fresh id present
  · intro id other
    dsimp only [forget]
    rw [Function.update_of_ne other]
    exact same.entries id

/-! ## The tables -/

theorem setSlot_found (table : Nat → Nat → Option Nat) (bucket pos : Nat) (entry : Option Nat)
    (bucket' pos' : Nat) : setSlot table bucket pos entry bucket' pos' =
      if bucket' = bucket ∧ pos' = pos then entry else table bucket' pos' := by
  by_cases here : bucket' = bucket
  · subst here
    simp [setSlot, Function.update_apply]
  · simp [setSlot, here]

section Tables

variable (hashes : AddrHashes)

/-- The slot of the new table that an entry can have in a bucket is its own. -/
def holds (m : CAddrMan) (id : Nat) (service : CService) (bucket : Nat) : Bool :=
  decide (m.vvNew bucket (service.getBucketPosition hashes m.nKey true bucket) = some id)

/-- The number of slots of the new table that an entry has. -/
def slots (m : CAddrMan) (id : Nat) (service : CService) : Nat :=
  ((Finset.range addrmanNewBucketCount).filter fun bucket =>
    holds hashes m id service bucket = true).card

/-- What the tables depend on. -/
def standing (info : CAddrInfo) : CService × Bool × Int :=
  (info.toCService, info.fInTried, info.nRefCount)

/-- The slots of an id are those where its entry belongs: a tried entry has its slot, and the
references of a new entry are its slots. In limbo it need not have any. -/
structure Stands (limbo : Finset Nat) (m : CAddrMan) (id : Nat) : Prop where
  triedSlot : ∀ bucket pos, m.vvTried bucket pos = some id →
    ∃ info, m.mapInfo id = some info ∧ info.fInTried = true ∧
      bucket = info.getTriedBucket hashes m.nKey ∧
      pos = info.getBucketPosition hashes m.nKey false bucket
  newSlot : ∀ bucket pos, m.vvNew bucket pos = some id → bucket < addrmanNewBucketCount ∧
    ∃ info, m.mapInfo id = some info ∧ info.fInTried = false ∧
      pos = info.getBucketPosition hashes m.nKey true bucket
  tried : ∀ info, m.mapInfo id = some info → info.fInTried = true →
    m.vvTried (info.getTriedBucket hashes m.nKey)
      (info.getBucketPosition hashes m.nKey false (info.getTriedBucket hashes m.nKey)) =
        some id ∧ info.nRefCount = 0
  new : ∀ info, m.mapInfo id = some info → info.fInTried = false →
    info.nRefCount = slots hashes m id info.toCService ∧
      info.nRefCount ≤ addrmanNewBucketsPerAddress ∧ (id ∉ limbo → 0 < info.nRefCount)
  limbo : id ∈ limbo → ∃ info, m.mapInfo id = some info ∧ info.fInTried = false

def Tabled (limbo : Finset Nat) (m : CAddrMan) : Prop := ∀ id, Stands hashes limbo m id

variable {hashes} (limbo : Finset Nat) (m : CAddrMan)

/-- An id whose entry and slots stay. -/
theorem stands_same (limbo limbo' : Finset Nat) (m m' : CAddrMan) (id : Nat)
    (nKey : m'.nKey = m.nKey)
    (same : (m'.mapInfo id).map standing = (m.mapInfo id).map standing)
    (triedSlots : ∀ bucket pos, m'.vvTried bucket pos = some id ↔ m.vvTried bucket pos = some id)
    (newSlots : ∀ bucket pos, m'.vvNew bucket pos = some id ↔ m.vvNew bucket pos = some id)
    (limbos : id ∈ limbo' ↔ id ∈ limbo) (stands : Stands hashes limbo m id) :
    Stands hashes limbo' m' id := by
  have stays : ∀ before, m.mapInfo id = some before → ∃ info, m'.mapInfo id = some info ∧
      before.toCService = info.toCService ∧ before.fInTried = info.fInTried := by
    intro before there
    obtain ⟨info, found, eq⟩ := entry_of_view same.symm before there
    simp only [standing, Prod.mk.injEq] at eq
    exact ⟨info, found, eq.1, eq.2.1⟩
  have came : ∀ info, m'.mapInfo id = some info → ∃ before, m.mapInfo id = some before ∧
      info.toCService = before.toCService ∧ info.fInTried = before.fInTried ∧
      info.nRefCount = before.nRefCount := by
    intro info found
    obtain ⟨before, there, eq⟩ := entry_of_view same info found
    simp only [standing, Prod.mk.injEq] at eq
    exact ⟨before, there, eq⟩
  refine ⟨?_, ?_, ?_, ?_, ?_⟩
  · intro bucket pos slot
    obtain ⟨before, there, isTried, own⟩ := stands.triedSlot bucket pos ((triedSlots _ _).mp slot)
    obtain ⟨info, found, service, table⟩ := stays before there
    refine ⟨info, found, table ▸ isTried, ?_⟩
    rw [nKey, ← service]
    exact own
  · intro bucket pos slot
    obtain ⟨inside, before, there, untried, own⟩ :=
      stands.newSlot bucket pos ((newSlots _ _).mp slot)
    obtain ⟨info, found, service, table⟩ := stays before there
    refine ⟨inside, info, found, table ▸ untried, ?_⟩
    rw [nKey, ← service]
    exact own
  · intro info found isTried
    obtain ⟨before, there, service, table, refs⟩ := came info found
    rw [nKey, triedSlots, service, refs]
    exact stands.tried before there (table ▸ isTried)
  · intro info found untried
    obtain ⟨before, there, service, table, refs⟩ := came info found
    have count : slots hashes m' id before.toCService = slots hashes m id before.toCService := by
      refine congrArg Finset.card (Finset.filter_congr fun bucket _ => ?_)
      rw [holds, holds, decide_eq_true_eq, decide_eq_true_eq, nKey, newSlots]
    rw [service, count, refs, limbos]
    exact stands.new before there (table ▸ untried)
  · intro member
    obtain ⟨before, there, untried⟩ := stands.limbo (limbos.mp member)
    obtain ⟨info, found, -, table⟩ := stays before there
    exact ⟨info, found, table ▸ untried⟩

theorem tabled_same (m' : CAddrMan)
    (same : ∀ id, (m'.mapInfo id).map standing = (m.mapInfo id).map standing)
    (nKey : m'.nKey = m.nKey) (vvTried : m'.vvTried = m.vvTried) (vvNew : m'.vvNew = m.vvNew)
    (tabled : Tabled hashes limbo m) : Tabled hashes limbo m' := fun id =>
  stands_same limbo limbo m m' id nKey (same id) (fun _ _ => by rw [vvTried])
    (fun _ _ => by rw [vvNew]) Iff.rfl (tabled id)

/-- A change to the entry and the slots of one id. -/
theorem tabled_change (limbo limbo' : Finset Nat) (m m' : CAddrMan) (id : Nat)
    (nKey : m'.nKey = m.nKey)
    (others : ∀ other, other ≠ id →
      (m'.mapInfo other).map standing = (m.mapInfo other).map standing)
    (triedSlots : ∀ bucket pos other, other ≠ id →
      (m'.vvTried bucket pos = some other ↔ m.vvTried bucket pos = some other))
    (newSlots : ∀ bucket pos other, other ≠ id →
      (m'.vvNew bucket pos = some other ↔ m.vvNew bucket pos = some other))
    (limbos : ∀ other, other ≠ id → (other ∈ limbo' ↔ other ∈ limbo))
    (own : Stands hashes limbo' m' id) (tabled : Tabled hashes limbo m) :
    Tabled hashes limbo' m' := by
  intro other
  by_cases here : other = id
  · rw [here]
    exact own
  · exact stands_same limbo limbo' m m' other nKey (others other here)
      (fun bucket pos => triedSlots bucket pos other here)
      (fun bucket pos => newSlots bucket pos other here) (limbos other here) (tabled other)

/-- An entry without references has no slot. -/
theorem tabled_idle (tabled : Tabled hashes limbo m)
    (id : Nat) (info : CAddrInfo) (found : m.mapInfo id = some info)
    (unused : info.nRefCount = 0) (bucket pos : Nat) : m.vvNew bucket pos ≠ some id := by
  intro slot
  obtain ⟨inside, other, there, untried, own⟩ := (tabled id).newSlot bucket pos slot
  rw [found] at there
  cases there
  have none := ((tabled id).new info found untried).1
  rw [unused] at none
  have empty : slots hashes m id info.toCService = 0 := by exact_mod_cast none.symm
  rw [slots, Finset.card_eq_zero, Finset.filter_eq_empty_iff] at empty
  apply empty (Finset.mem_range.mpr inside)
  rw [holds, ← own, decide_eq_true slot]

theorem tabled_exempt (id : Nat) (info : CAddrInfo)
    (found : m.mapInfo id = some info) (untried : info.fInTried = false)
    (tabled : Tabled hashes limbo m) : Tabled hashes (insert id limbo) m := by
  refine tabled_change limbo _ m m id rfl (fun _ _ => rfl) (fun _ _ _ _ => Iff.rfl)
    (fun _ _ _ _ => Iff.rfl) (fun other different => by simp [different]) ?_ tabled
  refine ⟨(tabled id).triedSlot, (tabled id).newSlot, (tabled id).tried, ?_,
    fun _ => ⟨info, found, untried⟩⟩
  intro info' found' untried'
  obtain ⟨count, few, -⟩ := (tabled id).new info' found' untried'
  exact ⟨count, few, fun outside => absurd (Finset.mem_insert_self id limbo) outside⟩

theorem tabled_settle (id : Nat) (info : CAddrInfo)
    (found : m.mapInfo id = some info) (used : 0 < info.nRefCount)
    (tabled : Tabled hashes limbo m) : Tabled hashes (limbo.erase id) m := by
  refine tabled_change limbo _ m m id rfl (fun _ _ => rfl) (fun _ _ _ _ => Iff.rfl)
    (fun _ _ _ _ => Iff.rfl) (fun other different => by simp [different]) ?_ tabled
  refine ⟨(tabled id).triedSlot, (tabled id).newSlot, (tabled id).tried, ?_,
    fun member => absurd member (Finset.notMem_erase id limbo)⟩
  intro info' found' untried'
  obtain ⟨count, few, -⟩ := (tabled id).new info' found' untried'
  rw [found] at found'
  cases found'
  exact ⟨count, few, fun _ => used⟩

/-! ## One slot of the new table -/

/-- The slots of the entry whose slot changes. -/
theorem slots_own (m' : CAddrMan) (bucket pos : Nat) (entry : Option Nat) (id : Nat)
    (service : CService) (nKey : m'.nKey = m.nKey)
    (vvNew : m'.vvNew = setSlot m.vvNew bucket pos entry) (inside : bucket < addrmanNewBucketCount)
    (own : pos = service.getBucketPosition hashes m.nKey true bucket) :
    slots hashes m' id service + (decide (m.vvNew bucket pos = some id)).toNat =
      slots hashes m id service + (decide (entry = some id)).toNat := by
  have change := Tally.card_filter_change (Finset.range addrmanNewBucketCount)
    (holds hashes m id service) (holds hashes m' id service) bucket (Finset.mem_range.mpr inside) ?_
  · have before : holds hashes m id service bucket = decide (m.vvNew bucket pos = some id) := by
      rw [holds, ← own]
    have after : holds hashes m' id service bucket = decide (entry = some id) := by
      rw [holds, nKey, ← own, vvNew, setSlot_found, if_pos ⟨rfl, rfl⟩]
    rw [before, after] at change
    exact change
  · intro other _ different
    rw [holds, holds, nKey, vvNew, setSlot_found, if_neg fun here => different here.1]

/-- One slot of the new table and the references of one entry change together. -/
theorem tabled_slot (bucket pos id : Nat)
    (entry : Option Nat) (more : Int) (info : CAddrInfo) (found : m.mapInfo id = some info)
    (untried : info.fInTried = false) (inside : bucket < addrmanNewBucketCount)
    (own : pos = info.getBucketPosition hashes m.nKey true bucket)
    (before : ∀ other, m.vvNew bucket pos = some other → other = id)
    (after : ∀ other, entry = some other → other = id)
    (balance : more + (decide (m.vvNew bucket pos = some id)).toNat =
      (decide (entry = some id)).toNat)
    (few : info.nRefCount + more ≤ addrmanNewBucketsPerAddress)
    (positive : id ∉ limbo → 0 < info.nRefCount + more) (m' : CAddrMan)
    (result : m' = { m.modify id (refer more) with
      vvNew := setSlot m.vvNew bucket pos entry }) (tabled : Tabled hashes limbo m) :
    Tabled hashes limbo m' := by
  have found' : ∀ other, m'.mapInfo other =
      if other = id then some (refer more info) else m.mapInfo other := by
    intro other
    rw [result, ← Option.map_some, ← found]
    exact modify_found m id other (refer more)
  have nKey : m'.nKey = m.nKey := by
    rw [result]
    rfl
  have vvTried : m'.vvTried = m.vvTried := by
    rw [result]
    rfl
  have vvNew : m'.vvNew = setSlot m.vvNew bucket pos entry := by rw [result]
  have own_entry : m'.mapInfo id = some (refer more info) := by rw [found', if_pos rfl]
  refine tabled_change limbo limbo m m' id nKey
    (fun other different => by rw [found', if_neg different])
    (fun _ _ _ _ => by rw [vvTried]) ?_ (fun _ _ => Iff.rfl) ⟨?_, ?_, ?_, ?_, ?_⟩ tabled
  · intro bucket' pos' other different
    rw [vvNew, setSlot_found]
    split
    · rename_i here
      rw [here.1, here.2]
      exact ⟨fun slot => (different (after other slot)).elim,
        fun slot => (different (before other slot)).elim⟩
    · rfl
  · intro bucket' pos' slot
    rw [vvTried] at slot
    obtain ⟨old, there, isTried, -⟩ := (tabled id).triedSlot bucket' pos' slot
    rw [found] at there
    cases there
    rw [untried] at isTried
    cases isTried
  · intro bucket' pos' slot
    rw [vvNew, setSlot_found] at slot
    rw [nKey]
    split at slot
    · rename_i here
      rw [here.1, here.2]
      exact ⟨inside, refer more info, own_entry, untried, own⟩
    · obtain ⟨inside', old, there, -, place⟩ := (tabled id).newSlot bucket' pos' slot
      rw [found] at there
      cases there
      exact ⟨inside', refer more info, own_entry, untried, place⟩
  · intro new there isTried
    rw [own_entry] at there
    cases there
    rw [refer, untried] at isTried
    cases isTried
  · intro new there _
    rw [own_entry] at there
    cases there
    have count := ((tabled id).new info found untried).1
    have change := slots_own m m' bucket pos entry id info.toCService nKey vvNew inside own
    have refs : (refer more info).nRefCount = info.nRefCount + more := rfl
    have service : (refer more info).toCService = info.toCService := rfl
    rw [refs, service]
    exact ⟨by omega, few, positive⟩
  · exact fun _ => ⟨refer more info, own_entry, untried⟩

theorem tabled_leave (bucket pos id : Nat)
    (slot : m.vvNew bucket pos = some id) (exempt : id ∈ limbo) (tabled : Tabled hashes limbo m) :
    Tabled hashes limbo (m.leaveSlot bucket pos id) := by
  obtain ⟨inside, info, found, untried, own⟩ := (tabled id).newSlot bucket pos slot
  obtain ⟨-, few, -⟩ := (tabled id).new info found untried
  refine tabled_slot limbo m bucket pos id none (-1) info found untried inside own
    (fun other slot' => ?_) (fun other none => by cases none) ?_ (by omega)
    (fun outside => absurd exempt outside) _ rfl tabled
  · rw [slot] at slot'
    exact (Option.some.inj slot').symm
  · rw [decide_eq_true slot]
    rfl

theorem tabled_fill (bucket pos id : Nat) (info : CAddrInfo)
    (slot : m.vvNew bucket pos = none) (found : m.mapInfo id = some info)
    (untried : info.fInTried = false) (few : info.nRefCount < addrmanNewBucketsPerAddress)
    (inside : bucket < addrmanNewBucketCount)
    (own : pos = info.getBucketPosition hashes m.nKey true bucket)
    (tabled : Tabled hashes limbo m) : Tabled hashes limbo (m.fillSlot bucket pos id) := by
  have count := ((tabled id).new info found untried).1
  refine tabled_slot limbo m bucket pos id (some id) 1 info found untried inside own
    (fun other slot' => ?_) (fun other same => (Option.some.inj same).symm) ?_ (by omega)
    (fun _ => by omega) _ rfl tabled
  · rw [slot] at slot'
    cases slot'
  · rw [decide_eq_true rfl, slot]
    rfl

/-- What is gone had no slot. -/
theorem tabled_without (m' : CAddrMan) (id : Nat) (info : CAddrInfo)
    (found : m.mapInfo id = some info) (untried : info.fInTried = false)
    (unused : info.nRefCount = 0) (without : Without id m m') (tabled : Tabled hashes limbo m) :
    Tabled hashes (limbo.erase id) m' := by
  refine tabled_change limbo _ m m' id without.nKey ?_
    (fun _ _ _ _ => by rw [without.vvTried]) (fun _ _ _ _ => by rw [without.vvNew])
    (fun other different => by simp [different]) ⟨?_, ?_, ?_, ?_, ?_⟩ tabled
  · intro other different
    have same := congrArg (Option.map standing) (without.entries other different)
    rwa [Option.map_map, Option.map_map] at same
  · intro bucket pos slot
    rw [without.vvTried] at slot
    obtain ⟨before, there, isTried, -⟩ := (tabled id).triedSlot bucket pos slot
    rw [found] at there
    cases there
    rw [untried] at isTried
    cases isTried
  · intro bucket pos slot
    rw [without.vvNew] at slot
    exact (tabled_idle limbo m tabled id info found unused bucket pos slot).elim
  · intro after there
    rw [without.missing] at there
    cases there
  · intro after there
    rw [without.missing] at there
    cases there
  · exact fun member => absurd member (Finset.notMem_erase id limbo)

/-! ## The tried table -/

theorem tried_idle (tabled : Tabled hashes limbo m)
    (id : Nat) (info : CAddrInfo) (found : m.mapInfo id = some info)
    (isTried : info.fInTried = true) : slots hashes m id info.toCService = 0 := by
  rw [slots, Finset.card_eq_zero, Finset.filter_eq_empty_iff]
  intro bucket _ held
  rw [holds, decide_eq_true_eq] at held
  obtain ⟨-, other, there, untried, -⟩ := (tabled id).newSlot bucket _ held
  rw [found] at there
  cases there
  rw [isTried] at untried
  cases untried

theorem setTried_found (id other : Nat) (fInTried : Bool) (info : CAddrInfo)
    (found : m.mapInfo id = some info) :
    (m.modify id (setTried fInTried)).mapInfo other =
      if other = id then some (setTried fInTried info) else m.mapInfo other := by
  rw [modify_found, found]
  rfl

theorem tabled_leaveTried (bucket pos id : Nat)
    (slot : m.vvTried bucket pos = some id) (tabled : Tabled hashes limbo m) :
    Tabled hashes (insert id limbo) (m.leaveTried bucket pos id) := by
  obtain ⟨info, found, isTried, own⟩ := (tabled id).triedSlot bucket pos slot
  have found' : ∀ other, (m.leaveTried bucket pos id).mapInfo other =
      if other = id then some (setTried false info) else m.mapInfo other :=
    fun other => setTried_found m id other false info found
  have own_entry : (m.leaveTried bucket pos id).mapInfo id = some (setTried false info) := by
    rw [found', if_pos rfl]
  have idle := tried_idle limbo m tabled id info found isTried
  have unused := ((tabled id).tried info found isTried).2
  have tried_slot : ∀ bucket' pos', (m.leaveTried bucket pos id).vvTried bucket' pos' =
      if bucket' = bucket ∧ pos' = pos then none else m.vvTried bucket' pos' :=
    setSlot_found m.vvTried bucket pos none
  refine tabled_change limbo _ m _ id rfl
    (fun other different => by rw [found', if_neg different]) ?_ (fun _ _ _ _ => Iff.rfl)
    (fun other different => by simp [different]) ⟨?_, ?_, ?_, ?_, ?_⟩ tabled
  · intro bucket' pos' other different
    rw [tried_slot]
    split
    · rename_i here
      rw [here.1, here.2, slot]
      exact ⟨fun none => (nomatch none), fun same => (different (Option.some.inj same).symm).elim⟩
    · rfl
  · intro bucket' pos' slot'
    rw [tried_slot] at slot'
    split at slot'
    · cases slot'
    · rename_i elsewhere
      obtain ⟨old, there, -, place⟩ := (tabled id).triedSlot bucket' pos' slot'
      rw [found] at there
      cases there
      refine (elsewhere ?_).elim
      rw [place.2, own.2, place.1, own.1]
      exact ⟨rfl, rfl⟩
  · intro bucket' pos' slot'
    obtain ⟨-, old, there, untried, -⟩ := (tabled id).newSlot bucket' pos' slot'
    rw [found] at there
    cases there
    rw [isTried] at untried
    cases untried
  · intro new there isTried'
    rw [own_entry] at there
    cases there
    cases isTried'
  · intro new there _
    rw [own_entry] at there
    cases there
    have count : slots hashes (m.leaveTried bucket pos id) id info.toCService =
        slots hashes m id info.toCService := rfl
    have refs : (setTried false info).nRefCount = info.nRefCount := rfl
    have service : (setTried false info).toCService = info.toCService := rfl
    rw [refs, service, count, idle, unused]
    exact ⟨rfl, by decide, fun outside => absurd (Finset.mem_insert_self id limbo) outside⟩
  · exact fun _ => ⟨setTried false info, own_entry, rfl⟩

theorem tabled_enterTried (m' : CAddrMan) (bucket pos id : Nat)
    (info : CAddrInfo) (found : m.mapInfo id = some info) (untried : info.fInTried = false)
    (unused : info.nRefCount = 0) (own_bucket : bucket = info.getTriedBucket hashes m.nKey)
    (own_pos : pos = info.getBucketPosition hashes m.nKey false bucket)
    (ran : m.enterTried bucket pos id = some m') (tabled : Tabled hashes limbo m) :
    Tabled hashes (limbo.erase id) m' := by
  rw [enterTried] at ran
  split at ran
  · rename_i slot
    have result := (Option.some.inj ran).symm
    have found' : ∀ other, m'.mapInfo other =
        if other = id then some (setTried true info) else m.mapInfo other := by
      intro other
      rw [result]
      exact setTried_found m id other true info found
    have own_entry : m'.mapInfo id = some (setTried true info) := by rw [found', if_pos rfl]
    have tried_slot : ∀ bucket' pos', m'.vvTried bucket' pos' =
        if bucket' = bucket ∧ pos' = pos then some id else m.vvTried bucket' pos' := by
      rw [result]
      exact setSlot_found m.vvTried bucket pos (some id)
    have nKey : m'.nKey = m.nKey := by
      rw [result]
      rfl
    have vvNew : m'.vvNew = m.vvNew := by
      rw [result]
      rfl
    refine tabled_change limbo _ m m' id nKey
      (fun other different => by rw [found', if_neg different]) ?_ (fun _ _ _ _ => by rw [vvNew])
      (fun other different => by simp [different]) ⟨?_, ?_, ?_, ?_, ?_⟩ tabled
    · intro bucket' pos' other different
      rw [tried_slot]
      split
      · rename_i here
        rw [here.1, here.2, slot]
        exact ⟨fun same => (different (Option.some.inj same).symm).elim, fun none => (nomatch none)⟩
      · rfl
    · intro bucket' pos' slot'
      rw [tried_slot] at slot'
      rw [nKey]
      split at slot'
      · rename_i here
        rw [here.1, here.2]
        exact ⟨setTried true info, own_entry, rfl, own_bucket, own_pos⟩
      · obtain ⟨old, there, wasTried, -⟩ := (tabled id).triedSlot bucket' pos' slot'
        rw [found] at there
        cases there
        rw [untried] at wasTried
        cases wasTried
    · intro bucket' pos' slot'
      rw [vvNew] at slot'
      exact (tabled_idle limbo m tabled id info found unused bucket' pos' slot').elim
    · intro new there _
      rw [own_entry] at there
      cases there
      have place : bucket = (setTried true info).getTriedBucket hashes m.nKey := own_bucket
      rw [nKey, tried_slot, ← place]
      exact ⟨if_pos ⟨rfl, own_pos.symm⟩, unused⟩
    · intro new there untried'
      rw [own_entry] at there
      cases there
      cases untried'
    · exact fun member => absurd member (Finset.notMem_erase id limbo)
  · cases ran

end Tables

/-! ## The counters -/

def isTried (m : CAddrMan) (id : Nat) : Bool := ((m.mapInfo id).map CAddrInfo.fInTried).getD false

def isNew (limbo : Finset Nat) (m : CAddrMan) (id : Nat) : Bool :=
  ((m.mapInfo id).map fun info => !info.fInTried).getD false && decide (id ∉ limbo)

/-- The counters count the entries outside limbo; `spare` entries too many are counted as new. -/
structure Counted (limbo : Finset Nat) (spare : Int) (m : CAddrMan) : Prop where
  nTried : m.nTried = ((Finset.range m.nIdCount).filter fun id => m.isTried id = true).card
  nNew : m.nNew = ((Finset.range m.nIdCount).filter fun id => m.isNew limbo id = true).card + spare

theorem counted_same (limbo : Finset Nat) (spare : Int) (m m' : CAddrMan)
    (same : ∀ id, (m'.mapInfo id).map CAddrInfo.fInTried = (m.mapInfo id).map CAddrInfo.fInTried)
    (nIdCount : m'.nIdCount = m.nIdCount) (nTried : m'.nTried = m.nTried)
    (nNew : m'.nNew = m.nNew) (counted : Counted limbo spare m) : Counted limbo spare m' := by
  have tried : m'.isTried = m.isTried := by
    funext id
    rw [isTried, isTried, same]
  have new : m'.isNew limbo = m.isNew limbo := by
    funext id
    have negated := congrArg (Option.map Bool.not) (same id)
    rw [Option.map_map, Option.map_map] at negated
    exact congrArg (fun value => Option.getD value false && decide (id ∉ limbo)) negated
  constructor
  · rw [nTried, nIdCount, tried]
    exact counted.nTried
  · rw [nNew, nIdCount, new]
    exact counted.nNew

/-- One entry changes its table, or whether it is in limbo. -/
theorem counted_change (limbo limbo' : Finset Nat) (spare spare' : Int) (m m' : CAddrMan) (id : Nat)
    (inside : id < m.nIdCount) (nIdCount : m'.nIdCount = m.nIdCount)
    (others : ∀ other, other ≠ id → m'.isTried other = m.isTried other ∧
      m'.isNew limbo' other = m.isNew limbo other)
    (nTried : m'.nTried + (m.isTried id).toNat = m.nTried + (m'.isTried id).toNat)
    (nNew : m'.nNew + (m.isNew limbo id).toNat + spare =
      m.nNew + (m'.isNew limbo' id).toNat + spare')
    (counted : Counted limbo spare m) : Counted limbo' spare' m' := by
  have member := Finset.mem_range.mpr inside
  have tried := Tally.card_filter_change (Finset.range m.nIdCount) m.isTried m'.isTried id member
    fun other _ different => (others other different).1
  have new := Tally.card_filter_change (Finset.range m.nIdCount) (m.isNew limbo) (m'.isNew limbo')
    id member fun other _ different => (others other different).2
  have was_tried := counted.nTried
  have was_new := counted.nNew
  constructor
  · rw [nIdCount]
    omega
  · rw [nIdCount]
    omega

theorem isNew_other (limbo limbo' : Finset Nat) (m m' : CAddrMan) (other : Nat)
    (same : (m'.mapInfo other).map CAddrInfo.fInTried = (m.mapInfo other).map CAddrInfo.fInTried)
    (exempt : other ∈ limbo' ↔ other ∈ limbo) :
    m'.isTried other = m.isTried other ∧ m'.isNew limbo' other = m.isNew limbo other := by
  have negated := congrArg (Option.map Bool.not) same
  rw [Option.map_map, Option.map_map] at negated
  refine ⟨by rw [isTried, isTried, same], ?_⟩
  have decided : decide (other ∉ limbo') = decide (other ∉ limbo) := by
    rw [decide_eq_decide, exempt]
  rw [isNew, isNew, decided]
  exact congrArg (fun value => Option.getD value false && decide (other ∉ limbo)) negated

theorem isTried_found (m : CAddrMan) (id : Nat) (info : CAddrInfo)
    (found : m.mapInfo id = some info) : m.isTried id = info.fInTried := by
  rw [isTried, found]
  rfl

theorem isNew_found (limbo : Finset Nat) (m : CAddrMan) (id : Nat) (info : CAddrInfo)
    (found : m.mapInfo id = some info) :
    m.isNew limbo id = (!info.fInTried && decide (id ∉ limbo)) := by
  rw [isNew, found]
  rfl

theorem counted_exempt (limbo : Finset Nat) (spare : Int) (m : CAddrMan) (id : Nat)
    (info : CAddrInfo) (found : m.mapInfo id = some info) (untried : info.fInTried = false)
    (inside : id < m.nIdCount) (outside : id ∉ limbo) (counted : Counted limbo spare m) :
    Counted (insert id limbo) (spare + 1) m := by
  refine counted_change limbo (insert id limbo) spare (spare + 1) m m id inside rfl
    (fun other different => isNew_other limbo _ m m other rfl ?_) rfl ?_ counted
  · rw [Finset.mem_insert, or_iff_right different]
  · rw [isNew_found limbo m id info found, isNew_found (insert id limbo) m id info found, untried]
    simp [outside]
    omega

theorem counted_settle (limbo : Finset Nat) (spare : Int) (m : CAddrMan) (id : Nat)
    (info : CAddrInfo) (found : m.mapInfo id = some info) (untried : info.fInTried = false)
    (inside : id < m.nIdCount) (exempt : id ∈ limbo) (counted : Counted limbo spare m) :
    Counted (limbo.erase id) (spare - 1) m := by
  refine counted_change limbo (limbo.erase id) spare (spare - 1) m m id inside rfl
    (fun other different => isNew_other limbo _ m m other rfl ?_) rfl ?_ counted
  · rw [Finset.mem_erase, and_iff_right different]
  · rw [isNew_found limbo m id info found, isNew_found (limbo.erase id) m id info found, untried]
    simp [exempt]

theorem counted_without (limbo : Finset Nat) (spare : Int) (m m' : CAddrMan) (id : Nat)
    (info : CAddrInfo) (found : m.mapInfo id = some info) (untried : info.fInTried = false)
    (inside : id < m.nIdCount) (exempt : id ∈ limbo) (without : Without id m m')
    (counted : Counted limbo spare m) : Counted (limbo.erase id) (spare - 1) m' := by
  refine counted_change limbo (limbo.erase id) spare (spare - 1) m m' id inside without.nIdCount
    (fun other different => isNew_other limbo _ m m' other ?_ ?_) ?_ ?_ counted
  · have same := congrArg (Option.map CAddrInfo.fInTried) (without.entries other different)
    rwa [Option.map_map, Option.map_map] at same
  · rw [Finset.mem_erase, and_iff_right different]
  · rw [isTried_found m id info found, untried, isTried, without.missing, without.nTried]
    rfl
  · rw [isNew_found limbo m id info found, untried, isNew, without.missing, without.nNew]
    simp [exempt]
    omega

theorem counted_leaveTried (limbo : Finset Nat) (spare : Int) (m : CAddrMan) (bucket pos id : Nat)
    (info : CAddrInfo) (found : m.mapInfo id = some info) (isTried : info.fInTried = true)
    (inside : id < m.nIdCount) (counted : Counted limbo spare m) :
    Counted (insert id limbo) spare (m.leaveTried bucket pos id) := by
  have found' : (m.leaveTried bucket pos id).mapInfo id = some (setTried false info) :=
    (setTried_found m id id false info found).trans (if_pos rfl)
  refine counted_change limbo (insert id limbo) spare spare m _ id inside rfl
    (fun other different => isNew_other limbo _ m _ other ?_ ?_) ?_ ?_ counted
  · exact congrArg (Option.map CAddrInfo.fInTried)
      ((setTried_found m id other false info found).trans (if_neg different))
  · rw [Finset.mem_insert, or_iff_right different]
  · rw [isTried_found m id info found, isTried, isTried_found _ id _ found']
    simp [leaveTried, setTried]
  · rw [isNew_found limbo m id info found, isTried, isNew_found _ _ id _ found']
    simp [leaveTried, modify]

theorem counted_enterTried (limbo : Finset Nat) (spare : Int) (m m' : CAddrMan)
    (bucket pos id : Nat) (info : CAddrInfo) (found : m.mapInfo id = some info)
    (untried : info.fInTried = false) (inside : id < m.nIdCount) (exempt : id ∈ limbo)
    (ran : m.enterTried bucket pos id = some m') (counted : Counted limbo spare m) :
    Counted (limbo.erase id) spare m' := by
  rw [enterTried] at ran
  split at ran
  · have result := (Option.some.inj ran).symm
    have entries : ∀ other, m'.mapInfo other =
        if other = id then some (setTried true info) else m.mapInfo other := by
      intro other
      rw [result]
      exact setTried_found m id other true info found
    have found' : m'.mapInfo id = some (setTried true info) := by rw [entries, if_pos rfl]
    refine counted_change limbo (limbo.erase id) spare spare m m' id inside ?_
      (fun other different => isNew_other limbo _ m _ other ?_ ?_) ?_ ?_ counted
    · rw [result]
      rfl
    · rw [entries, if_neg different]
    · rw [Finset.mem_erase, and_iff_right different]
    · rw [isTried_found m id info found, untried, isTried_found m' id _ found', result]
      simp [setTried]
    · rw [isNew_found limbo m id info found, untried, isNew_found _ m' id _ found', result]
      simp [setTried, modify, exempt]
  · cases ran

end CAddrMan

end RoiCoin
