import RoiCoin.Lib.Totals
import RoiCoin.Wallet.CryptoKeyStore

/-! Every history of the encrypted key store is in one of three phases: keys in the clear, encryption
turned on without a key, or all keys under the one key of `EncryptKeys`. -/

namespace RoiCoin

namespace KeyCrypto

variable {CKeyID : Type} {crypto : KeyCrypto CKeyID}

theorem encryptSecret_size (vMasterKey plaintext ciphertext : Bytes) (nIV : Uint256)
    (encrypted : crypto.encryptSecret vMasterKey plaintext nIV = some ciphertext) :
    vMasterKey.length = walletCryptoKeySize := by
  by_contra size
  simp [encryptSecret, CCrypter.setKey, size] at encrypted

variable (crypto) in
theorem encryptSecret_none (vMasterKey plaintext : Bytes) (nIV : Uint256)
    (size : vMasterKey.length ≠ walletCryptoKeySize) :
    crypto.encryptSecret vMasterKey plaintext nIV = none := by
  simp [encryptSecret, CCrypter.setKey, size]

theorem decryptKey_empty (ciphertext : Bytes) (pubkey : CPubKey) (vch : Vector UInt8 32)
    (rnd : Bytes) : crypto.decryptKey [] ciphertext pubkey vch rnd = none := by
  simp [decryptKey, decryptSecret, CCrypter.setKey, walletCryptoKeySize]

theorem own_pubkey {key : CKey} {pubkey : CPubKey} (own : crypto.Own key pubkey) :
    pubkey = crypto.pubkeyCreate key.vch key.fCompressed := by
  have made := own.pubkey
  rw [CKey.getPubKey, if_pos own.valid] at made
  exact (Option.some.inj made).symm

theorem set_own {key : CKey} {pubkey : CPubKey} (ideal : crypto.Ideal) (own : crypto.Own key pubkey)
    (vch : Vector UInt8 32) :
    CKey.set crypto ⟨false, false, vch⟩ key.bytes pubkey.isCompressed = key := by
  have compressed : pubkey.isCompressed = key.fCompressed := by
    rw [own_pubkey own]
    exact ideal.compressed key.vch key.fCompressed own.checked
  have size : key.vch.toList.toArray.size = 32 := by simp
  have whole : (⟨key.vch.toList.toArray, size⟩ : Vector UInt8 32) = key.vch := by
    simp [Vector.toList]
  rw [CKey.set, CKey.bytes, if_pos own.valid, dif_pos size, whole, if_pos own.checked, compressed,
    ← own.valid]

theorem verifyPubKey_own {key : CKey} {pubkey : CPubKey} (ideal : crypto.Ideal)
    (own : crypto.Own key pubkey) (rnd : Bytes) : key.verifyPubKey crypto pubkey rnd = true := by
  have compressed := ideal.compressed key.vch key.fCompressed own.checked
  have signs := ideal.signs key.vch key.fCompressed
  simp [CKey.verifyPubKey, CKey.signHash, own_pubkey own, compressed, own.valid, signs, own.checked]

/-- The right key gives back the key that was encrypted. -/
theorem decryptKey_own {key : CKey} {pubkey : CPubKey} {vMasterKey ciphertext : Bytes}
    (ideal : crypto.Ideal) (own : crypto.Own key pubkey)
    (encrypted : crypto.encryptSecret vMasterKey key.bytes (crypto.getHash pubkey) = some ciphertext)
    (vch : Vector UInt8 32) (rnd : Bytes) :
    crypto.decryptKey vMasterKey ciphertext pubkey vch rnd = some key := by
  have size := encryptSecret_size vMasterKey key.bytes ciphertext _ encrypted
  obtain ⟨same, again, decrypted⟩ := ideal.inverts vMasterKey (crypto.getHash pubkey) key.bytes size
  have secret : key.bytes.length = 32 := by simp [CKey.bytes, own.valid]
  rw [encrypted, Option.some.injEq] at again
  rw [← again] at decrypted
  simp [decryptKey, decrypted, secret, set_own ideal own vch, verifyPubKey_own ideal own rnd]

end KeyCrypto

namespace CCryptoKeyStore

variable {CKeyID : Type} {crypto : KeyCrypto CKeyID}

variable (crypto) in
theorem tryKeys_pass (vMasterKeyIn : CKeyingMaterial) (draws : Draws CKeyID)
    (thoroughlyChecked keyPass : Bool) (entries : List (CKeyID × CPubKey × Bytes))
    (pass : ∀ entry ∈ entries, ∃ key, crypto.decryptKey vMasterKeyIn entry.2.2 entry.2.1
      (draws entry.1).1 (draws entry.1).2 = some key) :
    tryKeys crypto vMasterKeyIn draws thoroughlyChecked keyPass entries =
      (keyPass || !entries.isEmpty, false) := by
  induction entries generalizing keyPass with
  | nil => simp [tryKeys]
  | cons entry rest ih =>
      obtain ⟨key, passed⟩ := pass entry List.mem_cons_self
      have later := ih true fun other member => pass other (List.mem_cons_of_mem entry member)
      cases thoroughlyChecked <;> simp [tryKeys, passed, later]

variable (crypto) in
theorem tryKeys_fail (vMasterKeyIn : CKeyingMaterial) (draws : Draws CKeyID)
    (thoroughlyChecked : Bool) (entries : List (CKeyID × CPubKey × Bytes))
    (fail : ∀ entry ∈ entries, crypto.decryptKey vMasterKeyIn entry.2.2 entry.2.1
      (draws entry.1).1 (draws entry.1).2 = none) :
    tryKeys crypto vMasterKeyIn draws thoroughlyChecked false entries =
      (false, !entries.isEmpty) := by
  cases entries with
  | nil => rfl
  | cons entry rest =>
      have failed := fail entry List.mem_cons_self
      simp [tryKeys, failed]

/-! ## The phases -/

variable [LinearOrder CKeyID]

namespace History

/-- No key, or a key with what the store holds of it. -/
def HeldUnder (crypto : KeyCrypto CKeyID) (vMasterKey : CKeyingMaterial) (key : Option CKey)
    (entry : Option (CPubKey × Bytes)) : Prop :=
  (key = none ∧ entry = none) ∨ ∃ held pubkey ciphertext, key = some held ∧
    entry = some (pubkey, ciphertext) ∧ crypto.Own held pubkey ∧
    crypto.encryptSecret vMasterKey held.bytes (crypto.getHash pubkey) = some ciphertext

structure Plain (crypto : KeyCrypto CKeyID) (history : History CKeyID) : Prop where
  clear : history.store.fUseCrypto = false
  noKey : history.masterKey = none
  noEntry : history.store.mapCryptedKeys = OrderedMap.empty
  cleared : history.store.vMasterKey = []
  held : ∀ address, history.store.mapKeys.find address = history.added address
  own : ∀ entry ∈ history.store.mapKeys.entries, ∃ pubkey, crypto.Own entry.2 pubkey ∧
    crypto.getID pubkey = entry.1

/-- Encryption is on, and nothing was encrypted. -/
structure Shut (history : History CKeyID) : Prop where
  crypted : history.store.fUseCrypto = true
  noKey : history.masterKey = none
  noEntry : history.store.mapCryptedKeys = OrderedMap.empty
  cleared : history.store.vMasterKey = []

structure Encrypted (crypto : KeyCrypto CKeyID) (history : History CKeyID)
    (vMasterKey : CKeyingMaterial) : Prop where
  crypted : history.store.fUseCrypto = true
  key : history.masterKey = some vMasterKey
  noPlain : history.store.mapKeys = OrderedMap.empty
  master : history.store.vMasterKey = [] ∨ history.store.vMasterKey = vMasterKey
  held : ∀ address, HeldUnder crypto vMasterKey (history.added address)
    (history.store.mapCryptedKeys.find address)

inductive Phase (crypto : KeyCrypto CKeyID) (history : History CKeyID) : Prop where
  | plain (phase : history.Plain crypto)
  | shut (phase : history.Shut)
  | encrypted (vMasterKey : CKeyingMaterial) (phase : history.Encrypted crypto vMasterKey)

theorem plain_start : (start : History CKeyID).Plain crypto where
  clear := rfl
  noKey := rfl
  noEntry := rfl
  cleared := rfl
  held _ := rfl
  own _ member := by cases member

/-- An entry has the key that was added. -/
theorem held_entry (vMasterKey : CKeyingMaterial) (history : History CKeyID)
    (phase : history.Encrypted crypto vMasterKey) (entry : CKeyID × CPubKey × Bytes)
    (member : entry ∈ history.store.mapCryptedKeys.entries) :
    ∃ key, history.added entry.1 = some key ∧ crypto.Own key entry.2.1 ∧
      crypto.encryptSecret vMasterKey key.bytes (crypto.getHash entry.2.1) = some entry.2.2 := by
  have found := (OrderedMap.find_mem entry.1 entry.2 _).mpr member
  rcases phase.held entry.1 with nothing | ⟨key, pubkey, ciphertext, added, there, own, encrypted⟩
  · rw [found] at nothing
    cases nothing.2
  · rw [found, Option.some.injEq] at there
    exact ⟨key, added, by rwa [there], by rwa [there]⟩

/-- There are entries exactly if keys were added. -/
theorem entries_added (vMasterKey : CKeyingMaterial) (history : History CKeyID)
    (phase : history.Encrypted crypto vMasterKey) :
    history.store.mapCryptedKeys.entries.isEmpty = false ↔
      ∃ address, (history.added address).isSome := by
  constructor
  · intro some
    obtain ⟨entry, member⟩ := List.exists_mem_of_ne_nil _ (List.isEmpty_eq_false_iff.mp some)
    obtain ⟨key, added, -⟩ := held_entry vMasterKey history phase entry member
    exact ⟨entry.1, by rw [added]; rfl⟩
  · intro some
    obtain ⟨address, added⟩ := some
    rw [List.isEmpty_eq_false_iff]
    intro none
    rcases phase.held address with nothing | ⟨key, pubkey, ciphertext, -, there, -⟩
    · rw [nothing.1] at added
      cases added
    · have member := (OrderedMap.find_mem address _ _).mp there
      rw [none] at member
      cases member

/-! ## One call -/

theorem lockStore_phase (history : History CKeyID) (phase : history.Phase crypto) :
    { history with store := history.store.lockStore.1 }.Phase crypto := by
  cases phase with
  | plain phase =>
      cases some : history.store.mapKeys.entries.isEmpty with
      | false =>
          have same : history.store.lockStore.1 = history.store := by
            simp [lockStore, setCrypted, phase.clear, some]
          rw [same]
          exact .plain phase
      | true =>
          apply Phase.shut
          constructor <;> simp [lockStore, setCrypted, phase.clear, some, phase.noKey, phase.noEntry]
  | shut phase =>
      apply Phase.shut
      constructor <;> simp [lockStore, setCrypted, phase.crypted, phase.noKey, phase.noEntry]
  | encrypted vMasterKey phase =>
      apply Phase.encrypted vMasterKey
      have held := phase.held
      constructor <;>
        simp [lockStore, setCrypted, phase.crypted, phase.key, phase.noPlain, held]

/-- `Unlock` of an encrypted store: it takes the right key, if there is a key to try it on. -/
theorem unlock_encrypted (ideal : crypto.Ideal) (vMasterKey : CKeyingMaterial)
    (history : History CKeyID) (phase : history.Encrypted crypto vMasterKey)
    (vMasterKeyIn : CKeyingMaterial) (draws : Draws CKeyID) :
    history.store.unlock crypto vMasterKeyIn draws =
      if vMasterKeyIn = vMasterKey ∧ history.store.mapCryptedKeys.entries.isEmpty = false then
        some ({ history.store with
          vMasterKey := vMasterKeyIn
          fDecryptionThoroughlyChecked := true }, true)
      else some (history.store, false) := by
  by_cases right : vMasterKeyIn = vMasterKey
  · subst right
    have tried := tryKeys_pass crypto vMasterKeyIn draws
      history.store.fDecryptionThoroughlyChecked false history.store.mapCryptedKeys.entries
      (by
        intro entry member
        obtain ⟨key, -, own, encrypted⟩ := held_entry vMasterKeyIn history phase entry member
        exact ⟨key, KeyCrypto.decryptKey_own ideal own encrypted _ _⟩)
    cases some : history.store.mapCryptedKeys.entries.isEmpty <;>
      simp [unlock, setCrypted, phase.crypted, tried, some]
  · have tried := tryKeys_fail crypto vMasterKeyIn draws
      history.store.fDecryptionThoroughlyChecked history.store.mapCryptedKeys.entries
      (by
        intro entry member
        obtain ⟨key, -, own, encrypted⟩ := held_entry vMasterKey history phase entry member
        exact ideal.otherKey vMasterKey vMasterKeyIn key _ _ _ _ own encrypted right)
    cases some : history.store.mapCryptedKeys.entries.isEmpty <;>
      simp [unlock, setCrypted, phase.crypted, tried, right]

variable (crypto) in
/-- `Unlock` where nothing was encrypted. -/
theorem unlock_nothing (store : CCryptoKeyStore CKeyID)
    (noEntry : store.mapCryptedKeys = OrderedMap.empty) (vMasterKeyIn : CKeyingMaterial)
    (draws : Draws CKeyID) :
    store.unlock crypto vMasterKeyIn draws = some (store.setCrypted.1, false) := by
  have kept : store.setCrypted.1.mapCryptedKeys = OrderedMap.empty := by
    rw [setCrypted]
    split
    · exact noEntry
    split
    · exact noEntry
    · exact noEntry
  cases crypted : store.setCrypted.2 <;>
    simp [unlock, crypted, kept, OrderedMap.empty, tryKeys]

theorem setCrypted_phase (history : History CKeyID) (phase : history.Phase crypto) :
    { history with store := history.store.setCrypted.1 }.Phase crypto := by
  cases phase with
  | plain phase =>
      cases some : history.store.mapKeys.entries.isEmpty with
      | false =>
          have same : history.store.setCrypted.1 = history.store := by
            simp [setCrypted, phase.clear, some]
          rw [same]
          exact .plain phase
      | true =>
          apply Phase.shut
          constructor <;> simp [setCrypted, phase.clear, some, phase.noKey, phase.noEntry, phase.cleared]
  | shut phase =>
      have same : history.store.setCrypted.1 = history.store := by simp [setCrypted, phase.crypted]
      rw [same]
      exact .shut phase
  | encrypted vMasterKey phase =>
      have same : history.store.setCrypted.1 = history.store := by simp [setCrypted, phase.crypted]
      rw [same]
      exact .encrypted vMasterKey phase

theorem held_update (vMasterKey : CKeyingMaterial) (added : CKeyID → Option CKey)
    (entries : OrderedMap CKeyID (CPubKey × Bytes)) (key : CKey) (pubkey : CPubKey)
    (ciphertext : Bytes) (own : crypto.Own key pubkey)
    (encrypted : crypto.encryptSecret vMasterKey key.bytes (crypto.getHash pubkey) = some ciphertext)
    (held : ∀ address, HeldUnder crypto vMasterKey (added address) (entries.find address))
    (address : CKeyID) :
    HeldUnder crypto vMasterKey (Function.update added (crypto.getID pubkey) (some key) address)
      ((entries.insert (crypto.getID pubkey) (pubkey, ciphertext)).find address) := by
  rw [OrderedMap.find_insert]
  by_cases same : address = crypto.getID pubkey
  · rw [same, Function.update_self, if_pos rfl]
    exact .inr ⟨key, pubkey, ciphertext, rfl, rfl, own, encrypted⟩
  · rw [Function.update_of_ne same, if_neg (Ne.symm same)]
    exact held address

theorem addKeyPubKey_phase (history : History CKeyID) (key : CKey) (pubkey : CPubKey)
    (own : crypto.Own key pubkey) (phase : history.Phase crypto) :
    ∃ next, history.call crypto (.addKeyPubKey key pubkey) = some next ∧ next.Phase crypto := by
  refine ⟨_, rfl, ?_⟩
  cases phase with
  | plain phase =>
      apply Phase.plain
      have noEntry := phase.noEntry
      constructor
      case held =>
        intro address
        by_cases same : address = crypto.getID pubkey
        · simp [addKeyPubKey, isCrypted, phase.clear, OrderedMap.find_insert, same]
        · simp [addKeyPubKey, isCrypted, phase.clear, OrderedMap.find_insert, same, Ne.symm same,
            phase.held]
      case own =>
        intro entry member
        simp only [addKeyPubKey, isCrypted, phase.clear] at member
        rcases OrderedMap.mem_insert _ _ _ _ member with new | old
        · rw [new]
          exact ⟨pubkey, own, rfl⟩
        · exact phase.own entry old
      all_goals simp [addKeyPubKey, isCrypted, phase.clear, phase.noKey, phase.noEntry, phase.cleared]
  | shut phase =>
      have refused : history.store.addKeyPubKey crypto key pubkey = (history.store, false) := by
        simp [addKeyPubKey, isCrypted, isLocked, phase.crypted, phase.cleared]
      rw [refused]
      exact .shut phase
  | encrypted vMasterKey phase =>
      rcases phase.master with shut | opened
      · have refused : history.store.addKeyPubKey crypto key pubkey = (history.store, false) := by
          simp [addKeyPubKey, isCrypted, isLocked, phase.crypted, shut]
        rw [refused]
        exact .encrypted vMasterKey phase
      cases empty : vMasterKey.isEmpty with
      | true =>
          have refused : history.store.addKeyPubKey crypto key pubkey = (history.store, false) := by
            simp [addKeyPubKey, isCrypted, isLocked, phase.crypted, opened, empty]
          rw [refused]
          exact .encrypted vMasterKey phase
      | false =>
          cases encrypted : crypto.encryptSecret vMasterKey key.bytes (crypto.getHash pubkey) with
          | none =>
              have refused : history.store.addKeyPubKey crypto key pubkey = (history.store, false) := by
                simp [addKeyPubKey, isCrypted, isLocked, phase.crypted, opened, empty, encrypted]
              rw [refused]
              exact .encrypted vMasterKey phase
          | some ciphertext =>
              have stored : history.store.addKeyPubKey crypto key pubkey = ({ history.store with
                  mapCryptedKeys := history.store.mapCryptedKeys.insert (crypto.getID pubkey)
                    (pubkey, ciphertext) }, true) := by
                simp [addKeyPubKey, addCryptedKey, setCrypted, isCrypted, isLocked, phase.crypted,
                  opened, empty, encrypted]
              rw [stored]
              exact .encrypted vMasterKey {
                crypted := phase.crypted
                key := phase.key
                noPlain := phase.noPlain
                master := phase.master
                held := held_update vMasterKey history.added history.store.mapCryptedKeys key pubkey
                  ciphertext own encrypted phase.held }

/-- The loop over the keys, each with its own address: all are encrypted. -/
theorem encryptEach_held (ideal : crypto.Ideal) (vMasterKeyIn : CKeyingMaterial)
    (size : vMasterKeyIn.length = walletCryptoKeySize) (entries : List (CKeyID × CKey))
    (ordered : entries.Pairwise fun a b => a.1 < b.1)
    (own : ∀ entry ∈ entries, ∃ pubkey, crypto.Own entry.2 pubkey ∧ crypto.getID pubkey = entry.1)
    (store : CCryptoKeyStore CKeyID) (crypted : store.fUseCrypto = true)
    (added : CKeyID → Option CKey)
    (held : ∀ address, HeldUnder crypto vMasterKeyIn (added address)
      (store.mapCryptedKeys.find address)) :
    ∃ mapCryptedKeys, encryptEach crypto vMasterKeyIn store entries =
        some ({ store with mapCryptedKeys }, true) ∧
      ∀ address, HeldUnder crypto vMasterKeyIn
        ((OrderedMap.findEntry address entries).or (added address)) (mapCryptedKeys.find address) := by
  induction entries generalizing store added with
  | nil => exact ⟨store.mapCryptedKeys, rfl, held⟩
  | cons entry rest ih =>
      have parts := List.pairwise_cons.mp ordered
      obtain ⟨pubkey, ownKey, address⟩ := own entry List.mem_cons_self
      obtain ⟨ciphertext, encrypted, -⟩ :=
        ideal.inverts vMasterKeyIn (crypto.getHash pubkey) entry.2.bytes size
      obtain ⟨mapCryptedKeys, done, all⟩ := ih parts.2
        (fun other member => own other (List.mem_cons_of_mem entry member))
        { store with
          mapCryptedKeys := store.mapCryptedKeys.insert (crypto.getID pubkey) (pubkey, ciphertext) }
        crypted (Function.update added (crypto.getID pubkey) (some entry.2))
        (held_update vMasterKeyIn added store.mapCryptedKeys entry.2 pubkey ciphertext ownKey
          encrypted held)
      refine ⟨mapCryptedKeys, ?_, ?_⟩
      · simpa [encryptEach, ownKey.pubkey, encrypted, addCryptedKey, setCrypted, crypted] using done
      · intro other
        have there := all other
        by_cases same : entry.1 = other
        · have once : OrderedMap.findEntry other rest = none := by
            cases found : OrderedMap.findEntry other rest with
            | none => rfl
            | some key =>
                have later := parts.1 _ ((OrderedMap.findEntry_mem other key rest parts.2).mp found)
                exact absurd same (ne_of_lt later)
          rw [OrderedMap.findEntry_cons, if_pos same]
          simpa [once, address, same] using there
        · rw [OrderedMap.findEntry_cons, if_neg same]
          rwa [Function.update_of_ne (by rw [address]; exact Ne.symm same)] at there

theorem encryptKeys_phase (ideal : crypto.Ideal) (history : History CKeyID)
    (vMasterKeyIn : CKeyingMaterial) (phase : history.Phase crypto) :
    ∃ next, history.call crypto (.encryptKeys vMasterKeyIn) = some next ∧ next.Phase crypto := by
  have refuses (crypted : history.store.fUseCrypto = true) :
      history.call crypto (.encryptKeys vMasterKeyIn) = some history := by
    simp [call, encryptKeys, isCrypted, crypted]
  cases phase with
  | shut phase => exact ⟨history, refuses phase.crypted, .shut phase⟩
  | encrypted vMasterKey phase => exact ⟨history, refuses phase.crypted, .encrypted vMasterKey phase⟩
  | plain phase =>
      have nothing : history.store.mapCryptedKeys.entries = [] := by
        rw [phase.noEntry]
        rfl
      have start : ∀ address, HeldUnder crypto vMasterKeyIn none
          (history.store.mapCryptedKeys.find address) := by
        intro address
        rw [phase.noEntry]
        exact .inl ⟨rfl, OrderedMap.find_empty address⟩
      by_cases size : vMasterKeyIn.length = walletCryptoKeySize
      · obtain ⟨mapCryptedKeys, done, held⟩ := encryptEach_held ideal vMasterKeyIn size
          history.store.mapKeys.entries history.store.mapKeys.ordered phase.own
          { history.store with fUseCrypto := true } rfl (fun _ => none) start
        dsimp only at done
        have called : history.call crypto (.encryptKeys vMasterKeyIn) = some { history with
            store := { history.store with
              mapKeys := OrderedMap.empty
              mapCryptedKeys := mapCryptedKeys
              fUseCrypto := true }
            masterKey := some vMasterKeyIn } := by
          simp [call, encryptKeys, isCrypted, phase.clear, nothing, done]
        refine ⟨_, called, .encrypted vMasterKeyIn ?_⟩
        constructor
        case held =>
          intro address
          have there := held address
          have same := phase.held address
          rw [OrderedMap.find] at same
          rwa [same, Option.or_none] at there
        all_goals simp [phase.cleared]
      · cases keys : history.store.mapKeys.entries with
        | nil =>
            have called : history.call crypto (.encryptKeys vMasterKeyIn) = some { history with
                store := { history.store with mapKeys := OrderedMap.empty, fUseCrypto := true }
                masterKey := some vMasterKeyIn } := by
              simp [call, encryptKeys, isCrypted, phase.clear, nothing, keys, encryptEach]
            refine ⟨_, called, .encrypted vMasterKeyIn ?_⟩
            constructor
            case held =>
              intro address
              have same := phase.held address
              rw [OrderedMap.find, keys] at same
              have unheld := start address
              have nobody : none = history.added address := same
              rwa [nobody] at unheld
            all_goals simp [phase.cleared]
        | cons entry rest =>
            obtain ⟨pubkey, own, -⟩ := phase.own entry (keys ▸ List.mem_cons_self)
            have fails := KeyCrypto.encryptSecret_none crypto vMasterKeyIn entry.2.bytes
              (crypto.getHash pubkey) size
            have called : history.call crypto (.encryptKeys vMasterKeyIn) = some { history with
                store := { history.store with fUseCrypto := true } } := by
              simp [call, encryptKeys, isCrypted, phase.clear, nothing, keys, encryptEach,
                own.pubkey, fails]
            refine ⟨_, called, .shut ?_⟩
            constructor <;> simp [phase.noKey, phase.noEntry, phase.cleared]

theorem unlock_phase (ideal : crypto.Ideal) (history : History CKeyID)
    (vMasterKeyIn : CKeyingMaterial) (draws : Draws CKeyID) (phase : history.Phase crypto) :
    ∃ next, history.call crypto (.unlock vMasterKeyIn draws) = some next ∧ next.Phase crypto := by
  have unopened (noEntry : history.store.mapCryptedKeys = OrderedMap.empty) :
      ∃ next, history.call crypto (.unlock vMasterKeyIn draws) = some next ∧
        next.Phase crypto := by
    have called := unlock_nothing crypto history.store noEntry vMasterKeyIn draws
    exact ⟨_, by rw [call, called]; rfl, setCrypted_phase history phase⟩
  cases phase with
  | plain phase => exact unopened phase.noEntry
  | shut phase => exact unopened phase.noEntry
  | encrypted vMasterKey phase =>
      have called := unlock_encrypted ideal vMasterKey history phase vMasterKeyIn draws
      by_cases opens :
          vMasterKeyIn = vMasterKey ∧ history.store.mapCryptedKeys.entries.isEmpty = false
      · rw [if_pos opens] at called
        refine ⟨_, by rw [call, called]; rfl, .encrypted vMasterKey ?_⟩
        exact {
          crypted := phase.crypted
          key := phase.key
          noPlain := phase.noPlain
          master := .inr opens.1
          held := phase.held }
      · rw [if_neg opens] at called
        exact ⟨history, by rw [call, called]; rfl, .encrypted vMasterKey phase⟩

/-! ## All calls -/

theorem call_phase (ideal : crypto.Ideal) (history : History CKeyID) (next : Call CKeyID)
    (own : next.Own crypto) (phase : history.Phase crypto) :
    ∃ after, history.call crypto next = some after ∧ after.Phase crypto := by
  cases next with
  | addKeyPubKey key pubkey => exact addKeyPubKey_phase history key pubkey own phase
  | encryptKeys vMasterKeyIn => exact encryptKeys_phase ideal history vMasterKeyIn phase
  | lockStore => exact ⟨_, rfl, lockStore_phase history phase⟩
  | unlock vMasterKeyIn draws => exact unlock_phase ideal history vMasterKeyIn draws phase
  | getKey address draws => exact ⟨history, rfl, phase⟩

theorem calls_phase (ideal : crypto.Ideal) (history : History CKeyID)
    (sequence : List (Call CKeyID)) (own : ∀ next ∈ sequence, next.Own crypto)
    (phase : history.Phase crypto) :
    ∃ after, history.calls crypto sequence = some after ∧ after.Phase crypto := by
  induction sequence generalizing history with
  | nil => exact ⟨history, rfl, phase⟩
  | cons next rest ih =>
      obtain ⟨middle, called, kept⟩ :=
        call_phase ideal history next (own next List.mem_cons_self) phase
      obtain ⟨after, ran, last⟩ :=
        ih middle (fun other member => own other (List.mem_cons_of_mem next member)) kept
      refine ⟨after, ?_, last⟩
      rw [calls, List.foldlM_cons, called]
      exact ran

/-! ## What a phase promises -/

theorem no_plaintext (history : History CKeyID) (phase : history.Phase crypto)
    (encrypted : history.masterKey.isSome) : history.store.mapKeys = OrderedMap.empty := by
  cases phase with
  | plain phase => simp [phase.noKey] at encrypted
  | shut phase => simp [phase.noKey] at encrypted
  | encrypted vMasterKey phase => exact phase.noPlain

theorem one_master_key (history : History CKeyID) (phase : history.Phase crypto)
    (entry : CKeyID × CPubKey × Bytes)
    (member : entry ∈ history.store.mapCryptedKeys.entries) :
    ∃ vMasterKey key, history.masterKey = some vMasterKey ∧ crypto.Own key entry.2.1 ∧
      crypto.encryptSecret vMasterKey key.bytes (crypto.getHash entry.2.1) = some entry.2.2 := by
  cases phase with
  | plain phase =>
      rw [phase.noEntry] at member
      cases member
  | shut phase =>
      rw [phase.noEntry] at member
      cases member
  | encrypted vMasterKey phase =>
      obtain ⟨key, -, own, encrypted⟩ := held_entry vMasterKey history phase entry member
      exact ⟨vMasterKey, key, phase.key, own, encrypted⟩

theorem unlock_iff (ideal : crypto.Ideal) (history : History CKeyID) (phase : history.Phase crypto)
    (vMasterKeyIn : CKeyingMaterial) (draws : Draws CKeyID) :
    ∃ result, history.store.unlock crypto vMasterKeyIn draws = some result ∧
      (result.2 = true ↔ history.masterKey = some vMasterKeyIn ∧
        ∃ address, (history.added address).isSome) := by
  have unopened (noEntry : history.store.mapCryptedKeys = OrderedMap.empty)
      (noKey : history.masterKey = none) :
      ∃ result, history.store.unlock crypto vMasterKeyIn draws = some result ∧
        (result.2 = true ↔ history.masterKey = some vMasterKeyIn ∧
          ∃ address, (history.added address).isSome) :=
    ⟨_, unlock_nothing crypto history.store noEntry vMasterKeyIn draws, by simp [noKey]⟩
  cases phase with
  | plain phase => exact unopened phase.noEntry phase.noKey
  | shut phase => exact unopened phase.noEntry phase.noKey
  | encrypted vMasterKey phase =>
      have called := unlock_encrypted ideal vMasterKey history phase vMasterKeyIn draws
      rw [← entries_added vMasterKey history phase, phase.key]
      by_cases opens :
          vMasterKeyIn = vMasterKey ∧ history.store.mapCryptedKeys.entries.isEmpty = false
      · rw [if_pos opens] at called
        exact ⟨_, called, by simp [opens.1, opens.2]⟩
      · rw [if_neg opens] at called
        refine ⟨_, called, ?_⟩
        simp only [Option.some.injEq, Bool.false_eq_true, false_iff]
        intro both
        exact opens ⟨both.1.symm, both.2⟩

theorem getKey_locked (store : CCryptoKeyStore CKeyID) (locked : store.isLocked = true)
    (address : CKeyID) (draws : Draws CKeyID) : store.getKey crypto address draws = none := by
  have crypted : store.isCrypted = true := by
    by_contra clear
    simp [isLocked, clear] at locked
  have cleared : store.vMasterKey = [] := by
    simpa [isLocked, crypted] using locked
  rw [getKey, crypted]
  cases found : store.mapCryptedKeys.find address with
  | none => simp
  | some entry => simp [cleared, KeyCrypto.decryptKey_empty]

theorem getKey_unlocked (ideal : crypto.Ideal) (history : History CKeyID)
    (phase : history.Phase crypto) (unlocked : history.store.isLocked = false) (address : CKeyID)
    (draws : Draws CKeyID) :
    history.store.getKey crypto address draws = history.added address := by
  cases phase with
  | plain phase => simp [getKey, isCrypted, phase.clear, phase.held]
  | shut phase => simp [isLocked, isCrypted, phase.crypted, phase.cleared] at unlocked
  | encrypted vMasterKey phase =>
      have opened : history.store.vMasterKey = vMasterKey := by
        rcases phase.master with cleared | opened
        · simp [isLocked, isCrypted, phase.crypted, cleared] at unlocked
        · exact opened
      rcases phase.held address with nothing | ⟨key, pubkey, ciphertext, added, there, own, encrypted⟩
      · simp [getKey, isCrypted, phase.crypted, nothing.1, nothing.2]
      · have decrypted := KeyCrypto.decryptKey_own ideal own encrypted (draws address).1
          (draws address).2
        simp [getKey, isCrypted, phase.crypted, there, opened, added, decrypted]

end History

/-- After all calls no assertion has failed. Once `EncryptKeys` succeeded there is no key in the clear;
every encrypted key is under its key; `Unlock` takes that key and no other, once there is something to
try it on; and `GetKey` gives nothing from a locked store, and else the key that was added. -/
theorem key_store_disciplined (ideal : crypto.Ideal) (sequence : List (Call CKeyID))
    (own : ∀ next ∈ sequence, next.Own crypto) :
    ∃ history, History.start.calls crypto sequence = some history ∧
      (history.masterKey.isSome → history.store.mapKeys = OrderedMap.empty) ∧
      (∀ entry ∈ history.store.mapCryptedKeys.entries, ∃ vMasterKey key,
        history.masterKey = some vMasterKey ∧ crypto.Own key entry.2.1 ∧
          crypto.encryptSecret vMasterKey key.bytes (crypto.getHash entry.2.1) = some entry.2.2) ∧
      (∀ vMasterKeyIn draws, ∃ result,
        history.store.unlock crypto vMasterKeyIn draws = some result ∧
          (result.2 = true ↔ history.masterKey = some vMasterKeyIn ∧
            ∃ address, (history.added address).isSome)) ∧
      (history.store.isLocked = true →
        ∀ address draws, history.store.getKey crypto address draws = none) ∧
      (history.store.isLocked = false →
        ∀ address draws, history.store.getKey crypto address draws = history.added address) := by
  obtain ⟨history, ran, phase⟩ :=
    History.calls_phase ideal History.start sequence own (.plain History.plain_start)
  refine ⟨history, ran, History.no_plaintext history phase, History.one_master_key history phase,
    History.unlock_iff ideal history phase, ?_, ?_⟩
  · intro locked
    exact History.getKey_locked history.store locked
  · intro unlocked
    exact History.getKey_unlocked ideal history phase unlocked

/-- A cipher that writes its key before the text, and keys that are their own signatures. -/
def plainCrypto : KeyCrypto Nat where
  check _ := true
  pubkeyCreate vch fCompressed :=
    if fCompressed then 2 :: vch.toList else 4 :: (vch.toList ++ vch.toList)
  sign _ vch := vch.toList
  verify pubkey _ vchSig := (pubkey.drop 1).take 32 == vchSig
  hash160 := List.length
  hash256 _ := 0
  encrypt chKey _ vchPlaintext := some (chKey ++ vchPlaintext)
  decrypt chKey _ vchCiphertext :=
    if vchCiphertext.take 32 = chKey then some (vchCiphertext.drop 32) else none

theorem plainCrypto_encrypts (vMasterKey plaintext : Bytes) (nIV : Uint256) :
    plainCrypto.encryptSecret vMasterKey plaintext nIV =
      if vMasterKey.length = 32 then some (vMasterKey ++ plaintext) else none := by
  by_cases size : vMasterKey.length = 32 <;>
    simp [KeyCrypto.encryptSecret, CCrypter.setKey, walletCryptoKeySize, writeLE_length, size,
      plainCrypto]

theorem plainCrypto_decrypts (vMasterKey ciphertext : Bytes) (nIV : Uint256) :
    plainCrypto.decryptSecret vMasterKey ciphertext nIV =
      if vMasterKey.length = 32 ∧ ciphertext.take 32 = vMasterKey then some (ciphertext.drop 32)
      else none := by
  by_cases size : vMasterKey.length = 32 <;>
    simp [KeyCrypto.decryptSecret, CCrypter.setKey, walletCryptoKeySize, writeLE_length, size,
      plainCrypto]

theorem plainCrypto_ideal : plainCrypto.Ideal where
  inverts vMasterKey nIV plaintext size := by
    have size32 : vMasterKey.length = 32 := size
    refine ⟨vMasterKey ++ plaintext, ?_, ?_⟩
    · rw [plainCrypto_encrypts, if_pos size32]
    · rw [plainCrypto_decrypts, List.take_left' size32, List.drop_left' size32,
        if_pos ⟨size32, rfl⟩]
  otherKey vMasterKey other key pubkey ciphertext vch rnd _ encrypted different := by
    rw [plainCrypto_encrypts] at encrypted
    split at encrypted
    · rename_i size
      rw [Option.some.injEq] at encrypted
      have fails : ¬ (other.length = 32 ∧ ciphertext.take 32 = other) := by
        rw [← encrypted, List.take_left' size]
        exact fun both => different both.2.symm
      simp [KeyCrypto.decryptKey, plainCrypto_decrypts, fails]
    · cases encrypted
  compressed vch fCompressed _ := by
    cases fCompressed <;> simp [plainCrypto, CPubKey.isCompressed]
  signs vch fCompressed hash _ := by
    cases fCompressed <;> simp [plainCrypto]

/-- A key is added and encrypted, and the store opened and shut. -/
theorem key_store_disciplined_sample :
    ∃ history, History.start.calls plainCrypto [
        .addKeyPubKey ⟨true, true, Vector.replicate 32 1⟩ (2 :: List.replicate 32 1),
        .encryptKeys (List.replicate 32 7),
        .unlock (List.replicate 32 7) (fun _ => (Vector.replicate 32 0, [])),
        .lockStore] = some history ∧
      (history.masterKey.isSome → history.store.mapKeys = OrderedMap.empty) := by
  obtain ⟨history, ran, noPlain, -⟩ := key_store_disciplined plainCrypto_ideal [
    .addKeyPubKey ⟨true, true, Vector.replicate 32 1⟩ (2 :: List.replicate 32 1),
    .encryptKeys (List.replicate 32 7),
    .unlock (List.replicate 32 7) (fun _ => (Vector.replicate 32 0, [])),
    .lockStore] (by
      simp only [List.mem_cons, List.not_mem_nil, or_false, forall_eq_or_imp, forall_eq]
      exact ⟨⟨rfl, rfl, rfl⟩, trivial, trivial, trivial⟩)
  exact ⟨history, ran, noPlain⟩

end CCryptoKeyStore

end RoiCoin
