import RoiCoin.ArithUint256
import RoiCoin.Lib.OrderedMap
import RoiCoin.Lib.Runs
import RoiCoin.Serialize

/-! The encrypted key store `CCryptoKeyStore` (`wallet/crypter.h`, `wallet/crypter.cpp`,
`keystore.cpp`, `key.h`).

The elliptic curve, the hashes and the cipher are parameters. An operation gives nothing where an
assertion fails. -/

namespace RoiCoin

/-- `WALLET_CRYPTO_KEY_SIZE` -/
def walletCryptoKeySize : Nat := 32

abbrev CKeyingMaterial := Bytes

/-- The serialized bytes of a public key. -/
abbrev CPubKey := Bytes

def CPubKey.isCompressed (pubkey : CPubKey) : Bool := pubkey.length == 33

structure CKey where
  fValid : Bool
  fCompressed : Bool
  vch : Vector UInt8 32
  deriving DecidableEq

/-- The bytes from `begin()` to `end()`. -/
def CKey.bytes (key : CKey) : Bytes := if key.fValid then key.vch.toList else []

structure KeyCrypto (CKeyID : Type) where
  /-- `eccrypto::Check` -/
  check : Vector UInt8 32 → Bool
  /-- `secp256k1_ec_pubkey_create` -/
  pubkeyCreate : Vector UInt8 32 → Bool → CPubKey
  /-- `secp256k1_ecdsa_sign` -/
  sign : Uint256 → Vector UInt8 32 → Bytes
  /-- `CPubKey::Verify` -/
  verify : CPubKey → Uint256 → Bytes → Bool
  hash160 : Bytes → CKeyID
  hash256 : Bytes → Uint256
  /-- AES-256 with a key, an initialisation vector and a text. -/
  encrypt : Bytes → Bytes → Bytes → Option Bytes
  decrypt : Bytes → Bytes → Bytes → Option Bytes

/-! ## Keys -/

namespace CKey

variable {CKeyID : Type} (crypto : KeyCrypto CKeyID)

def set (key : CKey) (data : Bytes) (fCompressedIn : Bool) : CKey :=
  if size : data.toArray.size = 32 then
    if crypto.check ⟨data.toArray, size⟩ then ⟨true, fCompressedIn, ⟨data.toArray, size⟩⟩
    else { key with fValid := false }
  else { key with fValid := false }

def getPubKey (key : CKey) : Option CPubKey :=
  if key.fValid then some (crypto.pubkeyCreate key.vch key.fCompressed) else none

def signHash (key : CKey) (hash : Uint256) : Bytes :=
  if key.fValid then crypto.sign hash key.vch else []

/-- `VerifyPubKey` with the random bytes it draws. -/
def verifyPubKey (key : CKey) (pubkey : CPubKey) (rnd : Bytes) : Bool :=
  if pubkey.isCompressed != key.fCompressed then false
  else
    let hash := crypto.hash256 ("ROIcoin key verification\n".toUTF8.data.toList ++ rnd)
    crypto.verify pubkey hash (key.signHash crypto hash)

end CKey

/-! ## The cipher -/

/-- A `CCrypter` whose key is set. -/
structure CCrypter where
  chKey : Bytes
  chIV : Bytes

namespace CCrypter

def setKey (chNewKey : CKeyingMaterial) (chNewIV : Bytes) : Option CCrypter :=
  if chNewKey.length ≠ walletCryptoKeySize ∨ chNewIV.length ≠ walletCryptoKeySize then none
  else some ⟨chNewKey, chNewIV⟩

end CCrypter

namespace KeyCrypto

variable {CKeyID : Type} (crypto : KeyCrypto CKeyID)

def getHash (pubkey : CPubKey) : Uint256 := crypto.hash256 pubkey

def getID (pubkey : CPubKey) : CKeyID := crypto.hash160 pubkey

def encryptSecret (vMasterKey : CKeyingMaterial) (vchPlaintext : Bytes) (nIV : Uint256) :
    Option Bytes := do
  let cKeyCrypter ← CCrypter.setKey vMasterKey (writeLE walletCryptoKeySize nIV.toNat)
  crypto.encrypt cKeyCrypter.chKey cKeyCrypter.chIV vchPlaintext

def decryptSecret (vMasterKey : CKeyingMaterial) (vchCiphertext : Bytes) (nIV : Uint256) :
    Option Bytes := do
  let cKeyCrypter ← CCrypter.setKey vMasterKey (writeLE walletCryptoKeySize nIV.toNat)
  crypto.decrypt cKeyCrypter.chKey cKeyCrypter.chIV vchCiphertext

/-- `DecryptKey` of a `CKey()` on the memory `vch`. -/
def decryptKey (vMasterKey : CKeyingMaterial) (vchCryptedSecret : Bytes) (vchPubKey : CPubKey)
    (vch : Vector UInt8 32) (rnd : Bytes) : Option CKey := do
  let vchSecret ← crypto.decryptSecret vMasterKey vchCryptedSecret (crypto.getHash vchPubKey)
  if vchSecret.length ≠ 32 then none
  else
    let key := CKey.set crypto ⟨false, false, vch⟩ vchSecret vchPubKey.isCompressed
    if key.verifyPubKey crypto vchPubKey rnd then some key else none

/-- A valid key with its own public key. -/
structure Own (key : CKey) (pubkey : CPubKey) : Prop where
  valid : key.fValid = true
  checked : crypto.check key.vch = true
  pubkey : key.getPubKey crypto = some pubkey

/-- An ideal cipher, and a curve whose signatures pass for the key that made them. -/
structure Ideal : Prop where
  inverts : ∀ vMasterKey nIV plaintext, vMasterKey.length = walletCryptoKeySize →
    ∃ ciphertext, crypto.encryptSecret vMasterKey plaintext nIV = some ciphertext ∧
      crypto.decryptSecret vMasterKey ciphertext nIV = some plaintext
  otherKey : ∀ vMasterKey other key pubkey ciphertext vch rnd, crypto.Own key pubkey →
    crypto.encryptSecret vMasterKey key.bytes (crypto.getHash pubkey) = some ciphertext →
    other ≠ vMasterKey → crypto.decryptKey other ciphertext pubkey vch rnd = none
  compressed : ∀ vch fCompressed, crypto.check vch = true →
    (crypto.pubkeyCreate vch fCompressed).isCompressed = fCompressed
  signs : ∀ vch fCompressed hash, crypto.check vch = true →
    crypto.verify (crypto.pubkeyCreate vch fCompressed) hash (crypto.sign hash vch) = true

end KeyCrypto

/-! ## The store -/

structure CCryptoKeyStore (CKeyID : Type) [LinearOrder CKeyID] where
  mapKeys : OrderedMap CKeyID CKey
  mapCryptedKeys : OrderedMap CKeyID (CPubKey × Bytes)
  vMasterKey : CKeyingMaterial
  fUseCrypto : Bool
  fDecryptionThoroughlyChecked : Bool

namespace CCryptoKeyStore

variable {CKeyID : Type} [LinearOrder CKeyID] (crypto : KeyCrypto CKeyID)

def empty : CCryptoKeyStore CKeyID := ⟨OrderedMap.empty, OrderedMap.empty, [], false, false⟩

def isCrypted (store : CCryptoKeyStore CKeyID) : Bool := store.fUseCrypto

def isLocked (store : CCryptoKeyStore CKeyID) : Bool :=
  if !store.isCrypted then false else store.vMasterKey.isEmpty

def setCrypted (store : CCryptoKeyStore CKeyID) : CCryptoKeyStore CKeyID × Bool :=
  if store.fUseCrypto then (store, true)
  else if !store.mapKeys.entries.isEmpty then (store, false)
  else ({ store with fUseCrypto := true }, true)

/-- `Lock` -/
def lockStore (store : CCryptoKeyStore CKeyID) : CCryptoKeyStore CKeyID × Bool :=
  let crypted := store.setCrypted
  if !crypted.2 then (crypted.1, false) else ({ crypted.1 with vMasterKey := [] }, true)

/-- What the memory of a new `CKey` has and which random bytes its check draws, for the keys of the
store. -/
abbrev Draws (CKeyID : Type) := CKeyID → Vector UInt8 32 × Bytes

/-- The loop of `Unlock` with `keyPass` so far: whether keys pass, and whether one fails. -/
def tryKeys (vMasterKeyIn : CKeyingMaterial) (draws : Draws CKeyID) (thoroughlyChecked : Bool)
    (keyPass : Bool) : List (CKeyID × CPubKey × Bytes) → Bool × Bool
  | [] => (keyPass, false)
  | (address, vchPubKey, vchCryptedSecret) :: rest =>
      match crypto.decryptKey vMasterKeyIn vchCryptedSecret vchPubKey (draws address).1
        (draws address).2 with
      | none => (keyPass, true)
      | some _ =>
          if thoroughlyChecked then (true, false)
          else tryKeys vMasterKeyIn draws thoroughlyChecked true rest

def unlock (store : CCryptoKeyStore CKeyID) (vMasterKeyIn : CKeyingMaterial) (draws : Draws CKeyID) :
    Option (CCryptoKeyStore CKeyID × Bool) :=
  let crypted := store.setCrypted
  if !crypted.2 then some (crypted.1, false)
  else
    let passed := tryKeys crypto vMasterKeyIn draws crypted.1.fDecryptionThoroughlyChecked false
      crypted.1.mapCryptedKeys.entries
    if passed.1 && passed.2 then none
    else if passed.2 || !passed.1 then some (crypted.1, false)
    else
      some ({ crypted.1 with vMasterKey := vMasterKeyIn, fDecryptionThoroughlyChecked := true }, true)

def addCryptedKey (store : CCryptoKeyStore CKeyID) (vchPubKey : CPubKey)
    (vchCryptedSecret : Bytes) : CCryptoKeyStore CKeyID × Bool :=
  let crypted := store.setCrypted
  if !crypted.2 then (crypted.1, false)
  else ({ crypted.1 with
    mapCryptedKeys :=
      crypted.1.mapCryptedKeys.insert (crypto.getID vchPubKey) (vchPubKey, vchCryptedSecret) }, true)

def addKeyPubKey (store : CCryptoKeyStore CKeyID) (key : CKey) (pubkey : CPubKey) :
    CCryptoKeyStore CKeyID × Bool :=
  if !store.isCrypted then
    ({ store with mapKeys := store.mapKeys.insert (crypto.getID pubkey) key }, true)
  else if store.isLocked then (store, false)
  else
    match crypto.encryptSecret store.vMasterKey key.bytes (crypto.getHash pubkey) with
    | none => (store, false)
    | some vchCryptedSecret => store.addCryptedKey crypto pubkey vchCryptedSecret

def getKey (store : CCryptoKeyStore CKeyID) (address : CKeyID) (draws : Draws CKeyID) :
    Option CKey :=
  if !store.isCrypted then store.mapKeys.find address
  else
    match store.mapCryptedKeys.find address with
    | none => none
    | some (vchPubKey, vchCryptedSecret) =>
        crypto.decryptKey store.vMasterKey vchCryptedSecret vchPubKey (draws address).1
          (draws address).2

/-- The loop of `EncryptKeys`. -/
def encryptEach (vMasterKeyIn : CKeyingMaterial) (store : CCryptoKeyStore CKeyID) :
    List (CKeyID × CKey) → Option (CCryptoKeyStore CKeyID × Bool)
  | [] => some (store, true)
  | (_, key) :: rest =>
      match key.getPubKey crypto with
      | none => none
      | some vchPubKey =>
          match crypto.encryptSecret vMasterKeyIn key.bytes (crypto.getHash vchPubKey) with
          | none => some (store, false)
          | some vchCryptedSecret =>
              let added := store.addCryptedKey crypto vchPubKey vchCryptedSecret
              if !added.2 then some (added.1, false) else encryptEach vMasterKeyIn added.1 rest

def encryptKeys (store : CCryptoKeyStore CKeyID) (vMasterKeyIn : CKeyingMaterial) :
    Option (CCryptoKeyStore CKeyID × Bool) :=
  if !store.mapCryptedKeys.entries.isEmpty || store.isCrypted then some (store, false)
  else
    match encryptEach crypto vMasterKeyIn { store with fUseCrypto := true } store.mapKeys.entries with
    | none => none
    | some encrypted =>
        if !encrypted.2 then some encrypted
        else some ({ encrypted.1 with mapKeys := OrderedMap.empty }, true)

/-! ## Histories -/

/-- The calls, with what their memory and their random bytes are. -/
inductive Call (CKeyID : Type) where
  | addKeyPubKey (key : CKey) (pubkey : CPubKey)
  | encryptKeys (vMasterKeyIn : CKeyingMaterial)
  | lockStore
  | unlock (vMasterKeyIn : CKeyingMaterial) (draws : Draws CKeyID)
  | getKey (address : CKeyID) (draws : Draws CKeyID)

/-- A key is added with its own public key. -/
def Call.Own : Call CKeyID → Prop
  | .addKeyPubKey key pubkey => crypto.Own key pubkey
  | _ => True

/-- The store with the keys that were added and the key of a successful `EncryptKeys`. -/
structure History (CKeyID : Type) [LinearOrder CKeyID] where
  store : CCryptoKeyStore CKeyID
  added : CKeyID → Option CKey
  masterKey : Option CKeyingMaterial

namespace History

def start : History CKeyID := ⟨empty, fun _ => none, none⟩

def call (history : History CKeyID) : Call CKeyID → Option (History CKeyID)
  | .addKeyPubKey key pubkey =>
      let result := history.store.addKeyPubKey crypto key pubkey
      some { history with
        store := result.1
        added :=
          if result.2 then Function.update history.added (crypto.getID pubkey) (some key)
          else history.added }
  | .encryptKeys vMasterKeyIn =>
      (history.store.encryptKeys crypto vMasterKeyIn).map fun result =>
        { history with
          store := result.1
          masterKey := if result.2 then some vMasterKeyIn else history.masterKey }
  | .lockStore => some { history with store := history.store.lockStore.1 }
  | .unlock vMasterKeyIn draws =>
      (history.store.unlock crypto vMasterKeyIn draws).map fun result =>
        { history with store := result.1 }
  | .getKey _ _ => some history

def calls (history : History CKeyID) (sequence : List (Call CKeyID)) : Option (History CKeyID) :=
  sequence.foldlM (fun history next => history.call crypto next) history

end History

end CCryptoKeyStore

end RoiCoin
