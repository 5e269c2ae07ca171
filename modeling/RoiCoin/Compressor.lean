import RoiCoin.Serialize
import RoiCoin.Transaction

/-! Compact serialization of amounts, scripts and outputs (`compressor.h`, `compressor.cpp`). -/

namespace RoiCoin

open Codec

/-! ## Amounts -/

/-- The loop that divides by ten at most `fuel` times; also returns how often it did. -/
def stripZeros : Nat → Nat → Nat × Nat
  | 0, n => (n, 0)
  | fuel + 1, n =>
      if n % 10 = 0 then ((stripZeros fuel (n / 10)).1, (stripZeros fuel (n / 10)).2 + 1)
      else (n, 0)

def compressAmount (n : Nat) : Nat :=
  if n = 0 then 0
  else
    let (n, e) := stripZeros 9 n
    if e < 9 then
      let d := n % 10
      (1 + (n / 10 * 9 + d - 1) * 10 + e) % 2 ^ 64
    else (1 + (n - 1) * 10 + 9) % 2 ^ 64

def timesTen : Nat → Nat → Nat
  | 0, n => n
  | e + 1, n => timesTen e (n * 10 % 2 ^ 64)

def decompressAmount (x : Nat) : Nat :=
  if x = 0 then 0
  else
    let x := x - 1
    let e := x % 10
    let x := x / 10
    if e < 9 then
      let d := x % 9 + 1
      let x := x / 9
      timesTen e ((x * 10 + d) % 2 ^ 64)
    else timesTen e ((x + 1) % 2 ^ 64)

theorem stripZeros_spec (fuel n : Nat) :
    n = (stripZeros fuel n).1 * 10 ^ (stripZeros fuel n).2 ∧ (stripZeros fuel n).2 ≤ fuel ∧
      ((stripZeros fuel n).2 < fuel → (stripZeros fuel n).1 % 10 ≠ 0) := by
  induction fuel generalizing n with
  | zero => simp [stripZeros]
  | succ fuel ih =>
      rw [stripZeros]
      split
      · rename_i divides
        obtain ⟨value, bounded, stopped⟩ := ih (n / 10)
        refine ⟨?_, Nat.succ_le_succ bounded, fun early => stopped (Nat.lt_of_succ_lt_succ early)⟩
        calc
          n = n / 10 * 10 := by omega
          _ = (stripZeros fuel (n / 10)).1 * 10 ^ ((stripZeros fuel (n / 10)).2 + 1) := by
            rw [Nat.pow_succ, ← Nat.mul_assoc, ← value]
      · rename_i last
        exact ⟨by simp, Nat.zero_le _, fun _ => last⟩

theorem timesTen_fits (e n : Nat) (fits : n * 10 ^ e < 2 ^ 64) : timesTen e n = n * 10 ^ e := by
  induction e generalizing n with
  | zero => simp [timesTen]
  | succ e ih =>
      have same : n * 10 ^ (e + 1) = n * 10 * 10 ^ e := by
        rw [Nat.pow_succ', Nat.mul_assoc]
      have positive : 0 < 10 ^ e := Nat.pow_pos (by decide)
      have small : n * 10 < 2 ^ 64 := by
        calc
          n * 10 ≤ n * 10 * 10 ^ e := Nat.le_mul_of_pos_right _ positive
          _ < 2 ^ 64 := same ▸ fits
      rw [timesTen, Nat.mod_eq_of_lt small, ih _ (same ▸ fits), same]

/-- What `CompressAmount` computes where no word wraps. -/
def amountCode (n : Nat) : Nat :=
  if n = 0 then 0
  else
    let (n, e) := stripZeros 9 n
    if e < 9 then 1 + (n / 10 * 9 + n % 10 - 1) * 10 + e else 1 + (n - 1) * 10 + 9

theorem compressAmount_eq (n : Nat) : compressAmount n = amountCode n % 2 ^ 64 := by
  rw [compressAmount, amountCode]
  split
  · rfl
  · dsimp only
    split <;> rfl

/-- The digits of an amount and the zeros after them, as `stripZeros` finds them. -/
theorem stripped_amount (n : Nat) (some : n ≠ 0) :
    ∃ m e, stripZeros 9 n = (m, e) ∧ n = m * 10 ^ e ∧ 0 < m ∧ m ≤ n ∧ e ≤ 9 ∧
      (e < 9 → m % 10 ≠ 0) := by
  obtain ⟨value, bounded, stopped⟩ := stripZeros_spec 9 n
  have positive : 0 < 10 ^ (stripZeros 9 n).2 := Nat.pow_pos (by decide)
  have nonzero : (stripZeros 9 n).1 ≠ 0 := by
    intro none
    rw [none, Nat.zero_mul] at value
    exact some value
  have small : (stripZeros 9 n).1 ≤ n := by
    conv => rhs; rw [value]
    exact Nat.le_mul_of_pos_right _ positive
  exact ⟨_, _, rfl, value, Nat.pos_of_ne_zero nonzero, small, bounded, stopped⟩

/-- The digits and the exponent are found again in the code. -/
theorem decompress_amountCode (n : Nat) (word : n < 2 ^ 64) :
    decompressAmount (amountCode n) = n := by
  by_cases zero : n = 0
  · rw [zero]
    rfl
  obtain ⟨m, e, stripped, value, positive, small, bounded, stopped⟩ := stripped_amount n zero
  have back : timesTen e m = n := by
    rw [timesTen_fits e m (by omega), ← value]
  rw [amountCode, if_neg zero, stripped]
  dsimp only
  split
  · rename_i early
    have digit := stopped early
    rw [decompressAmount, if_neg (by omega)]
    have exponent : (1 + (m / 10 * 9 + m % 10 - 1) * 10 + e - 1) % 10 = e := by omega
    have quotient : (1 + (m / 10 * 9 + m % 10 - 1) * 10 + e - 1) / 10 =
        m / 10 * 9 + m % 10 - 1 := by omega
    have value : (m / 10 * 9 + m % 10 - 1) / 9 * 10 + ((m / 10 * 9 + m % 10 - 1) % 9 + 1) = m := by
      omega
    simp only [exponent, quotient, if_pos early, value]
    rw [Nat.mod_eq_of_lt (by omega), back]
  · rename_i late
    have nine : e = 9 := by omega
    subst nine
    rw [decompressAmount, if_neg (by omega)]
    have exponent : (1 + (m - 1) * 10 + 9 - 1) % 10 = 9 := by omega
    have quotient : (1 + (m - 1) * 10 + 9 - 1) / 10 + 1 = m := by omega
    simp only [exponent, quotient, Nat.lt_irrefl, if_false]
    rw [Nat.mod_eq_of_lt (by omega), back]

theorem amountCode_lt (n : Nat) (money : n ≤ maxMoney.toNat) : amountCode n < 2 ^ 64 := by
  have most : maxMoney.toNat = 600000000000000000 := rfl
  by_cases zero : n = 0
  · rw [zero]
    decide
  obtain ⟨m, e, stripped, _, _, small, bounded, _⟩ := stripped_amount n zero
  rw [amountCode, if_neg zero, stripped]
  dsimp only
  split <;> omega

theorem decompress_compressAmount (n : Nat) (money : n ≤ maxMoney.toNat) :
    decompressAmount (compressAmount n) = n := by
  have most : maxMoney.toNat = 600000000000000000 := rfl
  rw [compressAmount_eq, Nat.mod_eq_of_lt (amountCode_lt n money)]
  exact decompress_amountCode n (by omega)

/-! ## Scripts -/

/-- The public-key operations of the curve library. -/
structure Curve where
  isFullyValid : Bytes → Bool
  /-- `CPubKey::Decompress`: the 65-byte form of a 33-byte key. -/
  decompress : Bytes → Option Bytes

/-- The 33-byte form of a 65-byte key. -/
def compressedKey (pubkey : Bytes) : Bytes :=
  (2 + (pubkey.getLast?.getD 0 &&& 1)) :: (pubkey.drop 1).take 32

/-- Valid uncompressed keys are found again from their compressed form. -/
def Curve.Decompresses (curve : Curve) : Prop :=
  ∀ pubkey : Bytes, pubkey.length = 65 → pubkey.head? = some 4 →
    curve.isFullyValid pubkey = true → curve.decompress (compressedKey pubkey) = some pubkey

def nSpecialScripts : Nat := 6

def keyIDScript (keyID : Bytes) : CScript :=
  [opDup, opHash160, 20] ++ keyID ++ [opEqualverify, opChecksig]

def scriptIDScript (scriptID : Bytes) : CScript := [opHash160, 20] ++ scriptID ++ [opEqual]

def pubKeyScript (pubkey : Bytes) : CScript :=
  UInt8.ofNat pubkey.length :: pubkey ++ [opChecksig]

/-- `IsToKeyID`: the fixed bytes are in their places. -/
def isToKeyID (script : CScript) : Option Bytes :=
  let hash := (script.drop 3).take 20
  if script.length = 25 ∧ script = keyIDScript hash then some hash else none

def isToScriptID (script : CScript) : Option Bytes :=
  let hash := (script.drop 2).take 20
  if script.length = 23 ∧ script = scriptIDScript hash then some hash else none

def isToPubKey (curve : Curve) (script : CScript) : Option Bytes :=
  let short := (script.drop 1).take 33
  let long := (script.drop 1).take 65
  if script.length = 35 ∧ script = pubKeyScript short ∧
      (short.head? = some 2 ∨ short.head? = some 3) then some short
  else if script.length = 67 ∧ script = pubKeyScript long ∧ long.head? = some 4 ∧
      curve.isFullyValid long = true then some long
  else none

/-- The compressed form of a key: the first byte also carries the parity of an uncompressed one. -/
def compressKey (pubkey : Bytes) : Bytes :=
  (if pubkey.head? = some 4 then 4 ||| (pubkey.getLast?.getD 0 &&& 1) else pubkey.headD 0) ::
    (pubkey.drop 1).take 32

def compressScript (curve : Curve) (script : CScript) : Option Bytes :=
  match isToKeyID script with
  | some keyID => some (0 :: keyID)
  | none =>
      match isToScriptID script with
      | some scriptID => some (1 :: scriptID)
      | none => (isToPubKey curve script).map compressKey

def getSpecialSize (nSize : Nat) : Nat := if nSize ≤ 1 then 20 else if nSize ≤ 5 then 32 else 0

/-- `Decompress`; `none` leaves the script as it was. -/
def decompressScript (curve : Curve) (nSize : Nat) (vch : Bytes) : Option CScript :=
  if nSize = 0 then some (keyIDScript vch)
  else if nSize = 1 then some (scriptIDScript vch)
  else if nSize = 2 ∨ nSize = 3 then some (pubKeyScript (UInt8.ofNat nSize :: vch))
  else if nSize = 4 ∨ nSize = 5 then
    (curve.decompress (UInt8.ofNat (nSize - 2) :: vch)).map pubKeyScript
  else none

def writeScript (curve : Curve) (script : CScript) : Bytes :=
  match compressScript curve script with
  | some compr => compr
  | none => writeVarInt 32 ((script.length + nSpecialScripts) % 2 ^ 32) ++ script

/-- Read into an empty script. -/
def readScriptAfter (curve : Curve) (nSize : Nat) : Reader CScript :=
  if nSize < nSpecialScripts then do
    let vch ← take (getSpecialSize nSize)
    return (decompressScript curve nSize vch).getD []
  else take (nSize - nSpecialScripts)

def readScript (curve : Curve) : Reader CScript := do
  let nSize ← readVarInt 32
  readScriptAfter curve nSize

/-! ## Outputs -/

def writeTxOut (curve : Curve) (txout : CTxOut) : Bytes :=
  writeVarInt 64 (compressAmount (txout.nValue % 2 ^ 64).toNat) ++
    writeScript curve txout.scriptPubKey

def readTxOut (curve : Curve) : Reader CTxOut := do
  let nVal ← readVarInt 64
  let scriptPubKey ← readScript curve
  return ⟨wrap64 (decompressAmount nVal), scriptPubKey⟩

/-! ## Reading back scripts and outputs -/

theorem writeVarInt_small (bits n : Nat) (small : n < 128) : writeVarInt bits n = [UInt8.ofNat n] := by
  have byte : varIntByte false n = UInt8.ofNat n := by
    simp [varIntByte, Nat.mod_eq_of_lt small]
  rw [writeVarInt]
  cases (bits + 6) / 7 with
  | zero => rw [writeVarIntLoop, byte]
  | succ fuel => rw [writeVarIntLoop, if_pos (by omega), byte]

theorem reads_special (curve : Curve) (nSize : Nat) (vch : Bytes) (script : CScript)
    (special : nSize < nSpecialScripts) (length : vch.length = getSpecialSize nSize)
    (same : decompressScript curve nSize vch = some script) :
    Reads (readScript curve) (UInt8.ofNat nSize :: vch) script := by
  have six : nSpecialScripts = 6 := rfl
  have head : Reads (readVarInt 32) [UInt8.ofNat nSize] nSize := by
    rw [← writeVarInt_small 32 nSize (by omega)]
    exact reads_varInt 32 nSize (by omega)
  apply reads_bind (readVarInt 32) _ [UInt8.ofNat nSize] vch nSize script head
  rw [readScriptAfter, if_pos special]
  have tail := reads_return (take (getSpecialSize nSize))
    (fun vch => (decompressScript curve nSize vch).getD []) vch vch (reads_take vch _ length)
  rwa [same] at tail

theorem reads_plain (curve : Curve) (script : CScript)
    (fits : script.length + nSpecialScripts < 2 ^ 32) :
    Reads (readScript curve)
      (writeVarInt 32 ((script.length + nSpecialScripts) % 2 ^ 32) ++ script) script := by
  rw [Nat.mod_eq_of_lt fits]
  apply reads_bind (readVarInt 32) _ _ _ (script.length + nSpecialScripts) script
  · exact reads_varInt 32 _ fits
  · rw [readScriptAfter, if_neg (by omega), Nat.add_sub_cancel]
    exact reads_take script _ rfl

theorem isToKeyID_some (script hash : Bytes) (found : isToKeyID script = some hash) :
    hash.length = 20 ∧ script = keyIDScript hash := by
  simp only [isToKeyID, Option.ite_none_right_eq_some, Option.some.injEq] at found
  obtain ⟨⟨length, shape⟩, rfl⟩ := found
  exact ⟨by simp [length], shape⟩

theorem isToScriptID_some (script hash : Bytes) (found : isToScriptID script = some hash) :
    hash.length = 20 ∧ script = scriptIDScript hash := by
  simp only [isToScriptID, Option.ite_none_right_eq_some, Option.some.injEq] at found
  obtain ⟨⟨length, shape⟩, rfl⟩ := found
  exact ⟨by simp [length], shape⟩

/-- What a key script holds: a compressed key, or a valid uncompressed one. -/
theorem isToPubKey_some (curve : Curve) (script pubkey : Bytes)
    (found : isToPubKey curve script = some pubkey) :
    script = pubKeyScript pubkey ∧
      (pubkey.length = 33 ∧ (pubkey.head? = some 2 ∨ pubkey.head? = some 3) ∨
        pubkey.length = 65 ∧ pubkey.head? = some 4 ∧ curve.isFullyValid pubkey = true) := by
  simp only [isToPubKey] at found
  split at found
  · rename_i short
    cases found
    exact ⟨short.2.1, .inl ⟨by simp [short.1], short.2.2⟩⟩
  · split at found
    · rename_i long
      cases found
      exact ⟨long.2.1, .inr ⟨by simp [long.1], long.2.2⟩⟩
    · cases found

theorem parity_cases (last : UInt8) : last &&& 1 = 0 ∨ last &&& 1 = 1 := by
  have bit : last.toNat % 2 = 0 ∨ last.toNat % 2 = 1 := Nat.mod_two_eq_zero_or_one _
  rw [← UInt8.toNat_inj, ← UInt8.toNat_inj, UInt8.toNat_and]
  simpa using bit

theorem reads_pubKey (curve : Curve) (curveOk : curve.Decompresses) (script pubkey : Bytes)
    (found : isToPubKey curve script = some pubkey) :
    Reads (readScript curve) (compressKey pubkey) script := by
  obtain ⟨rfl, short | long⟩ := isToPubKey_some curve script pubkey found
  · obtain ⟨length, head⟩ := short
    cases pubkey with
    | nil => cases length
    | cons first coordinate =>
        have size : coordinate.length = 32 := by simpa using length
        have whole : ((first :: coordinate).drop 1).take 32 = coordinate := by simp [← size]
        have plain : compressKey (first :: coordinate) = first :: coordinate := by
          rw [compressKey, whole, List.head?_cons, if_neg, List.headD_cons]
          rcases head with head | head <;> cases head <;> decide
        rw [plain]
        rcases head with head | head
        · cases head
          exact reads_special curve 2 coordinate _ (by decide) size rfl
        · cases head
          exact reads_special curve 3 coordinate _ (by decide) size rfl
  · obtain ⟨length, head, valid⟩ := long
    have size : ((pubkey.drop 1).take 32).length = 32 := by simp [length]
    have again := curveOk pubkey length head valid
    rw [compressedKey] at again
    rw [compressKey, if_pos head]
    rcases parity_cases (pubkey.getLast?.getD 0) with even | odd
    · rw [even] at again ⊢
      apply reads_special curve 4 _ _ (by decide) size
      exact congrArg (Option.map pubKeyScript) again
    · rw [odd] at again ⊢
      apply reads_special curve 5 _ _ (by decide) size
      exact congrArg (Option.map pubKeyScript) again

theorem reads_script (curve : Curve) (curveOk : curve.Decompresses) (script : CScript)
    (fits : script.length + nSpecialScripts < 2 ^ 32) :
    Reads (readScript curve) (writeScript curve script) script := by
  rw [writeScript, compressScript]
  cases key : isToKeyID script with
  | some keyID =>
      obtain ⟨length, rfl⟩ := isToKeyID_some script keyID key
      exact reads_special curve 0 keyID _ (by decide) length rfl
  | none =>
      cases hash : isToScriptID script with
      | some scriptID =>
          obtain ⟨length, rfl⟩ := isToScriptID_some script scriptID hash
          exact reads_special curve 1 scriptID _ (by decide) length rfl
      | none =>
          cases pub : isToPubKey curve script with
          | some pubkey => exact reads_pubKey curve curveOk script pubkey pub
          | none => exact reads_plain curve script fits

theorem reads_code (curve : Curve) (curveOk : curve.Decompresses) (code : Nat) (script : CScript)
    (small : code < 2 ^ 64) (fits : script.length + nSpecialScripts < 2 ^ 32) :
    Reads (readTxOut curve) (writeVarInt 64 code ++ writeScript curve script)
      ⟨wrap64 (decompressAmount code), script⟩ := by
  apply reads_bind (readVarInt 64) _ _ _ code _ (reads_varInt 64 code small)
  exact reads_return (readScript curve) (CTxOut.mk (wrap64 (decompressAmount code))) _ _
    (reads_script curve curveOk script fits)

theorem compressAmount_lt (n : Nat) : compressAmount n < 2 ^ 64 := by
  rw [compressAmount]
  split
  · decide
  · dsimp only
    split <;> exact Nat.mod_lt _ (by decide)

theorem reads_txOut (curve : Curve) (curveOk : curve.Decompresses) (txout : CTxOut)
    (amount : moneyRange txout.nValue = true)
    (fits : txout.scriptPubKey.length + nSpecialScripts < 2 ^ 32) :
    Reads (readTxOut curve) (writeTxOut curve txout) txout := by
  have most : maxMoney = 600000000000000000 := rfl
  rw [moneyRange_iff] at amount
  have whole := reads_code curve curveOk _ txout.scriptPubKey
    (compressAmount_lt (txout.nValue % 2 ^ 64).toNat) fits
  rw [decompress_compressAmount _ (by omega)] at whole
  have same : wrap64 ((txout.nValue % 2 ^ 64).toNat : Nat) = txout.nValue := by
    rw [wrap64]
    omega
  rwa [same] at whole

end RoiCoin
