import RoiCoin.Script.Numbers
import RoiCoin.Script.Recognisers
import RoiCoin.Wallet.SendMoney

/-! The term-deposit script that the wallet writes, as the recogniser of consensus and the template
matcher of the wallet and of relay policy read it back. -/

namespace RoiCoin

/-- The script of a deposit is a direct push of its number before the lock operations. -/
theorem leadingNumber_push (num tail : Bytes) (some_bytes : 1 ≤ num.length) (few : num.length ≤ 5) :
    leadingNumber (pushData num ++ tail) = some (num, tail) := by
  have length : (UInt8.ofNat num.length).toNat = num.length :=
    UInt8.toNat_ofNat_of_lt' (show num.length < 256 by omega)
  have positive : 0 < UInt8.ofNat num.length := by
    rw [UInt8.lt_iff_toNat_lt, length]
    exact some_bytes
  have small : UInt8.ofNat num.length < 6 := by
    rw [UInt8.lt_iff_toNat_lt, length]
    exact Nat.lt_of_le_of_lt few (by decide)
  rw [pushData, if_pos (by omega), List.cons_append, leadingNumber,
    if_pos ⟨positive, small, by rw [length]; simp⟩, length]
  simp

/-- The code after the lock operations. -/
def keyHashCode (id : Uint160) : CScript :=
  pushData (toByteVector id) ++ [opEqualverify, opChecksig]

theorem time_lock_parts (id : Uint160) (n : Int) :
    getTimeLockScriptForDestination (.keyID id) n =
      pushData (scriptNumSerialize n) ++ (lockOpcodes ++ keyHashCode id) := by
  simp [getTimeLockScriptForDestination, visitDestination, lockOpcodes, keyHashCode]

theorem keyHashCode_pushes (id : Uint160) : pushesKeyHash directPush (keyHashCode id) := by
  have length := toByteVector_length id
  refine ⟨toByteVector id, length, ?_⟩
  rw [keyHashCode, pushData, length, if_pos (by decide)]
  rfl

theorem keyHashCode_push (id : Uint160) : keyHashPush (keyHashCode id) = some (toByteVector id) := by
  have length := toByteVector_length id
  rw [keyHashCode, keyHashPush, getOp_pushData _ _ (by omega)]
  simp [length]

/-- Whatever fits a script number of four bytes is read back from the deposit by both
recognisers, with the key id. -/
theorem deposit_round_trip (fDatacarrier : Bool) (nMaxDatacarrierBytes : Nat) (id : Uint160)
    (n : Int) (least : 1 ≤ n) (height : n < 500000000) :
    getTermDepositReleaseBlock (getTimeLockScriptForDestination (.keyID id) n) = .ok n ∧
      solver fDatacarrier nMaxDatacarrierBytes (getTimeLockScriptForDestination (.keyID id) n) =
        .ok ⟨true, .checklocktimeverify, [toByteVector id], some n⟩ := by
  obtain ⟨release, rfl⟩ := Int.eq_ofNat_of_zero_le (show 0 ≤ n by omega)
  have positive : 0 < release := by omega
  have length := serialize_length_signed release 3 positive (by omega)
  have minimal := serialize_minimal release positive
  have whole : getint (setVch (scriptNumSerialize release)) = release := by
    rw [setVch_serialize, getint, if_neg (by omega), if_neg (by omega)]
  have leads : leadingNumber (getTimeLockScriptForDestination (.keyID id) release) =
      some (scriptNumSerialize release, lockOpcodes ++ keyHashCode id) := by
    rw [time_lock_parts]
    exact leadingNumber_push _ _ length.1 (by omega)
  have lock : (lockOpcodes ++ keyHashCode id).take 4 = lockOpcodes := rfl
  have code : (lockOpcodes ++ keyHashCode id).drop 4 = keyHashCode id := rfl
  constructor
  · rw [deposit_read_iff _ _ (by omega)]
    have pushes := keyHashCode_pushes id
    have size := pushes_length directPush (keyHashCode id) pushes
    have one : directPush.length = 1 := rfl
    refine ⟨scriptNumSerialize release, keyHashCode id, ?_, minimal, whole, by omega, by omega,
      pushes_closing directPush (keyHashCode id) pushes⟩
    simp only [lockedCode, leads, lock, code, if_true]
  · rw [solver_leading fDatacarrier nMaxDatacarrierBytes _ _ _ leads,
      scriptNum_minimal _ (by omega) minimal, if_pos lock, code, keyHashCode_push]
    dsimp only
    rw [whole]

/-- The first height that takes three bytes, because of its sign bit. -/
theorem deposit_round_trip_sign_byte :
    getTermDepositReleaseBlock (getTimeLockScriptForDestination (.keyID 7) 32768) = .ok 32768 ∧
      solver true 40 (getTimeLockScriptForDestination (.keyID 7) 32768) =
        .ok ⟨true, .checklocktimeverify, [toByteVector 7], some 32768⟩ :=
  deposit_round_trip true 40 7 32768 (by decide) (by decide)

end RoiCoin
