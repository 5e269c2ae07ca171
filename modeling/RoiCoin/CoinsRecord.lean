import RoiCoin.Net.PartialMerkleTree
import RoiCoin.Undo

/-! The record of a transaction's unspent outputs in the database (`CCoins` in `coins.h`). -/

namespace RoiCoin

open Codec Slots

namespace CCoins

/-! ## Writing -/

/-- `fZero` after the inner loop of `CalcMaskSize`. -/
def maskZero (coins : CCoins) (b : Nat) : Bool :=
  (List.range 8).all fun i => !coins.isAvailable (2 + b * 8 + i)

/-- One turn of the outer loop of `CalcMaskSize`: the last used byte and the number of non-zero
bytes so far. -/
def maskStep (coins : CCoins) (counts : Nat × Nat) (b : Nat) : Nat × Nat :=
  if coins.maskZero b then counts else (b + 1, counts.2 + 1)

/-- The number of `b` with `2 + b * 8 < vout.size()`. -/
def maskBytes (coins : CCoins) : Nat := (coins.vout.length + 5) / 8

def calcMaskSize (coins : CCoins) : Nat × Nat :=
  (List.range coins.maskBytes).foldl coins.maskStep (0, 0)

def nMaskSize (coins : CCoins) : Nat := coins.calcMaskSize.1

def nMaskCode (coins : CCoins) : Nat := coins.calcMaskSize.2

def fFirst (coins : CCoins) : Bool := coins.isAvailable 0

def fSecond (coins : CCoins) : Bool := coins.isAvailable 1

/-- `assert(fFirst || fSecond || nMaskCode)`. -/
def asserted (coins : CCoins) : Bool := coins.fFirst || coins.fSecond || coins.nMaskCode != 0

def nCode (coins : CCoins) : Nat :=
  (8 * (coins.nMaskCode - if coins.fFirst || coins.fSecond then 0 else 1) +
    (if coins.fCoinBase then 1 else 0) + (if coins.fFirst then 2 else 0) +
    (if coins.fSecond then 4 else 0)) % 2 ^ 32

/-- `chAvail` of mask byte `b`. -/
def chAvail (coins : CCoins) (b : Nat) : UInt8 :=
  packByte ((List.range 8).map fun i => coins.isAvailable (2 + b * 8 + i))

def writeMask (coins : CCoins) : Bytes := (List.range coins.nMaskSize).map coins.chAvail

def writeOutput (curve : Curve) (txout : Option CTxOut) : Bytes :=
  txout.elim [] (writeTxOut curve)

/-- `none` where the assertion fails. -/
def serialize (curve : Curve) (coins : CCoins) : Option Bytes :=
  if coins.asserted then
    some (writeVarIntSigned coins.nVersion ++ (writeVarInt 32 coins.nCode ++ (coins.writeMask ++
      (coins.vout.flatMap (writeOutput curve) ++ writeVarIntSigned coins.nHeight))))
  else none

/-! ## Reading -/

/-- The loop over the mask: `nMaskCode` non-zero bytes are still to come. -/
def readMask : Nat → Bytes → Option (List Bool × Bytes)
  | 0, bytes => some ([], bytes)
  | _ + 1, [] => none
  | nMaskCode + 1, chAvail :: bytes =>
      (readMask (if chAvail ≠ 0 then nMaskCode else nMaskCode + 1) bytes).map fun (vAvail, rest) =>
        (unpackBits [chAvail] ++ vAvail, rest)

/-- The loop over `vAvail`; a value of minus one reads as a null output. -/
def readOutputs (curve : Curve) : List Bool → Reader (List (Option CTxOut))
  | [] => pure []
  | false :: vAvail => do
      let vout ← readOutputs curve vAvail
      return none :: vout
  | true :: vAvail => do
      let txout ← readTxOut curve
      let vout ← readOutputs curve vAvail
      return txout.unspent :: vout

def readAfterCode (curve : Curve) (nVersion : Int) (nCode : Nat) : Reader CCoins := do
  let vAvail ← (readMask (nCode / 8 + if nCode.testBit 1 || nCode.testBit 2 then 0 else 1) :
    Reader (List Bool))
  let vout ← readOutputs curve (nCode.testBit 1 :: nCode.testBit 2 :: vAvail)
  let nHeight ← readVarInt 32
  return cleanup ⟨nCode.testBit 0, vout, signed32 nHeight, nVersion⟩

def unserialize (curve : Curve) : Reader CCoins := do
  let nVersion ← readVarInt 32
  let nCode ← readVarInt 32
  readAfterCode curve (signed32 nVersion) nCode

end CCoins

/-! ## Sizes -/

def sizeOfVarIntLoop : Nat → Nat → Nat
  | 0, _ => 1
  | fuel + 1, n => if n ≤ 0x7f then 1 else 1 + sizeOfVarIntLoop fuel (n / 128 - 1)

def sizeOfVarInt (bits n : Nat) : Nat := sizeOfVarIntLoop ((bits + 6) / 7) n

/-- A negative `int` passes the test for a single byte. -/
def sizeOfVarIntSigned (n : Int) : Nat := if n < 0 then 1 else sizeOfVarInt 32 n.toNat

/-- `CSizeComputer` adds up what `Serialize` writes. -/
def sizeOfTxOut (curve : Curve) (txout : CTxOut) : Nat := (writeTxOut curve txout).length

namespace CCoins

/-- `none` where the assertion fails. -/
def getSerializeSize (curve : Curve) (coins : CCoins) : Option Nat :=
  if coins.asserted then
    some ((sizeOfVarIntSigned coins.nVersion + sizeOfVarInt 32 coins.nCode + coins.nMaskSize +
      (coins.vout.map fun txout => txout.elim 0 (sizeOfTxOut curve)).sum +
      sizeOfVarIntSigned coins.nHeight) % 2 ^ 32)
  else none

/-! ## Mask bytes -/

theorem maskZero_iff (coins : CCoins) (b : Nat) :
    coins.maskZero b = true ↔ ∀ i < 8, coins.isAvailable (2 + b * 8 + i) = false := by
  simp only [maskZero, List.all_eq_true, List.mem_range, Bool.not_eq_true']

theorem unpack_chAvail (coins : CCoins) (b : Nat) :
    unpackBits [coins.chAvail b] =
      (List.range 8).map fun i => coins.isAvailable (2 + b * 8 + i) := by
  have whole := unpack_packByte ((List.range 8).map fun i => coins.isAvailable (2 + b * 8 + i))
    (by rw [List.length_map, List.length_range])
  rw [List.length_map, List.length_range, Nat.sub_self, List.replicate_zero,
    List.append_nil] at whole
  rw [unpackBits, List.flatMap_cons, List.flatMap_nil, List.append_nil]
  exact whole

theorem chAvail_zero (coins : CCoins) (b : Nat) : coins.chAvail b = 0 ↔ coins.maskZero b = true := by
  rw [maskZero_iff]
  constructor
  · intro zero i small
    have bits := unpack_chAvail coins b
    rw [zero] at bits
    have bit := congrArg (·[i]?) bits
    have inside : i < (unpackBits [0]).length := small
    have off : ∀ j : Fin 8, (unpackBits [0])[j.val]? = some false := by decide
    simp only [off ⟨i, small⟩, List.getElem?_map, List.getElem?_range small, Option.map_some,
      Option.some.injEq] at bit
    exact bit.symm
  · intro empty
    have bits : ((List.range 8).map fun i => coins.isAvailable (2 + b * 8 + i)) =
        (List.range 8).map fun _ => false := by
      apply List.map_congr_left
      intro i member
      exact empty i (List.mem_range.mp member)
    rw [chAvail, bits]
    rfl

theorem nMaskCode_count (coins : CCoins) (bytes : Nat) (counts : Nat × Nat) :
    ((List.range bytes).foldl coins.maskStep counts).2 =
      counts.2 + ((List.range bytes).map coins.chAvail).countP (· ≠ 0) := by
  induction bytes with
  | zero => rfl
  | succ bytes ih =>
      rw [List.range_succ, List.foldl_concat, List.map_append, List.countP_append, maskStep]
      have byte := chAvail_zero coins bytes
      by_cases zero : coins.maskZero bytes = true
      · rw [if_pos zero, ih]
        simp [byte.mpr zero]
      · rw [if_neg zero, ih]
        have used : coins.chAvail bytes ≠ 0 := fun none => zero (byte.mp none)
        simp [used]
        omega

/-- The last output of a trimmed vector is in the last mask byte. -/
theorem last_used (coins : CCoins) (trimmed : trim coins.vout = coins.vout) (bytes : Nat)
    (count : coins.maskBytes = bytes + 1) : coins.maskZero bytes = false := by
  rw [maskBytes] at count
  obtain ⟨n, length⟩ : ∃ n, coins.vout.length = n + 1 := ⟨coins.vout.length - 1, by omega⟩
  obtain ⟨txout, last⟩ := trim_last coins.vout n (by rw [trimmed, length])
  rw [trimmed] at last
  rw [Bool.eq_false_iff]
  intro zero
  have empty := (maskZero_iff coins bytes).mp zero (n - (2 + bytes * 8)) (by omega)
  have place : 2 + bytes * 8 + (n - (2 + bytes * 8)) = n := by omega
  rw [place, isAvailable, output, last] at empty
  cases empty

theorem nMaskSize_trimmed (coins : CCoins) (trimmed : trim coins.vout = coins.vout) :
    coins.nMaskSize = coins.maskBytes := by
  rw [nMaskSize, calcMaskSize]
  cases count : coins.maskBytes with
  | zero => rfl
  | succ bytes =>
      rw [List.range_succ, List.foldl_concat, maskStep, last_used coins trimmed bytes count,
        if_neg Bool.false_ne_true]

/-! ## The header code -/

theorem maskCode_eq (coins : CCoins) :
    coins.nMaskCode = ((List.range coins.maskBytes).map coins.chAvail).countP (· ≠ 0) := by
  rw [nMaskCode, calcMaskSize, nMaskCode_count, Nat.zero_add]

theorem maskCode_le (coins : CCoins) : coins.nMaskCode ≤ coins.maskBytes := by
  rw [maskCode_eq]
  have most := List.countP_le_length (p := (· ≠ (0 : UInt8)))
    (l := (List.range coins.maskBytes).map coins.chAvail)
  rwa [List.length_map, List.length_range] at most

/-- An output after the first two has a non-zero mask byte. -/
theorem maskCode_pos (coins : CCoins) (n : Nat) (late : 2 ≤ n) (txout : CTxOut)
    (present : coins.output n = some txout) : 0 < coins.nMaskCode := by
  have inside := slot_lt coins.vout n txout present
  rw [maskCode_eq, List.countP_pos_iff]
  refine ⟨coins.chAvail ((n - 2) / 8), List.mem_map_of_mem (List.mem_range.mpr ?_), ?_⟩
  · rw [maskBytes]
    omega
  · rw [decide_eq_true_iff]
    intro zero
    have empty := (maskZero_iff coins _).mp ((chAvail_zero coins _).mp zero) ((n - 2) % 8) (by omega)
    have place : 2 + (n - 2) / 8 * 8 + (n - 2) % 8 = n := by omega
    rw [place, isAvailable, present] at empty
    cases empty

theorem asserted_unpruned (coins : CCoins) (unpruned : coins.isPruned = false) :
    coins.asserted = true := by
  by_contra fails
  simp only [asserted, Bool.or_eq_true, bne_iff_ne, ne_eq, not_or, Bool.not_eq_true,
    Decidable.not_not] at fails
  obtain ⟨⟨first, second⟩, code⟩ := fails
  have pruned : coins.isPruned = true := by
    rw [isPruned_iff]
    intro n
    by_contra present
    obtain ⟨txout, here⟩ := Option.ne_none_iff_exists'.mp present
    have available : coins.isAvailable n = true := by rw [isAvailable, here]; rfl
    cases n with
    | zero =>
        rw [fFirst, available] at first
        cases first
    | succ n =>
        cases n with
        | zero =>
            rw [fSecond, available] at second
            cases second
        | succ n =>
            have positive := maskCode_pos coins (n + 1 + 1) (by omega) txout here
            omega
  rw [pruned] at unpruned
  cases unpruned

theorem code_bits (m : Nat) (coinBase first second : Bool) :
    let code := 8 * m + (if coinBase then 1 else 0) + (if first then 2 else 0) +
      (if second then 4 else 0)
    code / 8 = m ∧ code.testBit 0 = coinBase ∧ code.testBit 1 = first ∧ code.testBit 2 = second := by
  simp only [Nat.testBit_eq_decide_div_mod_eq]
  cases coinBase <;> cases first <;> cases second <;> simp <;> omega

theorem nCode_bits (coins : CCoins) (few : coins.vout.length ≤ 2 ^ 32 - 6)
    (unpruned : coins.isPruned = false) :
    coins.nCode / 8 + (if coins.nCode.testBit 1 || coins.nCode.testBit 2 then 0 else 1) =
      coins.nMaskCode ∧ coins.nCode.testBit 0 = coins.fCoinBase ∧
      coins.nCode.testBit 1 = coins.fFirst ∧ coins.nCode.testBit 2 = coins.fSecond := by
  have most := maskCode_le coins
  rw [maskBytes] at most
  have asserted := asserted_unpruned coins unpruned
  obtain ⟨quotient, coinBase, first, second⟩ := code_bits
    (coins.nMaskCode - if coins.fFirst || coins.fSecond then 0 else 1)
    coins.fCoinBase coins.fFirst coins.fSecond
  have small : 8 * (coins.nMaskCode - if coins.fFirst || coins.fSecond then 0 else 1) +
      (if coins.fCoinBase then 1 else 0) + (if coins.fFirst then 2 else 0) +
      (if coins.fSecond then 4 else 0) < 2 ^ 32 := by
    split <;> split <;> split <;> split <;> omega
  rw [nCode, Nat.mod_eq_of_lt small, quotient, coinBase, first, second]
  refine ⟨?_, rfl, rfl, rfl⟩
  split
  · rfl
  · rename_i neither
    rw [CCoins.asserted, Bool.or_eq_true, bne_iff_ne] at asserted
    have code := asserted.resolve_left neither
    omega

/-! ## Reading back what was written -/

theorem reads_mask (bytes : Bytes) (closed : ∀ byte, bytes.getLast? = some byte → byte ≠ 0) :
    Reads (readMask (bytes.countP (· ≠ 0))) bytes (unpackBits bytes) := by
  induction bytes with
  | nil =>
      intro rest
      rw [List.countP_nil, StateT.run, readMask]
      rfl
  | cons byte bytes ih =>
      have tail : ∀ last, bytes.getLast? = some last → last ≠ 0 := by
        intro last found
        apply closed
        rw [List.getLast?_cons, found]
        rfl
      have positive : ∃ n, (byte :: bytes).countP (· ≠ 0) = n + 1 ∧
          (if byte ≠ 0 then n else n + 1) = bytes.countP (· ≠ 0) := by
        by_cases zero : byte = 0
        · have later : 0 < bytes.countP (· ≠ 0) := by
            cases bytes with
            | nil => exact absurd zero (closed byte rfl)
            | cons next bytes =>
                have nonempty : next :: bytes ≠ [] := List.cons_ne_nil next bytes
                rw [List.countP_pos_iff]
                exact ⟨_, List.getLast_mem nonempty, decide_eq_true
                  (tail _ (List.getLast?_eq_some_getLast nonempty))⟩
          refine ⟨bytes.countP (· ≠ 0) - 1, ?_, ?_⟩
          · rw [List.countP_cons_of_neg (by simp [zero])]
            omega
          · rw [if_neg (by simp [zero])]
            omega
        · exact ⟨bytes.countP (· ≠ 0), List.countP_cons_of_pos (by simp [zero]), if_pos zero⟩
      obtain ⟨n, count, left⟩ := positive
      intro rest
      have after := ih tail rest
      rw [StateT.run] at after ⊢
      rw [count, List.cons_append, readMask, left, after]
      rfl

theorem unpack_mask (coins : CCoins) (bytes : Nat) :
    unpackBits ((List.range bytes).map coins.chAvail) =
      (List.range (8 * bytes)).map fun i => coins.isAvailable (2 + i) := by
  induction bytes with
  | zero => rfl
  | succ bytes ih =>
      have last := unpack_chAvail coins bytes
      have longer : 8 * (bytes + 1) = 8 * bytes + 8 := Nat.mul_succ 8 bytes
      rw [List.range_succ, List.map_append, List.map_singleton, unpackBits, List.flatMap_append,
        ← unpackBits, ← unpackBits, ih, last, longer, List.range_add, List.map_append, List.map_map]
      congr 1
      apply List.map_congr_left
      intro i _
      have place : 2 + bytes * 8 + i = 2 + (8 * bytes + i) := by omega
      rw [place]
      rfl

/-- The outputs that are read, with nulls up to the end of the mask. -/
def padded (coins : CCoins) : List (Option CTxOut) :=
  coins.vout ++ List.replicate (2 + 8 * coins.maskBytes - coins.vout.length) none

theorem avail_padded (coins : CCoins) :
    coins.fFirst :: coins.fSecond :: unpackBits ((List.range coins.maskBytes).map coins.chAvail) =
      coins.padded.map Option.isSome := by
  have long : coins.vout.length ≤ 2 + 8 * coins.maskBytes := by
    rw [maskBytes]
    omega
  have bits : coins.fFirst :: coins.fSecond ::
      unpackBits ((List.range coins.maskBytes).map coins.chAvail) =
      (List.range (2 + 8 * coins.maskBytes)).map coins.isAvailable := by
    rw [unpack_mask, List.range_add, List.map_append, List.map_map]
    rfl
  rw [bits]
  apply List.ext_getElem
  · simp only [padded, List.length_map, List.length_range, List.length_append,
      List.length_replicate]
    omega
  · intro n left right
    rw [List.length_map, List.length_range] at left
    rw [List.getElem_map, List.getElem_range, List.getElem_map, isAvailable, output, slot]
    simp only [padded]
    by_cases before : n < coins.vout.length
    · rw [List.getElem_append_left before, List.getElem?_eq_getElem before]
      rfl
    · rw [List.getElem_append_right (by omega), List.getElem_replicate,
        List.getElem?_eq_none (by omega)]
      rfl

theorem padded_trim (coins : CCoins) : trim coins.padded = trim coins.vout := by
  apply trim_ext
  intro n
  rw [slot, slot, padded]
  by_cases before : n < coins.vout.length
  · rw [List.getElem?_append_left before]
  · rw [List.getElem?_append_right (by omega), List.getElem?_eq_none (by omega : _ ≤ n),
      List.getElem?_replicate]
    split <;> rfl

theorem padded_bytes (curve : Curve) (coins : CCoins) :
    coins.padded.flatMap (writeOutput curve) = coins.vout.flatMap (writeOutput curve) := by
  have empty : ∀ count, (List.replicate count none).flatMap (writeOutput curve) = [] := by
    intro count
    rw [List.flatMap_eq_nil_iff]
    intro txout member
    rw [List.eq_of_mem_replicate member]
    rfl
  rw [padded, List.flatMap_append, empty, List.append_nil]

/-- Unspent outputs in the money range, the last position taken. -/
structure Valid (coins : CCoins) : Prop where
  version : 0 ≤ coins.nVersion ∧ coins.nVersion < 2 ^ 31
  unpruned : coins.isPruned = false
  trimmed : coins.cleanup = coins
  amounts : ∀ txout, some txout ∈ coins.vout → moneyRange txout.nValue = true

/-- The records for which the formats of numbers and scripts are made; the loops count outputs
in `unsigned int`. -/
structure Storable (coins : CCoins) : Prop extends Valid coins where
  height : 0 ≤ coins.nHeight ∧ coins.nHeight < 2 ^ 31
  scripts : ∀ txout, some txout ∈ coins.vout →
    txout.scriptPubKey.length + nSpecialScripts < 2 ^ 32
  few : coins.vout.length ≤ 2 ^ 32 - 6

theorem reads_outputs (curve : Curve) (curveOk : curve.Decompresses) (vout : List (Option CTxOut))
    (amounts : ∀ txout, some txout ∈ vout → moneyRange txout.nValue = true)
    (scripts : ∀ txout, some txout ∈ vout →
      txout.scriptPubKey.length + nSpecialScripts < 2 ^ 32) :
    Reads (readOutputs curve (vout.map Option.isSome)) (vout.flatMap (writeOutput curve)) vout := by
  induction vout with
  | nil => exact reads_pure []
  | cons txout vout ih =>
      have rest := ih (fun other member => amounts other (List.mem_cons_of_mem _ member))
        (fun other member => scripts other (List.mem_cons_of_mem _ member))
      rw [List.map_cons, List.flatMap_cons]
      cases txout with
      | none => exact reads_return _ _ _ _ rest
      | some txout =>
          have amount := amounts txout List.mem_cons_self
          have unspent : txout.unspent = some txout := by
            rw [CTxOut.unspent, if_neg]
            rw [moneyRange_iff] at amount
            rw [CTxOut.isNull, beq_iff_eq]
            omega
          apply reads_bind _ _ _ _ _ _
            (reads_txOut curve curveOk txout amount (scripts txout List.mem_cons_self))
          rw [unspent]
          exact reads_return _ _ _ _ rest

theorem reads_int (n : Int) (range : 0 ≤ n ∧ n < 2 ^ 31) :
    Reads (readVarInt 32) (writeVarIntSigned n) n.toNat ∧ signed32 n.toNat = n := by
  have whole := reads_varIntSigned n range.2
  rw [if_neg (by omega)] at whole
  refine ⟨whole, ?_⟩
  rw [signed32]
  omega

/-! ## Sizes -/

end CCoins

theorem varInt_length (fuel n : Nat) (more : Bool) :
    (writeVarIntLoop fuel more n).length = sizeOfVarIntLoop fuel n := by
  induction fuel generalizing n more with
  | zero => rfl
  | succ fuel ih =>
      rw [writeVarIntLoop, sizeOfVarIntLoop]
      split
      · rfl
      · rw [List.length_append, ih, List.length_singleton, Nat.add_comm]

theorem varIntSigned_length (n : Int) : (writeVarIntSigned n).length = sizeOfVarIntSigned n := by
  rw [writeVarIntSigned, sizeOfVarIntSigned]
  split
  · rfl
  · exact varInt_length _ _ _

namespace CCoins

theorem outputs_length (curve : Curve) (vout : List (Option CTxOut)) :
    (vout.flatMap (writeOutput curve)).length =
      (vout.map fun txout => txout.elim 0 (sizeOfTxOut curve)).sum := by
  rw [List.length_flatMap]
  congr 1
  apply List.map_congr_left
  intro txout _
  cases txout with
  | none => rfl
  | some txout => rfl

/-- The size function and the writer agree on every record, written or not. -/
theorem serialize_size (curve : Curve) (coins : CCoins) :
    coins.getSerializeSize curve =
      (coins.serialize curve).map fun bytes => bytes.length % 2 ^ 32 := by
  rw [getSerializeSize, serialize]
  split
  · rw [Option.map_some, Option.some.injEq]
    congr 1
    simp only [List.length_append, varIntSigned_length, outputs_length, writeVarInt, varInt_length,
      writeMask, List.length_map, List.length_range, sizeOfVarInt]
    omega
  · rfl

/-! ## The round trip -/

theorem reads_coins (curve : Curve) (curveOk : curve.Decompresses) (coins : CCoins)
    (storable : coins.Storable) : ∃ bytes, coins.serialize curve = some bytes ∧
      Reads (unserialize curve) bytes coins := by
  refine ⟨_, if_pos (asserted_unpruned coins storable.unpruned), ?_⟩
  have trimmed : trim coins.vout = coins.vout := congrArg CCoins.vout storable.trimmed
  obtain ⟨code, coinBase, first, second⟩ := nCode_bits coins storable.few storable.unpruned
  obtain ⟨version, version_same⟩ := reads_int coins.nVersion storable.version
  obtain ⟨height, height_same⟩ := reads_int coins.nHeight storable.height
  have small : coins.nCode < 2 ^ 32 := Nat.mod_lt _ (by decide)
  apply reads_bind _ _ _ _ _ _ version
  apply reads_bind _ _ _ _ _ _ (reads_varInt 32 coins.nCode small)
  rw [readAfterCode, code, coinBase, first, second, version_same, writeMask,
    nMaskSize_trimmed coins trimmed]
  have closed : ∀ byte, ((List.range coins.maskBytes).map coins.chAvail).getLast? = some byte →
      byte ≠ 0 := by
    intro byte last zero
    cases count : coins.maskBytes with
    | zero =>
        rw [count] at last
        cases last
    | succ bytes =>
        have used := last_used coins trimmed bytes count
        rw [count, List.range_succ, List.map_append, List.map_singleton,
          List.getLast?_append_of_ne_nil _ (List.cons_ne_nil _ _), List.getLast?_singleton,
          Option.some.injEq] at last
        rw [(chAvail_zero coins bytes).mp (last.trans zero)] at used
        cases used
  have mask := reads_mask _ closed
  rw [← maskCode_eq] at mask
  apply reads_bind _ _ _ _ _ _ mask
  have members : ∀ txout, some txout ∈ coins.padded → some txout ∈ coins.vout := by
    intro txout member
    rcases List.mem_append.mp member with inside | past
    · exact inside
    · cases List.eq_of_mem_replicate past
  have outputs := reads_outputs curve curveOk coins.padded
    (fun txout member => storable.amounts txout (members txout member))
    (fun txout member => storable.scripts txout (members txout member))
  rw [padded_bytes, ← avail_padded] at outputs
  apply reads_bind _ _ _ _ _ _ outputs
  have last := reads_return (readVarInt 32)
    (fun nHeight => cleanup ⟨coins.fCoinBase, coins.padded, signed32 nHeight, coins.nVersion⟩)
    _ _ height
  have whole : cleanup ⟨coins.fCoinBase, coins.padded, signed32 coins.nHeight.toNat,
      coins.nVersion⟩ = coins := by
    rw [height_same, cleanup, padded_trim, trimmed]
  rwa [whole] at last

theorem coins_record (curve : Curve) (curveOk : curve.Decompresses) (coins : CCoins)
    (storable : coins.Storable) : ∃ bytes, coins.serialize curve = some bytes ∧
      Reads (unserialize curve) bytes coins ∧
      coins.getSerializeSize curve = some (bytes.length % 2 ^ 32) := by
  obtain ⟨bytes, written, read⟩ := reads_coins curve curveOk coins storable
  exact ⟨bytes, written, read, by rw [serialize_size, written, Option.map_some]⟩

/-! ## Records outside the format -/

/-- A library that knows no uncompressed key. -/
def compressedOnly : Curve := ⟨fun _ => false, fun _ => none⟩

theorem compressedOnly_decompresses : compressedOnly.Decompresses := by
  intro pubkey _ _ valid
  cases valid

def RoundTrips (coins : CCoins) : Prop :=
  ∃ bytes, coins.serialize compressedOnly = some bytes ∧
    Reads (unserialize compressedOnly) bytes coins

def mixed : CCoins := ⟨true, [none, some ⟨0, [0x51]⟩, none, some ⟨7, []⟩], 9, 1⟩

theorem mixed_storable : mixed.Storable where
  version := ⟨by decide, by decide⟩
  unpruned := rfl
  trimmed := rfl
  amounts := by simp [mixed, moneyRange_iff, maxMoney, RoiCoin.coin]
  height := ⟨by decide, by decide⟩
  scripts := by simp [mixed, nSpecialScripts]
  few := Nat.le_of_ble_eq_true rfl

theorem coins_record_mixed :
    ∃ bytes, mixed.serialize compressedOnly = some bytes ∧
      Reads (unserialize compressedOnly) bytes mixed ∧
      mixed.getSerializeSize compressedOnly = some (bytes.length % 2 ^ 32) :=
  coins_record compressedOnly compressedOnly_decompresses mixed mixed_storable

/-- The record of a transaction with one output of no value. -/
def single (script : CScript) : CCoins := ⟨false, [some ⟨0, script⟩], 0, 1⟩

theorem single_valid (script : CScript) : (single script).Valid where
  version := ⟨by show (0 : Int) ≤ 1; decide, by show (1 : Int) < 2 ^ 31; decide⟩
  unpruned := rfl
  trimmed := rfl
  amounts := by
    intro txout member
    cases List.eq_of_mem_singleton member
    rfl

theorem serialize_single (curve : Curve) (script : CScript) :
    (single script).serialize curve = some ([1, 2, 0] ++ (writeScript curve script ++ [0])) := by
  have asserted : (single script).asserted = true := rfl
  have bytes : (single script).maskBytes = 0 := by
    simp [maskBytes, single]
  have code : (single script).nMaskCode = 0 := by
    rw [nMaskCode, calcMaskSize, bytes]
    rfl
  have first : (single script).fFirst = true := rfl
  have second : (single script).fSecond = false := rfl
  have coinBase : (single script).fCoinBase = false := rfl
  have nCode : (single script).nCode = 2 := by
    rw [nCode, code, first, second, coinBase]
    rfl
  have mask : (single script).writeMask = [] := by
    rw [writeMask, nMaskSize_trimmed _ rfl, bytes]
    rfl
  have outputs : (single script).vout.flatMap (writeOutput curve) =
      writeTxOut curve ⟨0, script⟩ ++ [] := rfl
  have amount : writeTxOut curve ⟨0, script⟩ = 0 :: writeScript curve script := rfl
  rw [serialize, if_pos asserted, nCode, mask, outputs, amount, List.append_nil, List.nil_append,
    List.cons_append]
  rfl

theorem compressScript_long (script : CScript) (long : 67 < script.length) :
    compressScript compressedOnly script = none := by
  have key : isToKeyID script = none := if_neg fun found => by omega
  have hash : isToScriptID script = none := if_neg fun found => by omega
  have pub : isToPubKey compressedOnly script = none := by
    rw [isToPubKey, if_neg (fun found => by omega), if_neg (fun found => by omega)]
  rw [compressScript, key, hash, pub]
  rfl

/-- The size of this script with its offset is zero modulo `2 ^ 32`. -/
def wrappedScript : CScript := List.replicate (2 ^ 32 - 6) 0

theorem wrappedScript_fails : ¬ RoundTrips (single wrappedScript) := by
  rintro ⟨bytes, written, read⟩
  have key_storable : (single (keyIDScript (List.replicate 20 0))).Storable := {
    single_valid _ with
    height := ⟨by decide, by decide⟩
    scripts := by
      intro txout member
      cases List.eq_of_mem_singleton member
      decide
    few := Nat.le_of_ble_eq_true rfl }
  obtain ⟨keyBytes, keyWritten, keyRead⟩ := reads_coins compressedOnly
    compressedOnly_decompresses _ key_storable
  have length : wrappedScript.length = 2 ^ 32 - 6 := List.length_replicate
  have plain : writeScript compressedOnly wrappedScript = 0 :: wrappedScript := by
    rw [writeScript, compressScript_long wrappedScript (by rw [length]; decide), length]
    rfl
  have front : wrappedScript = List.replicate 20 0 ++ 0 :: List.replicate (2 ^ 32 - 27) 0 := by
    have count : 20 + (2 ^ 32 - 27 + 1) = 2 ^ 32 - 6 := by decide
    rw [← List.replicate_succ, List.replicate_append_replicate, count, wrappedScript]
  have key : writeScript compressedOnly (keyIDScript (List.replicate 20 0)) =
      0 :: List.replicate 20 0 := rfl
  rw [serialize_single, Option.some.injEq, plain, front] at written
  rw [serialize_single, Option.some.injEq, key] at keyWritten
  have extended : bytes = keyBytes ++ (List.replicate (2 ^ 32 - 27) 0 ++ [0]) := by
    rw [← written, ← keyWritten]
    simp only [List.append_assoc, List.cons_append, List.nil_append]
  have whole := read []
  rw [List.append_nil, extended, keyRead] at whole
  have outputs := congrArg CCoins.vout (Prod.mk.inj (Option.some.inj whole)).1
  have same : keyIDScript (List.replicate 20 0) = wrappedScript :=
    congrArg CTxOut.scriptPubKey (Option.some.inj (List.cons.inj outputs).1)
  have lengths := congrArg List.length same
  have short : (keyIDScript (List.replicate 20 0)).length = 25 := rfl
  rw [length, short] at lengths
  exact absurd lengths (by decide)

def negativeHeight : CCoins := { single [] with nHeight := -1 }

/-- The height is read back as its low seven bits. -/
theorem negativeHeight_fails : ¬ RoundTrips negativeHeight := by
  rintro ⟨bytes, written, read⟩
  have record : negativeHeight.serialize compressedOnly = some [1, 2, 0, 6, 127] := by
    decide +kernel
  have back : (unserialize compressedOnly).run [1, 2, 0, 6, 127] =
      some ({ single [] with nHeight := 127 }, []) := by
    decide +kernel
  rw [record, Option.some.injEq] at written
  subst written
  have whole := (read []).symm.trans back
  have height := congrArg CCoins.nHeight (Prod.mk.inj (Option.some.inj whole)).1
  exact absurd height (by decide)

theorem coins_outside_format : compressedOnly.Decompresses ∧
    (negativeHeight.Valid ∧ ¬ RoundTrips negativeHeight) ∧
    (single wrappedScript).Valid ∧ ¬ RoundTrips (single wrappedScript) := by
  have valid : negativeHeight.Valid := { single_valid [] with trimmed := rfl }
  exact ⟨compressedOnly_decompresses, ⟨valid, negativeHeight_fails⟩, single_valid _,
    wrappedScript_fails⟩

end CCoins

end RoiCoin
