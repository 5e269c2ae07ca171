import RoiCoin.Script.SignatureHash
import RoiCoin.Net.PartialMerkleTree
import RoiCoin.Validation.CheckBlock

/-! Transactions and blocks as bytes (`serialize.h`, `primitives/transaction.h`,
`primitives/block.h`). -/

namespace RoiCoin

open Codec

/-! ## Reading -/

/-- Two's complement in `count` bytes. -/
def readSigned (count : Nat) : Reader Int := do
  let n ← readFixed count
  return (n + 2 ^ (8 * count - 1)) % 2 ^ (8 * count) - 2 ^ (8 * count - 1)

/-- The loop of `Unserialize` for a vector of bytes; `left` bytes are still to be read. -/
def readBytesLoop : Nat → Nat → Reader Bytes
  | 0, _ => pure []
  | fuel + 1, left =>
      if left = 0 then pure []
      else do
        let blk := min left (1 + 4999999)
        let front ← take blk
        let back ← readBytesLoop fuel (left - blk)
        return front ++ back

def readScriptBytes : Reader CScript := do
  let nSize ← readCompactSize
  readBytesLoop nSize nSize

/-- The loop of `Unserialize` for other vectors, which grow by `batch` elements at a time. -/
def readElementsLoop {α : Type} (read : Reader α) (batch : Nat) : Nat → Nat → Reader (List α)
  | 0, _ => pure []
  | fuel + 1, left =>
      if left = 0 then pure []
      else do
        let front ← many read (min batch left)
        let back ← readElementsLoop read batch fuel (left - min batch left)
        return front ++ back

def readElements {α : Type} (read : Reader α) (sizeofElement : Nat) : Reader (List α) := do
  let nSize ← readCompactSize
  readElementsLoop read (5000000 / sizeofElement) nSize nSize

def COutPoint.read : Reader COutPoint := do
  let hash ← readUint256
  let n ← readFixed 4
  return ⟨hash, BitVec.ofNat 32 n⟩

def CTxIn.read : Reader CTxIn := do
  let prevout ← COutPoint.read
  let scriptSig ← readScriptBytes
  let nSequence ← readFixed 4
  return ⟨prevout, scriptSig, BitVec.ofNat 32 nSequence⟩

def CTxOut.read : Reader CTxOut := do
  let nValue ← readSigned 8
  let scriptPubKey ← readScriptBytes
  return ⟨nValue, scriptPubKey⟩

/-- The sizes in memory of `CTxIn` and `CTxOut` decide how much is allocated at once. -/
def CTransaction.read : Reader CTransaction := do
  let nVersion ← readSigned 4
  let vin ← readElements CTxIn.read 72
  let vout ← readElements CTxOut.read 32
  let nLockTime ← readFixed 4
  return ⟨nVersion, vin, vout, BitVec.ofNat 32 nLockTime⟩

def CBlockHeader.read : Reader CBlockHeader := do
  let nVersion ← readFixed 4
  let hashPrevBlock ← readUint256
  let hashMerkleRoot ← readUint256
  let nTime ← readFixed 4
  let nBits ← readFixed 4
  let nNonce ← readFixed 4
  let nStartLocation ← readFixed 4
  let nFinalCalculation ← readFixed 4
  return ⟨BitVec.ofNat 32 nVersion, hashPrevBlock, hashMerkleRoot, BitVec.ofNat 32 nTime,
    BitVec.ofNat 32 nBits, BitVec.ofNat 32 nNonce, BitVec.ofNat 32 nStartLocation,
    BitVec.ofNat 32 nFinalCalculation⟩

def CBlock.read : Reader CBlock := do
  let header ← CBlockHeader.read
  let vtx ← readElements CTransaction.read 96
  return ⟨header, vtx⟩

/-! ## Writing -/

def CBlockHeader.write (header : CBlockHeader) : Bytes :=
  writeLE 4 header.nVersion.toNat ++ writeUint256 header.hashPrevBlock ++
    writeUint256 header.hashMerkleRoot ++ writeLE 4 header.nTime.toNat ++
    writeLE 4 header.nBits.toNat ++ writeLE 4 header.nNonce.toNat ++
    writeLE 4 header.nStartLocation.toNat ++ writeLE 4 header.nFinalCalculation.toNat

def CBlock.write (block : CBlock) : Bytes :=
  block.header.write ++ writeVector CTransaction.write block.vtx

/-! ## Batches -/

theorem readBytesLoop_eq (fuel left : Nat) (enough : left ≤ fuel) :
    readBytesLoop fuel left = take left := by
  induction fuel generalizing left with
  | zero =>
      have none_left : left = 0 := by omega
      subst none_left
      apply reader_ext
      intro bytes front rest
      rw [readBytesLoop, run_pure, run_take]
      constructor
      · rintro ⟨rfl, rfl⟩
        exact ⟨rfl, rfl⟩
      · rintro ⟨empty, rfl⟩
        rw [List.length_eq_zero_iff] at empty
        subst empty
        exact ⟨rfl, rfl⟩
  | succ fuel ih =>
      rw [readBytesLoop]
      split_ifs with done
      · subst done
        have stop := ih 0 (Nat.zero_le fuel)
        cases fuel with
        | zero => exact stop
        | succ fuel => rwa [readBytesLoop, if_pos rfl] at stop
      · have split : left = min left (1 + 4999999) + (left - min left (1 + 4999999)) := by omega
        dsimp only
        rw [ih (left - min left (1 + 4999999)) (by omega)]
        exact (take_add _ _).symm.trans (by rw [← split])

theorem readElementsLoop_eq {α : Type} (read : Reader α) (batch : Nat) (positive : 0 < batch)
    (fuel left : Nat) (enough : left ≤ fuel) :
    readElementsLoop read batch fuel left = many read left := by
  induction fuel generalizing left with
  | zero =>
      have none_left : left = 0 := by omega
      subst none_left
      rfl
  | succ fuel ih =>
      rw [readElementsLoop]
      split_ifs with done
      · subst done
        rfl
      · have split : left = min batch left + (left - min batch left) := by omega
        rw [ih (left - min batch left) (by omega)]
        exact (many_add read _ _).symm.trans (by rw [← split])

theorem readScriptBytes_eq : readScriptBytes = (do
    let nSize ← readCompactSize
    take nSize) := by
  rw [readScriptBytes]
  congr 1
  funext nSize
  exact readBytesLoop_eq nSize nSize le_rfl

theorem readElements_eq {α : Type} (read : Reader α) (sizeofElement : Nat)
    (fits : 0 < 5000000 / sizeofElement) : readElements read sizeofElement = readVector read := by
  rw [readElements, readVector]
  congr 1
  funext nSize
  exact readElementsLoop_eq read _ fits nSize nSize le_rfl

/-! ## Values of the types in memory -/

/-- The version is an `int32_t` and every value an `int64_t`. -/
structure CTransaction.Typed (tx : CTransaction) : Prop where
  version : -2 ^ 31 ≤ tx.nVersion ∧ tx.nVersion < 2 ^ 31
  values : ∀ txout ∈ tx.vout, -2 ^ 63 ≤ txout.nValue ∧ txout.nValue < 2 ^ 63

/-- No vector and no script is longer than `ReadCompactSize` takes. -/
structure CTransaction.Sized (tx : CTransaction) : Prop where
  vin : tx.vin.length ≤ maxSize
  vout : tx.vout.length ≤ maxSize
  inputs : ∀ txin ∈ tx.vin, txin.scriptSig.length ≤ maxSize
  outputs : ∀ txout ∈ tx.vout, txout.scriptPubKey.length ≤ maxSize

def CBlock.Typed (block : CBlock) : Prop := ∀ tx ∈ block.vtx, tx.Typed

def CBlock.Sized (block : CBlock) : Prop :=
  block.vtx.length ≤ maxSize ∧ ∀ tx ∈ block.vtx, tx.Sized

/-! ## Reading back what was written -/

theorem bytes_bits (count : Nat) : (256 : Nat) ^ count = 2 ^ (8 * count) := by
  rw [Nat.pow_mul]

theorem writeSigned_fits (count : Nat) (value : Int) :
    (value % 2 ^ (8 * count)).toNat < 256 ^ count := by
  have positive : (0 : Int) < 2 ^ (8 * count) := by positivity
  have below := Int.emod_lt_of_pos value positive
  rw [bytes_bits]
  have same : ((2 ^ (8 * count) : Nat) : Int) = 2 ^ (8 * count) := by push_cast; rfl
  omega

theorem reads_signed (count : Nat) (positive : 0 < count) (value : Int)
    (least : -2 ^ (8 * count - 1) ≤ value) (most : value < 2 ^ (8 * count - 1)) :
    Reads (readSigned count) (writeSigned count value) value := by
  have whole := reads_return (readFixed count)
    (fun n => ((n : Int) + 2 ^ (8 * count - 1)) % 2 ^ (8 * count) - 2 ^ (8 * count - 1)) _ _
    (reads_fixed count _ (writeSigned_fits count value))
  have double : (2 : Int) ^ (8 * count) = 2 * 2 ^ (8 * count - 1) := by
    rw [← pow_succ']
    congr 1
    omega
  have nonneg : 0 ≤ value % 2 ^ (8 * count) := Int.emod_nonneg _ (by positivity)
  have shifted : (value + 2 ^ (8 * count - 1)) % 2 ^ (8 * count) = value + 2 ^ (8 * count - 1) :=
    Int.emod_eq_of_lt (by omega) (by omega)
  have same : ((value % 2 ^ (8 * count)).toNat + 2 ^ (8 * count - 1)) % 2 ^ (8 * count) -
      2 ^ (8 * count - 1) = value := by
    rw [Int.toNat_of_nonneg nonneg, Int.emod_add_emod, shifted]
    omega
  rwa [same] at whole

theorem reads_scriptBytes (script : CScript) (small : script.length ≤ maxSize) :
    Reads readScriptBytes (writeScriptBytes script) script := by
  rw [readScriptBytes_eq]
  exact reads_bind readCompactSize _ _ _ script.length script
    (reads_compactSize script.length small) (reads_take script script.length rfl)

theorem reads_lastWord (n : BitVec 32) {α : Type} (f : BitVec 32 → α) :
    Reads (do let word ← readFixed 4; return f (BitVec.ofNat 32 word)) (writeLE 4 n.toNat) (f n) := by
  have whole := reads_return (readFixed 4) (fun word => f (BitVec.ofNat 32 word)) _ _
    (reads_fixed 4 n.toNat n.isLt)
  rwa [BitVec.ofNat_toNat, BitVec.setWidth_eq] at whole

theorem reads_outPoint (out : COutPoint) : Reads COutPoint.read out.write out :=
  reads_bind _ _ _ _ _ _ (reads_uint256 out.hash) (reads_lastWord out.n (COutPoint.mk out.hash))

theorem reads_input (txin : CTxIn) (small : txin.scriptSig.length ≤ maxSize) :
    Reads CTxIn.read txin.write txin := by
  rw [CTxIn.write, List.append_assoc]
  apply reads_bind _ _ _ _ _ _ (reads_outPoint txin.prevout)
  apply reads_bind _ _ _ _ _ _ (reads_scriptBytes txin.scriptSig small)
  exact reads_lastWord txin.nSequence (CTxIn.mk txin.prevout txin.scriptSig)

theorem reads_output (txout : CTxOut) (value : -2 ^ 63 ≤ txout.nValue ∧ txout.nValue < 2 ^ 63)
    (small : txout.scriptPubKey.length ≤ maxSize) : Reads CTxOut.read txout.write txout := by
  rw [CTxOut.write]
  apply reads_bind _ _ _ _ _ _ (reads_signed 8 (by decide) txout.nValue value.1 value.2)
  exact reads_return _ (CTxOut.mk txout.nValue) _ _ (reads_scriptBytes txout.scriptPubKey small)

theorem reads_transaction (tx : CTransaction) (typed : tx.Typed) (sized : tx.Sized) :
    Reads CTransaction.read tx.write tx := by
  rw [CTransaction.read, readElements_eq _ 72 (by decide), readElements_eq _ 32 (by decide),
    CTransaction.write, List.append_assoc, List.append_assoc]
  apply reads_bind _ _ _ _ _ _ (reads_signed 4 (by decide) tx.nVersion typed.version.1 typed.version.2)
  apply reads_bind _ _ _ _ _ _ (reads_vector CTxIn.read CTxIn.write tx.vin sized.vin
    fun txin member => reads_input txin (sized.inputs txin member))
  apply reads_bind _ _ _ _ _ _ (reads_vector CTxOut.read CTxOut.write tx.vout sized.vout
    fun txout member => reads_output txout (typed.values txout member) (sized.outputs txout member))
  exact reads_lastWord tx.nLockTime (CTransaction.mk tx.nVersion tx.vin tx.vout)

theorem reads_header (header : CBlockHeader) : Reads CBlockHeader.read header.write header := by
  simp only [CBlockHeader.write, List.append_assoc]
  apply reads_bind _ _ _ _ _ _ (reads_fixed 4 _ header.nVersion.isLt)
  apply reads_bind _ _ _ _ _ _ (reads_uint256 header.hashPrevBlock)
  apply reads_bind _ _ _ _ _ _ (reads_uint256 header.hashMerkleRoot)
  apply reads_bind _ _ _ _ _ _ (reads_fixed 4 _ header.nTime.isLt)
  apply reads_bind _ _ _ _ _ _ (reads_fixed 4 _ header.nBits.isLt)
  apply reads_bind _ _ _ _ _ _ (reads_fixed 4 _ header.nNonce.isLt)
  apply reads_bind _ _ _ _ _ _ (reads_fixed 4 _ header.nStartLocation.isLt)
  simp only [BitVec.ofNat_toNat, BitVec.setWidth_eq]
  exact reads_lastWord header.nFinalCalculation fun nFinalCalculation =>
    { header with nFinalCalculation }

theorem reads_block (block : CBlock) (typed : block.Typed) (sized : block.Sized) :
    Reads CBlock.read block.write block := by
  rw [CBlock.read, readElements_eq _ 96 (by decide)]
  apply reads_bind _ _ _ _ _ _ (reads_header block.header)
  exact reads_return _ (CBlock.mk block.header) _ _
    (reads_vector CTransaction.read CTransaction.write block.vtx sized.1
      fun tx member => reads_transaction tx (typed tx member) (sized.2 tx member))

/-! ## Writing back what was read -/

theorem run_uint256 (n : Uint256) (bytes rest : Bytes) :
    readUint256.run bytes = some (n, rest) ↔ writeUint256 n ++ rest = bytes := by
  rw [readUint256]
  simp only [run_bind, run_fixed, run_pure]
  constructor
  · rintro ⟨value, middle, ⟨fits, rfl⟩, rfl, rfl⟩
    have same : (BitVec.ofNat 256 value).toNat = value := Nat.mod_eq_of_lt fits
    rw [writeUint256, same]
  · rintro rfl
    refine ⟨n.toNat, rest, ⟨n.isLt, rfl⟩, ?_, rfl⟩
    rw [BitVec.ofNat_toNat, BitVec.setWidth_eq]

theorem word_toNat (n : Nat) (fits : n < 256 ^ 4) : (BitVec.ofNat 32 n).toNat = n :=
  Nat.mod_eq_of_lt fits

theorem canonical_signed (count : Nat) : Canonical (readSigned count) (writeSigned count) := by
  intro bytes value rest found
  simp only [readSigned, run_bind, run_fixed, run_pure] at found
  obtain ⟨n, middle, ⟨fits, rfl⟩, rfl, rfl⟩ := found
  rw [bytes_bits] at fits
  have below : (n : Int) < 2 ^ (8 * count) := by exact_mod_cast fits
  rw [writeSigned, Int.emod_sub_emod, add_sub_cancel_right, Int.emod_eq_of_lt (by omega) below,
    Int.toNat_natCast]

theorem canonical_scriptBytes : Canonical readScriptBytes writeScriptBytes := by
  intro bytes script rest found
  rw [readScriptBytes_eq] at found
  simp only [run_bind, run_take] at found
  obtain ⟨nSize, middle, sized, rfl, rfl⟩ := found
  obtain ⟨-, rfl⟩ := canonical_compactSize script.length bytes _ sized
  rw [writeScriptBytes, List.append_assoc]

theorem canonical_outPoint : Canonical COutPoint.read COutPoint.write := by
  intro bytes out rest found
  simp only [COutPoint.read, run_bind, run_uint256, run_fixed, run_pure] at found
  obtain ⟨hash, middle, rfl, n, after, ⟨fits, rfl⟩, rfl, rfl⟩ := found
  rw [COutPoint.write, word_toNat n fits, List.append_assoc]
  rfl

theorem canonical_input : Canonical CTxIn.read CTxIn.write := by
  intro bytes txin rest found
  simp only [CTxIn.read, run_bind, run_fixed, run_pure] at found
  obtain ⟨prevout, middle, head, scriptSig, after, script, nSequence, last, ⟨fits, rfl⟩, rfl, rfl⟩ :=
    found
  rw [← canonical_outPoint bytes prevout middle head,
    ← canonical_scriptBytes middle scriptSig _ script]
  simp only [CTxIn.write, word_toNat nSequence fits, List.append_assoc]

theorem canonical_output : Canonical CTxOut.read CTxOut.write := by
  intro bytes txout rest found
  simp only [CTxOut.read, run_bind, run_pure] at found
  obtain ⟨nValue, middle, head, scriptPubKey, after, script, rfl, rfl⟩ := found
  rw [← canonical_signed 8 bytes nValue middle head,
    ← canonical_scriptBytes middle scriptPubKey _ script]
  simp only [CTxOut.write, List.append_assoc]

theorem canonical_transaction : Canonical CTransaction.read CTransaction.write := by
  intro bytes tx rest found
  simp only [CTransaction.read, readElements_eq _ 72 (by decide : 0 < 5000000 / 72),
    readElements_eq _ 32 (by decide : 0 < 5000000 / 32), run_bind, run_fixed, run_pure] at found
  obtain ⟨nVersion, afterVersion, version, vin, afterVin, inputs, vout, afterVout, outputs,
    nLockTime, last, ⟨fits, rfl⟩, rfl, rfl⟩ := found
  rw [← canonical_signed 4 bytes nVersion afterVersion version,
    ← (canonical_vector _ _ canonical_input vin afterVersion afterVin inputs).2,
    ← (canonical_vector _ _ canonical_output vout afterVin _ outputs).2]
  simp only [CTransaction.write, word_toNat nLockTime fits, List.append_assoc]

theorem canonical_header : Canonical CBlockHeader.read CBlockHeader.write := by
  intro bytes header rest found
  simp only [CBlockHeader.read, run_bind, run_uint256, run_fixed, run_pure] at found
  obtain ⟨nVersion, _, ⟨version, rfl⟩, hashPrevBlock, _, rfl, hashMerkleRoot, _, rfl,
    nTime, _, ⟨time, rfl⟩, nBits, _, ⟨bits, rfl⟩, nNonce, _, ⟨nonce, rfl⟩,
    nStartLocation, _, ⟨location, rfl⟩, nFinalCalculation, _, ⟨calculation, rfl⟩, rfl, rfl⟩ := found
  simp only [CBlockHeader.write, word_toNat _ version, word_toNat _ time, word_toNat _ bits,
    word_toNat _ nonce, word_toNat _ location, word_toNat _ calculation, List.append_assoc]

theorem canonical_block : Canonical CBlock.read CBlock.write := by
  intro bytes block rest found
  simp only [CBlock.read, readElements_eq _ 96 (by decide : 0 < 5000000 / 96), run_bind,
    run_pure] at found
  obtain ⟨header, middle, head, vtx, after, transactions, rfl, rfl⟩ := found
  rw [← canonical_header bytes header middle head,
    ← (canonical_vector _ _ canonical_transaction vtx middle _ transactions).2]
  simp only [CBlock.write, List.append_assoc]

/-! ## Sizes -/

theorem compactSize_length (nSize : Nat) :
    (writeCompactSize nSize).length = sizeOfCompactSize nSize := by
  rw [writeCompactSize, sizeOfCompactSize]
  split_ifs <;> simp only [List.length_cons, List.length_nil, writeLE_length]

theorem flatMap_length {α : Type} (write : α → Bytes) (size : α → Nat) (v : List α)
    (single : ∀ a, (write a).length = size a) :
    (v.flatMap write).length = (v.map size).sum := by
  rw [List.length_flatMap]
  congr 1
  exact List.map_congr_left fun a _ => single a

theorem vector_length {α : Type} (write : α → Bytes) (size : α → Nat) (v : List α)
    (single : ∀ a, (write a).length = size a) :
    (writeVector write v).length = sizeOfCompactSize v.length + (v.map size).sum := by
  rw [writeVector, List.length_append, compactSize_length, flatMap_length write size v single]

theorem script_length (script : CScript) :
    (writeScriptBytes script).length = scriptSerializeSize script := by
  rw [writeScriptBytes, List.length_append, compactSize_length, scriptSerializeSize]

theorem input_length (txin : CTxIn) : txin.write.length = txin.serializeSize := by
  simp only [CTxIn.write, COutPoint.write, List.length_append, writeLE_length, script_length,
    CTxIn.serializeSize]

theorem output_length (txout : CTxOut) : txout.write.length = txout.serializeSize := by
  simp only [CTxOut.write, writeSigned, List.length_append, writeLE_length, script_length,
    CTxOut.serializeSize]

theorem transaction_length (tx : CTransaction) : tx.write.length = tx.serializeSize := by
  simp only [CTransaction.write, writeSigned, List.length_append, writeLE_length,
    vector_length _ _ _ input_length, vector_length _ _ _ output_length, CTransaction.serializeSize]

theorem block_length (block : CBlock) : block.write.length = block.serializeSize := by
  simp only [CBlock.write, CBlockHeader.write, writeUint256, List.length_append, writeLE_length,
    vector_length _ _ _ transaction_length, CBlock.serializeSize]

/-! ## What can be read at all -/

theorem sized_scriptBytes (bytes rest : Bytes) (script : CScript)
    (found : readScriptBytes.run bytes = some (script, rest)) : script.length ≤ maxSize := by
  rw [readScriptBytes_eq] at found
  simp only [run_bind, run_take] at found
  obtain ⟨nSize, middle, sized, rfl, -⟩ := found
  exact (canonical_compactSize script.length bytes middle sized).1

theorem sized_input (bytes rest : Bytes) (txin : CTxIn)
    (found : CTxIn.read.run bytes = some (txin, rest)) : txin.scriptSig.length ≤ maxSize := by
  simp only [CTxIn.read, run_bind, run_pure] at found
  obtain ⟨prevout, middle, -, scriptSig, after, script, nSequence, last, -, rfl, -⟩ := found
  exact sized_scriptBytes middle after scriptSig script

theorem sized_output (bytes rest : Bytes) (txout : CTxOut)
    (found : CTxOut.read.run bytes = some (txout, rest)) :
    txout.scriptPubKey.length ≤ maxSize := by
  simp only [CTxOut.read, run_bind, run_pure] at found
  obtain ⟨nValue, middle, -, scriptPubKey, after, script, rfl, -⟩ := found
  exact sized_scriptBytes middle after scriptPubKey script

theorem sized_transaction (bytes rest : Bytes) (tx : CTransaction)
    (found : CTransaction.read.run bytes = some (tx, rest)) : tx.Sized := by
  simp only [CTransaction.read, readElements_eq _ 72 (by decide : 0 < 5000000 / 72),
    readElements_eq _ 32 (by decide : 0 < 5000000 / 32), run_bind, run_pure] at found
  obtain ⟨nVersion, afterVersion, -, vin, afterVin, inputs, vout, afterVout, outputs,
    nLockTime, last, -, rfl, -⟩ := found
  exact {
    vin := (canonical_vector _ _ canonical_input vin afterVersion afterVin inputs).1
    vout := (canonical_vector _ _ canonical_output vout afterVin afterVout outputs).1
    inputs := all_vector _ _ sized_input vin afterVersion afterVin inputs
    outputs := all_vector _ _ sized_output vout afterVin afterVout outputs }

theorem sized_block (bytes rest : Bytes) (block : CBlock)
    (found : CBlock.read.run bytes = some (block, rest)) : block.Sized := by
  simp only [CBlock.read, readElements_eq _ 96 (by decide : 0 < 5000000 / 96), run_bind,
    run_pure] at found
  obtain ⟨header, middle, -, vtx, after, transactions, rfl, -⟩ := found
  exact ⟨(canonical_vector _ _ canonical_transaction vtx middle after transactions).1,
    all_vector _ _ sized_transaction vtx middle after transactions⟩

/-! ## The wire format -/

/-- The free function `GetSerializeSize` returns an `unsigned int`. -/
def getSerializeSize (size : Nat) : BitVec 32 := BitVec.ofNat 32 size

theorem wire_canonical :
    (∀ tx : CTransaction, tx.Typed →
      ((∀ rest, CTransaction.read.run (tx.write ++ rest) = some (tx, rest)) ↔ tx.Sized)) ∧
    (∀ block : CBlock, block.Typed →
      ((∀ rest, CBlock.read.run (block.write ++ rest) = some (block, rest)) ↔ block.Sized)) ∧
    (∀ bytes tx rest, CTransaction.read.run bytes = some (tx, rest) → tx.write ++ rest = bytes) ∧
    (∀ bytes block rest, CBlock.read.run bytes = some (block, rest) →
      block.write ++ rest = bytes) ∧
    (∀ tx : CTransaction, tx.serializeSize = tx.write.length ∧
      (getSerializeSize tx.serializeSize).toNat = tx.write.length % 2 ^ 32) ∧
    (∀ block : CBlock, block.serializeSize = block.write.length ∧
      (getSerializeSize block.serializeSize).toNat = block.write.length % 2 ^ 32) := by
  refine ⟨?_, ?_, canonical_transaction, canonical_block, ?_, ?_⟩
  · intro tx typed
    constructor
    · intro roundTrip
      exact sized_transaction _ [] tx (roundTrip [])
    · exact reads_transaction tx typed
  · intro block typed
    constructor
    · intro roundTrip
      exact sized_block _ [] block (roundTrip [])
    · exact reads_block block typed
  · intro tx
    have size := transaction_length tx
    exact ⟨size.symm, by rw [size]; exact BitVec.toNat_ofNat _ _⟩
  · intro block
    have size := block_length block
    exact ⟨size.symm, by rw [size]; exact BitVec.toNat_ofNat _ _⟩

/-- A transaction whose only output has a script longer than `ReadCompactSize` takes. -/
def hugeScript : CTransaction := ⟨1, [], [⟨0, List.replicate (maxSize + 1) 0⟩], 0⟩

theorem hugeScript_typed : hugeScript.Typed := by
  constructor
  · exact ⟨by decide, by decide⟩
  · intro txout member
    rw [List.eq_of_mem_singleton member]
    exact ⟨by show (-2 ^ 63 : Int) ≤ 0; decide, by show (0 : Int) < 2 ^ 63; decide⟩

theorem hugeScript_oversized : ¬ hugeScript.Sized := by
  intro sized
  have small := sized.outputs _ (List.mem_singleton_self _)
  rw [List.length_replicate] at small
  omega

theorem hugeScript_unreadable : ¬ (∀ tx : CTransaction, tx.Typed →
    ∀ rest, CTransaction.read.run (tx.write ++ rest) = some (tx, rest)) := by
  intro claimed
  exact hugeScript_oversized
    (sized_transaction _ [] hugeScript (claimed hugeScript hugeScript_typed []))

def plainTransaction : CTransaction := ⟨1, [], [⟨5, [0x51]⟩], 0⟩

def plainBytes : Bytes := [1, 0, 0, 0, 0, 1, 5, 0, 0, 0, 0, 0, 0, 0, 1, 0x51, 0, 0, 0, 0]

def plainBlock : CBlock := ⟨⟨4, 1, 2, 3, 4, 5, 6, 7⟩, [plainTransaction]⟩

theorem plainTransaction_typed : plainTransaction.Typed := ⟨by decide, by decide⟩

theorem plainTransaction_sized : plainTransaction.Sized :=
  ⟨by decide, by decide, by decide, by decide⟩

theorem wire_canonical_plain :
    (∀ rest, CTransaction.read.run (plainTransaction.write ++ rest) =
      some (plainTransaction, rest)) ∧
    (∀ rest, CBlock.read.run (plainBlock.write ++ rest) = some (plainBlock, rest)) ∧
    plainTransaction.write ++ [] = plainBytes ∧
    plainBlock.write ++ [7] = plainBlock.header.write ++ 1 :: plainBytes ++ [7] := by
  have typed : plainBlock.Typed := List.forall_mem_singleton.mpr plainTransaction_typed
  have sized : plainBlock.Sized :=
    ⟨by decide, List.forall_mem_singleton.mpr plainTransaction_sized⟩
  have read : CTransaction.read.run plainBytes = some (plainTransaction, []) := by
    decide +kernel
  have read_block : CBlock.read.run (plainBlock.header.write ++ 1 :: plainBytes ++ [7]) =
      some (plainBlock, [7]) := by
    decide +kernel
  exact ⟨(wire_canonical.1 plainTransaction plainTransaction_typed).mpr plainTransaction_sized,
    (wire_canonical.2.1 plainBlock typed).mpr sized,
    wire_canonical.2.2.1 plainBytes plainTransaction [] read,
    wire_canonical.2.2.2.1 _ plainBlock [7] read_block⟩

end RoiCoin
