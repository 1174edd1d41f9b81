/-
Blocks, execution contexts and outcomes (`node/domain`, `node/executor`,
`storage/qmdb/src/root.rs`).

Hash functions and the block executor are gathered in a `Platform`: the executor is a
function of the state it reads, the context and the transactions, and nothing below looks
inside it. The bytes behind a code hash are determined by the hash, so it reads nonce,
balance, code hash and storage of an account (`StateView`).
-/
import Kora.Envelope
import Kora.Overlay

open Std

namespace Kora

/-- The largest `u64`, where the saturating additions of the source stop. -/
def U64_MAX : ℕ := 2 ^ 64 - 1

/-! ### Transactions and blocks -/

structure Tx where
  bytes : Bytes
deriving DecidableEq

abbrev Digest := BitVec 256

/-- Block type agreed on by consensus via its digest. -/
structure Block where
  parentId : B256
  height : ℕ
  /-- Unix timestamp, in seconds. -/
  timestamp : ℕ
  prevrandao : B256
  stateRoot : B256
  txs : List Tx
deriving DecidableEq

/-- The timestamp of a block that is built now on a parent; it does not go backwards. -/
def Block.nextTimestamp (nowSecs parentTimestamp : ℕ) : Option ℕ :=
  if parentTimestamp < nowSecs then some nowSecs else some parentTimestamp

theorem Block.nextTimestamp_eq (nowSecs parentTimestamp : ℕ) :
    nextTimestamp nowSecs parentTimestamp = some (max nowSecs parentTimestamp) := by
  rw [nextTimestamp]
  split
  · rw [max_eq_left (by omega)]
  · rw [max_eq_right (by omega)]

/-! ### Contexts -/

structure Header where
  number : ℕ
  timestamp : ℕ
  gasLimit : ℕ
  beneficiary : Address
  baseFeePerGas : Option ℕ
deriving DecidableEq

structure BlockContext where
  header : Header
  parentHash : B256
  prevrandao : B256
  blobBaseFee : Option ℕ
  /-- Recent block hashes by block number, for the BLOCKHASH opcode. -/
  recentBlockHashes : ExtTreeMap ℕ B256
deriving DecidableEq

namespace BlockContext

def MAX_BLOCK_HASHES : ℕ := 256

def new (header : Header) (parentHash prevrandao : B256) : BlockContext :=
  { header, parentHash, prevrandao, blobBaseFee := none, recentBlockHashes := ∅ }

/-- Set the recent hashes, 256 at most. The source keeps an arbitrary selection of more; here the
smallest numbers. -/
def withRecentBlockHashes (self : BlockContext) (hashes : ExtTreeMap ℕ B256) : BlockContext :=
  { self with
    recentBlockHashes :=
      if hashes.size > MAX_BLOCK_HASHES then
        ExtTreeMap.ofList (hashes.toList.take MAX_BLOCK_HASHES)
      else hashes }

/-- The hash the database adapter gives the EVM for a block number. -/
def blockHashRef (self : BlockContext) (number : ℕ) : B256 :=
  (self.recentBlockHashes[number]?).getD 0

/-- Everything execution can read of a context: BLOCKHASH asks for the previous 256 numbers only. -/
structure View where
  number : ℕ
  timestamp : ℕ
  gasLimit : ℕ
  beneficiary : Address
  baseFee : ℕ
  prevrandao : B256
  blobBaseFee : Option ℕ
  blockHash : ℕ → B256

def view (self : BlockContext) : View where
  number := self.header.number
  timestamp := self.header.timestamp
  gasLimit := self.header.gasLimit
  beneficiary := self.header.beneficiary
  baseFee := self.header.baseFeePerGas.getD 0
  prevrandao := self.prevrandao
  blobBaseFee := self.blobBaseFee
  blockHash n :=
    if n < self.header.number ∧ self.header.number ≤ n + 256 then self.blockHashRef n else 0

end BlockContext

/-! ### Outcomes -/

structure Log where
  address : Address
  topics : List B256
  data : Bytes
deriving DecidableEq

structure ExecutionReceipt where
  txHash : B256
  success : Bool
  gasUsed : ℕ
  cumulativeGasUsed : ℕ
  logs : List Log
  contractAddress : Option Address
deriving DecidableEq

structure ExecutionOutcome where
  changes : ChangeSet
  receipts : List ExecutionReceipt
  gasUsed : ℕ
  selfdestructedAddresses : List Address
deriving DecidableEq

/-- The state as the executor reads it, address by address. -/
abbrev StateView := Address → AccountReads

abbrev Bloom := BitVec 2048

def EMPTY_ROOT_HASH : B256 := 0x56e81f171bcc55a6ff8345e692c0f86e5b48e01b996cadc001622fb5e363b421

/-- A receipt as a header commits to it. -/
structure ReceiptEnvelope where
  txType : TxType
  status : Bool
  cumulativeGasUsed : ℕ
  logs : List Log
  logsBloom : Bloom
deriving DecidableEq

/-- What indexing takes from the library: envelopes and their signers, tries' roots, and log
filters. -/
structure AlloyConsensus where
  decode2718 : Bytes → Option TxEnvelope
  recoverSigner : TxEnvelope → Option Address
  calculateTransactionRoot : List TxEnvelope → B256
  calculateReceiptRoot : List ReceiptEnvelope → B256
  logsBloom : List Log → Bloom

/-- One that decodes nothing. -/
instance : Inhabited AlloyConsensus := ⟨fun _ => none, fun _ => none, fun _ => 0, fun _ => 0,
  fun _ => 0⟩

/-- What the node's logic takes from outside: hash functions, formats, and the block executor, which
sees the state and the context only through what can be read of them. -/
structure Platform where
  keccak256 : Bytes → B256
  sha256 : B256 → Digest
  /-- `keccak256` of the encoded block. -/
  blockId : Block → B256
  /-- `keccak256` of the encoded transaction. -/
  txId : Tx → B256
  consensus : AlloyConsensus
  execute : StateView → BlockContext.View → List Bytes → Except String ExecutionOutcome

namespace Platform

variable (P : Platform)

def commitment (block : Block) : Digest := P.sha256 (P.blockId block)

def parent (block : Block) : Digest := P.sha256 block.parentId

def executeBlock (state : StateView) (context : BlockContext) (txs : List Tx) :
    Except String ExecutionOutcome :=
  P.execute state context.view (txs.map (·.bytes))

end Platform

/-! ### Consensus roots -/

namespace StateRoot

/-- The text `_KORA_STATE_TRANSITION_ROOT`. -/
def TRANSITION_ROOT_NAMESPACE : Bytes :=
  [0x5f, 0x4b, 0x4f, 0x52, 0x41, 0x5f, 0x53, 0x54, 0x41, 0x54, 0x45, 0x5f, 0x54, 0x52, 0x41,
    0x4e, 0x53, 0x49, 0x54, 0x49, 0x4f, 0x4e, 0x5f, 0x52, 0x4f, 0x4f, 0x54]

def flagByte (b : Bool) : UInt8 := if b then 1 else 0

def codeBytes : Option Bytes → Bytes
  | some code => 1 :: BigEndian.digits 8 code.length ++ code
  | none => [0]

def slotBytes (entry : U256 × U256) : Bytes :=
  BigEndian.toBytes 32 entry.1 ++ BigEndian.toBytes 32 entry.2

def updateBytes (entry : Address × AccountUpdate) : Bytes :=
  let (address, update) := entry
  BigEndian.toBytes 20 address ++ [flagByte update.created, flagByte update.selfdestructed] ++
    BigEndian.toBytes 8 update.nonce ++ BigEndian.toBytes 32 update.balance ++
    BigEndian.toBytes 32 update.codeHash ++ codeBytes update.code ++
    BigEndian.digits 8 update.storage.size ++ update.storage.toList.flatMap slotBytes

/-- The deterministic consensus root of a state transition. -/
def transition (keccak256 : Bytes → B256) (parentRoot : B256) (changes : ChangeSet) : B256 :=
  if changes.isEmpty then parentRoot
  else keccak256 (TRANSITION_ROOT_NAMESPACE ++ BigEndian.toBytes 32 parentRoot ++
    BigEndian.digits 8 changes.accounts.size ++ changes.accounts.toList.flatMap updateBytes)

end StateRoot

/-! ### Base fee -/

structure BaseFeeParams where
  elasticityMultiplier : ℕ
  maxChangeDenominator : ℕ

def BaseFeeParams.DEFAULT : BaseFeeParams := ⟨2, 8⟩

def INITIAL_BASE_FEE : ℕ := 1000000000

/-- The change of the base fee, as `u128` with a saturating product. -/
def baseFeeDelta (parentBaseFee gasUsedDelta parentGasTarget denominator : ℕ) : ℕ :=
  min (parentBaseFee * gasUsedDelta) (2 ^ 128 - 1) / parentGasTarget / denominator

/-- The base fee of the next block (EIP-1559). No configured gas limit has the gas target zero, by
which the source would divide. -/
def calculateBaseFee (parentBaseFee parentGasUsed parentGasLimit : ℕ) (params : BaseFeeParams) :
    ℕ :=
  let parentGasTarget := parentGasLimit / params.elasticityMultiplier
  if parentGasUsed = parentGasTarget then parentBaseFee
  else if parentGasUsed > parentGasTarget then
    let delta := baseFeeDelta parentBaseFee (parentGasUsed - parentGasTarget) parentGasTarget
      params.maxChangeDenominator
    min (parentBaseFee + max delta 1 % 2 ^ 64) (2 ^ 64 - 1)
  else
    let delta := baseFeeDelta parentBaseFee (parentGasTarget - parentGasUsed) parentGasTarget
      params.maxChangeDenominator
    parentBaseFee - delta % 2 ^ 64

end Kora
