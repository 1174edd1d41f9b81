/-
The block index and the finalizer's block contexts (`storage/indexer/src/store.rs`,
`node/runner/src/runner.rs`).

The index keeps blocks by hash, hashes by number, transactions and receipts by transaction
hash, and logs by block hash. The context of a finalized block takes the base fee and the
previous hashes from it (`RevmContextProvider.context`).
-/
import Kora.Block
import Mathlib.Data.List.Sort

open Std ExtTreeMap

namespace Kora

open OrderedMap

/-! ### What is indexed -/

structure IndexedBlock where
  hash : B256
  number : ℕ
  parentHash : B256
  stateRoot : B256
  transactionsRoot : B256
  receiptsRoot : B256
  timestamp : ℕ
  gasLimit : ℕ
  gasUsed : ℕ
  baseFeePerGas : Option ℕ
  mixHash : B256
  logsBloom : Bloom
  /-- Header overhead and raw transaction sizes, in bytes. -/
  size : ℕ
  transactionHashes : List B256
deriving DecidableEq

/-- What the index keeps of a transaction's envelope. -/
structure TxMetadata where
  sender : Address
  recipient : Option Address
  value : U256
  gasLimit : U64
  gasPrice : U128
  txType : TxType
  chainId : Option U64
  maxFeePerGas : Option U128
  maxPriorityFeePerGas : Option U128
  v : U128
  r : U256
  s : U256
  input : Bytes
  nonce : U64
deriving DecidableEq

structure IndexedTransaction extends TxMetadata where
  hash : B256
  blockHash : B256
  blockNumber : ℕ
  /-- The position of the transaction in its block. -/
  index : ℕ
deriving DecidableEq

structure IndexedLog where
  address : Address
  topics : List B256
  data : Bytes
  /-- The position of the log in its block. -/
  logIndex : ℕ
  blockNumber : ℕ
  blockHash : B256
  transactionHash : B256
  transactionIndex : ℕ
deriving DecidableEq

structure IndexedReceipt where
  transactionHash : B256
  blockHash : B256
  blockNumber : ℕ
  transactionIndex : ℕ
  sender : Address
  recipient : Option Address
  cumulativeGasUsed : ℕ
  gasUsed : ℕ
  contractAddress : Option Address
  logs : List IndexedLog
  logsBloom : Bloom
  txType : TxType
  effectiveGasPrice : ℕ
  status : Bool
deriving DecidableEq

/-- The index entry of a block that is entered under a context without its execution. -/
def IndexedBlock.ofRecovered (P : Platform) (block : Block) (context : BlockContext)
    (gasUsed : ℕ) : IndexedBlock :=
  { hash := P.blockId block, number := block.height, parentHash := block.parentId
    stateRoot := block.stateRoot, transactionsRoot := EMPTY_ROOT_HASH
    receiptsRoot := EMPTY_ROOT_HASH, timestamp := block.timestamp
    gasLimit := context.header.gasLimit, gasUsed
    baseFeePerGas := context.header.baseFeePerGas, mixHash := block.prevrandao, logsBloom := 0
    size := 508 + (block.txs.map (·.bytes.length)).sum
    transactionHashes := block.txs.map fun tx => P.keccak256 tx.bytes }

def IndexedBlock.ofGenesis (P : Platform) (genesis : Block) (gasLimit : ℕ) : IndexedBlock :=
  { hash := P.blockId genesis, number := 0, parentHash := genesis.parentId
    stateRoot := genesis.stateRoot, transactionsRoot := EMPTY_ROOT_HASH
    receiptsRoot := EMPTY_ROOT_HASH, timestamp := genesis.timestamp, gasLimit, gasUsed := 0
    baseFeePerGas := some INITIAL_BASE_FEE, mixHash := genesis.prevrandao, logsBloom := 0
    size := 508, transactionHashes := [] }

/-- In-memory storage for indexed blocks, transactions, receipts and logs. -/
structure BlockIndex where
  blocksByHash : ExtTreeMap B256 IndexedBlock
  blocksByNumber : ExtTreeMap ℕ B256
  transactions : ExtTreeMap B256 IndexedTransaction
  receipts : ExtTreeMap B256 IndexedReceipt
  logsByBlock : ExtTreeMap B256 (List IndexedLog)
  headBlock : ℕ

namespace BlockIndex

def MAX_RETAINED_BLOCKS : ℕ := 10000

def new : BlockIndex := ⟨∅, ∅, ∅, ∅, ∅, 0⟩

def insertBlock (self : BlockIndex) (block : IndexedBlock) (txs : List IndexedTransaction)
    (receipts : List IndexedReceipt) : BlockIndex :=
  { blocksByHash := self.blocksByHash.insert block.hash block
    blocksByNumber := self.blocksByNumber.insert block.number block.hash
    transactions := txs.foldl (fun acc tx => acc.insert tx.hash tx) self.transactions
    receipts := receipts.foldl (fun acc receipt => acc.insert receipt.transactionHash receipt)
      self.receipts
    logsByBlock := self.logsByBlock.insert block.hash (receipts.flatMap (·.logs))
    headBlock := max self.headBlock block.number }

/-- Index the genesis block, which every node starts with. -/
def seedGenesisBlockIndex (P : Platform) (self : BlockIndex) (genesis : Block) (gasLimit : ℕ) :
    BlockIndex :=
  self.insertBlock (IndexedBlock.ofGenesis P genesis gasLimit) [] []

def entriesBefore (self : BlockIndex) (minBlockNumber : ℕ) : List (ℕ × B256) :=
  self.blocksByNumber.toList.filter fun entry => entry.1 < minBlockNumber

/-- The transaction hashes of the blocks below a block number. -/
def txHashesBefore (self : BlockIndex) (minBlockNumber : ℕ) : List B256 :=
  ((self.entriesBefore minBlockNumber).filterMap fun entry => self.blocksByHash[entry.2]?).flatMap
    (·.transactionHashes)

/-- Remove all entries for blocks below a block number. -/
def pruneBefore (self : BlockIndex) (minBlockNumber : ℕ) : BlockIndex :=
  { self with
    blocksByNumber := (self.entriesBefore minBlockNumber).foldl
      (fun byNumber entry => byNumber.erase entry.1) self.blocksByNumber
    blocksByHash := (self.entriesBefore minBlockNumber).foldl
      (fun byHash entry => byHash.erase entry.2) self.blocksByHash
    logsByBlock := (self.entriesBefore minBlockNumber).foldl
      (fun acc entry => acc.erase entry.2) self.logsByBlock
    transactions := (self.txHashesBefore minBlockNumber).foldl
      (fun acc hash => acc.erase hash) self.transactions
    receipts := (self.txHashesBefore minBlockNumber).foldl
      (fun acc hash => acc.erase hash) self.receipts }

def getBlockByHash (self : BlockIndex) (hash : B256) : Option IndexedBlock :=
  self.blocksByHash[hash]?

def getBlockByNumber (self : BlockIndex) (number : ℕ) : Option IndexedBlock :=
  match self.blocksByNumber[number]? with
  | none => none
  | some hash => self.blocksByHash[hash]?

def getTransaction (self : BlockIndex) (hash : B256) : Option IndexedTransaction :=
  self.transactions[hash]?

def getTransactionsForBlock (self : BlockIndex) (blockHash : B256) : List IndexedTransaction :=
  (self.transactions.values.filter fun tx => tx.blockHash = blockHash).insertionSort
    fun tx tx' => tx.index ≤ tx'.index

def getReceipt (self : BlockIndex) (hash : B256) : Option IndexedReceipt :=
  self.receipts[hash]?

/-- Up to 256 recent block hashes by number, looking backwards from `head` (exclusive). -/
def recentBlockHashes (self : BlockIndex) (head : ℕ) : ExtTreeMap ℕ B256 :=
  let depth := min head 256
  OrderedMap.gather (fun num => self.blocksByNumber[num]?) (List.range' (head - depth) depth) ∅

/-! ### The index after an insertion and after pruning -/

section Insertion

variable (self : BlockIndex) (block : IndexedBlock) (txs : List IndexedTransaction)
  (receipts : List IndexedReceipt)

theorem blocksByHash_insertBlock (hash : B256) :
    (self.insertBlock block txs receipts).blocksByHash[hash]? =
      if block.hash = hash then some block else self.blocksByHash[hash]? := by
  rw [insertBlock, ExtTreeMap.getElem?_insert]
  simp only [LawfulEqCmp.compare_eq_iff_eq]

theorem blocksByNumber_insertBlock (number : ℕ) :
    (self.insertBlock block txs receipts).blocksByNumber[number]? =
      if block.number = number then some block.hash else self.blocksByNumber[number]? := by
  rw [insertBlock, ExtTreeMap.getElem?_insert]
  simp only [LawfulEqCmp.compare_eq_iff_eq]

theorem logsByBlock_insertBlock (hash : B256) :
    (self.insertBlock block txs receipts).logsByBlock[hash]? =
      if block.hash = hash then some (receipts.flatMap (·.logs))
      else self.logsByBlock[hash]? := by
  rw [insertBlock, ExtTreeMap.getElem?_insert]
  simp only [LawfulEqCmp.compare_eq_iff_eq]

variable {self block txs receipts} {hash : B256}

theorem transactions_insertBlock {tx : IndexedTransaction}
    (h : (self.insertBlock block txs receipts).transactions[hash]? = some tx) :
    lastOf (·.hash) txs hash = some tx ∨ self.transactions[hash]? = some tx := by
  rw [insertBlock, getElem?_foldl_insert, Option.or_eq_some_iff] at h
  exact h.imp_right And.right

theorem receipts_insertBlock {receipt : IndexedReceipt}
    (h : (self.insertBlock block txs receipts).receipts[hash]? = some receipt) :
    lastOf (·.transactionHash) receipts hash = some receipt ∨
      self.receipts[hash]? = some receipt := by
  rw [insertBlock, getElem?_foldl_insert, Option.or_eq_some_iff] at h
  exact h.imp_right And.right

end Insertion

variable {self : BlockIndex} {block : IndexedBlock} {txs : List IndexedTransaction}
  {receipts : List IndexedReceipt}

theorem insertBlock_of_known (hhs : self.blocksByHash[block.hash]? = some block)
    (hnm : self.blocksByNumber[block.number]? = some block.hash)
    (hhd : block.number ≤ self.headBlock)
    (htx : ∀ tx ∈ txs, self.transactions[tx.hash]? = lastOf (·.hash) txs tx.hash)
    (hr : ∀ r ∈ receipts, self.receipts[r.transactionHash]? =
      lastOf (·.transactionHash) receipts r.transactionHash)
    (hl : self.logsByBlock[block.hash]? = some (receipts.flatMap (·.logs))) :
    self.insertBlock block txs receipts = self := by
  rw [insertBlock, insert_of_getElem? hhs, insert_of_getElem? hnm, insert_of_getElem? hl,
    max_eq_left hhd, foldl_insert_of_lastOf _ htx, foldl_insert_of_lastOf _ hr]

variable {minBlockNumber : ℕ}

theorem pruneBefore_of_none (h : ∀ number < minBlockNumber, self.blocksByNumber[number]? = none) :
    self.pruneBefore minBlockNumber = self := by
  have hnone : self.entriesBefore minBlockNumber = [] := by
    rw [entriesBefore, List.filter_eq_nil_iff]
    intro entry he hlt
    rw [mem_toList_iff_getElem?_eq_some, h entry.1 (of_decide_eq_true hlt)] at he
    cases he
  rw [pruneBefore, txHashesBefore, hnone]
  rfl

theorem getElem?_blocksByNumber_pruneBefore (self : BlockIndex) (minBlockNumber number : ℕ) :
    (self.pruneBefore minBlockNumber).blocksByNumber[number]? =
      if number < minBlockNumber then none else self.blocksByNumber[number]? := by
  rw [pruneBefore, getElem?_foldl_erase Prod.fst]
  have hmem : number ∈ (self.entriesBefore minBlockNumber).map Prod.fst ↔
      number < minBlockNumber ∧ (self.blocksByNumber[number]?).isSome := by
    rw [entriesBefore, List.mem_map]
    constructor
    · rintro ⟨⟨n, hash⟩, he, rfl⟩
      obtain ⟨hl, hlt⟩ := List.mem_filter.1 he
      rw [mem_toList_iff_getElem?_eq_some] at hl
      exact ⟨of_decide_eq_true hlt, by rw [hl]; rfl⟩
    · rintro ⟨hlt, hsome⟩
      obtain ⟨hash, hh⟩ := Option.isSome_iff_exists.1 hsome
      refine ⟨(number, hash), List.mem_filter.2 ⟨?_, decide_eq_true hlt⟩, rfl⟩
      exact mem_toList_iff_getElem?_eq_some.2 hh
  by_cases hlt : number < minBlockNumber
  · rw [if_pos hlt]
    by_cases hsome : (self.blocksByNumber[number]?).isSome
    · rw [if_pos (hmem.2 ⟨hlt, hsome⟩)]
    · rw [if_neg fun h => hsome (hmem.1 h).2]
      simpa using hsome
  · rw [if_neg hlt, if_neg fun h => hlt (hmem.1 h).1]

variable {hash : B256}

theorem pruneBefore_of_forall
    (h : ∀ number < minBlockNumber, self.blocksByNumber[number]? ≠ some hash) :
    (self.pruneBefore minBlockNumber).blocksByHash[hash]? = self.blocksByHash[hash]? ∧
      (self.pruneBefore minBlockNumber).logsByBlock[hash]? = self.logsByBlock[hash]? := by
  have hnot : hash ∉ (self.entriesBefore minBlockNumber).map Prod.snd := by
    intro hmem
    obtain ⟨⟨number, hash'⟩, he, rfl⟩ := List.mem_map.1 hmem
    obtain ⟨hl, hlt⟩ := List.mem_filter.1 he
    rw [mem_toList_iff_getElem?_eq_some] at hl
    exact h number (of_decide_eq_true hlt) hl
  rw [pruneBefore, getElem?_foldl_erase Prod.snd, getElem?_foldl_erase Prod.snd, if_neg hnot,
    if_neg hnot]
  exact ⟨rfl, rfl⟩

theorem transactions_pruneBefore {tx : IndexedTransaction}
    (h : (self.pruneBefore minBlockNumber).transactions[hash]? = some tx) :
    self.transactions[hash]? = some tx := by
  rw [pruneBefore, getElem?_foldl_erase fun hash => hash] at h
  split at h
  · cases h
  · exact h

theorem receipts_pruneBefore {receipt : IndexedReceipt}
    (h : (self.pruneBefore minBlockNumber).receipts[hash]? = some receipt) :
    self.receipts[hash]? = some receipt := by
  rw [pruneBefore, getElem?_foldl_erase fun hash => hash] at h
  split at h
  · cases h
  · exact h

theorem blocksByHash_pruneBefore
    (h : (self.pruneBefore minBlockNumber).blocksByHash[hash]? = some block) :
    self.blocksByHash[hash]? = some block := by
  rw [pruneBefore, getElem?_foldl_erase Prod.snd] at h
  split at h
  · cases h
  · exact h

theorem blocksByNumber_pruneBefore {number : ℕ}
    (h : (self.pruneBefore minBlockNumber).blocksByNumber[number]? = some hash) :
    self.blocksByNumber[number]? = some hash := by
  rw [getElem?_blocksByNumber_pruneBefore] at h
  split at h
  · cases h
  · exact h

/-! ### The window of the BLOCKHASH opcode -/

theorem getElem?_recentBlockHashes (self : BlockIndex) (head number : ℕ) :
    (self.recentBlockHashes head)[number]? =
      if number < head ∧ head ≤ number + 256 then self.blocksByNumber[number]? else none := by
  rw [recentBlockHashes, getElem?_gather]
  have hmem : number ∈ List.range' (head - min head 256) (min head 256) ↔
      number < head ∧ head ≤ number + 256 := by
    rw [List.mem_range'_1]
    omega
  simp only [hmem]
  split <;> simp

theorem size_recentBlockHashes_le (self : BlockIndex) (head : ℕ) :
    (self.recentBlockHashes head).size ≤ BlockContext.MAX_BLOCK_HASHES := by
  have h := size_gather_le (fun num => self.blocksByNumber[num]?)
    (List.range' (head - min head 256) (min head 256)) (∅ : ExtTreeMap ℕ B256)
  rw [size_empty, List.length_range'] at h
  have hmax : BlockContext.MAX_BLOCK_HASHES = 256 := rfl
  rw [recentBlockHashes, hmax]
  omega

end BlockIndex

/-! ### Contexts of the finalizer -/

/-- The provider of the contexts under which finalized blocks are executed. -/
structure RevmContextProvider where
  gasLimit : ℕ
  feeRecipient : Address

namespace RevmContextProvider

/-- The base fee of a block at some height, from the parent in the index. -/
def baseFee (index : BlockIndex) (height : ℕ) : ℕ :=
  if height = 0 then INITIAL_BASE_FEE
  else match index.getBlockByNumber (height - 1) with
    | some parent =>
      calculateBaseFee (parent.baseFeePerGas.getD INITIAL_BASE_FEE) parent.gasUsed parent.gasLimit
        BaseFeeParams.DEFAULT
    | none => INITIAL_BASE_FEE

def context (self : RevmContextProvider) (index : BlockIndex) (block : Block) : BlockContext :=
  let header : Header :=
    { number := block.height, timestamp := block.timestamp, gasLimit := self.gasLimit,
      beneficiary := self.feeRecipient, baseFeePerGas := some (baseFee index block.height) }
  (BlockContext.new header 0 block.prevrandao).withRecentBlockHashes
    (index.recentBlockHashes block.height)

theorem recentBlockHashes_context (self : RevmContextProvider) (index : BlockIndex)
    (block : Block) :
    (self.context index block).recentBlockHashes = index.recentBlockHashes block.height := by
  have hs := index.size_recentBlockHashes_le block.height
  rw [context, BlockContext.withRecentBlockHashes, if_neg (by omega)]

theorem context_congr {self : RevmContextProvider} {index index' : BlockIndex} {block : Block}
    (hp : index'.getBlockByNumber (block.height - 1) =
      index.getBlockByNumber (block.height - 1))
    (hw : ∀ number, number < block.height → block.height ≤ number + 256 →
      index'.blocksByNumber[number]? = index.blocksByNumber[number]?) :
    self.context index' block = self.context index block := by
  have hfee : baseFee index' block.height = baseFee index block.height := by
    rw [baseFee, baseFee, hp]
  have hh : index'.recentBlockHashes block.height = index.recentBlockHashes block.height := by
    refine ext_getElem? fun number => ?_
    rw [BlockIndex.getElem?_recentBlockHashes, BlockIndex.getElem?_recentBlockHashes]
    split
    · next hin => exact hw number hin.1 hin.2
    · rfl
  rw [context, context, hfee, hh]

theorem blockHash_context (self : RevmContextProvider) (index : BlockIndex) (block : Block)
    (number : ℕ) :
    (self.context index block).view.blockHash number =
      if number < block.height ∧ block.height ≤ number + 256 then
        (index.blocksByNumber[number]?).getD 0
      else 0 := by
  show (if number < block.height ∧ block.height ≤ number + 256 then
    ((self.context index block).recentBlockHashes[number]?).getD 0 else 0) = _
  rw [recentBlockHashes_context, BlockIndex.getElem?_recentBlockHashes]
  split <;> rfl

end RevmContextProvider

end Kora
