/-
Finalization (`node/reporters/src/lib.rs`).

A finalized block is executed on its parent's snapshot, for its own snapshot if that is
missing and for the block index otherwise. If neither snapshot is there, the block is
restored as persisted over whatever the database holds. At a checkpoint its unpersisted
ancestors are committed.

* `ensureSnapshot_cases`, `finalizeBlock_ledger` — everything a finalization can do.
-/
import Kora.Ledger
import Kora.BlockIndex

open Std List

namespace Kora

open LedgerState

inductive FinalizationError where
  | executionFailed (message : String)
  | rootComputationFailed (error : ConsensusError)
  | stateRootMismatch (expected computed : B256)
  | persistFailed (error : ConsensusError)
deriving DecidableEq

/-! ### What is indexed of a block -/

section Indexing

variable (P : Platform)

/-- What the index keeps of a transaction, if it decodes and its signer is recovered. -/
def decodeTxMetadata (txBytes : Bytes) : Option TxMetadata :=
  match P.consensus.decode2718 txBytes with
  | none => none
  | some envelope =>
    match P.consensus.recoverSigner envelope with
    | none => none
    | some sender =>
      some
        { sender, recipient := envelope.recipient, value := envelope.value
          gasLimit := envelope.gasLimit, gasPrice := envelope.effectiveGasPrice
          txType := envelope.txType, chainId := envelope.chainId
          maxFeePerGas := envelope.maxFeePerGas
          maxPriorityFeePerGas := envelope.maxPriorityFeePerGas
          v := envelope.signatureV.setWidth 128
          r := envelope.signature.r, s := envelope.signature.s, input := envelope.input
          nonce := envelope.nonce }

/-- The price per gas that a receipt shows. -/
def receiptEffectiveGasPrice (metadata : TxMetadata) (baseFeePerGas : Option ℕ) : ℕ :=
  match metadata.maxFeePerGas with
  | none => metadata.gasPrice.toNat
  | some maxFeePerGas =>
    match baseFeePerGas with
    | none => maxFeePerGas.toNat
    | some baseFee =>
      let priorityFee := (metadata.maxPriorityFeePerGas.getD 0).toNat
      min maxFeePerGas.toNat (min (baseFee + priorityFee) (2 ^ 128 - 1))

/-- The transactions of a block that decode, with their positions. -/
def indexedTxs (block : Block) : List IndexedTransaction :=
  block.txs.zipIdx.filterMap fun (tx, idx) =>
    (decodeTxMetadata P tx.bytes).map fun metadata =>
      { metadata with
        hash := P.keccak256 tx.bytes, blockHash := P.blockId block, blockNumber := block.height
        index := idx }

/-- The logs of a receipt, numbered from `nextLogIndex` on. -/
def indexedLogs (block : Block) (receipt : ExecutionReceipt) (idx nextLogIndex : ℕ) :
    List IndexedLog :=
  (receipt.logs.zipIdx nextLogIndex).map fun (log, logIndex) =>
    { address := log.address, topics := log.topics, data := log.data, logIndex
      blockNumber := block.height, blockHash := P.blockId block
      transactionHash := receipt.txHash, transactionIndex := idx }

/-- The receipts from position `idx` on whose transactions decode. -/
def indexedReceipts (block : Block) (context : BlockContext) :
    ℕ → ℕ → List ExecutionReceipt → List IndexedReceipt
  | _, _, [] => []
  | idx, nextLogIndex, receipt :: receipts =>
    match block.txs[idx]?.bind fun tx => decodeTxMetadata P tx.bytes with
    | none => indexedReceipts block context (idx + 1) nextLogIndex receipts
    | some metadata =>
      { transactionHash := receipt.txHash, blockHash := P.blockId block
        blockNumber := block.height, transactionIndex := idx, sender := metadata.sender
        recipient := metadata.recipient, cumulativeGasUsed := receipt.cumulativeGasUsed
        gasUsed := receipt.gasUsed, contractAddress := receipt.contractAddress
        logs := indexedLogs P block receipt idx nextLogIndex
        logsBloom := P.consensus.logsBloom receipt.logs, txType := metadata.txType
        effectiveGasPrice :=
          receiptEffectiveGasPrice metadata context.header.baseFeePerGas
        status := receipt.success } ::
      indexedReceipts block context (idx + 1) (nextLogIndex + receipt.logs.length) receipts

/-- The receipts of a block as its header commits to them. -/
def receiptEnvelopes (block : Block) (receipts : List ExecutionReceipt) : List ReceiptEnvelope :=
  (receipts.zip (block.txs.map fun tx => decodeTxMetadata P tx.bytes)).filterMap
    fun (receipt, metadata) => metadata.map fun metadata =>
      ⟨metadata.txType, receipt.success, receipt.cumulativeGasUsed, receipt.logs,
        P.consensus.logsBloom receipt.logs⟩

/-- The index entry of a block executed under a context. -/
def IndexedBlock.ofBlock (block : Block) (context : BlockContext) (outcome : ExecutionOutcome) :
    IndexedBlock :=
  { IndexedBlock.ofRecovered P block context outcome.gasUsed with
    transactionsRoot := P.consensus.calculateTransactionRoot
      (block.txs.filterMap fun tx => P.consensus.decode2718 tx.bytes)
    receiptsRoot := P.consensus.calculateReceiptRoot (receiptEnvelopes P block outcome.receipts)
    logsBloom := (indexedReceipts P block context 0 0 outcome.receipts).foldl
      (fun bloom receipt => bloom ||| receipt.logsBloom) 0 }

def BlockIndex.indexFinalizedBlock (self : BlockIndex) (block : Block) (context : BlockContext)
    (outcome : ExecutionOutcome) : BlockIndex :=
  self.insertBlock (IndexedBlock.ofBlock P block context outcome) (indexedTxs P block)
    (indexedReceipts P block context 0 0 outcome.receipts)

/-! ### Whose entries they are -/

theorem map_filterMap_sublist {α β γ : Type*} {f : α → Option β} {g : β → γ} {h : α → γ}
    (l : List α) (hf : ∀ a b, f a = some b → g b = h a) :
    ((l.filterMap f).map g).Sublist (l.map h) := by
  induction l with
  | nil => exact List.Sublist.refl _
  | cons a l ih =>
    cases hfa : f a with
    | none =>
      rw [filterMap_cons_none hfa]
      exact ih.cons _
    | some b =>
      rw [filterMap_cons_some hfa, map_cons, map_cons, hf a b hfa]
      exact ih.cons_cons _

variable {P} {block : Block}

theorem mem_indexedTxs {tx : IndexedTransaction} (h : tx ∈ indexedTxs P block) :
    tx.blockHash = P.blockId block := by
  obtain ⟨⟨raw, idx⟩, -, hmap⟩ := mem_filterMap.1 h
  obtain ⟨metadata, -, rfl⟩ := Option.map_eq_some_iff.1 hmap
  rfl

theorem indexedTxs_hashes : ((indexedTxs P block).map (·.hash)).Sublist
    (block.txs.map fun tx => P.keccak256 tx.bytes) := by
  conv_rhs => rw [← zipIdx_map_fst 0 block.txs, map_map]
  refine map_filterMap_sublist _ ?_
  rintro ⟨raw, idx⟩ tx htx
  obtain ⟨metadata, -, rfl⟩ := Option.map_eq_some_iff.1 htx
  rfl

variable {context : BlockContext} {idx nextLogIndex : ℕ}

theorem mem_indexedReceipts {receipts : List ExecutionReceipt} {receipt : IndexedReceipt}
    (h : receipt ∈ indexedReceipts P block context idx nextLogIndex receipts) :
    receipt.blockHash = P.blockId block := by
  induction receipts generalizing idx nextLogIndex with
  | nil => cases h
  | cons first receipts ih =>
    rw [indexedReceipts] at h
    split at h
    · exact ih h
    · rcases mem_cons.1 h with rfl | hl
      · rfl
      · exact ih hl

theorem indexedReceipts_hashes {receipts : List ExecutionReceipt} :
    ((indexedReceipts P block context idx nextLogIndex receipts).map
      (·.transactionHash)).Sublist (receipts.map (·.txHash)) := by
  induction receipts generalizing idx nextLogIndex with
  | nil => exact List.Sublist.refl _
  | cons receipt receipts ih =>
    rw [indexedReceipts]
    split
    · exact ih.cons _
    · exact ih.cons_cons _

end Indexing

/-! ### The finalizer -/

/-- The execution of a finalized block, with the context it was executed under. -/
abbrev FinalizedExecution := Option (ExecutionOutcome × BlockContext)

namespace FinalizedReporter

variable (P : Platform)

/-- The first part of `finalizeBlock`: the block's snapshot, and its execution for the index
(`blockIndexed`). -/
def ensureSnapshot (ledger : LedgerState) (index : BlockIndex) (provider : RevmContextProvider)
    (blockIndexed : Bool) (block : Block) :
    LedgerState × Except FinalizationError FinalizedExecution :=
  let snapshotExists := (ledger.queryStateRoot (P.commitment block)).isSome
  if !snapshotExists || blockIndexed then
    let context := provider.context index block
    match ledger.executeOnParent P context block with
    | .error (.executionFailed message) => (ledger, .error (.executionFailed message))
    | .error (.rootComputationFailed e) => (ledger, .error (.rootComputationFailed e))
    | .error (.stateRootMismatch expected computed) =>
      (ledger, .error (.stateRootMismatch expected computed))
    | .error .missingParent =>
      if snapshotExists then (ledger, .ok none)
      else (ledger.restorePersistedSnapshot P block, .ok none)
    | .ok (parent, outcome) =>
      if snapshotExists then (ledger, .ok (some (outcome, context)))
      else (ledger.insertExecuted P block parent outcome.changes, .ok (some (outcome, context)))
  else (ledger, .ok none)

/-- One attempt at finalizing a block. -/
def finalizeBlock (ledger : LedgerState) (index : BlockIndex) (provider : RevmContextProvider)
    (blockIndexed : Bool) (block : Block) (persistCheckpoint : Bool) :
    LedgerState × Except FinalizationError FinalizedExecution :=
  match ensureSnapshot P ledger index provider blockIndexed block with
  | (ledger', .error e) => (ledger', .error e)
  | (ledger', .ok execution) =>
    if persistCheckpoint then
      match ledger'.persistSnapshot (P.commitment block) with
      | (ledger'', .ok _) => (ledger'', .ok execution)
      | (ledger'', .error e) => (ledger'', .error (.persistFailed e))
    else (ledger', .ok execution)

/-- Index a finalized block, and prune the index to its window. -/
def indexFinalizedBlock (index : BlockIndex) (block : Block) (context : BlockContext)
    (outcome : ExecutionOutcome) : BlockIndex :=
  let indexed := index.indexFinalizedBlock P block context outcome
  let minHeight := block.height - BlockIndex.MAX_RETAINED_BLOCKS
  if minHeight > 0 then indexed.pruneBefore minHeight else indexed

/-- Whether a height is a checkpoint. -/
def persistsCheckpoint (checkpointInterval height : ℕ) : Bool :=
  checkpointInterval ≤ 1 || height % checkpointInterval = 0

/-- Handle a finalized block, with a block index. An error aborts the process; the pool is pruned
besides. -/
def handleFinalizedUpdate (ledger : LedgerState) (index : BlockIndex)
    (provider : RevmContextProvider) (block : Block) (persistCheckpoint : Bool) :
    LedgerState × BlockIndex × Bool :=
  match finalizeBlock P ledger index provider true block persistCheckpoint with
  | (ledger', .error _) => (ledger', index, false)
  | (ledger', .ok none) => (ledger', index, true)
  | (ledger', .ok (some (outcome, context))) =>
    (ledger', indexFinalizedBlock P index block context outcome, true)

/-! ### What a finalization does -/

/-- The finalizer restores the block as persisted without having executed it. -/
def Restores (ledger : LedgerState) (block : Block) : Prop :=
  ledger.queryStateRoot (P.commitment block) = none ∧
    ledger.parentSnapshot (P.parent block) = none

theorem ensureSnapshot_cases (l : LedgerState) (index : BlockIndex)
    (provider : RevmContextProvider) (blockIndexed : Bool) (block : Block) :
    ((ensureSnapshot P l index provider blockIndexed block).1 = l ∧
        ∀ o c, (ensureSnapshot P l index provider blockIndexed block).2 = .ok (some (o, c)) →
          c = provider.context index block ∧
            ∃ parent, l.executeOnParent P c block = .ok (parent, o)) ∨
      (Restores P l block ∧ ensureSnapshot P l index provider blockIndexed block =
        (l.restorePersistedSnapshot P block, .ok none)) ∨
      ∃ parent outcome,
        l.executeOnParent P (provider.context index block) block = .ok (parent, outcome) ∧
        ensureSnapshot P l index provider blockIndexed block =
          (l.insertExecuted P block parent outcome.changes,
            .ok (some (outcome, provider.context index block))) := by
  rw [ensureSnapshot]
  dsimp only
  -- the block is executed unless it has a snapshot and nobody wants to index it
  by_cases hrun : (!(l.queryStateRoot (P.commitment block)).isSome || blockIndexed) = true
  · rw [if_pos hrun]
    cases he : l.executeOnParent P (provider.context index block) block with
    | error e =>
      cases e with
      | missingParent =>
        dsimp only
        split
        · exact .inl ⟨rfl, fun o c h => by cases h⟩
        · next hm =>
          refine .inr (.inl ⟨⟨by simpa using hm, ?_⟩, rfl⟩)
          exact (executeOnParent_missingParent P).1 he
      | executionFailed message | rootComputationFailed e | stateRootMismatch expected computed =>
        exact .inl ⟨rfl, fun o c h => by cases h⟩
    | ok result =>
      obtain ⟨parent, outcome⟩ := result
      dsimp only
      split
      · -- executed for the index alone
        refine .inl ⟨rfl, ?_⟩
        intro o c h
        obtain ⟨rfl, rfl⟩ := Prod.mk.inj (Option.some.inj (Except.ok.inj h))
        exact ⟨rfl, parent, he⟩
      · exact .inr (.inr ⟨parent, outcome, rfl, rfl⟩)
  · rw [if_neg hrun]
    exact .inl ⟨rfl, fun o c h => by cases h⟩

theorem ensureSnapshot_frame (l : LedgerState) (index : BlockIndex)
    (provider : RevmContextProvider) (blockIndexed : Bool) (block : Block) :
    (ensureSnapshot P l index provider blockIndexed block).1.qmdb = l.qmdb ∧
      (∀ d ∈ l.snapshots.persisted,
        d ∈ (ensureSnapshot P l index provider blockIndexed block).1.snapshots.persisted) ∧
      ∀ d, d ≠ P.commitment block →
        (ensureSnapshot P l index provider blockIndexed block).1.snapshots.get d =
          l.snapshots.get d := by
  rcases ensureSnapshot_cases P l index provider blockIndexed block with
    ⟨hs, -⟩ | ⟨-, hres⟩ | ⟨parent, outcome, -, hres⟩
  · rw [hs]
    exact ⟨rfl, fun _ h => h, fun _ _ => rfl⟩
  · rw [hres]
    refine ⟨rfl, fun d hd => ?_, fun d hd => ?_⟩
    · rw [mem_persisted_restorePersistedSnapshot]
      exact .inr hd
    · rw [get_restorePersistedSnapshot, if_neg (Ne.symm hd)]
  · rw [hres]
    refine ⟨rfl, fun _ hd => hd, fun d hd => ?_⟩
    rw [get_insertExecuted, if_neg (Ne.symm hd)]

variable {l : LedgerState} {block : Block}

theorem ensureSnapshot_known (h : (l.queryStateRoot (P.commitment block)).isSome = true)
    (index : BlockIndex) (provider : RevmContextProvider) (blockIndexed : Bool) :
    (ensureSnapshot P l index provider blockIndexed block).1 = l := by
  rw [ensureSnapshot, h]
  dsimp only
  split
  · split <;> rfl
  · rfl

theorem ensureSnapshot_known_orphan (h : (l.queryStateRoot (P.commitment block)).isSome = true)
    (hp : l.snapshots.get (P.parent block) = none) (index : BlockIndex)
    (provider : RevmContextProvider) (blockIndexed : Bool) :
    ensureSnapshot P l index provider blockIndexed block = (l, .ok none) := by
  rw [ensureSnapshot, h]
  dsimp only
  rw [(executeOnParent_missingParent P).2 hp]
  split <;> rfl

variable {index : BlockIndex} {provider : RevmContextProvider}

theorem ensureSnapshot_known_executed (h : (l.queryStateRoot (P.commitment block)).isSome = true)
    {parent : Snapshot} {outcome : ExecutionOutcome}
    (he : l.executeOnParent P (provider.context index block) block = .ok (parent, outcome)) :
    ensureSnapshot P l index provider true block =
      (l, .ok (some (outcome, provider.context index block))) := by
  rw [ensureSnapshot, h]
  dsimp only
  rw [he]
  rfl

theorem finalizeBlock_noCheckpoint (l : LedgerState) (index : BlockIndex)
    (provider : RevmContextProvider) (blockIndexed : Bool) (block : Block) :
    finalizeBlock P l index provider blockIndexed block false =
      ensureSnapshot P l index provider blockIndexed block := by
  rw [finalizeBlock]
  split
  · next heq => rw [heq]
  · next heq =>
    rw [heq]
    rfl

theorem finalizeBlock_ledger (l : LedgerState) (index : BlockIndex)
    (provider : RevmContextProvider) (blockIndexed : Bool) (block : Block)
    (persistCheckpoint : Bool) :
    (finalizeBlock P l index provider blockIndexed block persistCheckpoint).1 =
        (ensureSnapshot P l index provider blockIndexed block).1 ∨
      (finalizeBlock P l index provider blockIndexed block persistCheckpoint).1 =
        ((ensureSnapshot P l index provider blockIndexed block).1.persistSnapshot
          (P.commitment block)).1 := by
  rw [finalizeBlock]
  cases ensureSnapshot P l index provider blockIndexed block with
  | mk l' result =>
    cases result with
    | error e => exact .inl rfl
    | ok execution =>
      dsimp only
      split
      · right
        cases l'.persistSnapshot (P.commitment block) with
        | mk l'' persisted => cases persisted <;> rfl
      · exact .inl rfl

theorem finalizeBlock_checkpoint {blockIndexed : Bool} {execution : FinalizedExecution}
    (h : (finalizeBlock P l index provider blockIndexed block true).2 = .ok execution) :
    ∃ persisted,
      ((ensureSnapshot P l index provider blockIndexed block).1.persistSnapshot
        (P.commitment block)).2 = .ok persisted ∧
      (finalizeBlock P l index provider blockIndexed block true).1 =
        ((ensureSnapshot P l index provider blockIndexed block).1.persistSnapshot
          (P.commitment block)).1 := by
  rw [finalizeBlock] at h ⊢
  cases hens : ensureSnapshot P l index provider blockIndexed block with
  | mk l' result =>
    cases result with
    | error e =>
      rw [hens] at h
      cases h
    | ok execution' =>
      rw [hens] at h
      cases hper : l'.persistSnapshot (P.commitment block) with
      | mk l'' answer =>
        cases answer with
        | error e =>
          simp only [if_true, hper] at h
          cases h
        | ok persisted =>
          refine ⟨persisted, rfl, ?_⟩
          simp only [if_true, hper]

theorem finalizeBlock_execution {l' : LedgerState} {blockIndexed : Bool} {persistCheckpoint : Bool}
    {execution : FinalizedExecution}
    (h : finalizeBlock P l index provider blockIndexed block persistCheckpoint =
      (l', .ok execution)) :
    (ensureSnapshot P l index provider blockIndexed block).2 = .ok execution := by
  rw [finalizeBlock] at h
  cases hens : ensureSnapshot P l index provider blockIndexed block with
  | mk l₁ result =>
    rw [hens] at h
    cases result with
    | error e => cases h
    | ok execution' =>
      dsimp only at h
      split at h
      · cases hper : l₁.persistSnapshot (P.commitment block) with
        | mk l₂ persisted =>
          rw [hper] at h
          cases persisted with
          | error e => cases h
          | ok b => exact (Prod.mk.inj h).2
      · exact (Prod.mk.inj h).2

theorem handleFinalizedUpdate_ledger (l : LedgerState) (index : BlockIndex)
    (provider : RevmContextProvider) (block : Block) (persistCheckpoint : Bool) :
    (handleFinalizedUpdate P l index provider block persistCheckpoint).1 =
      (finalizeBlock P l index provider true block persistCheckpoint).1 := by
  rw [handleFinalizedUpdate]
  split <;> next heq => rw [heq]

theorem handleFinalizedUpdate_ok {persistCheckpoint : Bool}
    (h : (handleFinalizedUpdate P l index provider block persistCheckpoint).2.2 = true) :
    ∃ execution, (finalizeBlock P l index provider true block persistCheckpoint).2 =
      .ok execution := by
  rw [handleFinalizedUpdate] at h
  split at h
  · cases h
  · next heq => exact ⟨none, congrArg Prod.snd heq⟩
  · next heq => exact ⟨_, congrArg Prod.snd heq⟩

theorem handleFinalizedUpdate_index (l : LedgerState) (index : BlockIndex)
    (provider : RevmContextProvider) (block : Block) (persistCheckpoint : Bool) :
    (handleFinalizedUpdate P l index provider block persistCheckpoint).2.1 = index ∨
      ∃ parent outcome,
        l.executeOnParent P (provider.context index block) block = .ok (parent, outcome) ∧
        (handleFinalizedUpdate P l index provider block persistCheckpoint).2.1 =
          indexFinalizedBlock P index block (provider.context index block) outcome := by
  have hc : (handleFinalizedUpdate P l index provider block persistCheckpoint).2.1 = index ∨
      ∃ l' outcome context, finalizeBlock P l index provider true block persistCheckpoint =
          (l', .ok (some (outcome, context))) ∧
        (handleFinalizedUpdate P l index provider block persistCheckpoint).2.1 =
          indexFinalizedBlock P index block context outcome := by
    rw [handleFinalizedUpdate]
    split
    · exact .inl rfl
    · exact .inl rfl
    · next l' outcome context hf =>
      refine .inr ⟨l', outcome, context, hf, ?_⟩
      dsimp only
  rcases hc with hs | ⟨l', outcome, context, hf, hin⟩
  · exact .inl hs
  rw [hin]
  -- an execution is reported only by the two branches that made one
  have hens := finalizeBlock_execution P hf
  right
  rcases ensureSnapshot_cases P l index provider true block with
    ⟨-, he⟩ | ⟨-, hr⟩ | ⟨parent, outcome', he, hi⟩
  · obtain ⟨rfl, parent, hok⟩ := he outcome context hens
    exact ⟨parent, outcome, hok, rfl⟩
  · rw [hr] at hens
    cases hens
  · rw [hi] at hens
    obtain ⟨rfl, rfl⟩ := Prod.mk.inj (Option.some.inj (Except.ok.inj hens))
    exact ⟨parent, _, he, rfl⟩

end FinalizedReporter

end Kora
