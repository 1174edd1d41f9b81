/-
Log queries (`get_logs` and `matches_filter` in `storage/indexer/src/store.rs`).

A query scans the block numbers of its range up to the head and filters the logs of each
block that is still retained.

* `get_logs_exact` — it returns the matching logs of the retained blocks in its range,
  each once and in order.
-/
import Kora.FinalizedLogs
import Kora.TxValidator

open Std List

namespace Kora

structure LogFilter where
  /-- The first block, and the last one. -/
  fromBlock : Option ℕ
  toBlock : Option ℕ
  /-- The addresses one of which emitted the log. -/
  address : Option (List Address)
  /-- For each position the topics one of which stands there. -/
  topics : Fin 4 → Option (List B256)

namespace LogFilter

def Matches (self : LogFilter) (log : IndexedLog) : Prop :=
  (∀ addresses, self.address = some addresses → log.address ∈ addresses) ∧
    ∀ i allowed, self.topics i = some allowed →
      ∃ topic ∈ allowed, log.topics[i.val]? = some topic

def InRange (self : LogFilter) (number : ℕ) : Prop :=
  (∀ first, self.fromBlock = some first → first ≤ number) ∧
    ∀ last, self.toBlock = some last → number ≤ last

end LogFilter

namespace BlockIndex

def matchesTopic (log : IndexedLog) (i : ℕ) : Option (List B256) → Bool
  | none => true
  | some allowed =>
    match log.topics[i]? with
    | some topic => allowed.contains topic
    | none => false

def matchesFilter (log : IndexedLog) (filter : LogFilter) : Bool :=
  (match filter.address with
    | some addresses => addresses.contains log.address
    | none => true) &&
  (List.finRange 4).all fun i => matchesTopic log i (filter.topics i)

/-- The matching logs of a block, if it is there. -/
def matchingLogs (self : BlockIndex) (filter : LogFilter) (blockNum : ℕ) : List IndexedLog :=
  match self.blocksByNumber[blockNum]? with
  | none => []
  | some blockHash =>
    match self.logsByBlock[blockHash]? with
    | none => []
    | some logs => logs.filter fun log => matchesFilter log filter

def getLogs (self : BlockIndex) (filter : LogFilter) : List IndexedLog :=
  let head := self.headBlock
  let fromBlock := filter.fromBlock.getD 0
  let toBlock := min (filter.toBlock.getD head) head
  (List.range' fromBlock (toBlock + 1 - fromBlock)).flatMap (self.matchingLogs filter)

theorem matchesTopic_iff (log : IndexedLog) (i : ℕ) (topicFilter : Option (List B256)) :
    matchesTopic log i topicFilter = true ↔ ∀ allowed, topicFilter = some allowed →
      ∃ topic ∈ allowed, log.topics[i]? = some topic := by
  cases topicFilter with
  | none => simp [matchesTopic]
  | some allowed =>
    rw [matchesTopic]
    cases ht : log.topics[i]? with
    | none | some topic => simp

theorem matchesFilter_iff (log : IndexedLog) (filter : LogFilter) :
    matchesFilter log filter = true ↔ filter.Matches log := by
  rw [matchesFilter, Bool.and_eq_true, all_eq_true, LogFilter.Matches]
  refine and_congr ?_ ?_
  · cases filter.address with
    | none | some addresses => simp
  · constructor
    · exact fun h i => (matchesTopic_iff log i _).1 (h i (mem_finRange i))
    · exact fun h i _ => (matchesTopic_iff log i _).2 (h i)

end BlockIndex

/-! ### Over an index that holds entries -/

/-- The order of logs in the chain. -/
def IndexedLog.Before (log log' : IndexedLog) : Prop :=
  log.blockNumber < log'.blockNumber ∨
    log.blockNumber = log'.blockNumber ∧ log.logIndex < log'.logIndex

/-- The logs of an entry are in order, and of its block. -/
structure IndexEntry.Ordered (entry : IndexEntry) : Prop where
  ofBlock : ∀ log ∈ entry.logs, log.blockNumber = entry.number
  increasing : entry.logs.Pairwise fun log log' => log.logIndex < log'.logIndex

namespace HoldsBlocks

variable {index : BlockIndex} {entries : Set IndexEntry}

variable {filter : LogFilter} {log : IndexedLog}

variable (h : HoldsBlocks index entries)
include h

theorem mem_matchingLogs {blockNum : ℕ} :
    log ∈ index.matchingLogs filter blockNum ↔
      ∃ entry ∈ entries, entry.number = blockNum ∧ log ∈ entry.logs ∧ filter.Matches log := by
  rw [BlockIndex.matchingLogs]
  cases hn : index.blocksByNumber[blockNum]? with
  | none =>
    constructor
    · exact fun hmem => absurd hmem not_mem_nil
    · rintro ⟨entry, he, rfl, -⟩
      rw [h.byNumber.getElem? he] at hn
      cases hn
  | some blockHash =>
    obtain ⟨entry, he, rfl, rfl⟩ := (h.byNumber _ _).1 hn
    dsimp only
    rw [h.logs.getElem? he]
    dsimp only
    rw [mem_filter, BlockIndex.matchesFilter_iff]
    constructor
    · exact fun hmem => ⟨entry, he, rfl, hmem⟩
    · rintro ⟨entry', he', hs, hmem⟩
      -- the entries of one number have one hash, and under it one list of logs
      have hh : entry'.hash = entry.hash := by
        have hget := h.byNumber.getElem? he'
        rw [hs, hn] at hget
        exact (Option.some.inj hget).symm
      have hl : entry'.logs = entry.logs := by
        have hget := h.logs.getElem? he'
        rw [hh, h.logs.getElem? he] at hget
        exact (Option.some.inj hget).symm
      rwa [← hl]

theorem mem_getLogs :
    log ∈ index.getLogs filter ↔ ∃ entry ∈ entries, filter.InRange entry.number ∧
      log ∈ entry.logs ∧ filter.Matches log := by
  have hr : ∀ entry ∈ entries, (entry.number ∈ List.range' (filter.fromBlock.getD 0)
      (min (filter.toBlock.getD index.headBlock) index.headBlock + 1 -
        filter.fromBlock.getD 0) ↔ filter.InRange entry.number) := by
    intro entry he
    have hh := h.head entry he
    rw [mem_range'_1, LogFilter.InRange]
    cases filter.fromBlock <;> cases filter.toBlock <;> simp <;> omega
  rw [BlockIndex.getLogs, mem_flatMap]
  constructor
  · rintro ⟨blockNum, hmem, hlog⟩
    obtain ⟨entry, he, rfl, hm⟩ := h.mem_matchingLogs.1 hlog
    exact ⟨entry, he, (hr entry he).1 hmem, hm⟩
  · rintro ⟨entry, he, hin, hm⟩
    exact ⟨entry.number, (hr entry he).2 hin,
      h.mem_matchingLogs.2 ⟨entry, he, rfl, hm⟩⟩

variable (hordered : ∀ entry ∈ entries, entry.Ordered)
include hordered

theorem blockNumber_matchingLogs {blockNum : ℕ} (hlog : log ∈ index.matchingLogs filter blockNum) :
    log.blockNumber = blockNum := by
  obtain ⟨entry, he, rfl, hmem, -⟩ := h.mem_matchingLogs.1 hlog
  exact (hordered entry he).ofBlock log hmem

theorem pairwise_matchingLogs (filter : LogFilter) (blockNum : ℕ) :
    (index.matchingLogs filter blockNum).Pairwise fun log log' =>
      log.logIndex < log'.logIndex := by
  rw [BlockIndex.matchingLogs]
  cases hn : index.blocksByNumber[blockNum]? with
  | none => exact List.Pairwise.nil
  | some blockHash =>
    obtain ⟨entry, he, rfl, rfl⟩ := (h.byNumber _ _).1 hn
    dsimp only
    rw [h.logs.getElem? he]
    exact (hordered entry he).increasing.filter _

theorem pairwise_getLogs (filter : LogFilter) :
    (index.getLogs filter).Pairwise IndexedLog.Before := by
  rw [BlockIndex.getLogs, pairwise_flatMap]
  constructor
  · intro blockNum _
    refine (h.pairwise_matchingLogs hordered filter blockNum).imp_of_mem ?_
    intro log log' hlog hlog' hlt
    refine .inr ⟨?_, hlt⟩
    rw [h.blockNumber_matchingLogs hordered hlog, h.blockNumber_matchingLogs hordered hlog']
  · refine (pairwise_lt_range' 1).imp ?_
    intro blockNum blockNum' hlt log hlog log' hlog'
    refine .inl ?_
    rwa [h.blockNumber_matchingLogs hordered hlog, h.blockNumber_matchingLogs hordered hlog']

end HoldsBlocks

/-! ### The index that the finalizer fills -/

variable {P : Platform}

theorem FinalizedBlock.ordered_entry (self : FinalizedBlock P) : self.entry.Ordered where
  ofBlock log hlog := (self.logsOf_entry.ofBlock log hlog).1
  increasing := by
    have hr : (List.range self.entry.logs.length).Pairwise (· < ·) := pairwise_lt_range
    rw [← self.logsOf_entry.logIndices, pairwise_map] at hr
    exact hr

variable (P) in
/-- What the finalizer does with the index. -/
inductive IndexerOp where
  | indexFinalizedBlock (finalized : FinalizedBlock P)
  | pruneBefore (minBlockNumber : ℕ)

namespace IndexerOp

def apply (index : BlockIndex) : IndexerOp P → BlockIndex
  | indexFinalizedBlock finalized =>
    index.indexFinalizedBlock P finalized.block finalized.context finalized.outcome
  | pruneBefore minBlockNumber => index.pruneBefore minBlockNumber

/-- The index after a sequence of operations. -/
def filled (ops : List (IndexerOp P)) : BlockIndex := ops.foldl apply BlockIndex.new

def indexed (ops : List (IndexerOp P)) : Set (FinalizedBlock P) :=
  {finalized | indexFinalizedBlock finalized ∈ ops}

def retain (blocks : Set (FinalizedBlock P)) :
    IndexerOp P → Set (FinalizedBlock P)
  | indexFinalizedBlock finalized => insert finalized blocks
  | pruneBefore minBlockNumber => {finalized ∈ blocks | minBlockNumber ≤ finalized.block.height}

/-- The blocks that a sequence of operations retains. -/
def retained (ops : List (IndexerOp P)) : Set (FinalizedBlock P) :=
  ops.foldl retain ∅

def op : IndexerOp P → IndexOp
  | indexFinalizedBlock finalized => .insertBlock finalized.entry
  | pruneBefore minBlockNumber => .pruneBefore minBlockNumber

theorem apply_op (index : BlockIndex) (self : IndexerOp P) :
    self.op.apply index = self.apply index := by
  cases self with
  | indexFinalizedBlock finalized | pruneBefore minBlockNumber => rfl

theorem filled_eq (ops : List (IndexerOp P)) : filled ops = IndexOp.index (ops.map op) := by
  rw [filled, IndexOp.index, foldl_map]
  congr
  funext index self
  exact (self.apply_op index).symm

theorem retain_op (blocks : Set (FinalizedBlock P)) (self : IndexerOp P) :
    self.op.retain (Set.image FinalizedBlock.entry blocks) =
      Set.image FinalizedBlock.entry (retain blocks self) := by
  cases self with
  | indexFinalizedBlock finalized => exact (Set.image_insert_eq).symm
  | pruneBefore minBlockNumber =>
    ext entry
    constructor
    · rintro ⟨⟨finalized, hmem, rfl⟩, hle⟩
      exact ⟨finalized, ⟨hmem, hle⟩, rfl⟩
    · rintro ⟨finalized, ⟨hmem, hle⟩, rfl⟩
      exact ⟨⟨finalized, hmem, rfl⟩, hle⟩

theorem retained_concat (ops : List (IndexerOp P)) (self : IndexerOp P) :
    retained (ops ++ [self]) = retain (retained ops) self := by
  rw [retained, foldl_append]
  rfl

theorem retained_eq (ops : List (IndexerOp P)) :
    IndexOp.retained (ops.map op) = Set.image FinalizedBlock.entry (retained ops) := by
  induction ops using List.reverseRecOn with
  | nil => exact Set.image_empty _ |>.symm
  | append_singleton ops self ih =>
    rw [map_append, map_singleton, IndexOp.retained_concat, ih, retain_op, retained_concat]

theorem holdsBlocks_filled {ops : List (IndexerOp P)}
    (hone : OneBlockPerNumber (Set.image FinalizedBlock.entry (indexed ops))) :
    HoldsBlocks (filled ops) (Set.image FinalizedBlock.entry (retained ops)) := by
  rw [filled_eq, ← retained_eq]
  refine IndexOp.holdsBlocks (hone.mono ?_)
  intro entry he
  obtain ⟨self, hmem, hself⟩ := mem_map.1 he
  cases self with
  | indexFinalizedBlock finalized => exact ⟨finalized, hmem, IndexOp.insertBlock.inj hself⟩
  | pruneBefore minBlockNumber => cases hself

end IndexerOp

/-- **Log queries are complete and ordered.** Over every index that the finalizer fills, with one
block for a number, and prunes, a query returns the matching logs of the retained blocks in its
range, each once and in the order of the chain; the logs of a block are those it emitted, numbered
in the order of its transactions. -/
theorem get_logs_exact (ops : List (IndexerOp P))
    (hone : OneBlockPerNumber (Set.image FinalizedBlock.entry (IndexerOp.indexed ops)))
    (filter : LogFilter) :
    (∀ log, log ∈ (IndexerOp.filled ops).getLogs filter ↔
        ∃ finalized ∈ IndexerOp.retained ops, filter.InRange finalized.block.height ∧
          log ∈ finalized.entry.logs ∧ filter.Matches log) ∧
      ((IndexerOp.filled ops).getLogs filter).Pairwise IndexedLog.Before ∧
      ∀ finalized ∈ IndexerOp.retained ops, LogsOf finalized finalized.entry.logs := by
  have hh := IndexerOp.holdsBlocks_filled hone
  refine ⟨fun log => ?_, hh.pairwise_getLogs ?_ filter, fun finalized _ =>
    finalized.logsOf_entry⟩
  · rw [hh.mem_getLogs]
    constructor
    · rintro ⟨-, ⟨finalized, hmem, rfl⟩, hlog⟩
      exact ⟨finalized, hmem, hlog⟩
    · rintro ⟨finalized, hmem, hlog⟩
      exact ⟨finalized.entry, ⟨finalized, hmem, rfl⟩, hlog⟩
  · rintro - ⟨finalized, -, rfl⟩
    exact finalized.ordered_entry

namespace LogExample

open ValidatorExample

def platform : Platform :=
  { ValidatorExample.platform with
    consensus :=
      { decode2718 := fun bytes => (codec.decode2718 bytes).toOption.map Prod.fst
        recoverSigner := fun envelope => (codec.recoverSigner envelope).toOption
        calculateTransactionRoot := fun txs => BitVec.ofNat 256 txs.length
        calculateReceiptRoot := fun receipts => BitVec.ofNat 256 receipts.length
        logsBloom := fun logs => BitVec.ofNat 2048 logs.length } }

def transferReceipt : ExecutionReceipt :=
  { txHash := platform.keccak256 [0], success := true, gasUsed := 21000
    cumulativeGasUsed := 21000, logs := [⟨0xB, [1], []⟩], contractAddress := none }

/-- A block with a transfer, which emits a log. -/
def finalizedTransfer (height : ℕ) : FinalizedBlock platform where
  block := ⟨0, height, 0, 0, 0, [⟨[0]⟩]⟩
  context := ⟨⟨height, 0, 30000000, 0, none⟩, 0, 0, none, ∅⟩
  outcome := ⟨ChangeSet.new, [transferReceipt], 21000, []⟩
  aligned :=
    { hashes := prefix_rfl
      silent := by
        intro idx receipt tx hreceipt htx hnone
        cases idx with
        | zero =>
          obtain rfl := Option.some.inj htx
          exact absurd hnone (by decide +kernel)
        | succ idx => cases htx }

def failing : Revm where
  Db := Unit
  load _ _ := ()
  decodeTxEnv tx := (decodeTxMetadata platform tx).map fun m => ⟨m.sender, 0, 21000⟩
  replay _ _ := none
  commit _ _ := ()
  nonce _ _ := 0

/-- The logs of all blocks. -/
def everything : LogFilter := ⟨none, none, none, fun _ => none⟩

end LogExample

section

open LogExample

theorem aligned_receipts_failing :
    Aligned platform (finalizedTransfer 1).block (Revm.executeTxs platform.keccak256 30000000
      (⟨(), 0, ⟨ChangeSet.new, [], 0, []⟩⟩ : Revm.Progress failing) [[0]]).outcome.receipts :=
  (aligned_receipts platform failing (fun tx _ h hnone => by simp [failing, hnone] at h) 30000000
    ⟨(), 0, ⟨ChangeSet.new, [], 0, []⟩⟩ rfl (finalizedTransfer 1).block).1

theorem get_logs_exact_transfer :
    OneBlockPerNumber (Set.image FinalizedBlock.entry
        (IndexerOp.indexed [.indexFinalizedBlock (finalizedTransfer 1)])) ∧
      ∀ log ∈ (finalizedTransfer 1).entry.logs,
        log ∈ (IndexerOp.filled
          [.indexFinalizedBlock (finalizedTransfer 1)]).getLogs everything := by
  have hone : OneBlockPerNumber (Set.image FinalizedBlock.entry
      (IndexerOp.indexed [.indexFinalizedBlock (finalizedTransfer 1)])) := by
    have hsub : IndexerOp.indexed [.indexFinalizedBlock (finalizedTransfer 1)] ⊆
        {finalizedTransfer 1} := by
      intro finalized hmem
      exact IndexerOp.indexFinalizedBlock.inj (mem_singleton.1 hmem)
    refine OneBlockPerNumber.mono ?_ ((Set.image_mono hsub).trans Set.image_singleton.subset)
    exact ⟨Set.injOn_singleton _ _, Set.injOn_singleton _ _⟩
  refine ⟨hone, fun log hlog => ?_⟩
  refine ((get_logs_exact _ hone everything).1 log).2 ⟨finalizedTransfer 1, .inl rfl, ?_, hlog, ?_⟩
  · exact ⟨nofun, nofun⟩
  · exact ⟨nofun, fun i => nofun⟩

end

end Kora
