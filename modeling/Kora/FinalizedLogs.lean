/-
The logs of a finalized block in the block index (`index_finalized_block` in
`node/reporters/src/lib.rs`).

The finalizer numbers the logs of the receipts with one counter. A receipt is left out if
the transaction at its position does not decode; the executor gives such a one no logs, so
no log is lost.

* `aligned_receipts` — the executor's receipts belong to the transactions at their
  positions;
* `FinalizedBlock.logsOf_entry` — the logs of the entry are those that the block emitted.
-/
import Kora.ChainIndex
import Kora.Receipts
import Kora.Reporter

open Std List

namespace Kora

/-! ### The receipts of the executor -/

namespace Revm

variable {R : Revm} {keccak256 : Bytes → B256} {gasLimit : ℕ}

variable (R keccak256) in
/-- The receipt is that of the transaction, and without logs if the executor does not decode it. -/
def ReceiptFor (receipt : ExecutionReceipt) (tx : Bytes) : Prop :=
  receipt.txHash = keccak256 tx ∧ (R.decodeTxEnv tx = none → receipt.logs = [])

theorem receipts_executeTx_for {p p' : Progress R} {tx : Bytes}
    (h : executeTx keccak256 gasLimit p tx = some p') :
    ∃ receipt, p'.outcome.receipts = p.outcome.receipts ++ [receipt] ∧
      R.ReceiptFor keccak256 receipt tx := by
  obtain ⟨env, -, -, hnone⟩ | ⟨-, hs | ⟨env, result, henv, -, he⟩⟩ :=
    executeTx_cases keccak256 gasLimit p tx
  · rw [hnone] at h
    cases h
  · obtain rfl := Option.some.inj (hs.symm.trans h)
    exact ⟨_, rfl, rfl, fun _ => rfl⟩
  · obtain rfl := Option.some.inj (he.symm.trans h)
    refine ⟨_, rfl, rfl, fun hnone => ?_⟩
    rw [henv] at hnone
    cases hnone

theorem receipts_executeTxs_for (p : Progress R) (txs : List Bytes) :
    ∃ receipts done, (executeTxs keccak256 gasLimit p txs).outcome.receipts =
        p.outcome.receipts ++ receipts ∧ done <+: txs ∧
      Forall₂ (R.ReceiptFor keccak256) receipts done := by
  induction txs generalizing p with
  | nil => exact ⟨[], [], by simp [executeTxs], prefix_rfl, .nil⟩
  | cons tx txs ih =>
    rw [executeTxs]
    cases ht : executeTx keccak256 gasLimit p tx with
    | none => exact ⟨[], [], by simp, nil_prefix, .nil⟩
    | some next =>
      obtain ⟨receipt, hr, hfor⟩ := receipts_executeTx_for ht
      obtain ⟨receipts, done, hrs, hdone, hall⟩ := ih next
      refine ⟨receipt :: receipts, tx :: done, ?_, (prefix_cons_inj tx).2 hdone, .cons hfor hall⟩
      rw [hrs, hr, append_assoc, singleton_append]

end Revm

/-! ### Aligned receipts -/

variable (P : Platform)

/-- The receipts are those of the transactions at their positions; one that does not decode is
skipped. -/
structure Aligned (block : Block) (receipts : List ExecutionReceipt) : Prop where
  hashes : receipts.map (·.txHash) <+: block.txs.map fun tx => P.keccak256 tx.bytes
  silent : ∀ (idx : ℕ) (receipt : ExecutionReceipt) (tx : Tx), receipts[idx]? = some receipt →
    block.txs[idx]? = some tx → decodeTxMetadata P tx.bytes = none → receipt.logs = []

/-- The receipts of a block are aligned if the executor decodes no transaction that the finalizer
does not, and are those of all transactions exactly if none ends the loop for want of gas. -/
theorem aligned_receipts (R : Revm)
    (hd : ∀ tx env, R.decodeTxEnv tx = some env → decodeTxMetadata P tx ≠ none)
    (gasLimit : ℕ) (p : Revm.Progress R) (hp : p.outcome.receipts = []) (block : Block) :
    Aligned P block (Revm.executeTxs P.keccak256 gasLimit p
      (block.txs.map (·.bytes))).outcome.receipts ∧
    ((Revm.executeTxs P.keccak256 gasLimit p (block.txs.map (·.bytes))).outcome.receipts.map
        (·.txHash) = block.txs.map (fun tx => P.keccak256 tx.bytes) ↔
      Revm.GasFits P.keccak256 gasLimit p (block.txs.map (·.bytes))) := by
  obtain ⟨receipts, done, hrs, hdone, hall⟩ :=
    Revm.receipts_executeTxs_for p (block.txs.map (·.bytes))
  rw [hp, nil_append] at hrs
  refine ⟨⟨?_, fun idx receipt tx hr htx hnone => ?_⟩, ?_⟩
  · have hh : receipts.map (·.txHash) = done.map P.keccak256 :=
      forall₂_eq_eq_eq ▸ forall₂_map_left_iff.2
        (forall₂_map_right_iff.2 (hall.imp fun _ _ h => h.1))
    rw [hrs, hh]
    have hm := hdone.map P.keccak256
    rwa [map_map] at hm
  · -- the receipt stands for the transaction at its position
    rw [hrs] at hr
    obtain ⟨hlt, rfl⟩ := List.getElem?_eq_some_iff.1 hr
    have hlt' : idx < done.length := hall.length_eq ▸ hlt
    have hat : done[idx] = tx.bytes := by
      have hmap : (block.txs.map (·.bytes))[idx]? = some tx.bytes := by
        rw [getElem?_map, htx]
        rfl
      obtain ⟨rest, hrest⟩ := hdone
      rw [← hrest, getElem?_append_left hlt', getElem?_eq_getElem hlt'] at hmap
      exact Option.some.inj hmap
    have hfor : R.ReceiptFor P.keccak256 receipts[idx] done[idx] := hall.get hlt hlt'
    refine hfor.2 ?_
    rw [hat]
    exact Option.eq_none_iff_forall_ne_some.2 fun env henv => hd _ env henv hnone
  · have hi := Revm.receipts_executeTxs_iff P.keccak256 gasLimit p (block.txs.map (·.bytes))
    rwa [hp, map_nil, nil_append, map_map] at hi

/-! ### The entry of a block -/

theorem pairwise_zipIdx_lt {α : Type*} (l : List α) (k : ℕ) :
    (l.zipIdx k).Pairwise fun a b => a.2 < b.2 := by
  induction l generalizing k with
  | nil => exact List.Pairwise.nil
  | cons a l ih =>
    rw [zipIdx_cons, pairwise_cons]
    exact ⟨fun b hb => le_snd_of_mem_zipIdx hb, ih (k + 1)⟩

variable {P} {block : Block}

theorem indexedTxs_increasing :
    (indexedTxs P block).Pairwise fun tx tx' => tx.index < tx'.index := by
  refine (pairwise_zipIdx_lt block.txs 0).filterMap _ ?_
  rintro ⟨raw, idx⟩ ⟨raw', idx'⟩ hlt tx htx tx' htx'
  obtain ⟨metadata, -, rfl⟩ := Option.map_eq_some_iff.1 htx
  obtain ⟨metadata', -, rfl⟩ := Option.map_eq_some_iff.1 htx'
  exact hlt

variable {nextLogIndex : ℕ}

variable (P) in
/-- A finalized block with the context and the outcome of its execution. -/
structure FinalizedBlock where
  block : Block
  context : BlockContext
  outcome : ExecutionOutcome
  aligned : Aligned P block outcome.receipts

namespace FinalizedBlock

def entry (self : FinalizedBlock P) : IndexEntry where
  block := IndexedBlock.ofBlock P self.block self.context self.outcome
  txs := indexedTxs P self.block
  receipts := indexedReceipts P self.block self.context 0 0 self.outcome.receipts
  txs_of_block _ := mem_indexedTxs
  txs_increasing := indexedTxs_increasing
  txs_hashes := indexedTxs_hashes
  receipts_hashes := indexedReceipts_hashes.trans self.aligned.hashes.sublist

/-- The logs that the block emitted, with the positions of their transactions. -/
def emitted (self : FinalizedBlock P) : List (ℕ × Log) :=
  self.outcome.receipts.zipIdx.flatMap fun entry => entry.1.logs.map fun log => (entry.2, log)

end FinalizedBlock

/-- A log without its place in the chain, and the position of its transaction. -/
def IndexedLog.emitted (self : IndexedLog) : ℕ × Log :=
  (self.transactionIndex, ⟨self.address, self.topics, self.data⟩)

/-- The block's logs in the order of its transactions, numbered from 0, each with its transaction's
index and hash. -/
structure LogsOf (finalized : FinalizedBlock P) (logs : List IndexedLog) : Prop where
  emitted : logs.map IndexedLog.emitted = finalized.emitted
  logIndices : logs.map (·.logIndex) = List.range logs.length
  hashes : ∀ log ∈ logs, (finalized.block.txs[log.transactionIndex]?).map
    (fun tx => P.keccak256 tx.bytes) = some log.transactionHash
  ofBlock : ∀ log ∈ logs, log.blockNumber = finalized.block.height ∧
    log.blockHash = P.blockId finalized.block

/-! ### The logs of an entry -/

theorem length_indexedLogs (receipt : ExecutionReceipt) (idx nextLogIndex : ℕ) :
    (indexedLogs P block receipt idx nextLogIndex).length = receipt.logs.length := by
  rw [indexedLogs, length_map, length_zipIdx]

theorem logIndices_indexedLogs (receipt : ExecutionReceipt) (idx nextLogIndex : ℕ) :
    (indexedLogs P block receipt idx nextLogIndex).map (·.logIndex) =
      List.range' nextLogIndex receipt.logs.length := by
  rw [indexedLogs, map_map, ← zipIdx_map_snd]
  rfl

theorem emitted_indexedLogs (receipt : ExecutionReceipt) (idx nextLogIndex : ℕ) :
    (indexedLogs P block receipt idx nextLogIndex).map IndexedLog.emitted =
      receipt.logs.map fun log => (idx, log) := by
  rw [indexedLogs, map_map]
  conv_rhs => rw [← zipIdx_map_fst nextLogIndex receipt.logs, map_map]
  rfl

theorem mem_indexedLogs {receipt : ExecutionReceipt} {idx : ℕ} {log : IndexedLog}
    (h : log ∈ indexedLogs P block receipt idx nextLogIndex) :
    log.transactionIndex = idx ∧ log.transactionHash = receipt.txHash ∧
      log.blockNumber = block.height ∧ log.blockHash = P.blockId block := by
  obtain ⟨⟨raw, logIndex⟩, -, rfl⟩ := mem_map.1 h
  exact ⟨rfl, rfl, rfl, rfl⟩

variable {context : BlockContext}

theorem logIndices_indexedReceipts (idx nextLogIndex : ℕ) (receipts : List ExecutionReceipt) :
    ((indexedReceipts P block context idx nextLogIndex receipts).flatMap (·.logs)).map
        (·.logIndex) =
      List.range' nextLogIndex ((indexedReceipts P block context idx nextLogIndex
        receipts).flatMap (·.logs)).length := by
  induction receipts generalizing idx nextLogIndex with
  | nil => rfl
  | cons receipt receipts ih =>
    rw [indexedReceipts]
    split
    · exact ih (idx + 1) nextLogIndex
    · rw [flatMap_cons, map_append, ih, length_append]
      dsimp only
      rw [logIndices_indexedLogs, length_indexedLogs, range'_append_1]

theorem emitted_indexedReceipts (idx nextLogIndex : ℕ) (receipts : List ExecutionReceipt)
    (hs : ∀ (i : ℕ) (receipt : ExecutionReceipt), receipts[i]? = some receipt →
      (block.txs[idx + i]?.bind fun tx => decodeTxMetadata P tx.bytes) = none →
        receipt.logs = []) :
    ((indexedReceipts P block context idx nextLogIndex receipts).flatMap (·.logs)).map
        IndexedLog.emitted =
      (receipts.zipIdx idx).flatMap fun entry => entry.1.logs.map fun log => (entry.2, log) := by
  induction receipts generalizing idx nextLogIndex with
  | nil => rfl
  | cons receipt receipts ih =>
    have hl : ∀ (i : ℕ) (receipt : ExecutionReceipt), receipts[i]? = some receipt →
        (block.txs[idx + 1 + i]?.bind fun tx => decodeTxMetadata P tx.bytes) = none →
          receipt.logs = [] := by
      intro i receipt' hr hnone
      refine hs (i + 1) receipt' hr ?_
      rwa [Nat.add_right_comm, Nat.add_assoc] at hnone
    rw [indexedReceipts, zipIdx_cons, flatMap_cons]
    split
    · next hnone =>
      rw [ih (idx + 1) nextLogIndex hl, hs 0 receipt rfl hnone]
      rfl
    · rw [flatMap_cons, map_append, ih _ _ hl]
      dsimp only
      rw [emitted_indexedLogs]

theorem mem_logs_indexedReceipts {idx : ℕ} {receipts : List ExecutionReceipt} {log : IndexedLog}
    (h : log ∈ (indexedReceipts P block context idx nextLogIndex receipts).flatMap
      (·.logs)) :
    ∃ i receipt, receipts[i]? = some receipt ∧ log.transactionIndex = idx + i ∧
      log.transactionHash = receipt.txHash ∧ log.blockNumber = block.height ∧
        log.blockHash = P.blockId block := by
  induction receipts generalizing idx nextLogIndex with
  | nil => cases h
  | cons receipt receipts ih =>
    -- what is found behind the first receipt is one position further
    have hs : ∀ {next}, log ∈ (indexedReceipts P block context (idx + 1) next
        receipts).flatMap (·.logs) → ∃ i receipt', (receipt :: receipts)[i]? = some receipt' ∧
          log.transactionIndex = idx + i ∧ log.transactionHash = receipt'.txHash ∧
            log.blockNumber = block.height ∧ log.blockHash = P.blockId block := by
      intro next hmem
      obtain ⟨i, receipt', hr, hidx, hrs⟩ := ih hmem
      exact ⟨i + 1, receipt', hr, by omega, hrs⟩
    rw [indexedReceipts] at h
    split at h
    · exact hs h
    · rw [flatMap_cons, mem_append] at h
      rcases h with hh | hl
      · exact ⟨0, receipt, rfl, mem_indexedLogs hh⟩
      · exact hs hl

/-- **The logs of an entry are those that the block emitted**, in order and numbered from 0. -/
theorem FinalizedBlock.logsOf_entry (self : FinalizedBlock P) :
    LogsOf self self.entry.logs where
  emitted := by
    refine emitted_indexedReceipts 0 0 self.outcome.receipts fun i receipt hr hnone => ?_
    -- a receipt has its transaction, which does not decode
    have hlt : i < self.block.txs.length := by
      have hl := self.aligned.hashes.length_le
      rw [length_map, length_map] at hl
      exact (List.getElem?_eq_some_iff.1 hr).1.trans_le hl
    have htx : self.block.txs[i]? = some self.block.txs[i] := getElem?_eq_getElem hlt
    rw [Nat.zero_add, htx] at hnone
    exact self.aligned.silent i receipt _ hr htx hnone
  logIndices := by
    rw [range_eq_range']
    exact logIndices_indexedReceipts 0 0 self.outcome.receipts
  hashes log hlog := by
    obtain ⟨i, receipt, hr, hidx, hh, -⟩ := mem_logs_indexedReceipts hlog
    have hat : (self.outcome.receipts.map (·.txHash))[i]? = some receipt.txHash := by
      rw [getElem?_map, hr]
      rfl
    rw [hidx, hh, Nat.zero_add, ← getElem?_map]
    obtain ⟨rest, hrs⟩ := self.aligned.hashes
    have hlt := (List.getElem?_eq_some_iff.1 hat).1
    rw [← hrs, getElem?_append_left hlt, hat]
  ofBlock log hlog := by
    obtain ⟨i, receipt, -, -, -, hb⟩ := mem_logs_indexedReceipts hlog
    exact hb

end Kora
