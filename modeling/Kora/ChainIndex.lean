/-
What the block index answers (`insert_block`, `prune_before` and the getters in
`storage/indexer/src/store.rs`).

Blocks and logs are kept under keys of their own. A transaction's entry is shared by all
blocks that contain it, and belongs to the block inserted last.

* `HoldsBlocks.apply`, `HoldsTransactions.apply` — each map tabulates what is retained;
* `index_answers` — every getter returns what was inserted, and the maps hold nothing
  else.
-/
import Kora.BlockIndex
import Kora.Tabulation
import Mathlib.Data.List.Pairwise

open Std List

namespace Kora

/-! ### Sequences of insertions and prunings -/

/-- A block as it is inserted, with its decoded transactions and their receipts. -/
structure IndexEntry where
  block : IndexedBlock
  txs : List IndexedTransaction
  receipts : List IndexedReceipt
  txs_of_block : ∀ tx ∈ txs, tx.blockHash = block.hash
  txs_increasing : txs.Pairwise fun tx tx' => tx.index < tx'.index
  txs_hashes : (txs.map (·.hash)).Sublist block.transactionHashes
  receipts_hashes : (receipts.map (·.transactionHash)).Sublist block.transactionHashes

namespace IndexEntry

def number (self : IndexEntry) : ℕ := self.block.number

def hash (self : IndexEntry) : B256 := self.block.hash

def logs (self : IndexEntry) : List IndexedLog := self.receipts.flatMap (·.logs)

end IndexEntry

inductive IndexOp where
  | insertBlock (entry : IndexEntry)
  | pruneBefore (minBlockNumber : ℕ)

namespace IndexOp

def apply (index : BlockIndex) : IndexOp → BlockIndex
  | insertBlock entry => index.insertBlock entry.block entry.txs entry.receipts
  | pruneBefore minBlockNumber => index.pruneBefore minBlockNumber

def index (ops : List IndexOp) : BlockIndex := ops.foldl apply BlockIndex.new

/-- What an operation does to the entries that are retained. -/
def retain (entries : Set IndexEntry) : IndexOp → Set IndexEntry
  | insertBlock entry => insert entry entries
  | pruneBefore minBlockNumber => {entry ∈ entries | minBlockNumber ≤ entry.number}

/-- The entries that a sequence of operations retains. -/
def retained (ops : List IndexOp) : Set IndexEntry := ops.foldl retain ∅

end IndexOp

/-- One entry for a number, and for a hash. -/
structure OneBlockPerNumber (entries : Set IndexEntry) : Prop where
  number : entries.InjOn IndexEntry.number
  hash : entries.InjOn IndexEntry.hash

theorem OneBlockPerNumber.mono {entries entries' : Set IndexEntry}
    (h : OneBlockPerNumber entries') (hsub : entries ⊆ entries') : OneBlockPerNumber entries :=
  ⟨h.number.mono hsub, h.hash.mono hsub⟩

theorem OneBlockPerNumber.pair (entry entry' : IndexEntry)
    (hn : entry.number ≠ entry'.number) (hh : entry.hash ≠ entry'.hash) :
    OneBlockPerNumber {entry, entry'} :=
  ⟨Set.injOn_pair.2 fun h => absurd h hn, Set.injOn_pair.2 fun h => absurd h hh⟩

/-- No transaction occurs twice in the entries, neither in one block nor in two. -/
structure Unshared (entries : Set IndexEntry) : Prop where
  once : ∀ entry ∈ entries, entry.block.transactionHashes.Nodup
  apart : ∀ entry ∈ entries, ∀ entry' ∈ entries, ∀ hash ∈ entry.block.transactionHashes,
    hash ∈ entry'.block.transactionHashes → entry = entry'

theorem Unshared.mono {entries entries' : Set IndexEntry} (h : Unshared entries')
    (hsub : entries ⊆ entries') : Unshared entries :=
  ⟨fun entry he => h.once entry (hsub he),
    fun entry he entry' he' => h.apart entry (hsub he) entry' (hsub he')⟩

def txsOf (entries : Set IndexEntry) : Set IndexedTransaction :=
  {tx | ∃ entry ∈ entries, tx ∈ entry.txs}

def receiptsOf (entries : Set IndexEntry) : Set IndexedReceipt :=
  {receipt | ∃ entry ∈ entries, receipt ∈ entry.receipts}

/-- The maps of blocks and logs hold the entries, none of which is above the head. -/
structure HoldsBlocks (index : BlockIndex) (entries : Set IndexEntry) : Prop where
  byNumber : Tabulates index.blocksByNumber IndexEntry.number IndexEntry.hash entries
  byHash : Tabulates index.blocksByHash IndexEntry.hash IndexEntry.block entries
  logs : Tabulates index.logsByBlock IndexEntry.hash IndexEntry.logs entries
  head : ∀ entry ∈ entries, entry.number ≤ index.headBlock

/-- The maps of transactions and receipts hold those of the entries. -/
structure HoldsTransactions (index : BlockIndex) (entries : Set IndexEntry) : Prop where
  transactions : Tabulates index.transactions IndexedTransaction.hash id (txsOf entries)
  receipts : Tabulates index.receipts IndexedReceipt.transactionHash id (receiptsOf entries)

variable {index : BlockIndex} {entries : Set IndexEntry}

/-! ### Blocks and logs -/

namespace HoldsBlocks

theorem new : HoldsBlocks BlockIndex.new ∅ :=
  ⟨.empty, .empty, .empty, fun _ h => absurd h (Set.notMem_empty _)⟩

variable {entry : IndexEntry}

theorem insertBlock (h : HoldsBlocks index entries)
    (hone : OneBlockPerNumber (insert entry entries)) :
    HoldsBlocks (index.insertBlock entry.block entry.txs entry.receipts)
      (insert entry entries) where
  byNumber := h.byNumber.insert hone.number
  byHash := h.byHash.insert hone.hash
  logs := h.logs.insert hone.hash
  head := by
    rintro entry' (rfl | hmem)
    · exact le_max_right _ _
    · exact (h.head entry' hmem).trans (le_max_left _ _)

variable {minBlockNumber : ℕ}

variable (h : HoldsBlocks index entries)
include h

theorem mem_entriesBefore {number : ℕ} {hash : B256} :
    (number, hash) ∈ index.entriesBefore minBlockNumber ↔
      ∃ entry ∈ entries, entry.number = number ∧ entry.hash = hash ∧ number < minBlockNumber := by
  rw [BlockIndex.entriesBefore, mem_filter, ExtTreeMap.mem_toList_iff_getElem?_eq_some,
    decide_eq_true_iff]
  dsimp only
  rw [h.byNumber number hash]
  constructor
  · rintro ⟨⟨entry, hmem, hn, hh⟩, hlt⟩
    exact ⟨entry, hmem, hn, hh, hlt⟩
  · rintro ⟨entry, hmem, hn, hh, hlt⟩
    exact ⟨⟨entry, hmem, hn, hh⟩, hlt⟩

theorem keeps_number_iff (hmem : entry ∈ entries) :
    entry.number ∉ (index.entriesBefore minBlockNumber).map Prod.fst ↔
      minBlockNumber ≤ entry.number := by
  rw [← Nat.not_lt, not_iff_not, mem_map]
  constructor
  · rintro ⟨⟨number, hash⟩, hb, rfl⟩
    obtain ⟨-, -, -, -, hlt⟩ := h.mem_entriesBefore.1 hb
    exact hlt
  · intro hlt
    exact ⟨(entry.number, entry.hash), h.mem_entriesBefore.2 ⟨entry, hmem, rfl, rfl, hlt⟩, rfl⟩

theorem keeps_hash_iff (hone : OneBlockPerNumber entries) (hmem : entry ∈ entries) :
    entry.hash ∉ (index.entriesBefore minBlockNumber).map Prod.snd ↔
      minBlockNumber ≤ entry.number := by
  rw [← Nat.not_lt, not_iff_not, mem_map]
  constructor
  · rintro ⟨⟨number, hash⟩, hb, hh⟩
    obtain ⟨entry', hmem', hn, hh', hlt⟩ := h.mem_entriesBefore.1 hb
    obtain rfl : entry' = entry := hone.hash hmem' hmem (hh'.trans hh)
    omega
  · intro hlt
    exact ⟨(entry.number, entry.hash), h.mem_entriesBefore.2 ⟨entry, hmem, rfl, rfl, hlt⟩, rfl⟩

theorem pruneBefore (hone : OneBlockPerNumber entries) (minBlockNumber : ℕ) :
    HoldsBlocks (index.pruneBefore minBlockNumber)
      {entry ∈ entries | minBlockNumber ≤ entry.number} := by
  have hn : {entry ∈ entries | entry.number ∉
      (index.entriesBefore minBlockNumber).map Prod.fst} =
        {entry ∈ entries | minBlockNumber ≤ entry.number} :=
    Set.ext fun entry => and_congr_right h.keeps_number_iff
  have hhashes : {entry ∈ entries | entry.hash ∉
      (index.entriesBefore minBlockNumber).map Prod.snd} =
        {entry ∈ entries | minBlockNumber ≤ entry.number} :=
    Set.ext fun entry => and_congr_right (h.keeps_hash_iff hone)
  refine ⟨?_, ?_, ?_, fun entry he => h.head entry he.1⟩
  · rw [← hn]
    exact h.byNumber.eraseAll _ Prod.fst
  · rw [← hhashes]
    exact h.byHash.eraseAll _ Prod.snd
  · rw [← hhashes]
    exact h.logs.eraseAll _ Prod.snd

theorem mem_txHashesBefore {hash : B256} :
    hash ∈ index.txHashesBefore minBlockNumber ↔
      ∃ entry ∈ entries, entry.number < minBlockNumber ∧
        hash ∈ entry.block.transactionHashes := by
  simp only [BlockIndex.txHashesBefore, mem_flatMap, mem_filterMap]
  constructor
  · rintro ⟨block, ⟨⟨number, blockHash⟩, hbf, hb⟩, hh⟩
    obtain ⟨entry, he, rfl, rfl, hlt⟩ := h.mem_entriesBefore.1 hbf
    rw [h.byHash.getElem? he] at hb
    obtain rfl := Option.some.inj hb
    exact ⟨entry, he, hlt, hh⟩
  · rintro ⟨entry, he, hlt, hh⟩
    exact ⟨entry.block, ⟨(entry.number, entry.hash),
      h.mem_entriesBefore.2 ⟨entry, he, rfl, rfl, hlt⟩, h.byHash.getElem? he⟩, hh⟩

theorem apply {op : IndexOp} (hone : OneBlockPerNumber (entries ∪ op.retain entries)) :
    HoldsBlocks (op.apply index) (op.retain entries) := by
  cases op with
  | insertBlock entry => exact h.insertBlock (hone.mono Set.subset_union_right)
  | pruneBefore minBlockNumber =>
    exact h.pruneBefore (hone.mono Set.subset_union_left) minBlockNumber

end HoldsBlocks

/-! ### Transactions and receipts -/

/-! Transactions and receipts are both records of an entry under hashes of its block. -/

section Records

variable {ι : Type} {records : IndexEntry → List ι} {key : ι → B256} {t : ExtTreeMap B256 ι}

def recordsOf (records : IndexEntry → List ι) (entries : Set IndexEntry) : Set ι :=
  {i | ∃ entry ∈ entries, i ∈ records entry}

theorem tabulates_new : Tabulates (∅ : ExtTreeMap B256 ι) key id (recordsOf records ∅) := by
  intro hash i
  simp [recordsOf]

variable (hhashes : ∀ entry, ((records entry).map key).Sublist entry.block.transactionHashes)
include hhashes

theorem Unshared.injOn (h : Unshared entries) : (recordsOf records entries).InjOn key := by
  rintro i ⟨entry, he, hi⟩ i' ⟨entry', he', hi'⟩ heq
  have hmem := (hhashes entry).subset (mem_map_of_mem hi)
  have hmem' := (hhashes entry').subset (mem_map_of_mem hi')
  rw [← heq] at hmem'
  obtain rfl := h.apart entry he entry' he' _ hmem hmem'
  exact inj_on_of_nodup_map ((h.once entry he).sublist (hhashes entry)) hi hi' heq

theorem Unshared.tabulates_insert {entry : IndexEntry} (hu : Unshared (insert entry entries))
    (h : Tabulates t key id (recordsOf records entries)) :
    Tabulates ((records entry).foldl (fun acc i => acc.insert (key i) i) t) key id
      (recordsOf records (insert entry entries)) := by
  have hset : recordsOf records (insert entry entries) =
      recordsOf records entries ∪ {i | i ∈ records entry} := by
    ext i
    simp [recordsOf, or_comm]
  have hinj := hu.injOn hhashes
  rw [hset] at hinj ⊢
  exact h.insertAll hinj

theorem HoldsBlocks.tabulates_prune (hb : HoldsBlocks index entries)
    (hu : Unshared entries) (h : Tabulates t key id (recordsOf records entries))
    (minBlockNumber : ℕ) :
    Tabulates ((index.txHashesBefore minBlockNumber).foldl (fun acc hash => acc.erase hash) t) key
      id (recordsOf records {entry ∈ entries | minBlockNumber ≤ entry.number}) := by
  -- A hash of an entry is kept exactly if the entry is, since no other entry has it.
  have hk : ∀ entry ∈ entries, ∀ i ∈ records entry,
      (key i ∉ (index.txHashesBefore minBlockNumber).map id ↔
        minBlockNumber ≤ entry.number) := by
    intro entry he i hi
    have hh := (hhashes entry).subset (mem_map_of_mem hi)
    rw [map_id, hb.mem_txHashesBefore, ← Nat.not_lt, not_iff_not]
    constructor
    · rintro ⟨entry', he', hlt, hh'⟩
      rwa [hu.apart entry he entry' he' _ hh hh']
    · exact fun hlt => ⟨entry, he, hlt, hh⟩
  have hset : {i ∈ recordsOf records entries |
      key i ∉ (index.txHashesBefore minBlockNumber).map id} =
        recordsOf records {entry ∈ entries | minBlockNumber ≤ entry.number} := by
    ext i
    constructor
    · rintro ⟨⟨entry, he, hi⟩, hnot⟩
      exact ⟨entry, ⟨he, (hk entry he i hi).1 hnot⟩, hi⟩
    · rintro ⟨entry, ⟨he, hle⟩, hi⟩
      exact ⟨⟨entry, he, hi⟩, (hk entry he i hi).2 hle⟩
  rw [← hset]
  exact h.eraseAll _ id

end Records

namespace HoldsTransactions

theorem new : HoldsTransactions BlockIndex.new ∅ :=
  ⟨tabulates_new, tabulates_new⟩

variable (h : HoldsTransactions index entries)
include h

theorem insertBlock {entry : IndexEntry} (hu : Unshared (insert entry entries)) :
    HoldsTransactions (index.insertBlock entry.block entry.txs entry.receipts)
      (insert entry entries) where
  transactions := hu.tabulates_insert IndexEntry.txs_hashes h.transactions
  receipts := hu.tabulates_insert IndexEntry.receipts_hashes h.receipts

theorem pruneBefore (hb : HoldsBlocks index entries) (hu : Unshared entries)
    (minBlockNumber : ℕ) :
    HoldsTransactions (index.pruneBefore minBlockNumber)
      {entry ∈ entries | minBlockNumber ≤ entry.number} where
  transactions :=
    hb.tabulates_prune IndexEntry.txs_hashes hu h.transactions minBlockNumber
  receipts := hb.tabulates_prune IndexEntry.receipts_hashes hu h.receipts minBlockNumber

theorem apply (hb : HoldsBlocks index entries) {op : IndexOp} (hbf : Unshared entries)
    (ha : Unshared (op.retain entries)) :
    HoldsTransactions (op.apply index) (op.retain entries) := by
  cases op with
  | insertBlock entry => exact h.insertBlock ha
  | pruneBefore minBlockNumber => exact h.pruneBefore hb hbf minBlockNumber

end HoldsTransactions

/-! ### Runs -/

namespace IndexOp

theorem index_concat (ops : List IndexOp) (op : IndexOp) :
    IndexOp.index (ops ++ [op]) = op.apply (IndexOp.index ops) := by
  rw [IndexOp.index, foldl_append]
  rfl

theorem retained_concat (ops : List IndexOp) (op : IndexOp) :
    retained (ops ++ [op]) = op.retain (retained ops) := by
  rw [retained, foldl_append]
  rfl

theorem retain_subset (entries : Set IndexEntry) (op : IndexOp) :
    op.retain entries ⊆ entries ∪ {entry | op = insertBlock entry} := by
  cases op with
  | insertBlock entry =>
    rintro entry' (rfl | hmem)
    · exact .inr rfl
    · exact .inl hmem
  | pruneBefore minBlockNumber => exact fun entry hmem => .inl hmem.1

theorem retained_subset (ops : List IndexOp) :
    retained ops ⊆ {entry | insertBlock entry ∈ ops} := by
  induction ops using List.reverseRecOn with
  | nil => exact Set.empty_subset _
  | append_singleton ops op ih =>
    rw [retained_concat]
    intro entry hmem
    rcases retain_subset _ _ hmem with hold | rfl
    · exact mem_append_left _ (ih hold)
    · exact mem_append_right _ mem_cons_self

theorem holdsBlocks {ops : List IndexOp}
    (hone : OneBlockPerNumber {entry | insertBlock entry ∈ ops}) :
    HoldsBlocks (IndexOp.index ops) (retained ops) := by
  induction ops using List.reverseRecOn with
  | nil => exact .new
  | append_singleton ops op ih =>
    have hm : {entry | insertBlock entry ∈ ops} ⊆ {entry | insertBlock entry ∈ ops ++ [op]} :=
      fun entry hmem => mem_append_left _ hmem
    rw [index_concat, retained_concat]
    refine (ih (hone.mono hm)).apply (hone.mono (Set.union_subset ?_ ?_))
    · exact (retained_subset ops).trans hm
    · rw [← retained_concat]
      exact retained_subset _

theorem holdsTransactions {ops : List IndexOp}
    (hone : OneBlockPerNumber {entry | insertBlock entry ∈ ops})
    (hu : ∀ past, past <+: ops → Unshared (retained past)) :
    HoldsTransactions (IndexOp.index ops) (retained ops) := by
  induction ops using List.reverseRecOn with
  | nil => exact .new
  | append_singleton ops op ih =>
    have hm : {entry | insertBlock entry ∈ ops} ⊆ {entry | insertBlock entry ∈ ops ++ [op]} :=
      fun entry hmem => mem_append_left _ hmem
    have hone' := hone.mono hm
    have hi : ops <+: ops ++ [op] := prefix_append ops [op]
    have ha := hu _ (prefix_rfl)
    rw [retained_concat] at ha
    rw [index_concat, retained_concat]
    exact (ih hone' fun past h => hu past (h.trans hi)).apply (holdsBlocks hone')
      (hu ops hi) ha

end IndexOp

/-! ### The getters -/

theorem HoldsTransactions.getTransactionsForBlock (h : HoldsTransactions index entries)
    (hone : OneBlockPerNumber entries) {entry : IndexEntry} (he : entry ∈ entries) :
    index.getTransactionsForBlock entry.hash = entry.txs := by
  have ht : Std.Total fun tx tx' : IndexedTransaction => tx.index ≤ tx'.index :=
    ⟨fun tx tx' => le_total tx.index tx'.index⟩
  have htr : IsTrans IndexedTransaction fun tx tx' => tx.index ≤ tx'.index :=
    ⟨fun _ _ _ hle hle' => hle.trans hle'⟩
  have hmem : ∀ tx, tx ∈ index.transactions.values.filter
      (fun tx => tx.blockHash = entry.hash) ↔ tx ∈ entry.txs := by
    intro tx
    rw [mem_filter, OrderedMap.mem_values, decide_eq_true_iff]
    constructor
    · rintro ⟨⟨hash, htx⟩, hb⟩
      obtain ⟨tx', ⟨entry', he', htx'⟩, -, rfl⟩ := (h.transactions hash tx).1 htx
      have hh : entry'.hash = entry.hash := (entry'.txs_of_block tx' htx').symm.trans hb
      rwa [← hone.hash he' he hh]
    · intro htx
      exact ⟨⟨tx.hash, h.transactions.getElem? ⟨entry, he, htx⟩⟩, entry.txs_of_block tx htx⟩
  have hn : entry.txs.Nodup := entry.txs_increasing.imp fun {tx tx'} hlt heq => by
    rw [heq] at hlt
    exact lt_irrefl _ hlt
  have hp : (index.getTransactionsForBlock entry.hash).Perm entry.txs :=
    (perm_insertionSort _ _).trans
      ((perm_ext_iff_of_nodup (h.transactions.nodup_values.filter _) hn).2 hmem)
  -- Both lists are in the order of the index, in which no two transactions of a block agree.
  refine List.Perm.eq_of_pairwise (fun tx tx' htx htx' hle hle' => ?_)
    (pairwise_insertionSort _ _) (entry.txs_increasing.imp Nat.le_of_lt) hp
  have hs : Std.Symm fun tx tx' : IndexedTransaction => tx.index ≠ tx'.index :=
    ⟨fun _ _ => Ne.symm⟩
  have hd : entry.txs.Pairwise fun tx tx' => tx.index ≠ tx'.index :=
    entry.txs_increasing.imp Nat.ne_of_lt
  by_contra hne
  exact hd.forall (hp.subset htx) htx' hne (Nat.le_antisymm hle hle')

/-- The index answers with the entries, and holds nothing else. -/
structure Answers (index : BlockIndex) (entries : Set IndexEntry) : Prop where
  blocks : ∀ entry ∈ entries, index.getBlockByNumber entry.number = some entry.block ∧
    index.getBlockByHash entry.hash = some entry.block
  transactionList : ∀ entry ∈ entries, index.getTransactionsForBlock entry.hash = entry.txs
  transactions : ∀ entry ∈ entries, ∀ tx ∈ entry.txs, index.getTransaction tx.hash = some tx
  receipts : ∀ entry ∈ entries, ∀ receipt ∈ entry.receipts,
    index.getReceipt receipt.transactionHash = some receipt
  onlyNumbers : ∀ number hash, index.blocksByNumber[number]? = some hash →
    ∃ entry ∈ entries, entry.number = number ∧ entry.hash = hash
  onlyBlocks : ∀ hash block, index.blocksByHash[hash]? = some block →
    ∃ entry ∈ entries, entry.hash = hash ∧ entry.block = block
  onlyTransactions : ∀ hash tx, index.transactions[hash]? = some tx →
    ∃ entry ∈ entries, tx ∈ entry.txs ∧ tx.hash = hash
  onlyReceipts : ∀ hash receipt, index.receipts[hash]? = some receipt →
    ∃ entry ∈ entries, receipt ∈ entry.receipts ∧ receipt.transactionHash = hash
  onlyLogs : ∀ hash logs, index.logsByBlock[hash]? = some logs →
    ∃ entry ∈ entries, entry.hash = hash ∧ entry.logs = logs

theorem HoldsTransactions.answers (h : HoldsTransactions index entries)
    (hb : HoldsBlocks index entries) (hone : OneBlockPerNumber entries) :
    Answers index entries where
  blocks entry he := by
    have hh : index.blocksByHash[entry.hash]? = some entry.block :=
      hb.byHash.getElem? he
    refine ⟨?_, hh⟩
    rw [BlockIndex.getBlockByNumber, hb.byNumber.getElem? he]
    exact hh
  transactionList entry he := h.getTransactionsForBlock hone he
  transactions entry he tx htx := h.transactions.getElem? ⟨entry, he, htx⟩
  receipts entry he receipt hr := h.receipts.getElem? ⟨entry, he, hr⟩
  onlyNumbers number hash hget := (hb.byNumber number hash).1 hget
  onlyBlocks hash block hget := (hb.byHash hash block).1 hget
  onlyTransactions hash tx hget := by
    obtain ⟨tx', ⟨entry, he, htx⟩, hh, rfl⟩ := (h.transactions hash tx).1 hget
    exact ⟨entry, he, htx, hh⟩
  onlyReceipts hash receipt hget := by
    obtain ⟨receipt', ⟨entry, he, hr⟩, hh, rfl⟩ := (h.receipts hash receipt).1 hget
    exact ⟨entry, he, hr, hh⟩
  onlyLogs hash logs hget := (hb.logs hash logs).1 hget

/-- **The index returns what was indexed**, after all insertions with one block for a number and
prunings: blocks and logs always, and everything if no transaction occurs twice in what is left. -/
theorem index_answers (ops : List IndexOp)
    (hone : OneBlockPerNumber {entry | IndexOp.insertBlock entry ∈ ops}) :
    HoldsBlocks (IndexOp.index ops) (IndexOp.retained ops) ∧
      ((∀ past, past <+: ops → Unshared (IndexOp.retained past)) →
        Answers (IndexOp.index ops) (IndexOp.retained ops)) :=
  ⟨IndexOp.holdsBlocks hone, fun hunshared =>
    (IndexOp.holdsTransactions hone hunshared).answers (IndexOp.holdsBlocks hone)
      (hone.mono (IndexOp.retained_subset ops))⟩

section Example

private def numbered (number : ℕ) (hash txHash : B256) : IndexedBlock :=
  { hash, number, parentHash := 0, stateRoot := 0, transactionsRoot := 0, receiptsRoot := 0
    timestamp := number, gasLimit := 30000000, gasUsed := 21000, baseFeePerGas := none
    mixHash := 0, logsBloom := 0, size := 608
    transactionHashes := [txHash] }

private def onlyTx (number : ℕ) (hash txHash : B256) : IndexedTransaction :=
  { hash := txHash, blockHash := hash, blockNumber := number, index := 0, sender := 1
    recipient := none, value := 0, gasLimit := 21000, gasPrice := 0, txType := .legacy
    chainId := none, maxFeePerGas := none, maxPriorityFeePerGas := none, v := 27, r := 0, s := 0
    input := [], nonce := 0 }

private def single (number : ℕ) (hash txHash : B256) : IndexEntry :=
  { block := numbered number hash txHash, txs := [onlyTx number hash txHash], receipts := []
    txs_of_block := by
      intro tx htx
      rw [mem_singleton.1 htx]
      rfl
    txs_increasing := pairwise_singleton _ _
    txs_hashes := List.Sublist.refl _
    receipts_hashes := nil_sublist _ }

theorem index_answers_second :
    Answers
      (IndexOp.index [.insertBlock (single 1 1 7), .insertBlock (single 2 2 8), .pruneBefore 2])
      (IndexOp.retained
        [.insertBlock (single 1 1 7), .insertBlock (single 2 2 8), .pruneBefore 2]) := by
  have hsub : {entry | IndexOp.insertBlock entry ∈
      [.insertBlock (single 1 1 7), .insertBlock (single 2 2 8), .pruneBefore 2]} ⊆
        {single 1 1 7, single 2 2 8} := by
    intro entry he
    simpa using he
  have hu : Unshared {single 1 1 7, single 2 2 8} := by
    refine ⟨?_, ?_⟩
    · rintro entry (rfl | rfl)
      · exact nodup_singleton _
      · exact nodup_singleton _
    · rintro entry (rfl | rfl) entry' (rfl | rfl) hash hh hh'
      · rfl
      · exact absurd ((mem_singleton.1 hh).symm.trans (mem_singleton.1 hh'))
          (by decide)
      · exact absurd ((mem_singleton.1 hh).symm.trans (mem_singleton.1 hh'))
          (by decide)
      · rfl
  refine (index_answers _ ((OneBlockPerNumber.pair _ _ (by decide) (by decide)).mono hsub)).2 ?_
  intro past hp
  exact hu.mono fun entry he =>
    hsub (hp.subset (IndexOp.retained_subset past he))

theorem shared_transaction_lost :
    ¬ ∀ ops : List IndexOp, OneBlockPerNumber {entry | IndexOp.insertBlock entry ∈ ops} →
      Answers (IndexOp.index ops) (IndexOp.retained ops) := by
  intro h
  have ha :=
    h [.insertBlock (single 1 1 7), .insertBlock (single 2 2 7), .pruneBefore 2] <| by
      refine (OneBlockPerNumber.pair (single 1 1 7) (single 2 2 7) (by decide)
        (by decide)).mono ?_
      intro entry he
      simpa using he
  have hl : (IndexOp.index
      [.insertBlock (single 1 1 7), .insertBlock (single 2 2 7), .pruneBefore 2]).getTransaction
        7 = none := by
    decide +kernel
  have hf := ha.transactions (single 2 2 7)
    ⟨.inl rfl, Nat.le_refl 2⟩ (onlyTx 2 2 7) mem_cons_self
  exact Option.some_ne_none _ (hf.symm.trans hl)

end Example

end Kora
