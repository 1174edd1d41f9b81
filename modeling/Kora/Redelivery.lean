/-
Redelivered blocks (`handle_finalized_update` and `finalize_block` in
`node/reporters/src/lib.rs`).

With a block index every delivery executes the block on its parent's snapshot, and a root
that differs aborts the process. What that snapshot shows stays what it was as long as
nothing above the parent is persisted.

* `Node.Redeliverable` — the condition on the state that a redelivery finds;
* `Settled` — the indexed blocks come out of their execution again as they are indexed;
* `redelivery_harmless` — a redelivery under the condition succeeds and changes nothing.
-/
import Kora.Environment
import Kora.Fees

open Std Option

namespace Kora

open BlockIndex LedgerState FinalizedReporter OrderedMap

variable {P : Platform}

/-! ### The condition -/

namespace BlockIndex

/-- The index holds a block and the up to 256 blocks before it. -/
def HoldsWindow (index : BlockIndex) (height : ℕ) : Prop :=
  ∀ number ≤ height, height ≤ number + 256 → (index.blocksByNumber[number]?).isSome

/-- The index holds no block that is pruned when one of this height is entered. -/
def PrunedFor (index : BlockIndex) (height : ℕ) : Prop :=
  ∀ number < height - MAX_RETAINED_BLOCKS, index.blocksByNumber[number]? = none

/-- The index has every transaction of the block, and its receipt, as one of this block. -/
def HoldsTxs (P : Platform) (index : BlockIndex) (block : Block) : Prop :=
  ∀ tx ∈ block.txs,
    (index.transactions[P.keccak256 tx.bytes]?).map (·.blockHash) = some (P.blockId block) ∧
      (index.receipts[P.keccak256 tx.bytes]?).map (·.blockHash) = some (P.blockId block)

end BlockIndex

/-- Block `i + 1` of the chain can be delivered again. -/
structure Node.Redeliverable (chain : Chain P) (checkpointInterval : ℕ) (node : Node) (i : ℕ) :
    Prop where
  known : (node.ledger.queryStateRoot (chain.digest (i + 1))).isSome
  checkpoint : FinalizedReporter.persistsCheckpoint checkpointInterval (i + 1) = true →
    chain.digest (i + 1) ∈ node.ledger.snapshots.persisted
  parent : node.ledger.snapshots.get (chain.digest i) = none ∨
    chain.UnmarkedAbove i node.ledger ∧ node.index.HoldsWindow (i + 1) ∧
      node.index.PrunedFor (i + 1) ∧ node.index.HoldsTxs P (chain.block (i + 1))

/-- Receipts are of the first transactions, and the roots of nothing are the empty trie's. -/
structure Platform.Indexes (P : Platform) : Prop where
  receipts : ∀ state view txs outcome, P.execute state view txs = .ok outcome →
    outcome.receipts.map (·.txHash) <+: txs.map P.keccak256
  transactionRoot : P.consensus.calculateTransactionRoot [] = EMPTY_ROOT_HASH
  receiptRoot : P.consensus.calculateReceiptRoot [] = EMPTY_ROOT_HASH

/-- A block without transactions is entered at a restart as it is indexed. -/
theorem Platform.Indexes.ofBlock_of_nil (hP : P.Indexes) {block : Block} (hnil : block.txs = [])
    (context : BlockContext) {outcome : ExecutionOutcome} (hr : outcome.receipts = []) :
    IndexedBlock.ofBlock P block context outcome =
      IndexedBlock.ofRecovered P block context outcome.gasUsed := by
  rw [IndexedBlock.ofBlock, receiptEnvelopes, hr, hnil, List.filterMap_nil, hP.transactionRoot,
    List.zip_nil_left, List.filterMap_nil, hP.receiptRoot]
  rfl

theorem Platform.Indexes.hashes (hP : P.Indexes) {l : LedgerState} {context : BlockContext}
    {block : Block} {parent : Snapshot} {outcome : ExecutionOutcome}
    (he : l.executeOnParent P context block = .ok (parent, outcome)) :
    outcome.receipts.map (·.txHash) <+: block.txs.map fun tx => P.keccak256 tx.bytes := by
  have hp := hP.receipts _ _ _ _ ((executeOnParent_ok P).1 he).2.1
  rwa [List.map_map] at hp

/-! ### What the index says about a block -/

/-- The index knows blocks of the chain alone, up to its head, and their transactions and
receipts. -/
structure Indexed (chain : Chain P) (index : BlockIndex) : Prop where
  head : index.headBlock ≤ chain.length
  numbers : ∀ number hash, index.blocksByNumber[number]? = some hash →
    number ≤ index.headBlock ∧ hash = P.blockId (chain.block number)
  transactions : ∀ hash tx, index.getTransaction hash = some tx → ∃ i ≤ index.headBlock,
    tx.blockHash = P.blockId (chain.block i) ∧
      lastOf (·.hash) (indexedTxs P (chain.block i)) hash = some tx
  receipts : ∀ hash receipt, index.getReceipt hash = some receipt → ∃ i ≤ index.headBlock,
    receipt.blockHash = P.blockId (chain.block i)

/-- The finalizer's context for a block of the chain. -/
abbrev Chain.context (chain : Chain P) (index : BlockIndex) (i : ℕ) : BlockContext :=
  RevmContextProvider.context ⟨chain.gasLimit, chain.feeRecipient⟩ index (chain.block i)

/-- The index entry of a block, with the context that the index gives for it. -/
abbrev Chain.entry (chain : Chain P) (index : BlockIndex) (i : ℕ) (outcome : ExecutionOutcome) :
    IndexedBlock :=
  IndexedBlock.ofBlock P (chain.block i) (chain.context index i) outcome

/-- The receipts that are indexed with it. -/
abbrev Chain.receipts (chain : Chain P) (index : BlockIndex) (i : ℕ) (outcome : ExecutionOutcome) :
    List IndexedReceipt :=
  indexedReceipts P (chain.block i) (chain.context index i) 0 0 outcome.receipts

/-- The index holds what came out of the execution of a block. -/
structure Entered (chain : Chain P) (index : BlockIndex) (i : ℕ) (outcome : ExecutionOutcome) :
    Prop where
  block : index.blocksByHash[P.blockId (chain.block i)]? = some (chain.entry index i outcome)
  logs : index.logsByBlock[P.blockId (chain.block i)]? =
    some ((chain.receipts index i outcome).flatMap (·.logs))
  receipts : ∀ hash receipt, index.getReceipt hash = some receipt →
    receipt.blockHash = P.blockId (chain.block i) →
    lastOf (·.transactionHash) (chain.receipts index i outcome) hash = some receipt

/-- The block has transactions, and the index none of them as one of the block. -/
def Bare (chain : Chain P) (index : BlockIndex) (i : ℕ) : Prop :=
  (chain.block i).txs ≠ [] ∧ ∀ hash tx, index.getTransaction hash = some tx →
    tx.blockHash ≠ P.blockId (chain.block i)

/-- Block `i + 1` executes on its parent's snapshot, under the context that the index gives, and the
index holds what comes out, or none of its transactions. -/
def Confirms (chain : Chain P) (l : LedgerState) (index : BlockIndex) (i : ℕ) : Prop :=
  ∃ parent outcome,
    l.executeOnParent P (chain.context index (i + 1)) (chain.block (i + 1)) =
      .ok (parent, outcome) ∧
    (Entered chain index (i + 1) outcome ∨ Bare chain index (i + 1))

/-- What is said about a block holds in another index with the same of the block and no more. -/
theorem Confirms.congr_index {chain : Chain P} {l : LedgerState} {index index' : BlockIndex} {i : ℕ}
    (h : Confirms chain l index i)
    (hc : chain.context index' (i + 1) = chain.context index (i + 1))
    (hb : index'.blocksByHash[P.blockId (chain.block (i + 1))]? =
      index.blocksByHash[P.blockId (chain.block (i + 1))]?)
    (hl : index'.logsByBlock[P.blockId (chain.block (i + 1))]? =
      index.logsByBlock[P.blockId (chain.block (i + 1))]?)
    (ht : ∀ hash tx, index'.getTransaction hash = some tx →
      tx.blockHash = P.blockId (chain.block (i + 1)) → index.getTransaction hash = some tx)
    (hr : ∀ hash receipt, index'.getReceipt hash = some receipt →
      receipt.blockHash = P.blockId (chain.block (i + 1)) →
      index.getReceipt hash = some receipt) : Confirms chain l index' i := by
  obtain ⟨parent, outcome, he, hen⟩ := h
  refine ⟨parent, outcome, by rw [hc]; exact he, ?_⟩
  rcases hen with hen | hbare
  · refine .inl ⟨?_, ?_, fun hash receipt hget hname => ?_⟩
    · rw [hb, hen.block, Chain.entry, Chain.entry, hc]
    · rw [hl, hen.logs, Chain.receipts, Chain.receipts, hc]
    · rw [Chain.receipts, hc]
      exact hen.receipts hash receipt (hr hash receipt hget hname) hname
  · exact .inr ⟨hbare.1, fun hash tx hget hname => hbare.2 hash tx (ht hash tx hget hname) hname⟩

namespace Indexed

variable {chain : Chain P} {index : BlockIndex}

variable (h : Indexed chain index)
include h

theorem insertBlock {i : ℕ} {b : IndexedBlock} {txs : List IndexedTransaction}
    {receipts : List IndexedReceipt} (hi : i ≤ chain.length) (hn : b.number = i)
    (hh : b.hash = P.blockId (chain.block i))
    (htxs : txs = [] ∨ txs = indexedTxs P (chain.block i))
    (hrs : ∀ receipt ∈ receipts, receipt.blockHash = P.blockId (chain.block i)) :
    Indexed chain (index.insertBlock b txs receipts) where
  head := by
    show max index.headBlock b.number ≤ chain.length
    have hhd := h.head
    omega
  numbers n hash hget := by
    show n ≤ max index.headBlock b.number ∧ _
    rw [blocksByNumber_insertBlock, hn, hh] at hget
    split at hget
    · next heq =>
      subst heq
      exact ⟨by omega, (some.inj hget).symm⟩
    · obtain ⟨hle, heq⟩ := h.numbers n hash hget
      exact ⟨by omega, heq⟩
  transactions hash tx hget := by
    rcases transactions_insertBlock hget with hnew | hold
    · obtain rfl := htxs.resolve_left fun hnil => by rw [hnil] at hnew; cases hnew
      exact ⟨i, hn ▸ le_max_right _ _, mem_indexedTxs (lastOf_eq_some hnew).1, hnew⟩
    · obtain ⟨j, hj, hname, hlast⟩ := h.transactions hash tx hold
      exact ⟨j, hj.trans (le_max_left _ _), hname, hlast⟩
  receipts hash receipt hget := by
    rcases receipts_insertBlock hget with hnew | hold
    · exact ⟨i, hn ▸ le_max_right _ _, hrs receipt (lastOf_eq_some hnew).1⟩
    · obtain ⟨j, hj, hname⟩ := h.receipts hash receipt hold
      exact ⟨j, hj.trans (le_max_left _ _), hname⟩

theorem pruneBefore (minBlockNumber : ℕ) : Indexed chain (index.pruneBefore minBlockNumber) where
  head := h.head
  numbers n hash hget := h.numbers n hash (blocksByNumber_pruneBefore hget)
  transactions hash tx hget := h.transactions hash tx (transactions_pruneBefore hget)
  receipts hash receipt hget := h.receipts hash receipt (receipts_pruneBefore hget)

/-- What the index has of a block under a transaction's hash is what the block has there. -/
theorem transactions_eq {i : ℕ} (hi : i ≤ chain.length) {hash : B256}
    (hname : (index.transactions[hash]?).map (·.blockHash) = some (P.blockId (chain.block i))) :
    index.transactions[hash]? = lastOf (·.hash) (indexedTxs P (chain.block i)) hash := by
  obtain ⟨tx, hget, hb⟩ := Option.map_eq_some_iff.1 hname
  obtain ⟨j, hj, hname', hlast⟩ := h.transactions hash tx hget
  obtain rfl := chain.blockId_inj hi (hj.trans h.head) (hb.symm.trans hname')
  rw [hget, hlast]

theorem context_eq {index' : BlockIndex} {i : ℕ} (hi : i < chain.length)
    (hn : ∀ n ≤ i, i + 1 ≤ n + 256 → index'.blocksByNumber[n]? = index.blocksByNumber[n]?)
    (hp : index'.blocksByHash[P.blockId (chain.block i)]? =
      index.blocksByHash[P.blockId (chain.block i)]?) :
    chain.context index' (i + 1) = chain.context index (i + 1) := by
  refine RevmContextProvider.context_congr ?_ fun n hlow hh => ?_
  · rw [chain.height (i + 1) hi, Nat.add_sub_cancel, getBlockByNumber,
      getBlockByNumber, hn i le_rfl (by omega)]
    cases hget : index.blocksByNumber[i]? with
    | none => rfl
    | some hash =>
      obtain ⟨-, rfl⟩ := h.numbers i hash hget
      exact hp
  · rw [chain.height (i + 1) hi] at hlow hh
    exact hn n (by omega) hh

theorem lt_length {i : ℕ} (hw : index.HoldsWindow (i + 1)) : i < chain.length := by
  obtain ⟨hash, hget⟩ := isSome_iff_exists.1 (hw (i + 1) le_rfl (by omega))
  have hle := (h.numbers _ _ hget).1
  have hh := h.head
  omega

end Indexed

/-! ### Settled blocks -/

/-- The first `r` blocks come out of another execution as they are indexed, if no block above the
parent is marked and the window is there. A parent's snapshot that is gone was evicted. -/
structure Settled (chain : Chain P) (r : ℕ) (l : LedgerState) (index : BlockIndex) : Prop
    extends Indexed chain index where
  confirmed : ∀ i < r, chain.UnmarkedAbove i l → index.HoldsWindow (i + 1) →
    (chain.digest i ∈ l.snapshots.persisted ∧ l.snapshots.get (chain.digest i) = none) ∨
      Confirms chain l index i

namespace Settled

variable {chain : Chain P} {r : ℕ} {l l' : LedgerState} {index : BlockIndex}

theorem of_marked (h : Indexed chain index) (hr : r ≤ chain.length)
    (hm : chain.digest r ∈ l.snapshots.persisted) : Settled chain r l index :=
  ⟨h, fun _ hi hu _ => absurd hm (hu r hi hr)⟩

variable (h : Settled chain r l index)
include h

/-- A new snapshot changes nothing for the blocks of other parents, nor if the parent's was never
there. -/
theorem insert {d : Digest} (hq : l'.qmdb = l.qmdb)
    (hm : ∀ d' ∈ l.snapshots.persisted, d' ∈ l'.snapshots.persisted)
    (hget : ∀ d', d' ≠ d → l'.snapshots.get d' = l.snapshots.get d')
    (hf : ∀ i < r, chain.digest i = d → l.snapshots.get d = none ∧ d ∉ l.snapshots.persisted) :
    Settled chain r l' index := by
  refine ⟨h.toIndexed, fun i hi hu hw => ?_⟩
  have hb : chain.UnmarkedAbove i l := fun j hij hj hmem => hu j hij hj (hm _ hmem)
  have hp := chain.parent_block (h.lt_length hw)
  rcases h.confirmed i hi hb hw with ⟨hmem, hnone⟩ | ⟨parent, outcome, he, hen⟩
  · have hne : chain.digest i ≠ d := by
      rintro rfl
      exact (hf i hi rfl).2 hmem
    exact .inl ⟨hm _ hmem, (hget _ hne).trans hnone⟩
  · have hne : chain.digest i ≠ d := by
      rintro rfl
      have hsome := ((executeOnParent_ok P).1 he).1
      rw [hp, (hf i hi rfl).1] at hsome
      cases hsome
    refine .inr ⟨parent, outcome, ?_, hen⟩
    rw [executeOnParent_frame P (by rw [hp]; exact hget _ hne) hq]
    exact he

theorem insertExecuted {i : ℕ} (hi : i < chain.length) (hr : r ≤ i) {context : BlockContext}
    {parent : Snapshot} {outcome : ExecutionOutcome}
    (he : l.executeOnParent P context (chain.block (i + 1)) = .ok (parent, outcome)) :
    Settled chain r (l.insertExecuted P (chain.block (i + 1)) parent outcome.changes) index ∧
      (l.insertExecuted P (chain.block (i + 1)) parent outcome.changes).executeOnParent P context
        (chain.block (i + 1)) = .ok (parent, outcome) := by
  have hget : ∀ d, d ≠ chain.digest (i + 1) → (l.insertExecuted P (chain.block (i + 1)) parent
      outcome.changes).snapshots.get d = l.snapshots.get d := by
    intro d hd
    rw [get_insertExecuted]
    exact if_neg (Ne.symm hd)
  have ho : ∀ j ≤ i, chain.digest j ≠ chain.digest (i + 1) :=
    fun j hj => chain.digest_ne_of_lt (Nat.lt_succ_of_le hj) hi
  refine ⟨h.insert rfl (fun _ hd => hd) hget fun j hj heq => ?_, ?_⟩
  · exact absurd heq (ho j (by omega))
  · have hq : (l.insertExecuted P (chain.block (i + 1)) parent outcome.changes).qmdb = l.qmdb :=
      rfl
    rw [executeOnParent_frame P ?_ hq]
    · exact he
    · rw [chain.parent_block hi]
      exact hget _ (ho i le_rfl)

theorem persistSnapshot {j : ℕ} (hrj : r ≤ j) (hj : j ≤ chain.length) :
    Settled chain r (l.persistSnapshot (chain.digest j)).1 index := by
  rcases l.persistSnapshot_marks (chain.digest j) with hs | hm
  · rw [hs]
    exact h
  · exact ⟨h.toIndexed, fun i hi hu _ => absurd hm (hu j (hi.trans_le hrj) hj)⟩

/-- A block that is entered settles if it is confirmed itself. -/
theorem insertBlock {i : ℕ} (hi : i < chain.length) (hr : r ≤ i)
    (hgap : ∀ n, r < n → n ≤ i → index.blocksByNumber[n]? = none) {b : IndexedBlock}
    {txs : List IndexedTransaction} {receipts : List IndexedReceipt} (hnb : b.number = i + 1)
    (hhb : b.hash = P.blockId (chain.block (i + 1)))
    (htxs : txs = [] ∨ txs = indexedTxs P (chain.block (i + 1)))
    (hrs : ∀ receipt ∈ receipts, receipt.blockHash = P.blockId (chain.block (i + 1)))
    (hnew : chain.context (index.insertBlock b txs receipts) (i + 1) = chain.context index (i + 1) →
      Confirms chain l (index.insertBlock b txs receipts) i) :
    Settled chain (i + 1) l (index.insertBlock b txs receipts) := by
  have hnm : ∀ n, n ≠ i + 1 →
      (index.insertBlock b txs receipts).blocksByNumber[n]? = index.blocksByNumber[n]? := by
    intro n hn
    rw [blocksByNumber_insertBlock, hnb, if_neg (Ne.symm hn)]
  have hid : ∀ n ≤ chain.length, n ≠ i + 1 →
      P.blockId (chain.block (i + 1)) ≠ P.blockId (chain.block n) := fun n hlen hn heq =>
    hn (chain.blockId_inj hi hlen heq).symm
  have hh : ∀ n ≤ chain.length, n ≠ i + 1 →
      (index.insertBlock b txs receipts).blocksByHash[P.blockId (chain.block n)]? =
        index.blocksByHash[P.blockId (chain.block n)]? := by
    intro n hlen hn
    rw [blocksByHash_insertBlock, hhb, if_neg (hid n hlen hn)]
  have hc : ∀ j ≤ i,
      chain.context (index.insertBlock b txs receipts) (j + 1) = chain.context index (j + 1) := by
    intro j hj
    exact h.context_eq (by omega) (fun n hn _ => hnm n (by omega))
      (hh j (by omega) (by omega))
  refine ⟨h.toIndexed.insertBlock hi hnb hhb htxs hrs, fun j hj hu hw => ?_⟩
  rcases Nat.lt_or_ge j i with hlt | hge
  · -- an older block, which was settled before or is not in the index
    have hw' : index.HoldsWindow (j + 1) := by
      intro n hn hhg
      rw [← hnm n (by omega)]
      exact hw n hn hhg
    have hjr : j < r := by
      by_contra hge
      have hown := hw' (j + 1) le_rfl (by omega)
      rw [hgap (j + 1) (by omega) (by omega)] at hown
      cases hown
    rcases h.confirmed j hjr hu hw' with hg | hcf
    · exact .inl hg
    · -- what is entered names another block
      have hne := hid (j + 1) (by omega) (by omega)
      refine .inr (hcf.congr_index (hc j hlt.le) (hh (j + 1) (by omega) (by omega)) ?_ ?_ ?_)
      · rw [logsByBlock_insertBlock, hhb, if_neg hne]
      · intro hash tx hget hname
        refine (transactions_insertBlock hget).resolve_left fun hlast => hne ?_
        obtain rfl := htxs.resolve_left fun hnil => by rw [hnil] at hlast; cases hlast
        rw [← hname, mem_indexedTxs (lastOf_eq_some hlast).1]
      · intro hash receipt hget hname
        refine (receipts_insertBlock hget).resolve_left fun hlast => hne ?_
        rw [← hname, hrs receipt (lastOf_eq_some hlast).1]
  · obtain rfl : j = i := by omega
    exact .inr (hnew (hc j le_rfl))

/-- A finalized block that is new to the index. -/
theorem indexFinalizedBlock {i : ℕ} (hi : i < chain.length) (hr : r ≤ i)
    (hhead : index.headBlock ≤ r) {parent : Snapshot} {outcome : ExecutionOutcome}
    (he : l.executeOnParent P (chain.context index (i + 1)) (chain.block (i + 1)) =
      .ok (parent, outcome)) :
    Settled chain (i + 1) l (index.indexFinalizedBlock P (chain.block (i + 1))
      (chain.context index (i + 1)) outcome) := by
  refine h.insertBlock hi hr (fun n hn _ => ?_) (chain.height _ hi) rfl (.inr rfl)
    (fun receipt => mem_indexedReceipts) fun hc => ⟨parent, outcome, by rw [hc]; exact he, .inl ?_⟩
  · by_contra hsome
    obtain ⟨hash, hget⟩ := ne_none_iff_exists'.1 hsome
    exact absurd (h.numbers n hash hget).1 (by omega)
  · refine ⟨?_, ?_, fun hash receipt hget hname => ?_⟩
    · rw [blocksByHash_insertBlock, Chain.entry, hc]
      exact if_pos rfl
    · rw [logsByBlock_insertBlock, Chain.receipts, hc]
      exact if_pos rfl
    · rw [Chain.receipts, hc]
      refine (receipts_insertBlock hget).resolve_right fun hold => ?_
      obtain ⟨j, hj, hname'⟩ := h.receipts hash receipt hold
      have hij := chain.blockId_inj hi (hj.trans h.head) (hname.symm.trans hname')
      omega

/-- A block that is replayed at a restart, when the index has no transactions. -/
theorem insertReplayed (hP : P.Indexes) (hi : r < chain.length) (ht : index.transactions = ∅)
    (hrc : index.receipts = ∅) {parent : Snapshot} {outcome : ExecutionOutcome}
    (he : l.executeOnParent P (chain.context index (r + 1)) (chain.block (r + 1)) =
      .ok (parent, outcome)) :
    Settled chain (r + 1) l (index.insertBlock (IndexedBlock.ofRecovered P (chain.block (r + 1))
      (chain.context index (r + 1)) outcome.gasUsed) [] []) := by
  refine h.insertBlock hi le_rfl (fun n hn hle => absurd hn (by omega)) (chain.height _ hi) rfl
    (.inl rfl) (fun _ hmem => absurd hmem List.not_mem_nil)
    fun hc => ⟨parent, outcome, by rw [hc]; exact he, ?_⟩
  by_cases hnil : (chain.block (r + 1)).txs = []
  · have hrec : outcome.receipts = [] := by
      have hp := hP.hashes he
      rw [hnil, List.map_nil, List.prefix_nil, List.map_eq_nil_iff] at hp
      exact hp
    refine .inl ⟨?_, ?_, fun hash receipt hget _ => ?_⟩
    · rw [blocksByHash_insertBlock, Chain.entry, hc, hP.ofBlock_of_nil hnil _ hrec]
      exact if_pos rfl
    · rw [logsByBlock_insertBlock, Chain.receipts, hrec]
      exact if_pos rfl
    · rcases receipts_insertBlock hget with hnew | hold
      · cases hnew
      · rw [hrc] at hold
        simp at hold
  · refine .inr ⟨hnil, fun hash tx hget => ?_⟩
    rcases transactions_insertBlock hget with hnew | hold
    · cases hnew
    · rw [ht] at hold
      simp at hold

theorem pruneBefore (minBlockNumber : ℕ) :
    Settled chain r l (index.pruneBefore minBlockNumber) := by
  refine ⟨h.toIndexed.pruneBefore minBlockNumber, fun i hi hu hw => ?_⟩
  have hk : ∀ n ≤ i + 1, i + 1 ≤ n + 256 → minBlockNumber ≤ n := by
    intro n hn hh
    have hsome := hw n hn hh
    rw [getElem?_blocksByNumber_pruneBefore] at hsome
    by_contra hlt
    rw [if_pos (by omega)] at hsome
    cases hsome
  have hnm : ∀ n ≤ i + 1, i + 1 ≤ n + 256 →
      (index.pruneBefore minBlockNumber).blocksByNumber[n]? = index.blocksByNumber[n]? := by
    intro n hn hh
    have hmin := hk n hn hh
    rw [getElem?_blocksByNumber_pruneBefore, if_neg (by omega)]
  have hw' : index.HoldsWindow (i + 1) := by
    intro n hn hh
    rw [← hnm n hn hh]
    exact hw n hn hh
  have hlen := h.lt_length hw'
  have hhs : ∀ n ≤ i + 1, i + 1 ≤ n + 256 →
      (index.pruneBefore minBlockNumber).blocksByHash[P.blockId (chain.block n)]? =
          index.blocksByHash[P.blockId (chain.block n)]? ∧
        (index.pruneBefore minBlockNumber).logsByBlock[P.blockId (chain.block n)]? =
          index.logsByBlock[P.blockId (chain.block n)]? := by
    intro n hn hh
    refine pruneBefore_of_forall fun n' hn' hget => ?_
    obtain ⟨hle, heq⟩ := h.numbers n' _ hget
    have hmin := hk n hn hh
    have hhd := h.head
    have hs := chain.blockId_inj (by omega) (by omega) heq
    omega
  have hc := h.context_eq hlen (fun n hn hh => hnm n (by omega) hh)
    (hhs i (by omega) (by omega)).1
  obtain ⟨hb, hl⟩ := hhs (i + 1) le_rfl (by omega)
  rcases h.confirmed i hi hu hw' with hg | hcf
  · exact .inl hg
  · exact .inr (hcf.congr_index hc hb hl (fun _ _ hget _ => transactions_pruneBefore hget)
      fun _ _ hget _ => receipts_pruneBefore hget)

end Settled

/-! ### A redelivery -/

/-- The entries of a block that the index holds with its transactions are entered without effect. -/
theorem Settled.indexFinalizedBlock_eq {chain : Chain P} {l : LedgerState} {index : BlockIndex}
    {r i : ℕ} (h : Settled chain r l index) (hP : P.Indexes) (hi : i < chain.length)
    (hn : index.blocksByNumber[i + 1]? = some (P.blockId (chain.block (i + 1))))
    (hh : i < index.headBlock) {parent : Snapshot} {outcome : ExecutionOutcome}
    (hex : l.executeOnParent P (chain.context index (i + 1)) (chain.block (i + 1)) =
      .ok (parent, outcome)) (he : Entered chain index (i + 1) outcome)
    (htxs : index.HoldsTxs P (chain.block (i + 1))) :
    index.indexFinalizedBlock P (chain.block (i + 1)) (chain.context index (i + 1)) outcome =
      index := by
  -- the hashes of the entries are those of transactions of the block
  have hmem : ∀ {hashes : List B256} {hash : B256},
      hashes.Sublist ((chain.block (i + 1)).txs.map fun tx => P.keccak256 tx.bytes) →
      hash ∈ hashes → (index.transactions[hash]?).map (·.blockHash) =
          some (P.blockId (chain.block (i + 1))) ∧
        (index.receipts[hash]?).map (·.blockHash) = some (P.blockId (chain.block (i + 1))) := by
    intro hashes hash hsub hhash
    obtain ⟨tx, htx, rfl⟩ := List.mem_map.1 (hsub.subset hhash)
    exact htxs tx htx
  refine insertBlock_of_known he.block ?_ ((chain.height _ hi).le.trans hh) (fun tx htx => ?_)
    (fun receipt hrc => ?_) he.logs
  · exact (congrArg _ (chain.height _ hi)).trans hn
  · exact h.transactions_eq hi (hmem indexedTxs_hashes (List.mem_map_of_mem htx)).1
  · obtain ⟨receipt', hget, hname⟩ := Option.map_eq_some_iff.1
      (hmem (indexedReceipts_hashes.trans (hP.hashes hex).sublist) (List.mem_map_of_mem hrc)).2
    rw [hget, he.receipts _ receipt' hget hname]

theorem Settled.redelivery {chain : Chain P} {node : Node} (hP : P.Indexes)
    (h : Settled chain node.index.headBlock node.ledger node.index)
    (hp : node.provider = ⟨chain.gasLimit, chain.feeRecipient⟩) {checkpointInterval i : ℕ}
    (hi : i < chain.length) (hre : node.Redeliverable chain checkpointInterval i) :
    handleFinalizedUpdate P node.ledger node.index node.provider
      (chain.block (i + 1)) (persistsCheckpoint checkpointInterval (i + 1)) =
        (node.ledger, node.index, true) := by
  have hk : (node.ledger.queryStateRoot (P.commitment (chain.block (i + 1)))).isSome = true :=
    hre.known
  have hpr := chain.parent_block hi
  -- a parent's snapshot that is gone is only warned about
  have hg : node.ledger.snapshots.get (chain.digest i) = none →
      handleFinalizedUpdate P node.ledger node.index node.provider
        (chain.block (i + 1)) (persistsCheckpoint checkpointInterval (i + 1)) =
          (node.ledger, node.index, true) := by
    intro hnone
    rw [handleFinalizedUpdate, finalizeBlock,
      ensureSnapshot_known_orphan P hk (by rw [hpr, hnone])]
    dsimp only
    cases hc : persistsCheckpoint checkpointInterval (i + 1) with
    | false => rfl
    | true =>
      rw [if_pos rfl, show P.commitment (chain.block (i + 1)) = chain.digest (i + 1) from rfl,
        persistSnapshot_of_persisted (hre.checkpoint hc)]
  rcases hre.parent with hnone | ⟨hu, hw, hpn, htxs⟩
  · exact hg hnone
  obtain ⟨hash, hn⟩ := isSome_iff_exists.1 (hw (i + 1) le_rfl (by omega))
  obtain ⟨hh, rfl⟩ := h.numbers _ _ hn
  rcases h.confirmed i hh hu hw with ⟨-, hnone⟩ | ⟨parent, outcome, hex, hen⟩
  · exact hg hnone
  -- the index has a transaction of the block, if there is one
  have he : Entered chain node.index (i + 1) outcome := by
    refine hen.resolve_right ?_
    rintro ⟨hne, hbare⟩
    obtain ⟨tx, htx⟩ := List.exists_mem_of_ne_nil _ hne
    obtain ⟨found, hget, hname⟩ := Option.map_eq_some_iff.1 (htxs tx htx).1
    exact hbare _ found hget hname
  -- the mark of a checkpoint would be above the parent
  have hc : persistsCheckpoint checkpointInterval (i + 1) = false := by
    rw [← Bool.not_eq_true]
    exact fun ht => hu (i + 1) (by omega) hi (hre.checkpoint ht)
  have hin := h.indexFinalizedBlock_eq hP hi hn hh hex he htxs
  have hpru := pruneBefore_of_none hpn
  rw [handleFinalizedUpdate, hc, hp,
    finalizeBlock_noCheckpoint,
    ensureSnapshot_known_executed P hk hex]
  dsimp only
  rw [FinalizedReporter.indexFinalizedBlock, hin, chain.height _ hi, hpru, ite_self]

/-! ### Lives with redeliveries -/

/-- Finalized blocks are new to the index or can be delivered again, the finalizer alone persists,
and no block is verified anew whose snapshot was evicted. -/
def Lifecycle.Orderly (chain : Chain P) (checkpointInterval : ℕ) (node : Node) : Lifecycle → Prop
  | live (.verify block _ _) => P.commitment block ∈ node.ledger.snapshots.persisted →
      (node.ledger.queryStateRoot (P.commitment block)).isSome
  | live (.finalize block persistCheckpoint) =>
      persistCheckpoint =
        FinalizedReporter.persistsCheckpoint checkpointInterval block.height ∧
      ∀ i < chain.length, block = chain.block (i + 1) →
        node.index.headBlock ≤ i ∨ node.Redeliverable chain checkpointInterval i
  | live (.persist _) => False
  | live (.build ..) => True
  | restart _ _ => True

/-- The invariant of a life. -/
structure Steady (chain : Chain P) (node : Node) : Prop where
  provider : node.provider = ⟨chain.gasLimit, chain.feeRecipient⟩
  settled : Settled chain node.index.headBlock node.ledger node.index

namespace Steady

variable {chain : Chain P} {node : Node} {checkpointInterval : ℕ}

variable (h : Steady chain node)
include h

theorem verify {block : Block} {parentTimestamp : Option ℕ} {nowSecs : ℕ}
    (he : P.commitment block ∈ node.ledger.snapshots.persisted →
      (node.ledger.queryStateRoot (P.commitment block)).isSome) :
    Steady chain (node.step P (.verify block parentTimestamp nowSecs)) := by
  refine ⟨(node.provider_step _).trans h.provider, ?_⟩
  -- a block without a snapshot is not marked
  have hf : node.ledger.queryStateRoot (P.commitment block) = none →
      node.ledger.snapshots.get (P.commitment block) = none ∧
        P.commitment block ∉ node.ledger.snapshots.persisted := by
    intro hnone
    refine ⟨Option.map_eq_none_iff.1 hnone, fun hmem => ?_⟩
    have hsome := he hmem
    rw [hnone] at hsome
    cases hsome
  rcases node.app.verifyBlock_cases P node.ledger block parentTimestamp nowSecs
    with ⟨height, ok, hres⟩ | ⟨ht, hres⟩ | ⟨parent, outcome, -, hnone, hres⟩
  · rw [Node.step, hres]
    exact h.settled
  · rw [Node.step, hres]
    refine h.settled.insert rfl (fun d hd => ?_) (fun d hd => ?_)
      fun i _ _ => hf ht.2.1
    · rw [mem_persisted_restorePersistedSnapshot]
      exact .inr hd
    · rw [get_restorePersistedSnapshot, if_neg (Ne.symm hd)]
  · rw [Node.step, hres]
    refine h.settled.insert rfl (fun _ hd => hd) (fun d hd => ?_) fun i _ _ => hf hnone
    rw [get_insertExecuted, if_neg (Ne.symm hd)]

theorem entered {i : ℕ} (hi : i < chain.length) (hnew : node.index.headBlock ≤ i) {l : LedgerState}
    (hs : Settled chain node.index.headBlock l node.index)
    (hp : l.snapshots.get (chain.digest i) = node.ledger.snapshots.get (chain.digest i))
    (hq : l.qmdb = node.ledger.qmdb) (persistCheckpoint : Bool) {index' : BlockIndex}
    (hin : index' = (handleFinalizedUpdate P node.ledger node.index
      node.provider (chain.block (i + 1)) persistCheckpoint).2.1) :
    Settled chain index'.headBlock l index' ∧ index'.headBlock ≤ i + 1 := by
  rw [hin]
  rcases handleFinalizedUpdate_index P node.ledger node.index node.provider
    (chain.block (i + 1)) persistCheckpoint with hsm | ⟨parent, outcome, he, hres⟩
  · rw [hsm]
    exact ⟨hs, by omega⟩
  · rw [← chain.parent_block hi] at hp
    rw [h.provider, ← executeOnParent_frame P hp hq] at he
    have hnx := hs.indexFinalizedBlock hi hnew le_rfl he
    have hl : (node.index.indexFinalizedBlock P (chain.block (i + 1))
        (chain.context node.index (i + 1)) outcome).headBlock = i + 1 := by
      show max node.index.headBlock (chain.block (i + 1)).height = i + 1
      rw [chain.height _ hi]
      omega
    rw [hres, h.provider, FinalizedReporter.indexFinalizedBlock]
    generalize node.index.indexFinalizedBlock P (chain.block (i + 1)) _ outcome = index at hnx hl
    rw [← hl] at hnx
    split
    · exact ⟨hnx.pruneBefore _, hl.le⟩
    · exact ⟨hnx, hl.le⟩

theorem finalize {i : ℕ} (hi : i < chain.length) (hnew : node.index.headBlock ≤ i)
    (persistCheckpoint : Bool) :
    Steady chain (node.step P (.finalize (chain.block (i + 1)) persistCheckpoint)) := by
  refine ⟨(node.provider_step _).trans h.provider, ?_⟩
  have ho : ∀ j ≤ i, chain.digest j ≠ chain.digest (i + 1) :=
    fun j hj => chain.digest_ne_of_lt (Nat.lt_succ_of_le hj) hi
  -- the snapshot of the block
  obtain ⟨hq, hm, hget⟩ := ensureSnapshot_frame P node.ledger node.index
    node.provider true (chain.block (i + 1))
  set l := (ensureSnapshot P node.ledger node.index node.provider true
    (chain.block (i + 1))).1 with hl
  have hsn : Settled chain node.index.headBlock l node.index :=
    h.settled.insert hq hm hget fun j hj heq => absurd heq (ho j (by omega))
  obtain ⟨hs, hle⟩ := h.entered hi hnew hsn (hget _ (ho i le_rfl)) hq
    persistCheckpoint rfl
  -- its persist
  rw [Node.step, handleFinalizedUpdate_ledger]
  rcases finalizeBlock_ledger P node.ledger node.index node.provider true
    (chain.block (i + 1)) persistCheckpoint with hres | hres
  · rw [hres]
    exact hs
  · rw [hres]
    exact hs.persistSnapshot hle hi

theorem step (hP : P.Indexes) {op : Node.Op} (hc : op.OnChain chain)
    (ho : (Lifecycle.live op).Orderly chain checkpointInterval node) :
    Steady chain (node.step P op) := by
  cases op with
  | build mempool seeds parent timestamp =>
    exact ⟨(node.provider_step _).trans h.provider, h.settled⟩
  | verify block parentTimestamp nowSecs => exact h.verify ho
  | finalize block persistCheckpoint =>
    obtain ⟨i, hi, rfl⟩ := hc
    obtain ⟨hf, hcs⟩ := ho
    rcases hcs i hi rfl with hnew | hre
    · exact h.finalize hi hnew persistCheckpoint
    · have hs := h.settled.redelivery hP h.provider hi hre
      rw [chain.height _ hi] at hf
      rw [Node.step, hf, hs]
      exact h
  | persist digest => exact absurd ho id

end Steady

/-! ### A restart -/

theorem Recovery.mem_persisted_prepopulateSnapshotCache {archive : Archive} {heights : List ℕ}
    {l : LedgerState} {d : Digest} (h : d ∈ l.snapshots.persisted) :
    d ∈ (Recovery.prepopulateSnapshotCache P archive heights l).snapshots.persisted := by
  induction heights generalizing l with
  | nil => exact h
  | cons height heights ih =>
    rw [Recovery.prepopulateSnapshotCache]
    split
    · exact h
    · refine ih ?_
      split
      · exact h
      · rw [mem_persisted_restorePersistedSnapshot]
        exact .inr h

/-- At a restart the index is filled with blocks alone. -/
structure Refilled (chain : Chain P) (a : ℕ) (index : BlockIndex) : Prop
    extends Indexed chain index where
  headBlock : index.headBlock = a
  noTransactions : index.transactions = ∅
  noReceipts : index.receipts = ∅

theorem Refilled.indexArchive {chain : Chain P} (provider : RevmContextProvider) {a : ℕ}
    (ha : a ≤ chain.length) : Refilled chain a (chain.indexArchive provider
      (BlockIndex.new.seedGenesisBlockIndex P (chain.block 0) chain.gasLimit) a) := by
  induction a with
  | zero =>
    have he : Indexed chain new :=
      ⟨Nat.zero_le _, fun n hash hget => by simp [new] at hget,
        fun hash tx hget => by simp [new, getTransaction] at hget,
        fun hash receipt hget => by simp [new, getReceipt] at hget⟩
    exact ⟨he.insertBlock (Nat.zero_le _) rfl rfl (.inl rfl)
      (fun _ hmem => absurd hmem List.not_mem_nil), rfl, rfl, rfl⟩
  | succ a ih =>
    have h := ih (by omega)
    rw [Chain.indexArchive, List.range'_1_concat, List.foldl_append, ← Chain.indexArchive,
      Nat.add_comm 1 a]
    refine ⟨h.insertBlock ha (chain.height _ ha) rfl (.inl rfl)
      (fun _ hmem => absurd hmem List.not_mem_nil), ?_, h.noTransactions, h.noReceipts⟩
    show max _ (chain.block (a + 1)).height = a + 1
    rw [h.headBlock, chain.height _ ha]
    omega

theorem Settled.replayTail (hP : P.Indexes) {chain : Chain P} {m a : ℕ} (hma : m ≤ a)
    (ha : a ≤ chain.length) {l : LedgerState} {index : BlockIndex} (ht : HoldsTail chain m m l)
    (hi : Refilled chain a index) {restored : Recovery.Restored}
    (hres : Recovery.replayTail P ⟨chain.gasLimit, chain.feeRecipient⟩ (chain.archive a) (a - m)
      (m + 1) ⟨l, index, m, chain.digest m, false⟩ = .ok restored) :
    Settled chain a restored.ledger restored.index ∧ restored.index.headBlock = a := by
  have hst : Settled chain m l index :=
    .of_marked hi.toIndexed ht.high ((ht.persisted m le_rfl ht.high).2 rfl)
  obtain ⟨⟨-, hs, hh⟩, -⟩ := Recovery.replayTail_induction ha
    (fun r l index => HoldsTail chain m r l ∧ Settled chain r l index ∧ Refilled chain a index) (by
      rintro r l index l' index' hra ⟨ht, hs, hh⟩ hb
      have hr : r < chain.length := by omega
      obtain ⟨parent, outcome, he, rfl, rfl⟩ :=
        Recovery.replayFinalizedBlock_ok (ht.queryStateRoot_succ hr) hb
      obtain ⟨hsn, he'⟩ := hs.insertExecuted hr le_rfl he
      have hnx := hsn.insertReplayed hP hr hh.noTransactions hh.noReceipts he'
      refine ⟨ht.insertExecuted hr he, hnx, hnx.toIndexed, ?_, hh.noTransactions, hh.noReceipts⟩
      show max index.headBlock (chain.block (r + 1)).height = a
      rw [hh.headBlock, chain.height _ hr]
      omega) ⟨ht, hst, hi⟩ (Nat.add_sub_cancel' hma) hres
  exact ⟨hs, hh.headBlock⟩

namespace Steady

variable {chain : Chain P} {node : Node} {checkpointInterval : ℕ}

theorem start (chain : Chain P) (q : QmdbStore) (maxTxs recoveredHeight : ℕ) :
    Steady chain (Node.start P q (chain.block 0) maxTxs chain.gasLimit chain.feeRecipient
      recoveredHeight) := by
  have hin := Refilled.indexArchive ⟨chain.gasLimit, chain.feeRecipient⟩
    (show 0 ≤ chain.length from Nat.zero_le _)
  exact ⟨rfl, hin.toIndexed, fun i hi => absurd (hi.trans_eq hin.headBlock) (Nat.not_lt_zero i)⟩

theorem restart (hP : P.Indexes) {a : ℕ} (ha : a ≤ chain.length) {marker : Option ℕ}
    (hmr : ∀ m, marker = some m → 0 < m ∧ m ≤ chain.length) {q : QmdbStore} {maxTxs : ℕ}
    (hres : Node.restart P q (chain.block 0) maxTxs chain.gasLimit chain.feeRecipient
      (chain.archive a) (marker.map chain.digest) = .ok node) : Steady chain node := by
  have hin := HoldsTail.init chain q
  have hi := Refilled.indexArchive ⟨chain.gasLimit, chain.feeRecipient⟩ ha
  rw [Node.restart] at hres
  split at hres
  · cases hres
  · next restored hrec =>
    -- a restart without a tail leaves a mark on the head of the archive
    have hrs : Settled chain a restored.ledger restored.index ∧
        restored.index.headBlock = a ∧
        (restored.replayedTail = true ∨ Indexed chain restored.index ∧
          chain.digest a ∈ restored.ledger.snapshots.persisted) := by
      rcases Recovery.recoverFinalizedState_cases ha hmr hrec with
        ⟨rfl, rfl⟩ | ⟨hpos, rfl, rfl⟩ | ⟨m, rfl, hpos, hma, hr⟩
      · have hm := (hin.persisted 0 le_rfl (Nat.zero_le _)).2 rfl
        exact ⟨.of_marked hi.toIndexed ha hm, hi.headBlock, .inr ⟨hi.toIndexed, hm⟩⟩
      · have hm := ((hin.restorePersistedSnapshot hpos ha).persisted a le_rfl ha).2 rfl
        exact ⟨.of_marked hi.toIndexed ha hm, hi.headBlock, .inr ⟨hi.toIndexed, hm⟩⟩
      · have ht := hin.restorePersistedSnapshot hpos (hma.trans ha)
        obtain ⟨hs, hh'⟩ := Settled.replayTail hP hma ha ht hi hr
        refine ⟨hs, hh', ?_⟩
        rcases Recovery.replayTail_replayed_or_same ha hma hr with hrp | ⟨rfl, rfl⟩
        · exact .inl hrp
        · exact .inr ⟨hi.toIndexed, (ht.persisted m le_rfl ha).2 rfl⟩
    obtain ⟨hs, hh', ht⟩ := hrs
    split at hres
    · obtain rfl := Except.ok.inj hres
      exact ⟨rfl, hh' ▸ hs⟩
    · obtain rfl := Except.ok.inj hres
      refine ⟨rfl, ?_⟩
      dsimp only
      rw [hh']
      split
      · exact hs
      · next hnone =>
        obtain ⟨hid, hm⟩ := ht.resolve_left hnone
        exact .of_marked hid ha (Recovery.mem_persisted_prepopulateSnapshotCache hm)

theorem life (h : Steady chain node) (hP : P.Indexes) {event : Lifecycle} (hc : event.OnChain chain)
    (ho : event.Orderly chain checkpointInterval node) :
    Steady chain (event.step chain node) := by
  cases event with
  | live op => exact h.step hP hc ho
  | restart archived marker =>
    rw [Lifecycle.step]
    split
    · next node' hres =>
      obtain ⟨hgas, hr⟩ := (RevmContextProvider.mk.injEq ..).mp h.provider
      rw [hgas, hr] at hres
      exact restart hP hc.1 hc.2 hres
    · exact h

end Steady

/-- **A redelivery is harmless as long as nothing above the parent is persisted.** In every orderly
life, and in every state reached, the delivery of a block that can be delivered again succeeds and
leaves the ledger, its database and the index as they were. -/
theorem redelivery_harmless (hP : P.Indexes) {chain : Chain P} {q₀ : QmdbStore}
    {maxTxs recoveredHeight checkpointInterval : ℕ} {life : List Lifecycle}
    (hchain : ∀ event ∈ life, event.OnChain chain)
    (hrun : Run.Along (fun node event => Lifecycle.step chain node event)
      (fun node event => Lifecycle.Orderly chain checkpointInterval node event)
      (Node.start P q₀ (chain.block 0) maxTxs chain.gasLimit chain.feeRecipient recoveredHeight)
      life) (n : ℕ) (node : Node)
    (hnode : node = (life.take n).foldl (fun node event => Lifecycle.step chain node event)
      (Node.start P q₀ (chain.block 0) maxTxs chain.gasLimit chain.feeRecipient recoveredHeight))
    {i : ℕ} (hi : i < chain.length) (hre : node.Redeliverable chain checkpointInterval i) :
    FinalizedReporter.handleFinalizedUpdate P node.ledger node.index node.provider
      (chain.block (i + 1)) (FinalizedReporter.persistsCheckpoint checkpointInterval (i + 1)) =
        (node.ledger, node.index, true) := by
  have hst := (hrun.take n).and_forall
    (fun event he => hchain event (List.mem_of_mem_take he))
  have hs : Steady chain node := by
    rw [hnode]
    exact hst.history (fun _ node => Steady chain node) (.start chain q₀ _ _)
      (fun _ node event h he => h.life hP he.1 he.2)
  exact hs.settled.redelivery hP hs.provider hi hre

namespace ThreeBlocks

/-- A node that has finalized block `1` and takes a checkpoint every three blocks. -/
def delivered : Node :=
  [Lifecycle.live (.finalize (block 1) false)].foldl
    (fun node event => Lifecycle.step (chain 3 le_rfl) node event)
    (Node.start platform QmdbStore.new (block 0) 10 30000000 0 0)

theorem redeliverable : delivered.Redeliverable (chain 3 le_rfl) 3 0 where
  known := by decide +kernel
  checkpoint h := absurd h (by decide)
  parent := by
    refine .inr ⟨fun j hpos hj => ?_, fun number hn _ => ?_, fun number hn => ?_, fun tx htx => ?_⟩
    · have hlen : j ≤ 3 := hj
      interval_cases j <;> decide +kernel
    · interval_cases number <;> decide +kernel
    · exact absurd hn (Nat.not_lt_zero number)
    · obtain rfl := List.mem_singleton.1 htx
      exact ⟨by decide +kernel, by decide +kernel⟩

theorem indexes : platform.Indexes where
  receipts state view txs outcome h := by
    obtain rfl := Except.ok.inj h
    unfold ThreeBlocks.outcome
    split
    · exact List.prefix_rfl
    · exact List.nil_prefix
  transactionRoot := rfl
  receiptRoot := rfl

end ThreeBlocks

section

open ThreeBlocks

theorem redelivery_harmless_twice :
    FinalizedReporter.handleFinalizedUpdate platform delivered.ledger delivered.index
      delivered.provider (block 1) false = (delivered.ledger, delivered.index, true) := by
  have hc : ∀ event ∈ [Lifecycle.live (.finalize (block 1) false)],
      event.OnChain (chain 3 le_rfl) := by
    intro event he
    obtain rfl := List.mem_singleton.1 he
    exact ⟨0, by decide, rfl⟩
  have hrun : Run.Along (fun node event => event.step (chain 3 le_rfl) node)
      (fun node event => Lifecycle.Orderly (chain 3 le_rfl) 3 node event)
      (Node.start platform QmdbStore.new (block 0) 10 30000000 0 0)
      [Lifecycle.live (.finalize (block 1) false)] :=
    ⟨⟨rfl, fun i _ _ => .inl (Nat.zero_le i)⟩, trivial⟩
  have hno : persistsCheckpoint 3 (0 + 1) = false := by decide
  have ht := redelivery_harmless indexes hc hrun 1 delivered rfl (show 0 < 3 by decide)
    redeliverable
  rw [hno] at ht
  exact ht

end

/-! ### A checkpoint that is delivered twice -/

section

open ThreeBlocks

def slotUnused (state : StateView) (_ : BlockContext.View) : Bool :=
  match (state 0xA).storage 1 with
  | .ok value => value = 0
  | .error _ => true

theorem slotUnused_seen : Seen slotUnused 0 := by
  decide +kernel

/-- Block `1` is finalized and persisted. When it is delivered again, the snapshot of genesis shows
the database, which has moved on: the block comes to another root, and the process is aborted. -/
theorem redelivery_aborts :
    ¬ ∀ (P : Platform) (chain : Chain P) (q₀ : QmdbStore), chain.StartsFrom q₀ →
      ∀ (checkpointInterval maxTxs : ℕ) (life : List Lifecycle),
      (∀ event ∈ life, event.OnChain chain) →
      (∀ block persistCheckpoint, Lifecycle.live (.finalize block persistCheckpoint) ∈ life →
        persistCheckpoint =
          FinalizedReporter.persistsCheckpoint checkpointInterval block.height) →
      ∀ node, node = life.foldl (fun node event => Lifecycle.step chain node event)
        (Node.start P q₀ (chain.block 0) maxTxs chain.gasLimit chain.feeRecipient 0) →
      ∀ i < chain.length,
        Lifecycle.live (.finalize (chain.block (i + 1))
          (FinalizedReporter.persistsCheckpoint checkpointInterval (i + 1))) ∈ life →
        (FinalizedReporter.handleFinalizedUpdate P node.ledger node.index node.provider
          (chain.block (i + 1))
          (FinalizedReporter.persistsCheckpoint checkpointInterval (i + 1))).2.2 = true := by
  intro h
  have hg := h (heeding slotUnused) (firstBlock slotUnused_seen) QmdbStore.new
    (heedingChain_startsFrom _ _) 1 10 [.live (.finalize (block 1) true)]
    (by
      intro event he
      obtain rfl := List.mem_singleton.1 he
      exact ⟨0, by decide, rfl⟩)
    (by
      intro block persistCheckpoint hmem
      injection List.mem_singleton.1 hmem with hop
      obtain ⟨-, rfl⟩ := Node.Op.finalize.inj hop
      rfl)
    _ rfl 0 (by decide) (List.mem_singleton.2 rfl)
  exact absurd hg (by decide +kernel)

end

end Kora
