/-
Proposing and finalizing side by side.

A proposer excludes the transactions of the parent's ancestors up to the first persisted
one, and trusts that the pool holds none of those behind. The finalizer marks a block
first and prunes the pool afterwards; a proposer in between sees neither.

* `persistSnapshot_eq`, `buildBlock_eq` — a persist and a proposal are their steps in a
  row;
* `proposals_fresh` — if whatever is behind a persisted block has been pruned when the ids
  are collected, and does not come back, no proposal repeats a transaction of an ancestor.
-/
import Kora.Inclusion
import Kora.Node
import Kora.PoolCoherence
import Kora.Run
import Mathlib.Logic.Relation

open Std Option

namespace Kora

open InMemorySnapshotStore LedgerState

/-! ### A persist, step by step -/

namespace LedgerState

variable (P : Platform)

/-- Commit a digest with its missing ancestors and mark them; was there something to commit? -/
def commitAndMark (self : LedgerState) (digest : Digest) :
    LedgerState × Except ConsensusError Bool :=
  match self.preparePersist digest with
  | .error e => (self, .error e)
  | .ok none => (self, .ok false)
  | .ok (some (chain, changes)) =>
    let qmdb := self.qmdb.commitChanges changes
    match compactChain ((self.snapshots.markPersistingChain chain).clearPersistingChain chain)
        chain with
    | (compacted, none) =>
      ({ self with snapshots := compacted.markPersisted chain, qmdb }, .ok true)
    | (compacted, some e) => ({ self with snapshots := compacted, qmdb }, .error e)

def evict (self : LedgerState) : LedgerState :=
  { self with snapshots := self.snapshots.evictPersisted }

theorem persistSnapshot_eq (self : LedgerState) (digest : Digest) :
    self.persistSnapshot digest =
      match self.commitAndMark digest with
      | (l, .ok true) => (l.evict, .ok true)
      | result => result := by
  rw [persistSnapshot, commitAndMark]
  cases self.preparePersist digest with
  | error e => rfl
  | ok work =>
    cases work with
    | none => rfl
    | some work =>
      obtain ⟨chain, changes⟩ := work
      dsimp only
      rw [completePersist]
      dsimp only
      generalize compactChain _ chain = result
      obtain ⟨compacted, error⟩ := result
      cases error <;> rfl

structure Keeps (l l' : LedgerState) : Prop where
  snapshots : ∀ {digest s}, l'.snapshots.get digest = some s →
    ∃ s₀, l.snapshots.get digest = some s₀ ∧ s.parent = s₀.parent ∧ s.txIds = s₀.txIds
  persisted : ∀ digest ∈ l.snapshots.persisted, digest ∈ l'.snapshots.persisted

theorem Keeps.refl (l : LedgerState) : l.Keeps l :=
  ⟨fun hs => ⟨_, hs, rfl, rfl⟩, fun _ hd => hd⟩

theorem compactChain_keeps (store : InMemorySnapshotStore) (chain : List Digest) :
    (compactChain store chain).1.persisted = store.persisted ∧
      ∀ {digest s}, (compactChain store chain).1.get digest = some s →
        ∃ s₀, store.get digest = some s₀ ∧ s.parent = s₀.parent ∧ s.txIds = s₀.txIds := by
  induction chain generalizing store with
  | nil => exact ⟨rfl, fun hs => ⟨_, hs, rfl, rfl⟩⟩
  | cons d ds ih =>
    rw [compactChain]
    split
    · exact ⟨rfl, fun hs => ⟨_, hs, rfl, rfl⟩⟩
    · next snapshot hsn =>
      obtain ⟨hpr, hget⟩ := ih (store.insert d (compacted snapshot))
      refine ⟨hpr, fun {digest s} hs => ?_⟩
      obtain ⟨s₀, hs₀, hp, htxIds⟩ := hget hs
      rw [get_insert] at hs₀
      split at hs₀
      · next heq =>
        obtain rfl := some.inj hs₀
        exact ⟨snapshot, heq ▸ hsn, hp, htxIds⟩
      · exact ⟨s₀, hs₀, hp, htxIds⟩

theorem commitAndMark_keeps (l : LedgerState) (digest : Digest) :
    l.Keeps (l.commitAndMark digest).1 := by
  rw [commitAndMark]
  cases l.preparePersist digest with
  | error e => exact Keeps.refl l
  | ok work =>
    cases work with
    | none => exact Keeps.refl l
    | some work =>
      obtain ⟨chain, changes⟩ := work
      have hc := compactChain_keeps
        ((l.snapshots.markPersistingChain chain).clearPersistingChain chain) chain
      dsimp only
      generalize compactChain _ chain = result at hc
      obtain ⟨compacted, error⟩ := result
      obtain ⟨hp, hget⟩ := hc
      dsimp only at hp hget
      cases error with
      | none =>
        refine ⟨fun hs => hget ?_, fun d hd => ?_⟩
        · rwa [get_markPersisted] at hs
        · rw [mem_persisted_markPersisted, hp]
          exact .inr hd
      | some e =>
        refine ⟨hget, fun d hd => ?_⟩
        show d ∈ compacted.persisted
        rw [hp]
        exact hd

theorem evict_keeps (l : LedgerState) : l.Keeps l.evict :=
  ⟨fun hs => ⟨_, get_evictPersisted hs, rfl, rfl⟩, fun d hd => by
    rwa [evict, persisted_evictPersisted]⟩

end LedgerState

/-! ### A proposal, step by step -/

/-- A proposal under way: the parent with its snapshot, and the ids that are not to be proposed
again. -/
structure Proposal where
  parent : Block
  parentSnapshot : Snapshot
  excluded : List B256

namespace RevmApplication

variable (P : Platform)

/-- The first part of a proposal: find the parent's snapshot and collect the excluded ids. -/
def collectFor (ledger : LedgerState) (parent : Block) : Option Proposal :=
  match ledger.parentSnapshot (P.commitment parent) with
  | none => none
  | some parentSnapshot =>
    (collectPendingTxIds ledger.snapshots (ledger.snapshots.snapshots.size + 1)
      (some (P.commitment parent))).map (fun excluded => ⟨parent, parentSnapshot, excluded⟩)

/-- The second part of a proposal: execute the selected transactions and make up the block. -/
def finishBlock (self : RevmApplication) (ledger : LedgerState) (proposal : Proposal)
    (txs : List Tx) (prevrandao : B256) (timestamp : ℕ) : RevmApplication × Option Block :=
  let parentDigest := P.commitment proposal.parent
  let height := proposal.parent.height + 1
  let context := self.blockContext height timestamp prevrandao parentDigest
  match P.executeBlock (ledger.snapshotView proposal.parentSnapshot) context txs with
  | .error _ => (self, none)
  | .ok outcome =>
    match ledger.computeRootFromStore P parentDigest outcome.changes with
    | .error _ => (self, none)
    | .ok stateRoot =>
      let block : Block :=
        { parentId := P.blockId proposal.parent, height, timestamp, prevrandao, stateRoot, txs }
      (self.recordBlockFees (P.commitment block) outcome.gasUsed
        (context.header.baseFeePerGas.getD INITIAL_BASE_FEE), some block)

theorem buildBlock_eq (self : RevmApplication) (ledger : LedgerState)
    (mempool : ℕ → List B256 → List Tx) (seeds : Digest → Option B256) (parent : Block)
    (timestamp : ℕ) :
    self.buildBlock P ledger mempool seeds parent timestamp =
      match collectFor P ledger parent with
      | none => (self, none)
      | some proposal =>
        self.finishBlock P ledger proposal (mempool self.maxTxs proposal.excluded)
          ((seeds (P.commitment parent)).getD 0) timestamp := by
  rw [buildBlock, collectFor]
  dsimp only
  cases ledger.parentSnapshot (P.commitment parent) with
  | none => rfl
  | some parentSnapshot =>
    dsimp only
    cases collectPendingTxIds ledger.snapshots (ledger.snapshots.snapshots.size + 1)
        (some (P.commitment parent)) with
    | none | some excluded => rfl

theorem finishBlock_some {self : RevmApplication} {ledger : LedgerState} {proposal : Proposal}
    {txs : List Tx} {prevrandao : B256} {timestamp : ℕ} {block : Block}
    (h : (self.finishBlock P ledger proposal txs prevrandao timestamp).2 = some block) :
    block.txs = txs ∧ P.parent block = P.commitment proposal.parent := by
  rw [finishBlock] at h
  dsimp only at h
  split at h
  · cases h
  · split at h
    · cases h
    · obtain rfl := some.inj h
      exact ⟨rfl, rfl⟩

end RevmApplication

/-! ### A finalization, up to the marks -/

namespace FinalizedReporter

variable (P : Platform)

/-- Finalize a block up to its marks. The answer says whether blocks were marked. -/
def markBlock (ledger : LedgerState) (index : BlockIndex) (provider : RevmContextProvider)
    (blockIndexed : Bool) (block : Block) (persistCheckpoint : Bool) :
    LedgerState × Except FinalizationError (FinalizedExecution × Bool) :=
  match ensureSnapshot P ledger index provider blockIndexed block with
  | (ledger', .error e) => (ledger', .error e)
  | (ledger', .ok execution) =>
    if persistCheckpoint then
      match ledger'.commitAndMark (P.commitment block) with
      | (ledger'', .ok marked) => (ledger'', .ok (execution, marked))
      | (ledger'', .error e) => (ledger'', .error (.persistFailed e))
    else (ledger', .ok (execution, false))

theorem finalizeBlock_eq (ledger : LedgerState) (index : BlockIndex)
    (provider : RevmContextProvider) (blockIndexed : Bool) (block : Block)
    (persistCheckpoint : Bool) :
    finalizeBlock P ledger index provider blockIndexed block persistCheckpoint =
      match markBlock P ledger index provider blockIndexed block persistCheckpoint with
      | (l, .error e) => (l, .error e)
      | (l, .ok (execution, marked)) => (if marked then l.evict else l, .ok execution) := by
  rw [finalizeBlock, markBlock]
  obtain ⟨l, result⟩ := ensureSnapshot P ledger index provider blockIndexed block
  cases result with
  | error e => rfl
  | ok execution =>
    cases persistCheckpoint with
    | false => rfl
    | true =>
      dsimp only
      rw [if_pos rfl, if_pos rfl, persistSnapshot_eq]
      obtain ⟨l', answer⟩ := l.commitAndMark (P.commitment block)
      cases answer with
      | error e => rfl
      | ok marked => cases marked <;> rfl

end FinalizedReporter

/-! ### Ancestors -/

section Ancestors

variable (P : Platform) (B : Set Block)

/-- `a` is the parent of `b`, among the blocks in `B`. -/
def IsParent (a b : Block) : Prop := a ∈ B ∧ P.parent b = P.commitment a

/-- `a` is `b` or one of its ancestors. -/
def AtOrBehind : Block → Block → Prop := Relation.ReflTransGen (IsParent P B)

/-- The block repeats no transaction of an ancestor. -/
def Fresh (block : Block) : Prop :=
  ∀ a, Relation.TransGen (IsParent P B) a block → ∀ tx ∈ block.txs, tx ∉ a.txs

variable {P B}

theorem AtOrBehind.mem {a b : Block} (h : AtOrBehind P B a b) (hb : b ∈ B) : a ∈ B := by
  rcases h.cases_head with rfl | ⟨c, hac, -⟩
  · exact hb
  · exact hac.1

end Ancestors

/-! ### The system -/

/-- How far the finalizer is with the block in hand. -/
inductive FinalizerStage where
  | idle
  /-- The block and its ancestors are marked; persisted snapshots are to be evicted. -/
  | marked (block : Block)
  /-- The pool is to be pruned. -/
  | evicted (block : Block)

/-- A node between its steps, with the pool, the proposal under way and the finalizer. -/
structure HandoverState where
  node : Node
  mempool : PoolInner
  proposal : Option Proposal
  stage : FinalizerStage
  /-- The process has not been aborted. -/
  running : Bool
  /-- The blocks of whose transactions the finalizer has pruned the pool, so far. -/
  pruned : List Block
  /-- The blocks that were proposed so far. -/
  proposed : List Block

inductive HandoverEvent where
  | verify (block : Block) (parentTimestamp : Option ℕ) (nowSecs : ℕ)
  | mark (block : Block)
  | evict
  | prune
  | pool (op : PoolInner.Op)
  | collect (parent : Block)
  | build (prevrandao : B256) (timestamp : ℕ)

namespace HandoverState

variable (P : Platform) (A : Alloy) (config : PoolConfig) (checkpointInterval : ℕ)

def start (node : Node) : HandoverState := ⟨node, PoolInner.new, none, .idle, true, [], []⟩

/-- The finalizer takes up a block. If this fails, the pool is pruned and the process aborted. -/
def mark (self : HandoverState) (block : Block) : HandoverState :=
  match FinalizedReporter.markBlock P self.node.ledger self.node.index self.node.provider true
      block (FinalizedReporter.persistsCheckpoint checkpointInterval block.height) with
  | (ledger, .error _) =>
    { self with
      node := { self.node with ledger }
      mempool := pruneMempool P self.mempool block.txs
      running := false }
  | (ledger, .ok (execution, marked)) =>
    { self with
      node :=
        { self.node with
          ledger
          index := execution.elim self.node.index (fun execution =>
            FinalizedReporter.indexFinalizedBlock P self.node.index block execution.2
              execution.1) }
      stage := if marked then .marked block else .evicted block }

def build (self : HandoverState) (proposal : Proposal) (prevrandao : B256) (timestamp : ℕ) :
    HandoverState :=
  let result := self.node.app.finishBlock P self.node.ledger proposal
    (self.mempool.build P self.node.app.maxTxs proposal.excluded) prevrandao timestamp
  { self with
    node := { self.node with app := result.1 }
    proposal := none
    proposed := self.proposed ++ result.2.toList }

/-- One step. The finalizer takes its steps for a block in their order. -/
def step (self : HandoverState) (event : HandoverEvent) : HandoverState :=
  if self.running then
    match event with
    | .verify block parentTimestamp nowSecs =>
      { self with node := self.node.step P (.verify block parentTimestamp nowSecs) }
    | .mark block =>
      match self.stage with
      | .idle => self.mark P checkpointInterval block
      | _ => self
    | .evict =>
      match self.stage with
      | .marked block =>
        { self with
          node := { self.node with ledger := self.node.ledger.evict }
          stage := .evicted block }
      | _ => self
    | .prune =>
      match self.stage with
      | .evicted block =>
        { self with
          mempool := pruneMempool P self.mempool block.txs
          stage := .idle
          pruned := self.pruned ++ [block] }
      | _ => self
    | .pool op => { self with mempool := self.mempool.step P A config op }
    | .collect parent =>
      { self with proposal := RevmApplication.collectFor P self.node.ledger parent }
    | .build prevrandao timestamp =>
      match self.proposal with
      | some proposal => self.build P proposal prevrandao timestamp
      | none => self
  else self

end HandoverState

namespace HandoverEvent

variable (P : Platform) (A : Alloy) (B : Set Block)

/-- The blocks that are verified, finalized and built on are in `B`. -/
def Known : HandoverEvent → Prop
  | .verify block _ _ => block ∈ B
  | .mark block => block ∈ B
  | .collect parent => parent ∈ B
  | _ => True

/-- What is added has a nonce below the largest, and was not pruned with a block. -/
def NotReturning (s : HandoverState) : HandoverEvent → Prop
  | .pool op => ∀ tx, op.Brings P A tx → tx.nonce < U64_MAX ∧
      ∀ a ∈ s.pruned, orderedTxId P tx ∉ a.txs.map P.txId
  | _ => True

/-- Ids are collected once the pool is pruned of all blocks at or behind a persisted one of the
branch. -/
def Settled (s : HandoverState) : HandoverEvent → Prop
  | .collect parent => ∀ a c, AtOrBehind P B a c → AtOrBehind P B c parent →
      P.commitment c ∈ s.node.ledger.snapshots.persisted → a.txs ≠ [] → a ∈ s.pruned
  | _ => True

end HandoverEvent

/-! ### What the excluded ids cover -/

/-- Snapshots of known blocks have the blocks' transactions and, unless persisted, point to the
parents. -/
def LedgerState.Recorded (P : Platform) (B : Set Block) (l : LedgerState) : Prop :=
  ∀ b ∈ B, ∀ s, l.snapshots.get (P.commitment b) = some s →
    s.txIds = b.txs.map P.txId ∧
      (s.parent = some (P.parent b) ∨ P.commitment b ∈ l.snapshots.persisted)

section Recorded

variable {P : Platform} {B : Set Block} {l l' : LedgerState}

theorem LedgerState.Recorded.keeps (h : l.Recorded P B) (hk : l.Keeps l') : l'.Recorded P B := by
  intro b hb s hs
  obtain ⟨s₀, hs₀, hp, htxIds⟩ := hk.snapshots hs
  obtain ⟨hids, hl⟩ := h b hb s₀ hs₀
  exact ⟨htxIds.trans hids, hl.imp hp.trans (hk.persisted _)⟩

theorem LedgerState.recorded_init (hB : B.InjOn P.commitment) (qmdb : QmdbStore)
    {genesis : Block} (hg : genesis ∈ B) (htxs : genesis.txs = []) :
    (LedgerState.init P qmdb genesis).Recorded P B := by
  intro b hb s hs
  rw [get_init] at hs
  split at hs
  · next heq =>
    obtain rfl := hB hg hb heq
    obtain rfl := some.inj hs
    refine ⟨by rw [htxs]; rfl, .inr ?_⟩
    rw [mem_persisted_init]
  · cases hs

variable {block : Block}

variable (h : l.Recorded P B)
include h

theorem LedgerState.Recorded.insertExecuted (hB : B.InjOn P.commitment) (hbl : block ∈ B)
    (parent : Snapshot) (changes : ChangeSet) :
    (l.insertExecuted P block parent changes).Recorded P B := by
  intro b hb s hs
  rw [get_insertExecuted] at hs
  split at hs
  · next heq =>
    obtain rfl := hB hbl hb heq
    obtain rfl := some.inj hs
    exact ⟨rfl, .inl rfl⟩
  · exact h b hb s hs

theorem LedgerState.Recorded.restorePersistedSnapshot (hB : B.InjOn P.commitment)
    (hbl : block ∈ B) : (l.restorePersistedSnapshot P block).Recorded P B := by
  intro b hb s hs
  rw [get_restorePersistedSnapshot] at hs
  split at hs
  · next heq =>
    obtain rfl := hB hbl hb heq
    obtain rfl := some.inj hs
    exact ⟨rfl, .inl rfl⟩
  · obtain ⟨hids, hl⟩ := h b hb s hs
    refine ⟨hids, hl.imp_right fun hm => ?_⟩
    rw [mem_persisted_restorePersistedSnapshot]
    exact .inr hm

theorem LedgerState.Recorded.verifyBlock (hB : B.InjOn P.commitment) (app : RevmApplication)
    (hb : block ∈ B) (parentTimestamp : Option ℕ) (nowSecs : ℕ) :
    (app.verifyBlock P l block parentTimestamp nowSecs).2.1.Recorded P B := by
  rcases app.verifyBlock_cases P l block parentTimestamp nowSecs with
    ⟨height, ok, heq⟩ | ⟨-, heq⟩ | ⟨parent, outcome, -, -, heq⟩
  · rw [heq]
    exact h
  · rw [heq]
    exact h.restorePersistedSnapshot hB hb
  · rw [heq]
    exact h.insertExecuted hB hb parent outcome.changes

theorem LedgerState.Recorded.markBlock (hB : B.InjOn P.commitment) (index : BlockIndex)
    (provider : RevmContextProvider) (blockIndexed : Bool) (hb : block ∈ B)
    (persistCheckpoint : Bool) :
    (FinalizedReporter.markBlock P l index provider blockIndexed block
      persistCheckpoint).1.Recorded P B := by
  have he : (FinalizedReporter.ensureSnapshot P l index provider blockIndexed
      block).1.Recorded P B := by
    rcases FinalizedReporter.ensureSnapshot_cases P l index provider blockIndexed block with
      ⟨heq, -⟩ | ⟨-, heq⟩ | ⟨parent, outcome, -, heq⟩
    · rw [heq]
      exact h
    · rw [heq]
      exact h.restorePersistedSnapshot hB hb
    · rw [heq]
      exact h.insertExecuted hB hb parent outcome.changes
  rw [FinalizedReporter.markBlock]
  generalize FinalizedReporter.ensureSnapshot P l index provider blockIndexed block = result
    at he
  obtain ⟨l', answer⟩ := result
  cases answer with
  | error e => exact he
  | ok execution =>
    dsimp only
    split
    · have hm := he.keeps (l'.commitAndMark_keeps (P.commitment block))
      generalize l'.commitAndMark (P.commitment block) = marked at hm
      obtain ⟨l'', answer⟩ := marked
      cases answer <;> exact hm
    · exact he

/-- **The excluded ids cover the unpersisted ancestors**: a block at or behind the start has its ids
among them, or is at or behind a persisted one. -/
theorem LedgerState.Recorded.collectPendingTxIds {fuel : ℕ} {b : Block} (hb : b ∈ B)
    {excluded : List B256}
    (hc : RevmApplication.collectPendingTxIds l.snapshots fuel (some (P.commitment b)) =
      some excluded) {a : Block} (ha : AtOrBehind P B a b) :
    a.txs.map P.txId ⊆ excluded ∨
      ∃ c, AtOrBehind P B a c ∧ AtOrBehind P B c b ∧
        P.commitment c ∈ l.snapshots.persisted := by
  induction fuel generalizing b excluded with
  | zero => cases hc
  | succ fuel ih =>
    rw [RevmApplication.collectPendingTxIds] at hc
    split at hc
    · next hm => exact .inr ⟨b, ha, .refl, of_decide_eq_true hm⟩
    · next hm =>
      split at hc
      · cases hc
      · next snapshot hget =>
        obtain ⟨hids, hl⟩ := h b hb snapshot hget
        have hpr : snapshot.parent = some (P.parent b) :=
          hl.resolve_right fun hper => hm (decide_eq_true hper)
        rw [hids, hpr] at hc
        obtain ⟨older, holder, rfl⟩ := map_eq_some_iff.1 hc
        -- the ids of the block come first, and an ancestor is at or behind the parent
        rcases Relation.ReflTransGen.cases_tail ha with rfl | ⟨p, hap, hp⟩
        · exact .inl (List.subset_append_left _ _)
        · rw [hp.2] at holder
          rcases ih hp.1 holder hap with hsub | ⟨c, hac, hcp, hper⟩
          · exact .inl (List.Subset.trans hsub (List.subset_append_right _ _))
          · exact .inr ⟨c, hac, hcp.tail hp, hper⟩

end Recorded

/-! ### What every step keeps -/

namespace PoolInner

variable {P : Platform} {pool : PoolInner} {S : Set OrderedTransaction}

theorem Represents.pooled_prune (h : pool.Represents P S) {txIds : List B256}
    {tx : OrderedTransaction} (htx : (pool.prune P txIds).Pooled tx) :
    pool.Pooled tx ∧ orderedTxId P tx ∉ txIds := by
  have hb : pool.Pooled tx := (pooled_prune_iff.1 htx).1
  refine ⟨hb, fun hid => ?_⟩
  exact (h.consistent.prune_removes_iff hb).2 ⟨tx, hb, hid, rfl, le_rfl⟩ htx

end PoolInner

/-- What could repeat an ancestor's transaction is excluded from the proposal or out of the pool. -/
structure HandoverState.Covered (P : Platform) (B : Set Block) (s : HandoverState) : Prop where
  recorded : s.node.ledger.Recorded P B
  pool : ∃ S, s.mempool.Represents P S
  pruned : ∀ a ∈ s.pruned, ∀ tx, s.mempool.Pooled tx → orderedTxId P tx ∉ a.txs.map P.txId
  proposal : ∀ p, s.proposal = some p → p.parent ∈ B ∧ ∀ a, AtOrBehind P B a p.parent →
    a.txs.map P.txId ⊆ p.excluded ∨ a.txs = [] ∨ a ∈ s.pruned
  proposed : ∀ block ∈ s.proposed, Fresh P B block

namespace HandoverState.Covered

variable {P : Platform} {A : Alloy} {config : PoolConfig} {checkpointInterval : ℕ} {B : Set Block}
  {s : HandoverState}

theorem start (hB : B.InjOn P.commitment) (qmdb : QmdbStore) {genesis : Block}
    (hg : genesis ∈ B) (htxs : genesis.txs = []) (maxTxs gasLimit : ℕ)
    (feeRecipient : Address) (recoveredHeight : ℕ) :
    (HandoverState.start (Node.start P qmdb genesis maxTxs gasLimit feeRecipient
      recoveredHeight)).Covered P B where
  recorded := recorded_init hB qmdb hg htxs
  pool := ⟨∅, PoolInner.represents_new P⟩
  pruned _ ha := (List.not_mem_nil ha).elim
  proposal _ hp := by cases hp
  proposed _ hb := (List.not_mem_nil hb).elim

theorem setNode (h : s.Covered P B) {node : Node} (hr : node.ledger.Recorded P B)
    (stage : FinalizerStage) : { s with node, stage }.Covered P B :=
  ⟨hr, h.pool, h.pruned, h.proposal, h.proposed⟩

variable {block : Block}

variable (h : s.Covered P B)
include h

theorem verify (hB : B.InjOn P.commitment) (hb : block ∈ B) (parentTimestamp : Option ℕ)
    (nowSecs : ℕ) :
    { s with node := s.node.step P (.verify block parentTimestamp nowSecs) }.Covered P B :=
  h.setNode (h.recorded.verifyBlock hB s.node.app hb parentTimestamp nowSecs) s.stage

theorem prune (block : Block) (stage : FinalizerStage) :
    { s with
      mempool := pruneMempool P s.mempool block.txs, stage,
      pruned := s.pruned ++ [block] }.Covered P B := by
  obtain ⟨S, hS⟩ := h.pool
  refine ⟨h.recorded, ⟨_, hS.prune _⟩, fun a ha tx htx => ?_, fun p hp => ?_, h.proposed⟩
  · obtain ⟨hb, hg⟩ := hS.pooled_prune htx
    rcases List.mem_append.1 ha with ha | ha
    · exact h.pruned a ha tx hb
    · rw [List.mem_singleton.1 ha]
      exact hg
  · obtain ⟨hpr, hc⟩ := h.proposal p hp
    refine ⟨hpr, fun a ha => (hc a ha).imp_right fun hor => hor.imp_right fun hmem => ?_⟩
    exact List.mem_append_left _ hmem

theorem mark (hB : B.InjOn P.commitment) (hb : block ∈ B) :
    (s.mark P checkpointInterval block).Covered P B := by
  have hr := h.recorded.markBlock hB s.node.index s.node.provider true hb
    (FinalizedReporter.persistsCheckpoint checkpointInterval block.height)
  rw [HandoverState.mark]
  split
  · next ledger _ heq =>
    rw [heq] at hr
    -- the pool loses the block's transactions, and nothing is noted any more
    obtain ⟨S, hS⟩ := h.pool
    exact ⟨hr, ⟨_, hS.prune _⟩, fun a ha tx htx => h.pruned a ha tx (hS.pooled_prune htx).1,
      h.proposal, h.proposed⟩
  · next ledger execution marked heq =>
    rw [heq] at hr
    exact h.setNode hr _

theorem poolStep {op : PoolInner.Op} (hop : (HandoverEvent.pool op).NotReturning P A s) :
    { s with mempool := s.mempool.step P A config op }.Covered P B := by
  obtain ⟨S, hS⟩ := h.pool
  obtain ⟨S', hsub, hS'⟩ := hS.step config fun tx htx => (hop tx htx).1
  refine ⟨h.recorded, ⟨S', hS'⟩, fun a ha tx htx => ?_, h.proposal, h.proposed⟩
  -- what is in the pool now was brought by the operation or has been there
  rcases hsub (hS'.pooled_iff.1 htx) with hb | hold
  · exact (hop tx hb).2 a ha
  · exact h.pruned a ha tx (hS.pooled_iff.2 hold)

theorem collect {parent : Block} (hpr : parent ∈ B)
    (hs : (HandoverEvent.collect parent).Settled P B s) :
    { s with proposal := RevmApplication.collectFor P s.node.ledger parent }.Covered P B := by
  refine ⟨h.recorded, h.pool, h.pruned, fun p hp => ?_, h.proposed⟩
  dsimp only at hp
  rw [RevmApplication.collectFor] at hp
  split at hp
  · cases hp
  · obtain ⟨excluded, hc, rfl⟩ := map_eq_some_iff.1 hp
    refine ⟨hpr, fun a ha => ?_⟩
    rcases h.recorded.collectPendingTxIds hpr hc ha with hsub | ⟨c, hac, hcp, hper⟩
    · exact .inl hsub
    · by_cases htxs : a.txs = []
      · exact .inr (.inl htxs)
      · exact .inr (.inr (hs a c hac hcp hper htxs))

theorem fresh (hB : B.InjOn P.commitment) {p : Proposal} (hp : s.proposal = some p) {maxTxs : ℕ}
    (htxs : block.txs = s.mempool.build P maxTxs p.excluded)
    (hpr : P.parent block = P.commitment p.parent) : Fresh P B block := by
  intro a ha tx htx hr
  obtain ⟨hmem, hc⟩ := h.proposal p hp
  obtain ⟨q, haq, hq⟩ := Relation.TransGen.tail'_iff.1 ha
  obtain rfl : q = p.parent := hB hq.1 hmem (hq.2.symm.trans hpr)
  have hid : P.txId tx ∈ a.txs.map P.txId := List.mem_map_of_mem hr
  rw [htxs] at htx
  obtain ⟨sender, queue, hqu, otx, hotx, rfl, he⟩ := PoolInner.mem_build htx
  rcases hc a haq with hsub | hnone | hpn
  · exact he (hsub hid)
  · rw [hnone] at hr
    cases hr
  · obtain ⟨S, hS⟩ := h.pool
    have hpl : s.mempool.Pooled otx :=
      (hS.consistent.byHash_of_queue hqu (List.mem_append_left _ hotx)).2
    exact h.pruned a hpn otx hpl hid

theorem build (hB : B.InjOn P.commitment) {p : Proposal} (hp : s.proposal = some p)
    (prevrandao : B256) (timestamp : ℕ) : (s.build P p prevrandao timestamp).Covered P B := by
  refine ⟨h.recorded, h.pool, h.pruned, fun p' hp' => (by cases hp'), fun block hb => ?_⟩
  rcases List.mem_append.1 hb with hold | hnew
  · exact h.proposed block hold
  · obtain ⟨htxs, hpr⟩ := RevmApplication.finishBlock_some P (mem_toList.1 hnew)
    exact h.fresh hB hp htxs hpr

theorem step (hB : B.InjOn P.commitment) {event : HandoverEvent} (hk : event.Known B)
    (hpl : event.NotReturning P A s) (hs : event.Settled P B s) :
    (s.step P A config checkpointInterval event).Covered P B := by
  rw [HandoverState.step.eq_def]
  split
  · cases event with
    | verify block parentTimestamp nowSecs => exact h.verify hB hk parentTimestamp nowSecs
    | mark block =>
      dsimp only
      split
      · exact h.mark hB hk
      · exact h
    | evict =>
      dsimp only
      split
      · exact h.setNode (h.recorded.keeps s.node.ledger.evict_keeps) _
      · exact h
    | prune =>
      dsimp only
      split
      · next block _ => exact h.prune block .idle
      · exact h
    | pool op => exact h.poolStep hpl
    | collect parent => exact h.collect hk hs
    | build prevrandao timestamp =>
      dsimp only
      split
      · next p hp => exact h.build hB hp prevrandao timestamp
      · exact h
  · exact h

end HandoverState.Covered

/-- **No transaction is proposed twice on one chain**, if ids are collected only when the pool has
been pruned of everything at or behind a persisted ancestor, and none of that comes back into the
pool. -/
theorem proposals_fresh (P : Platform) (A : Alloy) (config : PoolConfig) (checkpointInterval : ℕ)
    {B : Set Block} (hB : B.InjOn P.commitment) (qmdb : QmdbStore) {genesisTimestamp : ℕ}
    {genesisRoot : B256} (hgenesis : LedgerState.genesisBlock genesisTimestamp genesisRoot ∈ B)
    (maxTxs gasLimit : ℕ) (feeRecipient : Address) (recoveredHeight : ℕ)
    {events : List HandoverEvent}
    (hrun : Run.Along (HandoverState.step P A config checkpointInterval)
      (fun s event => event.Known B ∧ event.NotReturning P A s ∧ event.Settled P B s)
      (HandoverState.start (Node.start P qmdb
        (LedgerState.genesisBlock genesisTimestamp genesisRoot) maxTxs gasLimit feeRecipient
        recoveredHeight)) events) :
    ∀ block ∈ (events.foldl (HandoverState.step P A config checkpointInterval)
      (HandoverState.start (Node.start P qmdb
        (LedgerState.genesisBlock genesisTimestamp genesisRoot) maxTxs gasLimit feeRecipient
        recoveredHeight))).proposed, Fresh P B block := by
  have hst := HandoverState.Covered.start hB qmdb hgenesis rfl maxTxs gasLimit feeRecipient
    recoveredHeight
  exact (hrun.invariant hst fun s event hs he =>
    hs.step hB he.1 he.2.1 he.2.2).proposed

/-! ### A handover of one block -/

namespace HandoverExample

open TwoTransfers

/-- A node that persists every block. -/
def step : HandoverState → HandoverEvent → HandoverState :=
  HandoverState.step (revm.platform platform) PoolExample.alloy .new 1

def initial : HandoverState :=
  .start (Node.start (revm.platform platform) .new (LedgerState.genesisBlock 0 0) 10 100 0 0)

/-- The block with the first transaction, on genesis. -/
def first : Block := { block 1 with stateRoot := 95 }

def blocks : Set Block := {LedgerState.genesisBlock 0 0, first}

theorem mem_blocks {b : Block} : b ∈ blocks ↔ b = LedgerState.genesisBlock 0 0 ∨ b = first :=
  Iff.rfl

theorem blocks_injOn : blocks.InjOn (revm.platform platform).commitment := by
  intro a ha b hb heq
  rcases ha with rfl | rfl <;> rcases hb with rfl | rfl
  · rfl
  · exact absurd heq (by decide)
  · exact absurd heq (by decide)
  · rfl

def marking : List HandoverEvent :=
  [.pool (.add (transfer 0)), .verify first (some 0) 5, .mark first]

def waiting : List HandoverEvent :=
  marking ++ [.evict, .prune, .pool (.add (transfer 1)), .collect first, .build 0 2]

def early : List HandoverEvent :=
  marking ++ [.collect first, .build 0 2, .evict, .prune]

variable {s : HandoverState}

theorem notReturning_first (h : s.pruned = []) :
    HandoverEvent.NotReturning (revm.platform platform) PoolExample.alloy s
      (.pool (.add (transfer 0))) := by
  rintro tx rfl
  refine ⟨by decide, fun a ha => ?_⟩
  rw [h] at ha
  cases ha

theorem notReturning_second (h : s.pruned = [first]) :
    HandoverEvent.NotReturning (revm.platform platform) PoolExample.alloy s
      (.pool (.add (transfer 1))) := by
  rintro tx rfl
  refine ⟨by decide, fun a ha => ?_⟩
  rw [h, List.mem_singleton] at ha
  rw [ha]
  decide

theorem settled_first (h : s.pruned = [first]) :
    HandoverEvent.Settled (revm.platform platform) blocks s (.collect first) := by
  intro a c hac hc _ htxs
  have hf : first ∈ blocks := .inr rfl
  rcases mem_blocks.1 (hac.mem (hc.mem hf)) with rfl | rfl
  · exact absurd rfl htxs
  · rw [h]
    exact List.mem_singleton.2 rfl

end HandoverExample

section Example

open TwoTransfers HandoverExample

theorem proposals_fresh_waiting :
    Run.Along step (fun s event => event.Known blocks ∧
      event.NotReturning (revm.platform platform) PoolExample.alloy s ∧
      event.Settled (revm.platform platform) blocks s) initial waiting ∧
    (waiting.foldl step initial).proposed.map (·.txs) = [[orderedToTx (transfer 1)]] ∧
    ∀ block ∈ (waiting.foldl step initial).proposed,
      Fresh (revm.platform platform) blocks block := by
  have hf : first ∈ blocks := .inr rfl
  have hrun : Run.Along step (fun s event => event.Known blocks ∧
      event.NotReturning (revm.platform platform) PoolExample.alloy s ∧
      event.Settled (revm.platform platform) blocks s) initial waiting :=
    ⟨⟨trivial, notReturning_first rfl, trivial⟩, ⟨hf, trivial, trivial⟩,
      ⟨hf, trivial, trivial⟩, ⟨trivial, trivial, trivial⟩, ⟨trivial, trivial, trivial⟩,
      ⟨trivial, notReturning_second (by decide +kernel), trivial⟩,
      ⟨hf, trivial, settled_first (by decide +kernel)⟩,
      ⟨trivial, trivial, trivial⟩, trivial⟩
  exact ⟨hrun, by decide +kernel, proposals_fresh (revm.platform platform) PoolExample.alloy .new 1
    blocks_injOn .new (.inl rfl) 10 100 0 0 hrun⟩

/-- The proposal repeats the transaction of its parent. -/
theorem repeated_transaction :
    ¬ ∀ (P : Platform) (A : Alloy) (config : PoolConfig) (checkpointInterval : ℕ) (B : Set Block),
      B.InjOn P.commitment → ∀ (qmdb : QmdbStore) (genesisTimestamp : ℕ) (genesisRoot : B256),
      LedgerState.genesisBlock genesisTimestamp genesisRoot ∈ B →
      ∀ (maxTxs gasLimit : ℕ) (feeRecipient : Address) (recoveredHeight : ℕ)
        (events : List HandoverEvent),
      Run.Along (HandoverState.step P A config checkpointInterval)
        (fun s event => event.Known B ∧ event.NotReturning P A s)
        (HandoverState.start (Node.start P qmdb
          (LedgerState.genesisBlock genesisTimestamp genesisRoot) maxTxs gasLimit feeRecipient
          recoveredHeight)) events →
      ∀ block ∈ (events.foldl (HandoverState.step P A config checkpointInterval)
        (HandoverState.start (Node.start P qmdb
          (LedgerState.genesisBlock genesisTimestamp genesisRoot) maxTxs gasLimit feeRecipient
          recoveredHeight))).proposed, Fresh P B block := by
  intro hc
  have hf : first ∈ blocks := .inr rfl
  have hrun : Run.Along step (fun s event => event.Known blocks ∧
      event.NotReturning (revm.platform platform) PoolExample.alloy s) initial early :=
    ⟨⟨trivial, notReturning_first rfl⟩, ⟨hf, trivial⟩, ⟨hf, trivial⟩,
      ⟨hf, trivial⟩, ⟨trivial, trivial⟩, ⟨trivial, trivial⟩, ⟨trivial, trivial⟩, trivial⟩
  obtain ⟨second, hs, hp, htx⟩ : ∃ second ∈ (early.foldl step initial).proposed,
      second.parentId = (revm.platform platform).blockId first ∧
        orderedToTx (transfer 0) ∈ second.txs := by
    decide +kernel
  have hb : IsParent (revm.platform platform) blocks first second :=
    ⟨hf, congrArg _ hp⟩
  exact hc (revm.platform platform) PoolExample.alloy .new 1 blocks blocks_injOn .new 0 0
    (.inl rfl) 10 100 0 0 early hrun second hs first (.single hb) _ htx (.head _)

end Example

end Kora
