/-
What a persisted mark stands for.

A marked digest ends every later walk, so the mark has to mean that the change sets of the
block and of its ancestors are in the database. Marks are set by a persist, which commits
first, and by a restored snapshot, which commits nothing.

* `HoldsPrefix` — the invariant: marks, database and snapshots fit a prefix of the chain;
* `persisted_blocks_committed` — it holds if no block is taken on its certificate or
  restored.
-/
import Kora.Node

open Std

namespace Kora

open QmdbStore InMemorySnapshotStore LedgerState

variable {P : Platform}

/-! ### The invariant -/

/-- The database, which was `q₀` at genesis, holds the first `k` blocks, exactly those that are
marked. -/
structure HoldsPrefix (chain : Chain P) (q₀ : QmdbStore) (k : ℕ) (l : LedgerState) : Prop where
  le : k ≤ chain.length
  persisted : ∀ d, d ∈ l.snapshots.persisted ↔ ∃ i ≤ k, d = chain.digest i
  committed : ∃ groups, groups.flatten = changesUpTo chain.outcome k ∧ groups.length ≤ k ∧
    l.qmdb = q₀.commitGroups groups
  root : chain.RootsHold l
  linked : ∀ i < chain.length, ∀ s, l.snapshots.get (chain.digest (i + 1)) = some s →
    s.parent = some (chain.digest i) ∧ (k ≤ i → s.changes = chain.changes (i + 1))

theorem HoldsPrefix.init (chain : Chain P) (q₀ : QmdbStore) :
    HoldsPrefix chain q₀ 0 (init P q₀ (chain.block 0)) where
  le := Nat.zero_le _
  persisted d := by
    rw [mem_persisted_init]
    simp [Chain.digest]
  committed := ⟨[], rfl, le_rfl, rfl⟩
  root := .init chain q₀
  linked i hi s hs := by
    rw [get_init] at hs
    split at hs
    · next heq => exact absurd (chain.digest_inj (Nat.zero_le _) hi heq) (by omega)
    · cases hs

namespace HoldsPrefix

variable {chain : Chain P} {q₀ : QmdbStore} {k : ℕ} {l : LedgerState}

section

variable (h : HoldsPrefix chain q₀ k l)
include h

/-- A block executed on its parent keeps the invariant: a root stands for its changes. -/
theorem insertExecuted {context : BlockContext} {block : Block} {parent : Snapshot}
    {outcome : ExecutionOutcome} (he : l.executeOnParent P context block = .ok (parent, outcome))
    : HoldsPrefix chain q₀ k (l.insertExecuted P block parent outcome.changes) where
  le := h.le
  persisted := h.persisted
  committed := h.committed
  root := h.root.insertExecuted block parent outcome.changes
  linked i hi s hs := by
    rw [get_insertExecuted] at hs
    split at hs
    · next heq =>
      obtain rfl := chain.unique (i + 1) hi block heq
      obtain rfl := Option.some.inj hs
      exact ⟨congrArg some (chain.parent_block hi), fun _ => h.root.changes_eq hi he⟩
    · exact h.linked i hi s hs

theorem walk_eq {j fuel : ℕ} (hj : j ≤ chain.length) {entries : List (Digest × ChangeSet)}
    (hw : l.snapshots.walk fuel (some (chain.digest j)) = .ok entries) :
    entries = chainSegment chain.digest chain.changes k j := by
  refine walk_segment (n := chain.length) (fun i hi => ?_) (fun i hi hki s hs => ?_) hj hw
  · rw [h.persisted]
    constructor
    · rintro ⟨i', hi', heq⟩
      rwa [chain.digest_inj hi (hi'.trans h.le) heq]
    · exact fun hik => ⟨i, hik, rfl⟩
  · exact ⟨(h.linked i hi s hs).1, (h.linked i hi s hs).2 hki⟩

/-- **A persist** leaves the ledger alone, or commits the blocks after `k` up to the given one. -/
theorem persistSnapshot_cases {j : ℕ} (hj : j ≤ chain.length) :
    (l.persistSnapshot (chain.digest j)).1 = l ∨
      LedgerState.CommitsWalk l (l.persistSnapshot (chain.digest j)).1
          (chainSegment chain.digest chain.changes k j) ∧
        HoldsPrefix chain q₀ (max k j) (l.persistSnapshot (chain.digest j)).1 := by
  rcases l.persistSnapshot_cases (chain.digest j) with hsm | ⟨entries, hw, hc⟩
  · exact .inl hsm
  obtain rfl := h.walk_eq hj hw
  obtain ⟨groups, hf, hlen, hq⟩ := h.committed
  refine .inr ⟨hc, ?_, fun d => ?_, ?_, h.root.persistSnapshot _, fun i hi s hs => ?_⟩
  · exact max_le h.le hj
  · rw [hc.persisted, mem_chainSegment, h.persisted]
    constructor
    · rintro (⟨i, -, hij, rfl⟩ | ⟨i, hik, rfl⟩)
      · exact ⟨i, by omega, rfl⟩
      · exact ⟨i, by omega, rfl⟩
    · rintro ⟨i, hi, rfl⟩
      rcases Nat.lt_or_ge k i with hki | hik
      · exact .inl ⟨i, hki, by omega, rfl⟩
      · exact .inr ⟨i, hik, rfl⟩
  · rw [hc.qmdb, hq]
    rcases Nat.le_total k j with hkj | hjk
    · rw [max_eq_right hkj]
      obtain ⟨groups', hf', hlen', hsm⟩ := chain.commitGroups_segment hkj hf hlen
      exact ⟨groups', hf', hlen', hsm⟩
    · rw [max_eq_left hjk, chainSegment_of_le hjk]
      exact ⟨groups, hf, hlen, commitChanges_new _⟩
  · -- a compacted snapshot has lost its changes, but it is in the new prefix
    obtain ⟨s₀, hs₀, ⟨hmem, rfl⟩ | rfl⟩ := hc.snapshots _ s hs
    · refine ⟨(h.linked i hi s₀ hs₀).1, fun hmax => ?_⟩
      obtain ⟨i', -, hij, heq⟩ := mem_chainSegment.1 hmem
      have hidx := chain.digest_inj hi (hij.trans hj) heq
      omega
    · exact ⟨(h.linked i hi s hs₀).1, fun hmax => (h.linked i hi s hs₀).2 (by omega)⟩

theorem persistSnapshot {j : ℕ} (hj : j ≤ chain.length) :
    ∃ k', k ≤ k' ∧ HoldsPrefix chain q₀ k' (l.persistSnapshot (chain.digest j)).1 := by
  rcases h.persistSnapshot_cases hj with hs | ⟨-, hh⟩
  · rw [hs]
    exact ⟨k, le_rfl, h⟩
  · exact ⟨max k j, le_max_left k j, hh⟩

end

theorem step {node : Node} (h : HoldsPrefix chain q₀ k node.ledger) {op : Node.Op}
    (hc : op.OnChain chain) (he : op.Executes P node) :
    ∃ k', k ≤ k' ∧ HoldsPrefix chain q₀ k' (node.step P op).ledger := by
  cases op with
  | build mempool seeds parent timestamp => exact ⟨k, le_rfl, h⟩
  | verify block parentTimestamp nowSecs =>
    rcases Node.ledger_verify he with hs | ⟨context, parent, outcome, hok, hres⟩
    · rw [hs]
      exact ⟨k, le_rfl, h⟩
    · rw [hres]
      exact ⟨k, le_rfl, h.insertExecuted hok⟩
  | finalize block persistCheckpoint =>
    obtain ⟨i, hi, rfl⟩ := hc
    obtain ⟨l, hl, hres⟩ := Node.ledger_finalize he
    -- first the snapshot of the block, then perhaps the persist of a checkpoint
    have hh : HoldsPrefix chain q₀ k l := by
      rcases hl with rfl | ⟨context, parent, outcome, hok, rfl⟩
      · exact h
      · exact h.insertExecuted hok
    rcases hres with hres | hres
    · rw [hres]
      exact ⟨k, le_rfl, hh⟩
    · rw [hres]
      exact hh.persistSnapshot (Nat.succ_le_of_lt hi)
  | persist digest =>
    obtain ⟨i, hi, rfl⟩ := hc
    exact h.persistSnapshot hi

end HoldsPrefix

/-! ### Whole runs -/

/-- What a mark stands for: there is a newest persisted block, every mark is on one of its
ancestors, exactly the change sets up to it are committed, and the database reads as the chain
there, the commit counter apart. -/
def PersistedCommitted (chain : Chain P) (q₀ : QmdbStore) (l : LedgerState) : Prop :=
  ∃ k ≤ chain.length, chain.digest k ∈ l.snapshots.persisted ∧
    (∀ d ∈ l.snapshots.persisted, ∃ i ≤ k, d = chain.digest i) ∧
    (∃ groups, groups.flatten = changesUpTo chain.outcome k ∧ l.qmdb = q₀.commitGroups groups) ∧
    ∀ address, address ≠ COMMIT_SEQ_ACCOUNT_KEY → reads l.qmdb address = chain.state k address

theorem HoldsPrefix.persistedCommitted {chain : Chain P} {q₀ : QmdbStore} {k : ℕ}
    {l : LedgerState} (h : HoldsPrefix chain q₀ k l) (hq : chain.StartsFrom q₀)
    (hsd : chain.Undestroyed) : PersistedCommitted chain q₀ l := by
  obtain ⟨groups, hf, hlen, hqm⟩ := h.committed
  refine ⟨k, h.le, (h.persisted _).2 ⟨k, le_rfl, rfl⟩, fun d hd => (h.persisted d).1 hd,
    ⟨groups, hf, hqm⟩, fun address ha => ?_⟩
  have hrm := hq.room address ha
  have hle := h.le
  have hr : reads (q₀.commitGroups groups) address =
      StateView.applyAll (reads q₀) groups.flatten address := by
    refine reads_commitGroups_eq hq.clean (fun ch hch => ?_) ha (by omega)
    rw [hf] at hch
    exact hsd.upTo h.le hch
  rw [hqm, hr, hf, Chain.state, hq.genesis]

/-- **A persisted block is committed, with all its ancestors**, in every run from genesis that lets
no block into the ledger unexecuted, on a chain without selfdestructs. -/
theorem persisted_blocks_committed {chain : Chain P} {q₀ : QmdbStore} (hq : chain.StartsFrom q₀)
    (hsd : chain.Undestroyed) {maxTxs recoveredHeight : ℕ} {ops : List Node.Op}
    (hchain : ∀ op ∈ ops, op.OnChain chain)
    (hrun : Run.Along (Node.step P) (fun node op => op.Executes P node)
      (Node.start P q₀ (chain.block 0) maxTxs chain.gasLimit chain.feeRecipient recoveredHeight)
      ops) (n : ℕ) :
    PersistedCommitted chain q₀ ((ops.take n).foldl (Node.step P)
      (Node.start P q₀ (chain.block 0) maxTxs chain.gasLimit chain.feeRecipient
        recoveredHeight)).ledger := by
  have hs := (hrun.take n).and_forall (fun op hop => hchain op (List.mem_of_mem_take hop))
  obtain ⟨k, hk⟩ := hs.history (fun _ node => ∃ k, HoldsPrefix chain q₀ k node.ledger)
    ⟨0, HoldsPrefix.init chain q₀⟩ (by
      rintro past node op ⟨k, hk⟩ hop
      obtain ⟨k', -, hk'⟩ := hk.step hop.1 hop.2
      exact ⟨k', hk'⟩)
  exact hk.persistedCommitted hq hsd

section

open ThreeBlocks

/-- A block is verified, finalized and persisted. -/
theorem persisted_blocks_committed_finalize :
    PersistedCommitted (chain 1 (by decide)) QmdbStore.new
      (([Node.Op.verify (block 1) none 0, .finalize (block 1) true].take 2).foldl
        (Node.step platform) (Node.start platform QmdbStore.new (block 0) 10 30000000 0
          0)).ledger := by
  have hc : ∀ op ∈ [Node.Op.verify (block 1) none 0, .finalize (block 1) true],
      op.OnChain (chain 1 (by decide)) := by
    intro op hop
    rw [List.mem_cons, List.mem_singleton] at hop
    rcases hop with rfl | rfl
    · trivial
    · exact ⟨0, by decide, rfl⟩
  have hrun : Run.Along (Node.step platform) (fun node op => op.Executes platform node)
      (Node.start platform QmdbStore.new (block 0) 10 30000000 0 0)
      [Node.Op.verify (block 1) none 0, .finalize (block 1) true] :=
    ⟨fun h => absurd h.1 (by decide), fun h => absurd h.1 (by decide), trivial⟩
  exact persisted_blocks_committed (startsFrom _) (undestroyed _) hc hrun 2

end

/-! ### A block taken on its certificate -/

section

open ThreeBlocks

def feeMoved (_ : StateView) (view : BlockContext.View) : Bool := view.baseFee ≠ INITIAL_BASE_FEE

theorem feeMoved_seen (i : ℕ) (hi : i < 3) : Seen feeMoved i := by
  interval_cases i <;> decide +kernel

/-- After a restart at height `1` only the finalizer executes block `2`. Block `3`, verified under
the initial base fee, comes to another root and is taken on its certificate: its finalization finds
the mark and commits nothing. -/
theorem trusted_block_not_committed :
    ¬ ∀ (P : Platform) (chain : Chain P) (q₀ : QmdbStore), chain.StartsFrom q₀ →
      chain.Undestroyed → ∀ (maxTxs recoveredHeight : ℕ) (ops : List Node.Op),
        (∀ op ∈ ops, op.OnChain chain) →
        PersistedCommitted chain q₀ (ops.foldl (Node.step P) (Node.start P q₀ (chain.block 0)
          maxTxs chain.gasLimit chain.feeRecipient recoveredHeight)).ledger := by
  intro h
  obtain ⟨k, hk, -, hm, -, hr⟩ := h (heeding feeMoved) (heedingChain le_rfl feeMoved_seen)
    QmdbStore.new (heedingChain_startsFrom le_rfl _) (heedingChain_undestroyed le_rfl _) 10 1
    [.verify (block 1) (some 0) 0, .finalize (block 1) true, .finalize (block 2) true,
      .verify (block 3) (some 0) 0, .finalize (block 3) true] (by
        intro op hop
        simp only [List.mem_cons, List.not_mem_nil, or_false] at hop
        rcases hop with rfl | rfl | rfl | rfl | rfl
        · trivial
        · exact ⟨0, by decide, rfl⟩
        · exact ⟨1, by decide, rfl⟩
        · trivial
        · exact ⟨2, by decide, rfl⟩)
  obtain ⟨i, hi, heq⟩ := hm ((heedingChain le_rfl feeMoved_seen).digest 3) (by decide +kernel)
  have ht := Chain.digest_inj _ le_rfl (hi.trans hk) heq
  obtain rfl : k = 3 := hk.antisymm (by omega)
  have hs := congrFun (congrArg AccountReads.storage (hr 0xA (by decide))) 1
  exact absurd hs (by decide +kernel)

end

end Kora
