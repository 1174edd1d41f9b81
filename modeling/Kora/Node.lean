/-
The node: application, ledger and block index under one sequence of operations
(`node/runner`).

Consensus asks to build and to verify blocks, the marshal hands over finalized blocks, and
checkpoints are persisted. Each operation is taken in one step here.

* `Op.OnChain` — only blocks of the finalized chain are finalized and persisted;
* `Op.Executes` — no block enters the ledger without having been executed.
-/
import Kora.Application
import Kora.Reporter
import Kora.Chain

open Std

namespace Kora

open LedgerState FinalizedReporter

/-! ### Snapshots and the roots of a chain -/

/-- Every snapshot of a block of the chain has the root of the block. -/
def Chain.RootsHold {P : Platform} (chain : Chain P) (l : LedgerState) : Prop :=
  ∀ i ≤ chain.length, ∀ s, l.snapshots.get (chain.digest i) = some s →
    s.stateRoot = (chain.block i).stateRoot

namespace Chain.RootsHold

variable {P : Platform} {chain : Chain P} {l : LedgerState}

theorem init (chain : Chain P) (q : QmdbStore) : chain.RootsHold (init P q (chain.block 0)) := by
  intro i hi s hs
  rw [get_init] at hs
  split at hs
  · next heq =>
    have hzero := chain.digest_inj (Nat.zero_le _) hi heq
    obtain rfl := Option.some.inj hs
    rw [← hzero]
  · cases hs

variable (h : chain.RootsHold l)
include h

theorem insertExecuted (block : Block) (parent : Snapshot) (changes : ChangeSet) :
    chain.RootsHold (l.insertExecuted P block parent changes) := by
  intro i hi s hs
  rw [get_insertExecuted] at hs
  split at hs
  · next heq =>
    obtain rfl := chain.unique i hi block heq
    obtain rfl := Option.some.inj hs
    rfl
  · exact h i hi s hs

theorem restorePersistedSnapshot (block : Block) :
    chain.RootsHold (l.restorePersistedSnapshot P block) := by
  intro i hi s hs
  rw [get_restorePersistedSnapshot] at hs
  split at hs
  · next heq =>
    obtain rfl := chain.unique i hi block heq
    obtain rfl := Option.some.inj hs
    rfl
  · exact h i hi s hs

theorem persistSnapshot (digest : Digest) : chain.RootsHold (l.persistSnapshot digest).1 := by
  rcases l.persistSnapshot_cases digest with hsm | ⟨entries, -, hc⟩
  · rw [hsm]
    exact h
  · intro i hi s hs
    obtain ⟨s₀, hs₀, ⟨-, rfl⟩ | rfl⟩ := hc.snapshots _ s hs
    · exact h i hi s₀ hs₀
    · exact h i hi s hs₀

/-- A block of the chain executed on its parent's root, so its changes are those of the chain. -/
theorem changes_eq {i : ℕ} (hi : i < chain.length) {context : BlockContext} {parent : Snapshot}
    {outcome : ExecutionOutcome}
    (he : l.executeOnParent P context (chain.block (i + 1)) = .ok (parent, outcome)) :
    outcome.changes = chain.changes (i + 1) := by
  obtain ⟨hget, hrun, hr⟩ := (executeOnParent_ok P).1 he
  rw [chain.parent_block hi] at hget
  rw [h i hi.le parent hget] at hr
  exact chain.binds i hi _ _ _ hrun hr

end Chain.RootsHold

/-- No block above number `i` is marked persisted. -/
def Chain.UnmarkedAbove {P : Platform} (chain : Chain P) (i : ℕ) (l : LedgerState) : Prop :=
  ∀ j, i < j → j ≤ chain.length → chain.digest j ∉ l.snapshots.persisted

/-! ### The system -/

/-- A node. The application's gas limit and fee recipient are the finalizer's too. -/
structure Node where
  app : RevmApplication
  ledger : LedgerState
  index : BlockIndex

namespace Node

variable (P : Platform)

def provider (self : Node) : RevmContextProvider := ⟨self.app.gasLimit, self.app.feeRecipient⟩

/-- A node on an initialised database; a recovered height other than zero means a restart. -/
def start (qmdb : QmdbStore) (genesis : Block) (maxTxs gasLimit : ℕ) (feeRecipient : Address)
    (recoveredHeight : ℕ) : Node where
  app := (RevmApplication.new P genesis maxTxs gasLimit feeRecipient).withRecoveredHeight
    recoveredHeight
  ledger := LedgerState.init P qmdb genesis
  index := BlockIndex.new.seedGenesisBlockIndex P genesis gasLimit

inductive Op where
  /-- Build a block on a parent, with the mempool and the known seeds. -/
  | build (mempool : ℕ → List B256 → List Tx) (seeds : Digest → Option B256) (parent : Block)
    (timestamp : ℕ)
  | verify (block : Block) (parentTimestamp : Option ℕ) (nowSecs : ℕ)
  /-- Handle a finalized block; whether it is a checkpoint depends on the configured interval. -/
  | finalize (block : Block) (persistCheckpoint : Bool)
  | persist (digest : Digest)

/-- One operation. A failed finalization aborts the process: what follows belongs to no run. -/
def step (self : Node) : Op → Node
  | .build mempool seeds parent timestamp =>
    { self with app := (self.app.buildBlock P self.ledger mempool seeds parent timestamp).1 }
  | .verify block parentTimestamp nowSecs =>
    let result := self.app.verifyBlock P self.ledger block parentTimestamp nowSecs
    { self with app := result.1, ledger := result.2.1 }
  | .finalize block persistCheckpoint =>
    let result := FinalizedReporter.handleFinalizedUpdate P self.ledger self.index self.provider
      block persistCheckpoint
    { self with ledger := result.1, index := result.2.1 }
  | .persist digest => { self with ledger := (self.ledger.persistSnapshot digest).1 }

variable {P}

/-- What callers guarantee about a finalized chain. -/
def Op.OnChain (chain : Chain P) : Op → Prop
  | .finalize block _ => ∃ i < chain.length, block = chain.block (i + 1)
  | .persist digest => ∃ i ≤ chain.length, digest = chain.digest i
  | _ => True

/-- The operation lets no block into the ledger that it has not executed. -/
def Op.Executes (P : Platform) (node : Node) : Op → Prop
  | .verify block _ _ => ¬ node.app.Trusts P node.ledger block
  | .finalize block _ => ¬ FinalizedReporter.Restores P node.ledger block
  | _ => True

theorem provider_step (node : Node) (op : Op) : (node.step P op).provider = node.provider := by
  cases op with
  | build mempool seeds parent timestamp =>
    rcases node.app.buildBlock_cases P node.ledger mempool seeds parent timestamp
      with hres | ⟨block, snapshot, outcome, -, -, -, -, hres⟩
    · rw [step, hres]
    · rw [step, hres]
      rfl
  | verify block parentTimestamp nowSecs =>
    rcases node.app.verifyBlock_cases P node.ledger block parentTimestamp nowSecs
      with ⟨height, ok, hres⟩ | ⟨-, hres⟩ | ⟨parent, outcome, -, -, hres⟩
    · rw [step, hres]
      rfl
    · rw [step, hres]
      rfl
    · rw [step, hres]
      rfl
  | finalize block persistCheckpoint | persist digest => rfl

/-! ### Steps that execute -/

theorem ledger_verify {node : Node} {block : Block} {parentTimestamp : Option ℕ} {nowSecs : ℕ}
    (h : (Op.verify block parentTimestamp nowSecs).Executes P node) :
    (node.step P (.verify block parentTimestamp nowSecs)).ledger = node.ledger ∨
      ∃ context parent outcome,
        node.ledger.executeOnParent P context block = .ok (parent, outcome) ∧
        (node.step P (.verify block parentTimestamp nowSecs)).ledger =
          node.ledger.insertExecuted P block parent outcome.changes := by
  rcases node.app.verifyBlock_cases P node.ledger block parentTimestamp nowSecs
    with ⟨height, ok, hres⟩ | ⟨ht, -⟩ | ⟨parent, outcome, he, -, hres⟩
  · left
    rw [step, hres]
  · exact absurd ht h
  · right
    refine ⟨_, parent, outcome, he, ?_⟩
    rw [step, hres]

theorem ledger_finalize {node : Node} {block : Block} {persistCheckpoint : Bool}
    (h : (Op.finalize block persistCheckpoint).Executes P node) :
    ∃ l, (l = node.ledger ∨ ∃ context parent outcome,
        node.ledger.executeOnParent P context block = .ok (parent, outcome) ∧
        l = node.ledger.insertExecuted P block parent outcome.changes) ∧
      ((node.step P (.finalize block persistCheckpoint)).ledger = l ∨
        (node.step P (.finalize block persistCheckpoint)).ledger =
          (l.persistSnapshot (P.commitment block)).1) := by
  have hl : (node.step P (.finalize block persistCheckpoint)).ledger =
      (finalizeBlock P node.ledger node.index node.provider true block
        persistCheckpoint).1 := handleFinalizedUpdate_ledger ..
  rw [hl]
  refine ⟨_, ?_, finalizeBlock_ledger P node.ledger node.index node.provider true
    block persistCheckpoint⟩
  rcases ensureSnapshot_cases P node.ledger node.index node.provider true block
    with ⟨hs, -⟩ | ⟨hr, -⟩ | ⟨parent, outcome, he, hres⟩
  · exact .inl hs
  · exact absurd hr h
  · exact .inr ⟨_, parent, outcome, he, by rw [hres]⟩

end Node

end Kora
