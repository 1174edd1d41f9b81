/-
The ledger (`node/ledger/src/lib.rs`).

Snapshots enter it from execution (`insertSnapshot`) or by trust
(`restorePersistedSnapshot`), and `persistSnapshot` commits the unpersisted ancestors of a
block in one batch. Here its three steps are taken in one go, and the commit does not
fail.

* `executeOnParent_ok` — what a successful execution on the parent amounts to;
* `persistSnapshot_cases` — everything a persist can do.
-/
import Kora.Snapshot

open Std

namespace Kora

open InMemorySnapshotStore

/-- The state behind the ledger mutex that snapshots live in. -/
structure LedgerState where
  snapshots : InMemorySnapshotStore
  head : Digest
  qmdb : QmdbStore

namespace LedgerState

variable (P : Platform)

/-- The genesis block of a database that has just been initialised. -/
def genesisBlock (genesisTimestamp : ℕ) (genesisRoot : B256) : Block :=
  { parentId := 0, height := 0, timestamp := genesisTimestamp, prevrandao := 0,
    stateRoot := genesisRoot, txs := [] }

def init (qmdb : QmdbStore) (genesis : Block) : LedgerState :=
  let digest := P.commitment genesis
  let snapshot : Snapshot :=
    { parent := none, state := ChangeSet.new, stateRoot := genesis.stateRoot,
      changes := ChangeSet.new, txIds := [] }
  { snapshots := (InMemorySnapshotStore.new.insert digest snapshot).markPersisted [digest]
    head := digest
    qmdb }

/-- The state a snapshot shows: its pending changes over the shared database. -/
def snapshotView (self : LedgerState) (snapshot : Snapshot) : StateView :=
  reads (OverlayState.new self.qmdb snapshot.state)

/-- The state root of a digest, if its snapshot is there. -/
def queryStateRoot (self : LedgerState) (digest : Digest) : Option B256 :=
  (self.snapshots.get digest).map (·.stateRoot)

def parentSnapshot (self : LedgerState) (parent : Digest) : Option Snapshot :=
  self.snapshots.get parent

def insertSnapshot (self : LedgerState) (digest parent : Digest) (state : ChangeSet) (root : B256)
    (changes : ChangeSet) (txs : List Tx) : LedgerState :=
  { self with
    snapshots := self.snapshots.insert digest
      { parent := some parent, state, stateRoot := root, changes, txIds := txs.map P.txId }
    head := digest }

def restorePersistedSnapshot (self : LedgerState) (block : Block) : LedgerState :=
  let digest := P.commitment block
  let snapshot : Snapshot :=
    { parent := some (P.parent block), state := ChangeSet.new, stateRoot := block.stateRoot,
      changes := ChangeSet.new, txIds := block.txs.map P.txId }
  { self with
    snapshots := (self.snapshots.insert digest snapshot).markPersisted [digest]
    head := digest }

/-- The consensus root of a state transition on top of a parent's root. -/
def computeRootFromStore (self : LedgerState) (parent : Digest) (changes : ChangeSet) :
    Except ConsensusError B256 :=
  match self.snapshots.get parent with
  | some snapshot => .ok (StateRoot.transition P.keccak256 snapshot.stateRoot changes)
  | none => .error (.snapshotNotFound parent)

/-! ### Executing a block on its parent -/

/-- Why a block could not be executed on its parent's snapshot. -/
inductive ReplayError where
  | missingParent
  | executionFailed (message : String)
  | rootComputationFailed (error : ConsensusError)
  | stateRootMismatch (expected computed : B256)
deriving DecidableEq

/-- Take the parent's snapshot, execute the block on it, and compare the root: verification,
finalization and replay. -/
def executeOnParent (self : LedgerState) (context : BlockContext) (block : Block) :
    Except ReplayError (Snapshot × ExecutionOutcome) :=
  match self.parentSnapshot (P.parent block) with
  | none => .error .missingParent
  | some parent =>
    match P.executeBlock (self.snapshotView parent) context block.txs with
    | .error message => .error (.executionFailed message)
    | .ok outcome =>
      match self.computeRootFromStore P (P.parent block) outcome.changes with
      | .error e => .error (.rootComputationFailed e)
      | .ok root =>
        if root ≠ block.stateRoot then .error (.stateRootMismatch block.stateRoot root)
        else .ok (parent, outcome)

/-- Insert the snapshot of an executed block: its changes on top of the parent's overlay. -/
def insertExecuted (self : LedgerState) (block : Block) (parent : Snapshot)
    (changes : ChangeSet) : LedgerState :=
  self.insertSnapshot P (P.commitment block) (P.parent block) (parent.state.merge changes)
    block.stateRoot changes block.txs

/-! ### The snapshots after an insertion -/

theorem get_init (qmdb : QmdbStore) (genesis : Block) (digest : Digest) :
    (init P qmdb genesis).snapshots.get digest =
      if P.commitment genesis = digest then
        some ⟨none, ChangeSet.new, genesis.stateRoot, ChangeSet.new, []⟩
      else none := by
  rw [init, get_markPersisted, get_insert,
    get_new]

theorem mem_persisted_init (qmdb : QmdbStore) (genesis : Block) (digest : Digest) :
    digest ∈ (init P qmdb genesis).snapshots.persisted ↔ digest = P.commitment genesis := by
  rw [init, mem_persisted_markPersisted, List.mem_singleton]
  simp [new]

theorem get_insertExecuted (l : LedgerState) (block : Block) (parent : Snapshot)
    (changes : ChangeSet) (digest : Digest) :
    (l.insertExecuted P block parent changes).snapshots.get digest =
      if P.commitment block = digest then
        some ⟨some (P.parent block), parent.state.merge changes, block.stateRoot, changes,
          block.txs.map P.txId⟩
      else l.snapshots.get digest := by
  rw [insertExecuted, insertSnapshot, get_insert]

theorem get_restorePersistedSnapshot (l : LedgerState) (block : Block) (digest : Digest) :
    (l.restorePersistedSnapshot P block).snapshots.get digest =
      if P.commitment block = digest then
        some ⟨some (P.parent block), ChangeSet.new, block.stateRoot, ChangeSet.new,
          block.txs.map P.txId⟩
      else l.snapshots.get digest := by
  rw [restorePersistedSnapshot, get_markPersisted,
    get_insert]

theorem mem_persisted_restorePersistedSnapshot (l : LedgerState) (block : Block)
    (digest : Digest) :
    digest ∈ (l.restorePersistedSnapshot P block).snapshots.persisted ↔
      digest = P.commitment block ∨ digest ∈ l.snapshots.persisted := by
  rw [restorePersistedSnapshot, mem_persisted_markPersisted,
    List.mem_singleton, persisted_insert]

/-! ### What an execution on the parent returns -/

variable {l : LedgerState} {block : Block}

theorem executeOnParent_ok {context : BlockContext} {parent : Snapshot} {outcome : ExecutionOutcome}
    :
    l.executeOnParent P context block = .ok (parent, outcome) ↔
      l.snapshots.get (P.parent block) = some parent ∧
      P.executeBlock (l.snapshotView parent) context block.txs = .ok outcome ∧
      StateRoot.transition P.keccak256 parent.stateRoot outcome.changes = block.stateRoot := by
  rw [executeOnParent, parentSnapshot]
  cases hget : l.snapshots.get (P.parent block) with
  | none => simp
  | some s =>
    dsimp only
    cases he : P.executeBlock (l.snapshotView s) context block.txs with
    | error message =>
      refine ⟨fun h => by (cases h), ?_⟩
      rintro ⟨hs, hok, -⟩
      obtain rfl := Option.some.inj hs
      rw [he] at hok
      cases hok
    | ok o =>
      -- the root is computed over the parent's snapshot, which is there
      simp only [computeRootFromStore, hget]
      by_cases hr : StateRoot.transition P.keccak256 s.stateRoot o.changes = block.stateRoot
      · rw [if_neg (not_not.2 hr)]
        constructor
        · intro h
          obtain ⟨rfl, rfl⟩ := Prod.mk.inj (Except.ok.inj h)
          exact ⟨rfl, he, hr⟩
        · rintro ⟨hs, hok, -⟩
          obtain rfl := Option.some.inj hs
          rw [he] at hok
          rw [Except.ok.inj hok]
      · rw [if_pos hr]
        refine ⟨fun h => by (cases h), ?_⟩
        rintro ⟨hs, hok, hr'⟩
        obtain rfl := Option.some.inj hs
        rw [he] at hok
        obtain rfl := Except.ok.inj hok
        exact absurd hr' hr

theorem executeOnParent_frame {l' : LedgerState}
    (hget : l'.snapshots.get (P.parent block) = l.snapshots.get (P.parent block))
    (hq : l'.qmdb = l.qmdb) (context : BlockContext) :
    l'.executeOnParent P context block = l.executeOnParent P context block := by
  simp only [executeOnParent, parentSnapshot, computeRootFromStore, snapshotView, hget, hq]

theorem executeOnParent_missingParent {context : BlockContext} :
    l.executeOnParent P context block = .error .missingParent ↔
      l.snapshots.get (P.parent block) = none := by
  rw [executeOnParent, parentSnapshot]
  cases hget : l.snapshots.get (P.parent block) with
  | none => simp
  | some s =>
    refine ⟨fun h => ?_, fun h => by (cases h)⟩
    dsimp only at h
    split at h
    · cases h
    · split at h
      · cases h
      · split at h <;> cases h

/-! ### Persisting -/

/-- The locked first part: the chain to commit with its merged changes, or `none` if all is done or
some is in flight. -/
def preparePersist (self : LedgerState) (digest : Digest) :
    Except ConsensusError (Option (List Digest × ChangeSet)) :=
  match self.snapshots.changesForPersist digest with
  | .error e => .error e
  | .ok (chain, changes) =>
    if chain.isEmpty then .ok none
    else if self.snapshots.canPersistChain chain then .ok (some (chain, changes))
    else .ok none

/-- Replace the snapshots of a committed chain by compact ones, up to the first that is gone. -/
def compactChain (store : InMemorySnapshotStore) :
    List Digest → InMemorySnapshotStore × Option ConsensusError
  | [] => (store, none)
  | digest :: rest =>
    match store.get digest with
    | none => (store, some (.snapshotNotFound digest))
    | some snapshot =>
      compactChain (store.insert digest
        { snapshot with state := ChangeSet.new, changes := ChangeSet.new }) rest

/-- The locked last part of a persist, after the commit. -/
def completePersist (self : LedgerState) (chain : List Digest) :
    LedgerState × Except ConsensusError Bool :=
  let cleared := self.snapshots.clearPersistingChain chain
  match compactChain cleared chain with
  | (compacted, none) =>
    ({ self with snapshots := (compacted.markPersisted chain).evictPersisted }, .ok true)
  | (compacted, some e) => ({ self with snapshots := compacted }, .error e)

/-- Persist a digest and any missing ancestors to QMDB. -/
def persistSnapshot (self : LedgerState) (digest : Digest) :
    LedgerState × Except ConsensusError Bool :=
  match self.preparePersist digest with
  | .error e => (self, .error e)
  | .ok none => (self, .ok false)
  | .ok (some (chain, changes)) =>
    let prepared := { self with snapshots := self.snapshots.markPersistingChain chain }
    completePersist { prepared with qmdb := prepared.qmdb.commitChanges changes } chain

/-! ### What a persist does -/

/-- The compact form of a committed snapshot. -/
def compacted (snapshot : Snapshot) : Snapshot :=
  { snapshot with state := ChangeSet.new, changes := ChangeSet.new }

variable {chain : List Digest}

theorem compactChain_of_present {store : InMemorySnapshotStore}
    (h : ∀ digest ∈ chain, ∃ s, store.get digest = some s) :
    (compactChain store chain).2 = none ∧
      (compactChain store chain).1.persisted = store.persisted ∧
      ∀ digest, (compactChain store chain).1.get digest =
        if digest ∈ chain then (store.get digest).map compacted else store.get digest := by
  induction chain generalizing store with
  | nil => exact ⟨rfl, rfl, fun digest => by simp [compactChain]⟩
  | cons d ds ih =>
    obtain ⟨s, hs⟩ := h d List.mem_cons_self
    have hst : compactChain store (d :: ds) = compactChain (store.insert d (compacted s)) ds := by
      rw [compactChain, hs]
      rfl
    have hp : ∀ digest ∈ ds, ∃ s', (store.insert d (compacted s)).get digest = some s' := by
      intro digest hmem
      rw [get_insert]
      split
      · exact ⟨_, rfl⟩
      · exact h digest (List.mem_cons_of_mem d hmem)
    obtain ⟨hnone, hper, hget⟩ := ih hp
    rw [hst]
    refine ⟨hnone, hper, fun digest => ?_⟩
    rw [hget, get_insert]
    by_cases hd : d = digest
    · -- A digest that is on the chain twice is compacted twice, to the same snapshot.
      subst hd
      simp [hs, compacted]
    · simp [hd, Ne.symm hd]

@[simp] theorem persisting_compactChain (store : InMemorySnapshotStore) (chain : List Digest) :
    (compactChain store chain).1.persisting = store.persisting := by
  induction chain generalizing store with
  | nil => rfl
  | cons d ds ih =>
    rw [compactChain]
    split
    · rfl
    · rw [ih, persisting_insert]

variable {digest : Digest}

theorem preparePersist_some {changes : ChangeSet}
    (h : l.preparePersist digest = .ok (some (chain, changes))) :
    ∃ entries, l.snapshots.walk (l.snapshots.snapshots.size + 1) (some digest) = .ok entries ∧
      entries ≠ [] ∧ chain = entries.map Prod.fst ∧
      changes = ChangeSet.mergeAll (entries.map Prod.snd) ∧
      ∀ d ∈ chain, d ∉ l.snapshots.persisting := by
  rw [preparePersist, changesForPersist] at h
  cases hw : l.snapshots.walk (l.snapshots.snapshots.size + 1) (some digest) with
  | error e =>
    rw [hw] at h
    cases h
  | ok entries =>
    rw [hw] at h
    dsimp only at h
    split at h
    · cases h
    · next hne =>
      split at h
      · next hcan =>
        obtain ⟨rfl, rfl⟩ := Prod.mk.inj (Option.some.inj (Except.ok.inj h))
        refine ⟨entries, rfl, fun hnil => hne (by simp [hnil]), rfl, rfl, fun d hd => ?_⟩
        have hf := List.all_eq_true.1 hcan d hd
        exact (of_decide_eq_true hf).2
      · cases h

theorem preparePersist_none (h : l.preparePersist digest = .ok none) :
    digest ∈ l.snapshots.persisted ∨
      ∃ entries, l.snapshots.walk (l.snapshots.snapshots.size + 1) (some digest) = .ok entries ∧
        ∃ d ∈ entries.map Prod.fst, d ∈ l.snapshots.persisting := by
  rw [preparePersist, changesForPersist] at h
  cases hw : l.snapshots.walk (l.snapshots.snapshots.size + 1) (some digest) with
  | error e =>
    rw [hw] at h
    cases h
  | ok entries =>
    rw [hw] at h
    dsimp only at h
    obtain ⟨hper, -⟩ | ⟨-, -, snapshot, older, -, -, -, he⟩ :=
      walk_cases hw
    · exact .inl hper
    · right
      refine ⟨entries, rfl, ?_⟩
      rw [if_neg (by simp [he])] at h
      split at h
      · cases h
      · next hc =>
        by_contra hfr
        refine hc (List.all_eq_true.2 fun d hd => decide_eq_true ⟨?_, ?_⟩)
        · obtain ⟨entry, hen, rfl⟩ := List.mem_map.1 hd
          exact (walk_mem hw hen).1
        · exact fun hf => hfr ⟨d, hd, hf⟩

structure Completes (l l' : LedgerState) (chain : List Digest) : Prop where
  qmdb : l'.qmdb = l.qmdb
  persisted : ∀ digest, digest ∈ l'.snapshots.persisted ↔
    digest ∈ chain ∨ digest ∈ l.snapshots.persisted
  persisting : ∀ digest, digest ∈ l'.snapshots.persisting ↔
    digest ∉ chain ∧ digest ∈ l.snapshots.persisting
  /-- A snapshot is either on the chain and compact now, or as it was. -/
  snapshots : ∀ digest s, l'.snapshots.get digest = some s →
    ∃ s₀, l.snapshots.get digest = some s₀ ∧ (digest ∈ chain ∧ s = compacted s₀ ∨ s = s₀)
  /-- Nothing but persisted snapshots is evicted. -/
  kept : ∀ digest, digest ∉ chain → digest ∉ l.snapshots.persisted →
    l'.snapshots.get digest = l.snapshots.get digest

theorem completePersist_of_present (h : ∀ digest ∈ chain, ∃ s, l.snapshots.get digest = some s) :
    (l.completePersist chain).2 = .ok true ∧ Completes l (l.completePersist chain).1 chain ∧
      ∀ d ∈ chain, ∀ s, (l.completePersist chain).1.snapshots.get d = some s →
        s.state = ChangeSet.new := by
  have hp : ∀ digest ∈ chain, ∃ s,
      (l.snapshots.clearPersistingChain chain).get digest = some s := by simpa using h
  obtain ⟨hnone, hper, hget⟩ := compactChain_of_present hp
  have hf := persisting_compactChain (l.snapshots.clearPersistingChain chain) chain
  rw [completePersist]
  -- What is left of the store is known by its marks and its snapshots.
  generalize compactChain _ _ = result at hnone hper hget hf
  obtain ⟨store, error⟩ := result
  dsimp only at hnone hper hget hf ⊢
  subst hnone
  refine ⟨rfl, ⟨rfl, fun d => ?_, fun d => ?_, fun d s hs => ?_, fun d hc hnot => ?_⟩,
    fun d hd s hs => ?_⟩
  · rw [persisted_evictPersisted, mem_persisted_markPersisted, hper,
      persisted_clearPersistingChain]
  · rw [persisting_evictPersisted, persisting_markPersisted, hf,
      mem_persisting_clearPersistingChain]
  · have hs' := get_evictPersisted hs
    rw [get_markPersisted, hget] at hs'
    split at hs'
    · next hmem =>
      obtain ⟨s₀, hs₀, rfl⟩ := Option.map_eq_some_iff.1 hs'
      exact ⟨s₀, by simpa using hs₀, .inl ⟨hmem, rfl⟩⟩
    · exact ⟨s, by simpa using hs', .inr rfl⟩
  · have hm : d ∉ (store.markPersisted chain).persisted := by
      rw [mem_persisted_markPersisted, hper]
      rintro (hmem | hmem)
      · exact hc hmem
      · exact hnot hmem
    rw [get_evictPersisted_of_notMem hm, get_markPersisted, hget, if_neg hc,
      get_clearPersistingChain]
  · have hs' := get_evictPersisted hs
    rw [get_markPersisted, hget, if_pos hd] at hs'
    obtain ⟨s₀, -, rfl⟩ := Option.map_eq_some_iff.1 hs'
    rfl

variable {d : Digest}

theorem persistSnapshot_of_prepare {changes : ChangeSet}
    (hpr : l.preparePersist digest = .ok (some (chain, changes))) :
    Completes { l with
        snapshots := l.snapshots.markPersistingChain chain
        qmdb := l.qmdb.commitChanges changes }
      (l.persistSnapshot digest).1 chain ∧
    ∀ d ∈ chain, ∀ s, (l.persistSnapshot digest).1.snapshots.get d = some s →
      s.state = ChangeSet.new := by
  let committed : LedgerState := { l with
    snapshots := l.snapshots.markPersistingChain chain
    qmdb := l.qmdb.commitChanges changes }
  -- The walk has seen every snapshot it returned, so the compaction cannot fail.
  have hp : ∀ d ∈ chain, ∃ s, committed.snapshots.get d = some s := by
    obtain ⟨entries, hw, -, rfl, -⟩ := preparePersist_some hpr
    intro d hd
    obtain ⟨entry, he, rfl⟩ := List.mem_map.1 hd
    obtain ⟨-, s, hs, -⟩ := walk_mem hw he
    exact ⟨s, hs⟩
  have hres : (l.persistSnapshot digest).1 = (committed.completePersist chain).1 := by
    rw [persistSnapshot, hpr]
  rw [hres]
  exact (completePersist_of_present hp).2

theorem persistSnapshot_completes (l : LedgerState) (digest : Digest) :
    (l.persistSnapshot digest).1 = l ∨
      ∃ entries, l.snapshots.walk (l.snapshots.snapshots.size + 1) (some digest) = .ok entries ∧
        Completes { l with
            snapshots := l.snapshots.markPersistingChain (entries.map Prod.fst)
            qmdb := l.qmdb.commitChanges (ChangeSet.mergeAll (entries.map Prod.snd)) }
          (l.persistSnapshot digest).1 (entries.map Prod.fst) ∧
        ∀ d ∈ entries.map Prod.fst, ∀ s, (l.persistSnapshot digest).1.snapshots.get d = some s →
          s.state = ChangeSet.new := by
  cases hp : l.preparePersist digest with
  | error e =>
    left
    rw [persistSnapshot, hp]
  | ok prepared =>
    cases prepared with
    | none =>
      left
      rw [persistSnapshot, hp]
    | some entry =>
      obtain ⟨entries, hw, -, hch, hc, -⟩ := preparePersist_some hp
      obtain ⟨chain, changes⟩ := entry
      obtain rfl : chain = entries.map Prod.fst := hch
      obtain rfl : changes = ChangeSet.mergeAll (entries.map Prod.snd) := hc
      exact .inr ⟨entries, hw, persistSnapshot_of_prepare hp⟩

structure CommitsWalk (l l' : LedgerState) (entries : List (Digest × ChangeSet)) : Prop where
  qmdb : l'.qmdb = l.qmdb.commitChanges (ChangeSet.mergeAll (entries.map Prod.snd))
  persisted : ∀ digest, digest ∈ l'.snapshots.persisted ↔
    digest ∈ entries.map Prod.fst ∨ digest ∈ l.snapshots.persisted
  /-- A snapshot is either on the walk and compact now, or as it was. -/
  snapshots : ∀ digest s, l'.snapshots.get digest = some s →
    ∃ s₀, l.snapshots.get digest = some s₀ ∧
      (digest ∈ entries.map Prod.fst ∧ s = compacted s₀ ∨ s = s₀)

/-- **Everything a persist can do**: leave the ledger alone, or commit what the walk found in one
batch. -/
theorem persistSnapshot_cases (l : LedgerState) (digest : Digest) :
    (l.persistSnapshot digest).1 = l ∨
      ∃ entries, l.snapshots.walk (l.snapshots.snapshots.size + 1) (some digest) = .ok entries ∧
        CommitsWalk l (l.persistSnapshot digest).1 entries := by
  rcases l.persistSnapshot_completes digest with hs | ⟨entries, hw, hd, -⟩
  · exact .inl hs
  · exact .inr ⟨entries, hw, hd.qmdb, hd.persisted, hd.snapshots⟩

theorem get_persistSnapshot (hd : d ∉ (l.persistSnapshot digest).1.snapshots.persisted) :
    (l.persistSnapshot digest).1.snapshots.get d = l.snapshots.get d := by
  rcases l.persistSnapshot_completes digest with hs | ⟨entries, -, hdn, -⟩
  · rw [hs]
  · rw [hdn.persisted, not_or] at hd
    exact hdn.kept d hd.1 hd.2

theorem compact_persistSnapshot {s : Snapshot} (hnew : d ∉ l.snapshots.persisted)
    (hm : d ∈ (l.persistSnapshot digest).1.snapshots.persisted)
    (hs : (l.persistSnapshot digest).1.snapshots.get d = some s) : s.state = ChangeSet.new := by
  rcases l.persistSnapshot_completes digest with hsm | ⟨entries, -, hd, hc⟩
  · rw [hsm] at hm
    exact absurd hm hnew
  · rcases (hd.persisted d).1 hm with hmem | hold
    · exact hc d hmem s hs
    · exact absurd hold hnew

@[simp] theorem head_persistSnapshot (l : LedgerState) (digest : Digest) :
    (l.persistSnapshot digest).1.head = l.head := by
  rw [persistSnapshot]
  split
  · rfl
  · rfl
  · rw [completePersist]
    split <;> rfl

theorem persistSnapshot_marks (l : LedgerState) (digest : Digest) :
    (l.persistSnapshot digest).1 = l ∨
      digest ∈ (l.persistSnapshot digest).1.snapshots.persisted := by
  rcases l.persistSnapshot_cases digest with hs | ⟨entries, hw, hc⟩
  · exact .inl hs
  · right
    rw [hc.persisted]
    obtain ⟨hper, -⟩ | ⟨-, -, snapshot, older, -, -, -, rfl⟩ :=
      walk_cases hw
    · exact .inr hper
    · exact .inl (by simp)

theorem marked_of_persistSnapshot (hi : l.snapshots.persisting = ∅) {persisted : Bool}
    (h : (l.persistSnapshot digest).2 = .ok persisted) :
    digest ∈ (l.persistSnapshot digest).1.snapshots.persisted := by
  cases hp : l.preparePersist digest with
  | error e =>
    rw [persistSnapshot, hp] at h
    cases h
  | ok prepared =>
    cases prepared with
    | none =>
      rw [persistSnapshot, hp]
      rcases preparePersist_none hp with hm | ⟨entries, -, d, -, hf⟩
      · exact hm
      · rw [hi] at hf
        exact absurd hf (Finset.notMem_empty d)
    | some entry =>
      obtain ⟨entries, hw, hne, hc, -, -⟩ := preparePersist_some hp
      refine ((persistSnapshot_of_prepare hp).1.persisted digest).2 (.inl ?_)
      rw [hc]
      exact mem_walk hw hne

theorem persisting_persistSnapshot (hi : l.snapshots.persisting = ∅) (digest : Digest) :
    (l.persistSnapshot digest).1.snapshots.persisting = ∅ := by
  rcases l.persistSnapshot_completes digest with hs | ⟨entries, -, hdn, -⟩
  · rw [hs, hi]
  · refine Finset.eq_empty_of_forall_notMem fun d hd => ?_
    obtain ⟨hnot, hmem⟩ := (hdn.persisting d).1 hd
    rw [mem_persisting_markPersistingChain, hi] at hmem
    rcases hmem with hc | he
    · exact hnot hc
    · exact absurd he (Finset.notMem_empty d)

theorem persistSnapshot_of_persisted (h : digest ∈ l.snapshots.persisted) :
    l.persistSnapshot digest = (l, .ok false) := by
  simp [persistSnapshot, preparePersist, changesForPersist,
    walk, h]

end LedgerState

end Kora
