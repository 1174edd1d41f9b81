/-
Concurrent persists (`persist_snapshot` in `node/ledger/src/lib.rs`).

Under a first lock a persist marks the unpersisted ancestors in flight; then the changes
are committed, which may fail; under a second lock the marks are cleared and, after a
success, the chain is marked persisted. Other calls and `insert_snapshot` run in between.

* `InFlight` — the marks in flight are those of the calls under way, whose chains are
  disjoint;
* `persist_once_in_order` — on a linear chain each block is committed once and in order;
* `persist_promise_iff` — when the answer of a call says something about its digest.
-/
import Kora.Ledger
import Kora.Chain
import Mathlib.Logic.Function.Basic

open Std List Function

namespace Kora

open InMemorySnapshotStore LedgerState

inductive LedgerError where
  | qmdb (message : String)
  | consensus (error : ConsensusError)
deriving DecidableEq

/-- A call of `persist_snapshot` between its two locked parts. -/
structure PersistCall where
  digest : Digest
  chain : List Digest
  changes : ChangeSet
  /-- What the commit returned, once it has. -/
  result : Option (Except String Unit)

/-- A ledger and the calls under way on it. -/
structure PersistSystem where
  ledger : LedgerState
  calls : ℕ → Option PersistCall
  /-- The successful commits so far, each with its digests and its changes. -/
  log : List (List Digest × ChangeSet)

namespace PersistSystem

def start (ledger : LedgerState) : PersistSystem := ⟨ledger, fun _ => none, []⟩

inductive Event where
  | insert (digest parent : Digest) (state : ChangeSet) (root : B256) (changes : ChangeSet)
    (txs : List Tx)
  /-- The first locked part of a call. -/
  | prepare (id : ℕ) (digest : Digest)
  /-- The commit of a call returns. -/
  | commit (id : ℕ) (result : Except String Unit)
  /-- The second locked part of a call. -/
  | complete (id : ℕ)

variable (P : Platform)

/-- The second locked part: clear the marks and, after a success, go on as `completePersist`. -/
def finishPersist (ledger : LedgerState) (chain : List Digest) :
    Except String Unit → LedgerState × Except LedgerError Bool
  | .ok () =>
    match ledger.completePersist chain with
    | (ledger', .ok b) => (ledger', .ok b)
    | (ledger', .error e) => (ledger', .error (.consensus e))
  | .error message =>
    ({ ledger with snapshots := ledger.snapshots.clearPersistingChain chain },
      .error (.qmdb message))

/-- One event. A number is used again only after its call returned; others do nothing. -/
def step (self : PersistSystem) : Event → PersistSystem
  | .insert digest parent state root changes txs =>
    { self with ledger := self.ledger.insertSnapshot P digest parent state root changes txs }
  | .prepare id digest =>
    match self.calls id, self.ledger.preparePersist digest with
    | none, .ok (some (chain, changes)) =>
      { self with
        ledger.snapshots := self.ledger.snapshots.markPersistingChain chain
        calls := Function.update self.calls id (some ⟨digest, chain, changes, none⟩) }
    | _, _ => self
  | .commit id result =>
    match self.calls id with
    | some ⟨digest, chain, changes, none⟩ =>
      { ledger := match result with
          | .ok () => { self.ledger with qmdb := self.ledger.qmdb.commitChanges changes }
          | .error _ => self.ledger
        calls := Function.update self.calls id (some ⟨digest, chain, changes, some result⟩)
        log := match result with
          | .ok () => self.log ++ [(chain, changes)]
          | .error _ => self.log }
    | _ => self
  | .complete id =>
    match self.calls id with
    | some ⟨_, chain, _, some result⟩ =>
      { self with
        ledger := (finishPersist self.ledger chain result).1
        calls := Function.update self.calls id none }
    | _ => self

/-- What a call returns in an event, if it returns there. -/
def answer (self : PersistSystem) : Event → Option (Except LedgerError Bool)
  | .prepare id digest =>
    match self.calls id, self.ledger.preparePersist digest with
    | none, .error e => some (.error (.consensus e))
    | none, .ok none => some (.ok false)
    | _, _ => none
  | .complete id =>
    match self.calls id with
    | some ⟨_, chain, _, some result⟩ => some (finishPersist self.ledger chain result).2
    | _ => none
  | _ => none

/-- **Everything an event can do**, if it does anything. -/
inductive Moves (self : PersistSystem) : Event → PersistSystem → Prop
  | insert (digest parent : Digest) (state : ChangeSet) (root : B256) (changes : ChangeSet)
    (txs : List Tx) :
    Moves self (.insert digest parent state root changes txs)
      { self with ledger := self.ledger.insertSnapshot P digest parent state root changes txs }
  | prepare {id : ℕ} {digest : Digest} {chain : List Digest} {changes : ChangeSet}
    (hfree : self.calls id = none)
    (hprepare : self.ledger.preparePersist digest = .ok (some (chain, changes))) :
    Moves self (.prepare id digest)
      { self with
        ledger.snapshots := self.ledger.snapshots.markPersistingChain chain
        calls := Function.update self.calls id (some ⟨digest, chain, changes, none⟩) }
  | commit {id : ℕ} {call : PersistCall} (hcall : self.calls id = some call)
    (hresult : call.result = none) :
    Moves self (.commit id (.ok ()))
      { ledger := { self.ledger with qmdb := self.ledger.qmdb.commitChanges call.changes }
        calls := Function.update self.calls id (some { call with result := some (.ok ()) })
        log := self.log ++ [(call.chain, call.changes)] }
  | fail {id : ℕ} {call : PersistCall} (message : String) (hcall : self.calls id = some call)
    (hresult : call.result = none) :
    Moves self (.commit id (.error message))
      { self with
        calls := Function.update self.calls id
          (some { call with result := some (.error message) }) }
  | complete {id : ℕ} {call : PersistCall} {result : Except String Unit}
    (hcall : self.calls id = some call) (hresult : call.result = some result) :
    Moves self (.complete id)
      { self with
        ledger := (finishPersist self.ledger call.chain result).1
        calls := Function.update self.calls id none }

theorem step_moves (s : PersistSystem) (event : Event) :
    s.step P event = s ∨ Moves P s event (s.step P event) := by
  cases event with
  | insert digest parent state root changes txs => exact .inr (.insert ..)
  | prepare id digest =>
    rw [step]
    split
    · next hf hp => exact .inr (.prepare hf hp)
    · exact .inl rfl
  | commit id result =>
    rw [step]
    split
    · next hcall =>
      cases result with
      | ok _ => exact .inr (.commit hcall rfl)
      | error message => exact .inr (.fail message hcall rfl)
    · exact .inl rfl
  | complete id =>
    rw [step]
    split
    · next hcall => exact .inr (.complete hcall rfl)
    · exact .inl rfl

/-! ### The marks in flight -/

variable {P}

/-- The call is under way and the digest is on its chain. -/
def Commits (calls : ℕ → Option PersistCall) (id : ℕ) (digest : Digest) : Prop :=
  ∃ call, calls id = some call ∧ digest ∈ call.chain

section Commits

variable {calls : ℕ → Option PersistCall} {id id' : ℕ} {call : PersistCall} {d : Digest}

theorem commits_iff (h : calls id = some call) : Commits calls id d ↔ d ∈ call.chain := by
  refine ⟨?_, fun hd => ⟨call, h, hd⟩⟩
  rintro ⟨call', hcall', hd⟩
  obtain rfl := Option.some.inj (h.symm.trans hcall')
  exact hd

theorem commits_update :
    Commits (update calls id (some call)) id' d ↔
      id' = id ∧ d ∈ call.chain ∨ id' ≠ id ∧ Commits calls id' d := by
  by_cases hid : id' = id
  · subst hid
    rw [commits_iff (update_self ..)]
    simp
  · simp [Commits, hid]

theorem commits_update_none :
    Commits (update calls id none) id' d ↔ id' ≠ id ∧ Commits calls id' d := by
  by_cases hid : id' = id
  · subst hid
    simp [Commits]
  · simp [Commits, hid]

theorem commits_update_result (h : calls id = some call) (result : Option (Except String Unit)) :
    Commits (update calls id (some { call with result })) id' d ↔
      Commits calls id' d := by
  rw [commits_update]
  by_cases hid : id' = id
  · subst hid
    simp [commits_iff h]
  · simp [hid]

end Commits

/-- The marks are those of the calls under way, which share no digest and commit what is there and
unpersisted. -/
structure InFlight (s : PersistSystem) : Prop where
  marks : ∀ d, d ∈ s.ledger.snapshots.persisting ↔ ∃ id, Commits s.calls id d
  disjoint : ∀ id id' d, Commits s.calls id d → Commits s.calls id' d → id = id'
  present : ∀ id d, Commits s.calls id d →
    d ∉ s.ledger.snapshots.persisted ∧ ∃ snapshot, s.ledger.snapshots.get d = some snapshot
  digest : ∀ id call, s.calls id = some call → call.digest ∈ call.chain

theorem InFlight.start {l : LedgerState} (h : l.snapshots.persisting = ∅) :
    (PersistSystem.start l).InFlight where
  marks d := by
    show d ∈ l.snapshots.persisting ↔ _
    rw [h]
    refine ⟨fun hd => absurd hd (Finset.notMem_empty d), ?_⟩
    rintro ⟨id, call, hcall, -⟩
    cases hcall
  disjoint := by
    rintro id id' d ⟨call, hcall, -⟩
    cases hcall
  present := by
    rintro id d ⟨call, hcall, -⟩
    cases hcall
  digest id call hcall := by cases hcall

theorem finishPersist_ok {l : LedgerState} {chain : List Digest}
    (h : ∀ d ∈ chain, ∃ snapshot, l.snapshots.get d = some snapshot) :
    (finishPersist l chain (.ok ())).2 = .ok true ∧
      Completes l (finishPersist l chain (.ok ())).1 chain := by
  obtain ⟨hok, hd, -⟩ := completePersist_of_present h
  rw [finishPersist]
  generalize l.completePersist chain = result at hok hd
  obtain ⟨l', answer⟩ := result
  dsimp only at hok hd
  subst hok
  exact ⟨rfl, hd⟩

namespace InFlight

variable {s s' : PersistSystem}

variable {id : ℕ} {call : PersistCall}

variable (h : s.InFlight)
include h

section

variable (hcall : s.calls id = some call)
include hcall

theorem chain_present {d : Digest} (hd : d ∈ call.chain) :
    d ∉ s.ledger.snapshots.persisted ∧ ∃ snapshot, s.ledger.snapshots.get d = some snapshot :=
  h.present id d ⟨call, hcall, hd⟩

theorem completes :
    (finishPersist s.ledger call.chain (.ok ())).2 = .ok true ∧
      Completes s.ledger (finishPersist s.ledger call.chain (.ok ())).1 call.chain :=
  finishPersist_ok fun _ hd => (h.chain_present hcall hd).2

theorem marks_complete {d : Digest} :
    (d ∉ call.chain ∧ d ∈ s.ledger.snapshots.persisting) ↔
      ∃ id', Commits (update s.calls id none) id' d := by
  rw [h.marks]
  constructor
  · rintro ⟨hd, id', hc⟩
    refine ⟨id', commits_update_none.2 ⟨?_, hc⟩⟩
    rintro rfl
    exact hd ((commits_iff hcall).1 hc)
  · rintro ⟨id', hc⟩
    obtain ⟨hid, hc⟩ := commits_update_none.1 hc
    refine ⟨fun hd => hid ?_, id', hc⟩
    exact h.disjoint id' id d hc ⟨call, hcall, hd⟩

theorem learns (result : Option (Except String Unit)) (qmdb : QmdbStore)
    (log : List (List Digest × ChangeSet)) :
    InFlight ⟨{ s.ledger with qmdb }, update s.calls id (some { call with result }),
      log⟩ := by
  refine ⟨fun d => ?_, fun id₁ id₂ d h₁ h₂ => ?_, fun id' d hd => ?_, fun id' call' hcall' => ?_⟩
  · simp only [commits_update_result hcall]
    exact h.marks d
  · rw [commits_update_result hcall] at h₁ h₂
    exact h.disjoint id₁ id₂ d h₁ h₂
  · rw [commits_update_result hcall] at hd
    exact h.present id' d hd
  · dsimp only at hcall'
    by_cases hid : id' = id
    · subst hid
      rw [update_self] at hcall'
      obtain rfl := Option.some.inj hcall'
      exact h.digest id' call hcall
    · rw [update_of_ne hid] at hcall'
      exact h.digest id' call' hcall'

theorem returns {l : LedgerState}
    (hm : ∀ d, d ∈ l.snapshots.persisting ↔ d ∉ call.chain ∧ d ∈ s.ledger.snapshots.persisting)
    (hk : ∀ d, d ∉ call.chain → d ∉ s.ledger.snapshots.persisted →
      d ∉ l.snapshots.persisted ∧ l.snapshots.get d = s.ledger.snapshots.get d) :
    InFlight { s with ledger := l, calls := update s.calls id none } := by
  refine ⟨fun d => (hm d).trans (h.marks_complete hcall), fun id₁ id₂ d h₁ h₂ => ?_,
    fun id' d hd => ?_, fun id' call' hcall' => ?_⟩
  · exact h.disjoint id₁ id₂ d (commits_update_none.1 h₁).2 (commits_update_none.1 h₂).2
  · obtain ⟨hid, hc⟩ := commits_update_none.1 hd
    obtain ⟨hnot, hget⟩ := h.present id' d hc
    have hch : d ∉ call.chain := fun hmem =>
      hid (h.disjoint id' id d hc ⟨call, hcall, hmem⟩)
    obtain ⟨hnot', hs⟩ := hk d hch hnot
    exact ⟨hnot', hs ▸ hget⟩
  · dsimp only at hcall'
    by_cases hid : id' = id
    · subst hid
      rw [update_self] at hcall'
      cases hcall'
    · rw [update_of_ne hid] at hcall'
      exact h.digest id' call' hcall'

end

theorem moves {event : Event} (hm : Moves P s event s') : s'.InFlight := by
  cases hm with
  | insert digest parent state root changes txs =>
    refine ⟨h.marks, h.disjoint, fun id d hd => ⟨(h.present id d hd).1, ?_⟩, h.digest⟩
    show ∃ snapshot, (s.ledger.snapshots.insert digest _).get d = some snapshot
    rw [InMemorySnapshotStore.get_insert]
    split
    · exact ⟨_, rfl⟩
    · exact (h.present id d hd).2
  | @prepare id digest chain changes hfr hp =>
    obtain ⟨entries, hw, hne, rfl, rfl, hnew⟩ := preparePersist_some hp
    -- the new chain is not in flight, so it meets no other
    have hf : ∀ id' d, d ∈ entries.map Prod.fst → ¬ Commits s.calls id' d :=
      fun id' d hd hc => hnew d hd ((h.marks d).2 ⟨id', hc⟩)
    refine ⟨fun d => ?_, fun id₁ id₂ d h₁ h₂ => ?_, fun id' d hd => ?_, fun id' call hcall => ?_⟩
    · dsimp only
      rw [mem_persisting_markPersistingChain, h.marks]
      constructor
      · rintro (hd | ⟨id', hc⟩)
        · exact ⟨id, commits_update.2 (.inl ⟨rfl, hd⟩)⟩
        · refine ⟨id', commits_update.2 (.inr ⟨?_, hc⟩)⟩
          rintro rfl
          obtain ⟨call, hcall, -⟩ := hc
          rw [hfr] at hcall
          cases hcall
      · rintro ⟨id', hc⟩
        rcases commits_update.1 hc with ⟨-, hd⟩ | ⟨-, hold⟩
        · exact .inl hd
        · exact .inr ⟨id', hold⟩
    · rcases commits_update.1 h₁ with ⟨hid₁, hd₁⟩ | ⟨hid₁, hd₁⟩ <;>
        rcases commits_update.1 h₂ with ⟨hid₂, hd₂⟩ | ⟨hid₂, hd₂⟩
      · rw [hid₁, hid₂]
      · exact absurd hd₂ (hf id₂ d hd₁)
      · exact absurd hd₁ (hf id₁ d hd₂)
      · exact h.disjoint id₁ id₂ d hd₁ hd₂
    · rcases commits_update.1 hd with ⟨-, hd⟩ | ⟨-, hd⟩
      · obtain ⟨entry, he, rfl⟩ := mem_map.1 hd
        obtain ⟨hnot, snapshot, hget, -⟩ := walk_mem hw he
        exact ⟨hnot, snapshot, hget⟩
      · exact h.present id' d hd
    · dsimp only at hcall
      by_cases hid : id' = id
      · subst hid
        rw [update_self] at hcall
        obtain rfl := Option.some.inj hcall
        exact mem_walk hw hne
      · rw [update_of_ne hid] at hcall
        exact h.digest id' call hcall
  | commit hcall hr => exact h.learns hcall _ _ _
  | fail message hcall hr => exact h.learns hcall _ _ _
  | @complete id call result hcall hr =>
    cases result with
    | ok _ =>
      obtain ⟨-, hdn⟩ := h.completes hcall
      refine h.returns hcall hdn.persisting fun d hch hnot => ⟨?_, hdn.kept d hch hnot⟩
      rw [hdn.persisted]
      exact fun hmem => hmem.elim hch hnot
    | error message =>
      refine h.returns hcall (fun d => ?_) fun d _ hnot => ⟨hnot, rfl⟩
      exact mem_persisting_clearPersistingChain

theorem step (event : Event) : (s.step P event).InFlight := by
  rcases step_moves P s event with hs | hm
  · rw [hs]
    exact h
  · exact h.moves hm

theorem run (events : List Event) : (events.foldl (PersistSystem.step P) s).InFlight :=
  List.foldlRecOn events _ h fun _ h event _ => h.step event

end InFlight

/-! ### Linear chains -/

section Linear

variable {digest : ℕ → Digest} {changes : ℕ → ChangeSet} {n k₀ : ℕ}

/-- Snapshots are inserted and persisted along one chain, whose block `i + 1` has block `i` as its
parent. -/
def Event.OnChain (digest : ℕ → Digest) (changes : ℕ → ChangeSet) (n : ℕ) : Event → Prop
  | .insert d parent _ _ ch _ =>
    ∃ i < n, d = digest (i + 1) ∧ parent = digest i ∧ ch = changes (i + 1)
  | .prepare _ d => ∃ i ≤ n, d = digest i
  | _ => True

/-- The blocks up to `k` are persisted, and the snapshots above it are linked. -/
structure Linear (digest : ℕ → Digest) (changes : ℕ → ChangeSet) (n k : ℕ)
    (store : InMemorySnapshotStore) : Prop where
  le : k ≤ n
  persisted : ∀ i ≤ n, digest i ∈ store.persisted ↔ i ≤ k
  linked : ∀ i < n, k ≤ i → ∀ s, store.get (digest (i + 1)) = some s →
    s.parent = some (digest i) ∧ s.changes = changes (i + 1)

/-- The entry of the log for a run of blocks. -/
def logEntry (group : List (Digest × ChangeSet)) : List Digest × ChangeSet :=
  (group.map Prod.fst, ChangeSet.mergeAll (group.map Prod.snd))

/-- The commits so far are of the blocks after `k₀` up to `top`, each once and in order. -/
def Logged (digest : ℕ → Digest) (changes : ℕ → ChangeSet) (k₀ top : ℕ)
    (log : List (List Digest × ChangeSet)) : Prop :=
  ∃ groups : List (List (Digest × ChangeSet)),
    groups.flatten = chainSegment digest changes k₀ top ∧ log = groups.map logEntry

variable {j : ℕ}

theorem Logged.concat {top : ℕ} {log : List (List Digest × ChangeSet)} (hk : k₀ ≤ top)
    (hj : top ≤ j) (h : Logged digest changes k₀ top log) :
    Logged digest changes k₀ j (log ++ [logEntry (chainSegment digest changes top j)]) := by
  obtain ⟨groups, hf, rfl⟩ := h
  refine ⟨groups ++ [chainSegment digest changes top j], ?_, ?_⟩
  · rw [flatten_append, flatten_singleton, hf, chainSegment_append hk hj]
  · rw [map_append, map_singleton]

/-- The only call under way commits the blocks after `k`; they are in the log once it succeeded. -/
structure Busy (digest : ℕ → Digest) (changes : ℕ → ChangeSet) (n k₀ k : ℕ) (s : PersistSystem)
    (id : ℕ) (call : PersistCall) (j : ℕ) : Prop where
  mine : s.calls id = some call
  only : ∀ id', id' ≠ id → s.calls id' = none
  lt : k < j
  le : j ≤ n
  entry : (call.chain, call.changes) = logEntry (chainSegment digest changes k j)
  log : call.result = some (.ok ()) ∧ Logged digest changes k₀ j s.log ∨
    call.result ≠ some (.ok ()) ∧ Logged digest changes k₀ k s.log

/-- On a linear chain persisted up to `k`, at most one call is under way. -/
structure InOrder (digest : ℕ → Digest) (changes : ℕ → ChangeSet) (n k₀ k : ℕ)
    (s : PersistSystem) : Prop where
  inFlight : s.InFlight
  linear : Linear digest changes n k s.ledger.snapshots
  le : k₀ ≤ k
  phase : (∀ id, s.calls id = none) ∧ Logged digest changes k₀ k s.log ∨
    ∃ id call j, Busy digest changes n k₀ k s id call j

variable {id k : ℕ} {call : PersistCall}

theorem Busy.eq_of_calls {s : PersistSystem} {id' : ℕ} {call' : PersistCall}
    (h : Busy digest changes n k₀ k s id call j) (hcall : s.calls id' = some call') :
    id' = id ∧ call' = call := by
  by_cases hid : id' = id
  · subst hid
    exact ⟨rfl, Option.some.inj (hcall.symm.trans h.mine)⟩
  · rw [h.only id' hid] at hcall
    cases hcall

theorem Busy.chain {s : PersistSystem} (h : Busy digest changes n k₀ k s id call j) {d : Digest} :
    d ∈ call.chain ↔ ∃ i, k < i ∧ i ≤ j ∧ d = digest i := by
  rw [(Prod.mk.inj h.entry).1]
  exact mem_chainSegment

theorem Busy.logged_of_ne {s : PersistSystem} (h : Busy digest changes n k₀ k s id call j)
    (hne : call.result ≠ some (.ok ())) : Logged digest changes k₀ k s.log := by
  rcases h.log with ⟨hok, -⟩ | ⟨-, hlog⟩
  · exact absurd hok hne
  · exact hlog

theorem Busy.only_update {s : PersistSystem} (h : Busy digest changes n k₀ k s id call j)
    (call' : Option PersistCall) {id' : ℕ} (hid : id' ≠ id) :
    Function.update s.calls id call' id' = none := by
  rw [update_of_ne hid, h.only id' hid]

theorem Linear.insert {store : InMemorySnapshotStore}
    (hinj : ∀ i ≤ n, ∀ i' ≤ n, digest i = digest i' → i = i') (h : Linear digest changes n k store)
    {i : ℕ} (hi : i < n) {snapshot : Snapshot} (hp : snapshot.parent = some (digest i))
    (hc : snapshot.changes = changes (i + 1)) :
    Linear digest changes n k (store.insert (digest (i + 1)) snapshot) := by
  refine ⟨h.le, h.persisted, fun i' hi' hk s hs => ?_⟩
  rw [InMemorySnapshotStore.get_insert] at hs
  split at hs
  · next heq =>
    have hsm := hinj (i + 1) hi (i' + 1) hi' heq
    obtain rfl : i = i' := by omega
    obtain rfl := Option.some.inj hs
    exact ⟨hp, hc⟩
  · exact h.linked i' hi' hk s hs

theorem Linear.complete {l l' : LedgerState}
    (hinj : ∀ i ≤ n, ∀ i' ≤ n, digest i = digest i' → i = i')
    (h : Linear digest changes n k l.snapshots) {chain : List Digest} (hkj : k < j) (hj : j ≤ n)
    (hc : ∀ d, d ∈ chain ↔ ∃ i, k < i ∧ i ≤ j ∧ d = digest i) (hd : Completes l l' chain) :
    Linear digest changes n j l'.snapshots := by
  refine ⟨hj, fun i hi => ?_, fun i hi hji s hs => ?_⟩
  · rw [hd.persisted, hc, h.persisted i hi]
    constructor
    · rintro (⟨i', -, hi', heq⟩ | hik)
      · rw [hinj i hi i' (by omega) heq]
        exact hi'
      · omega
    · intro hij
      by_cases hik : i ≤ k
      · exact .inr hik
      · exact .inl ⟨i, by omega, hij, rfl⟩
  · obtain ⟨s₀, hs₀, ⟨hmem, -⟩ | rfl⟩ := hd.snapshots _ s hs
    · -- a block above the committed ones is not on the chain
      obtain ⟨i', -, hi', heq⟩ := (hc _).1 hmem
      have hsm := hinj (i + 1) hi i' (by omega) heq
      omega
    · exact h.linked i hi (by omega) s hs₀

namespace InOrder

variable {s s' : PersistSystem} {k : ℕ}

variable (h : InOrder digest changes n k₀ k s)
include h

/-- A call that finds something to commit finds all blocks after the newest persisted one, so it is
alone. -/
theorem prepare_entries (hj : j ≤ n) {chain : List Digest} {ch : ChangeSet}
    (hp : s.ledger.preparePersist (digest j) = .ok (some (chain, ch))) :
    k < j ∧ (chain, ch) = logEntry (chainSegment digest changes k j) ∧
      ∀ id, s.calls id = none := by
  obtain ⟨entries, hw, hne, rfl, rfl, hnew⟩ := preparePersist_some hp
  obtain rfl := walk_segment h.linear.persisted h.linear.linked hj hw
  have hkj : k < j := by
    by_contra hle
    exact hne (chainSegment_of_le (by omega))
  refine ⟨hkj, rfl, ?_⟩
  rcases h.phase with ⟨hi, -⟩ | ⟨id, call, j', hb⟩
  · exact hi
  · -- the block above the newest persisted one would be in flight
    have hm : digest (k + 1) ∈ (chainSegment digest changes k j).map Prod.fst :=
      mem_chainSegment.2 ⟨k + 1, by omega, by omega, rfl⟩
    have ht : digest (k + 1) ∈ call.chain := hb.chain.2 ⟨k + 1, by omega, hb.lt, rfl⟩
    exact absurd ((h.inFlight.marks _).2 ⟨id, call, hb.mine, ht⟩) (hnew _ hm)

theorem busy_of_calls (hcall : s.calls id = some call) :
    ∃ j, Busy digest changes n k₀ k s id call j := by
  rcases h.phase with ⟨hi, -⟩ | ⟨id', call', j, hb⟩
  · rw [hi id] at hcall
    cases hcall
  · obtain ⟨rfl, rfl⟩ := hb.eq_of_calls hcall
    exact ⟨j, hb⟩

theorem moves (hinj : ∀ i ≤ n, ∀ i' ≤ n, digest i = digest i' → i = i') {event : Event}
    (hc : event.OnChain digest changes n) (hm : Moves P s event s') :
    ∃ k', InOrder digest changes n k₀ k' s' := by
  have hf := h.inFlight.moves hm
  cases hm with
  | insert d parent state root ch txs =>
    obtain ⟨i, hi, rfl, rfl, rfl⟩ := hc
    refine ⟨k, hf, h.linear.insert hinj hi rfl rfl, h.le, ?_⟩
    rcases h.phase with hil | ⟨id, call, j, hb⟩
    · exact .inl hil
    · exact .inr ⟨id, call, j, { hb with }⟩
  | @prepare id d chain ch hfr hp =>
    obtain ⟨j, hj, rfl⟩ := hc
    obtain ⟨hkj, he, hil⟩ := h.prepare_entries hj hp
    have hlog : Logged digest changes k₀ k s.log := by
      rcases h.phase with ⟨-, hlog⟩ | ⟨id', call', j', hb⟩
      · exact hlog
      · exact absurd hb.mine (by simp [hil id'])
    refine ⟨k, hf, ⟨h.linear.le, h.linear.persisted, h.linear.linked⟩, h.le, .inr ?_⟩
    refine ⟨id, ⟨digest j, chain, ch, none⟩, j, ?_, fun id' hid => ?_, hkj, hj, he, .inr ?_⟩
    · exact update_self ..
    · dsimp only
      rw [update_of_ne hid, hil id']
    · exact ⟨by simp, hlog⟩
  | @commit id call hcall hr =>
    obtain ⟨j, hb⟩ := h.busy_of_calls hcall
    have hlog := hb.logged_of_ne (by simp [hr])
    refine ⟨k, hf, h.linear, h.le, .inr ⟨id, _, j, update_self ..,
      fun _ => hb.only_update _, hb.lt, hb.le, hb.entry, .inl ⟨rfl, ?_⟩⟩⟩
    dsimp only
    rw [hb.entry]
    exact hlog.concat h.le hb.lt.le
  | @fail id call message hcall hr =>
    obtain ⟨j, hb⟩ := h.busy_of_calls hcall
    have hlog := hb.logged_of_ne (by simp [hr])
    exact ⟨k, hf, h.linear, h.le, .inr ⟨id, _, j, update_self ..,
      fun _ => hb.only_update _, hb.lt, hb.le, hb.entry, .inr ⟨by simp, hlog⟩⟩⟩
  | @complete id call result hcall hr =>
    obtain ⟨j, hb⟩ := h.busy_of_calls hcall
    have hil : ∀ id', update s.calls id none id' = none := by
      intro id'
      by_cases hid : id' = id
      · rw [hid, update_self]
      · exact hb.only_update none hid
    cases result with
    | ok _ =>
      have hlog : Logged digest changes k₀ j s.log := by
        rcases hb.log with ⟨-, hlog⟩ | ⟨hnot, -⟩
        · exact hlog
        · exact absurd hr hnot
      obtain ⟨-, hd⟩ := h.inFlight.completes hcall
      exact ⟨j, hf, h.linear.complete hinj hb.lt hb.le (fun _ => hb.chain) hd,
        h.le.trans hb.lt.le, .inl ⟨hil, hlog⟩⟩
    | error message =>
      have hlog := hb.logged_of_ne (by simp [hr])
      exact ⟨k, hf, ⟨h.linear.le, h.linear.persisted, h.linear.linked⟩, h.le,
        .inl ⟨hil, hlog⟩⟩

omit h in
theorem start {l : LedgerState} (hf : l.snapshots.persisting = ∅)
    (hl : Linear digest changes n k₀ l.snapshots) :
    InOrder digest changes n k₀ k₀ (PersistSystem.start l) where
  inFlight := .start hf
  linear := hl
  le := le_rfl
  phase := .inl ⟨fun _ => rfl, [], by rw [chainSegment_of_le le_rfl, flatten_nil], rfl⟩

theorem run (hinj : ∀ i ≤ n, ∀ i' ≤ n, digest i = digest i' → i = i') {events : List Event}
    (he : ∀ event ∈ events, event.OnChain digest changes n) :
    ∃ k', InOrder digest changes n k₀ k' (events.foldl (PersistSystem.step P) s) := by
  refine List.foldlRecOn events _ (motive := fun s => ∃ k', InOrder digest changes n k₀ k' s)
    ⟨k, h⟩ ?_
  rintro s ⟨k, h⟩ event hev
  rcases step_moves P s event with hs | hm
  · rw [hs]
    exact ⟨k, h⟩
  · exact h.moves hinj (he event hev) hm

theorem logged : ∃ top, k ≤ top ∧ top ≤ n ∧ Logged digest changes k₀ top s.log := by
  rcases h.phase with ⟨-, hlog⟩ | ⟨id, call, j, hb⟩
  · exact ⟨k, le_rfl, h.linear.le, hlog⟩
  · rcases hb.log with ⟨-, hlog⟩ | ⟨-, hlog⟩
    · exact ⟨j, hb.lt.le, hb.le, hlog⟩
    · exact ⟨k, le_rfl, h.linear.le, hlog⟩

end InOrder

end Linear

/-! ### The database and the log -/

theorem qmdb_finishPersist (l : LedgerState) (chain : List Digest)
    (result : Except String Unit) : (finishPersist l chain result).1.qmdb = l.qmdb := by
  cases result with
  | ok _ =>
    have hc : (l.completePersist chain).1.qmdb = l.qmdb := by
      rw [completePersist]
      split <;> rfl
    rw [finishPersist, ← hc]
    split <;> next heq => rw [heq]
  | error message => rfl

theorem qmdb_run (l : LedgerState) (events : List Event) :
    (events.foldl (step P) (start l)).ledger.qmdb =
      (events.foldl (step P) (start l)).log.foldl (fun q entry => q.commitChanges entry.2)
        l.qmdb := by
  refine List.foldlRecOn events _ (motive := fun s : PersistSystem =>
    s.ledger.qmdb = s.log.foldl (fun q entry => q.commitChanges entry.2) l.qmdb) rfl ?_
  intro s h event _
  rcases step_moves P s event with hs | hm
  · rw [hs]
    exact h
  · generalize s.step P event = s' at hm ⊢
    cases hm with
    | insert | prepare => exact h
    | commit hcall hr =>
      dsimp only
      rw [foldl_append, foldl_cons, foldl_nil, h]
    | fail => exact h
    | complete hcall hr =>
      dsimp only
      rw [qmdb_finishPersist, h]

/-- The protocol's purpose on a linear chain persisted up to `k₀` in the database `q₀`. -/
structure OnceInOrder (digest : ℕ → Digest) (changes : ℕ → ChangeSet) (n k₀ : ℕ) (q₀ : QmdbStore)
    (s : PersistSystem) : Prop where
  inOrder : ∃ top ≤ n, Logged digest changes k₀ top s.log
  /-- No digest is in two successful commits. -/
  once : (s.log.flatMap Prod.fst).Nodup
  qmdb : s.ledger.qmdb = s.log.foldl (fun q entry => q.commitChanges entry.2) q₀
  /-- A mark comes after the commit. -/
  marked : ∀ i ≤ n, digest i ∈ s.ledger.snapshots.persisted →
    i ≤ k₀ ∨ digest i ∈ s.log.flatMap Prod.fst
  /-- A mark in flight belongs to a call under way. -/
  inFlight : ∀ d ∈ s.ledger.snapshots.persisting, ∃ id, Commits s.calls id d

section

variable {digest : ℕ → Digest} {changes : ℕ → ChangeSet} {n k₀ : ℕ}

theorem Logged.digests {top : ℕ} {log : List (List Digest × ChangeSet)}
    (h : Logged digest changes k₀ top log) :
    log.flatMap Prod.fst = (chainSegment digest changes k₀ top).map Prod.fst := by
  obtain ⟨groups, hf, rfl⟩ := h
  rw [← hf, flatMap_map, map_flatten, flatMap_def]
  rfl

theorem nodup_chainSegment {top : ℕ} (hinj : ∀ i ≤ n, ∀ i' ≤ n, digest i = digest i' → i = i')
    (htop : top ≤ n) : ((chainSegment digest changes k₀ top).map Prod.fst).Nodup := by
  rw [chainSegment, map_map]
  refine List.Nodup.map_on ?_ nodup_range'
  intro i hi i' hi' heq
  rw [mem_range'_1] at hi hi'
  exact hinj i (by omega) i' (by omega) heq

/-- **Each block is committed once and in order**, in every interleaving of persists and insertions
on a linear chain. -/
theorem persist_once_in_order (hinj : ∀ i ≤ n, ∀ i' ≤ n, digest i = digest i' → i = i')
    {l : LedgerState} (hflight : l.snapshots.persisting = ∅)
    (hlinear : Linear digest changes n k₀ l.snapshots) {events : List Event}
    (hevents : ∀ event ∈ events, event.OnChain digest changes n) (m : ℕ) :
    OnceInOrder digest changes n k₀ l.qmdb ((events.take m).foldl (step P) (start l)) := by
  have hmem : ∀ event ∈ events.take m, event.OnChain digest changes n :=
    fun event he => hevents event (mem_of_mem_take he)
  obtain ⟨k, h⟩ := (InOrder.start hflight hlinear).run (P := P) hinj hmem
  obtain ⟨top, hk, htop, hlog⟩ := h.logged
  refine ⟨⟨top, htop, hlog⟩, ?_, qmdb_run l _, fun i hi hm => ?_, fun d hd => ?_⟩
  · rw [hlog.digests]
    exact nodup_chainSegment hinj htop
  · have hik := (h.linear.persisted i hi).1 hm
    by_cases hk₀ : i ≤ k₀
    · exact .inl hk₀
    · rw [hlog.digests]
      exact .inr (mem_chainSegment.2 ⟨i, by omega, by omega, rfl⟩)
  · exact (h.inFlight.marks d).1 hd

end

/-! ### Two blocks on genesis -/

namespace TwoSnapshots

def digest (i : ℕ) : Digest := BitVec.ofNat 256 (i + 1)

def changes (i : ℕ) : ChangeSet := extractChanges (evmAccountA false false (BitVec.ofNat 256 i))

/-- A ledger at genesis, whose digest is `digest 0`. -/
def genesis : LedgerState := .init ThreeBlocks.platform QmdbStore.new (ThreeBlocks.block 0)

/-- Insert the snapshot of a block of the chain. -/
def insertBlock (i : ℕ) : Event := .insert (digest i) (digest (i - 1)) (changes i) 7 (changes i) []

theorem digest_inj : ∀ i ≤ 2, ∀ i' ≤ 2, digest i = digest i' → i = i' := by decide

theorem linear : Linear digest changes 2 0 genesis.snapshots where
  le := by decide
  persisted := by decide +kernel
  linked i hi _ s hs := by
    have hnone : genesis.snapshots.get (digest (i + 1)) = none := by
      interval_cases i <;> decide +kernel
    rw [hnone] at hs
    cases hs

end TwoSnapshots

section

open TwoSnapshots

theorem persist_once_in_order_two :
    OnceInOrder digest changes 2 0 genesis.qmdb
      (([insertBlock 1, insertBlock 2, .prepare 0 (digest 1), .prepare 1 (digest 2),
        .commit 0 (.ok ()), .complete 0, .prepare 1 (digest 2), .commit 1 (.ok ()),
        .complete 1].take 9).foldl (step ThreeBlocks.platform) (start genesis)) := by
  refine persist_once_in_order digest_inj rfl linear (fun event he => ?_) 9
  simp only [mem_cons, not_mem_nil, or_false] at he
  rcases he with rfl | rfl | rfl | rfl | rfl | rfl | rfl | rfl | rfl
  · exact ⟨0, by decide, rfl, rfl, rfl⟩
  · exact ⟨1, by decide, rfl, rfl, rfl⟩
  · exact ⟨1, by decide, rfl⟩
  · exact ⟨2, by decide, rfl⟩
  · trivial
  · trivial
  · exact ⟨2, by decide, rfl⟩
  · trivial
  · trivial

end

/-! ### What an answer promises -/

/-- The digest is persisted, or some call is committing it. -/
def Held (s : PersistSystem) (d : Digest) : Prop :=
  d ∈ s.ledger.snapshots.persisted ∨ ∃ id, Commits s.calls id d

def Blocked (s : PersistSystem) (d : Digest) : Prop :=
  d ∉ s.ledger.snapshots.persisting ∧
    ∃ entries, s.ledger.snapshots.walk (s.ledger.snapshots.snapshots.size + 1) (some d) =
      .ok entries ∧ ∃ a ∈ entries.map Prod.fst, a ∈ s.ledger.snapshots.persisting

/-- No commit under way has failed. -/
def NoFailure (calls : ℕ → Option PersistCall) : Prop :=
  ∀ id call message, calls id = some call → call.result ≠ some (.error message)

theorem NoFailure.update {calls : ℕ → Option PersistCall} (h : NoFailure calls) (id : ℕ)
    {new : Option PersistCall}
    (hnew : ∀ call message, new = some call → call.result ≠ some (.error message)) :
    NoFailure (update calls id new) := by
  intro id' call message hcall
  by_cases hid : id' = id
  · subst hid
    rw [update_self] at hcall
    exact hnew call message hcall
  · rw [update_of_ne hid] at hcall
    exact h id' call message hcall

variable {s : PersistSystem} {d : Digest}

theorem InFlight.held_iff (h : s.InFlight) :
    s.Held d ↔ d ∈ s.ledger.snapshots.persisted ∨ d ∈ s.ledger.snapshots.persisting := by
  rw [Held, h.marks]

theorem preparePersist_of_answer {id : ℕ} (h : s.answer (.prepare id d) = some (.ok false)) :
    s.ledger.preparePersist d = .ok none := by
  rw [answer] at h
  split at h
  · cases h
  · next hp => exact hp
  · cases h

theorem InFlight.refused_iff (h : s.InFlight) {id : ℕ}
    (han : s.answer (.prepare id d) = some (.ok false)) : s.Held d ↔ ¬ s.Blocked d := by
  rw [h.held_iff]
  constructor
  · rintro (hper | hf) ⟨hnot, entries, hw, a, ha, -⟩
    · -- the walk of a persisted digest is empty
      obtain ⟨-, rfl⟩ | ⟨hn, -⟩ := walk_cases hw
      · cases ha
      · exact hn hper
    · exact hnot hf
  · intro hfr
    rcases preparePersist_none (preparePersist_of_answer han) with hper | hw
    · exact .inl hper
    · right
      by_contra hnot
      exact hfr ⟨hnot, hw⟩

theorem Held.step (hf : s.InFlight) (hok : NoFailure s.calls) {event : Event}
    (he : ∀ id message, event ≠ .commit id (.error message)) :
    NoFailure (s.step P event).calls ∧ ∀ d, s.Held d → (s.step P event).Held d := by
  rcases step_moves P s event with hs | hm
  · rw [hs]
    exact ⟨hok, fun _ => id⟩
  generalize s.step P event = s' at hm ⊢
  cases hm with
  | insert => exact ⟨hok, fun _ => id⟩
  | @prepare id d chain changes hfr hp =>
    refine ⟨hok.update id fun call message hcall => ?_, fun d hd => hd.imp_right ?_⟩
    · obtain rfl := Option.some.inj hcall
      simp
    · rintro ⟨id', hc⟩
      refine ⟨id', commits_update.2 (.inr ⟨?_, hc⟩)⟩
      rintro rfl
      obtain ⟨call, hcall, -⟩ := hc
      rw [hfr] at hcall
      cases hcall
  | @commit id call hcall hr =>
    refine ⟨hok.update id fun call' message hcall' => ?_, fun d hd => hd.imp_right ?_⟩
    · obtain rfl := Option.some.inj hcall'
      simp
    · rintro ⟨id', hc⟩
      exact ⟨id', (commits_update_result hcall _).2 hc⟩
  | fail message => exact absurd rfl (he _ message)
  | @complete id call result hcall hr =>
    cases result with
    | error message => exact absurd hr (hok id call message hcall)
    | ok _ =>
      obtain ⟨-, hdn⟩ := hf.completes hcall
      refine ⟨hok.update id fun call' message hcall' => (by cases hcall'), fun d hd => ?_⟩
      rcases hd with hper | ⟨id', hc⟩
      · exact .inl ((hdn.persisted d).2 (.inr hper))
      · by_cases hid : id' = id
        · subst hid
          exact .inl ((hdn.persisted d).2 (.inl ((commits_iff hcall).1 hc)))
        · exact .inr ⟨id', commits_update_none.2 ⟨hid, hc⟩⟩

theorem Held.run (hf : s.InFlight) (hok : NoFailure s.calls) {later : List Event}
    (hl : ∀ id message, .commit id (.error message) ∉ later) (h : s.Held d) :
    (later.foldl (PersistSystem.step P) s).Held d := by
  induction later generalizing s with
  | nil => exact h
  | cons event later ih =>
    have he : ∀ id message, event ≠ .commit id (.error message) :=
      fun id message heq => hl id message (heq ▸ mem_cons_self)
    obtain ⟨hok', hh⟩ := Held.step (P := P) hf hok he
    exact ih (hf.step event) hok'
      (fun id message hmem => hl id message (mem_cons_of_mem _ hmem)) (hh d h)

/-- **What an answer promises**, in every interleaving: `Ok(true)` leaves the digest marked;
`Ok(false)` means that it is persisted or being committed, exactly unless an ancestor is in flight;
and what is persisted or being committed is persisted once the commits under way have succeeded. -/
theorem persist_promise_iff {l : LedgerState} (hflight : l.snapshots.persisting = ∅)
    (events : List Event) {s : PersistSystem} (hs : s = events.foldl (step P) (start l)) :
    (∀ id call, s.calls id = some call → s.answer (.complete id) = some (.ok true) →
        call.digest ∈ (s.step P (.complete id)).ledger.snapshots.persisted) ∧
      (∀ id d, s.answer (.prepare id d) = some (.ok false) → (s.Held d ↔ ¬ s.Blocked d)) ∧
      ∀ d, s.Held d → NoFailure s.calls → ∀ later : List Event,
        (∀ id message, .commit id (.error message) ∉ later) →
        (∀ id, (later.foldl (step P) s).calls id = none) →
        d ∈ (later.foldl (step P) s).ledger.snapshots.persisted := by
  have hinv : s.InFlight := hs ▸ (InFlight.start hflight).run events
  refine ⟨fun id call hcall ha => ?_, fun id d => hinv.refused_iff, ?_⟩
  · obtain ⟨digest, chain, changes, result⟩ := call
    rw [answer, hcall] at ha
    rw [step, hcall]
    cases result with
    | none => cases ha
    | some result =>
      cases result with
      | error message => cases ha
      | ok _ =>
        obtain ⟨-, hd⟩ := hinv.completes hcall
        exact (hd.persisted digest).2 (.inl (hinv.digest id _ hcall))
  · intro d hh hok later hl hi
    rcases hh.run hinv hok hl with hper | ⟨id, call, hcall, -⟩
    · exact hper
    · rw [hi id] at hcall
      cases hcall

section

open TwoSnapshots

/-- Block `1` is prepared and committed: its completion marks it. -/
theorem persist_promise_iff_one :
    digest 1 ∈ (([insertBlock 1, .prepare 0 (digest 1), .commit 0 (.ok ())].foldl
      (step ThreeBlocks.platform) (start genesis)).step ThreeBlocks.platform
        (.complete 0)).ledger.snapshots.persisted :=
  (persist_promise_iff rfl [insertBlock 1, .prepare 0 (digest 1), .commit 0 (.ok ())] rfl).1 0
    ⟨digest 1, [digest 1], changes 1, some (.ok ())⟩ rfl rfl

/-- While block `1` is committed, a checkpoint at block `2` is answered `Ok(false)` and leaves it
unpersisted. -/
theorem blocked_checkpoint_refused :
    ¬ ∀ (P : Platform) (l : LedgerState), l.snapshots.persisting = ∅ → ∀ (events : List Event)
      (id : ℕ) (d : Digest),
        (events.foldl (step P) (start l)).answer (.prepare id d) = some (.ok false) →
        (events.foldl (step P) (start l)).Held d := by
  intro h
  have hh := h ThreeBlocks.platform genesis rfl
    [insertBlock 1, insertBlock 2, .prepare 0 (digest 1)] 1 (digest 2) rfl
  have hf := (InFlight.start (l := genesis) rfl).run (P := ThreeBlocks.platform)
    [insertBlock 1, insertBlock 2, .prepare 0 (digest 1)]
  rw [hf.held_iff] at hh
  exact absurd hh (by decide +kernel)

end

/-! ### A call on its own -/

/-- **A call that nothing interrupts** does what `persistSnapshot` does in one go. -/
theorem persistSnapshot_eq_steps (s : PersistSystem) {id : ℕ} (hf : s.calls id = none)
    (d : Digest) :
    (([.prepare id d, .commit id (.ok ()), .complete id] : List Event).foldl (step P) s).ledger =
      (s.ledger.persistSnapshot d).1 := by
  simp only [foldl_cons, foldl_nil]
  rw [persistSnapshot]
  cases hp : s.ledger.preparePersist d with
  | error e => simp [step, hf, hp]
  | ok found =>
    cases found with
    | none => simp [step, hf, hp]
    | some found =>
      obtain ⟨chain, changes⟩ := found
      simp only [step, hf, hp, update_self, finishPersist]
      split <;> next heq => rw [heq]

end PersistSystem

end Kora
