/-
Bounded retention of persisted snapshots (`evict_persisted` in
`node/consensus/src/components/snapshot.rs`).

A digest enters the queue when it is marked for the first time and leaves it when its
snapshot is evicted. The mark stays, so a digest that is inserted again is persisted, in
memory, and in no queue.

* `Covered` — every persisted snapshot in memory is in the queue;
* `persisted_retention` — without such insertions eviction restores the bound.
-/
import Kora.Ledger
import Kora.OrderedMap
import Kora.Run

open Std List

namespace Kora

namespace InMemorySnapshotStore

/-- An empty store that retains at most `max` persisted snapshots. -/
def withMaxPersistedRetained (max : ℕ) : InMemorySnapshotStore := ⟨∅, ∅, ∅, [], max⟩

/-- The persisted digests whose snapshots are in memory. -/
def retained (store : InMemorySnapshotStore) : List Digest :=
  store.snapshots.keys.filter store.isPersisted

/-- Every persisted digest with a snapshot in memory waits in the queue for its eviction. -/
def Covered (store : InMemorySnapshotStore) : Prop :=
  ∀ d ∈ store.snapshots, d ∈ store.persisted → d ∈ store.persistedOrder

end InMemorySnapshotStore

open InMemorySnapshotStore

/-- What is done to the snapshot store. -/
inductive StoreOp where
  | insert (digest : Digest) (snapshot : Snapshot)
  /-- A snapshot inserted and marked at once (`restore_persisted_snapshot` of the ledger). -/
  | restorePersisted (digest : Digest) (snapshot : Snapshot)
  | markPersisted (digests : List Digest)
  | evictPersisted

namespace StoreOp

def apply (store : InMemorySnapshotStore) : StoreOp → InMemorySnapshotStore
  | insert digest snapshot => store.insert digest snapshot
  | restorePersisted digest snapshot => (store.insert digest snapshot).markPersisted [digest]
  | markPersisted digests => store.markPersisted digests
  | evictPersisted => store.evictPersisted

/-- A snapshot is not inserted for a digest that is marked and no longer in the queue. -/
def Fresh (store : InMemorySnapshotStore) : StoreOp → Prop
  | insert digest _ => digest ∈ store.persisted → digest ∈ store.persistedOrder
  | restorePersisted digest _ => digest ∈ store.persisted → digest ∈ store.persistedOrder
  | markPersisted _ => True
  | evictPersisted => True

instance (store : InMemorySnapshotStore) : (op : StoreOp) → Decidable (op.Fresh store)
  | insert _ _ | restorePersisted _ _ => inferInstanceAs (Decidable (_ → _))
  | markPersisted _ | evictPersisted => .isTrue trivial

def stateAt (max : ℕ) (ops : List StoreOp) (k : ℕ) : InMemorySnapshotStore :=
  (ops.take k).foldl apply (withMaxPersistedRetained max)

end StoreOp

namespace InMemorySnapshotStore

variable {store : InMemorySnapshotStore}

/-! ### What each operation does to the queue -/

variable {d : Digest}

theorem mem_persistedOrder_markOne {digest : Digest} :
    d ∈ (store.markOne digest).persistedOrder ↔
      d ∈ store.persistedOrder ∨ (d = digest ∧ digest ∉ store.persisted) := by
  rw [markOne]
  split
  · next h => simp [h]
  · next h => simp [h]

@[simp] theorem mem_snapshots_markOne {digest : Digest} :
    d ∈ (store.markOne digest).snapshots ↔ d ∈ store.snapshots := by
  rw [markOne]
  split <;> rfl

theorem mem_snapshots_evictOne (h : d ∈ store.evictOne.snapshots) :
    d ∈ store.snapshots ∧
      ∀ oldest, oldest ∈ store.persistedOrder.head? → oldest ∈ store.persisted → d ≠ oldest := by
  rw [evictOne] at h
  split at h
  · next hnil => exact ⟨h, fun oldest hh => by simp [hnil] at hh⟩
  · next oldest rest hor =>
    rw [hor]
    dsimp only at h
    split at h
    · obtain ⟨hne, hmem⟩ := ExtTreeMap.mem_erase.1 h
      refine ⟨hmem, fun o ho _ heq => hne ?_⟩
      obtain rfl := Option.some.inj ho
      exact LawfulEqCmp.compare_eq_iff_eq.2 heq.symm
    · next hnot =>
      refine ⟨h, fun o ho hper => absurd hper ?_⟩
      rwa [← Option.some.inj ho]

theorem persistedOrder_evictOne : store.evictOne.persistedOrder = store.persistedOrder.tail := by
  rw [evictOne]
  split
  · next h => rw [h, tail_nil]
  · next h => rw [h, tail_cons]

/-! ### The bound -/

namespace Covered

variable (h : store.Covered)
include h

theorem insert {digest : Digest} (hf : digest ∈ store.persisted → digest ∈ store.persistedOrder)
    (s : Snapshot) : (store.insert digest s).Covered := by
  intro d hd hper
  rcases ExtTreeMap.mem_insert.1 hd with heq | hd
  · obtain rfl := LawfulEqCmp.compare_eq_iff_eq.1 heq
    exact hf hper
  · exact h d hd hper

theorem markOne (digest : Digest) : (store.markOne digest).Covered := by
  intro d hd hper
  rw [mem_snapshots_markOne] at hd
  rw [mem_persistedOrder_markOne]
  by_cases hm : d ∈ store.persisted
  · exact .inl (h d hd hm)
  · obtain rfl | hold := mem_persisted_markOne.1 hper
    · exact .inr ⟨rfl, hm⟩
    · exact absurd hold hm

theorem markPersisted (digests : List Digest) : (store.markPersisted digests).Covered := by
  induction digests generalizing store with
  | nil => exact h
  | cons d ds ih => exact ih (h.markOne d)

theorem evictOne : store.evictOne.Covered := by
  intro d hd hper
  rw [persisted_evictOne] at hper
  obtain ⟨hmem, hne⟩ := mem_snapshots_evictOne hd
  have hw := h d hmem hper
  rw [persistedOrder_evictOne]
  cases ho : store.persistedOrder with
  | nil =>
    rw [ho] at hw
    cases hw
  | cons oldest rest =>
    rw [ho] at hw hne
    rcases mem_cons.1 hw with rfl | hr
    · exact absurd rfl (hne d rfl hper)
    · exact hr

theorem evictPersisted : store.evictPersisted.Covered := by
  rw [InMemorySnapshotStore.evictPersisted]
  generalize store.persistedOrder.length - store.maxPersistedRetained = n
  induction n generalizing store with
  | zero => exact h
  | succ n ih =>
    rw [Function.iterate_succ_apply]
    exact ih h.evictOne

theorem apply {op : StoreOp} (hf : op.Fresh store) : (op.apply store).Covered := by
  cases op with
  | insert digest snapshot => exact h.insert hf snapshot
  | restorePersisted digest snapshot => exact (h.insert hf snapshot).markPersisted [digest]
  | markPersisted digests => exact h.markPersisted digests
  | evictPersisted => exact h.evictPersisted

theorem length_retained_le : store.retained.length ≤ store.persistedOrder.length := by
  have hn : store.retained.Nodup := by
    refine List.Nodup.filter _ ?_
    exact store.snapshots.distinct_keys.imp fun hne heq => hne (LawfulEqCmp.compare_eq_iff_eq.2 heq)
  refine (hn.subperm fun d hd => ?_).length_le
  obtain ⟨hkey, hper⟩ := mem_filter.1 hd
  exact h d (ExtTreeMap.mem_keys.1 hkey) (of_decide_eq_true hper)

end Covered

theorem length_persistedOrder_evictPersisted :
    store.evictPersisted.persistedOrder.length ≤ store.maxPersistedRetained := by
  have hl : ∀ n, (evictOne^[n] store).persistedOrder.length =
      store.persistedOrder.length - n := by
    intro n
    induction n with
    | zero => rfl
    | succ n ih =>
      rw [Function.iterate_succ_apply', persistedOrder_evictOne, length_tail, ih]
      omega
  rw [evictPersisted, hl]
  omega

@[simp] theorem maxPersistedRetained_markPersisted (digests : List Digest) :
    (store.markPersisted digests).maxPersistedRetained = store.maxPersistedRetained := by
  induction digests generalizing store with
  | nil => rfl
  | cons d ds ih =>
    rw [markPersisted, foldl_cons, ← markPersisted, ih, markOne]
    split <;> rfl

@[simp] theorem maxPersistedRetained_evictPersisted :
    store.evictPersisted.maxPersistedRetained = store.maxPersistedRetained := by
  rw [evictPersisted]
  generalize store.persistedOrder.length - store.maxPersistedRetained = n
  induction n generalizing store with
  | zero => rfl
  | succ n ih =>
    rw [Function.iterate_succ_apply, ih, evictOne]
    split <;> rfl

end InMemorySnapshotStore

/-! ### Runs of the store -/

namespace StoreOp

variable {max : ℕ} {ops : List StoreOp}

theorem stateAt_succ {k : ℕ} {op : StoreOp} (h : ops[k]? = some op) :
    stateAt max ops (k + 1) = op.apply (stateAt max ops k) := by
  rw [stateAt, take_add_one, h, Option.toList_some, foldl_append]
  rfl

theorem maxPersistedRetained_stateAt (k : ℕ) : (stateAt max ops k).maxPersistedRetained = max := by
  rw [stateAt]
  generalize ops.take k = past
  induction past using List.reverseRecOn with
  | nil => rfl
  | append_singleton past op ih =>
    rw [foldl_append, foldl_cons, foldl_nil]
    cases op with
    | insert digest snapshot => exact ih
    | restorePersisted digest snapshot =>
      rw [apply, maxPersistedRetained_markPersisted]
      exact ih
    | markPersisted digests => rw [apply, maxPersistedRetained_markPersisted, ih]
    | evictPersisted => rw [apply, maxPersistedRetained_evictPersisted, ih]

theorem persisted_subset_apply (store : InMemorySnapshotStore) (op : StoreOp) :
    store.persisted ⊆ (op.apply store).persisted := by
  intro d hd
  cases op with
  | insert digest snapshot => exact hd
  | restorePersisted digest snapshot | markPersisted digests =>
    exact mem_persisted_markPersisted.2 (.inr hd)
  | evictPersisted => rwa [apply, persisted_evictPersisted]

theorem persisted_stateAt_mono {j k : ℕ} (hjk : j ≤ k) :
    (stateAt max ops j).persisted ⊆ (stateAt max ops k).persisted := by
  induction k, hjk using Nat.le_induction with
  | base => exact Finset.Subset.refl _
  | succ k _ ih =>
    cases hop : ops[k]? with
    | none =>
      have hend : ops.length ≤ k := List.getElem?_eq_none_iff.1 hop
      have hs : stateAt max ops (k + 1) = stateAt max ops k := by
        rw [stateAt, stateAt, take_of_length_le hend, take_of_length_le (by omega)]
      rwa [hs]
    | some op =>
      rw [stateAt_succ hop]
      exact ih.trans (persisted_subset_apply _ op)

theorem covered_stateAt (hf : Run.Along apply Fresh (withMaxPersistedRetained max) ops)
    (k : ℕ) : (stateAt max ops k).Covered := by
  refine (hf.take k).invariant ?_ fun store op h hop => h.apply hop
  intro d _ hper
  cases hper

/-- **Retention of persisted snapshots.** If no evicted digest is inserted again, at most `max`
persisted snapshots are in memory after an eviction. It leaves unpersisted ones as they are, and a
mark stays. -/
theorem persisted_retention (max : ℕ) (ops : List StoreOp) :
    (Run.Along apply Fresh (withMaxPersistedRetained max) ops →
      ∀ k, ops[k]? = some .evictPersisted → (stateAt max ops (k + 1)).retained.length ≤ max) ∧
    (∀ k, ops[k]? = some .evictPersisted → ∀ d ∉ (stateAt max ops k).persisted,
      (stateAt max ops (k + 1)).get d = (stateAt max ops k).get d) ∧
    (∀ j k, j ≤ k → (stateAt max ops j).persisted ⊆ (stateAt max ops k).persisted) := by
  refine ⟨fun hf k hop => ?_, fun k hop d hd => ?_, fun j k hjk => persisted_stateAt_mono hjk⟩
  · have hc := covered_stateAt hf (k + 1)
    rw [stateAt_succ hop] at hc ⊢
    calc ((stateAt max ops k).evictPersisted).retained.length
        ≤ (stateAt max ops k).evictPersisted.persistedOrder.length := hc.length_retained_le
      _ ≤ (stateAt max ops k).maxPersistedRetained := length_persistedOrder_evictPersisted
      _ = max := maxPersistedRetained_stateAt k
  · rw [stateAt_succ hop]
    exact get_evictPersisted_of_notMem hd

section Example

/-- A snapshot without changes on top of `parent`. -/
def emptyOn (parent : Digest) : Snapshot := ⟨some parent, ChangeSet.new, 0, ChangeSet.new, []⟩

/-- Two finalized blocks with room for one. -/
def twoRestored : List StoreOp :=
  [.restorePersisted 1 (emptyOn 0), .restorePersisted 2 (emptyOn 1), .evictPersisted]

theorem persisted_retention_twoRestored :
    Run.Along apply Fresh (withMaxPersistedRetained 1) twoRestored ∧
    (stateAt 1 twoRestored 3).retained = [2] ∧ (stateAt 1 twoRestored 3).retained.length ≤ 1 := by
  have hf : Run.Along apply Fresh (withMaxPersistedRetained 1) twoRestored := by
    decide +kernel
  exact ⟨hf, by decide +kernel, (persisted_retention 1 twoRestored).1 hf 2 rfl⟩

/-- The evicted block is executed and inserted once more; the next eviction does not find it. -/
theorem retention_exceeded :
    ¬ ∀ (max : ℕ) (ops : List StoreOp) (k : ℕ), ops[k]? = some .evictPersisted →
      (stateAt max ops (k + 1)).retained.length ≤ max := by
  intro hc
  have hb := hc 1 (twoRestored ++ [.insert 1 (emptyOn 0), .evictPersisted]) 4 rfl
  revert hb
  decide +kernel

end Example

end StoreOp

end Kora
