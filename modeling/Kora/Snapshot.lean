/-
The snapshot store (`node/consensus/src/components/snapshot.rs`).

The walk that collects what has to be committed for a block goes through its ancestors and
stops at the first digest that is marked persisted, so a mark is trusted to stand for
everything below it.

* `walk_above`, `walk_of_present` — what the walk returns on a linked run of snapshots;
* `evictPersisted` — eviction forgets snapshots and never a mark.
-/
import Kora.Block
import Mathlib.Data.Finset.Basic

open Std List

namespace Kora

/-- Cached execution snapshot of a block. -/
structure Snapshot where
  parent : Option Digest
  /-- The pending changes of the snapshot's overlay; its base is the QMDB handle, which all
  snapshots share. -/
  state : ChangeSet
  stateRoot : B256
  /-- The changes of this block alone. -/
  changes : ChangeSet
  txIds : List B256
deriving DecidableEq

inductive ConsensusError where
  | snapshotNotFound (digest : Digest)
  | execution (message : String)
  /-- The parent links run in a cycle; the loop of the source does not return. -/
  | diverges
deriving DecidableEq

/-- In-memory snapshot store with bounded retention of persisted snapshots. -/
structure InMemorySnapshotStore where
  snapshots : ExtTreeMap Digest Snapshot
  persisted : Finset Digest
  persisting : Finset Digest
  /-- Persisted digests in the order of their marking, oldest first. -/
  persistedOrder : List Digest
  maxPersistedRetained : ℕ

namespace InMemorySnapshotStore

def DEFAULT_MAX_PERSISTED_RETAINED : ℕ := 256

def new : InMemorySnapshotStore := ⟨∅, ∅, ∅, [], DEFAULT_MAX_PERSISTED_RETAINED⟩

def get (self : InMemorySnapshotStore) (digest : Digest) : Option Snapshot :=
  self.snapshots[digest]?

def insert (self : InMemorySnapshotStore) (digest : Digest) (snapshot : Snapshot) :
    InMemorySnapshotStore :=
  { self with snapshots := self.snapshots.insert digest snapshot }

def isPersisted (self : InMemorySnapshotStore) (digest : Digest) : Bool :=
  digest ∈ self.persisted

/-- Mark one digest as persisted. -/
def markOne (self : InMemorySnapshotStore) (digest : Digest) : InMemorySnapshotStore :=
  if digest ∈ self.persisted then self
  else
    { self with
      persisted := Insert.insert digest self.persisted
      persistedOrder := self.persistedOrder ++ [digest] }

def markPersisted (self : InMemorySnapshotStore) (digests : List Digest) :
    InMemorySnapshotStore :=
  digests.foldl markOne self

/-- Whether every digest of the chain is neither persisted nor in flight. -/
def canPersistChain (self : InMemorySnapshotStore) (chain : List Digest) : Bool :=
  chain.all (fun digest => digest ∉ self.persisted ∧ digest ∉ self.persisting)

def markPersistingChain (self : InMemorySnapshotStore) (chain : List Digest) :
    InMemorySnapshotStore :=
  { self with persisting := chain.foldl (fun s d => Insert.insert d s) self.persisting }

def clearPersistingChain (self : InMemorySnapshotStore) (chain : List Digest) :
    InMemorySnapshotStore :=
  { self with persisting := chain.foldl (fun s d => s.erase d) self.persisting }

/-! ### Eviction -/

/-- Take the oldest digest off the order queue and drop its snapshot if it is persisted. -/
def evictOne (self : InMemorySnapshotStore) : InMemorySnapshotStore :=
  match self.persistedOrder with
  | [] => self
  | oldest :: rest =>
    { self with
      persistedOrder := rest
      snapshots :=
        if oldest ∈ self.persisted then self.snapshots.erase oldest else self.snapshots }

/-- Evict the oldest persisted snapshots that exceed the retention limit. The marks stay. -/
def evictPersisted (self : InMemorySnapshotStore) : InMemorySnapshotStore :=
  evictOne^[self.persistedOrder.length - self.maxPersistedRetained] self

/-! ### The walk to the persisted ancestors -/

/-- Walk from a digest to its first persisted ancestor; digests and change sets come back oldest
first. Without a cycle the number of snapshots bounds the turns. -/
def walk (self : InMemorySnapshotStore) :
    ℕ → Option Digest → Except ConsensusError (List (Digest × ChangeSet))
  | _, none => .ok []
  | 0, some _ => .error .diverges
  | fuel + 1, some digest =>
    if digest ∈ self.persisted then .ok []
    else match self.get digest with
      | none => .error (.snapshotNotFound digest)
      | some snapshot =>
        match self.walk fuel snapshot.parent with
        | .ok older => .ok (older ++ [(digest, snapshot.changes)])
        | .error e => .error e

/-- The chain of unpersisted digests that ends in `digest`, with its merged changes. -/
def changesForPersist (self : InMemorySnapshotStore) (digest : Digest) :
    Except ConsensusError (List Digest × ChangeSet) :=
  match self.walk (self.snapshots.size + 1) (some digest) with
  | .ok chain => .ok (chain.map Prod.fst, ChangeSet.mergeAll (chain.map Prod.snd))
  | .error e => .error e

/-! ### What each operation leaves alone -/

variable {store : InMemorySnapshotStore}

@[simp] theorem get_new (digest : Digest) : new.get digest = none :=
  ExtTreeMap.getElem?_empty

theorem get_insert (store : InMemorySnapshotStore) (digest digest' : Digest) (s : Snapshot) :
    (store.insert digest s).get digest' =
      if digest = digest' then some s else store.get digest' := by
  rw [get, insert, ExtTreeMap.getElem?_insert]
  simp only [LawfulEqCmp.compare_eq_iff_eq]
  rfl

@[simp] theorem persisted_insert (digest : Digest) (s : Snapshot) :
    (store.insert digest s).persisted = store.persisted := rfl

@[simp] theorem get_markOne (digest digest' : Digest) :
    (store.markOne digest).get digest' = store.get digest' := by
  rw [markOne]
  split <;> rfl

variable {digest : Digest}

theorem mem_persisted_markOne {digest' : Digest} :
    digest' ∈ (store.markOne digest).persisted ↔ digest' = digest ∨ digest' ∈ store.persisted := by
  rw [markOne]
  split
  · next h =>
    refine ⟨Or.inr, ?_⟩
    rintro (rfl | h')
    · exact h
    · exact h'
  · exact Finset.mem_insert

@[simp] theorem get_markPersisted (digests : List Digest) (digest : Digest) :
    (store.markPersisted digests).get digest = store.get digest := by
  induction digests generalizing store with
  | nil => rfl
  | cons d ds ih => rw [markPersisted, foldl_cons, ← markPersisted, ih, get_markOne]

theorem mem_persisted_markPersisted {digests : List Digest} :
    digest ∈ (store.markPersisted digests).persisted ↔
      digest ∈ digests ∨ digest ∈ store.persisted := by
  induction digests generalizing store with
  | nil => simp [markPersisted]
  | cons d ds ih =>
    rw [markPersisted, foldl_cons, ← markPersisted, ih, mem_persisted_markOne, mem_cons]
    tauto

@[simp] theorem persisted_evictOne : store.evictOne.persisted = store.persisted := by
  rw [evictOne]
  split <;> rfl

theorem get_evictOne {s : Snapshot} (h : store.evictOne.get digest = some s) :
    store.get digest = some s := by
  rw [evictOne] at h
  split at h
  · exact h
  · dsimp only [get] at h
    split at h
    · rw [ExtTreeMap.getElem?_erase] at h
      split at h
      · exact absurd h (by simp)
      · exact h
    · exact h

@[simp] theorem persisted_evictPersisted : store.evictPersisted.persisted = store.persisted := by
  rw [evictPersisted]
  generalize store.persistedOrder.length - store.maxPersistedRetained = n
  induction n generalizing store with
  | zero => rfl
  | succ n ih => rw [Function.iterate_succ_apply, ih, persisted_evictOne]

theorem get_evictPersisted {s : Snapshot} (h : store.evictPersisted.get digest = some s) :
    store.get digest = some s := by
  rw [evictPersisted] at h
  generalize store.persistedOrder.length - store.maxPersistedRetained = n at h
  induction n generalizing store with
  | zero => exact h
  | succ n ih =>
    rw [Function.iterate_succ_apply] at h
    exact get_evictOne (ih h)

theorem get_evictOne_of_notMem (h : digest ∉ store.persisted) :
    store.evictOne.get digest = store.get digest := by
  rw [evictOne]
  split
  · rfl
  · next oldest rest _ =>
    dsimp only [get]
    split
    · next hmem =>
      rw [ExtTreeMap.getElem?_erase, if_neg]
      intro heq
      obtain rfl := LawfulEqCmp.compare_eq_iff_eq.1 heq
      exact h hmem
    · rfl

theorem get_evictPersisted_of_notMem (h : digest ∉ store.persisted) :
    store.evictPersisted.get digest = store.get digest := by
  rw [evictPersisted]
  generalize store.persistedOrder.length - store.maxPersistedRetained = n
  induction n generalizing store with
  | zero => rfl
  | succ n ih =>
    rw [Function.iterate_succ_apply, ih (by rwa [persisted_evictOne]), get_evictOne_of_notMem h]

/-! The marks in flight. -/

@[simp] theorem persisting_insert (digest : Digest) (s : Snapshot) :
    (store.insert digest s).persisting = store.persisting := rfl

@[simp] theorem persisting_markPersisted (digests : List Digest) :
    (store.markPersisted digests).persisting = store.persisting := by
  induction digests generalizing store with
  | nil => rfl
  | cons d ds ih =>
    rw [markPersisted, foldl_cons, ← markPersisted, ih, markOne]
    split <;> rfl

@[simp] theorem persisting_evictPersisted :
    store.evictPersisted.persisting = store.persisting := by
  rw [evictPersisted]
  generalize store.persistedOrder.length - store.maxPersistedRetained = n
  induction n generalizing store with
  | zero => rfl
  | succ n ih =>
    rw [Function.iterate_succ_apply, ih, evictOne]
    split <;> rfl

theorem mem_persisting_markPersistingChain {chain : List Digest} :
    digest ∈ (store.markPersistingChain chain).persisting ↔
      digest ∈ chain ∨ digest ∈ store.persisting := by
  rw [markPersistingChain]
  dsimp only
  generalize store.persisting = set
  induction chain generalizing set with
  | nil => simp
  | cons d ds ih =>
    rw [foldl_cons, ih, Finset.mem_insert, mem_cons]
    tauto

theorem mem_persisting_clearPersistingChain {chain : List Digest} :
    digest ∈ (store.clearPersistingChain chain).persisting ↔
      digest ∉ chain ∧ digest ∈ store.persisting := by
  rw [clearPersistingChain]
  dsimp only
  generalize store.persisting = set
  induction chain generalizing set with
  | nil => simp
  | cons d ds ih =>
    rw [foldl_cons, ih, Finset.mem_erase, mem_cons]
    tauto

@[simp] theorem get_clearPersistingChain (chain : List Digest) (digest : Digest) :
    (store.clearPersistingChain chain).get digest = store.get digest := rfl

@[simp] theorem persisted_clearPersistingChain (chain : List Digest) :
    (store.clearPersistingChain chain).persisted = store.persisted := rfl

/-! ### What the walk returns -/

variable {fuel : ℕ} {entries : List (Digest × ChangeSet)}

/-- **One step of a walk that returns**: it ends at a persisted digest, or has the changes of its
snapshot on top of what the walk from the parent returned. -/
theorem walk_cases (h : store.walk fuel (some digest) = .ok entries) :
    (digest ∈ store.persisted ∧ entries = []) ∨
      (digest ∉ store.persisted ∧ ∃ fuel' snapshot older, fuel = fuel' + 1 ∧
        store.get digest = some snapshot ∧ store.walk fuel' snapshot.parent = .ok older ∧
        entries = older ++ [(digest, snapshot.changes)]) := by
  cases fuel with
  | zero => cases h
  | succ fuel =>
    rw [walk] at h
    split at h
    · next hper => exact .inl ⟨hper, (Except.ok.inj h).symm⟩
    · next hper =>
      split at h
      · cases h
      · next snapshot hget =>
        split at h
        · next older hw =>
          exact .inr ⟨hper, fuel, snapshot, older, rfl, hget, hw, (Except.ok.inj h).symm⟩
        · cases h

theorem walk_mem {start : Option Digest} (h : store.walk fuel start = .ok entries)
    {entry : Digest × ChangeSet} (he : entry ∈ entries) :
    entry.1 ∉ store.persisted ∧ ∃ s, store.get entry.1 = some s ∧ s.changes = entry.2 := by
  induction fuel using Nat.strong_induction_on generalizing start entries with
  | _ fuel ih =>
    cases start with
    | none =>
      obtain rfl : [] = entries := by
        rw [walk] at h
        exact Except.ok.inj h
      cases he
    | some digest =>
      obtain ⟨-, rfl⟩ | ⟨hper, fuel', snapshot, older, rfl, hget, hw, rfl⟩ := walk_cases h
      · cases he
      · rcases mem_append.1 he with hold | hnew
        · exact ih fuel' (Nat.lt_succ_self fuel') hw hold
        · obtain rfl := mem_singleton.1 hnew
          exact ⟨hper, snapshot, hget, rfl⟩

theorem mem_walk (h : store.walk fuel (some digest) = .ok entries) (hne : entries ≠ []) :
    digest ∈ entries.map Prod.fst := by
  obtain ⟨-, hnil⟩ | ⟨-, -, snapshot, older, -, -, -, rfl⟩ := walk_cases h
  · exact absurd hnil hne
  · rw [map_append]
    exact mem_append_right _ mem_cons_self

/-- The run of a sequence of blocks after number `k` up to number `j`, oldest first. -/
def chainSegment (digest : ℕ → Digest) (changes : ℕ → ChangeSet) (k j : ℕ) :
    List (Digest × ChangeSet) :=
  (List.range' (k + 1) (j - k)).map fun i => (digest i, changes i)

variable {changes : ℕ → ChangeSet} {k j : ℕ}

theorem chainSegment_of_le {digest : ℕ → Digest} (h : j ≤ k) :
    chainSegment digest changes k j = [] := by
  rw [chainSegment, Nat.sub_eq_zero_of_le h]
  rfl

theorem chainSegment_succ {digest : ℕ → Digest} (h : k ≤ j) :
    chainSegment digest changes k (j + 1) =
      chainSegment digest changes k j ++ [(digest (j + 1), changes (j + 1))] := by
  have hlen : j + 1 - k = j - k + 1 := by omega
  have hl : k + 1 + (j - k) = j + 1 := by omega
  rw [chainSegment, hlen, range'_1_concat, map_append, hl]
  rfl

theorem chainSegment_append {digest : ℕ → Digest} {m : ℕ} (hkm : k ≤ m) (hmj : m ≤ j) :
    chainSegment digest changes k m ++ chainSegment digest changes m j =
      chainSegment digest changes k j := by
  induction j, hmj using Nat.le_induction with
  | base => rw [chainSegment_of_le le_rfl, append_nil]
  | succ j hmj ih =>
    rw [chainSegment_succ hmj, ← append_assoc, ih, chainSegment_succ (hkm.trans hmj)]

theorem mem_chainSegment {digest : ℕ → Digest} {d : Digest} :
    d ∈ (chainSegment digest changes k j).map Prod.fst ↔ ∃ i, k < i ∧ i ≤ j ∧ d = digest i := by
  rw [chainSegment, map_map, mem_map]
  constructor
  · rintro ⟨i, hi, rfl⟩
    rw [mem_range'_1] at hi
    exact ⟨i, by omega, by omega, rfl⟩
  · rintro ⟨i, hlow, hh, rfl⟩
    exact ⟨i, mem_range'_1.2 (by omega), rfl⟩

/-- **The walk on a linked run of snapshots.** If number `k` is persisted and none above it, and
each snapshot above `k` has the number below as its parent, a walk from above `k` that returns has
collected the run above `k`. -/
theorem walk_above {digest : ℕ → Digest} {n : ℕ}
    (hp : ∀ i, k ≤ i → i ≤ n → (digest i ∈ store.persisted ↔ i = k))
    (hl : ∀ i < n, k ≤ i → ∀ s, store.get (digest (i + 1)) = some s →
      s.parent = some (digest i) ∧ s.changes = changes (i + 1)) (hkj : k ≤ j) (hj : j ≤ n)
    (h : store.walk fuel (some (digest j)) = .ok entries) :
    entries = chainSegment digest changes k j := by
  -- The walk goes down the sequence, so the induction is on the number it starts from.
  induction j, hkj using Nat.le_induction generalizing fuel entries with
  | base =>
    obtain ⟨-, rfl⟩ | ⟨hper, -⟩ := walk_cases h
    · rw [chainSegment_of_le le_rfl]
    · exact absurd ((hp k le_rfl hj).2 rfl) hper
  | succ j hkj ih =>
    obtain ⟨hper, -⟩ | ⟨-, fuel', snapshot, older, rfl, hget, hw, rfl⟩ := walk_cases h
    · have heq := (hp (j + 1) (by omega) hj).1 hper
      omega
    · obtain ⟨hpr, hc⟩ := hl j (by omega) hkj snapshot hget
      rw [hpr] at hw
      rw [chainSegment_succ hkj, ← ih (by omega) hw, hc]

theorem walk_segment {digest : ℕ → Digest} {n : ℕ}
    (hp : ∀ i ≤ n, digest i ∈ store.persisted ↔ i ≤ k)
    (hl : ∀ i < n, k ≤ i → ∀ s, store.get (digest (i + 1)) = some s →
      s.parent = some (digest i) ∧ s.changes = changes (i + 1)) (hj : j ≤ n)
    (h : store.walk fuel (some (digest j)) = .ok entries) :
    entries = chainSegment digest changes k j := by
  rcases Nat.le_total k j with hkj | hjk
  · refine walk_above (fun i hki hi => ?_) hl hkj hj h
    rw [hp i hi]
    omega
  · obtain ⟨-, rfl⟩ | ⟨hper, -⟩ := walk_cases h
    · rw [chainSegment_of_le hjk]
    · exact absurd ((hp j hj).2 hjk) hper

theorem walk_of_present {digest : ℕ → Digest} (hkj : k ≤ j)
    (hp : ∀ i, k ≤ i → i ≤ j → (digest i ∈ store.persisted ↔ i = k))
    (hpr : ∀ i, k ≤ i → i < j → ∃ s, store.get (digest (i + 1)) = some s ∧
      s.parent = some (digest i) ∧ s.changes = changes (i + 1)) (hf : j - k < fuel) :
    store.walk fuel (some (digest j)) = .ok (chainSegment digest changes k j) := by
  induction j, hkj using Nat.le_induction generalizing fuel with
  | base =>
    obtain ⟨fuel, rfl⟩ : ∃ n, fuel = n + 1 := ⟨fuel - 1, by omega⟩
    rw [walk, if_pos ((hp k le_rfl le_rfl).2 rfl), chainSegment_of_le le_rfl]
  | succ j hkj ih =>
    obtain ⟨fuel, rfl⟩ : ∃ n, fuel = n + 1 := ⟨fuel - 1, by omega⟩
    have hnot : digest (j + 1) ∉ store.persisted := fun hmem => by
      have heq := (hp (j + 1) (by omega) le_rfl).1 hmem
      omega
    obtain ⟨s, hget, hpn, hc⟩ := hpr j hkj (Nat.lt_succ_self j)
    have hb := ih (fun i hki hij => hp i hki (by omega))
      (fun i hki hij => hpr i hki (by omega)) (show j - k < fuel by omega)
    rw [walk, if_neg hnot, hget]
    dsimp only
    rw [hpn, hb, hc, chainSegment_succ hkj]

end InMemorySnapshotStore

end Kora
