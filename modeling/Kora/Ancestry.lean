/-
Collecting the unpersisted ancestors of a digest (`merged_changes` and
`changes_for_persist` in `node/consensus/src/components/snapshot.rs`).

The loop follows parent pointers through a map, so it returns only if the links do not run
in a cycle. `Below` is one turn of it, and what a call collects or fails on is said with
its reflexive transitive closure.

* `walk_ne_diverges` — on acyclic links it is over after as many turns as there are
  snapshots;
* `ancestor_collection` — what a call returns, and a further one once the chain is marked.
-/
import Kora.OrderedMap
import Kora.Snapshot
import Mathlib.Data.List.Chain
import Mathlib.Logic.Relation

open List Option Except

open Relation Std

namespace Kora

namespace InMemorySnapshotStore

/-- The changes of the unpersisted ancestors of `parent`, with new changes on top. -/
def mergedChanges (self : InMemorySnapshotStore) (parent : Digest) (newChanges : ChangeSet) :
    Except ConsensusError ChangeSet :=
  match self.walk (self.snapshots.size + 1) (some parent) with
  | .ok chain => .ok ((ChangeSet.mergeAll (chain.map Prod.snd)).merge newChanges)
  | .error e => .error e

/-! ### The relation the walk follows -/

/-- The snapshot of `d` names `p` as its parent. -/
def ParentOf (store : InMemorySnapshotStore) (d p : Digest) : Prop :=
  ∃ s, store.get d = some s ∧ s.parent = some p

/-- No digest is its own ancestor. -/
def Acyclic (store : InMemorySnapshotStore) : Prop := ∀ d, ¬ TransGen store.ParentOf d d

/-- One turn of the walk: an unpersisted digest is left for its parent. -/
def Below (store : InMemorySnapshotStore) (d p : Digest) : Prop :=
  d ∉ store.persisted ∧ store.ParentOf d p

/-- The walk from `d` through unpersisted digests comes to `e`. -/
def Meets (store : InMemorySnapshotStore) : Digest → Digest → Prop := ReflTransGen store.Below

/-- The walk from `d` comes to `e`, which has neither a mark nor a snapshot. -/
def Missing (store : InMemorySnapshotStore) (d e : Digest) : Prop :=
  store.Meets d e ∧ e ∉ store.persisted ∧ store.get e = none

/-- The chain, oldest first, is the maximal run of unpersisted ancestors that ends in `d`. -/
structure MaximalRun (store : InMemorySnapshotStore) (d : Digest) (chain : List Digest) : Prop where
  /-- Each digest of the chain is the parent of the next one. -/
  linked : chain.IsChain fun older newer => store.ParentOf newer older
  last : chain.getLast? = if d ∈ store.persisted then none else some d
  /-- It stops only where the walk does: at a persisted digest or above a root. -/
  mem_iff : ∀ e, e ∈ chain ↔ e ∉ store.persisted ∧ store.Meets d e

def changesOf (store : InMemorySnapshotStore) (d : Digest) : ChangeSet :=
  match store.get d with
  | some snapshot => snapshot.changes
  | none => ChangeSet.new

variable {store : InMemorySnapshotStore}

variable {d : Digest}

theorem changesOf_eq {s : Snapshot} (h : store.get d = some s) : store.changesOf d = s.changes := by
  rw [changesOf, h]

theorem ParentOf.unique {p q : Digest} (hp : store.ParentOf d p) (hq : store.ParentOf d q) :
    p = q := by
  obtain ⟨s, hs, hp⟩ := hp
  obtain ⟨s', hs', hq⟩ := hq
  obtain rfl : s = s' := some.inj (hs.symm.trans hs')
  exact some.inj (hp.symm.trans hq)

theorem Acyclic.of_measure (height : Digest → ℕ)
    (hd : ∀ d p, store.ParentOf d p → height p < height d) : store.Acyclic := by
  intro d hc
  have hl : ∀ e, TransGen store.ParentOf d e → height e < height d := by
    intro e h
    induction h with
    | single h => exact hd _ _ h
    | tail _ h ih => exact (hd _ _ h).trans ih
  exact lt_irrefl _ (hl d hc)

theorem Missing.unique {e e' : Digest} (h : store.Missing d e) (h' : store.Missing d e') :
    e = e' := by
  -- Nothing is below a digest without a snapshot.
  have hend : ∀ {a b}, store.get a = none → store.Meets a b → a = b := by
    intro a b hnone hmt
    rcases ReflTransGen.cases_head hmt with heq | ⟨p, ⟨-, s, hs, -⟩, -⟩
    · exact heq
    · rw [hnone] at hs
      cases hs
  have hu : Relator.RightUnique store.Below := fun _ _ _ hp hq => hp.2.unique hq.2
  rcases ReflTransGen.total_of_right_unique hu h.1 h'.1 with hm | hm
  · exact hend h.2.2 hm
  · exact (hend h'.2.2 hm).symm

/-! ### Termination -/

variable {fuel : ℕ} {start : Option Digest}

/-- **The walk is over before it has seen every snapshot twice.** The digests `visited` so far are
distinct, since the links are acyclic, and have snapshots. -/
theorem walk_ne_diverges (hac : store.Acyclic) {visited : List Digest} (hn : visited.Nodup)
    (hh : ∀ v ∈ visited, v ∈ store.snapshots)
    (ha : ∀ v ∈ visited, ∀ d, start = some d → TransGen store.ParentOf v d)
    (hf : store.snapshots.size < visited.length + fuel) :
    store.walk fuel start ≠ .error .diverges := by
  induction fuel generalizing start visited with
  | zero =>
    have hle := OrderedMap.length_le_size hn hh
    omega
  | succ fuel ih =>
    cases start with
    | none => simp [walk]
    | some digest =>
      have hnew : digest ∉ visited := fun hmem => hac digest (ha digest hmem digest rfl)
      rw [walk]
      split
      · simp
      · split
        · simp
        · next snapshot hget =>
          have hmem : digest ∈ store.snapshots := by
            rw [ExtTreeMap.mem_iff_isSome_getElem?]
            exact isSome_iff_exists.2 ⟨snapshot, hget⟩
          have hb : store.walk fuel snapshot.parent ≠ .error .diverges := by
            refine ih (nodup_cons.2 ⟨hnew, hn⟩) ?_ ?_ ?_
            · simpa [hmem] using hh
            · intro v hv p hp
              have hs : store.ParentOf digest p := ⟨snapshot, hget, hp⟩
              rcases mem_cons.1 hv with rfl | hv
              · exact .single hs
              · exact (ha v hv digest rfl).tail hs
            · rw [length_cons]
              omega
          split
          · simp
          · next e hw =>
            intro heq
            rw [hw] at hb
            exact hb heq

/-! ### Where the walk fails -/

variable {err : ConsensusError}

theorem walk_error_cases (h : store.walk fuel start = .error err) :
    err = .diverges ∨
      ∃ d e, start = some d ∧ err = .snapshotNotFound e ∧ store.Missing d e := by
  induction fuel generalizing start with
  | zero =>
    cases start with
    | none => simp [walk] at h
    | some digest =>
      rw [walk] at h
      exact .inl (error.inj h).symm
  | succ fuel ih =>
    cases start with
    | none => simp [walk] at h
    | some digest =>
      rw [walk] at h
      split at h
      · cases h
      · next hper =>
        split at h
        · next hnone =>
          exact .inr ⟨digest, digest, rfl, (error.inj h).symm, .refl, hper, hnone⟩
        · next snapshot hget =>
          split at h
          · cases h
          · next e hw =>
            obtain rfl := error.inj h
            rcases ih hw with hdiv | ⟨p, e', hp, herr, hm, hms⟩
            · exact .inl hdiv
            · have hs : store.Below digest p := ⟨hper, snapshot, hget, hp⟩
              exact .inr ⟨digest, e', rfl, herr, hm.head hs, hms⟩

/-! ### What the walk returns -/

variable {entries : List (Digest × ChangeSet)}

section

variable (h : store.walk fuel start = .ok entries)
include h

theorem walk_getLast? {e : Digest} (he : e ∈ (entries.map Prod.fst).getLast?) : start = some e := by
  cases start with
  | none =>
    obtain rfl : [] = entries := by
      rw [walk] at h
      exact ok.inj h
    cases he
  | some digest =>
    obtain ⟨-, rfl⟩ | ⟨-, -, snapshot, older, -, -, -, rfl⟩ := walk_cases h
    · cases he
    · rw [map_append, map_singleton, getLast?_concat] at he
      exact he

theorem walk_linked :
    (entries.map Prod.fst).IsChain fun older newer => store.ParentOf newer older := by
  induction fuel using Nat.strong_induction_on generalizing start entries with
  | _ fuel ih =>
    cases start with
    | none =>
      obtain rfl : [] = entries := by
        rw [walk] at h
        exact ok.inj h
      exact .nil
    | some digest =>
      obtain ⟨-, rfl⟩ | ⟨-, fuel', snapshot, older, rfl, hget, hw, rfl⟩ := walk_cases h
      · exact .nil
      · rw [map_append, isChain_append]
        refine ⟨ih fuel' (Nat.lt_succ_self fuel') hw, .singleton _, fun p hp d hd => ?_⟩
        obtain rfl : digest = d := some.inj hd
        exact ⟨snapshot, hget, walk_getLast? hw hp⟩

theorem mem_walk_iff (e : Digest) :
    e ∈ entries.map Prod.fst ↔
      e ∉ store.persisted ∧ ∃ d, start = some d ∧ store.Meets d e := by
  induction fuel using Nat.strong_induction_on generalizing start entries with
  | _ fuel ih =>
    cases start with
    | none =>
      obtain rfl : [] = entries := by
        rw [walk] at h
        exact ok.inj h
      simp
    | some digest =>
      obtain ⟨hper, rfl⟩ | ⟨hper, fuel', snapshot, older, rfl, hget, hw, rfl⟩ := walk_cases h
      · -- The walk does not leave a persisted digest, so it meets no unpersisted one.
        simp only [map_nil, not_mem_nil, some.injEq, exists_eq_left', false_iff, not_and]
        intro he hm
        rcases ReflTransGen.cases_head hm with rfl | ⟨p, hst, -⟩
        · exact he hper
        · exact hst.1 hper
      · rw [map_append, mem_append, ih fuel' (Nat.lt_succ_self fuel') hw]
        simp only [map_singleton, mem_singleton, some.injEq, exists_eq_left']
        constructor
        · rintro (⟨he, p, hp, hm⟩ | rfl)
          · have hst : store.Below digest p := ⟨hper, snapshot, hget, hp⟩
            exact ⟨he, hm.head hst⟩
          · exact ⟨hper, .refl⟩
        · rintro ⟨he, hm⟩
          rcases ReflTransGen.cases_head hm with rfl | ⟨p, ⟨-, s, hs, hp⟩, hm⟩
          · exact .inr rfl
          · obtain rfl : snapshot = s := some.inj (hget.symm.trans hs)
            exact .inl ⟨he, p, hp, hm⟩

omit h in
theorem walk_maximalRun (h : store.walk fuel (some d) = .ok entries) :
    store.MaximalRun d (entries.map Prod.fst) where
  linked := walk_linked h
  last := by
    obtain ⟨hper, rfl⟩ | ⟨hper, -, snapshot, older, -, -, -, rfl⟩ := walk_cases h
    · rw [if_pos hper]
      rfl
    · rw [if_neg hper, map_append, map_singleton, getLast?_concat]
  mem_iff e := by simp [mem_walk_iff h]

theorem walk_changes : entries.map Prod.snd = (entries.map Prod.fst).map store.changesOf := by
  rw [List.map_map]
  refine map_congr_left fun entry he => ?_
  obtain ⟨-, s, hs, hc⟩ := walk_mem h he
  rw [Function.comp_apply, changesOf_eq hs, hc]

end

theorem walk_eq_error_iff (ha : store.Acyclic) (hfl : store.snapshots.size < fuel) :
    store.walk fuel (some d) = .error err ↔
      ∃ e, err = .snapshotNotFound e ∧ store.Missing d e := by
  have hen : store.walk fuel (some d) ≠ .error .diverges :=
    walk_ne_diverges ha nodup_nil (by simp) (by simp) (by simpa using hfl)
  have hf : ∀ {err}, store.walk fuel (some d) = .error err →
      ∃ e, err = .snapshotNotFound e ∧ store.Missing d e := by
    intro err h
    rcases walk_error_cases h with rfl | ⟨d', e, hd, herr, hm⟩
    · exact absurd h hen
    · obtain rfl := some.inj hd
      exact ⟨e, herr, hm⟩
  refine ⟨hf, ?_⟩
  rintro ⟨e, rfl, hm⟩
  cases hw : store.walk fuel (some d) with
  | ok entries =>
    -- A walk that returns has the missing digest on its chain, and so its snapshot.
    have hmem := ((walk_maximalRun hw).mem_iff e).2 ⟨hm.2.1, hm.1⟩
    obtain ⟨entry, he, rfl⟩ := List.mem_map.1 hmem
    obtain ⟨-, s, hs, -⟩ := walk_mem hw he
    rw [hm.2.2] at hs
    cases hs
  | error err =>
    obtain ⟨e', rfl, hm'⟩ := hf hw
    rw [hm.unique hm']

/-! ### The two functions of the store -/

theorem changesForPersist_eq_error_iff (ha : store.Acyclic) :
    store.changesForPersist d = .error err ↔
      ∃ e, err = .snapshotNotFound e ∧ store.Missing d e := by
  rw [← walk_eq_error_iff ha (Nat.lt_succ_self _), changesForPersist]
  cases store.walk (store.snapshots.size + 1) (some d) <;> simp

theorem mergedChanges_eq (d : Digest) (newChanges : ChangeSet) :
    store.mergedChanges d newChanges =
      (store.changesForPersist d).map fun result => result.2.merge newChanges := by
  rw [mergedChanges, changesForPersist]
  cases store.walk (store.snapshots.size + 1) (some d) <;> rfl

theorem changesForPersist_ok {chain : List Digest} {changes : ChangeSet}
    (h : store.changesForPersist d = .ok (chain, changes)) :
    store.MaximalRun d chain ∧ changes = ChangeSet.mergeAll (chain.map store.changesOf) := by
  rw [changesForPersist] at h
  cases hw : store.walk (store.snapshots.size + 1) (some d) with
  | error e =>
    rw [hw] at h
    cases h
  | ok entries =>
    rw [hw] at h
    obtain ⟨rfl, rfl⟩ := Prod.mk.inj (ok.inj h)
    exact ⟨walk_maximalRun hw, by rw [walk_changes hw]⟩

theorem changesForPersist_of_persisted (h : d ∈ store.persisted) :
    store.changesForPersist d = .ok ([], ChangeSet.new) := by
  rw [changesForPersist, walk, if_pos h]
  rfl

theorem changesForPersist_markPersisted {chain : List Digest} (h : store.MaximalRun d chain) :
    (store.markPersisted chain).changesForPersist d = .ok ([], ChangeSet.new) := by
  refine changesForPersist_of_persisted (mem_persisted_markPersisted.2 ?_)
  by_cases hper : d ∈ store.persisted
  · exact .inr hper
  · exact .inl ((h.mem_iff d).2 ⟨hper, .refl⟩)

/-- **Collecting the unpersisted ancestors.** On acyclic links a call fails exactly where the walk
meets a digest without a snapshot; otherwise it returns the maximal run of unpersisted ancestors
with their changes merged in order, and marking that run leaves nothing to collect. -/
theorem ancestor_collection (store : InMemorySnapshotStore) (hacyclic : store.Acyclic)
    (d : Digest) (newChanges : ChangeSet) :
    (∀ fuel, store.snapshots.size < fuel → store.walk fuel (some d) ≠ .error .diverges) ∧
    (∀ err, store.changesForPersist d = .error err ↔
      ∃ e, err = .snapshotNotFound e ∧ store.Missing d e) ∧
    (∀ err, store.mergedChanges d newChanges = .error err ↔
      ∃ e, err = .snapshotNotFound e ∧ store.Missing d e) ∧
    (∀ chain changes, store.changesForPersist d = .ok (chain, changes) →
      store.MaximalRun d chain ∧
      changes = ChangeSet.mergeAll (chain.map store.changesOf) ∧
      store.mergedChanges d newChanges =
        .ok (ChangeSet.mergeAll (chain.map store.changesOf ++ [newChanges])) ∧
      (store.markPersisted chain).changesForPersist d = .ok ([], ChangeSet.new) ∧
      ∀ e, e ∉ chain → (store.markPersisted chain).isPersisted e = store.isPersisted e) := by
  refine ⟨fun fuel hf hdiv => ?_, fun err => changesForPersist_eq_error_iff hacyclic,
    fun err => ?_, fun chain changes h => ?_⟩
  · obtain ⟨e, he, -⟩ := (walk_eq_error_iff hacyclic hf).1 hdiv
    cases he
  · rw [← changesForPersist_eq_error_iff hacyclic, mergedChanges_eq]
    cases store.changesForPersist d <;> simp [Except.map]
  · obtain ⟨hrun, rfl⟩ := changesForPersist_ok h
    refine ⟨hrun, rfl, ?_, changesForPersist_markPersisted hrun, fun e he => ?_⟩
    · rw [mergedChanges_eq, h, ChangeSet.mergeAll_concat]
      rfl
    · simp [isPersisted, mem_persisted_markPersisted, he]

section Example

/-- A persisted digest with two snapshots on top, the upper one at digest 2. -/
def twoAbove : InMemorySnapshotStore :=
  ((new.insert 1 ⟨some 0, ChangeSet.new, 0, ChangeSet.new, []⟩).insert 2
    ⟨some 1, ChangeSet.new, 0, ChangeSet.new, []⟩).markPersisted [0]

theorem twoAbove_acyclic : twoAbove.Acyclic := by
  refine Acyclic.of_measure BitVec.toNat ?_
  rintro d p ⟨s, hs, hp⟩
  rw [twoAbove, get_markPersisted, get_insert, get_insert, get_new] at hs
  split_ifs at hs with h2 h1
  · obtain rfl := some.inj hs
    obtain rfl := some.inj hp
    rw [← h2]
    decide
  · obtain rfl := some.inj hs
    obtain rfl := some.inj hp
    rw [← h1]
    decide

theorem twoAbove_collected :
    twoAbove.changesForPersist 2 = .ok ([1, 2], ChangeSet.new) ∧ twoAbove.MaximalRun 2 [1, 2] := by
  have hc : twoAbove.changesForPersist 2 = .ok ([1, 2], ChangeSet.new) := by decide +kernel
  have hall := ancestor_collection twoAbove twoAbove_acyclic 2 ChangeSet.new
  exact ⟨hc, (hall.2.2.2 _ _ hc).1⟩

end Example

end InMemorySnapshotStore

end Kora
