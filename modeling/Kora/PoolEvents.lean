/-
The events of the transaction pool mirror its contents.

An addition may replace a transaction, add one and evict several, the added one among
them: then the pool does not announce it, and the deletion of its hash has no effect.

* `PoolInner.Mirrors` — the events of a step lead from the hashes before it to those after
  it;
* `events_mirror_pool` — any sequence of calls.
-/
import Kora.PoolCoherence

open Std

namespace Kora

/-- What a subscriber that keeps the hashes of the pooled transactions does with an event. -/
def MempoolEvent.apply (hashes : Set B256) : MempoolEvent → Set B256
  | .txAdded hash _ _ _ _ _ => insert hash hashes
  | .txEvicted hash _ => hashes \ {hash}

/-- The hashes that a subscriber has after some events. -/
def replay (hashes : Set B256) (events : List MempoolEvent) : Set B256 :=
  events.foldl MempoolEvent.apply hashes

theorem replay_append (hashes : Set B256) (events events' : List MempoolEvent) :
    replay hashes (events ++ events') = replay (replay hashes events) events' :=
  List.foldl_append

theorem mem_replay_evicted {hashes : Set B256} {txs : List OrderedTransaction} {reason : String}
    {hash : B256} :
    hash ∈ replay hashes (txs.map fun tx => .txEvicted tx.hash reason) ↔
      hash ∈ hashes ∧ ∀ tx ∈ txs, tx.hash ≠ hash := by
  induction txs generalizing hashes with
  | nil => simp [replay]
  | cons tx txs ih =>
    have hs : replay hashes ((tx :: txs).map fun tx => .txEvicted tx.hash reason) =
        replay (hashes \ {tx.hash}) (txs.map fun tx => .txEvicted tx.hash reason) := rfl
    rw [hs, ih, Set.mem_sdiff, Set.mem_singleton_iff, List.forall_mem_cons, and_assoc]
    exact and_congr_right fun _ => and_congr_left fun _ => ne_comm

namespace PoolInner

variable {P : Platform} {A : Alloy} {config : PoolConfig} {pool pool' pool'' : PoolInner}

/-- The hashes of the pooled transactions. -/
def hashes (pool : PoolInner) : Set B256 := {hash | hash ∈ pool.byHash}

theorem mem_hashes {hash : B256} : hash ∈ pool.hashes ↔ hash ∈ pool.byHash := Iff.rfl

/-- Every transaction is under its own hash. -/
def Keyed (pool : PoolInner) : Prop :=
  ∀ (hash : B256) (tx : OrderedTransaction), pool.byHash[hash]? = some tx → tx.hash = hash

structure Mirrors (pool pool' : PoolInner) (events : List MempoolEvent) : Prop where
  keyed : pool'.Keyed
  replayed : replay pool.hashes events = pool'.hashes

theorem Keyed.mirrors (h : pool.Keyed) : pool.Mirrors pool [] := ⟨h, rfl⟩

theorem Mirrors.append {events events' : List MempoolEvent} (h : pool.Mirrors pool' events)
    (h' : pool'.Mirrors pool'' events') : pool.Mirrors pool'' (events ++ events') where
  keyed := h'.keyed
  replayed := by rw [replay_append, h.replayed, h'.replayed]

theorem Keyed.of_byHash (h : pool.Keyed) (heq : pool'.byHash = pool.byHash) :
    pool.Mirrors pool' [] where
  keyed hash tx hget := h hash tx (heq ▸ hget)
  replayed := by
    show pool.hashes = pool'.hashes
    rw [hashes, hashes, heq]

theorem Keyed.removeByHash (h : pool.Keyed) (hash : B256) (reason : String) :
    pool.Mirrors (pool.removeByHash P hash) [.txEvicted hash reason] where
  keyed hash' tx hget := by
    rw [getElem?_byHash_removeByHash] at hget
    split at hget
    · cases hget
    · exact h hash' tx hget
  replayed := by
    ext hash'
    show hash' ∈ pool.hashes \ {hash} ↔ _
    rw [mem_hashes, byHash_removeByHash, ExtTreeMap.mem_erase, Set.mem_sdiff, Set.mem_singleton_iff,
      mem_hashes, and_comm, ne_eq, LawfulEqCmp.compare_eq_iff_eq, eq_comm]

theorem Keyed.index (h : pool.Keyed) (tx : OrderedTransaction) :
    pool.Mirrors (pool.index P tx) [txAddedEvent A tx] where
  keyed hash tx' hget := by
    rw [PoolInner.index, byHash_updateCounts, ExtTreeMap.getElem?_insert] at hget
    simp only [LawfulEqCmp.compare_eq_iff_eq] at hget
    split_ifs at hget with heq
    · rw [← Option.some.inj hget, heq]
    · exact h hash tx' hget
  replayed := by
    ext hash
    show hash ∈ Insert.insert tx.hash pool.hashes ↔ _
    rw [mem_hashes, PoolInner.index, byHash_updateCounts, ExtTreeMap.mem_insert, Set.mem_insert_iff,
      mem_hashes, LawfulEqCmp.compare_eq_iff_eq, eq_comm]

/-! ### Evicting -/

variable {tx : OrderedTransaction}

variable (h : pool.Keyed)
include h

theorem Keyed.evictLowest {part : SenderQueue → List OrderedTransaction}
    (he : pool.evictLowest P part = (pool', some tx)) (reason : String) :
    pool.Mirrors pool' [.txEvicted tx.hash reason] := by
  rw [PoolInner.evictLowest] at he
  split at he
  · cases (Prod.mk.inj he).2
  · next low _ =>
    obtain ⟨rfl, hf⟩ := Prod.mk.inj he
    rw [h _ _ hf]
    exact (h.removeByHash low.hash reason).append
      ((h.removeByHash low.hash reason).keyed.of_byHash (byHash_updateCounts _))

theorem Keyed.evictLowest_none {part : SenderQueue → List OrderedTransaction}
    (he : pool.evictLowest P part = (pool', none)) : pool.Mirrors pool' [] := by
  rw [PoolInner.evictLowest] at he
  split at he
  · obtain ⟨rfl, -⟩ := Prod.mk.inj he
    exact h.mirrors
  · next low _ =>
    -- the hash was in a queue and not in the hash map, from which nothing is removed
    obtain ⟨rfl, hf⟩ := Prod.mk.inj he
    refine h.of_byHash ?_
    rw [byHash_updateCounts, removeByHash_of_none hf]

theorem Keyed.evictWhile (exceeds : PoolInner → Bool) (part : SenderQueue → List OrderedTransaction)
    (fuel : ℕ) (reason : String) :
    pool.Mirrors (pool.evictWhile exceeds (PoolInner.evictLowest P part) fuel).1
      ((pool.evictWhile exceeds (PoolInner.evictLowest P part) fuel).2.map
        fun tx => .txEvicted tx.hash reason) := by
  induction fuel generalizing pool with
  | zero => exact h.mirrors
  | succ fuel ih =>
    rw [PoolInner.evictWhile]
    split
    · split
      · next he => exact h.evictLowest_none he
      · next tx he =>
        have hone := h.evictLowest he reason
        exact hone.append (ih hone.keyed)
    · exact h.mirrors

theorem Keyed.evictExcess (config : PoolConfig) (reason : String) :
    pool.Mirrors (pool.evictExcess P config).1
      ((pool.evictExcess P config).2.map fun tx => .txEvicted tx.hash reason) := by
  have hp := h.evictWhile (P := P) (fun inner => inner.pendingCount > config.maxPendingTxs)
    (·.pending) (pool.byHash.size + 1) reason
  rw [PoolInner.evictExcess, List.map_append]
  exact hp.append (hp.keyed.evictWhile (fun inner => inner.queuedCount >
    config.maxQueuedTxs) (·.queued) (_ + 1) reason)

/-! ### Adding and removing -/

theorem Keyed.added {replaced : List MempoolEvent} {before : PoolInner}
    (hr : before.Mirrors pool replaced) (tx : OrderedTransaction) :
    before.Mirrors (PoolInner.added A replaced tx (pool.enter P config tx)).1
      (PoolInner.added A replaced tx (pool.enter P config tx)).2.1 := by
  have hi := h.index (P := P) (A := A) tx
  have he := hi.keyed.evictExcess (P := P) config "evicted"
  rw [added_fst, PoolInner.added, enter_eq]
  dsimp only
  split
  · next hself =>
    rw [List.append_nil]
    refine hr.append ⟨he.keyed, ?_⟩
    rw [← he.replayed, ← hi.replayed]
    ext hash
    rw [mem_replay_evicted, mem_replay_evicted]
    -- its own hash is among the evicted ones, so that it does not matter whether it was added
    refine and_congr_left fun hk => ?_
    obtain ⟨tx', htx', heq⟩ := List.any_eq_true.1 hself
    have hne : hash ≠ tx.hash := fun hh => hk tx' htx' (by simpa [hh] using heq)
    show hash ∈ pool.hashes ↔ hash ∈ Insert.insert tx.hash pool.hashes
    rw [Set.mem_insert_iff, or_iff_right hne]
  · rw [List.append_assoc]
    exact hr.append (hi.append he)

theorem Keyed.add (tx : OrderedTransaction) :
    pool.Mirrors (pool.add P A config tx).1 (pool.add P A config tx).2.1 := by
  have hf : pool.Mirrors (pool.file tx).1 [] := h.of_byHash rfl
  rcases add_cases P A config pool tx with ⟨-, err, hadd⟩ | ⟨-, -, hadd⟩ | ⟨-, -, -, -, hadd⟩ |
    ⟨-, replaced, -, -, hadd⟩
  · rw [hadd]
    exact h.mirrors
  · rw [hadd]
    exact hf.keyed.added hf tx
  · rw [hadd]
    exact hf
  · rw [hadd]
    have hr := hf.keyed.removeByHash (P := P) replaced.hash "replaced"
    exact hr.keyed.added (hf.append hr) tx

theorem Keyed.removeWithReason (hash : B256) (reason : String) :
    pool.Mirrors (pool.removeWithReason P hash reason).1
      (pool.removeWithReason P hash reason).2.1 := by
  rw [PoolInner.removeWithReason]
  split
  · exact h.mirrors
  · have hr := h.removeByHash (P := P) hash reason
    exact hr.append (hr.keyed.of_byHash (byHash_updateCounts _))

/-! ### Accepted transactions -/

omit h in
theorem getElem?_byHash_of_evictExcess {hash : B256}
    (h : (pool.evictExcess P config).1.byHash[hash]? = some tx) :
    pool.byHash[hash]? = some tx := by
  revert h
  refine evictExcess_invariant
    (I := fun inner => inner.byHash[hash]? = some tx → pool.byHash[hash]? = some tx)
    (fun part inner hi h => hi ?_) config id
  rw [PoolInner.evictLowest] at h
  split at h
  · exact h
  · rw [byHash_updateCounts, getElem?_byHash_removeByHash] at h
    split at h
    · cases h
    · exact h

theorem Keyed.pooled_of_added {replaced : List MempoolEvent}
    (hok : (PoolInner.added A replaced tx (pool.enter P config tx)).2.2 = .ok ()) :
    (pool.enter P config tx).1.byHash[tx.hash]? = some tx := by
  have hi := h.index (P := P) (A := A) tx
  have hk : ∀ evicted ∈ (pool.enter P config tx).2, evicted.hash ≠ tx.hash := by
    intro evicted he heq
    have hself : (pool.enter P config tx).2.any (fun evicted => evicted.hash = tx.hash) = true :=
      List.any_eq_true.2 ⟨evicted, he, decide_eq_true heq⟩
    rw [PoolInner.added, hself] at hok
    cases hok
  have hget : (pool.index P tx).byHash[tx.hash]? = some tx :=
    ExtTreeMap.getElem?_insert_self
  -- its hash is still in the map, and what is there was there before the evictions
  have hmem : tx.hash ∈ (pool.enter P config tx).1.hashes := by
    rw [enter_eq, ← (hi.keyed.evictExcess (P := P) config "evicted").replayed,
      mem_replay_evicted]
    refine ⟨?_, hk⟩
    rw [mem_hashes, ExtTreeMap.mem_iff_isSome_getElem?, hget]
    rfl
  rw [mem_hashes, ExtTreeMap.mem_iff_isSome_getElem?, Option.isSome_iff_exists] at hmem
  obtain ⟨tx', htx'⟩ := hmem
  have hb : (pool.index P tx).byHash[tx.hash]? = some tx' :=
    getElem?_byHash_of_evictExcess htx'
  rw [htx', ← hb, hget]

theorem Keyed.pooled_of_ok (hok : (pool.add P A config tx).2.2 = .ok ()) :
    (pool.add P A config tx).1.byHash[tx.hash]? = some tx := by
  have hf : (pool.file tx).1.Keyed := (h.of_byHash rfl).keyed
  rcases add_cases P A config pool tx with ⟨-, err, hadd⟩ | ⟨-, -, hadd⟩ | ⟨-, -, -, -, hadd⟩ |
    ⟨-, replaced, -, -, hadd⟩
  · rw [hadd] at hok
    cases hok
  · rw [hadd] at hok
    rw [hadd, added_fst]
    exact hf.pooled_of_added hok
  · rw [hadd] at hok
    cases hok
  · rw [hadd] at hok
    rw [hadd, added_fst]
    exact (hf.removeByHash (P := P) replaced.hash "replaced").keyed.pooled_of_added hok

end PoolInner

/-! ### Calls -/

/-- The calls that send events. `remove` gives the reason "removed". -/
inductive PoolCall where
  | add (tx : OrderedTransaction)
  | removeWithReason (hash : B256) (reason : String)

namespace PoolInner

variable (P : Platform) (A : Alloy) (config : PoolConfig)

/-- A call, and the events that it sends. -/
def call (self : PoolInner) : PoolCall → PoolInner × List MempoolEvent
  | .add tx => ((self.add P A config tx).1, (self.add P A config tx).2.1)
  | .removeWithReason hash reason =>
    ((self.removeWithReason P hash reason).1, (self.removeWithReason P hash reason).2.1)

def afterCalls (calls : List PoolCall) : PoolInner × List MempoolEvent :=
  calls.foldl (fun (inner, events) call =>
    ((inner.call P A config call).1, events ++ (inner.call P A config call).2)) (new, [])

variable {P A config}

theorem Keyed.call {pool : PoolInner} (h : pool.Keyed) (call : PoolCall) :
    pool.Mirrors (pool.call P A config call).1 (pool.call P A config call).2 := by
  cases call with
  | add tx => exact h.add tx
  | removeWithReason hash reason => exact h.removeWithReason hash reason

theorem mirrors_afterCalls (calls : List PoolCall) :
    new.Mirrors (afterCalls P A config calls).1 (afterCalls P A config calls).2 := by
  induction calls using List.reverseRecOn with
  | nil =>
    have hnew : new.Keyed := fun hash tx hget => by simp [new] at hget
    exact hnew.mirrors
  | append_singleton calls call ih =>
    rw [afterCalls, List.foldl_append]
    exact ih.append (ih.keyed.call call)

end PoolInner

/-- **Events mirror the pool**: replaying them gives exactly the pooled transactions' hashes. -/
theorem events_mirror_pool (P : Platform) (A : Alloy) (config : PoolConfig)
    (calls : List PoolCall) :
    replay ∅ (PoolInner.afterCalls P A config calls).2 =
      {hash | hash ∈ (PoolInner.afterCalls P A config calls).1.byHash} := by
  have hm : replay PoolInner.new.hashes (PoolInner.afterCalls P A config calls).2 =
      (PoolInner.afterCalls P A config calls).1.hashes :=
    (PoolInner.mirrors_afterCalls calls).replayed
  have hnone : PoolInner.new.hashes = ∅ := by
    ext hash
    simp [PoolInner.mem_hashes, PoolInner.new]
  rw [hnone] at hm
  exact hm

end Kora
