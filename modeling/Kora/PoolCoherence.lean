/-
The indexes and queues of the transaction pool stay coherent.

* `PoolInner.Represents` — maps and queues hold exactly one set of transactions, no queue
  is empty, and the counters count;
* `Represents.step` — each operation leads from such a pool to such a pool;
* `pool_coherent` — so every pool reached from the empty one is coherent.
-/
import Kora.PoolHalves

open Std List Option

namespace Kora

namespace PoolInner

variable {P : Platform} {pool : PoolInner} {S S' : Set OrderedTransaction} {E : Set Address}

/-! ### Pools and the sets they stand for -/

/-- **The pool stands for the set `S`**: both halves hold it, no queue is empty, and the counters
count. -/
structure Represents (P : Platform) (pool : PoolInner) (S : Set OrderedTransaction) : Prop where
  indexed : pool.Indexed P S
  filed : pool.Filed S
  nonempty : pool.EmptyOnly ∅
  counted : pool.updateCounts = pool

theorem represents_updateCounts (hi : pool.Indexed P S) (hf : pool.Filed S)
    (he : pool.EmptyOnly ∅) : pool.updateCounts.Represents P S where
  indexed := ⟨hi.byHash_iff, hi.byId_iff⟩
  filed := hf.of_bySender rfl
  nonempty := he
  counted := rfl

theorem updateCounts_congr {pool' : PoolInner} (hbyHash : pool'.byHash = pool.byHash)
    (hbyId : pool'.byId = pool.byId) (hbySender : pool'.bySender = pool.bySender) :
    pool'.updateCounts = pool.updateCounts := by
  simp only [updateCounts, hbyHash, hbyId, hbySender]

theorem represents_new (P : Platform) : PoolInner.new.Represents P ∅ where
  indexed := ⟨by simp [PoolInner.new], by simp [PoolInner.new]⟩
  filed := ⟨by simp [PoolInner.new, txsOf], by simp [PoolInner.new]⟩
  nonempty := by simp [EmptyOnly, PoolInner.new]
  counted := rfl

variable {tx : OrderedTransaction}

theorem Represents.pooled_iff (h : pool.Represents P S) : pool.Pooled tx ↔ tx ∈ S := by
  rw [Pooled, h.indexed.byHash_iff]
  simp

theorem Represents.foldl_removeByHash (h : pool.Represents P S) (hashes : List B256) :
    (hashes.foldl (PoolInner.removeByHash P) pool).Indexed P {tx ∈ S | tx.hash ∉ hashes} ∧
      (hashes.foldl (PoolInner.removeByHash P) pool).Filed {tx ∈ S | tx.hash ∉ hashes} ∧
      (hashes.foldl (PoolInner.removeByHash P) pool).EmptyOnly ∅ :=
  PoolInner.foldl_removeByHash h.indexed h.filed subset_rfl h.nonempty hashes

theorem Represents.removeByHash (h : pool.Represents P S) (hash : B256) :
    (pool.removeByHash P hash).updateCounts.Represents P {tx ∈ S | tx.hash ≠ hash} :=
  represents_updateCounts (h.indexed.removeByHash hash)
    (h.filed.removeByHash h.indexed fun _ htx _ => htx) (h.nonempty.removeByHash hash)

/-! ### Evicting -/

theorem Represents.evictLowest (h : pool.Represents P S)
    (part : SenderQueue → List OrderedTransaction) :
    ∃ S' ⊆ S, (pool.evictLowest P part).1.Represents P S' := by
  rw [PoolInner.evictLowest]
  split
  · exact ⟨S, subset_rfl, h⟩
  · next tx _ => exact ⟨_, Set.sep_subset _ _, h.removeByHash tx.hash⟩

theorem evictWhile_invariant {I : PoolInner → Prop}
    {evict : PoolInner → PoolInner × Option OrderedTransaction}
    (he : ∀ {pool : PoolInner}, I pool → I (evict pool).1) (exceeds : PoolInner → Bool)
    (fuel : ℕ) (hI : I pool) : I (pool.evictWhile exceeds evict fuel).1 := by
  induction fuel generalizing pool with
  | zero => exact hI
  | succ fuel ih =>
    have hone := he hI
    rw [PoolInner.evictWhile]
    split
    · split
      · next heq =>
        rw [heq] at hone
        exact hone
      · next heq =>
        rw [heq] at hone
        exact ih hone
    · exact hI

theorem evictExcess_invariant {I : PoolInner → Prop}
    (he : ∀ (part : SenderQueue → List OrderedTransaction) {pool : PoolInner}, I pool →
      I (pool.evictLowest P part).1) (config : PoolConfig) (hI : I pool) :
    I (pool.evictExcess P config).1 := by
  have hp : I (pool.evictLoop (fun inner => inner.pendingCount > config.maxPendingTxs)
      (evictLowestPending P)).1 := evictWhile_invariant (he _) _ _ hI
  rw [PoolInner.evictExcess]
  exact evictWhile_invariant (he _) _ _ hp

theorem Represents.evictExcess (h : pool.Represents P S) (config : PoolConfig) :
    ∃ S' ⊆ S, (pool.evictExcess P config).1.Represents P S' := by
  refine evictExcess_invariant (I := fun pool => ∃ S' ⊆ S, pool.Represents P S') ?_ config
    ⟨S, subset_rfl, h⟩
  rintro part pool ⟨S₁, hsub₁, h₁⟩
  obtain ⟨S₂, hsub₂, h₂⟩ := h₁.evictLowest part
  exact ⟨S₂, hsub₂.trans hsub₁, h₂⟩

/-! ### Adding -/

theorem Indexed.insert (h : pool.Indexed P S) (hh : ∀ tx' ∈ S, tx'.hash ≠ tx.hash)
    (hid : ∀ tx' ∈ S, orderedTxId P tx' ≠ orderedTxId P tx) :
    Indexed P { pool with
      byHash := pool.byHash.insert tx.hash tx
      byId := pool.byId.insert (orderedTxId P tx) tx.hash } ({tx} ∪ S) := by
  refine ⟨fun {hash tx'} => ?_, fun {id hash} => ?_⟩
  · rw [ExtTreeMap.getElem?_insert]
    simp only [LawfulEqCmp.compare_eq_iff_eq]
    split
    · next heq =>
      subst heq
      rw [some_inj]
      refine ⟨fun heq => ⟨.inl heq.symm, by rw [heq]⟩, fun ⟨hmem, hx⟩ => ?_⟩
      rcases hmem with heq | hmem
      · exact heq.symm
      · exact absurd hx (hh tx' hmem)
    · next hne =>
      rw [h.byHash_iff]
      refine ⟨fun ⟨hmem, hx⟩ => ⟨.inr hmem, hx⟩, fun ⟨hmem, hx⟩ => ⟨?_, hx⟩⟩
      rcases hmem with rfl | hmem
      · exact absurd hx hne
      · exact hmem
  · rw [ExtTreeMap.getElem?_insert]
    simp only [LawfulEqCmp.compare_eq_iff_eq]
    split
    · next heq =>
      subst heq
      rw [some_inj]
      refine ⟨fun hx => ⟨tx, .inl rfl, rfl, hx⟩, fun ⟨tx', hmem, hx, heq⟩ => ?_⟩
      rcases hmem with rfl | hmem
      · exact heq
      · exact absurd hx (hid tx' hmem)
    · next hne =>
      rw [h.byId_iff]
      refine ⟨fun ⟨tx', hmem, hx⟩ => ⟨tx', .inr hmem, hx⟩, fun ⟨tx', hmem, hx⟩ => ?_⟩
      rcases hmem with rfl | hmem
      · exact absurd hx.1 hne
      · exact ⟨tx', hmem, hx⟩

/-- The pool with a filed transaction that is entered in the maps and counted. -/
def index (P : Platform) (pool : PoolInner) (tx : OrderedTransaction) : PoolInner :=
  updateCounts
    { pool with
      byHash := pool.byHash.insert tx.hash tx
      byId := pool.byId.insert (orderedTxId P tx) tx.hash }

theorem enter_eq (P : Platform) (config : PoolConfig) (pool : PoolInner)
    (tx : OrderedTransaction) :
    pool.enter P config tx = (pool.index P tx).evictExcess P config := rfl

/-- What has to hold before a transaction is filed. -/
structure Checked (P : Platform) (config : PoolConfig) (pool : PoolInner)
    (tx : OrderedTransaction) : Prop where
  hash_new : pool.byHash[tx.hash]? = none
  id_new : pool.byId[orderedTxId P tx]? = none
  sender : pool.checkSender config tx (insertionTarget pool.bySender[tx.sender]? tx) = .ok ()
  room : pool.rejectUnderpricedWhenFull config tx
    (insertionTarget pool.bySender[tx.sender]? tx) = .ok ()

/-- **What an addition does**: nothing, or it files the transaction. The queue gives back the
transaction itself, which is refused, or one that it replaces. -/
theorem add_cases (P : Platform) (A : Alloy) (config : PoolConfig) (pool : PoolInner)
    (tx : OrderedTransaction) :
    (¬ pool.Checked P config tx ∧ ∃ err, pool.add P A config tx = (pool, [], .error err)) ∨
    (pool.Checked P config tx ∧ (pool.file tx).2 = none ∧
      pool.add P A config tx = added A [] tx ((pool.file tx).1.enter P config tx)) ∨
    (pool.Checked P config tx ∧ ∃ replaced, (pool.file tx).2 = some replaced ∧
      replaced.hash = tx.hash ∧
      pool.add P A config tx = ((pool.file tx).1, [], .error .replacementUnderpriced)) ∨
    (pool.Checked P config tx ∧ ∃ replaced, (pool.file tx).2 = some replaced ∧
      replaced.hash ≠ tx.hash ∧
      pool.add P A config tx = added A [.txEvicted replaced.hash "replaced"] tx
        (((pool.file tx).1.removeByHash P replaced.hash).enter P config tx)) := by
  rw [PoolInner.add]
  split
  · next hk =>
    refine .inl ⟨fun hc => ?_, _, rfl⟩
    rw [ExtTreeMap.contains_eq_isSome_getElem?, ExtTreeMap.contains_eq_isSome_getElem?,
      hc.hash_new, hc.id_new] at hk
    cases hk
  next hk =>
  have hnone := Bool.or_eq_false_iff.1 (Bool.eq_false_iff.2 hk)
  rw [ExtTreeMap.contains_eq_isSome_getElem?, ExtTreeMap.contains_eq_isSome_getElem?,
    isSome_eq_false_iff, isSome_eq_false_iff, isNone_iff_eq_none,
    isNone_iff_eq_none] at hnone
  dsimp only
  split
  · next error hs =>
    refine .inl ⟨fun hc => ?_, _, rfl⟩
    rw [hc.sender] at hs
    cases hs
  next hs =>
  split
  · next error hr =>
    refine .inl ⟨fun hc => ?_, _, rfl⟩
    rw [hc.room] at hr
    cases hr
  next hr =>
  have hc : pool.Checked P config tx := ⟨hnone.1, hnone.2, hs, hr⟩
  refine .inr ?_
  -- what the queue gives back decides the rest
  rcases hf : pool.file tx with ⟨inner, back⟩
  cases back with
  | none => exact .inl ⟨hc, rfl, rfl⟩
  | some replaced =>
    dsimp only
    split
    · next hsm => exact .inr (.inl ⟨hc, replaced, rfl, hsm, rfl⟩)
    · next hne => exact .inr (.inr ⟨hc, replaced, rfl, hne, rfl⟩)

theorem represents_index (hi : pool.Indexed P S) (hf : pool.Filed ({tx} ∪ S))
    (he : pool.EmptyOnly ∅) (hh : ∀ tx' ∈ S, tx'.hash ≠ tx.hash)
    (hid : ∀ tx' ∈ S, orderedTxId P tx' ≠ orderedTxId P tx) :
    (pool.index P tx).Represents P ({tx} ∪ S) :=
  represents_updateCounts (hi.insert hh hid) (hf.of_bySender rfl) he

theorem insert_new (tx : OrderedTransaction) :
    ((SenderQueue.new tx.sender tx.nonce).insert tx).2 = none := by
  have hn : (SenderQueue.new tx.sender tx.nonce).nextPendingNonce ≤ tx.nonce := min_le_left _ _
  rcases (SenderQueue.new tx.sender tx.nonce).insert_cases tx with ⟨hlow | ⟨hb, -⟩, -⟩ |
    ⟨-, -, hi⟩ | ⟨-, -, hi⟩ | ⟨-, hb, -⟩
  · exact absurd hlow (lt_irrefl tx.nonce)
  · exact absurd hb (Nat.not_lt.2 hn)
  · rw [hi]
  · rw [hi]
    rfl
  · exact absurd hb (Nat.not_lt.2 hn)

/-- The queue that a transaction is filed in. -/
def queueFor (pool : PoolInner) (tx : OrderedTransaction) : SenderQueue :=
  (pool.bySender[tx.sender]?).getD (SenderQueue.new tx.sender tx.nonce)

theorem file_eq (pool : PoolInner) (tx : OrderedTransaction) :
    pool.file tx = (pool.setQueue tx.sender ((pool.queueFor tx).insert tx).1,
      ((pool.queueFor tx).insert tx).2) := rfl

theorem file_snd (pool : PoolInner) (tx : OrderedTransaction) :
    (pool.file tx).2 = ((pool.queueFor tx).insert tx).2 := rfl

theorem Represents.queueFor (h : pool.Represents P S) (tx : OrderedTransaction) :
    (pool.queueFor tx).WellFormed tx.sender ∧
      ∀ tx', tx'.sender = tx.sender → (tx' ∈ (pool.queueFor tx).txs ↔ tx' ∈ S) := by
  rw [PoolInner.queueFor]
  cases hf : pool.bySender[tx.sender]? with
  | none =>
    refine ⟨SenderQueue.wellFormed_new _ _, fun tx' hs => ?_⟩
    rw [h.filed.mem_iff, hs, txsOf_of_none hf]
    rfl
  | some found =>
    refine ⟨h.filed.wellFormed hf, fun tx' hs => ?_⟩
    rw [getD_some, h.filed.mem_queue hf]
    simp [hs]

/-- A refusal leaves the pool as it was: it needs an older transaction, so that the queue was
there. -/
theorem file_of_refused (hnew : tx ∉ (pool.queueFor tx).txs)
    (hr : ((pool.queueFor tx).insert tx).2 = some tx) : (pool.file tx).1 = pool := by
  have hf : pool.bySender[tx.sender]? = some (pool.queueFor tx) := by
    cases hf : pool.bySender[tx.sender]? with
    | none =>
      rw [PoolInner.queueFor, hf, getD_none, insert_new tx] at hr
      cases hr
    | some found => rw [PoolInner.queueFor, hf, getD_some]
  rw [file_eq, SenderQueue.insert_refused hnew hr]
  exact setQueue_self hf

/-- **Filing** leaves the pool as it is, or puts the transaction in place of the one returned. -/
theorem Represents.file (h : pool.Represents P S) (hn : tx.nonce < U64_MAX) (hnew : tx ∉ S) :
    ((pool.file tx).2 = some tx ∧ (pool.file tx).1 = pool) ∨
      ((∀ old, (pool.file tx).2 = some old → old ∈ S) ∧
        (pool.file tx).1.Filed {tx' | tx' = tx ∨ tx' ∈ S ∧ (pool.file tx).2 ≠ some tx'} ∧
        (pool.file tx).1.EmptyOnly ∅) := by
  obtain ⟨hwf, hmem⟩ := h.queueFor tx
  have hnew' : tx ∉ (pool.queueFor tx).txs := fun htx => hnew ((hmem tx rfl).1 htx)
  by_cases hself : ((pool.queueFor tx).insert tx).2 = some tx
  · exact .inl ⟨hself, file_of_refused hnew' hself⟩
  · -- what is displaced comes from the sender's own queue
    have hd : ∀ old, ((pool.queueFor tx).insert tx).2 = some old →
        old ∈ (pool.queueFor tx).txs := by
      intro old hold
      rcases SenderQueue.displaced hold with rfl | hmem_old
      · exact absurd hold hself
      · exact hmem_old
    rw [file_eq]
    refine .inr ⟨fun old hold => ?_, h.filed.setQueue (hwf.insert hn)
      (fun tx' hs => ?_) (fun tx' hs => ?_), h.nonempty.setQueue fun hnil => ?_⟩
    · have hold := hd old hold
      exact (hmem old (hwf.owned old hold)).1 hold
    · rw [SenderQueue.mem_insert_iff hwf.nodup hnew', hmem tx' hs]
      constructor
      · rintro ⟨rfl | htx', hne⟩
        · exact .inl rfl
        · exact .inr ⟨htx', hne⟩
      · rintro (rfl | ⟨htx', hne⟩)
        · exact ⟨.inl rfl, hself⟩
        · exact ⟨.inr htx', hne⟩
    · refine ⟨fun htx' => .inr ⟨htx', fun heq => ?_⟩, fun hor => ?_⟩
      · exact hs (hwf.owned tx' (hd tx' heq))
      · rcases hor with rfl | ⟨htx', -⟩
        · exact absurd rfl hs
        · exact htx'
    · have htx := (SenderQueue.mem_insert_iff hwf.nodup hnew').2 ⟨.inl rfl, hself⟩
      rw [hnil] at htx
      cases htx

theorem represents_replace (hi : pool.Indexed P S) {replaced : OrderedTransaction}
    (hr : replaced ∈ S)
    (hf : pool.Filed {tx' | tx' = tx ∨ tx' ∈ S ∧ some replaced ≠ some tx'})
    (he : pool.EmptyOnly ∅) (hh : ∀ tx' ∈ S, tx'.hash ≠ tx.hash)
    (hid : ∀ tx' ∈ S, orderedTxId P tx' ≠ orderedTxId P tx) :
    ((pool.removeByHash P replaced.hash).index P tx).Represents P
      ({tx} ∪ {tx' ∈ S | tx'.hash ≠ replaced.hash}) := by
  have hl : (pool.removeByHash P replaced.hash).Filed
      ({tx} ∪ {tx' ∈ S | tx'.hash ≠ replaced.hash}) := by
    refine (hf.removeByHash hi fun tx' htx' heq => ?_).congr fun tx' => ?_
    · rcases htx' with rfl | ⟨htx', -⟩
      · exact absurd heq.symm (hh replaced hr)
      · exact htx'
    · constructor
      · rintro ⟨rfl | ⟨htx', -⟩, hne⟩
        · exact .inl rfl
        · exact .inr ⟨htx', hne⟩
      · rintro (rfl | ⟨htx', hne⟩)
        · exact ⟨.inl rfl, (hh replaced hr).symm⟩
        · exact ⟨.inr ⟨htx', fun heq => hne (by rw [some.inj heq])⟩, hne⟩
  exact represents_index (hi.removeByHash replaced.hash) hl
    (he.removeByHash replaced.hash) (fun tx' htx' => hh tx' htx'.1)
    fun tx' htx' => hid tx' htx'.1

theorem Represents.fresh (h : pool.Represents P S) {config : PoolConfig}
    (hc : pool.Checked P config tx) :
    (∀ tx' ∈ S, tx'.hash ≠ tx.hash) ∧ ∀ tx' ∈ S, orderedTxId P tx' ≠ orderedTxId P tx := by
  constructor
  · intro tx' htx' heq
    have hget := h.indexed.byHash_iff.2 ⟨htx', heq⟩
    rw [hc.hash_new] at hget
    cases hget
  · intro tx' htx' heq
    have hget := h.indexed.byId_iff.2 ⟨tx', htx', heq, rfl⟩
    rw [hc.id_new] at hget
    cases hget

theorem Represents.add (h : pool.Represents P S) (A : Alloy) (config : PoolConfig)
    (hn : tx.nonce < U64_MAX) :
    ∃ S' ⊆ {tx} ∪ S, (pool.add P A config tx).1.Represents P S' := by
  have hs : ∃ S' ⊆ {tx} ∪ S, pool.Represents P S' := ⟨S, Set.subset_union_right, h⟩
  have hi : (pool.file tx).1.Indexed P S := ⟨h.indexed.byHash_iff, h.indexed.byId_iff⟩
  rcases add_cases P A config pool tx with ⟨-, err, hadd⟩ | ⟨hc, hnone, hadd⟩ |
    ⟨hc, replaced, hb, heq, hadd⟩ | ⟨hc, replaced, hb, hne, hadd⟩
  · rw [hadd]
    exact hs
  all_goals
    obtain ⟨hh, hid⟩ := h.fresh hc
    have hf := h.file hn fun htx => hh tx htx rfl
    rw [hadd]
  · rw [hnone] at hf
    rcases hf with ⟨⟨⟩, -⟩ | ⟨-, hfl, he⟩
    rw [added_fst, enter_eq]
    refine (represents_index hi (hfl.congr fun tx' => ?_) he hh
      hid).evictExcess config
    simp
  · -- one that is given back and was in the pool before has another hash
    rcases hf with ⟨-, hp⟩ | ⟨hold, -⟩
    · rw [hp]
      exact hs
    · exact absurd heq (hh replaced (hold replaced hb))
  · rw [hb] at hf
    rcases hf with ⟨hrf, -⟩ | ⟨hold, hfl, he⟩
    · exact absurd (congrArg _ (some.inj hrf)) hne
    · have hr : replaced ∈ S := hold replaced rfl
      obtain ⟨S', hsub, hS'⟩ := (represents_replace hi hr hfl he hh
        hid).evictExcess config
      rw [added_fst, enter_eq]
      exact ⟨S', hsub.trans (Set.union_subset_union_right _ (Set.sep_subset _ _)), hS'⟩

theorem Represents.insert (h : pool.Represents P S) (A : Alloy) (config : PoolConfig) {tx : Tx}
    {now : ℕ}
    (hn : ∀ ordered, txToOrdered P A tx now = some ordered → ordered.nonce < U64_MAX) :
    ∃ S' ⊆ {ordered | txToOrdered P A tx now = some ordered} ∪ S,
      (pool.insert P A config tx now).1.Represents P S' := by
  rw [PoolInner.insert]
  split
  · exact ⟨S, Set.subset_union_right, h⟩
  · next ordered ho =>
    obtain ⟨S', hsub, hS'⟩ := h.add A config (hn ordered ho)
    refine ⟨S', hsub.trans (Set.union_subset_union_left S ?_), hS'⟩
    rintro tx' rfl
    exact ho

/-! ### Taking out -/

theorem Represents.remove (h : pool.Represents P S) (hash : B256) :
    ∃ S' ⊆ S, (pool.remove P hash).1.Represents P S' := by
  rw [PoolInner.remove, removeWithReason]
  split
  · exact ⟨S, subset_rfl, h⟩
  · exact ⟨_, Set.sep_subset _ _, h.removeByHash hash⟩

theorem Filed.removeConfirmed (h : pool.Filed S) {sender : Address} {queue : SenderQueue}
    (hq : pool.bySender[sender]? = some queue) (confirmedNonce : ℕ) :
    (pool.setQueue sender (queue.removeConfirmed confirmedNonce)).Filed
      {tx ∈ S | tx.sender = sender → confirmedNonce < tx.nonce} := by
  obtain ⟨hwf, hmem⟩ := (h.wellFormed hq).removeConfirmed confirmedNonce
  refine h.setQueue hwf (fun tx hs => ?_) fun tx hs => ?_
  · rw [hmem, h.mem_queue hq, Set.mem_sep_iff]
    simp [hs]
  · simp [hs]

theorem Represents.mem_confirmedHashes (h : pool.Represents P S) {sender : Address}
    {confirmedNonce : ℕ} (htx : tx ∈ S) :
    tx.hash ∈ (pool.bySender[sender]?).elim []
        (fun queue => confirmedHashes queue confirmedNonce) ↔
      tx.sender = sender ∧ tx.nonce ≤ confirmedNonce := by
  cases hq : pool.bySender[sender]? with
  | none =>
    refine ⟨fun hmem => (not_mem_nil hmem).elim, fun ⟨hs, _⟩ => ?_⟩
    obtain ⟨queue, hf, -⟩ := h.filed.exists_queue htx
    rw [hs, hq] at hf
    cases hf
  | some queue =>
    simp only [elim_some, confirmedHashes, List.mem_map, mem_filter, decide_eq_true_eq]
    constructor
    · rintro ⟨tx', ⟨htx', hle⟩, hh⟩
      obtain ⟨hmem, hs⟩ := (h.filed.mem_queue hq).1 htx'
      obtain rfl := h.indexed.eq_of_hash_eq hmem htx hh
      exact ⟨hs, hle⟩
    · rintro ⟨hs, hle⟩
      exact ⟨tx, ⟨(h.filed.mem_queue hq).2 ⟨htx, hs⟩, hle⟩, rfl⟩

theorem Represents.removeConfirmed (h : pool.Represents P S) (sender : Address)
    (confirmedNonce : ℕ) :
    (pool.removeConfirmed P sender confirmedNonce).Represents P
      {tx ∈ S | tx.sender = sender → confirmedNonce < tx.nonce} := by
  obtain ⟨hi, hf, he⟩ := h.foldl_removeByHash
    ((pool.bySender[sender]?).elim [] (fun queue => confirmedHashes queue confirmedNonce))
  have hset : ∀ tx, tx ∈ {tx ∈ S | tx.hash ∉ (pool.bySender[sender]?).elim []
        (fun queue => confirmedHashes queue confirmedNonce)} ↔
      tx ∈ {tx ∈ S | tx.sender = sender → confirmedNonce < tx.nonce} := by
    intro tx
    refine and_congr_right fun htx => ?_
    rw [h.mem_confirmedHashes htx, not_and]
    exact forall_congr' fun _ => Nat.not_le
  replace hi := hi.congr hset
  replace hf := hf.congr hset
  rw [PoolInner.removeConfirmed]
  split
  · exact represents_updateCounts hi hf he
  · next queue hq =>
    -- the queue has lost these transactions already; what is left only moves up
    have hm := (hf.removeConfirmed hq confirmedNonce).congr fun tx =>
      and_iff_left_of_imp And.right
    have hset : Indexed P (PoolInner.setQueue _ sender (queue.removeConfirmed confirmedNonce)) _ :=
      ⟨hi.byHash_iff, hi.byId_iff⟩
    exact represents_updateCounts (hset.dropEmpty sender) (hm.dropEmpty sender)
      (he.setQueue_any sender _).dropEmpty

/-! ### Pruning -/

theorem pruneSender_spec {pruning : Pruning} (hi : pruning.inner.Indexed P S)
    (hf : pruning.inner.Filed S')
    (he : pruning.inner.EmptyOnly {sender | sender ∈ pruning.sendersToCheck})
    (entry : Address × ℕ) :
    (pruneSender pruning entry).inner.Indexed P S ∧
      (pruneSender pruning entry).inner.Filed
        {tx ∈ S' | tx.sender = entry.1 → entry.2 < tx.nonce} ∧
      (pruneSender pruning entry).inner.EmptyOnly
        {sender | sender ∈ (pruneSender pruning entry).sendersToCheck} := by
  rw [pruneSender]
  split
  · next hnone =>
    refine ⟨hi, hf.congr fun tx => ⟨fun htx => ⟨htx, fun hs => ?_⟩, And.left⟩,
      he⟩
    obtain ⟨queue, hq, -⟩ := hf.exists_queue htx
    rw [hs, hnone] at hq
    cases hq
  · next queue hq =>
    refine ⟨⟨hi.byHash_iff, hi.byId_iff⟩, hf.removeConfirmed hq entry.2, ?_⟩
    intro sender queue' hq' hnil
    rcases he.setQueue_any entry.1 _ sender queue' hq' hnil with rfl | hmem
    · exact mem_append_right _ (mem_singleton_self _)
    · exact mem_append_left _ hmem

theorem foldl_pruneSender_spec {pruning : Pruning} (hin : pruning.inner.Indexed P S)
    (hfl : pruning.inner.Filed S')
    (hem : pruning.inner.EmptyOnly {sender | sender ∈ pruning.sendersToCheck})
    (entries : List (Address × ℕ)) :
    (entries.foldl pruneSender pruning).inner.Indexed P S ∧
      (entries.foldl pruneSender pruning).inner.Filed
        {tx ∈ S' | ∀ entry ∈ entries, tx.sender = entry.1 → entry.2 < tx.nonce} ∧
      (entries.foldl pruneSender pruning).inner.EmptyOnly
        {sender | sender ∈ (entries.foldl pruneSender pruning).sendersToCheck} := by
  induction entries generalizing pruning S' with
  | nil => simpa using ⟨hin, hfl, hem⟩
  | cons entry entries ih =>
    obtain ⟨hi, hf, he⟩ := pruneSender_spec hin hfl hem entry
    obtain ⟨hi', hf', he'⟩ := ih hi hf he
    refine ⟨hi', hf'.congr fun tx => ?_, he'⟩
    simp [and_assoc]

theorem foldl_dropEmpty_spec (hi : pool.Indexed P S) (hf : pool.Filed S)
    {senders : List Address} (he : pool.EmptyOnly {sender | sender ∈ senders}) :
    (senders.foldl PoolInner.dropEmpty pool).Indexed P S ∧
      (senders.foldl PoolInner.dropEmpty pool).Filed S ∧
      (senders.foldl PoolInner.dropEmpty pool).EmptyOnly ∅ := by
  induction senders generalizing pool with
  | nil => exact ⟨hi, hf, fun sender queue hq hnil =>
      (not_mem_nil (he sender queue hq hnil)).elim⟩
  | cons sender senders ih =>
    refine ih (hi.dropEmpty sender) (hf.dropEmpty sender) (EmptyOnly.dropEmpty ?_)
    intro sender' queue hq hnil
    exact mem_cons.1 (he sender' queue hq hnil)

theorem Represents.mem_hashesToRemove (h : pool.Represents P S) (confirmed : ExtTreeMap Address ℕ)
    (htx : tx ∈ S) :
    tx.hash ∈ (confirmed.toList.foldl pruneSender ⟨pool, [], []⟩).hashesToRemove ↔
      ∃ entry ∈ confirmed.toList, tx.sender = entry.1 ∧ tx.nonce ≤ entry.2 := by
  rw [PoolInner.mem_hashesToRemove]
  constructor
  · rintro ⟨sender, nonce, queue, hc, hq, tx', htx', hle, hh⟩
    obtain ⟨hmem, hs⟩ := (h.filed.mem_queue hq).1 htx'
    obtain rfl := h.indexed.eq_of_hash_eq hmem htx hh
    exact ⟨(sender, nonce), ExtTreeMap.mem_toList_iff_getElem?_eq_some.2 hc, hs, hle⟩
  · rintro ⟨entry, he, hs, hle⟩
    obtain ⟨queue, hq, hmem⟩ := h.filed.exists_queue htx
    exact ⟨entry.1, entry.2, queue, ExtTreeMap.mem_toList_iff_getElem?_eq_some.1 he,
      hs ▸ hq, tx, hmem, hle, rfl⟩

theorem Represents.prune (h : pool.Represents P S) (txIds : List B256) :
    (pool.prune P txIds).Represents P
      {tx ∈ S | ∀ entry ∈ (pool.confirmedBySender txIds).toList,
        tx.sender = entry.1 → entry.2 < tx.nonce} := by
  let start : Pruning := ⟨pool, [], []⟩
  have hnone : start.inner.EmptyOnly {sender | sender ∈ start.sendersToCheck} :=
    fun sender queue hq hnil => (h.nonempty sender queue hq hnil).elim
  obtain ⟨hin, hfl, hem⟩ := foldl_pruneSender_spec h.indexed h.filed hnone
    (pool.confirmedBySender txIds).toList
  have hk : ∀ tx ∈ S, tx.hash ∉ ((pool.confirmedBySender txIds).toList.foldl pruneSender
        start).hashesToRemove ↔
      ∀ entry ∈ (pool.confirmedBySender txIds).toList,
        tx.sender = entry.1 → entry.2 < tx.nonce := by
    intro tx htx
    rw [h.mem_hashesToRemove _ htx]
    simp only [not_exists, not_and, Nat.not_le]
  obtain ⟨hi, hf, he⟩ := PoolInner.foldl_removeByHash hin hfl (Set.sep_subset _ _) hem
    ((pool.confirmedBySender txIds).toList.foldl pruneSender start).hashesToRemove
  obtain ⟨hi', hf', he'⟩ := foldl_dropEmpty_spec
    (hi.congr fun tx => and_congr_right fun htx => hk tx htx)
    (hf.congr fun tx => and_iff_left_of_imp fun htx => (hk tx htx.1).2 htx.2) he
  exact represents_updateCounts hi' hf' he'

/-! ### Runs -/

theorem cleanup_fst (P : Platform) (config : PoolConfig) (pool : PoolInner) (now : ℕ) :
    (pool.cleanup P config now).1 = ((pool.bySender.values.flatMap (expiredHashes config now)).foldl
      (PoolInner.removeByHash P) pool).updateCounts := by
  rw [PoolInner.cleanup]
  exact congrArg updateCounts (foldl_hom Prod.fst fun _ _ => rfl).symm

theorem Represents.cleanup (h : pool.Represents P S) (config : PoolConfig) (now : ℕ) :
    ∃ S' ⊆ S, (pool.cleanup P config now).1.Represents P S' := by
  obtain ⟨hi, hf, he⟩ := h.foldl_removeByHash
    (pool.bySender.values.flatMap (expiredHashes config now))
  rw [cleanup_fst]
  exact ⟨_, Set.sep_subset _ _, represents_updateCounts hi hf he⟩

/-- The operation tries to add a transaction. -/
def Op.Brings (P : Platform) (A : Alloy) (op : Op) (tx : OrderedTransaction) : Prop :=
  match op with
  | .add tx' => tx = tx'
  | .insert raw now => txToOrdered P A raw now = some tx
  | _ => False

/-- What the operation tries to add has a nonce below the largest one. -/
def Op.NonceBelow (P : Platform) (A : Alloy) (op : Op) : Prop :=
  ∀ tx, op.Brings P A tx → tx.nonce < U64_MAX

/-- **Each operation** leads to a pool with nothing but what was there and what it brings. -/
theorem Represents.step (h : pool.Represents P S) {A : Alloy} (config : PoolConfig) {op : Op}
    (hop : op.NonceBelow P A) :
    ∃ S' ⊆ {tx | op.Brings P A tx} ∪ S, (pool.step P A config op).Represents P S' := by
  have hold : ∀ {S₁ : Set OrderedTransaction}, S₁ ⊆ S → S₁ ⊆ {tx | op.Brings P A tx} ∪ S :=
    fun hsub => hsub.trans Set.subset_union_right
  cases op with
  | add tx => exact h.add A config (hop tx rfl)
  | insert tx now => exact h.insert A config hop
  | remove hash =>
    obtain ⟨S', hsub, hS'⟩ := h.remove hash
    exact ⟨S', hold hsub, hS'⟩
  | removeConfirmed sender confirmedNonce =>
    exact ⟨_, hold (Set.sep_subset _ _), h.removeConfirmed sender confirmedNonce⟩
  | prune txIds => exact ⟨_, hold (Set.sep_subset _ _), h.prune txIds⟩
  | cleanup now =>
    obtain ⟨S', hsub, hS'⟩ := h.cleanup config now
    exact ⟨S', hold hsub, hS'⟩
  | clear => exact ⟨∅, Set.empty_subset _, represents_new P⟩

theorem represents_run {A : Alloy} (config : PoolConfig) {ops : List Op}
    (hops : ∀ op ∈ ops, op.NonceBelow P A) :
    ∃ S, (ops.foldl (PoolInner.step P A config) PoolInner.new).Represents P S := by
  induction ops using List.reverseRecOn with
  | nil => exact ⟨∅, represents_new P⟩
  | append_singleton ops op ih =>
    obtain ⟨S, hS⟩ := ih fun op' hop' => hops op' (mem_append_left _ hop')
    obtain ⟨S', -, hS'⟩ := hS.step config
      (hops op (mem_append_right _ (mem_singleton_self op)))
    rw [foldl_append]
    exact ⟨S', hS'⟩

/-! ### Coherence -/

/-- The indexes describe the same transactions, no queue is empty, the counters are the sums over
the queues, and in every queue the pending nonces count up from `nextNonce` and the queued ones are
increasing and beyond them. -/
structure Coherent (P : Platform) (pool : PoolInner) : Prop extends pool.Consistent P where
  nonempty : ∀ {sender : Address} {queue}, pool.bySender[sender]? = some queue →
    queue.isEmpty = false
  pendingCount_eq : pool.pendingCount = (pool.bySender.values.map (·.pending.length)).sum
  queuedCount_eq : pool.queuedCount = (pool.bySender.values.map (·.queued.length)).sum
  pending_nonces : ∀ {sender : Address} {queue}, pool.bySender[sender]? = some queue →
    queue.pending.map (·.nonce) = List.range' queue.nextNonce queue.pending.length
  queued_sorted : ∀ {sender : Address} {queue}, pool.bySender[sender]? = some queue →
    queue.queued.Pairwise fun tx tx' => tx.nonce < tx'.nonce
  queued_beyond : ∀ {sender : Address} {queue}, pool.bySender[sender]? = some queue →
    ∀ tx ∈ queue.queued, queue.nextPendingNonce < tx.nonce

theorem Represents.consistent (h : pool.Represents P S) : pool.Consistent P where
  queue_of_byHash {hash tx} hh := by
    obtain ⟨htx, heq⟩ := h.indexed.byHash_iff.1 hh
    exact ⟨heq, h.filed.exists_queue htx⟩
  byHash_of_queue hq htx := by
    obtain ⟨hmem, hs⟩ := (h.filed.mem_queue hq).1 htx
    exact ⟨hs, h.indexed.byHash_iff.2 ⟨hmem, rfl⟩⟩
  byId_of_byHash hh := by
    obtain ⟨htx, heq⟩ := h.indexed.byHash_iff.1 hh
    exact h.indexed.byId_iff.2 ⟨_, htx, rfl, heq⟩
  byHash_of_byId hid := by
    obtain ⟨tx, htx, heq, hh⟩ := h.indexed.byId_iff.1 hid
    exact ⟨tx, h.indexed.byHash_iff.2 ⟨htx, hh⟩, heq⟩

theorem Represents.coherent (h : pool.Represents P S) : pool.Coherent P where
  toConsistent := h.consistent
  nonempty {sender queue} hq := by
    rw [Bool.eq_false_iff]
    intro he
    exact h.nonempty sender queue hq (isEmpty_iff.1 he)
  pendingCount_eq := (congrArg pendingCount h.counted).symm
  queuedCount_eq := (congrArg queuedCount h.counted).symm
  pending_nonces hq := (h.filed.wellFormed hq).nonces.run_keys
  queued_sorted hq := (h.filed.wellFormed hq).nonces.rest_sorted
  queued_beyond hq tx htx :=
    (min_le_left _ _).trans_lt ((h.filed.wellFormed hq).nonces.rest_gt htx)

theorem Represents.eq_of_nonce_eq (h : pool.Represents P S) {tx' : OrderedTransaction}
    (htx : pool.Pooled tx) (htx' : pool.Pooled tx') (hs : tx.sender = tx'.sender)
    (hn : tx.nonce = tx'.nonce) : tx = tx' := by
  obtain ⟨queue, hq, hmem⟩ := h.consistent.pooled_iff.1 htx
  obtain ⟨queue', hq', hmem'⟩ := h.consistent.pooled_iff.1 htx'
  rw [hs] at hq
  obtain rfl : queue = queue' := some.inj (hq.symm.trans hq')
  exact (h.filed.wellFormed hq).nonces.eq_of_key_eq hmem hmem' hn

end PoolInner

/-! ### A pool that is filled and thinned out -/

namespace PoolExample

def platform : Platform where
  keccak256 bytes := BitVec.ofNat 256 (bytes.headD 0).toNat
  sha256 := id
  blockId block := BitVec.ofNat 256 block.height
  txId tx := BitVec.ofNat 256 (tx.bytes.headD 0).toNat
  consensus := default
  execute _ _ _ := .error ""

/-- Envelopes of one byte, which is the nonce. -/
def alloy : Alloy where
  decode2718 bytes := bytes.head?.map ([·])
  recoverSender _ := some 0xA
  txType _ := .legacy
  nonce envelope := (envelope.headD 0).toNat
  gasPrice _ := 1
  maxFeePerGas _ := 1
  recipient _ := none
  value _ := 0

def transfer (nonce : ℕ) : OrderedTransaction where
  hash := BitVec.ofNat 256 nonce
  sender := 0xA
  nonce := nonce
  effectiveGasPrice := 1
  timestamp := 0
  envelope := [UInt8.ofNat nonce]

/-- The nonces 0, 2 and 1 arrive, and the first one is removed. -/
def ops : List PoolInner.Op :=
  [.add (transfer 0), .insert ⟨[2]⟩ 0, .add (transfer 1), .remove 0]

end PoolExample

/-- **Pool consistency.** Whatever operations are made on an empty pool, with nonces below the
largest one, it is coherent afterwards and has at most one transaction for each sender and nonce. -/
theorem pool_coherent (P : Platform) (A : Alloy) (config : PoolConfig) (ops : List PoolInner.Op)
    (hops : ∀ op ∈ ops, op.NonceBelow P A) :
    (ops.foldl (PoolInner.step P A config) PoolInner.new).Coherent P ∧
      ∀ tx tx', (ops.foldl (PoolInner.step P A config) PoolInner.new).Pooled tx →
        (ops.foldl (PoolInner.step P A config) PoolInner.new).Pooled tx' →
        tx.sender = tx'.sender → tx.nonce = tx'.nonce → tx = tx' := by
  obtain ⟨S, hS⟩ := PoolInner.represents_run config hops
  exact ⟨hS.coherent, fun tx tx' htx htx' => hS.eq_of_nonce_eq htx htx'⟩

section Example

open PoolExample

theorem pool_coherent_filled :
    (∀ op ∈ ops, op.NonceBelow platform alloy) ∧
      (ops.foldl (PoolInner.step platform alloy .new) PoolInner.new).Coherent platform ∧
      (ops.foldl (PoolInner.step platform alloy .new) PoolInner.new).queuedCount = 2 := by
  have hops : ∀ op ∈ ops, op.NonceBelow platform alloy := by
    simp only [ops, forall_mem_cons]
    refine ⟨?_, ?_, ?_, fun tx htx => htx.elim, by simp⟩
    · rintro tx rfl
      decide
    · intro tx htx
      obtain rfl := some.inj htx
      decide
    · rintro tx rfl
      decide
  exact ⟨hops, (pool_coherent platform alloy .new ops hops).1, by decide +kernel⟩

end Example

end Kora
