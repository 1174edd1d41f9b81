/-
Transactions that the pool rejects.

A transaction that passes the first checks is filed, which may bring queued transactions
of its sender up, and the cheapest ones are evicted if there are too many. If it is among
them, it is rejected after all.

* `Represents.removeByHash_entered` — filing it and evicting it again changes nothing;
* `rejected_add_iff` — a rejected transaction leaves the pool as it is exactly if it fails
  the first checks or is outranked.
-/
import Kora.OrderedMap
import Kora.PoolCoherence
import Kora.Selection

open Std List

namespace Kora

open OrderedTransaction

/-! ### The order of eviction -/

namespace OrderedTransaction

theorem evictionCmp_eq : evictionCmp = compareLex (compareOn (·.effectiveGasPrice))
    (compareLex (fun tx tx' => compareOn (·.timestamp) tx' tx) (compareOn (·.hash))) := rfl

instance : TransCmp evictionCmp := by
  have htimestamp : TransCmp fun tx tx' : OrderedTransaction => compareOn (·.timestamp) tx' tx :=
    TransCmp.opposite
  rw [evictionCmp_eq]
  infer_instance

theorem evictionCmp_of_price_lt {tx tx' : OrderedTransaction}
    (h : tx.effectiveGasPrice < tx'.effectiveGasPrice) : tx.evictionCmp tx' = .lt := by
  rw [evictionCmp, Nat.compare_eq_lt.2 h]
  rfl

theorem hash_eq_of_evictionCmp_eq {tx tx' : OrderedTransaction} (h : tx.evictionCmp tx' = .eq) :
    tx.hash = tx'.hash := by
  rw [evictionCmp, Ordering.then_eq_eq, Ordering.then_eq_eq] at h
  exact LawfulEqCmp.compare_eq_iff_eq.1 h.2.2

end OrderedTransaction

namespace PoolInner

variable {txs : List OrderedTransaction} {tx : OrderedTransaction}

theorem lowest_spec (h : lowest txs = some tx) :
    tx ∈ txs ∧ ∀ tx' ∈ txs, (tx.evictionCmp tx').isLE = true := by
  cases txs with
  | nil => cases h
  | cons first txs =>
    obtain rfl := Option.some.inj h
    exact foldl_least id first txs

theorem lowest_eq_none_iff : lowest txs = none ↔ txs = [] := by
  cases txs with
  | nil => exact iff_of_true rfl rfl
  | cons first txs => simp [lowest]

/-! ### The parts of the queues -/

/-- The transactions in one part of the queues. -/
def partTxs (pool : PoolInner) (part : SenderQueue → List OrderedTransaction) :
    List OrderedTransaction :=
  pool.bySender.values.flatMap part

theorem mem_partTxs {pool : PoolInner} {part : SenderQueue → List OrderedTransaction} :
    tx ∈ pool.partTxs part ↔
      ∃ (sender : Address) (queue : SenderQueue), pool.bySender[sender]? = some queue ∧
        tx ∈ part queue := by
  rw [partTxs, mem_flatMap]
  constructor
  · rintro ⟨queue, hq, htx⟩
    obtain ⟨sender, hs⟩ := OrderedMap.mem_values.1 hq
    exact ⟨sender, queue, hs, htx⟩
  · rintro ⟨sender, queue, hs, htx⟩
    exact ⟨queue, OrderedMap.mem_values.2 ⟨sender, hs⟩, htx⟩

variable {P : Platform} {pool : PoolInner} {S : Set OrderedTransaction}

/-! ### Evicting -/

/-- A part of the queues, and the counter of the transactions in it. -/
structure IsPart (part : SenderQueue → List OrderedTransaction) (count : PoolInner → ℕ) : Prop where
  sublist : ∀ queue : SenderQueue, (part queue).Sublist queue.txs
  count_eq : ∀ {pool : PoolInner}, pool.updateCounts = pool →
    count pool = (pool.partTxs part).length

theorem isPart_pending : IsPart (·.pending) (·.pendingCount) where
  sublist queue := sublist_append_left _ _
  count_eq {pool} hc := by
    rw [partTxs, length_flatMap]
    exact (congrArg pendingCount hc).symm

theorem isPart_queued : IsPart (·.queued) (·.queuedCount) where
  sublist queue := sublist_append_right _ _
  count_eq {pool} hc := by
    rw [partTxs, length_flatMap]
    exact (congrArg queuedCount hc).symm

theorem Represents.evict (h : pool.Represents P S) (htx : tx ∈ S) :
    (pool.removeByHash P tx.hash).updateCounts.Represents P {tx' ∈ S | tx' ≠ tx} := by
  have hset : {tx' ∈ S | tx'.hash ≠ tx.hash} = {tx' ∈ S | tx' ≠ tx} := by
    ext tx'
    refine and_congr_right fun htx' => not_congr ⟨fun hhash => ?_, fun heq => by rw [heq]⟩
    exact h.indexed.eq_of_hash_eq htx' htx hhash
  rw [← hset]
  exact h.removeByHash tx.hash

structure Evicts (P : Platform) (S : Set OrderedTransaction)
    (result : PoolInner × List OrderedTransaction) : Prop where
  represents : result.1.Represents P {tx ∈ S | tx ∉ result.2}
  nodup : result.2.Nodup
  subset : ∀ tx ∈ result.2, tx ∈ S

theorem Evicts.nil (h : pool.Represents P S) : Evicts P S (pool, []) where
  represents := by simpa using h
  nodup := nodup_nil
  subset tx htx := by cases htx

theorem Evicts.append {result : PoolInner × List OrderedTransaction} (hn : txs.Nodup)
    (hsub : ∀ tx ∈ txs, tx ∈ S) (h : Evicts P {tx ∈ S | tx ∉ txs} result) :
    Evicts P S (result.1, txs ++ result.2) where
  represents := by
    have hset : {tx ∈ {tx ∈ S | tx ∉ txs} | tx ∉ result.2} = {tx ∈ S | tx ∉ txs ++ result.2} := by
      ext tx
      simp [and_assoc]
    rw [← hset]
    exact h.represents
  nodup := hn.append h.nodup fun tx htx ha => (h.subset tx ha).2 htx
  subset tx htx := by
    rcases mem_append.1 htx with hf | hl
    · exact hsub tx hf
    · exact (h.subset tx hl).1

theorem Evicts.cons {result : PoolInner × List OrderedTransaction} (htx : tx ∈ S)
    (h : Evicts P {tx' ∈ S | tx' ≠ tx} result) : Evicts P S (result.1, tx :: result.2) := by
  refine Evicts.append (nodup_singleton tx) (by simpa using htx) ?_
  simpa using h

section Loop

variable {part : SenderQueue → List OrderedTransaction} {count : PoolInner → ℕ} {max : ℕ}

theorem Represents.mem_of_partTxs (h : pool.Represents P S) (hp : IsPart part count)
    {tx : OrderedTransaction} (htx : tx ∈ pool.partTxs part) : tx ∈ S := by
  obtain ⟨sender, queue, hq, hmem⟩ := mem_partTxs.1 htx
  exact ((h.filed.mem_queue hq).1 ((hp.sublist queue).subset hmem)).1

theorem Represents.evictLowest_eq (h : pool.Represents P S) (hp : IsPart part count)
    {tx : OrderedTransaction} (hl : lowest (pool.partTxs part) = some tx) :
    pool.evictLowest P part =
      ((pool.removeByHash P tx.hash).updateCounts, some tx) := by
  have htx := h.mem_of_partTxs hp (lowest_spec hl).1
  rw [partTxs] at hl
  rw [PoolInner.evictLowest, hl]
  exact congrArg (Prod.mk _) (h.indexed.byHash_iff.2 ⟨htx, rfl⟩)

theorem evictLowest_of_nil (h : pool.partTxs part = []) :
    pool.evictLowest P part = (pool, none) := by
  rw [partTxs] at h
  rw [PoolInner.evictLowest, h]
  rfl

theorem Represents.evictWhile_evicts (h : pool.Represents P S) (hp : IsPart part count)
    (exceeds : PoolInner → Bool) (fuel : ℕ) :
    Evicts P S (pool.evictWhile exceeds (PoolInner.evictLowest P part) fuel) := by
  induction fuel generalizing pool S with
  | zero => exact .nil h
  | succ fuel ih =>
    rw [PoolInner.evictWhile]
    split
    swap
    · exact .nil h
    cases hl : lowest (pool.partTxs part) with
    | none =>
      rw [evictLowest_of_nil (lowest_eq_none_iff.1 hl)]
      exact .nil h
    | some tx =>
      have htx := h.mem_of_partTxs hp (lowest_spec hl).1
      rw [h.evictLowest_eq hp hl]
      exact .cons htx (ih (h.evict htx))

theorem evictLoop_of_le (hle : count pool ≤ max) :
    pool.evictLoop (fun inner => count inner > max) (PoolInner.evictLowest P part) =
      (pool, []) := by
  rw [evictLoop_eq]
  simp only [gt_iff_lt, decide_eq_true_eq]
  rw [if_neg (Nat.not_lt.2 hle)]

theorem Represents.evictLoop_of_lt (h : pool.Represents P S) (hp : IsPart part count)
    (hlt : max < count pool) : ∃ tx, lowest (pool.partTxs part) = some tx ∧
      pool.evictLoop (fun inner => count inner > max) (PoolInner.evictLowest P part) =
        ((PoolInner.evictLoop (fun inner => count inner > max) (PoolInner.evictLowest P part)
            (pool.removeByHash P tx.hash).updateCounts).1,
          tx :: (PoolInner.evictLoop (fun inner => count inner > max)
            (PoolInner.evictLowest P part)
            (pool.removeByHash P tx.hash).updateCounts).2) := by
  cases hl : lowest (pool.partTxs part) with
  | none =>
    rw [hp.count_eq h.counted, lowest_eq_none_iff.1 hl] at hlt
    cases hlt
  | some tx =>
    refine ⟨tx, rfl, ?_⟩
    rw [evictLoop_eq, h.evictLowest_eq hp hl]
    simp only [gt_iff_lt, decide_eq_true_eq]
    rw [if_pos hlt]

theorem Represents.le_of_evictLoop_nil (h : pool.Represents P S) (hp : IsPart part count)
    (hnil : (pool.evictLoop (fun inner => count inner > max)
      (PoolInner.evictLowest P part)).2 = []) : count pool ≤ max := by
  by_contra hgt
  obtain ⟨tx, -, hl⟩ := h.evictLoop_of_lt hp (Nat.not_le.1 hgt)
  rw [hl] at hnil
  cases hnil

end Loop

section Excess

variable {config : PoolConfig} {tx : OrderedTransaction}

theorem Represents.evictExcess_evicts (h : pool.Represents P S) (config : PoolConfig) :
    Evicts P S (pool.evictExcess P config) := by
  have hp := h.evictWhile_evicts isPart_pending
    (fun inner => inner.pendingCount > config.maxPendingTxs) (pool.byHash.size + 1)
  exact .append hp.nodup hp.subset (hp.represents.evictWhile_evicts isPart_queued
    (fun inner => inner.queuedCount > config.maxQueuedTxs) (_ + 1))

theorem evictExcess_of_le (hp : pool.pendingCount ≤ config.maxPendingTxs)
    (hq : pool.queuedCount ≤ config.maxQueuedTxs) :
    pool.evictExcess P config = (pool, []) := by
  rw [PoolInner.evictExcess, evictLowestPending, evictLoop_of_le hp]
  dsimp only
  rw [evictLowestQueued, evictLoop_of_le hq]
  rfl

theorem Represents.evictExcess_of_lowest (h : pool.Represents P S)
    (hlt : config.maxPendingTxs < pool.pendingCount)
    (hl : lowest (pool.partTxs (·.pending)) = some tx)
    (hp : (pool.removeByHash P tx.hash).updateCounts.pendingCount ≤
      config.maxPendingTxs)
    (hq : (pool.removeByHash P tx.hash).updateCounts.queuedCount ≤
      config.maxQueuedTxs) :
    pool.evictExcess P config =
      ((pool.removeByHash P tx.hash).updateCounts, [tx]) := by
  obtain ⟨tx', hl', hlp⟩ := h.evictLoop_of_lt isPart_pending hlt
  obtain rfl := Option.some.inj (hl.symm.trans hl')
  rw [PoolInner.evictExcess, evictLowestPending, hlp, evictLoop_of_le hp]
  dsimp only
  rw [evictLowestQueued, evictLoop_of_le hq]
  rfl

theorem Represents.evictExcess_singleton (h : pool.Represents P S)
    (hone : (pool.evictExcess P config).2 = [tx]) :
    (lowest (pool.partTxs (·.pending)) = some tx ∧
      (pool.removeByHash P tx.hash).updateCounts.pendingCount ≤ config.maxPendingTxs ∧
      (pool.removeByHash P tx.hash).updateCounts.queuedCount ≤ config.maxQueuedTxs) ∨
    (config.maxQueuedTxs < pool.queuedCount ∧
      lowest (pool.partTxs (·.queued)) = some tx) := by
  rw [PoolInner.evictExcess, evictLowestPending] at hone
  rcases Nat.lt_or_ge config.maxPendingTxs pool.pendingCount with hlt | hge
  · obtain ⟨first, hl, hlp⟩ := h.evictLoop_of_lt isPart_pending hlt
    have he := h.evict (h.mem_of_partTxs isPart_pending (lowest_spec hl).1)
    rw [hlp] at hone
    obtain ⟨rfl, hr⟩ := cons.inj hone
    obtain ⟨hp, hq⟩ := append_eq_nil_iff.1 hr
    have hle := he.le_of_evictLoop_nil isPart_pending hp
    rw [evictLoop_of_le hle] at hq
    exact .inl ⟨hl, hle, he.le_of_evictLoop_nil isPart_queued hq⟩
  · rw [evictLoop_of_le hge] at hone
    dsimp only at hone
    rw [nil_append, evictLowestQueued] at hone
    rcases Nat.lt_or_ge config.maxQueuedTxs pool.queuedCount with hlt | hge'
    · obtain ⟨first, hl, hlp⟩ := h.evictLoop_of_lt isPart_queued hlt
      rw [hlp] at hone
      obtain ⟨rfl, -⟩ := cons.inj hone
      exact .inr ⟨hlt, hl⟩
    · rw [evictLoop_of_le hge'] at hone
      cases hone

end Excess

end PoolInner

/-! ### Filing in a queue -/

namespace SenderQueue

variable {self : SenderQueue} {sender : Address} {tx : OrderedTransaction}

theorem eq_add_of_eq_nextPendingNonce (hnonce : tx.nonce < U64_MAX)
    (hn : tx.nonce = self.nextPendingNonce) :
    tx.nonce = self.nextNonce + self.pending.length := by
  rw [nextPendingNonce] at hn
  omega

theorem WellFormed.nextNonce_add_le (h : self.WellFormed sender) (hne : self.txs ≠ []) :
    self.nextNonce + self.pending.length ≤ U64_MAX := by
  rcases Nat.eq_zero_or_pos self.pending.length with hzero | hpos
  · obtain ⟨tx, htx⟩ := exists_mem_of_ne_nil _ hne
    have hb := h.below tx htx
    have hge := h.nonces.start_le_key htx
    omega
  · have hl : self.pending.length - 1 < self.pending.length := by omega
    have hget := getElem?_eq_getElem hl
    have hkey := h.nonces.key_of_getElem? hget
    have hb := h.below _ (mem_append_left _ (mem_of_getElem? hget))
    omega

theorem insert_next (hnonce : tx.nonce < U64_MAX) (hn : tx.nonce = self.nextPendingNonce) :
    ∃ promoted rest, self.queued = promoted ++ rest ∧ self.insert tx =
      ({ self with pending := self.pending ++ tx :: promoted, queued := rest }, none) := by
  have hsum := eq_add_of_eq_nextPendingNonce hnonce hn
  obtain ⟨promoted, rest, hq, hp⟩ :=
    promote_eq self.nextNonce (self.pending ++ [tx]) self.queued
  refine ⟨promoted, rest, hq, ?_⟩
  rw [SenderQueue.insert, if_neg (by omega), if_pos hn, promoteQueued, hp, append_assoc,
    singleton_append]

theorem insert_eq_none (h : (self.insert tx).2 = none) : tx.nonce = self.nextPendingNonce ∨
    (insertQueued tx self.queued).2 = none ∧
      self.insert tx = ({ self with queued := (insertQueued tx self.queued).1 }, none) := by
  rcases self.insert_cases tx with ⟨-, hi⟩ | ⟨-, hn, -⟩ | ⟨-, -, hi⟩ |
    ⟨-, -, existing, -, -, hi⟩
  · rw [hi] at h
    cases h
  · exact .inl hn
  · rw [hi] at h ⊢
    exact .inr ⟨h, by rw [← h]⟩
  · rw [hi] at h
    cases h

theorem WellFormed.removeByHash_insert_next (h : self.WellFormed sender)
    (hnonce : tx.nonce < U64_MAX) (hn : tx.nonce = self.nextPendingNonce)
    (hhash : ∀ tx' ∈ self.txs, tx'.hash ≠ tx.hash) :
    (self.insert tx).1.removeByHash tx.hash = self := by
  obtain ⟨promoted, rest, hq, hi⟩ := insert_next hnonce hn
  have hidx : (self.pending ++ tx :: promoted).findIdx? (fun tx' => tx'.hash = tx.hash) =
      some self.pending.length := by
    have hnone : self.pending.findIdx? (fun tx' => tx'.hash = tx.hash) = none := by
      refine findIdx?_eq_none_iff.2 fun tx' htx' => decide_eq_false ?_
      exact hhash tx' (mem_append_left _ htx')
    rw [findIdx?_append, hnone, findIdx?_cons, decide_eq_true rfl]
    simp
  have ht : (self.pending ++ tx :: promoted).take self.pending.length = self.pending :=
    take_left
  have hd : (self.pending ++ tx :: promoted).drop (self.pending.length + 1) = promoted := by
    rw [← drop_drop, drop_left]
    rfl
  -- what was promoted goes back to its place among the queued ones
  have hs : (rest ++ promoted).insertionSort (fun tx tx' => tx.nonce ≤ tx'.nonce) =
      self.queued := by
    have hp : ((rest ++ promoted).insertionSort (fun tx tx' => tx.nonce ≤ tx'.nonce)).Perm
        self.queued := by
      rw [hq]
      exact (perm_insertionSort _ _).trans perm_append_comm
    refine List.Perm.eq_of_pairwise (fun a b ha hb hab hba => ?_) (pairwise_insertionSort _ _)
      (h.nonces.rest_sorted.imp Nat.le_of_lt) hp
    exact h.nonces.eq_of_key_eq (mem_append_right _ (hp.subset ha))
      (mem_append_right _ hb) (Nat.le_antisymm hab hba)
  rw [hi, SenderQueue.removeByHash]
  dsimp only
  rw [hidx]
  dsimp only
  rw [ht, hd, hs]

/-- The queued transaction follows the new one without a gap. -/
def Follows (self : SenderQueue) (tx tx' : OrderedTransaction) : Prop :=
  tx' ∈ self.queued ∧
    ∀ nonce, tx.nonce < nonce → nonce ≤ tx'.nonce → ∃ q ∈ self.queued, q.nonce = nonce

theorem WellFormed.mem_pending_insert_next (h : self.WellFormed sender)
    (hnonce : tx.nonce < U64_MAX) (hn : tx.nonce = self.nextPendingNonce)
    {tx' : OrderedTransaction} : tx' ∈ (self.insert tx).1.pending ↔
      tx' = tx ∨ tx' ∈ self.pending ∨ self.Follows tx tx' := by
  have hsum := eq_add_of_eq_nextPendingNonce hnonce hn
  obtain ⟨promoted, rest, hqd, hi⟩ := insert_next hnonce hn
  have hrun := h.maximalRun_insert hnonce
  rw [hi] at hrun ⊢
  dsimp only at hrun ⊢
  have hln : (self.pending ++ tx :: promoted).length =
      self.pending.length + (promoted.length + 1) := by
    rw [length_append, length_cons]
  have hf : tx' ∈ promoted ↔ self.Follows tx tx' := by
    constructor
    · intro hmem
      refine ⟨hqd ▸ mem_append_left _ hmem, fun nonce hgt hle => ?_⟩
      have hlt := (hrun.key_of_mem_run (mem_append_right _
        (mem_cons_of_mem tx hmem))).2
      -- the nonces of the new run have no gap
      have hkey : nonce ∈ (self.pending ++ tx :: promoted).map (·.nonce) := by
        rw [hrun.run_keys, mem_range'_1]
        omega
      obtain ⟨q, hq, rfl⟩ := mem_map.1 hkey
      rcases mem_append.1 hq with hpn | hl
      · have hb := (h.nonces.key_of_mem_run hpn).2
        omega
      · rcases mem_cons.1 hl with rfl | hp
        · omega
        · exact ⟨q, hqd ▸ mem_append_left _ hp, rfl⟩
    · rintro ⟨hmem, hg⟩
      rw [hqd] at hmem
      rcases mem_append.1 hmem with hp | hr
      · exact hp
      · -- the nonce after the new run is missing
        have hgt := hrun.rest_gt hr
        obtain ⟨q, hq, hkey⟩ := hg
          (self.nextNonce + (self.pending ++ tx :: promoted).length) (by omega) (by omega)
        rw [hqd] at hq
        rcases mem_append.1 hq with hq | hq
        · have hlt := (hrun.key_of_mem_run (mem_append_right _ (mem_cons_of_mem tx hq))).2
          omega
        · have hgt' := hrun.rest_gt hq
          omega
  rw [mem_append, mem_cons, hf]
  exact or_left_comm

theorem insertQueued_eq_self_iff {queued : List OrderedTransaction}
    (hs : queued.Pairwise fun tx tx' => tx.nonce < tx'.nonce) (hnew : tx ∉ queued) :
    (insertQueued tx queued).2 = some tx ↔
      ∃ old ∈ queued, old.nonce = tx.nonce ∧ tx.effectiveGasPrice ≤ old.effectiveGasPrice := by
  induction queued with
  | nil => simp [insertQueued]
  | cons existing queued ih =>
    obtain ⟨hf, hr⟩ := pairwise_cons.1 hs
    obtain ⟨hne, hnew⟩ := not_or.1 (mt mem_cons.2 hnew)
    have hl : ∀ old ∈ queued, existing.nonce < old.nonce := hf
    rw [insertQueued]
    split_ifs with hlt heq hp
    · refine (ih hr hnew).trans ?_
      rw [exists_mem_cons_iff]
      refine ⟨.inr, fun hor => hor.resolve_left ?_⟩
      rintro ⟨heq, -⟩
      omega
    · refine iff_of_false (fun heq => hne (Option.some.inj heq).symm) ?_
      rintro ⟨old, hold, hnonce, hle⟩
      rcases mem_cons.1 hold with rfl | hold
      · omega
      · have hlt := hl old hold
        omega
    · exact iff_of_true rfl ⟨existing, mem_cons_self, heq, Nat.not_lt.1 hp⟩
    · refine iff_of_false (fun heq => by cases heq) ?_
      rintro ⟨old, hold, hnonce, -⟩
      rcases mem_cons.1 hold with rfl | hold
      · exact heq hnonce
      · have hlt := hl old hold
        omega

theorem WellFormed.insert_eq_self_iff (h : self.WellFormed sender) (hnonce : tx.nonce < U64_MAX)
    (hlow : self.nextNonce ≤ tx.nonce) (hnew : tx ∉ self.txs) :
    (self.insert tx).2 = some tx ↔ ∃ old ∈ self.txs, old.nonce = tx.nonce ∧
      tx.effectiveGasPrice ≤ old.effectiveGasPrice := by
  rcases self.insert_cases tx with ⟨hlow' | ⟨hb, hd⟩, hi⟩ | ⟨-, hn, hi⟩ |
    ⟨-, hgap, hi⟩ | ⟨-, hb, existing, he, hp, hi⟩
  · omega
  · -- the pending one with its nonce pays as much
    rw [nextPendingNonce] at hb
    have hidx : tx.nonce - self.nextNonce < self.pending.length := by omega
    have he := getElem?_eq_getElem hidx
    have hkey := h.nonces.key_of_getElem? he
    rw [hi]
    exact iff_of_true rfl ⟨_, mem_append_left _ (mem_of_getElem? he), by omega,
      hd _ he⟩
  · -- no transaction has the next nonce
    have hsum := eq_add_of_eq_nextPendingNonce hnonce hn
    rw [hi]
    refine iff_of_false (fun heq => by cases heq) ?_
    rintro ⟨old, hold, heq, -⟩
    rcases mem_append.1 hold with hold | hold
    · have hlt := (h.nonces.key_of_mem_run hold).2
      omega
    · have hgt := h.nonces.rest_gt hold
      omega
  · rw [hi]
    refine (insertQueued_eq_self_iff h.nonces.rest_sorted
      fun hmem => hnew (mem_append_right _ hmem)).trans ?_
    constructor
    · rintro ⟨old, hold, heq⟩
      exact ⟨old, mem_append_right _ hold, heq⟩
    · rintro ⟨old, hold, heq, hle⟩
      rcases mem_append.1 hold with hold | hold
      · have hlt := (h.nonces.key_of_mem_run hold).2
        rw [nextPendingNonce] at hgap
        omega
      · exact ⟨old, hold, heq, hle⟩
  · have hkey := h.nonces.key_of_getElem? he
    have hmem : existing ∈ self.txs := mem_append_left _ (mem_of_getElem? he)
    rw [hi]
    refine iff_of_false (fun heq => hnew (Option.some.inj heq ▸ hmem)) ?_
    rintro ⟨old, hold, heq, hle⟩
    obtain rfl := h.nonces.eq_of_key_eq hold hmem (heq.trans (by omega))
    omega

theorem WellFormed.nonce_ne_of_insert_eq_none (h : self.WellFormed sender)
    (hnonce : tx.nonce < U64_MAX) (hnew : tx ∉ self.txs) (hnone : (self.insert tx).2 = none)
    {old : OrderedTransaction} (hold : old ∈ self.txs) : old.nonce ≠ tx.nonce := by
  intro heq
  have hmem : ∀ tx', tx' = tx ∨ tx' ∈ self.txs → tx' ∈ (self.insert tx).1.txs := fun tx' htx' =>
    (mem_insert_iff h.nodup hnew).2 ⟨htx', by rw [hnone]; simp⟩
  have hs := (h.maximalRun_insert hnonce).eq_of_key_eq (hmem old (.inr hold))
    (hmem tx (.inl rfl)) heq
  exact hnew (hs ▸ hold)

end SenderQueue

/-! ### Filing in the pool -/

namespace PoolInner

variable {P : Platform} {pool : PoolInner} {S : Set OrderedTransaction} {tx : OrderedTransaction}

/-- The pool with a transaction that is filed and entered in the maps. -/
def entered (P : Platform) (pool : PoolInner) (tx : OrderedTransaction) : PoolInner :=
  updateCounts
    { (pool.file tx).1 with
      byHash := pool.byHash.insert tx.hash tx
      byId := pool.byId.insert (orderedTxId P tx) tx.hash }

theorem index_file (P : Platform) (pool : PoolInner) (tx : OrderedTransaction) :
    (pool.file tx).1.index P tx = pool.entered P tx := rfl

theorem getElem?_bySender_entered (P : Platform) (pool : PoolInner) (tx : OrderedTransaction)
    (sender : Address) : (pool.entered P tx).bySender[sender]? =
      if tx.sender = sender then some ((pool.queueFor tx).insert tx).1
      else pool.bySender[sender]? :=
  getElem?_setQueue pool tx.sender ((pool.queueFor tx).insert tx).1 sender

variable {part : SenderQueue → List OrderedTransaction}

theorem mem_partTxs_entered {tx' : OrderedTransaction} : tx' ∈ (pool.entered P tx).partTxs part ↔
      tx' ∈ part ((pool.queueFor tx).insert tx).1 ∨
        ∃ (sender : Address) (queue : SenderQueue), sender ≠ tx.sender ∧
          pool.bySender[sender]? = some queue ∧ tx' ∈ part queue := by
  rw [mem_partTxs]
  constructor
  · rintro ⟨sender, queue, hq, hmem⟩
    rw [getElem?_bySender_entered] at hq
    split_ifs at hq with heq
    · obtain rfl := Option.some.inj hq
      exact .inl hmem
    · exact .inr ⟨sender, queue, Ne.symm heq, hq, hmem⟩
  · rintro (hmem | ⟨sender, queue, hne, hq, hmem⟩)
    · exact ⟨tx.sender, _, by rw [getElem?_bySender_entered, if_pos rfl], hmem⟩
    · refine ⟨sender, queue, ?_, hmem⟩
      rw [getElem?_bySender_entered, if_neg (Ne.symm hne), hq]

theorem queueFor_cases (pool : PoolInner) (tx : OrderedTransaction) :
    pool.bySender[tx.sender]? = some (pool.queueFor tx) ∨
      pool.bySender[tx.sender]? = none ∧ pool.queueFor tx = SenderQueue.new tx.sender tx.nonce := by
  rw [queueFor]
  cases pool.bySender[tx.sender]? with
  | none => exact .inr ⟨rfl, rfl⟩
  | some queue => exact .inl rfl

theorem mem_partTxs_iff_queueFor (tx : OrderedTransaction)
    (hp : part (SenderQueue.new tx.sender tx.nonce) = []) {tx' : OrderedTransaction} :
    tx' ∈ pool.partTxs part ↔ tx' ∈ part (pool.queueFor tx) ∨
      ∃ (sender : Address) (queue : SenderQueue), sender ≠ tx.sender ∧
        pool.bySender[sender]? = some queue ∧ tx' ∈ part queue := by
  rw [mem_partTxs]
  constructor
  · rintro ⟨sender, queue, hq, hmem⟩
    by_cases heq : sender = tx.sender
    · subst heq
      rw [queueFor, hq]
      exact .inl hmem
    · exact .inr ⟨sender, queue, heq, hq, hmem⟩
  · rintro (hmem | ⟨sender, queue, -, hq, hmem⟩)
    · rcases queueFor_cases pool tx with hf | ⟨-, hnew⟩
      · exact ⟨tx.sender, _, hf, hmem⟩
      · rw [hnew, hp] at hmem
        cases hmem
    · exact ⟨sender, queue, hq, hmem⟩

theorem Represents.nodup_partTxs (h : pool.Represents P S) {count : PoolInner → ℕ}
    (hp : IsPart part count) : (pool.partTxs part).Nodup := by
  rw [partTxs, OrderedMap.values_eq_map_toList, flatMap_map, nodup_flatMap]
  constructor
  · rintro ⟨sender, queue⟩ he
    have hq := ExtTreeMap.mem_toList_iff_getElem?_eq_some.1 he
    exact (h.filed.wellFormed hq).nodup.sublist (hp.sublist queue)
  · refine ExtTreeMap.distinct_keys_toList.imp_of_mem fun {entry entry'} he he' hne => ?_
    have ho : ∀ {entry : Address × SenderQueue}, entry ∈ pool.bySender.toList →
        ∀ tx ∈ part entry.2, tx.sender = entry.1 := fun hmem tx htx =>
      (h.filed.wellFormed (ExtTreeMap.mem_toList_iff_getElem?_eq_some.1 hmem)).owned tx
        ((hp.sublist _).subset htx)
    intro tx htx htx'
    exact hne (LawfulEqCmp.compare_eq_iff_eq.2
      ((ho he tx htx).symm.trans (ho he' tx htx')))

theorem Represents.length_partTxs_le (h : pool.Represents P S) {count : PoolInner → ℕ}
    (hp : IsPart part count) {txs : List OrderedTransaction}
    (hsub : ∀ tx ∈ pool.partTxs part, tx ∈ txs) : count pool ≤ txs.length := by
  rw [hp.count_eq h.counted]
  exact ((h.nodup_partTxs hp).subperm hsub).length_le

section Entered

variable (h : pool.Represents P S) (hnonce : tx.nonce < U64_MAX)
  (hhash : ∀ tx' ∈ S, tx'.hash ≠ tx.hash)
  (hid : ∀ tx' ∈ S, orderedTxId P tx' ≠ orderedTxId P tx)

include h hhash in
theorem Represents.notMem_queueFor : tx ∉ (pool.queueFor tx).txs := fun hmem =>
  hhash tx (((h.queueFor tx).2 tx rfl).1 hmem) rfl

include h hnonce hhash hid in
theorem Represents.entered (hnone : ((pool.queueFor tx).insert tx).2 = none) :
    (pool.entered P tx).Represents P ({tx} ∪ S) := by
  have hnew : tx ∉ S := fun htx => hhash tx htx rfl
  rcases h.file hnonce hnew with ⟨hr, -⟩ | ⟨-, hf, he⟩
  · rw [file_eq, hnone] at hr
    cases hr
  · have hi : (pool.file tx).1.Indexed P S := ⟨h.indexed.byHash_iff, h.indexed.byId_iff⟩
    rw [← index_file]
    refine represents_index hi (hf.congr fun tx' => ?_) he hhash hid
    rw [file_eq, hnone]
    simp

theorem erase_insert {β : Type} {t : ExtTreeMap B256 β} {k : B256} {v : β} (h : t[k]? = none) :
    (t.insert k v).erase k = t := by
  refine ExtTreeMap.ext_getElem? fun k' => ?_
  rw [ExtTreeMap.getElem?_erase, ExtTreeMap.getElem?_insert]
  simp only [LawfulEqCmp.compare_eq_iff_eq]
  split_ifs with heq
  · rw [← heq, h]
  · rfl

include h hnonce hhash hid in
theorem Represents.removeByHash_entered (hn : tx.nonce = (pool.queueFor tx).nextPendingNonce) :
    ((pool.entered P tx).removeByHash P tx.hash).updateCounts = pool := by
  have hget : (pool.entered P tx).byHash[tx.hash]? = some tx := ExtTreeMap.getElem?_insert_self
  have hr : ((pool.queueFor tx).insert tx).1.removeByHash tx.hash = pool.queueFor tx :=
    (h.queueFor tx).1.removeByHash_insert_next hnonce hn fun tx' htx' =>
      hhash tx' (((h.queueFor tx).2 tx' ((h.queueFor tx).1.owned tx' htx')).1 htx')
  have hbyHash : ((pool.entered P tx).removeByHash P tx.hash).byHash = pool.byHash := by
    rw [byHash_removeByHash]
    refine erase_insert (Option.eq_none_iff_forall_ne_some.2 fun tx' htx' => ?_)
    obtain ⟨hmem, heq⟩ := h.indexed.byHash_iff.1 htx'
    exact hhash tx' hmem heq
  have hbyId : ((pool.entered P tx).removeByHash P tx.hash).byId = pool.byId := by
    rw [byId_removeByHash hget]
    refine erase_insert (Option.eq_none_iff_forall_ne_some.2 fun hash htx' => ?_)
    obtain ⟨tx', hmem, heq, -⟩ := h.indexed.byId_iff.1 htx'
    exact hid tx' hmem heq
  have hbySender : ((pool.entered P tx).removeByHash P tx.hash).bySender =
      pool.bySender := by
    refine ExtTreeMap.ext_getElem? fun sender => Option.ext fun queue => ?_
    rw [PoolInner.removeByHash, hget]
    dsimp only
    rw [getElem?_bySender_entered, if_pos rfl]
    dsimp only
    rw [hr, getElem?_dropEmpty, ExtTreeMap.getElem?_insert, getElem?_bySender_entered]
    simp only [LawfulEqCmp.compare_eq_iff_eq]
    split_ifs with heq
    · -- a queue that was made for the transaction is dropped again
      subst heq
      rcases queueFor_cases pool tx with hf | ⟨hnone, hm⟩
      · rw [hf]
        refine and_iff_left_of_imp fun hq _ hnil => ?_
        exact h.nonempty tx.sender queue (hf.trans hq) hnil
      · rw [hnone, hm]
        refine iff_of_false (fun hq => ?_) fun hq => by cases hq
        obtain rfl := Option.some.inj hq.1
        exact hq.2 rfl rfl
    · exact and_iff_left fun hs => absurd hs heq
  rw [updateCounts_congr hbyHash hbyId hbySender, h.counted]

include h hnonce hhash in
theorem Represents.insertionTarget_eq (hnone : ((pool.queueFor tx).insert tx).2 = none) :
    insertionTarget pool.bySender[tx.sender]? tx =
      if tx.nonce = (pool.queueFor tx).nextPendingNonce then .pending else .queued := by
  rcases queueFor_cases pool tx with hf | ⟨hf, hm⟩
  · rw [hf, insertionTarget]
    have hwf := (h.queueFor tx).1
    have he : existingNonceTx (pool.queueFor tx) tx.nonce = none := by
      refine find?_eq_none.2 fun old hold => ?_
      rw [decide_eq_true_eq]
      exact hwf.nonce_ne_of_insert_eq_none hnonce (h.notMem_queueFor hhash) hnone hold
    -- a queue that is not empty is below the largest nonce
    have hsum : (pool.queueFor tx).nextNonce + (pool.queueFor tx).pending.length ≤ U64_MAX :=
      hwf.nextNonce_add_le fun hnil => h.nonempty tx.sender _ hf hnil
    have hmod : ((pool.queueFor tx).nextNonce + (pool.queueFor tx).pending.length) %
        (U64_MAX + 1) = (pool.queueFor tx).nextPendingNonce := by
      rw [Nat.mod_eq_of_lt (Nat.lt_succ_of_le hsum), SenderQueue.nextPendingNonce,
        Nat.min_eq_left hsum]
    rw [he, hmod]
    rfl
  · rw [hf, hm, insertionTarget, SenderQueue.nextPendingNonce]
    exact (if_pos (Nat.min_eq_left hnonce.le).symm).symm

end Entered

/-! ### Rejected transactions -/

theorem exists_cheaper {max count : ℕ} (hc : count = (pool.partTxs part).length)
    (hf : max ≤ count) (hok : rejectWhenFull max count (pool.bySender.values.flatMap fun queue =>
      (part queue).map (·.effectiveGasPrice)).min? tx = .ok ()) :
    ∃ tx' ∈ pool.partTxs part, tx'.effectiveGasPrice < tx.effectiveGasPrice := by
  have hpr : (pool.bySender.values.flatMap fun queue =>
      (part queue).map (·.effectiveGasPrice)) =
        (pool.partTxs part).map (·.effectiveGasPrice) := (map_flatMap).symm
  rw [hpr, rejectWhenFull.eq_def] at hok
  split_ifs at hok with hzero
  split at hok
  · next price hp =>
    split_ifs at hok with hch
    obtain ⟨tx', htx', rfl⟩ := mem_map.1 (min?_mem hp)
    exact ⟨tx', htx', by omega⟩
  · next hp =>
    rw [min?_eq_none_iff, map_eq_nil_iff] at hp
    rw [hp] at hc
    rw [hc, length_nil] at hf
    exact absurd (Nat.le_zero.1 hf) hzero

/-- The transaction passes the checks that are made before it is filed. -/
structure Admitted (P : Platform) (config : PoolConfig) (pool : PoolInner)
    (tx : OrderedTransaction) : Prop where
  hash_new : pool.byHash[tx.hash]? = none
  id_new : pool.byId[orderedTxId P tx]? = none
  sender : pool.checkSender config tx (insertionTarget pool.bySender[tx.sender]? tx) = .ok ()
  room : pool.rejectUnderpricedWhenFull config tx
    (insertionTarget pool.bySender[tx.sender]? tx) = .ok ()
  /-- It pays more than one that it replaces. -/
  dearer : ∀ old ∈ (pool.queueFor tx).txs, old.nonce = tx.nonce →
    old.effectiveGasPrice < tx.effectiveGasPrice

/-- It has its sender's next nonce, the pool is within limits without it, and all pending rank above
it. -/
structure Outranked (config : PoolConfig) (pool : PoolInner) (tx : OrderedTransaction) : Prop where
  next : tx.nonce = (pool.queueFor tx).nextPendingNonce
  pending_lt : pool.pendingCount < config.maxPendingTxs
  queued_le : pool.queuedCount ≤ config.maxQueuedTxs
  lowest : ∀ tx', tx' ∈ pool.partTxs (·.pending) ∨ (pool.queueFor tx).Follows tx tx' →
    tx.evictionCmp tx' = .lt

/-- The transactions of a sender in one part of its queue. -/
def partOf (pool : PoolInner) (part : SenderQueue → List OrderedTransaction) (sender : Address) :
    List OrderedTransaction :=
  (pool.bySender[sender]?).elim [] part

structure Unchanged (pool pool' : PoolInner) : Prop where
  pooled : ∀ tx, pool'.Pooled tx ↔ pool.Pooled tx
  pending : ∀ sender, pool'.partOf (·.pending) sender = pool.partOf (·.pending) sender
  queued : ∀ sender, pool'.partOf (·.queued) sender = pool.partOf (·.queued) sender

section Rejected

variable {config : PoolConfig} {A : Alloy} (h : pool.Represents P S) (hnonce : tx.nonce < U64_MAX)

theorem nextNonce_le_of_checkSender {target : InsertionTarget}
    (hs : pool.checkSender config tx target = .ok ()) :
    (pool.queueFor tx).nextNonce ≤ tx.nonce := by
  rcases queueFor_cases pool tx with hf | ⟨-, hm⟩
  · rw [checkSender, hf] at hs
    dsimp only at hs
    split_ifs at hs with hlow
    exact Nat.not_lt.1 hlow
  · rw [hm]
    exact Nat.le_refl tx.nonce

include h hnonce in
theorem Represents.admitted_iff (hc : pool.Checked P config tx) :
    pool.Admitted P config tx ↔ ((pool.queueFor tx).insert tx).2 ≠ some tx := by
  rw [Ne, (h.queueFor tx).1.insert_eq_self_iff hnonce
    (nextNonce_le_of_checkSender hc.sender) (h.notMem_queueFor (h.fresh hc).1)]
  constructor
  · rintro ha ⟨old, hold, heq, hle⟩
    have hlt := ha.dearer old hold heq
    omega
  · intro hnone
    refine ⟨hc.hash_new, hc.id_new, hc.sender, hc.room,
      fun old hold heq => ?_⟩
    by_contra hle
    exact hnone ⟨old, hold, heq, Nat.not_lt.1 hle⟩

include h hnonce in
theorem Represents.add_cases :
    ¬ pool.Admitted P config tx ∧ (pool.add P A config tx).1 = pool ∨
    pool.Admitted P config tx ∧
      ((∀ tx' ∈ S, tx'.hash ≠ tx.hash) ∧ ∀ tx' ∈ S, orderedTxId P tx' ≠ orderedTxId P tx) ∧
      (((pool.queueFor tx).insert tx).2 = none ∧ pool.add P A config tx =
          added A [] tx (PoolInner.evictExcess P config (pool.entered P tx)) ∨
        ∃ replaced ∈ S, ((pool.queueFor tx).insert tx).2 = some replaced ∧
          ∃ inner, inner.Represents P ({tx} ∪ {tx' ∈ S | tx'.hash ≠ replaced.hash}) ∧
            pool.add P A config tx = added A [.txEvicted replaced.hash "replaced"] tx
              (PoolInner.evictExcess P config inner)) := by
  rcases PoolInner.add_cases P A config pool tx with ⟨hnot, err, hadd⟩ | ⟨hc, hnone, hadd⟩ |
    ⟨hc, replaced, hb, hs, hadd⟩ | ⟨hc, replaced, hb, hne, hadd⟩
  · refine .inl ⟨fun ha => hnot ?_, by rw [hadd]⟩
    exact ⟨ha.hash_new, ha.id_new, ha.sender, ha.room⟩
  all_goals obtain ⟨hhash, hid⟩ := h.fresh hc
  · rw [file_snd] at hnone
    refine .inr ⟨(h.admitted_iff hnonce hc).2 (by rw [hnone]; simp), ⟨hhash, hid⟩,
      .inl ⟨hnone, ?_⟩⟩
    rw [hadd, enter_eq, index_file]
  · -- it is refused because of one that pays as much
    rw [file_snd] at hb
    have hself : ((pool.queueFor tx).insert tx).2 = some tx := by
      rcases SenderQueue.displaced hb with rfl | hmem
      · exact hb
      · have hr : replaced ∈ S :=
          ((h.queueFor tx).2 replaced ((h.queueFor tx).1.owned replaced hmem)).1 hmem
        exact absurd hs (hhash replaced hr)
    refine .inl ⟨fun ha => (h.admitted_iff hnonce hc).1 ha hself, ?_⟩
    rw [hadd]
    exact file_of_refused (h.notMem_queueFor hhash) hself
  · have hself : ((pool.queueFor tx).insert tx).2 ≠ some tx := by
      rw [← file_snd, hb]
      exact fun heq => hne (congrArg _ (Option.some.inj heq))
    rcases h.file hnonce fun htx => hhash tx htx rfl with ⟨hrf, -⟩ | ⟨hold, hf, he⟩
    · rw [file_snd] at hrf
      exact absurd hrf hself
    · have hr : replaced ∈ S := hold replaced hb
      have hi : (pool.file tx).1.Indexed P S := ⟨h.indexed.byHash_iff, h.indexed.byId_iff⟩
      rw [hb] at hf
      refine .inr ⟨(h.admitted_iff hnonce hc).2 hself, ⟨hhash, hid⟩,
        .inr ⟨replaced, hr, by rw [← file_snd, hb], _, ?_, by rw [hadd, enter_eq]⟩⟩
      exact represents_replace hi hr hf he hhash hid

theorem mem_of_added_error {replaced : List MempoolEvent}
    {result : PoolInner × List OrderedTransaction} {e : TxPoolError}
    (hr : Evicts P ({tx} ∪ S) result) (hhash : ∀ tx' ∈ S, tx'.hash ≠ tx.hash)
    (he : (added A replaced tx result).2.2 = .error e) : tx ∈ result.2 := by
  rw [added] at he
  dsimp only at he
  split_ifs at he with hev
  obtain ⟨tx', htx', heq⟩ := any_eq_true.1 hev
  rcases hr.subset tx' htx' with rfl | hmem
  · exact htx'
  · exact absurd (of_decide_eq_true heq) (hhash tx' hmem)

theorem not_isLE_of_gt {tx' : OrderedTransaction} (h : tx'.evictionCmp tx = .lt) :
    ¬ (tx.evictionCmp tx').isLE = true := by
  rw [OrientedCmp.gt_of_lt h]
  exact Bool.false_ne_true

section Filed

variable (hhash : ∀ tx' ∈ S, tx'.hash ≠ tx.hash)
  (hid : ∀ tx' ∈ S, orderedTxId P tx' ≠ orderedTxId P tx)
  (hnone : ((pool.queueFor tx).insert tx).2 = none)

include h hnonce in
theorem Represents.mem_pending_entered (hn : tx.nonce = (pool.queueFor tx).nextPendingNonce)
    {tx' : OrderedTransaction} : tx' ∈ (pool.entered P tx).partTxs (·.pending) ↔
      tx' = tx ∨ tx' ∈ pool.partTxs (·.pending) ∨ (pool.queueFor tx).Follows tx tx' := by
  rw [mem_partTxs_entered, mem_partTxs_iff_queueFor tx rfl,
    (h.queueFor tx).1.mem_pending_insert_next hnonce hn]
  exact or_assoc.trans (or_congr_right or_right_comm)

include h hnonce hhash hid hnone in
theorem Represents.outranked_of_singleton (ha : pool.Admitted P config tx)
    (hone : ((pool.entered P tx).evictExcess P config).2 = [tx]) :
    pool.Outranked config tx := by
  have he := h.entered hnonce hhash hid hnone
  have hnew := h.notMem_queueFor hhash
  have ht := h.insertionTarget_eq hnonce hhash hnone
  have hr := ha.room
  rcases he.evictExcess_singleton hone with ⟨hl, hpn, hq⟩ | ⟨hlt, hl⟩
  · obtain ⟨hmem, hle⟩ := lowest_spec hl
    -- it is pending only if it has the next nonce
    have hn : tx.nonce = (pool.queueFor tx).nextPendingNonce := by
      refine (SenderQueue.insert_eq_none hnone).resolve_right fun ⟨_, hi⟩ => hnew ?_
      rw [mem_partTxs_entered, hi] at hmem
      rcases hmem with hmem | ⟨sender, queue, hne, hqu, hmem⟩
      · exact mem_append_left _ hmem
      · exact absurd ((h.filed.wellFormed hqu).owned tx (mem_append_left _ hmem)).symm hne
    rw [h.removeByHash_entered hnonce hhash hid hn] at hpn hq
    rw [ht, if_pos hn] at hr
    refine ⟨hn, ?_, hq, fun tx' htx' => ?_⟩
    · by_contra hfl
      obtain ⟨cheaper, hc, hp⟩ := exists_cheaper (isPart_pending.count_eq h.counted)
        (Nat.not_lt.1 hfl) hr
      exact not_isLE_of_gt (evictionCmp_of_price_lt hp)
        (hle cheaper ((h.mem_pending_entered hnonce hn).2 (.inr (.inl hc))))
    · have hmem' := (h.mem_pending_entered hnonce hn).2 (.inr htx')
      have hne : tx' ≠ tx := by
        rintro rfl
        rcases htx' with hmem | hf
        · exact hhash tx' (h.mem_of_partTxs isPart_pending hmem) rfl
        · exact hnew (mem_append_right _ hf.1)
      have hS : tx' ∈ S := (he.mem_of_partTxs isPart_pending hmem').resolve_left hne
      cases hcmp : tx.evictionCmp tx' with
      | lt => rfl
      | eq => exact absurd (hash_eq_of_evictionCmp_eq hcmp).symm (hhash tx' hS)
      | gt =>
        have hisLE := hle tx' hmem'
        rw [hcmp] at hisLE
        cases hisLE
  · -- a queued transaction is admitted only if there is a cheaper one, which comes first
    obtain ⟨hmem, hle⟩ := lowest_spec hl
    have hgap : tx.nonce ≠ (pool.queueFor tx).nextPendingNonce := by
      intro hn
      obtain ⟨promoted, rest, hq, hi⟩ := SenderQueue.insert_next hnonce hn
      rw [mem_partTxs_entered, hi] at hmem
      rcases hmem with hmem | ⟨sender, queue, hne, hqu, hmem⟩
      · exact hnew (mem_append_right _ (hq ▸ mem_append_right _ hmem))
      · exact absurd ((h.filed.wellFormed hqu).owned tx (mem_append_right _ hmem)).symm hne
    obtain ⟨hinsertQueued, hi⟩ := (SenderQueue.insert_eq_none hnone).resolve_left hgap
    have hpr := SenderQueue.insertQueued_perm tx (pool.queueFor tx).queued
    rw [hinsertQueued] at hpr
    have hq : ∀ tx', tx' ∈ (pool.entered P tx).partTxs (·.queued) ↔
        tx' = tx ∨ tx' ∈ pool.partTxs (·.queued) := by
      intro tx'
      rw [mem_partTxs_entered, mem_partTxs_iff_queueFor tx rfl, hi]
      have hiff := hpr.mem_iff (a := tx')
      rw [mem_cons] at hiff
      exact (or_congr_left hiff).trans or_assoc
    have hcn : (pool.entered P tx).queuedCount ≤ pool.queuedCount + 1 := by
      rw [isPart_queued.count_eq h.counted]
      exact he.length_partTxs_le isPart_queued fun tx' htx' =>
        mem_cons.2 ((hq tx').1 htx')
    rw [ht, if_neg hgap] at hr
    obtain ⟨cheaper, hc, hp⟩ := exists_cheaper (isPart_queued.count_eq h.counted)
      (by omega) hr
    exact absurd (hle cheaper ((hq cheaper).2 (.inr hc)))
      (not_isLE_of_gt (evictionCmp_of_price_lt hp))

include h hnonce hhash hid in
theorem Represents.evictExcess_of_outranked (ho : pool.Outranked config tx) :
    (pool.entered P tx).evictExcess P config = (pool.entered P tx, []) ∨
      (pool.entered P tx).evictExcess P config = (pool, [tx]) := by
  have hn := ho.next
  obtain ⟨promoted, rest, hs, hi⟩ := SenderQueue.insert_next hnonce hn
  have he := h.entered hnonce hhash hid (by rw [hi])
  have hb := h.removeByHash_entered hnonce hhash hid hn
  rcases Nat.lt_or_ge config.maxPendingTxs (pool.entered P tx).pendingCount with hlt | hge
  · have hl : lowest ((pool.entered P tx).partTxs (·.pending)) = some tx := by
      obtain ⟨low, hlow, -⟩ := he.evictLoop_of_lt isPart_pending hlt
      obtain ⟨hmem, hle⟩ := lowest_spec hlow
      rcases (h.mem_pending_entered hnonce hn).1 hmem with rfl | hot
      · exact hlow
      · exact absurd (hle tx ((h.mem_pending_entered hnonce hn).2 (.inl rfl)))
          (not_isLE_of_gt (ho.lowest low hot))
    right
    have hone := he.evictExcess_of_lowest hlt hl
      (by rw [hb]; exact ho.pending_lt.le) (by rw [hb]; exact ho.queued_le)
    rwa [hb] at hone
  · left
    refine evictExcess_of_le hge (Nat.le_trans ?_ ho.queued_le)
    rw [isPart_queued.count_eq h.counted]
    refine he.length_partTxs_le isPart_queued fun tx' htx' => ?_
    rw [mem_partTxs_entered, hi] at htx'
    refine (mem_partTxs_iff_queueFor tx rfl).2 (htx'.imp_left fun hr => ?_)
    rw [hs]
    exact mem_append_right _ hr

end Filed

include h hnonce in
/-- **A rejected transaction** changes nothing iff it fails the first checks or is outranked. -/
theorem Represents.rejected_iff {e : TxPoolError}
    (her : (pool.add P A config tx).2.2 = .error e) :
    Unchanged pool (pool.add P A config tx).1 ↔
      (pool.Admitted P config tx → pool.Outranked config tx) := by
  have hs : Unchanged pool pool := ⟨fun _ => Iff.rfl, fun _ => rfl, fun _ => rfl⟩
  rcases h.add_cases hnonce with ⟨hrf, hp⟩ | ⟨ha, ⟨hhash, hid⟩, hf⟩
  · rw [hp]
    exact iff_of_true hs fun ha => absurd ha hrf
  rcases hf with ⟨hnone, hadd⟩ | ⟨replaced, hr, hi, inner, hin, hadd⟩
  · have he := (h.entered hnonce hhash hid hnone).evictExcess_evicts config
    rw [hadd] at her ⊢
    have htx := mem_of_added_error he hhash her
    rw [added_fst]
    constructor
    · intro hu _
      -- nothing that was in the pool is evicted
      have hon : ∀ tx' ∈ (PoolInner.evictExcess P config (pool.entered P tx)).2, tx' = tx := by
        intro tx' htx'
        refine (he.subset tx' htx').resolve_right fun hold => ?_
        exact (he.represents.pooled_iff.1
          ((hu.pooled tx').2 (h.pooled_iff.2 hold))).2 htx'
      refine h.outranked_of_singleton hnonce hhash hid hnone ha (perm_singleton.1 ?_)
      refine (perm_ext_iff_of_nodup he.nodup (nodup_singleton tx)).2 fun tx' => ?_
      rw [mem_singleton]
      exact ⟨hon tx', fun heq => heq ▸ htx⟩
    · intro ho
      rcases h.evictExcess_of_outranked hnonce hhash hid (ho ha) with heq | heq
      · rw [heq] at htx
        cases htx
      · rw [heq]
        exact hs
  · -- the transaction that was replaced is gone
    refine iff_of_false (fun hu => ?_) fun ho => ?_
    · have hk := (hu.pooled replaced).2 (h.pooled_iff.2 hr)
      rw [hadd, added_fst] at hk
      rcases ((hin.evictExcess_evicts config).represents.pooled_iff.1 hk).1 with
        rfl | ⟨-, hne⟩
      · exact hhash replaced hr rfl
      · exact hne rfl
    · obtain ⟨promoted, rest, -, hnone⟩ :=
        SenderQueue.insert_next hnonce (ho ha).next
      rw [hnone] at hi
      cases hi

end Rejected

end PoolInner

/-! ### A pool that is almost full -/

namespace PoolExample

/-- A transaction with its own hash and id, and a price. -/
def offer (id : ℕ) (sender : Address) (nonce price : ℕ) : OrderedTransaction where
  hash := BitVec.ofNat 256 id
  sender
  nonce
  effectiveGasPrice := price
  timestamp := 0
  envelope := [UInt8.ofNat id]

def narrow : PoolConfig := { PoolConfig.new with maxPendingTxs := 2 }

def waiting : List PoolInner.Op :=
  [.add (offer 1 0xA 0 9), .add (offer 2 0xA 1 5), .remove 1, .add (offer 3 0xA 2 6),
    .add (offer 4 0xB 0 3)]

theorem waiting_nonceBelow : ∀ op ∈ waiting, op.NonceBelow platform alloy := by
  simp only [waiting, forall_mem_cons]
  refine ⟨?_, ?_, fun tx htx => htx.elim, ?_, ?_, by simp⟩
  all_goals
    rintro tx rfl
    decide

end PoolExample

/-- **A rejected transaction changes nothing exactly if it fails the first checks or is outranked**:
it then leaves the pooled transactions and every sender's pending and queued ones as they are. -/
theorem rejected_add_iff (P : Platform) (A : Alloy) (config : PoolConfig)
    (ops : List PoolInner.Op) (hops : ∀ op ∈ ops, op.NonceBelow P A) (tx : OrderedTransaction)
    (hnonce : tx.nonce < U64_MAX) (e : TxPoolError)
    (herror : ((ops.foldl (PoolInner.step P A config) PoolInner.new).add P A config tx).2.2 =
      .error e) :
    (ops.foldl (PoolInner.step P A config) PoolInner.new).Unchanged
        ((ops.foldl (PoolInner.step P A config) PoolInner.new).add P A config tx).1 ↔
      ((ops.foldl (PoolInner.step P A config) PoolInner.new).Admitted P config tx →
        (ops.foldl (PoolInner.step P A config) PoolInner.new).Outranked config tx) := by
  obtain ⟨S, hS⟩ := PoolInner.represents_run config hops
  exact hS.rejected_iff hnonce herror

section Example

open PoolExample

/-- The cheapest transaction is evicted again, and those that it had brought up wait as before. -/
theorem rejected_add_iff_cheapest :
    (∀ op ∈ waiting, op.NonceBelow platform alloy) ∧
      (waiting.foldl (PoolInner.step platform alloy narrow) PoolInner.new).Unchanged
        ((waiting.foldl (PoolInner.step platform alloy narrow) PoolInner.new).add platform alloy
          narrow (offer 5 0xA 0 1)).1 := by
  refine ⟨waiting_nonceBelow, (rejected_add_iff platform alloy narrow waiting waiting_nonceBelow
    (offer 5 0xA 0 1) (by decide) .poolFull (by decide +kernel)).2 fun _ => ?_⟩
  have hpl : (waiting.foldl (PoolInner.step platform alloy narrow) PoolInner.new).partTxs
        (·.pending) = [offer 4 0xB 0 3] ∧
      ((waiting.foldl (PoolInner.step platform alloy narrow) PoolInner.new).queueFor
        (offer 5 0xA 0 1)).queued = [offer 2 0xA 1 5, offer 3 0xA 2 6] := by
    decide +kernel
  refine ⟨by decide +kernel, by decide +kernel, by decide +kernel, fun tx htx => ?_⟩
  have hmem : tx ∈ [offer 4 0xB 0 3, offer 2 0xA 1 5, offer 3 0xA 2 6] := by
    rcases htx with hp | hf
    · rw [hpl.1] at hp
      exact mem_append_left _ hp
    · have hq := hf.1
      rw [hpl.2] at hq
      exact mem_cons_of_mem _ hq
  have hd : ∀ tx ∈ [offer 4 0xB 0 3, offer 2 0xA 1 5, offer 3 0xA 2 6],
      (offer 5 0xA 0 1).effectiveGasPrice < tx.effectiveGasPrice := by decide
  exact evictionCmp_of_price_lt (hd tx hmem)

/-- A transaction of another sender is evicted first, and then the new one too. -/
theorem rejected_add_evicts : ¬ ∀ (P : Platform) (A : Alloy) (config : PoolConfig)
    (ops : List PoolInner.Op) (tx : OrderedTransaction) (e : TxPoolError),
    ((ops.foldl (PoolInner.step P A config) PoolInner.new).add P A config tx).2.2 = .error e →
    (ops.foldl (PoolInner.step P A config) PoolInner.new).Unchanged
      ((ops.foldl (PoolInner.step P A config) PoolInner.new).add P A config tx).1 := by
  intro h
  have hu := h platform alloy narrow waiting (offer 5 0xA 0 4) .poolFull (by decide +kernel)
  have hp : (waiting.foldl (PoolInner.step platform alloy narrow) PoolInner.new).Pooled
      (offer 4 0xB 0 3) := by
    rw [PoolInner.Pooled]
    decide +kernel
  have hg := (hu.pooled (offer 4 0xB 0 3)).2 hp
  rw [PoolInner.Pooled] at hg
  revert hg
  decide +kernel

end Example

end Kora
