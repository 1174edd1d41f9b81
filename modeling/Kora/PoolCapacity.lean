/-
The transaction pool stays within its limits.

Evicting a pending transaction moves later ones to the queued ones, and confirming a nonce
brings queued ones up, so neither number is bounded at all times. Their sum is: it grows
only when a transaction is filed, and then the eviction loops run.

* `EvictionRuns.counts_le` — after them both numbers are within the limits;
* `pool_capacity` — the limits that hold in the pools that are reached.
-/
import Kora.PoolRejection
import Mathlib.Data.Set.Card

open Std List

namespace Kora

/-! ### Queues that lose a transaction -/

theorem SenderQueue.pending_removeByHash_sublist (self : SenderQueue) (hash : B256) :
    (self.removeByHash hash).pending.Sublist self.pending := by
  rw [removeByHash]
  split
  · exact take_sublist _ _
  · split <;> exact List.Sublist.refl _

namespace PoolInner

variable {P : Platform} {pool pool' : PoolInner} {S S' : Set OrderedTransaction}

theorem mem_pending_of_removeByHash {hash : B256} {tx : OrderedTransaction}
    (h : tx ∈ (pool.removeByHash P hash).updateCounts.partTxs (·.pending)) :
    tx ∈ pool.partTxs (·.pending) := by
  obtain ⟨sender, queue, hq, htx⟩ := mem_partTxs.1 h
  obtain ⟨before, hb, hor⟩ := queue_of_removeByHash hq
  refine mem_partTxs.2 ⟨sender, before, hb, ?_⟩
  rcases hor with ⟨rfl, -⟩ | rfl
  · exact htx
  · exact (before.pending_removeByHash_sublist hash).subset htx

/-! ### The runs of the eviction loops -/

/-- One pool is the other one without a transaction. -/
structure RemovesOne (pool pool' : PoolInner) (tx : OrderedTransaction) : Prop where
  pooled : pool.Pooled tx
  pooled_iff : ∀ tx', pool'.Pooled tx' ↔ pool.Pooled tx' ∧ tx' ≠ tx

/-- A run of the eviction loop: each turn takes out one, until there is none or few enough. -/
inductive EvictionRun (exceeds : PoolInner → Bool)
    (evict : PoolInner → PoolInner × Option OrderedTransaction) :
    PoolInner → PoolInner → List OrderedTransaction → Prop
  | done {inner : PoolInner} (hdone : exceeds inner = false) :
      EvictionRun exceeds evict inner inner []
  | broken {inner inner' : PoolInner} (hexceeds : exceeds inner = true)
      (hevict : evict inner = (inner', none)) : EvictionRun exceeds evict inner inner' []
  | turn {inner next inner' : PoolInner} {tx : OrderedTransaction} {txs : List OrderedTransaction}
      (hexceeds : exceeds inner = true) (hevict : evict inner = (next, some tx))
      (hone : inner.RemovesOne next tx) (hrest : EvictionRun exceeds evict next inner' txs) :
      EvictionRun exceeds evict inner inner' (tx :: txs)

section Loop

variable {part : SenderQueue → List OrderedTransaction} {count : PoolInner → ℕ} {max : ℕ}

variable (hpart : IsPart part count)
include hpart

variable (h : pool.Represents P S)
include h

theorem Represents.evictLowest_cases :
    pool.partTxs part = [] ∧ pool.evictLowest P part = (pool, none) ∨
      ∃ tx ∈ S, pool.evictLowest P part =
        ((pool.removeByHash P tx.hash).updateCounts, some tx) := by
  cases hl : lowest (pool.partTxs part) with
  | none =>
    have hnil := lowest_eq_none_iff.1 hl
    exact .inl ⟨hnil, evictLowest_of_nil hnil⟩
  | some tx =>
    exact .inr ⟨tx, h.mem_of_partTxs hpart (lowest_spec hl).1, h.evictLowest_eq hpart hl⟩

theorem Represents.of_evictLowest_none (he : pool.evictLowest P part = (pool', none))
    : pool' = pool ∧ pool.partTxs part = [] := by
  rcases h.evictLowest_cases hpart with ⟨hnil, hs⟩ | ⟨tx, -, hsome⟩
  · exact ⟨(Prod.mk.inj (he.symm.trans hs)).1, hnil⟩
  · cases (Prod.mk.inj (hsome.symm.trans he)).2

theorem Represents.of_evictLowest_some {tx : OrderedTransaction}
    (he : pool.evictLowest P part = (pool', some tx)) :
    tx ∈ S ∧ pool'.Represents P {tx' ∈ S | tx' ≠ tx} ∧
      pool' = (pool.removeByHash P tx.hash).updateCounts := by
  rcases h.evictLowest_cases hpart with ⟨-, hs⟩ | ⟨tx', htx', hsome⟩
  · cases (Prod.mk.inj (hs.symm.trans he)).2
  · obtain ⟨rfl, hs⟩ := Prod.mk.inj (hsome.symm.trans he)
    obtain rfl := Option.some.inj hs
    exact ⟨htx', h.evict htx', rfl⟩

/-- **The loops end**: the model's loop is a run of the source's loop, without a bound. -/
theorem Represents.evictionRun (exceeds : PoolInner → Bool) :
    EvictionRun exceeds (PoolInner.evictLowest P part) pool
      (pool.evictLoop exceeds (PoolInner.evictLowest P part)).1
      (pool.evictLoop exceeds (PoolInner.evictLowest P part)).2 := by
  -- each turn makes the hash map smaller
  induction hs : pool.byHash.size using Nat.strong_induction_on generalizing pool S with
  | _ n ih =>
    rw [evictLoop_eq]
    split
    · next hex =>
      cases he : pool.evictLowest P part with
      | mk next evicted =>
        cases evicted with
        | none => exact .broken hex he
        | some tx =>
          have hl := size_evictLowest he
          obtain ⟨htx, hn, -⟩ := h.of_evictLowest_some hpart he
          refine .turn hex he ⟨h.pooled_iff.2 htx, fun tx' => ?_⟩
            (ih _ (by omega) hn rfl)
          rw [hn.pooled_iff, h.pooled_iff]
          rfl
    · next hd => exact .done (Bool.eq_false_iff.2 hd)

theorem EvictionRun.represents {exceeds : PoolInner → Bool} {txs : List OrderedTransaction}
    (hrun : EvictionRun exceeds (PoolInner.evictLowest P part) pool pool' txs) :
    (∃ S' ⊆ S, pool'.Represents P S') ∧ pool'.pendingCount ≤ pool.pendingCount := by
  induction hrun generalizing S with
  | done => exact ⟨⟨S, subset_rfl, h⟩, le_rfl⟩
  | broken hex he =>
    obtain ⟨rfl, -⟩ := h.of_evictLowest_none hpart he
    exact ⟨⟨S, subset_rfl, h⟩, le_rfl⟩
  | turn hex he hone hr ih =>
    obtain ⟨-, hn, hs⟩ := h.of_evictLowest_some hpart he
    obtain ⟨⟨S', hsub, hS'⟩, hle⟩ := ih hn
    have hf := hn.length_partTxs_le isPart_pending fun tx' htx' =>
      mem_pending_of_removeByHash (hs ▸ htx')
    rw [← isPart_pending.count_eq h.counted] at hf
    exact ⟨⟨S', hsub.trans (Set.sep_subset _ _), hS'⟩, hle.trans hf⟩

theorem EvictionRun.count_le {txs : List OrderedTransaction}
    (hrun : EvictionRun (fun inner => count inner > max) (PoolInner.evictLowest P part) pool pool'
      txs) : count pool' ≤ max := by
  induction hrun generalizing S with
  | done hd => simpa using hd
  | broken hex he =>
    -- an empty part does not have too many
    obtain ⟨rfl, hnil⟩ := h.of_evictLowest_none hpart he
    rw [hpart.count_eq h.counted, hnil]
    exact Nat.zero_le max
  | turn hex he hone hr ih => exact ih (h.of_evictLowest_some hpart he).2.1

end Loop

/-- The two loops one after the other. -/
def EvictionRuns (P : Platform) (config : PoolConfig) (pool pool' : PoolInner) : Prop :=
  ∃ inner pending queued,
    EvictionRun (fun inner => inner.pendingCount > config.maxPendingTxs) (evictLowestPending P)
      pool inner pending ∧
    EvictionRun (fun inner => inner.queuedCount > config.maxQueuedTxs) (evictLowestQueued P)
      inner pool' queued

section

variable (h : pool.Represents P S)
include h

theorem Represents.evictionRuns (config : PoolConfig) :
    EvictionRuns P config pool (pool.evictExcess P config).1 := by
  have hp := h.evictionRun isPart_pending
    fun inner => inner.pendingCount > config.maxPendingTxs
  obtain ⟨⟨S', -, hS'⟩, -⟩ := hp.represents isPart_pending h
  exact ⟨_, _, _, hp, hS'.evictionRun isPart_queued
    fun inner => inner.queuedCount > config.maxQueuedTxs⟩

theorem EvictionRuns.counts_le {config : PoolConfig} (hr : EvictionRuns P config pool pool') :
    pool'.pendingCount ≤ config.maxPendingTxs ∧ pool'.queuedCount ≤ config.maxQueuedTxs := by
  obtain ⟨inner, pending, queued, hp, hq⟩ := hr
  obtain ⟨⟨S', -, hS'⟩, -⟩ := hp.represents isPart_pending h
  have hle := hp.count_le isPart_pending h
  exact ⟨(hq.represents isPart_queued hS').2.trans hle, hq.count_le isPart_queued hS'⟩

/-! ### The numbers as sizes of sets -/

omit h in
theorem isPart_txs : IsPart (·.txs) (fun pool => pool.pendingCount + pool.queuedCount) where
  sublist queue := List.Sublist.refl _
  count_eq {pool} hc := by
    rw [partTxs, length_flatMap]
    simp only [SenderQueue.txs, length_append, sum_map_add]
    exact congrArg₂ (· + ·) (congrArg pendingCount hc).symm
      (congrArg queuedCount hc).symm

omit h in
theorem encard_setOf_mem {α : Type*} {l : List α} (hl : l.Nodup) :
    {a | a ∈ l}.encard = l.length := by
  classical
  rw [← coe_toFinset, Set.encard_coe_eq_coe_finsetCard, toFinset_card_of_nodup hl]

theorem Represents.mem_iff_partTxs {tx : OrderedTransaction} :
    tx ∈ S ↔ tx ∈ pool.partTxs (·.txs) := by
  refine ⟨fun htx => ?_, h.mem_of_partTxs isPart_txs⟩
  obtain ⟨queue, hq, hmem⟩ := h.filed.exists_queue htx
  exact mem_partTxs.2 ⟨tx.sender, queue, hq, hmem⟩

theorem Represents.encard_eq : S.encard = pool.pendingCount + pool.queuedCount := by
  have hset : S = {tx | tx ∈ pool.partTxs (·.txs)} := Set.ext fun tx => h.mem_iff_partTxs
  rw [hset, encard_setOf_mem (h.nodup_partTxs isPart_txs), ← isPart_txs.count_eq h.counted]
  norm_cast

theorem Represents.size_byHash : pool.byHash.size = pool.pendingCount + pool.queuedCount := by
  have hn := h.nodup_partTxs isPart_txs
  have hh : ((pool.partTxs (·.txs)).map (·.hash)).Nodup :=
    hn.map_on fun tx htx tx' htx' heq =>
      h.indexed.eq_of_hash_eq (h.mem_iff_partTxs.2 htx) (h.mem_iff_partTxs.2 htx') heq
  have hk : pool.byHash.keys.Perm ((pool.partTxs (·.txs)).map (·.hash)) := by
    refine (perm_ext_iff_of_nodup ExtTreeMap.nodup_keys hh).2 fun hash => ?_
    rw [ExtTreeMap.mem_keys, ExtTreeMap.mem_iff_isSome_getElem?, Option.isSome_iff_exists, mem_map]
    refine exists_congr fun tx => ?_
    rw [h.indexed.byHash_iff, h.mem_iff_partTxs]
  rw [← ExtTreeMap.length_keys, hk.length_eq, length_map, ← isPart_txs.count_eq h.counted]

theorem Represents.encard_sender (sender : Address) :
    {tx ∈ S | tx.sender = sender}.encard = (pool.txsOf sender).length := by
  have hset : {tx ∈ S | tx.sender = sender} = {tx | tx ∈ pool.txsOf sender} := by
    ext tx
    constructor
    · rintro ⟨htx, rfl⟩
      exact (h.filed.mem_iff tx).1 htx
    · intro htx
      have hs : tx.sender = sender := by
        cases hq : pool.bySender[sender]? with
        | none =>
          rw [Set.mem_ofPred_eq, txsOf_of_none hq] at htx
          cases htx
        | some queue =>
          rw [Set.mem_ofPred_eq, txsOf, hq] at htx
          exact (h.filed.wellFormed hq).owned tx htx
      refine ⟨(h.filed.mem_iff tx).2 ?_, hs⟩
      rw [hs]
      exact htx
  rw [hset]
  refine encard_setOf_mem ?_
  rw [txsOf]
  cases hq : pool.bySender[sender]? with
  | none => exact nodup_nil
  | some queue => exact (h.filed.wellFormed hq).nodup

end

/-! ### The limits that hold at all times -/

/-- The transactions are within the two limits together, and each sender within its own, or one. -/
structure Within (config : PoolConfig) (S : Set OrderedTransaction) : Prop where
  total : S.encard ≤ config.maxPendingTxs + config.maxQueuedTxs
  sender : ∀ sender : Address, {tx ∈ S | tx.sender = sender}.encard ≤
    (max 1 config.maxTxsPerSender : ℕ)

variable {config : PoolConfig} {tx : OrderedTransaction}

theorem within_empty (config : PoolConfig) : Within config ∅ where
  total := by simp
  sender sender := by simp

theorem Within.mono (h : Within config S) (hsub : S' ⊆ S) : Within config S' where
  total := (Set.encard_le_encard hsub).trans h.total
  sender sender := by
    refine (Set.encard_le_encard ?_).trans (h.sender sender)
    exact fun tx htx => ⟨hsub htx.1, htx.2⟩

theorem Represents.within_of_runs (h : pool.Represents P S) (h' : pool'.Represents P S')
    (hr : EvictionRuns P config pool pool') (hsub : S' ⊆ S)
    (hs : ∀ sender : Address, {tx ∈ S | tx.sender = sender}.encard ≤
      (max 1 config.maxTxsPerSender : ℕ)) : Within config S' where
  total := by
    obtain ⟨hp, hq⟩ := hr.counts_le h
    rw [h'.encard_eq]
    exact_mod_cast Nat.add_le_add hp hq
  sender sender := by
    refine (Set.encard_le_encard ?_).trans (hs sender)
    exact fun tx htx => ⟨hsub htx.1, htx.2⟩

theorem sep_sender_subset {S₀ : Set OrderedTransaction} (hsub : S₀ ⊆ {tx} ∪ S) {sender : Address}
    (hne : sender ≠ tx.sender) :
    {tx' ∈ S₀ | tx'.sender = sender} ⊆ {tx' ∈ S | tx'.sender = sender} := by
  rintro tx' ⟨htx', rfl⟩
  rcases hsub htx' with rfl | hmem
  · exact absurd rfl hne
  · exact ⟨hmem, rfl⟩

theorem Represents.encard_sender_lt (h : pool.Represents P S) (hn : tx.nonce < U64_MAX)
    (hh : ∀ tx' ∈ S, tx'.hash ≠ tx.hash) (ha : pool.Admitted P config tx)
    (hnone : ((pool.queueFor tx).insert tx).2 = none) :
    {tx' ∈ S | tx'.sender = tx.sender}.encard + 1 ≤ (max 1 config.maxTxsPerSender : ℕ) := by
  rw [h.encard_sender]
  have ht : insertionTarget pool.bySender[tx.sender]? tx ≠ .replacement := by
    rw [h.insertionTarget_eq hn hh hnone]
    split <;> simp
  have hs := ha.sender
  have hle : (pool.txsOf tx.sender).length + 1 ≤ max 1 config.maxTxsPerSender := by
    rw [checkSender] at hs
    rw [txsOf]
    cases hq : pool.bySender[tx.sender]? with
    | none => simp
    | some queue =>
      rw [hq] at hs ht
      dsimp only at hs
      split_ifs at hs with hlow hf
      rw [SenderQueue.totalCount, not_and, Nat.not_le] at hf
      have hr := hf ht
      rw [Option.elim_some, SenderQueue.txs, length_append]
      omega
  exact_mod_cast hle

theorem Represents.add_within (h : pool.Represents P S) (hw : Within config S)
    (hn : tx.nonce < U64_MAX) (A : Alloy) :
    (∃ S', (pool.add P A config tx).1.Represents P S' ∧ Within config S') ∧
      (pool.Admitted P config tx → ∃ inner S', inner.Pooled tx ∧ inner.Represents P S' ∧
        EvictionRuns P config inner (pool.add P A config tx).1) := by
  rcases h.add_cases hn with ⟨hrf, hp⟩ | ⟨ha, ⟨hh, hid⟩, hf⟩
  · rw [hp]
    exact ⟨⟨S, h, hw⟩, fun ha => absurd ha hrf⟩
  -- with or without a replacement, the transaction is filed in a pool that the loops start from
  obtain ⟨inner, S₀, events, hi, hsub, htx, hadd, hown⟩ : ∃ inner S₀ events,
      inner.Represents P S₀ ∧ S₀ ⊆ {tx} ∪ S ∧ tx ∈ S₀ ∧
      pool.add P A config tx = added A events tx (PoolInner.evictExcess P config inner) ∧
      {tx' ∈ S₀ | tx'.sender = tx.sender}.encard ≤ (max 1 config.maxTxsPerSender : ℕ) := by
    rcases hf with ⟨hnone, hadd⟩ | ⟨replaced, hr, hin, inner, hi, hadd⟩
    · refine ⟨_, _, _, h.entered hn hh hid hnone, subset_rfl, .inl rfl, hadd, ?_⟩
      have hrm := h.encard_sender_lt hn hh ha hnone
      refine (Set.encard_le_encard ?_).trans ((Set.encard_insert_le _ tx).trans hrm)
      rintro tx' ⟨rfl | htx', hs⟩
      · exact .inl rfl
      · exact .inr ⟨htx', hs⟩
    · refine ⟨inner, _, _, hi, ?_, .inl rfl, hadd, ?_⟩
      · exact Set.union_subset_union_right _ (Set.sep_subset _ _)
      · have hs : replaced.sender = tx.sender := by
          rcases SenderQueue.displaced hin with rfl | hmem
          · rfl
          · exact (h.queueFor tx).1.owned replaced hmem
        have hmem : replaced ∈ {tx' ∈ S | tx'.sender = tx.sender} := ⟨hr, hs⟩
        refine LE.le.trans ?_ (hw.sender tx.sender)
        rw [← Set.encard_sdiff_singleton_add_one hmem]
        refine (Set.encard_le_encard ?_).trans (Set.encard_insert_le _ tx)
        rintro tx' ⟨rfl | ⟨htx', hne⟩, hs'⟩
        · exact .inl rfl
        · exact .inr ⟨⟨htx', hs'⟩, fun heq => hne (congrArg _ heq)⟩
  have hrn := hi.evictionRuns config
  have he := (hi.evictExcess_evicts config).represents
  rw [hadd, added_fst]
  refine ⟨⟨_, he, hi.within_of_runs he hrn (Set.sep_subset _ _) fun sender => ?_⟩,
    fun _ => ⟨inner, S₀, hi.pooled_iff.2 htx, hi, hrn⟩⟩
  by_cases heq : sender = tx.sender
  · rw [heq]
    exact hown
  · exact (Set.encard_le_encard (sep_sender_subset hsub heq)).trans (hw.sender sender)

theorem Represents.step_within (h : pool.Represents P S) (hw : Within config S) {A : Alloy}
    {op : Op} (hop : op.NonceBelow P A) :
    ∃ S', (pool.step P A config op).Represents P S' ∧ Within config S' := by
  have hf : ∀ {inner : PoolInner}, (∃ S' ⊆ S, inner.Represents P S') →
      ∃ S', inner.Represents P S' ∧ Within config S' := fun ⟨S', hsub, hS'⟩ =>
    ⟨S', hS', hw.mono hsub⟩
  cases op with
  | add tx => exact (h.add_within hw (hop tx rfl) A).1
  | insert tx now =>
    show ∃ S', (pool.insert P A config tx now).1.Represents P S' ∧ Within config S'
    rw [PoolInner.insert]
    split
    · exact ⟨S, h, hw⟩
    · next ordered ho => exact (h.add_within hw (hop ordered ho) A).1
  | remove hash => exact hf (h.remove hash)
  | removeConfirmed sender confirmedNonce =>
    exact hf ⟨_, Set.sep_subset _ _, h.removeConfirmed sender confirmedNonce⟩
  | prune txIds => exact hf ⟨_, Set.sep_subset _ _, h.prune txIds⟩
  | cleanup now => exact hf (h.cleanup config now)
  | clear => exact ⟨∅, represents_new P, within_empty config⟩

theorem within_run {A : Alloy} (config : PoolConfig) {ops : List Op}
    (hops : ∀ op ∈ ops, op.NonceBelow P A) :
    ∃ S, (ops.foldl (PoolInner.step P A config) PoolInner.new).Represents P S ∧
      Within config S := by
  induction ops using List.reverseRecOn with
  | nil => exact ⟨∅, represents_new P, within_empty config⟩
  | append_singleton ops op ih =>
    obtain ⟨S, hS, hw⟩ := ih fun op' hop' => hops op' (mem_append_left _ hop')
    rw [foldl_append]
    exact hS.step_within hw (hops op (mem_append_right _ (mem_singleton_self op)))

end PoolInner

/-- **Pool capacity.** In every pool that is reached with nonces below the largest one there are not
more transactions than the two limits allow together, nor of a sender than its limit, or one. Once a
transaction is filed both eviction loops run to their end, one transaction a turn, and leave each
half within its limit. -/
theorem pool_capacity (P : Platform) (A : Alloy) (config : PoolConfig) (ops : List PoolInner.Op)
    (hops : ∀ op ∈ ops, op.NonceBelow P A) (pool : PoolInner)
    (hpool : pool = ops.foldl (PoolInner.step P A config) PoolInner.new) :
    pool.byHash.size ≤ config.maxPendingTxs + config.maxQueuedTxs ∧
      (∀ sender, (pool.txsOf sender).length ≤ max 1 config.maxTxsPerSender) ∧
      ∀ tx, tx.nonce < U64_MAX → pool.Admitted P config tx →
        (pool.add P A config tx).1.pendingCount ≤ config.maxPendingTxs ∧
        (pool.add P A config tx).1.queuedCount ≤ config.maxQueuedTxs ∧
        ∃ inner : PoolInner, inner.Pooled tx ∧
          PoolInner.EvictionRuns P config inner (pool.add P A config tx).1 := by
  obtain ⟨S, hS, hw⟩ := PoolInner.within_run config hops
  rw [← hpool] at hS
  refine ⟨?_, fun sender => ?_, fun tx hn ha => ?_⟩
  · have ht := hw.total
    rw [hS.encard_eq] at ht
    rw [hS.size_byHash]
    exact_mod_cast ht
  · have hs := hw.sender sender
    rw [hS.encard_sender] at hs
    exact_mod_cast hs
  · obtain ⟨inner, S', htx, hi, hr⟩ := (hS.add_within hw hn A).2 ha
    obtain ⟨hp, hq⟩ := hr.counts_le hi
    exact ⟨hp, hq, inner, htx, hr⟩

/-! ### Expiry -/

namespace PoolInner

variable {P : Platform} {pool : PoolInner} {S : Set OrderedTransaction} {config : PoolConfig}
  {now : ℕ}

def Expired (config : PoolConfig) (now : ℕ) (pool : PoolInner) (tx : OrderedTransaction) : Prop :=
  tx ∈ pool.partTxs (·.pending) ∧ config.pendingTtlSecs < now - tx.timestamp ∨
    tx ∈ pool.partTxs (·.queued) ∧ config.queuedTtlSecs < now - tx.timestamp

theorem mem_expiredHashes {hash : B256} :
    hash ∈ pool.bySender.values.flatMap (expiredHashes config now) ↔
      ∃ tx, pool.Expired config now tx ∧ tx.hash = hash := by
  simp only [expiredHashes, Expired, partTxs, mem_flatMap, mem_append, mem_map, mem_filter,
    decide_eq_true_eq]
  constructor
  · rintro ⟨queue, hq, ⟨tx, ⟨htx, hold⟩, hh⟩ | ⟨tx, ⟨htx, hold⟩, hh⟩⟩
    · exact ⟨tx, .inl ⟨⟨queue, hq, htx⟩, hold⟩, hh⟩
    · exact ⟨tx, .inr ⟨⟨queue, hq, htx⟩, hold⟩, hh⟩
  · rintro ⟨tx, ⟨⟨queue, hq, htx⟩, hold⟩ | ⟨⟨queue, hq, htx⟩, hold⟩, hh⟩
    · exact ⟨queue, hq, .inl ⟨tx, ⟨htx, hold⟩, hh⟩⟩
    · exact ⟨queue, hq, .inr ⟨tx, ⟨htx, hold⟩, hh⟩⟩

theorem Represents.cleanup_pooled (h : pool.Represents P S) {tx : OrderedTransaction} :
    (pool.cleanup P config now).1.Pooled tx ↔ tx ∈ S ∧ ¬ pool.Expired config now tx := by
  obtain ⟨hi, hf, he⟩ := h.foldl_removeByHash
    (pool.bySender.values.flatMap (expiredHashes config now))
  rw [cleanup_fst, (represents_updateCounts hi hf he).pooled_iff]
  refine and_congr_right fun htx => not_congr ?_
  rw [mem_expiredHashes]
  refine ⟨?_, fun hold => ⟨tx, hold, rfl⟩⟩
  -- a pooled transaction is told by its hash
  rintro ⟨tx', hold, hh⟩
  have htx' : tx' ∈ S := hold.elim (fun hp => h.mem_of_partTxs isPart_pending hp.1)
    fun hq => h.mem_of_partTxs isPart_queued hq.1
  exact h.indexed.eq_of_hash_eq htx' htx hh ▸ hold

theorem cleanup_count : (pool.cleanup P config now).2 + (pool.cleanup P config now).1.byHash.size =
    pool.byHash.size := by
  have hloop : ∀ (hashes : List B256) (acc : PoolInner × ℕ),
      let result := hashes.foldl (fun (acc : PoolInner × ℕ) hash =>
        (removeByHash P acc.1 hash,
          if (acc.1.byHash[hash]?).isSome then acc.2 + 1 else acc.2)) acc
      result.2 + result.1.byHash.size = acc.2 + acc.1.byHash.size := by
    intro hashes
    induction hashes with
    | nil => exact fun acc => rfl
    | cons hash hashes ih =>
      intro acc
      refine (ih _).trans ?_
      dsimp only
      rw [byHash_removeByHash, ExtTreeMap.size_erase, ExtTreeMap.contains_eq_isSome_getElem?]
      split_ifs with hk
      · have hpos : acc.1.byHash.size ≠ 0 := by
          intro hzero
          rw [ExtTreeMap.eq_empty_iff_size_eq_zero.2 hzero] at hk
          simp at hk
        omega
      · rfl
  simpa [PoolInner.cleanup] using
    hloop (pool.bySender.values.flatMap (expiredHashes config now)) (pool, 0)

end PoolInner

/-- **Cleaning up** a pool that is reached takes out exactly the expired transactions, though each
removal may turn pending ones into queued ones, and counts them. -/
theorem cleanup_exact (P : Platform) (A : Alloy) (config : PoolConfig) (ops : List PoolInner.Op)
    (hops : ∀ op ∈ ops, op.NonceBelow P A) (pool : PoolInner)
    (hpool : pool = ops.foldl (PoolInner.step P A config) PoolInner.new) (now : ℕ) :
    (∀ tx, (pool.cleanup P config now).1.Pooled tx ↔
        pool.Pooled tx ∧ ¬ pool.Expired config now tx) ∧
      (pool.cleanup P config now).2 + (pool.cleanup P config now).1.byHash.size =
        pool.byHash.size ∧
      ∀ tx, (pool.cleanup P config now).1.Pooled tx →
        now - tx.timestamp ≤ max config.pendingTtlSecs config.queuedTtlSecs := by
  obtain ⟨S, hS⟩ := PoolInner.represents_run config hops
  rw [← hpool] at hS
  refine ⟨fun tx => by rw [hS.cleanup_pooled, hS.pooled_iff], PoolInner.cleanup_count,
    fun tx htx => ?_⟩
  obtain ⟨hmem, hnew⟩ := hS.cleanup_pooled.1 htx
  obtain ⟨sender, queue, hq, hmem⟩ := PoolInner.mem_partTxs.1 (hS.mem_iff_partTxs.1 hmem)
  rcases mem_append.1 hmem with hp | hp
  · exact le_max_of_le_left (Nat.not_lt.1 fun hold =>
      hnew (.inl ⟨PoolInner.mem_partTxs.2 ⟨sender, queue, hq, hp⟩, hold⟩))
  · exact le_max_of_le_right (Nat.not_lt.1 fun hold =>
      hnew (.inr ⟨PoolInner.mem_partTxs.2 ⟨sender, queue, hq, hp⟩, hold⟩))

section Example

open PoolExample

theorem pool_capacity_waiting :
    (∀ op ∈ waiting, op.NonceBelow platform alloy) ∧
      (waiting.foldl (PoolInner.step platform alloy narrow) PoolInner.new).byHash.size = 3 ∧
      (waiting.foldl (PoolInner.step platform alloy narrow) PoolInner.new).byHash.size ≤
        narrow.maxPendingTxs + narrow.maxQueuedTxs :=
  ⟨waiting_nonceBelow, by decide +kernel,
    (pool_capacity platform alloy narrow waiting waiting_nonceBelow _ rfl).1⟩

theorem cleanup_exact_waiting :
    ((waiting.foldl (PoolInner.step platform alloy narrow) PoolInner.new).cleanup platform narrow
      86400).2 = 3 := by
  have hc := (cleanup_exact platform alloy narrow waiting waiting_nonceBelow _ rfl 86400).2.1
  have hz : ((waiting.foldl (PoolInner.step platform alloy narrow) PoolInner.new).cleanup platform
      narrow 86400).1.byHash.size = 0 ∧
      (waiting.foldl (PoolInner.step platform alloy narrow) PoolInner.new).byHash.size = 3 := by
    decide +kernel
  omega

end Example

end Kora
