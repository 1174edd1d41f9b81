/-
Pruning is confirmation.

`prune` confirms, for every sender with a pooled transaction among those given, the
largest of their nonces. It filters the queues first and removes the hashes afterwards,
while `removeConfirmed` takes the queues apart hash by hash.

* `Represents.ext` — a pool is determined by its transactions and its queues' next nonces;
* `prune_eq_removeConfirmed` — hence both end with the same pool.
-/
import Kora.PoolQueues
import Kora.PoolRejection
import Mathlib.Order.Bounds.Basic

open Std List ExtTreeMap

namespace Kora

open PoolInner

namespace PoolInner

variable {P : Platform} {pool pool' pool'' : PoolInner} {S S' : Set OrderedTransaction}

/-! ### Pools that stand for the same set -/

theorem Represents.exists_queue_iff (h : pool.Represents P S) (sender : Address) :
    (∃ queue, pool.bySender[sender]? = some queue) ↔ ∃ tx ∈ S, tx.sender = sender := by
  constructor
  · rintro ⟨queue, hq⟩
    obtain ⟨tx, htx⟩ := exists_mem_of_ne_nil queue.txs fun hnil =>
      h.nonempty sender queue hq hnil
    exact ⟨tx, (h.filed.mem_queue hq).1 htx⟩
  · rintro ⟨tx, htx, rfl⟩
    obtain ⟨queue, hq, -⟩ := h.filed.exists_queue htx
    exact ⟨queue, hq⟩

variable {sender : Address}

theorem Represents.queue_ext (h : pool.Represents P S) (h' : pool'.Represents P S')
    (hmem : ∀ tx, tx.sender = sender → (tx ∈ S ↔ tx ∈ S'))
    (hh : ∀ queue queue', pool.bySender[sender]? = some queue →
      pool'.bySender[sender]? = some queue' →
      queue.sender = queue'.sender ∧ queue.nextNonce = queue'.nextNonce) :
    pool.bySender[sender]? = pool'.bySender[sender]? := by
  have he : (∃ queue, pool.bySender[sender]? = some queue) ↔
      ∃ queue, pool'.bySender[sender]? = some queue := by
    rw [h.exists_queue_iff, h'.exists_queue_iff]
    exact exists_congr fun tx => and_congr_left fun hs => hmem tx hs
  cases hq : pool.bySender[sender]? with
  | none =>
    cases hq' : pool'.bySender[sender]? with
    | none => rfl
    | some queue' =>
      obtain ⟨queue, hsome⟩ := he.2 ⟨queue', hq'⟩
      rw [hq] at hsome
      cases hsome
  | some queue =>
    obtain ⟨queue', hq'⟩ := he.1 ⟨queue, hq⟩
    obtain ⟨hs, hnx⟩ := hh queue queue' hq hq'
    have hn := (h.filed.wellFormed hq).nonces
    rw [hnx] at hn
    obtain ⟨hp, hqd⟩ := hn.unique (h'.filed.wellFormed hq').nonces fun tx => by
      show tx ∈ queue.txs ↔ tx ∈ queue'.txs
      rw [h.filed.mem_queue hq, h'.filed.mem_queue hq']
      exact and_congr_left fun hs => hmem tx hs
    rw [hq']
    obtain ⟨sender₁, nextNonce₁, pending₁, queued₁⟩ := queue
    obtain ⟨sender₂, nextNonce₂, pending₂, queued₂⟩ := queue'
    obtain rfl : sender₁ = sender₂ := hs
    obtain rfl : nextNonce₁ = nextNonce₂ := hnx
    obtain rfl : pending₁ = pending₂ := hp
    obtain rfl : queued₁ = queued₂ := hqd
    rfl

theorem Represents.ext (h : pool.Represents P S) (h' : pool'.Represents P S)
    (hq : ∀ sender : Address, pool.bySender[sender]? = pool'.bySender[sender]?) :
    pool = pool' := by
  have hbyHash : pool.byHash = pool'.byHash :=
    ext_getElem? fun hash => Option.ext fun tx => by
      rw [h.indexed.byHash_iff, h'.indexed.byHash_iff]
  have hbyId : pool.byId = pool'.byId :=
    ext_getElem? fun id => Option.ext fun hash => by
      rw [h.indexed.byId_iff, h'.indexed.byId_iff]
  rw [← h.counted, ← h'.counted]
  exact updateCounts_congr hbyHash hbyId (ext_getElem? hq)

/-! ### The next nonces -/

/-- The next nonce of a queue once a nonce is confirmed. -/
def confirmedNext (confirmedNonce nextNonce : ℕ) : ℕ :=
  if confirmedNonce ≥ nextNonce then min (confirmedNonce + 1) U64_MAX else nextNonce

def confirmedNextAll (entries : List (Address × ℕ)) (sender : Address) (nextNonce : ℕ) : ℕ :=
  entries.foldl (fun next entry => if entry.1 = sender then confirmedNext entry.2 next else next)
    nextNonce

variable {entries : List (Address × ℕ)}

theorem confirmedNextAll_of_ne (h : ∀ entry ∈ entries, entry.1 ≠ sender) (nextNonce : ℕ) :
    confirmedNextAll entries sender nextNonce = nextNonce := by
  induction entries with
  | nil => rfl
  | cons entry entries ih =>
    rw [confirmedNextAll, foldl_cons, if_neg (h entry mem_cons_self)]
    exact ih fun entry' he' => h entry' (mem_cons_of_mem entry he')

theorem confirmedNextAll_of_mem {nonce : ℕ} (hd : entries.Pairwise fun e e' => e.1 ≠ e'.1)
    (hmem : (sender, nonce) ∈ entries) (nextNonce : ℕ) :
    confirmedNextAll entries sender nextNonce = confirmedNext nonce nextNonce := by
  induction entries with
  | nil => cases hmem
  | cons entry entries ih =>
    obtain ⟨hne, hr⟩ := pairwise_cons.1 hd
    rw [confirmedNextAll, foldl_cons]
    rcases mem_cons.1 hmem with rfl | hl
    · rw [if_pos rfl]
      exact confirmedNextAll_of_ne (fun entry' he' => (hne entry' he').symm) _
    · rw [if_neg (hne _ hl)]
      exact ih hr hl

def Descends (next : Address → ℕ → ℕ) (pool pool' : PoolInner) : Prop :=
  ∀ (sender : Address) (queue' : SenderQueue), pool'.bySender[sender]? = some queue' →
    ∃ queue, pool.bySender[sender]? = some queue ∧ queue'.sender = queue.sender ∧
      queue'.nextNonce = next sender queue.nextNonce

theorem Descends.refl (pool : PoolInner) : Descends (fun _ next => next) pool pool :=
  fun _ queue hq => ⟨queue, hq, rfl, rfl⟩

theorem Descends.trans {next next' : Address → ℕ → ℕ} (h : Descends next pool pool')
    (h' : Descends next' pool' pool'') :
    Descends (fun sender nextNonce => next' sender (next sender nextNonce)) pool pool'' := by
  intro sender queue'' hq''
  obtain ⟨queue', hq', hs', hn'⟩ := h' sender queue'' hq''
  obtain ⟨queue, hq, hs, hn⟩ := h sender queue' hq'
  exact ⟨queue, hq, hs'.trans hs, by rw [hn', hn]⟩

theorem descends_removeByHash (pool : PoolInner) (hash : B256) :
    Descends (fun _ next => next) pool (pool.removeByHash P hash) := by
  intro sender queue' hq'
  obtain ⟨before, hb, ⟨rfl, -⟩ | rfl⟩ := queue_of_removeByHash hq'
  · exact ⟨queue', hb, rfl, rfl⟩
  · refine ⟨before, hb, ?_⟩
    rw [SenderQueue.removeByHash]
    split
    · exact ⟨rfl, rfl⟩
    · split <;> exact ⟨rfl, rfl⟩

theorem descends_dropEmpty (pool : PoolInner) (sender : Address) :
    Descends (fun _ next => next) pool (pool.dropEmpty sender) :=
  fun _ queue hq => ⟨queue, (getElem?_dropEmpty.1 hq).1, rfl, rfl⟩

theorem descends_foldl {α : Type*} {move : PoolInner → α → PoolInner}
    (hm : ∀ pool a, Descends (fun _ next => next) pool (move pool a)) (l : List α)
    (pool : PoolInner) : Descends (fun _ next => next) pool (l.foldl move pool) := by
  induction l generalizing pool with
  | nil => exact Descends.refl pool
  | cons a l ih => exact (hm pool a).trans (ih (move pool a))

theorem descends_setQueue {queue : SenderQueue} (hq : pool.bySender[sender]? = some queue)
    (confirmedNonce : ℕ) :
    Descends (confirmedNextAll [(sender, confirmedNonce)]) pool
      (pool.setQueue sender (queue.removeConfirmed confirmedNonce)) := by
  intro sender' queue' hq'
  rw [getElem?_setQueue] at hq'
  split at hq'
  · next heq =>
    subst heq
    obtain rfl := Option.some.inj hq'
    refine ⟨queue, hq, rfl, ?_⟩
    rw [confirmedNextAll, foldl_cons, if_pos rfl]
    rfl
  · next hne =>
    refine ⟨queue', hq', rfl, (confirmedNextAll_of_ne ?_ _).symm⟩
    simpa using hne

theorem descends_of_none (hnone : pool.bySender[sender]? = none) (confirmedNonce : ℕ) :
    Descends (confirmedNextAll [(sender, confirmedNonce)]) pool pool := by
  intro sender' queue' hq'
  refine ⟨queue', hq', rfl, (confirmedNextAll_of_ne ?_ _).symm⟩
  rintro entry he rfl
  obtain rfl := mem_singleton.1 he
  rw [hnone] at hq'
  cases hq'

theorem descends_removeConfirmed (pool : PoolInner) (sender : Address) (confirmedNonce : ℕ) :
    Descends (confirmedNextAll [(sender, confirmedNonce)]) pool
      (pool.removeConfirmed P sender confirmedNonce) := by
  have hr := descends_foldl (descends_removeByHash (P := P)) ((pool.bySender[sender]?).elim []
    (fun queue => confirmedHashes queue confirmedNonce)) pool
  rw [removeConfirmed]
  split
  · next hnone => exact hr.trans (descends_of_none hnone confirmedNonce)
  · next queue hq =>
    exact (hr.trans (descends_setQueue hq confirmedNonce)).trans
      (descends_dropEmpty _ sender)

theorem descends_foldl_removeConfirmed (entries : List (Address × ℕ)) (pool : PoolInner) :
    Descends (confirmedNextAll entries) pool
      (entries.foldl (fun inner entry => inner.removeConfirmed P entry.1 entry.2) pool) := by
  induction entries generalizing pool with
  | nil => exact Descends.refl pool
  | cons entry entries ih => exact (descends_removeConfirmed pool entry.1 entry.2).trans (ih _)

theorem descends_foldl_pruneSender (entries : List (Address × ℕ)) (pruning : Pruning) :
    Descends (confirmedNextAll entries) pruning.inner
      (entries.foldl pruneSender pruning).inner := by
  induction entries generalizing pruning with
  | nil => exact Descends.refl pruning.inner
  | cons entry entries ih =>
    have hf : Descends (confirmedNextAll [entry]) pruning.inner
        (pruneSender pruning entry).inner := by
      rw [pruneSender]
      split
      · next hnone => exact descends_of_none hnone entry.2
      · next queue hq => exact descends_setQueue hq entry.2
    exact hf.trans (ih _)

theorem descends_prune (pool : PoolInner) (txIds : List B256) :
    Descends (confirmedNextAll (pool.confirmedBySender txIds).toList) pool
      (pool.prune P txIds) := by
  have hc := descends_foldl_pruneSender (pool.confirmedBySender txIds).toList ⟨pool, [], []⟩
  exact (hc.trans (descends_foldl (descends_removeByHash (P := P)) _ _)).trans
    (descends_foldl descends_dropEmpty _ _)

/-! ### Pruning -/

theorem Represents.foldl_removeConfirmed (h : pool.Represents P S)
    (entries : List (Address × ℕ)) :
    (entries.foldl (fun inner entry => inner.removeConfirmed P entry.1 entry.2) pool).Represents P
      {tx ∈ S | ∀ entry ∈ entries, tx.sender = entry.1 → entry.2 < tx.nonce} := by
  induction entries generalizing pool S with
  | nil => simpa using h
  | cons entry entries ih =>
    have hl := ih (h.removeConfirmed entry.1 entry.2)
    simpa [and_assoc] using hl

variable {txIds : List B256}

theorem Represents.prune_eq (h : pool.Represents P S)
    (hd : entries.Pairwise fun e e' => e.1 ≠ e'.1)
    (hen : ∀ sender nonce, (sender, nonce) ∈ entries ↔
      (pool.confirmedBySender txIds)[sender]? = some nonce) :
    pool.prune P txIds =
      entries.foldl (fun inner entry => inner.removeConfirmed P entry.1 entry.2) pool := by
  have hmem : ∀ entry, entry ∈ entries ↔ entry ∈ (pool.confirmedBySender txIds).toList :=
    fun entry => (hen entry.1 entry.2).trans
      mem_toList_iff_getElem?_eq_some.symm
  have hd' : (pool.confirmedBySender txIds).toList.Pairwise fun e e' => e.1 ≠ e'.1 :=
    (pool.confirmedBySender txIds).distinct_keys_toList.imp fun hne heq =>
      hne (LawfulEqCmp.compare_eq_iff_eq.2 heq)
  have hp := h.prune txIds
  simp only [← hmem] at hp
  refine hp.ext (h.foldl_removeConfirmed entries) fun sender =>
    hp.queue_ext (h.foldl_removeConfirmed entries) (fun _ _ => Iff.rfl) ?_
  intro queue₁ queue₂ hq₁ hq₂
  obtain ⟨before, hb, hs₁, hn₁⟩ := descends_prune pool txIds sender queue₁ hq₁
  obtain ⟨before', hb', hs₂, hn₂⟩ :=
    descends_foldl_removeConfirmed entries pool sender queue₂ hq₂
  obtain rfl := Option.some.inj (hb.symm.trans hb')
  refine ⟨hs₁.trans hs₂.symm, ?_⟩
  rw [hn₁, hn₂]
  -- only the entry of the sender matters
  by_cases hc : ∃ nonce, (sender, nonce) ∈ entries
  · obtain ⟨nonce, hnn⟩ := hc
    rw [confirmedNextAll_of_mem hd hnn,
      confirmedNextAll_of_mem hd' ((hmem _).1 hnn)]
  · have hne : ∀ entry ∈ entries, entry.1 ≠ sender := fun entry he heq =>
      hc ⟨entry.2, heq ▸ he⟩
    rw [confirmedNextAll_of_ne hne, confirmedNextAll_of_ne fun entry he =>
      hne entry ((hmem entry).2 he)]

/-- The nonces of a sender's pooled transactions among those given. -/
def listedNonces (P : Platform) (pool : PoolInner) (txIds : List B256) (sender : Address) : Set ℕ :=
  {nonce | ∃ tx, pool.Pooled tx ∧ orderedTxId P tx ∈ txIds ∧ tx.sender = sender ∧
    tx.nonce = nonce}

theorem Consistent.getElem?_confirmedBySender (h : pool.Consistent P) {nonce : ℕ} :
    (pool.confirmedBySender txIds)[sender]? = some nonce ↔
      IsGreatest (pool.listedNonces P txIds sender) nonce := by
  have hg : ∀ {nonce : ℕ}, (pool.confirmedBySender txIds)[sender]? = some nonce →
      IsGreatest (pool.listedNonces P txIds sender) nonce := by
    intro nonce hcn
    constructor
    · rcases foldl_confirm_mem hcn with hnone | ⟨tx, htx, hs, hn⟩
      · simp at hnone
      · obtain ⟨hp, hid⟩ := h.mem_listed.1 htx
        exact ⟨tx, hp, hid, hs, hn⟩
    · rintro nonce' ⟨tx, hp, hid, rfl, rfl⟩
      obtain ⟨nonce'', hc, hle⟩ := foldl_confirm_covers (h.mem_listed.2 ⟨hp, hid⟩) ∅
      obtain rfl := Option.some.inj (hc.symm.trans hcn)
      exact hle
  refine ⟨hg, fun hn => ?_⟩
  obtain ⟨tx, hp, hid, rfl, rfl⟩ := hn.1
  obtain ⟨nonce', hc, -⟩ := foldl_confirm_covers (h.mem_listed.2 ⟨hp, hid⟩) ∅
  rw [hn.unique (hg hc)]
  exact hc

theorem Represents.prune_untouched (h : pool.Represents P S)
    (hnone : pool.listedNonces P txIds sender = ∅) :
    (pool.prune P txIds).bySender[sender]? = pool.bySender[sender]? := by
  have hne : ∀ entry ∈ (pool.confirmedBySender txIds).toList, entry.1 ≠ sender := by
    rintro ⟨sender', nonce⟩ he rfl
    have hg := h.consistent.getElem?_confirmedBySender.1
      (mem_toList_iff_getElem?_eq_some.1 he)
    rw [hnone] at hg
    exact hg.1
  refine (h.prune txIds).queue_ext h (fun tx hs => and_iff_left fun entry he heq => ?_) ?_
  · exact absurd (heq.symm.trans hs) (hne entry he)
  · intro queue queue' hq hq'
    obtain ⟨before, hb, hs, hn⟩ := descends_prune pool txIds sender queue hq
    obtain rfl := Option.some.inj (hb.symm.trans hq')
    exact ⟨hs, by rw [hn, confirmedNextAll_of_ne hne]⟩

end PoolInner

/-! ### Pools that are reached -/

/-- **Pruning is confirmation.** In every pool that is reached with nonces below the largest one,
pruning leads to the same pool as confirming, in any order, for each sender the largest nonce of its
pooled transactions among those given. -/
theorem prune_eq_removeConfirmed (P : Platform) (A : Alloy) (config : PoolConfig)
    (ops : List PoolInner.Op) (hops : ∀ op ∈ ops, op.NonceBelow P A) (pool : PoolInner)
    (hpool : pool = ops.foldl (PoolInner.step P A config) PoolInner.new) (txIds : List B256)
    (entries : List (Address × ℕ)) (hdistinct : entries.Pairwise fun e e' => e.1 ≠ e'.1)
    (hentries : ∀ sender nonce, (sender, nonce) ∈ entries ↔
      IsGreatest (pool.listedNonces P txIds sender) nonce) :
    pool.prune P txIds =
        entries.foldl (fun inner entry => inner.removeConfirmed P entry.1 entry.2) pool ∧
      ∀ sender, pool.listedNonces P txIds sender = ∅ →
        (pool.prune P txIds).bySender[sender]? = pool.bySender[sender]? ∧
        ∀ tx, tx.sender = sender → ((pool.prune P txIds).Pooled tx ↔ pool.Pooled tx) := by
  obtain ⟨S, hS⟩ := represents_run config hops
  rw [← hpool] at hS
  refine ⟨hS.prune_eq hdistinct fun sender nonce => ?_, fun sender hnone => ?_⟩
  · rw [hentries, hS.consistent.getElem?_confirmedBySender]
  · have hq := hS.prune_untouched hnone
    refine ⟨hq, fun tx hs => ?_⟩
    rw [(hS.prune txIds).consistent.pooled_iff, hS.consistent.pooled_iff, hs, hq]

namespace PoolExample

/-- Two senders, one of them with two transactions. -/
def pair : List PoolInner.Op :=
  [.add (offer 1 0xA 0 9), .add (offer 2 0xA 1 5), .add (offer 3 0xB 0 3)]

theorem pair_nonceBelow : ∀ op ∈ pair, op.NonceBelow platform alloy := by
  simp only [pair, forall_mem_cons]
  refine ⟨?_, ?_, ?_, by simp⟩
  all_goals
    rintro tx rfl
    decide

def tripled : List PoolInner.Op :=
  [.add (offer 1 0xA (U64_MAX - 1) 9), .add (offer 2 0xA U64_MAX 5), .add (offer 3 0xA U64_MAX 5),
    .add (offer 4 0xA U64_MAX 5), .remove 3]

theorem tripled_nonceU64 : ∀ op ∈ tripled, op.NonceU64 platform alloy := by
  simp only [tripled, forall_mem_cons]
  refine ⟨?_, ?_, ?_, ?_, fun tx htx => htx.elim, by simp⟩
  all_goals
    rintro tx rfl
    decide

theorem isGreatest_listedNonces_iff {P : Platform} {pool : PoolInner} {txIds : List B256}
    (only : OrderedTransaction) (ho : pool.Pooled only ∧ orderedTxId P only ∈ txIds)
    (hot : ∀ entry ∈ pool.byHash.toList, orderedTxId P entry.2 ∈ txIds → entry.2 = only)
    (sender : Address) (nonce : ℕ) :
    (sender, nonce) ∈ [(only.sender, only.nonce)] ↔
      IsGreatest (pool.listedNonces P txIds sender) nonce := by
  have heq : ∀ tx, pool.Pooled tx → orderedTxId P tx ∈ txIds → tx = only := fun tx htx hid =>
    hot _ (mem_toList_iff_getElem?_eq_some.2 htx) hid
  rw [mem_singleton, Prod.mk.injEq]
  constructor
  · rintro ⟨rfl, rfl⟩
    refine ⟨⟨only, ho.1, ho.2, rfl, rfl⟩, ?_⟩
    rintro nonce ⟨tx, htx, hid, -, rfl⟩
    rw [heq tx htx hid]
  · rintro ⟨⟨tx, htx, hid, rfl, rfl⟩, -⟩
    rw [heq tx htx hid]
    exact ⟨rfl, rfl⟩

end PoolExample

section Example

open PoolExample

theorem prune_eq_removeConfirmed_pair :
    (pair.foldl (PoolInner.step platform alloy .new) PoolInner.new).prune platform [1] =
      (pair.foldl (PoolInner.step platform alloy .new) PoolInner.new).removeConfirmed platform
        0xA 0 := by
  refine (prune_eq_removeConfirmed platform alloy .new pair pair_nonceBelow _ rfl [1] [(0xA, 0)]
    (pairwise_singleton _ _)
    (isGreatest_listedNonces_iff (offer 1 0xA 0 9) ⟨?_, ?_⟩ ?_)).1
  · rw [PoolInner.Pooled]
    decide +kernel
  · decide +kernel
  · decide +kernel

/-- Confirming the first brings the two others up in one order, pruning it in the other. -/
theorem prune_reorders : ¬ ∀ (P : Platform) (A : Alloy) (config : PoolConfig)
    (ops : List PoolInner.Op) (txIds : List B256) (entries : List (Address × ℕ)),
    (∀ op ∈ ops, op.NonceU64 P A) → (entries.Pairwise fun e e' => e.1 ≠ e'.1) →
    (∀ sender nonce, (sender, nonce) ∈ entries ↔ IsGreatest ((ops.foldl
      (PoolInner.step P A config) PoolInner.new).listedNonces P txIds sender) nonce) →
    (ops.foldl (PoolInner.step P A config) PoolInner.new).prune P txIds =
      entries.foldl (fun inner entry => inner.removeConfirmed P entry.1 entry.2)
        (ops.foldl (PoolInner.step P A config) PoolInner.new) := by
  intro h
  have hs := h platform alloy .new tripled [1] [(0xA, U64_MAX - 1)] tripled_nonceU64
    (pairwise_singleton _ _)
    (isGreatest_listedNonces_iff (offer 1 0xA (U64_MAX - 1) 9)
      ⟨by rw [PoolInner.Pooled]; decide +kernel, by decide +kernel⟩ (by decide +kernel))
  have hp : ((tripled.foldl (step platform alloy .new) new).prune platform
        [1]).partOf (·.pending) 0xA =
      ((tripled.foldl (step platform alloy .new) new).removeConfirmed platform
        0xA (U64_MAX - 1)).partOf (·.pending) 0xA := congrArg (·.partOf (·.pending) 0xA) hs
  revert hp
  decide +kernel

end Example

end Kora
