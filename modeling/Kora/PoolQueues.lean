/-
What holds of every pool, whatever the nonces.

A sender may have several transactions with the largest nonce, so that a pool does not
stand for a set. Its queues are still in an order that saturates, and what they hold is
known to the maps.

* `PoolInvariant`, `QueueInvariant` — properties that the moves of the operations keep;
* `Linked` — what is in the queues is the senders' own, in one place, and in the maps.
-/
import Kora.PoolCoherence
import Kora.Run

open Std List

namespace Kora

namespace PoolInner

variable {P : Platform} {T : PoolInner → OrderedTransaction → Prop} {pool : PoolInner}

/-! ### Properties that all operations keep -/

/-- A property that the moves keep of which the operations are made, if only transactions with `T`
are filed. The one in front, if any, is in its queue and not yet in the maps. -/
structure PoolInvariant (P : Platform) (T : PoolInner → OrderedTransaction → Prop)
    (I : Option OrderedTransaction → PoolInner → Prop) : Prop where
  new : I none PoolInner.new
  updateCounts : ∀ {filed : Option OrderedTransaction} {pool : PoolInner}, I filed pool →
    I filed pool.updateCounts
  dropEmpty : ∀ {filed : Option OrderedTransaction} {pool : PoolInner} (sender : Address),
    I filed pool → I filed (pool.dropEmpty sender)
  removeByHash : ∀ {filed : Option OrderedTransaction} {pool : PoolInner} (hash : B256),
    I filed pool → I filed (PoolInner.removeByHash P pool hash)
  confirm : ∀ {filed : Option OrderedTransaction} {pool : PoolInner} {sender : Address}
    {queue : SenderQueue} (confirmedNonce : ℕ), I filed pool →
    pool.bySender[sender]? = some queue →
    I filed (pool.setQueue sender (queue.removeConfirmed confirmedNonce))
  file : ∀ {pool : PoolInner} {tx : OrderedTransaction}, I none pool → T pool tx →
    pool.byHash[tx.hash]? = none → pool.byId[orderedTxId P tx]? = none →
    (∀ old, (pool.file tx).2 = some old → old.hash ≠ tx.hash) → I (some tx) (pool.file tx).1
  refuse : ∀ {pool : PoolInner} {tx old : OrderedTransaction}, I none pool → T pool tx →
    pool.byHash[tx.hash]? = none → (pool.file tx).2 = some old → old.hash = tx.hash →
    I none (pool.file tx).1
  index : ∀ {pool : PoolInner} {tx : OrderedTransaction}, I (some tx) pool →
    I none (pool.index P tx)

namespace PoolInvariant

variable {I : Option OrderedTransaction → PoolInner → Prop} {filed : Option OrderedTransaction}
  (h : PoolInvariant P T I)

include h

theorem evictLowest (hI : I filed pool) (part : SenderQueue → List OrderedTransaction) :
    I filed (pool.evictLowest P part).1 := by
  rw [PoolInner.evictLowest]
  split
  · exact hI
  · exact h.updateCounts (h.removeByHash _ hI)

theorem enter {tx : OrderedTransaction} (hI : I (some tx) pool) (config : PoolConfig) :
    I none (pool.enter P config tx).1 := by
  rw [enter_eq]
  exact evictExcess_invariant (I := I none) (fun part _ hI => h.evictLowest hI part) config
    (h.index hI)

variable {A : Alloy}

theorem add {config : PoolConfig} {tx : OrderedTransaction} (hI : I none pool) (htx : T pool tx) :
    I none (pool.add P A config tx).1 := by
  rcases add_cases P A config pool tx with ⟨-, err, hadd⟩ | ⟨hc, hnone, hadd⟩ |
    ⟨hc, replaced, hb, hs, hadd⟩ | ⟨hc, replaced, hb, hne, hadd⟩
  · rw [hadd]
    exact hI
  · have hf := h.file hI htx hc.hash_new hc.id_new
      fun old hold => by cases hnone.symm.trans hold
    rw [hadd, added_fst]
    exact h.enter hf config
  · rw [hadd]
    exact h.refuse hI htx hc.hash_new hb hs
  · have hf := h.file hI htx hc.hash_new hc.id_new
      fun old hold => Option.some.inj (hb.symm.trans hold) ▸ hne
    rw [hadd, added_fst]
    exact h.enter (h.removeByHash replaced.hash hf) config

theorem foldl_removeByHash (hI : I filed pool) (hashes : List B256) :
    I filed (hashes.foldl (PoolInner.removeByHash P) pool) := by
  induction hashes generalizing pool with
  | nil => exact hI
  | cons hash hashes ih => exact ih (h.removeByHash hash hI)

theorem removeConfirmed (hI : I filed pool) (sender : Address) (confirmedNonce : ℕ) :
    I filed (pool.removeConfirmed P sender confirmedNonce) := by
  have hr := h.foldl_removeByHash hI
    ((pool.bySender[sender]?).elim [] (fun queue => confirmedHashes queue confirmedNonce))
  rw [PoolInner.removeConfirmed]
  split
  · exact h.updateCounts hr
  · next hq =>
    exact h.updateCounts (h.dropEmpty sender (h.confirm confirmedNonce hr hq))

theorem foldl_pruneSender {pruning : Pruning} (hI : I filed pruning.inner)
    (entries : List (Address × ℕ)) : I filed (entries.foldl pruneSender pruning).inner := by
  induction entries generalizing pruning with
  | nil => exact hI
  | cons entry entries ih =>
    refine ih ?_
    rw [pruneSender]
    split
    · exact hI
    · next hq => exact h.confirm entry.2 hI hq

theorem prune (hI : I filed pool) (txIds : List B256) : I filed (pool.prune P txIds) := by
  have hd : ∀ {pool : PoolInner} (senders : List Address), I filed pool →
      I filed (senders.foldl PoolInner.dropEmpty pool) := by
    intro pool senders hI
    induction senders generalizing pool with
    | nil => exact hI
    | cons sender senders ih => exact ih (h.dropEmpty sender hI)
  let start : Pruning := ⟨pool, [], []⟩
  have hs : I filed start.inner := hI
  exact h.updateCounts (hd _ (h.foldl_removeByHash (h.foldl_pruneSender hs _) _))

theorem cleanup (hI : I filed pool) (config : PoolConfig) (now : ℕ) :
    I filed (pool.cleanup P config now).1 := by
  rw [cleanup_fst]
  exact h.updateCounts (h.foldl_removeByHash hI _)

theorem step (config : PoolConfig) {op : Op} (hI : I none pool)
    (hop : ∀ tx, op.Brings P A tx → T pool tx) : I none (pool.step P A config op) := by
  cases op with
  | add tx => exact h.add hI (hop tx rfl)
  | insert tx now =>
    show I none (pool.insert P A config tx now).1
    rw [PoolInner.insert]
    split
    · exact hI
    · next ordered ho => exact h.add hI (hop ordered ho)
  | remove hash =>
    show I none (pool.remove P hash).1
    rw [PoolInner.remove, removeWithReason]
    split
    · exact hI
    · exact h.updateCounts (h.removeByHash hash hI)
  | removeConfirmed sender confirmedNonce => exact h.removeConfirmed hI sender confirmedNonce
  | prune txIds => exact h.prune hI txIds
  | cleanup now => exact h.cleanup hI config now
  | clear => exact h.new

theorem run (config : PoolConfig) {ops : List Op}
    (hops : Run.Along (PoolInner.step P A config)
      (fun pool op => ∀ tx, op.Brings P A tx → T pool tx) PoolInner.new ops) :
    I none (ops.foldl (PoolInner.step P A config) PoolInner.new) :=
  hops.invariant h.new fun _ _ hI hop => h.step config hI hop

end PoolInvariant

/-! ### Properties of each queue -/

/-- A property that the changes of a queue keep, if only such transactions are filed in it. -/
structure QueueInvariant (T : SenderQueue → OrderedTransaction → Prop) (Q : SenderQueue → Prop) :
    Prop where
  new : ∀ {tx : OrderedTransaction}, T (SenderQueue.new tx.sender tx.nonce) tx →
    Q (SenderQueue.new tx.sender tx.nonce)
  insert : ∀ {queue : SenderQueue} {tx : OrderedTransaction}, Q queue → T queue tx →
    Q (queue.insert tx).1
  removeByHash : ∀ {queue : SenderQueue} (hash : B256), Q queue → Q (queue.removeByHash hash)
  removeConfirmed : ∀ {queue : SenderQueue} (confirmedNonce : ℕ), Q queue →
    Q (queue.removeConfirmed confirmedNonce)

/-- Every queue of the pool has the property. -/
def AllQueues (Q : SenderQueue → Prop) (pool : PoolInner) : Prop :=
  ∀ (sender : Address) (queue : SenderQueue), pool.bySender[sender]? = some queue → Q queue

variable {T : SenderQueue → OrderedTransaction → Prop} {Q : SenderQueue → Prop}

theorem AllQueues.setQueue (h : pool.AllQueues Q) {sender : Address} {queue : SenderQueue}
    (hq : Q queue) : (pool.setQueue sender queue).AllQueues Q := by
  intro sender' queue' hq'
  rw [getElem?_setQueue] at hq'
  split at hq'
  · exact Option.some.inj hq' ▸ hq
  · exact h sender' queue' hq'

theorem AllQueues.queueFor (hQ : QueueInvariant T Q) (h : pool.AllQueues Q)
    {tx : OrderedTransaction} (htx : T (pool.queueFor tx) tx) : Q (pool.queueFor tx) := by
  rw [PoolInner.queueFor] at htx ⊢
  cases hf : pool.bySender[tx.sender]? with
  | none =>
    rw [hf] at htx
    exact hQ.new htx
  | some queue => exact h tx.sender queue hf

theorem QueueInvariant.poolInvariant (hQ : QueueInvariant T Q) :
    PoolInvariant P (fun pool tx => T (pool.queueFor tx) tx)
      fun _ pool => pool.AllQueues Q where
  new sender queue hq := by simp [PoolInner.new] at hq
  updateCounts h := h
  dropEmpty sender h sender' queue hq := h sender' queue (getElem?_dropEmpty.1 hq).1
  removeByHash hash h sender queue hq := by
    obtain ⟨before, hb, ⟨rfl, -⟩ | rfl⟩ := queue_of_removeByHash hq
    · exact h sender queue hb
    · exact hQ.removeByHash hash (h sender before hb)
  confirm confirmedNonce h hq := h.setQueue (hQ.removeConfirmed confirmedNonce (h _ _ hq))
  file h htx _ _ _ := h.setQueue (hQ.insert (h.queueFor hQ htx) htx)
  refuse h htx _ _ _ := h.setQueue (hQ.insert (h.queueFor hQ htx) htx)
  index h := h

end PoolInner

/-! ### The nonces of a queue -/

namespace SenderQueue

variable {self : SenderQueue} {tx : OrderedTransaction}

theorem Settled.insert (h : self.Settled) (hnn : tx.nonce ≤ U64_MAX) :
    (self.insert tx).1.Settled := by
  rcases self.insert_cases tx with ⟨-, hi⟩ | ⟨-, hn, hi⟩ | ⟨-, hgap, hi⟩ |
    ⟨hlow, hb, existing, -, -, hi⟩
  · rw [hi]
    exact h
  · rw [hi]
    exact settledRun_promote ((SettledRun.cons h hn).concat hn)
  · have hmem : ∀ tx' ∈ (insertQueued tx self.queued).1, tx' = tx ∨ tx' ∈ self.queued :=
      fun tx' htx' => mem_cons.1
        ((insertQueued_perm tx self.queued).subset (mem_append_right _ htx'))
    have hs : (insertQueued tx self.queued).1.Pairwise fun tx tx' =>
        tx.nonce < tx'.nonce ∨ tx'.nonce = U64_MAX :=
      insertQueued_pairwise (R := fun m n => m < n ∨ n = U64_MAX) (fun _ _ hlt => .inl hlt)
        (fun m n k hlt hor => by omega) h.rest_sorted
    rw [hi]
    refine SettledRun.of_rest h.toSaturatingRun hs
      (fun tx' htx' => ?_) fun tx' htx' => ?_
    · rcases hmem tx' htx' with rfl | hold
      · rw [nextPendingNonce] at hgap
        left
        show self.nextNonce + self.pending.length < tx'.nonce
        omega
      · exact h.gap tx' hold
    · rcases hmem tx' htx' with rfl | hold
      · exact hnn
      · exact h.rest_le tx' hold
  · have hkey : tx.nonce = min (self.nextNonce + (tx.nonce - self.nextNonce)) U64_MAX := by
      omega
    rw [hi]
    exact SettledRun.set h hkey

theorem queueInvariant_settled :
    PoolInner.QueueInvariant (fun _ tx => tx.nonce ≤ U64_MAX) Settled where
  new htx := SettledRun.nil _ htx
  insert h htx := h.insert htx
  removeByHash hash h := h.removeByHash hash
  removeConfirmed confirmedNonce h := h.removeConfirmed confirmedNonce

end SenderQueue

namespace PoolInner

variable {P : Platform} {pool : PoolInner}

/-! ### Queues and maps -/

/-- The transactions in the queues are those of their senders, are in no queue twice, and are under
their hashes in the hash map, except for one that is not entered yet; what is in the hash map is
also under its id in the id map. -/
structure Linked (P : Platform) (filed : Option OrderedTransaction) (pool : PoolInner) : Prop where
  owned : ∀ {sender : Address} {queue}, pool.bySender[sender]? = some queue →
    ∀ tx ∈ queue.txs, tx.sender = sender
  nodup : ∀ {sender : Address} {queue}, pool.bySender[sender]? = some queue → queue.txs.Nodup
  known : ∀ {sender : Address} {queue}, pool.bySender[sender]? = some queue →
    ∀ tx ∈ queue.txs, filed = some tx ∨ pool.byHash[tx.hash]? = some tx
  keyed : ∀ {hash : B256} {tx}, pool.byHash[hash]? = some tx →
    tx.hash = hash ∧ pool.byId[orderedTxId P tx]? = some hash
  fresh : ∀ {tx : OrderedTransaction}, filed = some tx →
    pool.byHash[tx.hash]? = none ∧ pool.byId[orderedTxId P tx]? = none

namespace Linked

variable {filed : Option OrderedTransaction} (h : pool.Linked P filed)

include h

theorem setQueue {sender : Address} {before queue : SenderQueue}
    (hb : pool.bySender[sender]? = some before) (hsub : queue.txs.Sublist before.txs) :
    (pool.setQueue sender queue).Linked P filed := by
  have hqs : ∀ {sender' : Address} {queue'},
      (pool.setQueue sender queue).bySender[sender']? = some queue' →
      ∃ before', pool.bySender[sender']? = some before' ∧ queue'.txs.Sublist before'.txs := by
    intro sender' queue' hq'
    rw [getElem?_setQueue] at hq'
    split at hq'
    · next heq =>
      obtain rfl := Option.some.inj hq'
      exact ⟨before, heq ▸ hb, hsub⟩
    · exact ⟨queue', hq', List.Sublist.refl _⟩
  refine ⟨fun hq tx htx => ?_, fun hq => ?_, fun hq tx htx => ?_, h.keyed, h.fresh⟩
  all_goals obtain ⟨before', hb', hsub'⟩ := hqs hq
  · exact h.owned hb' tx (hsub'.subset htx)
  · exact (h.nodup hb').sublist hsub'
  · exact h.known hb' tx (hsub'.subset htx)

theorem dropEmpty (sender : Address) : (pool.dropEmpty sender).Linked P filed where
  owned hq := h.owned (getElem?_dropEmpty.1 hq).1
  nodup hq := h.nodup (getElem?_dropEmpty.1 hq).1
  known hq := by
    rw [byHash_dropEmpty]
    exact h.known (getElem?_dropEmpty.1 hq).1
  keyed := by
    rw [byHash_dropEmpty, byId_dropEmpty]
    exact h.keyed
  fresh := by
    rw [byHash_dropEmpty, byId_dropEmpty]
    exact h.fresh

theorem eq_of_hash_eq {tx removed : OrderedTransaction} {hash : B256}
    (hr : pool.byHash[hash]? = some removed)
    (hk : filed = some tx ∨ pool.byHash[tx.hash]? = some tx) (hh : tx.hash = hash) :
    tx = removed := by
  rcases hk with hf | hk
  · have hnone := (h.fresh hf).1
    rw [hh, hr] at hnone
    cases hnone
  · rw [hh, hr] at hk
    exact (Option.some.inj hk).symm

theorem removeByHash (hash : B256) : (pool.removeByHash P hash).Linked P filed := by
  cases hr : pool.byHash[hash]? with
  | none =>
    rw [removeByHash_of_none hr]
    exact h
  | some removed =>
    -- what is left of a queue, and that it has no transaction with the hash
    have hqs : ∀ {sender : Address} {queue},
        (pool.removeByHash P hash).bySender[sender]? = some queue →
        ∃ before, pool.bySender[sender]? = some before ∧ queue.txs.Nodup ∧
          ∀ tx ∈ queue.txs, tx ∈ before.txs ∧ tx.hash ≠ hash := by
      intro sender queue hq
      obtain ⟨before, hb, ⟨rfl, ho⟩ | rfl⟩ := queue_of_removeByHash hq
      · refine ⟨queue, hb, h.nodup hb, fun tx htx => ⟨htx, fun hh => ?_⟩⟩
        obtain rfl := h.eq_of_hash_eq hr (h.known hb tx htx) hh
        exact ho tx hr (h.owned hb tx htx)
      · have hp := before.removeByHash_perm hash
        refine ⟨before, hb, ?_, fun tx htx => ?_⟩
        · exact ((nodup_append.1 (hp.nodup_iff.2 (h.nodup hb)))).2.1
        · obtain ⟨hmem, hne⟩ := (SenderQueue.mem_iff_of_perm hp (h.nodup hb)).1 htx
          refine ⟨hmem, fun hh => hne ?_⟩
          -- the first transaction with the hash is the only one
          cases hf : before.txs.find? fun tx => tx.hash = hash with
          | none => simpa [hh] using find?_eq_none.1 hf tx hmem
          | some tx' =>
            have hh' : tx'.hash = hash := by simpa using find?_some hf
            have hmem' := mem_of_find?_eq_some hf
            rw [h.eq_of_hash_eq hr (h.known hb tx hmem) hh,
              h.eq_of_hash_eq hr (h.known hb tx' hmem') hh']
    refine ⟨fun hq tx htx => ?_, fun hq => ?_, fun hq tx htx => ?_,
      fun {hash' tx} hget => ?_, fun {tx} hfl => ?_⟩
    · obtain ⟨before, hb, -, hmem⟩ := hqs hq
      exact h.owned hb tx (hmem tx htx).1
    · obtain ⟨before, hb, hn, -⟩ := hqs hq
      exact hn
    · obtain ⟨before, hb, -, hmem⟩ := hqs hq
      rw [getElem?_byHash_removeByHash, if_neg (hmem tx htx).2.symm]
      exact h.known hb tx (hmem tx htx).1
    · rw [getElem?_byHash_removeByHash] at hget
      split at hget
      · cases hget
      · next hne =>
        refine ⟨(h.keyed hget).1, ?_⟩
        rw [byId_removeByHash hr, ExtTreeMap.getElem?_erase]
        simp only [LawfulEqCmp.compare_eq_iff_eq]
        split
        · next hid =>
          have hbt := (h.keyed hr).2.symm.trans (hid ▸ (h.keyed hget).2)
          exact absurd (Option.some.inj hbt) hne
        · exact (h.keyed hget).2
    · obtain ⟨hh, hid⟩ := h.fresh hfl
      rw [getElem?_byHash_removeByHash, byId_removeByHash hr, ExtTreeMap.getElem?_erase,
        hh, hid]
      exact ⟨ite_self none, ite_self none⟩

end Linked

theorem Linked.queueFor (h : pool.Linked P none) (tx : OrderedTransaction) :
    (∀ tx' ∈ (pool.queueFor tx).txs, tx'.sender = tx.sender ∧ pool.byHash[tx'.hash]? = some tx') ∧
      (pool.queueFor tx).txs.Nodup := by
  rw [PoolInner.queueFor]
  cases hf : pool.bySender[tx.sender]? with
  | none => exact ⟨fun tx' htx' => (not_mem_nil htx').elim, nodup_nil⟩
  | some queue =>
    refine ⟨fun tx' htx' => ⟨h.owned hf tx' htx', ?_⟩, h.nodup hf⟩
    rcases h.known hf tx' htx' with hfl | hk
    · cases hfl
    · exact hk

variable {tx : OrderedTransaction}

theorem Linked.file (h : pool.Linked P none) (hh : pool.byHash[tx.hash]? = none)
    (hid : pool.byId[orderedTxId P tx]? = none) : (pool.file tx).1.Linked P (some tx) := by
  obtain ⟨hq, hn⟩ := h.queueFor tx
  have hnew : tx ∉ (pool.queueFor tx).txs := fun hmem => by
    rw [(hq tx hmem).2] at hh
    cases hh
  have hp := (pool.queueFor tx).insert_perm tx
  have hmem : ∀ tx' ∈ ((pool.queueFor tx).insert tx).1.txs, tx' = tx ∨
      tx' ∈ (pool.queueFor tx).txs := fun tx' htx' =>
    mem_cons.1 (hp.subset (mem_append_right _ htx'))
  have hf : ∀ {sender : Address} {queue'}, (pool.file tx).1.bySender[sender]? = some queue' →
      (sender = tx.sender ∧ queue' = ((pool.queueFor tx).insert tx).1) ∨
        pool.bySender[sender]? = some queue' := by
    intro sender queue' hq'
    rw [file_eq, getElem?_setQueue] at hq'
    split at hq'
    · next heq => exact .inl ⟨heq.symm, (Option.some.inj hq').symm⟩
    · exact .inr hq'
  refine ⟨fun hq' tx' htx' => ?_, fun hq' => ?_, fun hq' tx' htx' => ?_, h.keyed,
    fun heq => Option.some.inj heq ▸ ⟨hh, hid⟩⟩
  · rcases hf hq' with ⟨rfl, rfl⟩ | hold
    · rcases hmem tx' htx' with rfl | hold
      · rfl
      · exact (hq tx' hold).1
    · exact h.owned hold tx' htx'
  · rcases hf hq' with ⟨rfl, rfl⟩ | hold
    · exact (nodup_append.1 (hp.nodup_iff.2 (nodup_cons.2 ⟨hnew, hn⟩))).2.1
    · exact h.nodup hold
  · rcases hf hq' with ⟨rfl, rfl⟩ | hold
    · rcases hmem tx' htx' with rfl | hold
      · exact .inl rfl
      · exact .inr (hq tx' hold).2
    · refine .inr ((h.known hold tx' htx').resolve_left fun heq => by cases heq)

theorem Linked.refuse (h : pool.Linked P none) {old : OrderedTransaction}
    (hh : pool.byHash[tx.hash]? = none) (hold : (pool.file tx).2 = some old)
    (hs : old.hash = tx.hash) : (pool.file tx).1.Linked P none := by
  obtain ⟨hq, hn⟩ := h.queueFor tx
  have hnew : ∀ tx' ∈ (pool.queueFor tx).txs, tx'.hash ≠ tx.hash := by
    intro tx' htx' heq
    have hk := (hq tx' htx').2
    rw [heq, hh] at hk
    cases hk
  obtain rfl : old = tx :=
    (SenderQueue.displaced hold).resolve_right fun hmem => hnew old hmem hs
  rw [file_of_refused (fun hmem => hnew old hmem rfl) hold]
  exact h

theorem Linked.index (h : pool.Linked P (some tx)) : (pool.index P tx).Linked P none := by
  obtain ⟨hh, hid⟩ := h.fresh rfl
  have hbyHash : ∀ hash : B256, (pool.index P tx).byHash[hash]? =
      if tx.hash = hash then some tx else pool.byHash[hash]? := by
    intro hash
    rw [PoolInner.index, byHash_updateCounts, ExtTreeMap.getElem?_insert]
    simp only [LawfulEqCmp.compare_eq_iff_eq]
  have hbyId : ∀ id : B256, (pool.index P tx).byId[id]? =
      if orderedTxId P tx = id then some tx.hash else pool.byId[id]? := by
    intro id
    rw [PoolInner.index]
    show (pool.byId.insert (orderedTxId P tx) tx.hash)[id]? = _
    rw [ExtTreeMap.getElem?_insert]
    simp only [LawfulEqCmp.compare_eq_iff_eq]
  refine ⟨h.owned, h.nodup, fun hq tx' htx' => .inr ?_, fun {hash tx'} hget => ?_,
    fun heq => by cases heq⟩
  · rw [hbyHash]
    rcases h.known hq tx' htx' with hf | hk
    · obtain rfl := Option.some.inj hf
      exact if_pos rfl
    · rw [if_neg, hk]
      intro heq
      rw [heq, hk] at hh
      cases hh
  · rw [hbyHash] at hget
    rw [hbyId]
    split at hget
    · next heq =>
      obtain rfl := Option.some.inj hget
      exact ⟨heq, by rw [if_pos rfl, heq]⟩
    · refine ⟨(h.keyed hget).1, ?_⟩
      rw [if_neg, (h.keyed hget).2]
      intro heq
      rw [heq, (h.keyed hget).2] at hid
      cases hid

theorem poolInvariant_linked : PoolInvariant P (fun _ _ => True) (Linked P) where
  new := by
    refine ⟨?_, ?_, ?_, ?_, ?_⟩ <;> simp [PoolInner.new]
  updateCounts h := ⟨h.owned, h.nodup, h.known, h.keyed, h.fresh⟩
  dropEmpty sender h := h.dropEmpty sender
  removeByHash hash h := h.removeByHash hash
  confirm confirmedNonce h hq := h.setQueue hq (by
    rw [SenderQueue.txs_removeConfirmed]
    exact filter_sublist)
  file h _ hh hid _ := h.file hh hid
  refuse h _ hh hold hs := h.refuse hh hold hs
  index h := h.index

/-! ### Pools that are reached -/

/-- What the operation tries to add has a 64-bit nonce. -/
def Op.NonceU64 (P : Platform) (A : Alloy) (op : Op) : Prop :=
  ∀ tx, op.Brings P A tx → tx.nonce ≤ U64_MAX

theorem settled_run {A : Alloy} (config : PoolConfig) {ops : List Op}
    (hops : ∀ op ∈ ops, op.NonceU64 P A) :
    (ops.foldl (PoolInner.step P A config) PoolInner.new).AllQueues SenderQueue.Settled :=
  (SenderQueue.queueInvariant_settled.poolInvariant (P := P)).run config
    (Run.along_of_forall hops)

theorem linked_run (P : Platform) (A : Alloy) (config : PoolConfig) (ops : List Op) :
    (ops.foldl (PoolInner.step P A config) PoolInner.new).Linked P none :=
  poolInvariant_linked.run config (Run.along_of_forall fun _ _ _ _ => trivial)

end PoolInner

end Kora
