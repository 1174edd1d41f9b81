/-
The two halves of the transaction pool.

Most operations go through states in which the maps and the queues hold different sets, so
each half is followed by itself.

* `PoolInner.Indexed`, `PoolInner.Filed` — the set that the maps, and that the queues
  hold;
* `foldl_removeByHash` — what the removal of several hashes does to both halves.
-/
import Kora.SenderQueue
import Mathlib.Data.Set.Basic

open Std Option ExtTreeMap

namespace Kora

/-! ### The two halves of a pool -/

namespace PoolInner

/-- The transactions in the queue of a sender. -/
def txsOf (self : PoolInner) (sender : Address) : List OrderedTransaction :=
  (self.bySender[sender]?).elim [] (·.txs)

/-- The hash map and the id map hold exactly the transactions of `S`. -/
structure Indexed (P : Platform) (pool : PoolInner) (S : Set OrderedTransaction) : Prop where
  byHash_iff : ∀ {hash : B256} {tx}, pool.byHash[hash]? = some tx ↔ tx ∈ S ∧ tx.hash = hash
  byId_iff : ∀ {id hash : B256}, pool.byId[id]? = some hash ↔
    ∃ tx ∈ S, orderedTxId P tx = id ∧ tx.hash = hash

/-- The queues are well formed and hold exactly the transactions of `S`. -/
structure Filed (pool : PoolInner) (S : Set OrderedTransaction) : Prop where
  mem_iff : ∀ tx, tx ∈ S ↔ tx ∈ pool.txsOf tx.sender
  wellFormed : ∀ {sender : Address} {queue}, pool.bySender[sender]? = some queue →
    queue.WellFormed sender

/-- Only senders in `E` have an empty queue. -/
def EmptyOnly (pool : PoolInner) (E : Set Address) : Prop :=
  ∀ (sender : Address) (queue : SenderQueue), pool.bySender[sender]? = some queue →
    queue.txs = [] → sender ∈ E

variable {P : Platform} {pool : PoolInner} {S S' : Set OrderedTransaction} {E : Set Address}
  {tx : OrderedTransaction}

theorem Indexed.eq_of_hash_eq (h : pool.Indexed P S) {tx' : OrderedTransaction} (htx : tx ∈ S)
    (htx' : tx' ∈ S) (hh : tx.hash = tx'.hash) : tx = tx' :=
  some.inj ((h.byHash_iff.2 ⟨htx, hh⟩).symm.trans (h.byHash_iff.2 ⟨htx', rfl⟩))

theorem Indexed.congr (h : pool.Indexed P S) (heq : ∀ tx, tx ∈ S ↔ tx ∈ S') :
    pool.Indexed P S' := by
  rwa [Set.ext heq] at h

theorem Filed.congr (h : pool.Filed S) (heq : ∀ tx, tx ∈ S ↔ tx ∈ S') : pool.Filed S' := by
  rwa [Set.ext heq] at h

theorem Filed.of_bySender {pool' : PoolInner} (h : pool.Filed S)
    (heq : pool'.bySender = pool.bySender) : pool'.Filed S where
  mem_iff tx := by rw [txsOf, heq, h.mem_iff, txsOf]
  wellFormed hq := h.wellFormed (heq ▸ hq)

variable {sender : Address} {queue : SenderQueue}

theorem Filed.mem_queue (h : pool.Filed S) (hq : pool.bySender[sender]? = some queue) :
    tx ∈ queue.txs ↔ tx ∈ S ∧ tx.sender = sender := by
  constructor
  · intro htx
    obtain rfl := (h.wellFormed hq).owned tx htx
    refine ⟨(h.mem_iff tx).2 ?_, rfl⟩
    rw [txsOf, hq]
    exact htx
  · rintro ⟨htx, rfl⟩
    have hmem := (h.mem_iff tx).1 htx
    rwa [txsOf, hq] at hmem

theorem txsOf_of_none (h : pool.bySender[sender]? = none) : pool.txsOf sender = [] := by
  rw [txsOf, h]
  rfl

theorem Filed.exists_queue (h : pool.Filed S) (htx : tx ∈ S) :
    ∃ queue, pool.bySender[tx.sender]? = some queue ∧ tx ∈ queue.txs := by
  have hmem := (h.mem_iff tx).1 htx
  cases hq : pool.bySender[tx.sender]? with
  | none =>
    rw [txsOf_of_none hq] at hmem
    cases hmem
  | some queue =>
    rw [txsOf, hq] at hmem
    exact ⟨queue, rfl, hmem⟩

/-! ### One queue replaced -/

/-- The pool with another queue for a sender. -/
def setQueue (self : PoolInner) (sender : Address) (queue : SenderQueue) : PoolInner :=
  { self with bySender := self.bySender.insert sender queue }

theorem getElem?_setQueue (pool : PoolInner) (sender : Address) (queue : SenderQueue)
    (sender' : Address) :
    (pool.setQueue sender queue).bySender[sender']? =
      if sender = sender' then some queue else pool.bySender[sender']? := by
  rw [setQueue, getElem?_insert]
  simp only [LawfulEqCmp.compare_eq_iff_eq]

theorem setQueue_self (hq : pool.bySender[sender]? = some queue) :
    pool.setQueue sender queue = pool := by
  have hs : pool.bySender.insert sender queue = pool.bySender := by
    refine ext_getElem? fun sender' => ?_
    have hget := getElem?_setQueue pool sender queue sender'
    split at hget
    · next heq => exact hget.trans (heq ▸ hq).symm
    · exact hget
  rw [setQueue, hs]

theorem Filed.setQueue (h : pool.Filed S) (hq : queue.WellFormed sender)
    (hmem : ∀ tx, tx.sender = sender → (tx ∈ queue.txs ↔ tx ∈ S'))
    (ho : ∀ tx, tx.sender ≠ sender → (tx ∈ S ↔ tx ∈ S')) :
    (pool.setQueue sender queue).Filed S' := by
  refine ⟨fun tx => ?_, fun {sender' queue'} hq' => ?_⟩
  · rw [txsOf, getElem?_setQueue]
    split
    · next heq => exact (hmem tx heq.symm).symm
    · next hne =>
      rw [← ho tx (Ne.symm hne), h.mem_iff tx]
      rfl
  · rw [getElem?_setQueue] at hq'
    split at hq'
    · next heq =>
      obtain rfl := some.inj hq'
      exact heq ▸ hq
    · exact h.wellFormed hq'

theorem EmptyOnly.setQueue (h : pool.EmptyOnly E) (hq : queue.txs = [] → sender ∈ E) :
    (pool.setQueue sender queue).EmptyOnly E := by
  intro sender' queue' hq' he
  rw [getElem?_setQueue] at hq'
  split at hq'
  · next heq =>
    obtain rfl := some.inj hq'
    exact heq ▸ hq he
  · exact h sender' queue' hq' he

theorem EmptyOnly.setQueue_any (h : pool.EmptyOnly E) (sender : Address) (queue : SenderQueue) :
    (pool.setQueue sender queue).EmptyOnly ({sender} ∪ E) := by
  have hm : pool.EmptyOnly ({sender} ∪ E) := fun sender' queue' hq' he =>
    .inr (h sender' queue' hq' he)
  exact hm.setQueue fun _ => .inl rfl

theorem isEmpty_iff : queue.isEmpty = true ↔ queue.txs = [] := by
  rw [SenderQueue.isEmpty, SenderQueue.txs, Bool.and_eq_true, List.isEmpty_iff, List.isEmpty_iff,
    List.append_eq_nil_iff]

theorem getElem?_dropEmpty {sender' : Address} :
    (pool.dropEmpty sender).bySender[sender']? = some queue ↔
      pool.bySender[sender']? = some queue ∧ (sender = sender' → queue.txs ≠ []) := by
  rw [dropEmpty]
  split
  · next queue₀ hq₀ =>
    split
    · next he =>
      rw [getElem?_erase]
      simp only [LawfulEqCmp.compare_eq_iff_eq]
      split
      · next heq =>
        subst heq
        rw [hq₀, some_inj]
        constructor
        · intro h
          cases h
        · intro h
          exact absurd (isEmpty_iff.1 he) (h.1 ▸ h.2 rfl)
      · next hne => simp [hne]
    · next he =>
      refine ⟨fun h => ⟨h, fun heq => ?_⟩, And.left⟩
      obtain rfl : queue₀ = queue := some.inj (hq₀.symm.trans (heq ▸ h))
      exact mt isEmpty_iff.2 he
  · next hnone =>
    refine ⟨fun h => ⟨h, fun heq => ?_⟩, And.left⟩
    rw [← heq, hnone] at h
    cases h

theorem txsOf_dropEmpty (pool : PoolInner) (sender sender' : Address) :
    (pool.dropEmpty sender).txsOf sender' = pool.txsOf sender' := by
  cases hq : (pool.dropEmpty sender).bySender[sender']? with
  | some queue => rw [txsOf, txsOf, hq, (getElem?_dropEmpty.1 hq).1]
  | none =>
    rw [txsOf_of_none hq]
    cases hq' : pool.bySender[sender']? with
    | none => rw [txsOf_of_none hq']
    | some queue =>
      -- only an empty queue is dropped
      rw [txsOf, hq']
      by_contra hne
      have hk := getElem?_dropEmpty.2 ⟨hq', fun _ : sender = sender' => Ne.symm hne⟩
      rw [hq] at hk
      cases hk

theorem Filed.dropEmpty (h : pool.Filed S) (sender : Address) :
    (pool.dropEmpty sender).Filed S where
  mem_iff tx := by rw [txsOf_dropEmpty, h.mem_iff]
  wellFormed hq := h.wellFormed (getElem?_dropEmpty.1 hq).1

theorem byId_dropEmpty (pool : PoolInner) (sender : Address) :
    (pool.dropEmpty sender).byId = pool.byId := by
  rw [PoolInner.dropEmpty]
  split
  · split <;> rfl
  · rfl

theorem Indexed.dropEmpty (h : pool.Indexed P S) (sender : Address) :
    (pool.dropEmpty sender).Indexed P S where
  byHash_iff := by
    rw [byHash_dropEmpty]
    exact h.byHash_iff
  byId_iff := by
    rw [byId_dropEmpty]
    exact h.byId_iff

theorem EmptyOnly.dropEmpty (h : pool.EmptyOnly ({sender} ∪ E)) :
    (pool.dropEmpty sender).EmptyOnly E := by
  intro sender' queue hq he
  obtain ⟨hq, hk⟩ := getElem?_dropEmpty.1 hq
  rcases h sender' queue hq he with heq | hmem
  · exact absurd he (hk heq.symm)
  · exact hmem

/-! ### Removing by hash -/

variable {hash : B256}

theorem removeByHash_of_none (h : pool.byHash[hash]? = none) : removeByHash P pool hash = pool := by
  rw [removeByHash, h]

theorem byId_removeByHash (h : pool.byHash[hash]? = some tx) :
    (removeByHash P pool hash).byId = pool.byId.erase (orderedTxId P tx) := by
  rw [removeByHash, h]
  dsimp only
  split
  · rfl
  · rw [byId_dropEmpty]

theorem queue_of_removeByHash (h : (removeByHash P pool hash).bySender[sender]? = some queue) :
    ∃ before, pool.bySender[sender]? = some before ∧
      (queue = before ∧ (∀ removed, pool.byHash[hash]? = some removed → removed.sender ≠ sender) ∨
        queue = before.removeByHash hash) := by
  cases hr : pool.byHash[hash]? with
  | none =>
    rw [removeByHash_of_none hr] at h
    exact ⟨queue, h, .inl ⟨rfl, fun removed heq => by cases heq⟩⟩
  | some removed =>
    have ho (hne : removed.sender ≠ sender) :
        ∀ removed', some removed = some removed' → removed'.sender ≠ sender :=
      fun removed' heq => some.inj heq ▸ hne
    rw [removeByHash, hr] at h
    dsimp only at h
    split at h
    · next hnone =>
      refine ⟨queue, h, .inl ⟨rfl, ho fun heq => ?_⟩⟩
      rw [← heq, hnone] at h
      cases h
    · next before hb =>
      have hset := (getElem?_dropEmpty.1 h).1
      rw [getElem?_insert] at hset
      simp only [LawfulEqCmp.compare_eq_iff_eq] at hset
      split_ifs at hset with heq
      · exact ⟨before, heq ▸ hb, .inr (some.inj hset).symm⟩
      · exact ⟨queue, hset, .inl ⟨rfl, ho heq⟩⟩

theorem Indexed.removeByHash (h : pool.Indexed P S) (hash : B256) :
    (removeByHash P pool hash).Indexed P {tx ∈ S | tx.hash ≠ hash} := by
  refine ⟨fun {hash' tx} => ?_, fun {id hash'} => ?_⟩
  · rw [getElem?_byHash_removeByHash, Set.mem_sep_iff]
    split
    · next heq =>
      refine ⟨by simp, fun ⟨⟨_, hne⟩, hh⟩ => ?_⟩
      exact absurd (hh.trans heq.symm) hne
    · next hne =>
      rw [h.byHash_iff]
      exact ⟨fun ⟨htx, hh⟩ => ⟨⟨htx, fun heq => hne (heq.symm.trans hh)⟩, hh⟩,
        fun ⟨⟨htx, _⟩, hh⟩ => ⟨htx, hh⟩⟩
  · cases hr : pool.byHash[hash]? with
    | none =>
      -- no transaction has the hash
      have hall : ∀ tx ∈ S, tx.hash ≠ hash := fun tx htx hh => by
        rw [h.byHash_iff.2 ⟨htx, hh⟩] at hr
        cases hr
      rw [removeByHash_of_none hr, h.byId_iff]
      exact exists_congr fun tx =>
        and_congr_left fun _ => ⟨fun htx => ⟨htx, hall tx htx⟩, And.left⟩
    | some removed =>
      obtain ⟨hmem, hh⟩ := h.byHash_iff.1 hr
      rw [byId_removeByHash hr, getElem?_erase]
      simp only [LawfulEqCmp.compare_eq_iff_eq]
      split
      · next heq =>
        -- the id was that of the removed transaction and of no other one
        refine ⟨by simp, fun ⟨tx, ⟨htx, hne⟩, hid, _⟩ => ?_⟩
        have hs : some removed.hash = some tx.hash :=
          (h.byId_iff.2 ⟨removed, hmem, heq, rfl⟩).symm.trans (h.byId_iff.2 ⟨tx, htx, hid, rfl⟩)
        exact absurd ((some.inj hs).symm.trans hh) hne
      · next hne =>
        rw [h.byId_iff]
        refine exists_congr fun tx => ⟨fun ⟨htx, hid, heq⟩ => ⟨⟨htx, fun hh' => ?_⟩, hid, heq⟩,
          fun ⟨⟨htx, _⟩, hid, heq⟩ => ⟨htx, hid, heq⟩⟩
        obtain rfl := h.eq_of_hash_eq htx hmem (hh'.trans hh.symm)
        exact hne hid

theorem Filed.removeByHash (h : pool.Filed S') (hi : pool.Indexed P S)
    (hsub : ∀ tx ∈ S', tx.hash = hash → tx ∈ S) :
    (removeByHash P pool hash).Filed {tx ∈ S' | tx.hash ≠ hash} := by
  cases hr : pool.byHash[hash]? with
  | none =>
    rw [removeByHash_of_none hr]
    refine h.congr fun tx => ⟨fun htx => ⟨htx, fun hh => ?_⟩, And.left⟩
    rw [hi.byHash_iff.2 ⟨hsub tx htx hh, hh⟩] at hr
    cases hr
  | some removed =>
    obtain ⟨hmem, hh⟩ := hi.byHash_iff.1 hr
    have ho : ∀ tx ∈ S', tx.hash = hash → tx = removed := fun tx htx ht =>
      hi.eq_of_hash_eq (hsub tx htx ht) hmem (ht.trans hh.symm)
    rw [PoolInner.removeByHash, hr]
    dsimp only
    split
    · next hnone =>
      have hsm : pool.Filed {tx ∈ S' | tx.hash ≠ hash} := by
        refine h.congr fun tx => ⟨fun htx => ⟨htx, fun ht => ?_⟩, And.left⟩
        obtain rfl := ho tx htx ht
        obtain ⟨queue, hq, -⟩ := h.exists_queue htx
        rw [hnone] at hq
        cases hq
      exact hsm.of_bySender rfl
    · next queue hq =>
      have hwf := h.wellFormed hq
      have hl : ∀ tx, tx ∈ (queue.removeByHash hash).txs ↔ tx ∈ queue.txs ∧ tx.hash ≠ hash :=
        hwf.mem_removeByHash fun tx htx tx' htx' hx hx' =>
          (ho tx ((h.mem_queue hq).1 htx).1 hx).trans
            (ho tx' ((h.mem_queue hq).1 htx').1 hx').symm
      have hset : (pool.setQueue removed.sender (queue.removeByHash hash)).Filed
          {tx ∈ S' | tx.hash ≠ hash} := by
        refine h.setQueue (hwf.removeByHash hash) (fun tx hs => ?_)
          fun tx hs => ⟨fun htx => ⟨htx, fun ht => ?_⟩, And.left⟩
        · rw [hl, h.mem_queue hq, Set.mem_sep_iff]
          simp [hs]
        · exact hs (congrArg _ (ho tx htx ht))
      refine Filed.dropEmpty ?_ removed.sender
      exact hset.of_bySender rfl

theorem EmptyOnly.removeByHash (h : pool.EmptyOnly E) (hash : B256) :
    (removeByHash P pool hash).EmptyOnly E := by
  rw [PoolInner.removeByHash]
  split
  · exact h
  · dsimp only
    split
    · exact h
    · next tx _ _ queue _ =>
      refine EmptyOnly.dropEmpty ?_
      exact h.setQueue_any tx.sender (queue.removeByHash hash)

theorem foldl_removeByHash (hin : pool.Indexed P S) (hfl : pool.Filed S')
    (hsub : S' ⊆ S) (hem : pool.EmptyOnly E) (hashes : List B256) :
    (hashes.foldl (PoolInner.removeByHash P) pool).Indexed P {tx ∈ S | tx.hash ∉ hashes} ∧
      (hashes.foldl (PoolInner.removeByHash P) pool).Filed {tx ∈ S' | tx.hash ∉ hashes} ∧
      (hashes.foldl (PoolInner.removeByHash P) pool).EmptyOnly E := by
  induction hashes generalizing pool S S' with
  | nil => simpa using ⟨hin, hfl, hem⟩
  | cons hash hashes ih =>
    have hsub' : {tx ∈ S' | tx.hash ≠ hash} ⊆ {tx ∈ S | tx.hash ≠ hash} := fun tx htx =>
      ⟨hsub htx.1, htx.2⟩
    obtain ⟨hi, hf, he⟩ := ih (hin.removeByHash hash)
      (hfl.removeByHash hin fun tx htx _ => hsub htx) hsub' (hem.removeByHash hash)
    refine ⟨hi.congr fun tx => ?_, hf.congr fun tx => ?_, he⟩
    · simp [and_assoc]
    · simp [and_assoc]

end PoolInner

end Kora
