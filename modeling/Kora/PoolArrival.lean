/-
The order in which the transactions of a sender arrive.

The first transaction of a sender sets the nonce from which the pending ones count up, and
what comes later with a smaller nonce is refused.

* `Gathers` — the pool holds some transactions of one sender and nothing else;
* `arrival_order_iff` — which orders are as good as each other.
-/
import Kora.PoolInsertion
import Kora.TxValidator

open Std List

namespace Kora

/-! ### Filing a nonce of its own -/

namespace SenderQueue

variable {self : SenderQueue} {tx : OrderedTransaction}

theorem insert_fixed (self : SenderQueue) (tx : OrderedTransaction) :
    (self.insert tx).1.sender = self.sender ∧ (self.insert tx).1.nextNonce = self.nextNonce := by
  rcases self.insert_cases tx with ⟨-, hi⟩ | ⟨-, -, hi⟩ | ⟨-, -, hi⟩ |
    ⟨-, -, existing, -, -, hi⟩
  all_goals
    rw [hi]
    exact ⟨rfl, rfl⟩

/-- **A transaction with a nonce of its own** displaces nothing; order holds up to the largest
nonce. -/
theorem insert_fresh (h : MaximalRun (·.nonce) self.nextNonce self.pending self.queued)
    (hle : ∀ tx ∈ self.txs, tx.nonce ≤ U64_MAX) (hlow : self.nextNonce ≤ tx.nonce)
    (hmax : tx.nonce ≤ U64_MAX) (hnew : ¬ self.HasNonce tx.nonce) :
    (self.insert tx).2 = none ∧ (self.insert tx).1.txs.Perm (tx :: self.txs) ∧
      MaximalRun (·.nonce) (self.insert tx).1.nextNonce (self.insert tx).1.pending
        (self.insert tx).1.queued := by
  have hs : self.Settled := h.settledRun (hlow.trans hmax) hle
  have hnone : (self.insert tx).2 = none := by
    rcases hs.insert_cases hlow hmax with ⟨-, ha⟩ | ⟨-, -, had⟩ |
      ⟨-, existing, hmem, hnn, -⟩
    · exact ha.1
    · exact had.1
    · exact absurd ⟨existing, hmem, hnn⟩ hnew
  have hp := self.insert_perm tx
  rw [hnone] at hp
  refine ⟨hnone, hp, maximalRun_insert h (fun tx' htx' => ?_) hmax fun hn => ?_⟩
  · exact hle tx' (mem_append_right _ htx')
  · rw [nextPendingNonce, Nat.min_eq_left (hs.sum_le hlow hmax hnew)] at hn
    exact hn

end SenderQueue

/-! ### One transaction -/

/-- The limits admit so many transactions of a sender, wherever they stand. -/
structure PoolConfig.Admits (config : PoolConfig) (n : ℕ) : Prop where
  sender : n ≤ config.maxTxsPerSender
  pending : n ≤ config.maxPendingTxs
  queued : n ≤ config.maxQueuedTxs

namespace PoolInner

variable {P : Platform} {A : Alloy} {config : PoolConfig} {pool : PoolInner}
  {tx : OrderedTransaction} {l : List OrderedTransaction} {queue : SenderQueue}

/-- The pool holds the transactions of a list, all of them in one queue. -/
structure Gathers (P : Platform) (pool : PoolInner) (queue : SenderQueue)
    (l : List OrderedTransaction) : Prop where
  others : ∀ sender, sender ≠ queue.sender → pool.bySender[sender]? = none
  nonces : MaximalRun (·.nonce) queue.nextNonce queue.pending queue.queued
  perm : queue.txs.Perm l
  byHash : ∀ hash, pool.byHash[hash]? = none ↔ ∀ tx ∈ l, tx.hash ≠ hash
  byId : ∀ id, pool.byId[id]? = none ↔ ∀ tx ∈ l, orderedTxId P tx ≠ id
  pendingCount : pool.pendingCount = queue.pending.length
  queuedCount : pool.queuedCount = queue.queued.length

theorem gathers_new (P : Platform) (sender : Address) (nonce : ℕ) :
    PoolInner.new.Gathers P (SenderQueue.new sender nonce) [] where
  others sender' _ := by simp [PoolInner.new]
  nonces := ⟨.nil _ _, by simp [SenderQueue.new]⟩
  perm := .refl _
  byHash hash := by simp [PoolInner.new]
  byId id := by simp [PoolInner.new]
  pendingCount := rfl
  queuedCount := rfl

theorem Gathers.length_eq (h : pool.Gathers P queue l) :
    queue.pending.length + queue.queued.length = l.length := by
  rw [← length_append]
  exact h.perm.length_eq

/-- The next transaction differs from the ones before it. -/
structure Newcomer (P : Platform) (l : List OrderedTransaction) (tx : OrderedTransaction) :
    Prop where
  max : tx.nonce ≤ U64_MAX
  le : ∀ tx' ∈ l, tx'.nonce ≤ U64_MAX
  nonce : ∀ tx' ∈ l, tx'.nonce ≠ tx.nonce
  hash : ∀ tx' ∈ l, tx'.hash ≠ tx.hash
  id : ∀ tx' ∈ l, orderedTxId P tx' ≠ orderedTxId P tx

theorem rejectWhenFull_of_lt {max count : ℕ} (h : count < max) (minPrice : Option ℕ) :
    rejectWhenFull max count minPrice tx = .ok () := by
  rw [rejectWhenFull.eq_def, if_neg (by omega)]
  cases minPrice with
  | none => rfl
  | some price => exact if_neg fun hf => Nat.not_le.2 h hf.1

theorem add_eq_entered (hc : pool.Checked P config tx)
    (hnone : ((pool.queueFor tx).insert tx).2 = none)
    (hp : (pool.entered P tx).pendingCount ≤ config.maxPendingTxs)
    (hq : (pool.entered P tx).queuedCount ≤ config.maxQueuedTxs) :
    pool.add P A config tx = added A [] tx (pool.entered P tx, []) := by
  have hf : (pool.file tx).2 = none := by rw [file_snd, hnone]
  rcases add_cases P A config pool tx with ⟨hnot, -⟩ | ⟨-, -, hadd⟩ | ⟨-, old, hb, -⟩ |
    ⟨-, old, hb, -⟩
  · exact absurd hc hnot
  · rw [hadd, enter_eq, index_file, evictExcess_of_le hp hq]
  · cases hf.symm.trans hb
  · cases hf.symm.trans hb

theorem add_low (hf : pool.bySender[tx.sender]? = some queue)
    (hlow : tx.nonce < queue.nextNonce) : (pool.add P A config tx).2.2 ≠ .ok () := by
  have hnot : ¬ pool.Checked P config tx := by
    intro hc
    have hle := nextNonce_le_of_checkSender hc.sender
    rw [PoolInner.queueFor, hf] at hle
    exact Nat.not_le.2 hlow hle
  rcases add_cases P A config pool tx with ⟨-, err, hadd⟩ | ⟨hc, -⟩ | ⟨hc, -⟩ |
    ⟨hc, -⟩
  · rw [hadd]
    simp
  all_goals exact absurd hc hnot

theorem Gathers.checkSender (h : pool.Gathers P (pool.queueFor tx) l)
    (hlow : (pool.queueFor tx).nextNonce ≤ tx.nonce) (hr : l.length < config.maxTxsPerSender)
    (target : InsertionTarget) : pool.checkSender config tx target = .ok () := by
  rw [PoolInner.checkSender]
  rcases queueFor_cases pool tx with hf | ⟨hf, -⟩
  · have hc : (pool.queueFor tx).totalCount < config.maxTxsPerSender := by
      rw [SenderQueue.totalCount, h.length_eq]
      exact hr
    rw [hf]
    dsimp only
    rw [if_neg (Nat.not_lt.2 hlow), if_neg fun hfl => Nat.not_le.2 hc hfl.2]
  · rw [hf]

theorem Gathers.entered (h : pool.Gathers P (pool.queueFor tx) l)
    (ho : (pool.queueFor tx).sender = tx.sender)
    (hp : ((pool.queueFor tx).insert tx).1.txs.Perm (tx :: (pool.queueFor tx).txs))
    (hrun : MaximalRun (·.nonce) ((pool.queueFor tx).insert tx).1.nextNonce
      ((pool.queueFor tx).insert tx).1.pending ((pool.queueFor tx).insert tx).1.queued) :
    (pool.entered P tx).Gathers P ((pool.queueFor tx).insert tx).1 (l ++ [tx]) := by
  have hs := ((pool.queueFor tx).insert_fixed tx).1.trans ho
  -- the counters are sums over a single queue
  have hv : (pool.entered P tx).bySender.values = [((pool.queueFor tx).insert tx).1] := by
    refine OrderedMap.values_of_single (a := tx.sender) fun sender queue => ?_
    rw [getElem?_bySender_entered]
    split_ifs with heq
    · simp [heq, eq_comm]
    · rw [h.others sender (ho ▸ Ne.symm heq)]
      simp [Ne.symm heq]
  refine ⟨fun sender hne => ?_, hrun, ?_, fun hash => ?_, fun id => ?_, ?_, ?_⟩
  · rw [hs] at hne
    rw [getElem?_bySender_entered, if_neg (Ne.symm hne)]
    exact h.others sender (ho ▸ hne)
  · exact hp.trans ((h.perm.cons tx).trans (perm_append_singleton tx l).symm)
  · rw [forall_mem_append, forall_mem_singleton, ← h.byHash]
    exact OrderedMap.getElem?_insert_eq_none
  · rw [forall_mem_append, forall_mem_singleton, ← h.byId]
    exact OrderedMap.getElem?_insert_eq_none
  · show ((pool.entered P tx).bySender.values.map _).sum = _
    rw [hv]
    simp
  · show ((pool.entered P tx).bySender.values.map _).sum = _
    rw [hv]
    simp

theorem Gathers.add (h : pool.Gathers P (pool.queueFor tx) l)
    (ho : (pool.queueFor tx).sender = tx.sender) (hnew : Newcomer P l tx)
    (hlow : (pool.queueFor tx).nextNonce ≤ tx.nonce) (hr : config.Admits (l.length + 1)) :
    pool.add P A config tx = added A [] tx (pool.entered P tx, []) ∧
      (pool.entered P tx).Gathers P ((pool.queueFor tx).insert tx).1 (l ++ [tx]) := by
  have hmem : ∀ tx' ∈ (pool.queueFor tx).txs, tx' ∈ l := fun tx' htx' => h.perm.subset htx'
  obtain ⟨hnone, hp, hrun⟩ := SenderQueue.insert_fresh h.nonces
    (fun tx' htx' => hnew.le tx' (hmem tx' htx')) hlow hnew.max
    fun ⟨old, hold, heq⟩ => hnew.nonce old (hmem old hold) heq
  have he := h.entered ho hp hrun
  refine ⟨?_, he⟩
  -- before and after, the counts are within the limits
  have hb := h.length_eq
  have ha := he.length_eq
  rw [length_append, length_singleton] at ha
  have hs := hr.sender
  have hpn := hr.pending
  have hq := hr.queued
  refine add_eq_entered ⟨(h.byHash _).2 hnew.hash, (h.byId _).2 hnew.id,
    h.checkSender hlow hs _, ?_⟩ hnone ?_ ?_
  · cases insertionTarget pool.bySender[tx.sender]? tx with
    | pending =>
      refine rejectWhenFull_of_lt ?_ _
      rw [h.pendingCount]
      omega
    | queued =>
      refine rejectWhenFull_of_lt ?_ _
      rw [h.queuedCount]
      omega
    | replacement => rfl
  · rw [he.pendingCount]
    omega
  · rw [he.queuedCount]
    omega

/-! ### A whole batch -/

/-- Add transactions one after the other, and collect the answers. -/
def addAll (P : Platform) (A : Alloy) (config : PoolConfig) (self : PoolInner) :
    List OrderedTransaction → PoolInner × List (Except TxPoolError Unit)
  | [] => (self, [])
  | tx :: txs =>
    let (inner, _, result) := self.add P A config tx
    let (inner, results) := addAll P A config inner txs
    (inner, result :: results)

/-- Every transaction is accepted. -/
def AcceptsAll (P : Platform) (A : Alloy) (config : PoolConfig) (pool : PoolInner)
    (l : List OrderedTransaction) : Prop :=
  ∀ result ∈ (pool.addAll P A config l).2, result = .ok ()

/-- Transactions of one sender that differ in their nonces, hashes and ids. -/
structure Batch (P : Platform) (sender : Address) (l : List OrderedTransaction) : Prop where
  owned : ∀ tx ∈ l, tx.sender = sender
  le : ∀ tx ∈ l, tx.nonce ≤ U64_MAX
  nonces : (l.map (·.nonce)).Nodup
  hashes : (l.map (·.hash)).Nodup
  ids : (l.map (orderedTxId P)).Nodup

variable {sender : Address} {l' : List OrderedTransaction}

theorem Batch.perm (h : Batch P sender l) (hp : l.Perm l') : Batch P sender l' where
  owned tx htx := h.owned tx (hp.symm.subset htx)
  le tx htx := h.le tx (hp.symm.subset htx)
  nonces := (hp.map _).nodup_iff.1 h.nonces
  hashes := (hp.map _).nodup_iff.1 h.hashes
  ids := (hp.map _).nodup_iff.1 h.ids

theorem ne_of_nodup_map {α β : Type*} {f : α → β} {l rest : List α} {a : α}
    (h : ((l ++ a :: rest).map f).Nodup) : ∀ b ∈ l, f b ≠ f a := by
  intro b hb heq
  rw [map_append, map_cons] at h
  exact (nodup_append.1 h).2.2 (f b) (mem_map_of_mem hb) (f a) mem_cons_self heq

theorem Batch.newcomer {rest : List OrderedTransaction} (h : Batch P sender (l ++ tx :: rest)) :
    Newcomer P l tx where
  max := h.le tx (mem_append_right _ mem_cons_self)
  le tx' htx' := h.le tx' (mem_append_left _ htx')
  nonce := ne_of_nodup_map h.nonces
  hash := ne_of_nodup_map h.hashes
  id := ne_of_nodup_map h.ids

/-- The pool after a batch: the queue still counts from the same nonce. -/
def GathersFrom (P : Platform) (pool : PoolInner) (sender : Address) (nonce : ℕ)
    (l : List OrderedTransaction) : Prop :=
  ∃ queue : SenderQueue, queue.sender = sender ∧ queue.nextNonce = nonce ∧
    pool.bySender[sender]? = some queue ∧ pool.Gathers P queue l

/-- **The first of a batch** is accepted if its nonce is not too low; then the others are. -/
theorem Gathers.addAll_cons (h : pool.Gathers P (pool.queueFor tx) l)
    (ho : (pool.queueFor tx).sender = tx.sender)
    (hlow : (pool.queueFor tx).nextNonce ≤ tx.nonce) (rest : List OrderedTransaction)
    (hb : Batch P tx.sender (l ++ tx :: rest))
    (hr : config.Admits (l ++ tx :: rest).length) :
    ∃ inner : PoolInner, pool.addAll P A config (tx :: rest) =
        ((inner.addAll P A config rest).1, .ok () :: (inner.addAll P A config rest).2) ∧
      inner.GathersFrom P tx.sender (pool.queueFor tx).nextNonce (l ++ [tx]) := by
  have hnx : config.Admits (l.length + 1) := by
    obtain ⟨hs, hp, hq⟩ := hr
    rw [length_append, length_cons] at hs hp hq
    constructor <;> omega
  obtain ⟨hadd, he⟩ := h.add (A := A) ho hb.newcomer hlow hnx
  obtain ⟨hs, hn⟩ := (pool.queueFor tx).insert_fixed tx
  refine ⟨pool.entered P tx, ?_, _, hs.trans ho, hn, ?_, he⟩
  · rw [PoolInner.addAll, hadd]
    rfl
  · rw [getElem?_bySender_entered, if_pos rfl]

/-- **The rest of a batch** is accepted iff no nonce is below the queue's base, and is then held. -/
theorem GathersFrom.addAll {nonce : ℕ} (h : pool.GathersFrom P sender nonce l)
    (rest : List OrderedTransaction) (hb : Batch P sender (l ++ rest))
    (hr : config.Admits (l ++ rest).length) :
    (pool.AcceptsAll P A config rest ↔ ∀ tx ∈ rest, nonce ≤ tx.nonce) ∧
      ((∀ tx ∈ rest, nonce ≤ tx.nonce) →
        (pool.addAll P A config rest).1.GathersFrom P sender nonce (l ++ rest)) := by
  induction rest generalizing pool l with
  | nil =>
    rw [append_nil]
    exact ⟨iff_of_true (by simp [AcceptsAll, PoolInner.addAll]) (by simp), fun _ => h⟩
  | cons tx rest ih =>
    obtain ⟨queue, hs, hn, hf, hg⟩ := h
    obtain rfl : tx.sender = sender :=
      hb.owned tx (mem_append_right _ mem_cons_self)
    have hq : pool.queueFor tx = queue := by
      rw [queueFor, hf]
      rfl
    rw [forall_mem_cons]
    by_cases hlow : nonce ≤ tx.nonce
    · -- the queue goes on counting from the same nonce, whatever this one is
      subst hq
      obtain ⟨inner, haddAll, hi⟩ :=
        hg.addAll_cons (A := A) hs (hn.trans_le hlow) rest hb hr
      rw [append_cons] at hb hr
      rw [hn] at hi
      have hih := ih hi hb hr
      rw [AcceptsAll, haddAll, forall_mem_cons, ← AcceptsAll, hih.1, append_cons]
      exact ⟨and_congr_left' (iff_of_true rfl hlow), fun hall => hih.2 hall.2⟩
    · have hrf : (pool.add P A config tx).2.2 ≠ .ok () :=
        add_low hf (hn ▸ Nat.not_le.1 hlow)
      refine ⟨iff_of_false (fun ha => hrf ?_) fun hall => hlow hall.1,
        fun hall => absurd hall.1 hlow⟩
      exact ha _ mem_cons_self

theorem addAll_new {first : OrderedTransaction} {rest : List OrderedTransaction}
    (hb : Batch P first.sender (first :: rest))
    (hr : config.Admits (first :: rest).length) :
    (PoolInner.new.AcceptsAll P A config (first :: rest) ↔
        ∀ tx ∈ first :: rest, first.nonce ≤ tx.nonce) ∧
      ((∀ tx ∈ first :: rest, first.nonce ≤ tx.nonce) →
        (PoolInner.new.addAll P A config (first :: rest)).1.GathersFrom P first.sender first.nonce
          (first :: rest)) := by
  have hq : PoolInner.new.queueFor first = SenderQueue.new first.sender first.nonce := by
    simp [queueFor, PoolInner.new]
  have hnew : PoolInner.new.Gathers P (PoolInner.new.queueFor first) [] := by
    rw [hq]
    exact gathers_new P first.sender first.nonce
  obtain ⟨inner, haddAll, hi⟩ := hnew.addAll_cons (A := A) (by rw [hq]; rfl)
    (by rw [hq]; exact Nat.le_refl _) rest hb hr
  rw [hq] at hi
  have hs := hi.addAll (A := A) rest hb hr
  rw [AcceptsAll, haddAll, forall_mem_cons, ← AcceptsAll, forall_mem_cons, hs.1]
  exact ⟨and_congr_left' (iff_of_true rfl (Nat.le_refl _)), fun hall => hs.2 hall.2⟩

theorem GathersFrom.bySender_eq {pool' : PoolInner} {nonce : ℕ}
    (h : pool.GathersFrom P sender nonce l) (h' : pool'.GathersFrom P sender nonce l')
    (hpr : l.Perm l') : pool.bySender = pool'.bySender := by
  obtain ⟨queue, hs, hn, hf, hg⟩ := h
  obtain ⟨queue', hs', hn', hf', hg'⟩ := h'
  have hrun' := hg'.nonces
  rw [hn', ← hn] at hrun'
  obtain ⟨hp, hq⟩ := hg.nonces.unique hrun' fun tx =>
    (hg.perm.trans (hpr.trans hg'.perm.symm)).mem_iff
  have hqu : queue = queue' := by
    rcases queue with ⟨owner, nextNonce, pending, queued⟩
    rcases queue' with ⟨owner', nextNonce', pending', queued'⟩
    rw [SenderQueue.mk.injEq]
    exact ⟨hs.trans hs'.symm, hn.trans hn'.symm, hp, hq⟩
  refine ExtTreeMap.ext_getElem? fun owner => ?_
  by_cases heq : owner = sender
  · rw [heq, hf, hf', hqu]
  · rw [hg.others owner (hs ▸ heq), hg'.others owner (hs' ▸ heq)]

/-- The first transaction of a list has the lowest nonce. -/
def LowestFirst (l : List OrderedTransaction) : Prop :=
  ∀ first ∈ l.head?, ∀ tx ∈ l, first.nonce ≤ tx.nonce

theorem acceptsAll_new_iff (hb : Batch P sender l) (hr : config.Admits l.length) :
    PoolInner.new.AcceptsAll P A config l ↔ LowestFirst l := by
  cases l with
  | nil => exact iff_of_true (by simp [AcceptsAll, PoolInner.addAll]) (by simp [LowestFirst])
  | cons first rest =>
    obtain rfl := hb.owned first mem_cons_self
    rw [(addAll_new hb hr).1, LowestFirst]
    simp

theorem bySender_addAll_eq (hb : Batch P sender l) (hr : config.Admits l.length)
    (hp : l.Perm l') (h : LowestFirst l) (h' : LowestFirst l') :
    (PoolInner.new.addAll P A config l).1.bySender =
      (PoolInner.new.addAll P A config l').1.bySender := by
  cases l with
  | nil =>
    rw [nil_perm.1 hp]
  | cons first rest =>
    obtain ⟨first', rest', rfl⟩ : ∃ first' rest', l' = first' :: rest' :=
      exists_cons_of_ne_nil fun hnil => by simp [hnil] at hp
    have hl : ∀ tx ∈ first :: rest, first.nonce ≤ tx.nonce := h first rfl
    have hl' : ∀ tx ∈ first' :: rest', first'.nonce ≤ tx.nonce := h' first' rfl
    -- both have the lowest nonce of the same transactions
    have hn : first.nonce = first'.nonce :=
      Nat.le_antisymm (hl first' (hp.symm.subset mem_cons_self))
        (hl' first (hp.subset mem_cons_self))
    have hb' := hb.perm hp
    obtain rfl := hb.owned first mem_cons_self
    have hs := hb'.owned first' mem_cons_self
    have hg := (addAll_new (A := A) hb hr).2 hl
    have hg' := (addAll_new (A := A) (hs ▸ hb') (hp.length_eq ▸ hr)).2 hl'
    rw [hs, ← hn] at hg'
    exact hg.bySender_eq hg' hp

end PoolInner

/-- **Submission order.** Two orders of validated transactions of one sender, distinct and within
the limits, are both accepted as a whole by an empty pool and lead to the same queues, exactly if
each starts with the lowest nonce. -/
theorem arrival_order_iff {S : Type} [StateDbRead S] (P : Platform) (C : EnvelopeCodec)
    (validator : TransactionValidator S) (sender : Address) (l l' : List OrderedTransaction)
    (hperm : l.Perm l')
    (hvalid : ∀ tx ∈ l, ∃ raw validated timestamp, validator.validate P C raw = .ok validated ∧
      tx = validated.intoOrdered C timestamp)
    (hsender : ∀ tx ∈ l, tx.sender = sender) (hnonces : (l.map (·.nonce)).Nodup)
    (hhashes : (l.map (·.hash)).Nodup) (hids : (l.map (orderedTxId P)).Nodup)
    (hroom : validator.config.Admits l.length) :
    (PoolInner.new.AcceptsAll P C.alloy validator.config l ∧
      PoolInner.new.AcceptsAll P C.alloy validator.config l' ∧
      (PoolInner.new.addAll P C.alloy validator.config l).1.bySender =
        (PoolInner.new.addAll P C.alloy validator.config l').1.bySender) ↔
      PoolInner.LowestFirst l ∧ PoolInner.LowestFirst l' := by
  have hle : ∀ tx ∈ l, tx.nonce ≤ U64_MAX := by
    intro tx htx
    obtain ⟨raw, validated, timestamp, -, rfl⟩ := hvalid tx htx
    exact Nat.le_sub_one_of_lt validated.nonce.isLt
  have hb : PoolInner.Batch P sender l := ⟨hsender, hle, hnonces, hhashes, hids⟩
  rw [PoolInner.acceptsAll_new_iff hb hroom,
    PoolInner.acceptsAll_new_iff (hb.perm hperm) (hperm.length_eq ▸ hroom)]
  constructor
  · rintro ⟨h, h', -⟩
    exact ⟨h, h'⟩
  · rintro ⟨h, h'⟩
    exact ⟨h, h', PoolInner.bySender_addAll_eq hb hroom hperm h h'⟩

section Example

open ValidatorExample

/-- A transfer with its byte and its nonce, as the validator returns it. -/
def ValidatorExample.arrival (byte : UInt8) (nonce : U64) : OrderedTransaction :=
  (validated byte (transfer nonce)).intoOrdered codec 0

theorem ValidatorExample.validate_arrival : ∀ tx ∈ [arrival 0 0, arrival 1 1, arrival 7 2],
    ∃ raw validated timestamp, (validator 21000000000000).validate platform codec raw =
      .ok validated ∧ tx = validated.intoOrdered codec timestamp := by
  simp only [forall_mem_cons]
  refine ⟨⟨⟨[0]⟩, _, 0, validate_transfer, rfl⟩, ⟨⟨[1]⟩, validated 1 (transfer 1), 0, rfl, rfl⟩,
    ⟨⟨[7]⟩, validated 7 (transfer 2), 0, rfl, rfl⟩, by simp⟩

/-- After the nonce 0 the other two can come in either order. -/
theorem arrival_order_iff_lowest :
    PoolInner.new.AcceptsAll platform codec.alloy .new [arrival 0 0, arrival 1 1, arrival 7 2] ∧
    PoolInner.new.AcceptsAll platform codec.alloy .new [arrival 0 0, arrival 7 2, arrival 1 1] ∧
    (PoolInner.new.addAll platform codec.alloy .new
        [arrival 0 0, arrival 1 1, arrival 7 2]).1.bySender =
      (PoolInner.new.addAll platform codec.alloy .new
        [arrival 0 0, arrival 7 2, arrival 1 1]).1.bySender := by
  have hl : ∀ l, PoolInner.LowestFirst (arrival 0 0 :: l) := by
    rintro l first hf tx -
    obtain rfl := Option.some.inj hf
    exact Nat.zero_le _
  refine (arrival_order_iff platform codec (validator 21000000000000) 0xA
    [arrival 0 0, arrival 1 1, arrival 7 2] [arrival 0 0, arrival 7 2, arrival 1 1]
    (.cons _ (.swap _ _ _)) validate_arrival (by decide +kernel)
    (by decide +kernel) (by decide +kernel) (by decide +kernel) ?_).2 ⟨hl _, hl _⟩
  constructor <;> decide

/-- The nonce 1 arrives first, and the nonce 0 is refused. -/
theorem arrival_order_refused : ¬ ∀ (P : Platform) (C : EnvelopeCodec)
    (validator : TransactionValidator Purse) (sender : Address) (l : List OrderedTransaction),
    (∀ tx ∈ l, ∃ raw validated timestamp, validator.validate P C raw = .ok validated ∧
      tx = validated.intoOrdered C timestamp) →
    (∀ tx ∈ l, tx.sender = sender) → (l.map (·.nonce)).Nodup → (l.map (·.hash)).Nodup →
    (l.map (orderedTxId P)).Nodup → validator.config.Admits l.length →
    PoolInner.new.AcceptsAll P C.alloy validator.config l := by
  intro h
  have ha := h platform codec (validator 21000000000000) 0xA
    [arrival 1 1, arrival 0 0] (fun tx htx => validate_arrival tx (by
      rcases mem_cons.1 htx with rfl | htx
      · simp
      · exact mem_cons.2 (.inl (mem_singleton.1 htx)))) (by decide +kernel)
    (by decide +kernel) (by decide +kernel) (by decide +kernel) (by constructor <;> decide)
  have hr : (PoolInner.new.addAll platform codec.alloy .new [arrival 1 1, arrival 0 0]).2 =
      [.ok (), .error (.nonceTooLow 0 1)] := by rfl
  have hs := ha (.error (.nonceTooLow 0 1)) (by rw [validator, hr]; simp)
  cases hs

end Example

end Kora
