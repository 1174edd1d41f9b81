/-
Where a transaction goes in its sender's queue, and what it pays to replace another.

The pool predicts whether a transaction will be pending, queued or a replacement, and
filing it decides the same again. The two differ in one case: with the largest nonce, a
transaction may be put behind others that have it (`SenderQueue.Doubles`).

* `insertion_target_iff` — otherwise the prediction is right, and distinct nonces stay
  distinct;
* `replacement_bump` — replacement takes any higher price, whatever bump is configured.
-/
import Kora.PoolQueues
import Kora.PoolRejection

open Std List Option

namespace Kora

open PoolInner SenderQueue

namespace SenderQueue

variable {self : SenderQueue} {tx old : OrderedTransaction}

/-- A transaction of the queue has the nonce. -/
def HasNonce (queue : SenderQueue) (nonce : ℕ) : Prop := ∃ old ∈ queue.txs, old.nonce = nonce

theorem isSome_existingNonceTx {nonce : ℕ} :
    (existingNonceTx self nonce).isSome = true ↔ self.HasNonce nonce := by
  rw [existingNonceTx, find?_isSome]
  exact exists_congr fun old => and_congr_right fun _ => decide_eq_true_iff

/-! ### Among the queued transactions -/

theorem insertQueued_some {queued : List OrderedTransaction}
    (h : (insertQueued tx queued).2 = some old) :
    ∃ existing ∈ queued, existing.nonce = tx.nonce ∧
      (old = tx ∨ old = existing ∧ existing.effectiveGasPrice < tx.effectiveGasPrice) := by
  induction queued with
  | nil => cases h
  | cons first queued ih =>
    rw [insertQueued] at h
    split_ifs at h with hlt heq hp
    · obtain ⟨existing, hmem, hn, hor⟩ := ih h
      exact ⟨existing, mem_cons_of_mem first hmem, hn, hor⟩
    · exact ⟨first, mem_cons_self, heq, .inr ⟨(some.inj h).symm, hp⟩⟩
    · exact ⟨first, mem_cons_self, heq, .inl (some.inj h).symm⟩

theorem insertQueued_none {queued : List OrderedTransaction}
    (hs : queued.Pairwise fun tx tx' => tx.nonce < tx'.nonce ∨ tx'.nonce = U64_MAX)
    (hle : ∀ tx ∈ queued, tx.nonce ≤ U64_MAX) (h : (insertQueued tx queued).2 = none) :
    ∀ old ∈ queued, old.nonce ≠ tx.nonce := by
  induction queued with
  | nil => simp
  | cons first queued ih =>
    obtain ⟨hf, hr⟩ := pairwise_cons.1 hs
    have hmax := hle first mem_cons_self
    rw [insertQueued] at h
    split_ifs at h with hlt heq
    · refine forall_mem_cons.2 ⟨hlt.ne, ih hr (fun tx' htx' => ?_) h⟩
      exact hle tx' (mem_cons_of_mem first htx')
    · refine forall_mem_cons.2 ⟨heq, fun later hl => ?_⟩
      have ha := hf later hl
      omega

/-! ### Filing -/

def AppendsPending (self : SenderQueue) (tx : OrderedTransaction) : Prop :=
  (self.insert tx).2 = none ∧
    ∃ promoted, (self.insert tx).1.pending = self.pending ++ tx :: promoted

/-- The transaction is put among the queued ones. -/
def AddsQueued (self : SenderQueue) (tx : OrderedTransaction) : Prop :=
  (self.insert tx).2 = none ∧ (self.insert tx).1.pending = self.pending ∧
    (self.insert tx).1.queued.Perm (tx :: self.queued)

theorem Settled.nonce_le_nextPendingNonce (h : self.Settled) (hold : old ∈ self.pending) :
    old.nonce ≤ self.nextPendingNonce := by
  obtain ⟨i, hi⟩ := getElem?_of_mem hold
  have hlt : i < self.pending.length := (List.getElem?_eq_some_iff.1 hi).1
  have hn := h.run_key hi
  rw [nextPendingNonce]
  omega

variable (hlow : self.nextNonce ≤ tx.nonce)
include hlow

/-- **What filing does**: the transaction is put behind the pending ones, or among the queued ones,
or it meets one with its nonce, which stays unless it is cheaper. -/
theorem Settled.insert_cases (h : self.Settled) (hmax : tx.nonce ≤ U64_MAX) :
    (tx.nonce = self.nextPendingNonce ∧ self.AppendsPending tx) ∨
    (self.nextPendingNonce < tx.nonce ∧ ¬ self.HasNonce tx.nonce ∧ self.AddsQueued tx) ∨
    (tx.nonce ≠ self.nextPendingNonce ∧ ∃ existing ∈ self.txs, existing.nonce = tx.nonce ∧
      ((self.insert tx).2 = some tx ∨ (self.insert tx).2 = some existing ∧
        existing.effectiveGasPrice < tx.effectiveGasPrice)) := by
  rcases self.insert_cases tx with ⟨hlow' | ⟨hb, -⟩, hi⟩ | ⟨-, hnx, hi⟩ |
    ⟨-, hgap, hi⟩ | ⟨-, hb, existing, he, hp, hi⟩
  · omega
  · -- the pending one with its nonce stays
    rw [nextPendingNonce] at hb
    have hidx : tx.nonce - self.nextNonce < self.pending.length := by omega
    have he := getElem?_eq_getElem hidx
    have hkey := h.run_key he
    rw [hi, nextPendingNonce]
    exact .inr (.inr ⟨hb.ne, _, mem_append_left _ (mem_of_getElem? he),
      by omega, .inl rfl⟩)
  · left
    obtain ⟨promoted, rest, -, hpr⟩ :=
      promote_eq self.nextNonce (self.pending ++ [tx]) self.queued
    rw [AppendsPending, hi, promoteQueued, hpr]
    exact ⟨hnx, rfl, promoted, by rw [append_assoc, singleton_append]⟩
  · right
    cases hd : (insertQueued tx self.queued).2 with
    | none =>
      left
      have hpm := insertQueued_perm tx self.queued
      rw [hd] at hpm
      refine ⟨hgap, ?_, by rw [hi, hd], by rw [hi], by rw [hi]; exact hpm⟩
      rintro ⟨old, hold, heq⟩
      rcases mem_append.1 hold with hold | hold
      · have hle := h.nonce_le_nextPendingNonce hold
        omega
      · exact insertQueued_none h.rest_sorted h.rest_le hd old hold heq
    | some old =>
      right
      obtain ⟨existing, hmem, hn, hor⟩ := insertQueued_some hd
      refine ⟨hgap.ne', existing, mem_append_right _ hmem, hn, ?_⟩
      rw [hi, hd]
      rcases hor with rfl | ⟨rfl, hp⟩
      · exact .inl rfl
      · exact .inr ⟨rfl, hp⟩
  · have hkey := h.run_key he
    rw [nextPendingNonce] at hb
    rw [hi, nextPendingNonce]
    exact .inr (.inr ⟨hb.ne, existing, mem_append_left _ (mem_of_getElem? he),
      by omega, .inr ⟨rfl, hp⟩⟩)

theorem Settled.appendsPending_iff (h : self.Settled) (hmax : tx.nonce ≤ U64_MAX) :
    self.AppendsPending tx ↔ tx.nonce = self.nextPendingNonce := by
  rcases h.insert_cases hlow hmax with ⟨hn, ha⟩ | ⟨hgap, -, -, hs, -⟩ |
    ⟨hne, existing, -, -, hor⟩
  · exact iff_of_true ha hn
  · refine iff_of_false ?_ hgap.ne'
    rintro ⟨-, promoted, hp⟩
    have hl := congrArg List.length (hs.symm.trans hp)
    rw [length_append, length_cons] at hl
    omega
  · refine iff_of_false ?_ hne
    rintro ⟨hnone, -⟩
    rcases hor with hsome | ⟨hsome, -⟩ <;> cases hnone.symm.trans hsome

theorem Settled.addsQueued_iff (h : self.Settled) (hmax : tx.nonce ≤ U64_MAX) :
    self.AddsQueued tx ↔ tx.nonce ≠ self.nextPendingNonce ∧ ¬ self.HasNonce tx.nonce := by
  rcases h.insert_cases hlow hmax with ⟨hnx, -, promoted, hp⟩ | ⟨hgap, hown, ha⟩ |
    ⟨-, existing, hmem, hn, hor⟩
  · refine iff_of_false ?_ fun hne => hne.1 hnx
    rintro ⟨-, hs, -⟩
    have hl := congrArg List.length (hs.symm.trans hp)
    rw [length_append, length_cons] at hl
    omega
  · exact iff_of_true ha ⟨hgap.ne', hown⟩
  · refine iff_of_false ?_ fun hne => hne.2 ⟨existing, hmem, hn⟩
    rintro ⟨hnone, -⟩
    rcases hor with hsome | ⟨hsome, -⟩ <;> cases hnone.symm.trans hsome

theorem Settled.replaced (h : self.Settled) (hmax : tx.nonce ≤ U64_MAX)
    (hold : (self.insert tx).2 = some old) (hne : old ≠ tx) :
    old ∈ self.txs ∧ old.nonce = tx.nonce ∧ old.effectiveGasPrice < tx.effectiveGasPrice := by
  rcases h.insert_cases hlow hmax with ⟨-, hnone, -⟩ | ⟨-, -, hnone, -⟩ |
    ⟨-, existing, hmem, hn, hor⟩
  · cases hnone.symm.trans hold
  · cases hnone.symm.trans hold
  · rcases hor with hself | ⟨he, hp⟩
    · exact absurd (some.inj (hold.symm.trans hself)) hne
    · obtain rfl := some.inj (hold.symm.trans he)
      exact ⟨hmem, hn, hp⟩

omit hlow in
theorem insertQueued_withPrice {queued : List OrderedTransaction} {price : ℕ}
    (h : (insertQueued tx queued).2 = some old) (hne : old ≠ tx)
    (hp : old.effectiveGasPrice < price) :
    (insertQueued { tx with effectiveGasPrice := price } queued).2 = some old := by
  induction queued with
  | nil => cases h
  | cons first queued ih =>
    rw [insertQueued] at h ⊢
    dsimp only
    split_ifs at h with hlt heq hpr
    · rw [if_pos hlt]
      exact ih h
    · obtain rfl := some.inj h
      rw [if_neg hlt, if_pos heq, if_pos hp]
    · exact absurd (some.inj h).symm hne

omit hlow in
/-- What is displaced at one price is displaced at every price above its own. -/
theorem insert_withPrice {price : ℕ} (h : (self.insert tx).2 = some old) (hne : old ≠ tx)
    (hp : old.effectiveGasPrice < price) :
    (self.insert { tx with effectiveGasPrice := price }).2 = some old := by
  rw [SenderQueue.insert] at h ⊢
  dsimp only
  split_ifs at h with hlow hn hgap
  · exact absurd (some.inj h).symm hne
  · rw [if_neg hlow, if_neg hn, if_pos hgap]
    exact insertQueued_withPrice h hne hp
  · rw [if_neg hlow, if_neg hn, if_neg hgap]
    dsimp only at h
    split at h
    · next existing he =>
      split_ifs at h
      · obtain rfl := some.inj h
        rw [if_pos hp]
      · exact absurd (some.inj h).symm hne
    · exact absurd (some.inj h).symm hne

/-! ### The prediction -/

def Doubles (self : SenderQueue) (tx : OrderedTransaction) : Prop :=
  self.HasNonce tx.nonce ∧ tx.nonce = self.nextPendingNonce

omit hlow in
theorem Settled.eq_max_of_doubles (h : self.Settled) (hd : self.Doubles tx) :
    tx.nonce = U64_MAX := by
  obtain ⟨⟨old, hold, heq⟩, hn⟩ := hd
  rw [nextPendingNonce] at hn
  rcases mem_append.1 hold with hold | hold
  · obtain ⟨i, hi⟩ := getElem?_of_mem hold
    have hlt : i < self.pending.length := (List.getElem?_eq_some_iff.1 hi).1
    have hnn := h.run_key hi
    omega
  · have hgap := h.gap old hold
    omega

theorem Settled.sum_le (h : self.Settled) (hmax : tx.nonce ≤ U64_MAX)
    (hnew : ¬ self.HasNonce tx.nonce) : self.nextNonce + self.pending.length ≤ U64_MAX := by
  by_contra ho
  obtain ⟨old, hold, heq⟩ := SettledRun.present_of_lt h hlow hmax (by omega)
  exact hnew ⟨old, mem_append_left _ hold, heq⟩

omit hlow in
theorem insertionTarget_eq_replacement :
    insertionTarget (some self) tx = .replacement ↔ self.HasNonce tx.nonce := by
  rw [← isSome_existingNonceTx, insertionTarget]
  split_ifs with hsome hn
  · exact iff_of_true rfl hsome
  · exact iff_of_false (fun heq => by cases heq) hsome
  · exact iff_of_false (fun heq => by cases heq) hsome

theorem Settled.insertionTarget_of_new (h : self.Settled) (hmax : tx.nonce ≤ U64_MAX)
    (hnew : ¬ self.HasNonce tx.nonce) :
    insertionTarget (some self) tx =
      if tx.nonce = self.nextPendingNonce then .pending else .queued := by
  have hsum := h.sum_le hlow hmax hnew
  rw [insertionTarget, if_neg (mt isSome_existingNonceTx.1 hnew),
    Nat.mod_eq_of_lt (Nat.lt_succ_of_le hsum), nextPendingNonce, Nat.min_eq_left hsum]

theorem Settled.insertionTarget_iff (h : self.Settled) (hmax : tx.nonce ≤ U64_MAX) :
    ((insertionTarget (some self) tx = .pending ↔ self.AppendsPending tx) ∧
      (insertionTarget (some self) tx = .queued ↔ self.AddsQueued tx)) ↔ ¬ self.Doubles tx := by
  rw [h.appendsPending_iff hlow hmax, h.addsQueued_iff hlow hmax]
  by_cases hnn : self.HasNonce tx.nonce
  · rw [insertionTarget_eq_replacement.2 hnn]
    constructor
    · rintro ⟨hp, -⟩ ⟨-, hn⟩
      cases hp.2 hn
    · intro hd
      exact ⟨iff_of_false (by simp) fun hn => hd ⟨hnn, hn⟩,
        iff_of_false (by simp) fun hnew => hnew.2 hnn⟩
  · rw [h.insertionTarget_of_new hlow hmax hnn]
    refine iff_of_true ?_ fun hd => hnn hd.1
    split_ifs with hn
    · exact ⟨iff_of_true rfl hn, iff_of_false (by simp) fun hne => hne.1 hn⟩
    · exact ⟨iff_of_false (by simp) hn, iff_of_true rfl ⟨hn, hnn⟩⟩

theorem Settled.nodup_nonces_iff (h : self.Settled) (hmax : tx.nonce ≤ U64_MAX) :
    ((self.insert tx).1.txs.map (·.nonce)).Nodup ↔
      (self.txs.map (·.nonce)).Nodup ∧ ¬ self.Doubles tx := by
  have hp := (self.insert_perm tx).map (·.nonce)
  -- the nonce comes in addition to the others
  have ha (hnone : (self.insert tx).2 = none) :
      ((self.insert tx).1.txs.map (·.nonce)).Nodup ↔
        ¬ self.HasNonce tx.nonce ∧ (self.txs.map (·.nonce)).Nodup := by
    rw [hnone] at hp
    exact hp.nodup_iff.trans (nodup_cons.trans (and_congr_left' (not_congr mem_map)))
  -- a nonce that was there is given up for the same one
  have hr {old : OrderedTransaction} (hsome : (self.insert tx).2 = some old)
      (heq : old.nonce = tx.nonce) : ((self.insert tx).1.txs.map (·.nonce)).Nodup ↔
        (self.txs.map (·.nonce)).Nodup := by
    rw [hsome] at hp
    have hc : (old.nonce :: (self.insert tx).1.txs.map (·.nonce)).Perm
        (tx.nonce :: self.txs.map (·.nonce)) := hp
    rw [heq, perm_cons] at hc
    exact hc.nodup_iff
  rcases h.insert_cases hlow hmax with ⟨hnx, hnone, -⟩ | ⟨hgap, hnew, hnone, -⟩ |
    ⟨hne, existing, -, hn, hor⟩
  · rw [ha hnone, and_comm]
    exact and_congr_right' (not_congr (and_iff_left hnx).symm)
  · rw [ha hnone, and_comm]
    exact and_congr_right' (iff_of_true hnew fun hd => hnew hd.1)
  · have hd : ¬ self.Doubles tx := fun hd => hne hd.2
    rw [and_iff_left hd]
    rcases hor with hself | ⟨he, -⟩
    · exact hr hself rfl
    · exact hr he hn

omit hlow in
theorem queueInvariant_nodup_nonces :
    PoolInner.QueueInvariant (fun queue tx => tx.nonce ≤ U64_MAX ∧ ¬ queue.Doubles tx)
      fun queue => queue.Settled ∧ (queue.txs.map (·.nonce)).Nodup where
  new htx := ⟨queueInvariant_settled.new htx.1, by simp [SenderQueue.new, txs]⟩
  insert {queue tx} h htx := by
    refine ⟨h.1.insert htx.1, ?_⟩
    rcases Nat.lt_or_ge tx.nonce queue.nextNonce with hlow | hlow
    · rw [SenderQueue.insert, if_pos hlow]
      exact h.2
    · exact (h.1.nodup_nonces_iff hlow htx.1).2 ⟨h.2, htx.2⟩
  removeByHash {queue} hash h := by
    refine ⟨h.1.removeByHash hash, ?_⟩
    have hp := ((queue.removeByHash_perm hash).map (·.nonce)).nodup_iff.2 h.2
    rw [map_append] at hp
    exact hp.of_append_right
  removeConfirmed {queue} confirmedNonce h := by
    refine ⟨h.1.removeConfirmed confirmedNonce, ?_⟩
    rw [txs_removeConfirmed]
    exact h.2.sublist (filter_sublist.map _)

end SenderQueue

/-- What the operation tries to add does not double a nonce. -/
def PoolInner.Op.NoDouble (P : Platform) (A : Alloy) (pool : PoolInner) (op : PoolInner.Op) :
    Prop :=
  ∀ tx, op.Brings P A tx → ¬ (pool.queueFor tx).Doubles tx

/-- **Prediction and filing.** In a pool that is reached with 64-bit nonces the sum of the
prediction does not overflow, and a replacement is predicted exactly if the nonce is there. The
other two classes are predicted as the transaction is filed, with distinct nonces afterwards,
exactly if the nonces were distinct and the transaction does not double one, which takes two of the
largest nonce. -/
theorem insertion_target_iff (P : Platform) (A : Alloy) (config : PoolConfig)
    (ops : List PoolInner.Op) (hops : ∀ op ∈ ops, op.NonceU64 P A) (sender : Address)
    (queue : SenderQueue)
    (hqueue : (ops.foldl (PoolInner.step P A config) PoolInner.new).bySender[sender]? = some queue)
    (tx : OrderedTransaction) (hlow : queue.nextNonce ≤ tx.nonce) (hmax : tx.nonce ≤ U64_MAX) :
    ((existingNonceTx queue tx.nonce).isSome ∨
      queue.nextNonce + queue.pending.length ≤ U64_MAX) ∧
    (insertionTarget (some queue) tx = .replacement ↔ queue.HasNonce tx.nonce) ∧
    (((insertionTarget (some queue) tx = .pending ↔ queue.AppendsPending tx) ∧
      (insertionTarget (some queue) tx = .queued ↔ queue.AddsQueued tx)) ↔ ¬ queue.Doubles tx) ∧
    ((((insertionTarget (some queue) tx = .pending ↔ queue.AppendsPending tx) ∧
      (insertionTarget (some queue) tx = .queued ↔ queue.AddsQueued tx)) ∧
      ((queue.insert tx).1.txs.map (·.nonce)).Nodup) ↔
        (queue.txs.map (·.nonce)).Nodup ∧ ¬ queue.Doubles tx) ∧
    (queue.Doubles tx → tx.nonce = U64_MAX) ∧
    (Run.Along (PoolInner.step P A config) (PoolInner.Op.NoDouble P A) PoolInner.new ops →
      (queue.txs.map (·.nonce)).Nodup) := by
  have hs : queue.Settled := settled_run config hops sender queue hqueue
  have hclass := hs.insertionTarget_iff hlow hmax
  refine ⟨?_, insertionTarget_eq_replacement, hclass, ?_, hs.eq_max_of_doubles, fun hrun => ?_⟩
  · by_cases hn : queue.HasNonce tx.nonce
    · exact .inl (isSome_existingNonceTx.2 hn)
    · exact .inr (hs.sum_le hlow hmax hn)
  · rw [hclass, hs.nodup_nonces_iff hlow hmax]
    exact ⟨fun hnd => hnd.2, fun hnd => ⟨hnd.2, hnd⟩⟩
  · have hinv := queueInvariant_nodup_nonces.poolInvariant (P := P)
    have hall := (hrun.and_forall hops).invariant hinv.new fun pool op hI hop =>
      hinv.step config hI fun tx htx => ⟨hop.1 tx htx, hop.2 tx htx⟩
    exact (hall sender queue hqueue).2

section Example

open PoolExample

/-- A sender with a pending and a queued transaction. -/
def PoolExample.gapped : List PoolInner.Op := [.add (offer 1 0xA 7 5), .add (offer 2 0xA 9 5)]

theorem PoolExample.gapped_nonceU64 : ∀ op ∈ gapped, op.NonceU64 platform alloy := by
  simp only [gapped, forall_mem_cons]
  refine ⟨?_, ?_, by simp⟩
  all_goals
    rintro tx rfl
    decide

theorem insertion_target_iff_gap :
    insertionTarget (some ⟨0xA, 7, [offer 1 0xA 7 5], [offer 2 0xA 9 5]⟩) (offer 3 0xA 8 5) =
        .pending ∧
      (⟨0xA, 7, [offer 1 0xA 7 5], [offer 2 0xA 9 5]⟩ : SenderQueue).AppendsPending
        (offer 3 0xA 8 5) := by
  have hs := insertion_target_iff platform alloy .new gapped gapped_nonceU64 0xA
    ⟨0xA, 7, [offer 1 0xA 7 5], [offer 2 0xA 9 5]⟩ (by decide +kernel) (offer 3 0xA 8 5)
    (by decide) (by decide)
  have hp : insertionTarget (some ⟨0xA, 7, [offer 1 0xA 7 5], [offer 2 0xA 9 5]⟩)
      (offer 3 0xA 8 5) = .pending := by decide +kernel
  refine ⟨hp, ((hs.2.2.1.2 fun hd => ?_).1).1 hp⟩
  exact absurd (hs.2.2.2.2.1 hd) (by decide)

/-- A second one with the largest nonce, predicted to replace, is put behind the first. -/
theorem insertion_target_doubled : ¬ ∀ (P : Platform) (A : Alloy) (config : PoolConfig)
    (ops : List PoolInner.Op) (sender : Address) (queue : SenderQueue) (tx : OrderedTransaction),
    (∀ op ∈ ops, op.NonceU64 P A) →
    (ops.foldl (PoolInner.step P A config) PoolInner.new).bySender[sender]? = some queue →
    queue.nextNonce ≤ tx.nonce → tx.nonce ≤ U64_MAX →
    (insertionTarget (some queue) tx = .pending ↔ queue.AppendsPending tx) := by
  intro h
  have hops : ∀ op ∈ [PoolInner.Op.add (offer 1 0xA U64_MAX 5)], op.NonceU64 platform alloy := by
    simp only [forall_mem_cons]
    refine ⟨?_, by simp⟩
    rintro tx rfl
    decide
  have hp := h platform alloy .new [.add (offer 1 0xA U64_MAX 5)] 0xA
    ⟨0xA, U64_MAX, [offer 1 0xA U64_MAX 5], []⟩ (offer 2 0xA U64_MAX 9) hops (by decide +kernel)
    (by decide) (by decide)
  have ha : (⟨0xA, U64_MAX, [offer 1 0xA U64_MAX 5], []⟩ : SenderQueue).AppendsPending
      (offer 2 0xA U64_MAX 9) := ⟨by decide +kernel, [], by decide +kernel⟩
  exact absurd (hp.2 ha) (by decide +kernel)

end Example

/-! ### Replacements -/

namespace PoolInner

variable {P : Platform} {A : Alloy} {config : PoolConfig} {pool : PoolInner}
  {tx : OrderedTransaction}

theorem mem_replaced_of_added {replaced : List MempoolEvent}
    {result : PoolInner × List OrderedTransaction} {hash : B256}
    (h : .txEvicted hash "replaced" ∈ (added A replaced tx result).2.1) :
    .txEvicted hash "replaced" ∈ replaced := by
  rw [added] at h
  dsimp only at h
  rcases mem_append.1 h with h | he
  · rcases mem_append.1 h with h | ha
    · exact h
    · split_ifs at ha
      · cases ha
      · cases mem_singleton.1 ha
  · obtain ⟨tx', -, heq⟩ := mem_map.1 he
    exact absurd (MempoolEvent.txEvicted.inj heq).2 (by decide)

theorem replaced_of_event {hash : B256}
    (h : .txEvicted hash "replaced" ∈ (pool.add P A config tx).2.1) :
    pool.Checked P config tx ∧ ∃ old, ((pool.queueFor tx).insert tx).2 = some old ∧
      old.hash = hash ∧ old.hash ≠ tx.hash := by
  rcases add_cases P A config pool tx with ⟨-, err, hadd⟩ | ⟨-, -, hadd⟩ | ⟨-, -, -, -, hadd⟩ |
    ⟨hc, old, hb, hne, hadd⟩
  · rw [hadd] at h
    cases h
  · rw [hadd] at h
    cases mem_replaced_of_added h
  · rw [hadd] at h
    cases h
  · rw [hadd] at h
    rw [file_snd] at hb
    have he := mem_singleton.1 (mem_replaced_of_added h)
    exact ⟨hc, old, hb, (MempoolEvent.txEvicted.inj he).1.symm, hne⟩

theorem event_of_replaced {old : OrderedTransaction} (hc : pool.Checked P config tx)
    (hold : ((pool.queueFor tx).insert tx).2 = some old) (hne : old.hash ≠ tx.hash) :
    .txEvicted old.hash "replaced" ∈ (pool.add P A config tx).2.1 := by
  rw [← file_snd] at hold
  rcases add_cases P A config pool tx with ⟨hn, -⟩ | ⟨-, hnone, -⟩ | ⟨-, old', hb, heq, -⟩ |
    ⟨-, old', hb, -, hadd⟩
  · exact absurd hc hn
  · cases hnone.symm.trans hold
  · exact absurd (some.inj (hb.symm.trans hold) ▸ heq) hne
  · obtain rfl := some.inj (hb.symm.trans hold)
    rw [hadd, added]
    exact mem_append_left _ (mem_append_left _ mem_cons_self)

theorem Checked.withPrice (hc : pool.Checked P config tx)
    (ht : insertionTarget pool.bySender[tx.sender]? tx = .replacement) (price : ℕ) :
    pool.Checked P config { tx with effectiveGasPrice := price } where
  hash_new := hc.hash_new
  id_new := hc.id_new
  sender := hc.sender
  room := by
    show pool.rejectUnderpricedWhenFull config _ (insertionTarget pool.bySender[tx.sender]? tx) = _
    rw [ht]
    rfl

theorem insertionTarget_of_mem {old : OrderedTransaction} (hold : old ∈ (pool.queueFor tx).txs)
    (hn : old.nonce = tx.nonce) :
    insertionTarget pool.bySender[tx.sender]? tx = .replacement := by
  rw [queueFor] at hold
  cases hq : pool.bySender[tx.sender]? with
  | none =>
    rw [hq] at hold
    cases hold
  | some queue =>
    rw [hq] at hold
    exact insertionTarget_eq_replacement.2 ⟨old, hold, hn⟩

end PoolInner

/-- **Replacing a transaction.** A transaction is replaced by one with the same sender and nonce,
and by exactly those with a higher price. The configured bump is not looked at: the new price
reaches it for certain exactly if the bump is one unit at most. -/
theorem replacement_bump (P : Platform) (A : Alloy) (config : PoolConfig)
    (ops : List PoolInner.Op) (hops : ∀ op ∈ ops, op.NonceU64 P A) (pool : PoolInner)
    (hpool : pool = ops.foldl (PoolInner.step P A config) PoolInner.new)
    (tx old : OrderedTransaction) (hmax : tx.nonce ≤ U64_MAX) (hold : pool.Pooled old)
    (hreplaced : .txEvicted old.hash "replaced" ∈ (pool.add P A config tx).2.1) :
    old.sender = tx.sender ∧ old.nonce = tx.nonce ∧
      (∀ price, .txEvicted old.hash "replaced" ∈
          (pool.add P A config { tx with effectiveGasPrice := price }).2.1 ↔
        old.effectiveGasPrice < price) ∧
      ((∀ price, .txEvicted old.hash "replaced" ∈
            (pool.add P A config { tx with effectiveGasPrice := price }).2.1 →
          old.effectiveGasPrice * (100 + config.replacementBumpPercent) ≤ price * 100) ↔
        old.effectiveGasPrice * config.replacementBumpPercent ≤ 100) := by
  have hs : pool.AllQueues SenderQueue.Settled := hpool ▸ settled_run config hops
  have hl : pool.Linked P none := hpool ▸ linked_run P A config ops
  -- what is replaced at some price is the transaction itself: one hash, one transaction
  have hrep : ∀ price, .txEvicted old.hash "replaced" ∈
      (pool.add P A config { tx with effectiveGasPrice := price }).2.1 →
      pool.Checked P config { tx with effectiveGasPrice := price } ∧
      ((pool.queueFor tx).insert { tx with effectiveGasPrice := price }).2 = some old ∧
      old ∈ (pool.queueFor tx).txs ∧ old.hash ≠ tx.hash ∧ old.sender = tx.sender ∧
      old.nonce = tx.nonce ∧ old.effectiveGasPrice < price := by
    intro price h
    obtain ⟨hc, old', hi, hh, hne⟩ := replaced_of_event h
    obtain ⟨hmem, hn, hp⟩ := (hs.queueFor queueInvariant_settled hmax).replaced
      (nextNonce_le_of_checkSender hc.sender) hmax hi fun heq => hne (congrArg _ heq)
    obtain ⟨hsn, hk⟩ := (hl.queueFor tx).1 old' hmem
    rw [hh] at hk
    obtain rfl : old = old' := some.inj (hold.symm.trans hk)
    exact ⟨hc, hi, hmem, hne, hsn, hn, hp⟩
  obtain ⟨hc, hi, hmem, hne, hsn, hn, -⟩ := hrep tx.effectiveGasPrice hreplaced
  have hiff : ∀ price, .txEvicted old.hash "replaced" ∈
      (pool.add P A config { tx with effectiveGasPrice := price }).2.1 ↔
      old.effectiveGasPrice < price := by
    intro price
    refine ⟨fun h => (hrep price h).2.2.2.2.2.2, fun hp => ?_⟩
    exact event_of_replaced (hc.withPrice (insertionTarget_of_mem hmem hn) price)
      (insert_withPrice hi (fun heq => hne (congrArg _ heq)) hp) hne
  refine ⟨hsn, hn, hiff, fun h => ?_, fun h price hp => ?_⟩
  · have hnext := h (old.effectiveGasPrice + 1) ((hiff _).2 (Nat.lt_succ_self _))
    rw [Nat.mul_add] at hnext
    omega
  · have hlt := (hiff price).1 hp
    rw [Nat.mul_add]
    omega

section Example

open PoolExample

theorem replacement_bump_one :
    (PoolInner.add platform alloy .new (gapped.foldl (PoolInner.step platform alloy .new)
      PoolInner.new) (offer 3 0xA 9 6)).2.1.contains (.txEvicted 2 "replaced") = true ∧
    (offer 2 0xA 9 5).effectiveGasPrice * (100 + PoolConfig.new.replacementBumpPercent) ≤
      (offer 3 0xA 9 6).effectiveGasPrice * 100 := by
  have he : (add platform alloy .new (gapped.foldl
      (step platform alloy .new) new) (offer 3 0xA 9 6)).2.1.contains
        (.txEvicted 2 "replaced") = true := by decide +kernel
  have hp : (gapped.foldl (step platform alloy .new) new).Pooled
      (offer 2 0xA 9 5) := by
    rw [PoolInner.Pooled]
    decide +kernel
  have hr := contains_iff_mem.1 he
  exact ⟨he, (replacement_bump platform alloy .new gapped gapped_nonceU64 _ rfl
    (offer 3 0xA 9 6) (offer 2 0xA 9 5) (by decide) hp hr).2.2.2.2 (by decide) 6 hr⟩

/-- With a bump of ten percent, a price of 101 replaces one of 100. -/
theorem replacement_without_bump : ¬ ∀ (P : Platform) (A : Alloy) (config : PoolConfig)
    (ops : List PoolInner.Op) (tx old : OrderedTransaction),
    (ops.foldl (PoolInner.step P A config) PoolInner.new).Pooled old →
    .txEvicted old.hash "replaced" ∈
      ((ops.foldl (PoolInner.step P A config) PoolInner.new).add P A config tx).2.1 →
    old.effectiveGasPrice * (100 + config.replacementBumpPercent) ≤
      tx.effectiveGasPrice * 100 := by
  intro h
  have hp : ([PoolInner.Op.add (offer 1 0xA 0 100)].foldl
      (step platform alloy .new) new).Pooled (offer 1 0xA 0 100) := by
    rw [PoolInner.Pooled]
    decide +kernel
  have he : (add platform alloy .new ([PoolInner.Op.add (offer 1 0xA 0 100)].foldl
      (step platform alloy .new) new) (offer 2 0xA 0 101)).2.1.contains
        (.txEvicted 1 "replaced") = true := by decide +kernel
  have hb := h platform alloy .new [.add (offer 1 0xA 0 100)] (offer 2 0xA 0 101)
    (offer 1 0xA 0 100) hp (contains_iff_mem.1 he)
  exact absurd hb (by decide)

end Example

end Kora
