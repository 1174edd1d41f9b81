/-
The queue of one sender stays in order.

Confirming a nonce, removing a transaction and filing a new one are described, for any
queue, by the transactions that they take out or bring in.

* `SenderQueue.WellFormed` — the pending nonces are consecutive, the queued ones increase
  behind a gap;
* `WellFormed.removeConfirmed`, `WellFormed.mem_removeByHash` — what is left.
-/
import Kora.NumberedRun
import Kora.TransactionPool

open List Option

namespace Kora

/-! ### The transactions of a queue -/

namespace SenderQueue

theorem promote_eq (nextNonce : ℕ) (pending queued : List OrderedTransaction) :
    ∃ promoted rest, queued = promoted ++ rest ∧
      promote nextNonce pending queued = (pending ++ promoted, rest) := by
  induction queued generalizing pending with
  | nil => exact ⟨[], [], rfl, by rw [promote, append_nil]⟩
  | cons tx queued ih =>
    rw [promote]
    split
    · obtain ⟨promoted, rest, rfl, heq⟩ := ih (pending ++ [tx])
      exact ⟨tx :: promoted, rest, rfl, by rw [heq, append_assoc, singleton_append]⟩
    · exact ⟨[], tx :: queued, rfl, by rw [append_nil]⟩

theorem promote_append (nextNonce : ℕ) (pending queued : List OrderedTransaction) :
    (promote nextNonce pending queued).1 ++ (promote nextNonce pending queued).2 =
      pending ++ queued := by
  obtain ⟨promoted, rest, rfl, heq⟩ := promote_eq nextNonce pending queued
  rw [heq, append_assoc]

theorem txs_removeConfirmed (self : SenderQueue) (confirmedNonce : ℕ) :
    (self.removeConfirmed confirmedNonce).txs =
      self.txs.filter (fun tx => confirmedNonce < tx.nonce) := by
  show (promote _ _ _).1 ++ (promote _ _ _).2 = _
  rw [promote_append, txs, filter_append]

theorem mem_iff_of_perm {α : Type*} {taken : Option α} {left all : List α}
    (h : (taken.toList ++ left).Perm all) (hn : all.Nodup) {a : α} :
    a ∈ left ↔ a ∈ all ∧ taken ≠ some a := by
  have hbt := h.nodup_iff.2 hn
  have hmem := h.mem_iff (a := a)
  cases taken with
  | none => simpa using hmem
  | some b =>
    have hb : b ∉ left := (nodup_cons.1 hbt).1
    rw [← hmem]
    constructor
    · intro ha
      exact ⟨mem_cons_of_mem b ha, fun heq => hb (some.inj heq ▸ ha)⟩
    · rintro ⟨ha, hne⟩
      rcases mem_cons.1 ha with rfl | ha
      · exact absurd rfl hne
      · exact ha

theorem find?_of_findIdx? {α : Type*} {p : α → Bool} {l : List α} {idx : ℕ}
    (h : l.findIdx? p = some idx) : ∃ hlt : idx < l.length, l.find? p = some l[idx] := by
  obtain ⟨hlt, hp, hb⟩ := findIdx?_eq_some_iff_getElem.1 h
  refine ⟨hlt, find?_eq_some_iff_getElem.2 ⟨hp, idx, hlt, rfl, fun j hj => ?_⟩⟩
  simpa using hb j hj

theorem removeByHash_perm (self : SenderQueue) (hash : B256) :
    ((self.txs.find? fun tx => tx.hash = hash).toList ++ (self.removeByHash hash).txs).Perm
      self.txs := by
  have hnone : ∀ {l : List OrderedTransaction}, l.findIdx? (fun tx => tx.hash = hash) = none →
      l.find? (fun tx => tx.hash = hash) = none := fun h =>
    find?_eq_none.2 fun tx htx => by simpa using findIdx?_eq_none_iff.1 h tx htx
  rw [removeByHash, txs, find?_append]
  split
  · next idx hidx =>
    obtain ⟨hlt, hf⟩ := find?_of_findIdx? hidx
    have hs := perm_insertionSort (fun tx tx' : OrderedTransaction => tx.nonce ≤ tx'.nonce)
      (self.queued ++ self.pending.drop (idx + 1))
    have he := getElem_cons_eraseIdx_perm hlt
    rw [eraseIdx_eq_take_drop_succ] at he
    rw [hf, some_or, toList_some, singleton_append]
    calc
      (self.pending[idx] :: (self.pending.take idx ++ _)).Perm (self.pending[idx] ::
          (self.pending.take idx ++ (self.queued ++ self.pending.drop (idx + 1)))) :=
        (hs.append_left _).cons _
      _ |>.Perm (self.pending[idx] ::
          (self.pending.take idx ++ (self.pending.drop (idx + 1) ++ self.queued))) :=
        (perm_append_comm.append_left _).cons _
      _ |>.Perm (self.pending ++ self.queued) := by
        rw [← append_assoc, ← cons_append]
        exact he.append_right self.queued
  · next hp =>
    rw [hnone hp, none_or]
    split
    · next idx hidx =>
      obtain ⟨hlt, hf⟩ := find?_of_findIdx? hidx
      rw [hf, toList_some, singleton_append]
      exact perm_middle.symm.trans
        ((getElem_cons_eraseIdx_perm hlt).append_left self.pending)
    · next hq =>
      rw [hnone hq]
      exact List.Perm.refl _

theorem insertQueued_perm (tx : OrderedTransaction) (queued : List OrderedTransaction) :
    ((insertQueued tx queued).2.toList ++ (insertQueued tx queued).1).Perm (tx :: queued) := by
  induction queued with
  | nil => exact List.Perm.refl _
  | cons existing queued ih =>
    rw [insertQueued]
    split_ifs
    · exact perm_middle.trans ((ih.cons existing).trans (List.Perm.swap _ _ _))
    · exact List.Perm.swap _ _ _
    · exact List.Perm.refl _
    · exact List.Perm.refl _

variable {tx : OrderedTransaction} {queued : List OrderedTransaction}

theorem insertQueued_refused (hnew : tx ∉ queued) (hr : (insertQueued tx queued).2 = some tx)
    : (insertQueued tx queued).1 = queued := by
  induction queued with
  | nil => cases hr
  | cons existing queued ih =>
    revert hr
    rw [insertQueued]
    split_ifs
    · intro hr
      exact congrArg _ (ih (fun hmem => hnew (mem_cons_of_mem _ hmem)) hr)
    · intro hrp
      exact absurd (some.inj hrp ▸ mem_cons_self) hnew
    · intro
      rfl
    · rintro ⟨⟩

theorem cons_set_perm {txs : List OrderedTransaction} {i : ℕ} {existing : OrderedTransaction}
    (h : txs[i]? = some existing) : (existing :: txs.set i tx).Perm (tx :: txs) := by
  obtain ⟨hlt, hget⟩ := List.getElem?_eq_some_iff.1 h
  calc
    (existing :: txs.set i tx).Perm (existing :: tx :: txs.eraseIdx i) :=
      (set_perm_cons_eraseIdx hlt tx).cons existing
    _ |>.Perm (tx :: existing :: txs.eraseIdx i) := List.Perm.swap _ _ _
    _ |>.Perm (tx :: txs) := by
      rw [← hget]
      exact (getElem_cons_eraseIdx_perm hlt).cons tx

/-- **What filing does**: refuse, append to the pending, queue, or replace a cheaper pending one. -/
theorem insert_cases (self : SenderQueue) (tx : OrderedTransaction) :
    ((tx.nonce < self.nextNonce ∨ tx.nonce < self.nextPendingNonce ∧
        ∀ existing, self.pending[tx.nonce - self.nextNonce]? = some existing →
          tx.effectiveGasPrice ≤ existing.effectiveGasPrice) ∧
      self.insert tx = (self, some tx)) ∨
    (self.nextNonce ≤ tx.nonce ∧ tx.nonce = self.nextPendingNonce ∧
      self.insert tx = (promoteQueued { self with pending := self.pending ++ [tx] }, none)) ∨
    (self.nextNonce ≤ tx.nonce ∧ self.nextPendingNonce < tx.nonce ∧
      self.insert tx = ({ self with queued := (insertQueued tx self.queued).1 },
        (insertQueued tx self.queued).2)) ∨
    (self.nextNonce ≤ tx.nonce ∧ tx.nonce < self.nextPendingNonce ∧
      ∃ existing, self.pending[tx.nonce - self.nextNonce]? = some existing ∧
        existing.effectiveGasPrice < tx.effectiveGasPrice ∧
        self.insert tx = ({ self with pending := self.pending.set (tx.nonce - self.nextNonce) tx },
          some existing)) := by
  rw [SenderQueue.insert]
  split_ifs with hlow hn hgap
  · exact .inl ⟨.inl hlow, rfl⟩
  · exact .inr (.inl ⟨Nat.not_lt.1 hlow, hn, rfl⟩)
  · exact .inr (.inr (.inl ⟨Nat.not_lt.1 hlow, hgap, rfl⟩))
  · -- the nonce lies within the pending ones
    have hb : tx.nonce < self.nextPendingNonce := by omega
    dsimp only
    split
    · next existing he =>
      split_ifs with hp
      · exact .inr (.inr (.inr ⟨Nat.not_lt.1 hlow, hb, existing, he, hp, rfl⟩))
      · refine .inl ⟨.inr ⟨hb, fun existing' heq => ?_⟩, rfl⟩
        exact some.inj (he.symm.trans heq) ▸ Nat.not_lt.1 hp
    · next hnone =>
      exact .inl ⟨.inr ⟨hb, fun existing heq => by cases hnone.symm.trans heq⟩, rfl⟩

theorem insert_perm (self : SenderQueue) (tx : OrderedTransaction) :
    ((self.insert tx).2.toList ++ (self.insert tx).1.txs).Perm (tx :: self.txs) := by
  rcases self.insert_cases tx with ⟨-, hi⟩ | ⟨-, -, hi⟩ | ⟨-, -, hi⟩ |
    ⟨-, -, existing, he, -, hi⟩
  · rw [hi]
    exact List.Perm.refl _
  · rw [hi]
    show ((promote _ _ _).1 ++ (promote _ _ _).2).Perm _
    rw [promote_append, append_assoc]
    exact perm_middle
  · rw [hi]
    show ((insertQueued tx self.queued).2.toList ++
          (self.pending ++ (insertQueued tx self.queued).1)).Perm
        (tx :: (self.pending ++ self.queued))
    refine (perm_append_comm_assoc _ _ _).trans ?_
    exact ((insertQueued_perm tx self.queued).append_left self.pending).trans perm_middle
  · rw [hi]
    show ((existing :: self.pending.set _ tx) ++ self.queued).Perm
      ((tx :: self.pending) ++ self.queued)
    exact (cons_set_perm he).append_right self.queued

theorem insert_refused {self : SenderQueue} (hnew : tx ∉ self.txs)
    (hr : (self.insert tx).2 = some tx) : (self.insert tx).1 = self := by
  rcases self.insert_cases tx with ⟨-, hi⟩ | ⟨-, -, hi⟩ | ⟨-, -, hi⟩ |
    ⟨-, -, existing, he, -, hi⟩
  · rw [hi]
  · rw [hi] at hr
    cases hr
  · rw [hi] at hr ⊢
    dsimp only
    rw [insertQueued_refused (fun hmem => hnew (mem_append_right _ hmem)) hr]
  · rw [hi] at hr
    have hmem : existing ∈ self.pending := mem_of_getElem? he
    exact absurd (some.inj hr ▸ mem_append_left _ hmem) hnew

theorem mem_insert_iff {self : SenderQueue} {tx' : OrderedTransaction} (hn : self.txs.Nodup)
    (hnew : tx ∉ self.txs) :
    tx' ∈ (self.insert tx).1.txs ↔
      (tx' = tx ∨ tx' ∈ self.txs) ∧ (self.insert tx).2 ≠ some tx' := by
  rw [mem_iff_of_perm (self.insert_perm tx) (nodup_cons.2 ⟨hnew, hn⟩), mem_cons]

theorem displaced {self : SenderQueue} {old : OrderedTransaction}
    (hold : (self.insert tx).2 = some old) : old = tx ∨ old ∈ self.txs := by
  have hp := self.insert_perm tx
  rw [hold] at hp
  exact mem_cons.1 (hp.subset mem_cons_self)

/-! ### The nonces of a queue -/

instance : Std.Total fun tx tx' : OrderedTransaction => tx.nonce ≤ tx'.nonce :=
  ⟨fun tx tx' => le_total tx.nonce tx'.nonce⟩

instance : IsTrans OrderedTransaction fun tx tx' => tx.nonce ≤ tx'.nonce :=
  ⟨fun _ _ _ hle hle' => hle.trans hle'⟩

variable {self : SenderQueue} {sender : Address}

/-- The pending nonces count up from the next nonce to the largest one, and the queued ones wait
behind a gap. -/
def Settled (queue : SenderQueue) : Prop :=
  SettledRun (·.nonce) U64_MAX queue.nextNonce queue.pending queue.queued

theorem settledRun_promote {nextNonce : ℕ} {pending queued : List OrderedTransaction}
    (h : SaturatingRun (·.nonce) U64_MAX nextNonce pending queued) :
    SettledRun (·.nonce) U64_MAX nextNonce (promote nextNonce pending queued).1
      (promote nextNonce pending queued).2 := by
  induction queued generalizing pending with
  | nil => exact ⟨h, by simp [promote]⟩
  | cons tx queued ih =>
    rw [promote]
    split
    · next heq => exact ih (h.concat heq)
    · next hne =>
      have hge : min (nextNonce + pending.length) U64_MAX ≤ tx.nonce :=
        h.rest_ge tx mem_cons_self
      refine ⟨h, fun tx' htx' => ?_⟩
      have hle : tx'.nonce ≤ U64_MAX := h.rest_le tx' htx'
      rcases mem_cons.1 htx' with rfl | hl
      · show nextNonce + pending.length < tx'.nonce ∨ tx'.nonce = U64_MAX
        omega
      · have ha : tx.nonce < tx'.nonce ∨ tx'.nonce = U64_MAX :=
          (pairwise_cons.1 h.rest_sorted).1 tx' hl
        show nextNonce + pending.length < tx'.nonce ∨ tx'.nonce = U64_MAX
        omega

theorem Settled.removeConfirmed (h : self.Settled) (confirmedNonce : ℕ) :
    (self.removeConfirmed confirmedNonce).Settled :=
  settledRun_promote (SaturatingRun.filter_above h.toSaturatingRun confirmedNonce)

theorem Settled.removeByHash (h : self.Settled) (hash : B256) :
    (self.removeByHash hash).Settled := by
  rw [SenderQueue.removeByHash]
  split
  · next idx hidx =>
    exact SettledRun.take h (find?_of_findIdx? hidx).1 (perm_insertionSort _ _)
      (pairwise_insertionSort _ _)
  · split
    · exact SettledRun.sublist h (eraseIdx_sublist _ _)
    · exact h

/-! ### Sender queues in order -/

/-- The pending nonces count up from the next nonce, the queued ones wait behind a gap, and the
transactions are the sender's, with nonces below the largest one. -/
structure WellFormed (queue : SenderQueue) (sender : Address) : Prop where
  nonces : MaximalRun (·.nonce) queue.nextNonce queue.pending queue.queued
  owned : ∀ tx ∈ queue.txs, tx.sender = sender
  below : ∀ tx ∈ queue.txs, tx.nonce < U64_MAX

theorem wellFormed_new (sender : Address) (nonce : ℕ) : (new sender nonce).WellFormed sender where
  nonces := ⟨.nil _ _, by simp [new]⟩
  owned := by simp [new, txs]
  below := by simp [new, txs]

theorem WellFormed.nodup (h : self.WellFormed sender) : self.txs.Nodup :=
  .of_map _ h.nonces.nodup

theorem WellFormed.of_settled {self' : SenderQueue} (h : self.WellFormed sender)
    (hs : self.Settled → self'.Settled) (hsub : ∀ tx ∈ self'.txs, tx ∈ self.txs) :
    self'.WellFormed sender := by
  refine ⟨?_, fun tx htx => h.owned tx (hsub tx htx), fun tx htx => h.below tx (hsub tx htx)⟩
  cases hall : self.txs with
  | nil =>
    have hnil : self'.txs = [] := eq_nil_iff_forall_not_mem.2 fun tx htx =>
      not_mem_nil (hall ▸ hsub tx htx)
    obtain ⟨hp, hq⟩ := append_eq_nil_iff.1 hnil
    rw [hp, hq]
    exact ⟨.nil _ _, by simp⟩
  | cons tx txs =>
    have htx : tx ∈ self.txs := hall ▸ mem_cons_self
    have hst := (h.nonces.start_le_key htx).trans (h.below tx htx).le
    exact SettledRun.maximalRun (hs (h.nonces.settledRun hst
      fun tx htx => (h.below tx htx).le)) fun tx htx => h.below tx (hsub tx htx)

theorem maximalRun_promote {nextNonce : ℕ} {pending : List OrderedTransaction}
    (h : NumberedRun (·.nonce) nextNonce pending queued) (hle : ∀ tx ∈ queued, tx.nonce ≤ U64_MAX) :
    MaximalRun (·.nonce) nextNonce (promote nextNonce pending queued).1
      (promote nextNonce pending queued).2 := by
  induction queued generalizing pending with
  | nil => exact ⟨h, by simp [promote]⟩
  | cons tx queued ih =>
    -- up to the largest nonce the saturating sum is the sum
    have hmax := hle tx mem_cons_self
    have hge : nextNonce + pending.length ≤ tx.nonce := h.rest_ge tx mem_cons_self
    rw [promote]
    split
    · next heq =>
      have hn : tx.nonce = nextNonce + pending.length := by omega
      exact ih (h.concat hn) fun tx' htx' => hle tx' (mem_cons_of_mem tx htx')
    · next hne =>
      have hgap : nextNonce + pending.length < tx.nonce := by omega
      refine .of_rest h h.rest_sorted fun tx' htx' => ?_
      rcases mem_cons.1 htx' with rfl | hl
      · exact hgap
      · exact hgap.trans ((pairwise_cons.1 h.rest_sorted).1 tx' hl)

/-! #### Confirming -/

theorem WellFormed.removeConfirmed (h : self.WellFormed sender) (confirmedNonce : ℕ) :
    (self.removeConfirmed confirmedNonce).WellFormed sender ∧
      ∀ tx, tx ∈ (self.removeConfirmed confirmedNonce).txs ↔
        tx ∈ self.txs ∧ confirmedNonce < tx.nonce := by
  have hmem : ∀ tx, tx ∈ (self.removeConfirmed confirmedNonce).txs ↔
      tx ∈ self.txs ∧ confirmedNonce < tx.nonce := by
    intro tx
    rw [txs_removeConfirmed, mem_filter, decide_eq_true_eq]
  exact ⟨h.of_settled (·.removeConfirmed confirmedNonce) fun tx htx => ((hmem tx).1 htx).1, hmem⟩

/-! #### Removing -/

theorem WellFormed.removeByHash (h : self.WellFormed sender) (hash : B256) :
    (self.removeByHash hash).WellFormed sender :=
  h.of_settled (·.removeByHash hash) fun _ htx =>
    (removeByHash_perm self hash).subset (mem_append_right _ htx)

theorem WellFormed.mem_removeByHash (h : self.WellFormed sender) {hash : B256}
    (hu : ∀ tx ∈ self.txs, ∀ tx' ∈ self.txs, tx.hash = hash → tx'.hash = hash → tx = tx')
    (tx : OrderedTransaction) :
    tx ∈ (self.removeByHash hash).txs ↔ tx ∈ self.txs ∧ tx.hash ≠ hash := by
  rw [mem_iff_of_perm (removeByHash_perm self hash) h.nodup]
  refine and_congr_right fun htx => not_congr ⟨fun hf => ?_, fun hh => ?_⟩
  · simpa using find?_some hf
  · have hsome : (self.txs.find? fun tx => tx.hash = hash).isSome :=
      find?_isSome.2 ⟨tx, htx, decide_eq_true hh⟩
    obtain ⟨tx', hf⟩ := isSome_iff_exists.1 hsome
    have hh' : tx'.hash = hash := by simpa using find?_some hf
    rw [hf, hu tx htx tx' (mem_of_find?_eq_some hf) hh hh']

/-! #### Filing -/

theorem insertQueued_pairwise {R : ℕ → ℕ → Prop} (hlt : ∀ m n, m < n → R m n)
    (ht : ∀ m n k, m < n → R n k → R m k)
    (hs : queued.Pairwise fun tx tx' => R tx.nonce tx'.nonce) :
    (insertQueued tx queued).1.Pairwise fun tx tx' => R tx.nonce tx'.nonce := by
  induction queued with
  | nil => simp [insertQueued]
  | cons existing queued ih =>
    obtain ⟨hf, hr⟩ := pairwise_cons.1 hs
    rw [insertQueued]
    split_ifs with hb heq hp
    · refine pairwise_cons.2 ⟨fun tx' htx' => ?_, ih hr⟩
      rcases mem_cons.1 ((insertQueued_perm tx queued).subset
        (mem_append_right _ htx')) with rfl | hmem
      · exact hlt _ _ hb
      · exact hf tx' hmem
    · refine pairwise_cons.2 ⟨fun tx' htx' => ?_, hr⟩
      rw [← heq]
      exact hf tx' htx'
    · exact hs
    · have ha : tx.nonce < existing.nonce := by omega
      refine pairwise_cons.2 ⟨fun tx' htx' => ?_, hs⟩
      rcases mem_cons.1 htx' with rfl | hmem
      · exact hlt _ _ ha
      · exact ht _ _ _ ha (hf tx' hmem)

/-- The nonces after filing, unless it is appended only because the next nonce saturates. -/
theorem maximalRun_insert (h : MaximalRun (·.nonce) self.nextNonce self.pending self.queued)
    (hle : ∀ tx' ∈ self.queued, tx'.nonce ≤ U64_MAX) (hmax : tx.nonce ≤ U64_MAX)
    (hn : tx.nonce = self.nextPendingNonce →
      tx.nonce = self.nextNonce + self.pending.length) :
    MaximalRun (·.nonce) (self.insert tx).1.nextNonce (self.insert tx).1.pending
      (self.insert tx).1.queued := by
  rcases self.insert_cases tx with ⟨-, hi⟩ | ⟨-, heq, hi⟩ | ⟨-, hgap, hi⟩ |
    ⟨hlow, -, existing, -, -, hi⟩
  · rw [hi]
    exact h
  · -- it continues the pending ones, and queued ones may follow it
    rw [hi]
    exact maximalRun_promote ((h.cons (hn heq)).concat (hn heq)) hle
  · -- it waits among the queued ones
    rw [hi]
    refine .of_rest h.toNumberedRun
      (insertQueued_pairwise (fun _ _ hlt => hlt) (fun _ _ _ => Nat.lt_trans) h.rest_sorted)
      fun tx' htx' => ?_
    rcases mem_cons.1 ((insertQueued_perm tx self.queued).subset
      (mem_append_right _ htx')) with rfl | hmem
    · rw [nextPendingNonce] at hgap
      show self.nextNonce + self.pending.length < tx'.nonce
      omega
    · exact h.rest_gt hmem
  · -- it replaces a pending one with its nonce
    have hkey : tx.nonce = self.nextNonce + (tx.nonce - self.nextNonce) := by omega
    rw [hi]
    exact h.set hkey

theorem WellFormed.maximalRun_insert (h : self.WellFormed sender) (hn : tx.nonce < U64_MAX) :
    MaximalRun (·.nonce) (self.insert tx).1.nextNonce (self.insert tx).1.pending
      (self.insert tx).1.queued := by
  refine SenderQueue.maximalRun_insert h.nonces (fun tx' htx' => ?_) hn.le fun hnx => ?_
  · exact (h.below tx' (mem_append_right _ htx')).le
  · rw [nextPendingNonce] at hnx
    omega

theorem WellFormed.insert (h : self.WellFormed tx.sender) (hn : tx.nonce < U64_MAX) :
    (self.insert tx).1.WellFormed tx.sender := by
  have hmem : ∀ tx' ∈ (self.insert tx).1.txs, tx' = tx ∨ tx' ∈ self.txs := fun tx' htx' =>
    mem_cons.1 ((self.insert_perm tx).subset (mem_append_right _ htx'))
  refine ⟨h.maximalRun_insert hn, fun tx' htx' => ?_, fun tx' htx' => ?_⟩
  · rcases hmem tx' htx' with rfl | hold
    · rfl
    · exact h.owned tx' hold
  · rcases hmem tx' htx' with rfl | hold
    · exact hn
    · exact h.below tx' hold

end SenderQueue

end Kora
