/-
Building a block from the transaction pool.

Every sender offers the first of its pending transactions that is neither excluded nor
taken yet, and in each turn the best offer is taken. Since no two transactions have the
same hash, the order in which the senders are walked has no effect.

* `Reads.greedyMerge` — the loop takes the best of the offers in each turn;
* `block_building` — what is built from the pools that are reached.
-/
import Kora.PoolQueues
import Kora.Selection

open Std List

namespace Kora

namespace OrderedTransaction

theorem cmp_eq : cmp = compareLex (fun tx tx' => compareOn (·.effectiveGasPrice) tx' tx)
    (compareLex (compareOn (·.timestamp)) (compareOn (·.hash))) := rfl

instance : TransCmp cmp := by
  have hprice : TransCmp fun tx tx' : OrderedTransaction =>
      compareOn (·.effectiveGasPrice) tx' tx := TransCmp.opposite
  rw [cmp_eq]
  infer_instance

theorem hash_eq_of_cmp_eq {tx tx' : OrderedTransaction} (h : tx.cmp tx' = .eq) :
    tx.hash = tx'.hash := by
  rw [cmp, Ordering.then_eq_eq, Ordering.then_eq_eq] at h
  exact LawfulEqCmp.compare_eq_iff_eq.1 h.2.2

end OrderedTransaction

/-! ### The states of the senders -/

/-- The transactions that are not excluded. -/
def included (P : Platform) (excluded : List B256) (txs : List OrderedTransaction) :
    List OrderedTransaction :=
  txs.filter (fun tx => !excluded.contains (orderedTxId P tx))

namespace BuildSenderState

variable {P : Platform} {excluded : List B256}

/-- The nonces of the transactions that are left count up from the expected nonce to the largest
one. -/
structure InStep (state : BuildSenderState) : Prop where
  expected_le : state.expectedNonce ≤ U64_MAX
  nonce_eq : ∀ {i : ℕ} {tx : OrderedTransaction}, state.txs[i]? = some tx →
    tx.nonce = min (state.expectedNonce + i) U64_MAX

theorem InStep.tail {tx : OrderedTransaction} {txs : List OrderedTransaction} {expectedNonce : ℕ}
    (h : InStep ⟨tx :: txs, expectedNonce⟩) : InStep ⟨txs, min (expectedNonce + 1) U64_MAX⟩ where
  expected_le := min_le_right _ _
  nonce_eq {i tx'} htx' := by
    have hn : tx'.nonce = min (expectedNonce + (i + 1)) U64_MAX := h.nonce_eq htx'
    dsimp only
    omega

theorem nextCandidate_spec {txs : List OrderedTransaction} {expectedNonce : ℕ}
    (h : InStep ⟨txs, expectedNonce⟩) :
    (nextCandidate P excluded txs expectedNonce).1.InStep ∧
      included P excluded (nextCandidate P excluded txs expectedNonce).1.txs =
        included P excluded txs ∧
      (nextCandidate P excluded txs expectedNonce).2 = (included P excluded txs).head? ∧
      ∀ tx, (nextCandidate P excluded txs expectedNonce).2 = some tx →
        (nextCandidate P excluded txs expectedNonce).1.txs.head? = some tx := by
  induction txs generalizing expectedNonce with
  | nil => exact ⟨h, rfl, rfl, fun tx htx => by cases htx⟩
  | cons tx txs ih =>
    have hle : expectedNonce ≤ U64_MAX := h.expected_le
    -- the first transaction that is left is the expected one
    have hn : tx.nonce = expectedNonce := by
      have hf : tx.nonce = min (expectedNonce + 0) U64_MAX := h.nonce_eq rfl
      omega
    rw [nextCandidate, if_neg (by omega), if_neg (by omega)]
    split_ifs with he
    · have hs : included P excluded (tx :: txs) = included P excluded txs := by
        rw [included, filter_cons, he]
        rfl
      rw [hs, hn]
      exact ih h.tail
    · have ht : included P excluded (tx :: txs) = tx :: included P excluded txs := by
        rw [included, filter_cons, Bool.eq_false_iff.2 he]
        rfl
      refine ⟨h, rfl, by rw [ht, head?_cons], fun tx' htx' => ?_⟩
      rw [head?_cons]
      exact htx'

theorem InStep.consume {state : BuildSenderState} (h : state.InStep) : state.consume.InStep := by
  obtain ⟨txs, expectedNonce⟩ := state
  cases txs with
  | nil => exact ⟨min_le_right _ _, fun htx => by cases htx⟩
  | cons tx txs => exact h.tail

theorem included_consume {state : BuildSenderState} {tx : OrderedTransaction}
    {rest : List OrderedTransaction} (hh : state.txs.head? = some tx)
    (hi : included P excluded state.txs = tx :: rest) :
    included P excluded state.consume.txs = rest := by
  obtain ⟨txs, expectedNonce⟩ := state
  obtain ⟨txs, rfl⟩ := head?_eq_some_iff.1 hh
  rw [included, filter_cons] at hi
  split at hi
  · exact (cons.inj hi).2
  · next he =>
    -- what is offered is not excluded
    have hmem : tx ∈ txs.filter fun tx => !excluded.contains (orderedTxId P tx) :=
      hi ▸ mem_cons_self
    exact absurd (mem_filter.1 hmem).2 he

end BuildSenderState

namespace PoolInner

variable {P : Platform} {excluded : List B256} {senders : List (Address × BuildSenderState)}
  {source : Address → List OrderedTransaction}

/-! ### One turn of the loop -/

theorem best_spec {candidates : List (Address × OrderedTransaction)}
    {candidate : Address × OrderedTransaction} (h : best candidates = some candidate) :
    candidate ∈ candidates ∧ ∀ c ∈ candidates, (candidate.2.cmp c.2).isLE = true := by
  cases candidates with
  | nil => cases h
  | cons first rest =>
    obtain rfl := Option.some.inj h
    exact foldl_least Prod.snd first rest

def candidates (P : Platform) (excluded : List B256) (senders : List (Address × BuildSenderState)) :
    List (Address × OrderedTransaction) :=
  let turns := senders.map (fun entry =>
    (entry.1, BuildSenderState.nextCandidate P excluded entry.2.txs entry.2.expectedNonce))
  turns.filterMap (fun turn => turn.2.2.map (fun tx => (turn.1, tx)))

/-- The states after a turn in which the candidate of a sender is taken. -/
def advance (P : Platform) (excluded : List B256) (senders : List (Address × BuildSenderState))
    (sender : Address) : List (Address × BuildSenderState) :=
  let turns := senders.map (fun entry =>
    (entry.1, BuildSenderState.nextCandidate P excluded entry.2.txs entry.2.expectedNonce))
  turns.map (fun turn => (turn.1, if turn.1 = sender then turn.2.1.consume else turn.2.1))

theorem buildLoop_of_none (h : best (candidates P excluded senders) = none) (room : ℕ) :
    buildLoop P excluded (room + 1) senders = [] := by
  rw [candidates] at h
  rw [buildLoop, h]

variable {sender : Address} {tx : OrderedTransaction}

theorem buildLoop_of_some (h : best (candidates P excluded senders) = some (sender, tx)) (room : ℕ)
    :
    buildLoop P excluded (room + 1) senders =
      orderedToTx tx :: buildLoop P excluded room (advance P excluded senders sender) := by
  rw [candidates] at h
  rw [buildLoop, h]
  rfl

/-- **What the states offer**: from each sender the transactions that are left and not excluded. -/
structure Reads (P : Platform) (excluded : List B256) (senders : List (Address × BuildSenderState))
    (source : Address → List OrderedTransaction) : Prop where
  nodup : (senders.map Prod.fst).Nodup
  inStep : ∀ entry ∈ senders, entry.2.InStep
  source_eq : ∀ entry ∈ senders, source entry.1 = included P excluded entry.2.txs
  source_nil : ∀ sender, (∀ entry ∈ senders, entry.1 ≠ sender) → source sender = []

namespace Reads

variable (h : Reads P excluded senders source)

include h

theorem mem_candidates :
    (sender, tx) ∈ candidates P excluded senders ↔ (source sender).head? = some tx := by
  rw [candidates, mem_filterMap]
  constructor
  · rintro ⟨turn, ht, hc⟩
    obtain ⟨entry, he, rfl⟩ := mem_map.1 ht
    obtain ⟨tx', htx', heq⟩ := Option.map_eq_some_iff.1 hc
    obtain ⟨rfl, rfl⟩ := Prod.mk.inj heq
    rw [h.source_eq entry he,
      ← (BuildSenderState.nextCandidate_spec (h.inStep entry he)).2.2.1]
    exact htx'
  · intro hh
    obtain ⟨entry, he, rfl⟩ : ∃ entry ∈ senders, entry.1 = sender := by
      by_contra hnone
      rw [h.source_nil sender fun entry he heq => hnone ⟨entry, he, heq⟩] at hh
      cases hh
    rw [h.source_eq entry he,
      ← (BuildSenderState.nextCandidate_spec (h.inStep entry he)).2.2.1] at hh
    exact ⟨_, mem_map_of_mem he, by rw [hh]; rfl⟩

theorem advance {rest : List OrderedTransaction} (hs : source sender = tx :: rest) :
    Reads P excluded (advance P excluded senders sender) (Function.update source sender rest) := by
  have hmem : ∀ {entry' : Address × BuildSenderState},
      entry' ∈ PoolInner.advance P excluded senders sender → ∃ entry ∈ senders,
        entry'.1 = entry.1 ∧ entry'.2.InStep ∧
          Function.update source sender rest entry'.1 = included P excluded entry'.2.txs := by
    intro entry' he'
    obtain ⟨turn, ht, rfl⟩ := mem_map.1 he'
    obtain ⟨entry, he, rfl⟩ := mem_map.1 ht
    have hsp := @BuildSenderState.nextCandidate_spec P excluded _ _ (h.inStep entry he)
    obtain ⟨hst, hi, hh, hf⟩ := hsp
    refine ⟨entry, he, rfl, ?_⟩
    dsimp only
    split
    · next heq =>
      rw [← h.source_eq entry he, heq, hs] at hh hi
      rw [heq, Function.update_self]
      exact ⟨hst.consume, (BuildSenderState.included_consume (hf tx hh) hi).symm⟩
    · next hne =>
      rw [Function.update_of_ne hne, hi, h.source_eq entry he]
      exact ⟨hst, rfl⟩
  have hk : (PoolInner.advance P excluded senders sender).map Prod.fst =
      senders.map Prod.fst := by
    rw [PoolInner.advance, map_map, map_map]
    rfl
  refine ⟨hk ▸ h.nodup, fun entry' he' => ?_, fun entry' he' => ?_,
    fun sender' hnone => ?_⟩
  · obtain ⟨-, -, -, hst, -⟩ := hmem he'
    exact hst
  · obtain ⟨-, -, -, -, hi⟩ := hmem he'
    exact hi
  · have hnone' : ∀ entry ∈ senders, entry.1 ≠ sender' := by
      intro entry he
      have hkey : entry.1 ∈ (PoolInner.advance P excluded senders sender).map Prod.fst :=
        hk ▸ mem_map_of_mem he
      obtain ⟨entry', he', heq⟩ := mem_map.1 hkey
      exact heq ▸ hnone entry' he'
    have hne : sender' ≠ sender := by
      rintro rfl
      rw [h.source_nil sender' hnone'] at hs
      cases hs
    rw [Function.update_of_ne hne]
    exact h.source_nil sender' hnone'

/-- **The loop takes the best of the offers in each turn.** -/
theorem greedyMerge (hd : ∀ sender sender' tx tx', tx ∈ source sender →
      tx' ∈ source sender' → tx.cmp tx' = .eq → sender = sender') (room : ℕ) :
    ∃ txs, GreedyMerge (fun tx tx' => tx.cmp tx' = .lt) room source txs ∧
      buildLoop P excluded room senders = txs.map orderedToTx := by
  induction room generalizing senders source with
  | zero => exact ⟨[], .full source, rfl⟩
  | succ room ih =>
    cases hb : best (candidates P excluded senders) with
    | none =>
      refine ⟨[], .exhausted fun sender => ?_, buildLoop_of_none hb room⟩
      cases hs : source sender with
      | nil => rfl
      | cons tx rest =>
        have hmem := h.mem_candidates.2 (by rw [hs, head?_cons])
        cases hc : candidates P excluded senders with
        | nil =>
          rw [hc] at hmem
          cases hmem
        | cons first later =>
          rw [hc] at hb
          cases hb
    | some candidate =>
      obtain ⟨sender, tx⟩ := candidate
      obtain ⟨hmem, hle⟩ := best_spec hb
      obtain ⟨rest, hs⟩ := head?_eq_some_iff.1 (h.mem_candidates.1 hmem)
      have hsub : ∀ sender', ∀ tx' ∈ Function.update source sender rest sender',
          tx' ∈ source sender' := by
        intro sender' tx' htx'
        by_cases heq : sender' = sender
        · subst heq
          rw [Function.update_self] at htx'
          exact hs ▸ mem_cons_of_mem tx htx'
        · rwa [Function.update_of_ne heq] at htx'
      obtain ⟨txs, hm, hl⟩ := ih (h.advance hs)
        fun sender₁ sender₂ tx₁ tx₂ htx₁ htx₂ =>
          hd sender₁ sender₂ tx₁ tx₂ (hsub _ _ htx₁) (hsub _ _ htx₂)
      refine ⟨tx :: txs, .take hs (fun sender' tx' rest' hne hs' => ?_) hm, ?_⟩
      · -- the offers of two senders differ in their hashes
        have hisLE := hle (sender', tx') (h.mem_candidates.2 (by rw [hs', head?_cons]))
        cases hcmp : tx.cmp tx' with
        | lt => rfl
        | eq =>
          exact absurd (hd sender' sender tx' tx (hs' ▸ mem_cons_self)
            (hs ▸ mem_cons_self) (OrientedCmp.eq_comm.1 hcmp)) hne
        | gt =>
          dsimp only at hisLE
          rw [hcmp] at hisLE
          cases hisLE
      · rw [buildLoop_of_some hb, hl, map_cons]

end Reads

/-! ### Pools -/

variable {pool : PoolInner}

def offers (P : Platform) (excluded : List B256) (pool : PoolInner) (sender : Address) :
    List OrderedTransaction :=
  included P excluded ((pool.bySender[sender]?).elim [] (·.pending))

theorem mem_offers (h : tx ∈ pool.offers P excluded sender) :
    orderedTxId P tx ∉ excluded ∧
      ∃ queue, pool.bySender[sender]? = some queue ∧ tx ∈ queue.pending := by
  obtain ⟨hmem, he⟩ := mem_filter.1 h
  refine ⟨by simpa using he, ?_⟩
  cases hq : pool.bySender[sender]? with
  | none =>
    rw [hq] at hmem
    cases hmem
  | some queue =>
    rw [hq] at hmem
    exact ⟨queue, rfl, hmem⟩

theorem reads_of_perm (h : pool.AllQueues SenderQueue.Settled) (excluded : List B256)
    (hpr : senders.Perm pool.buildSenders) :
    Reads P excluded senders (pool.offers P excluded) := by
  have hmem : ∀ entry ∈ senders, ∃ queue, pool.bySender[entry.1]? = some queue ∧
      entry.2 = ⟨queue.pending, queue.nextNonce⟩ := by
    intro entry he
    obtain ⟨⟨sender, queue⟩, hq, rfl⟩ := mem_map.1 (hpr.subset he)
    exact ⟨queue, ExtTreeMap.mem_toList_iff_getElem?_eq_some.1 (mem_of_mem_filter hq), rfl⟩
  refine ⟨?_, fun entry he => ?_, fun entry he => ?_, fun sender hnone => ?_⟩
  · refine (hpr.map Prod.fst).nodup_iff.2 ?_
    rw [buildSenders, map_map]
    have hk : pool.bySender.toList.Pairwise fun e e' => e.1 ≠ e'.1 :=
      pool.bySender.distinct_keys_toList.imp fun hne heq =>
        hne (LawfulEqCmp.compare_eq_iff_eq.2 heq)
    exact pairwise_map.2 (hk.filter _)
  · obtain ⟨queue, hq, hs⟩ := hmem entry he
    have hst := h entry.1 queue hq
    rw [hs]
    exact ⟨hst.start_le, hst.run_key⟩
  · obtain ⟨queue, hq, hs⟩ := hmem entry he
    rw [offers, hq, hs]
    rfl
  · rw [offers]
    cases hq : pool.bySender[sender]? with
    | none => rfl
    | some queue =>
      cases hp : queue.pending with
      | nil =>
        rw [Option.elim_some, hp]
        rfl
      | cons tx txs =>
        refine absurd rfl (hnone (sender, ⟨queue.pending, queue.nextNonce⟩) (hpr.symm.subset ?_))
        refine mem_map.2 ⟨(sender, queue), mem_filter.2
          ⟨ExtTreeMap.mem_toList_iff_getElem?_eq_some.2 hq, ?_⟩, rfl⟩
        rw [hp]
        rfl

theorem Linked.of_mem_offers (h : pool.Linked P none) (htx : tx ∈ pool.offers P excluded sender) :
    tx.sender = sender ∧ pool.byHash[tx.hash]? = some tx := by
  obtain ⟨-, queue, hq, hmem⟩ := mem_offers htx
  have hmem : tx ∈ queue.txs := mem_append_left _ hmem
  refine ⟨h.owned hq tx hmem, (h.known hq tx hmem).resolve_left fun heq => ?_⟩
  cases heq

theorem Linked.nodup_offers (h : pool.Linked P none) (sender : Address) :
    (pool.offers P excluded sender).Nodup := by
  rw [offers]
  cases hq : pool.bySender[sender]? with
  | none => exact nodup_nil
  | some queue =>
    exact ((h.nodup hq).sublist (sublist_append_left _ _)).sublist filter_sublist

theorem Linked.eq_of_id_eq (h : pool.Linked P none) {tx' : OrderedTransaction}
    (htx : pool.byHash[tx.hash]? = some tx) (htx' : pool.byHash[tx'.hash]? = some tx')
    (hid : orderedTxId P tx = orderedTxId P tx') : tx = tx' := by
  have hh := (h.keyed htx).2.symm.trans (hid ▸ (h.keyed htx').2)
  rw [Option.some.inj hh, htx'] at htx
  exact (Option.some.inj htx).symm

theorem offers_sorted (h : pool.AllQueues SenderQueue.Settled) (sender : Address) :
    (pool.offers P excluded sender).Pairwise fun tx tx' => tx.nonce ≤ tx'.nonce := by
  rw [offers]
  cases hq : pool.bySender[sender]? with
  | none => exact List.Pairwise.nil
  | some queue =>
    have hs := h sender queue hq
    refine List.Pairwise.filter _ (pairwise_iff_getElem.2 fun i j hi hj hij => ?_)
    have hn := hs.run_key (getElem?_eq_getElem hi)
    have hn' := hs.run_key (getElem?_eq_getElem hj)
    omega

/-- What a sender offers once some transactions are taken. -/
def nextOffer (P : Platform) (excluded : List B256) (pool : PoolInner)
    (taken : List OrderedTransaction) (sender : Address) : Option OrderedTransaction :=
  GreedyMerge.next (pool.offers P excluded) (·.sender) taken sender

end PoolInner

/-- **Block building.** From every pool that is reached, `build` returns at most `maxTxs` different
transactions outside the excluded ones, those of a sender in nonce order and without a gap. Each is
the best of what is offered when it is taken, fewer are taken only if no more is offered, and the
order of the senders has no effect. -/
theorem block_building (P : Platform) (A : Alloy) (config : PoolConfig) (ops : List PoolInner.Op)
    (hops : ∀ op ∈ ops, op.NonceU64 P A) (pool : PoolInner)
    (hpool : pool = ops.foldl (PoolInner.step P A config) PoolInner.new) (maxTxs : ℕ)
    (excluded : List B256) :
    ∃ txs : List OrderedTransaction,
      pool.build P maxTxs excluded = txs.map orderedToTx ∧
      txs.length ≤ maxTxs ∧ (txs.map orderedToTx).Nodup ∧
      (∀ tx ∈ txs, orderedTxId P tx ∉ excluded) ∧
      (∀ sender, txs.filter (·.sender = sender) <+: pool.offers P excluded sender ∧
        (pool.offers P excluded sender).Pairwise fun tx tx' => tx.nonce ≤ tx'.nonce) ∧
      (∀ k tx, txs[k]? = some tx →
        pool.nextOffer P excluded (txs.take k) tx.sender = some tx ∧
        ∀ sender tx', sender ≠ tx.sender →
          pool.nextOffer P excluded (txs.take k) sender = some tx' → tx.cmp tx' = .lt) ∧
      (txs.length < maxTxs → ∀ sender, ∀ tx ∈ pool.offers P excluded sender, tx ∈ txs) ∧
      ∀ senders : List (Address × BuildSenderState), senders.Perm pool.buildSenders →
        PoolInner.buildLoop P excluded maxTxs senders = pool.build P maxTxs excluded := by
  have hs : pool.AllQueues SenderQueue.Settled := hpool ▸ PoolInner.settled_run config hops
  have hl : pool.Linked P none := hpool ▸ PoolInner.linked_run P A config ops
  have ho : ∀ sender, ∀ tx ∈ pool.offers P excluded sender, tx.sender = sender :=
    fun sender tx htx => (hl.of_mem_offers htx).1
  have hd : ∀ sender sender' tx tx', tx ∈ pool.offers P excluded sender →
      tx' ∈ pool.offers P excluded sender' → tx.cmp tx' = .eq → sender = sender' := by
    intro sender sender' tx tx' htx htx' hcmp
    obtain ⟨rfl, hk⟩ := hl.of_mem_offers htx
    obtain ⟨rfl, hk'⟩ := hl.of_mem_offers htx'
    rw [OrderedTransaction.hash_eq_of_cmp_eq hcmp, hk'] at hk
    rw [Option.some.inj hk]
  obtain ⟨txs, hm, hlp⟩ :=
    (PoolInner.reads_of_perm (P := P) hs excluded (List.Perm.refl _)).greedyMerge hd
      maxTxs
  have hmem : ∀ tx ∈ txs, tx ∈ pool.offers P excluded tx.sender := fun tx htx =>
    hm.mem_source ho htx
  refine ⟨txs, hlp, hm.length_le, ?_, fun tx htx => (PoolInner.mem_offers (hmem tx htx)).1,
    fun sender => ⟨hm.isPrefix_filter ho sender, PoolInner.offers_sorted hs sender⟩,
    fun k tx htx => hm.before_next ho htx, fun hlt sender tx htx => ?_,
    fun senders hp => ?_⟩
  · -- different transactions have different ids, so they are different as bytes
    refine (hm.nodup ho fun sender => hl.nodup_offers sender).map_on ?_
    intro tx htx tx' htx' heq
    exact hl.eq_of_id_eq (hl.of_mem_offers (hmem tx htx)).2
      (hl.of_mem_offers (hmem tx' htx')).2 (congrArg P.txId heq)
  · rw [← hm.filter_eq_of_lt ho hlt sender] at htx
    exact mem_of_mem_filter htx
  · obtain ⟨txs', hm', hlp'⟩ :=
      (PoolInner.reads_of_perm (P := P) hs excluded hp).greedyMerge hd maxTxs
    have ha : ∀ tx tx' : OrderedTransaction, tx.cmp tx' = .lt → ¬ tx'.cmp tx = .lt := by
      intro tx tx' hlt hlt'
      rw [OrientedCmp.gt_of_lt hlt] at hlt'
      cases hlt'
    rw [hlp', hm'.unique ha hm]
    exact hlp.symm

section Example

open PoolExample

/-- One of three transactions is excluded; the others tie in price, and the smaller hash comes
first. -/
theorem block_building_tie :
    (∀ op ∈ [PoolInner.Op.add (transfer 0), .add (transfer 1), .add (transfer 2)],
      op.NonceU64 platform alloy) ∧
    ∃ txs : List OrderedTransaction,
      PoolInner.build platform
        ([PoolInner.Op.add (transfer 0), .add (transfer 1), .add (transfer 2)].foldl
          (PoolInner.step platform alloy .new) PoolInner.new) 3 [1] = txs.map orderedToTx ∧
      txs.length ≤ 3 ∧
      PoolInner.build platform
        ([PoolInner.Op.add (transfer 0), .add (transfer 1), .add (transfer 2)].foldl
          (PoolInner.step platform alloy .new) PoolInner.new) 3 [1] = [⟨[0]⟩, ⟨[2]⟩] := by
  have hops : ∀ op ∈ [PoolInner.Op.add (transfer 0), .add (transfer 1), .add (transfer 2)],
      op.NonceU64 platform alloy := by
    simp only [forall_mem_cons]
    refine ⟨?_, ?_, ?_, by simp⟩
    all_goals
      rintro tx rfl
      decide
  obtain ⟨txs, hb, hl, -⟩ := block_building platform alloy .new _ hops _ rfl 3 [1]
  exact ⟨hops, txs, hb, hl, by decide +kernel⟩

end Example

end Kora
