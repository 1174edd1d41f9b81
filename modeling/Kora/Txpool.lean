/-
The transaction pool (`node/txpool/src/ordering.rs`, `node/txpool/src/pool.rs`).

A transaction stands under its hash, under its id, and in the queue of its sender, where
those with consecutive nonces are pending. `build` selects pending ones for a block;
`prune` drops everything of a sender up to its largest nonce in a finalized block.

* `Consistent` — the three indexes describe the same transactions;
* `prune_removes_iff` — exactly what pruning drops.
-/
import Kora.Block
import Mathlib.Data.List.Sort

open Std List Option

namespace Kora

/-- A transaction with ordering metadata. The envelope stands for its canonical encoding. -/
structure OrderedTransaction where
  hash : B256
  sender : Address
  nonce : ℕ
  effectiveGasPrice : ℕ
  timestamp : ℕ
  envelope : Bytes
deriving DecidableEq

/-- The higher price comes first, then the earlier transaction, then the smaller hash. -/
def OrderedTransaction.cmp (self other : OrderedTransaction) : Ordering :=
  (compare other.effectiveGasPrice self.effectiveGasPrice).then
    ((compare self.timestamp other.timestamp).then (compare self.hash other.hash))

def orderedToTx (tx : OrderedTransaction) : Tx := ⟨tx.envelope⟩

def orderedTxId (P : Platform) (tx : OrderedTransaction) : B256 := P.txId (orderedToTx tx)

/-! ### Sender queues -/

structure SenderQueue where
  sender : Address
  /-- Next expected nonce for pending transactions. -/
  nextNonce : ℕ
  /-- Executable transactions with consecutive nonces. -/
  pending : List OrderedTransaction
  /-- Future transactions waiting for nonce gaps to fill. -/
  queued : List OrderedTransaction
deriving DecidableEq

namespace SenderQueue

def isEmpty (self : SenderQueue) : Bool := self.pending.isEmpty && self.queued.isEmpty

/-- All transactions of the queue, as the source chains its two parts. -/
def txs (self : SenderQueue) : List OrderedTransaction := self.pending ++ self.queued

/-- Move the first of the queued transactions to the pending ones while it continues them. -/
def promote (nextNonce : ℕ) (pending : List OrderedTransaction) :
    List OrderedTransaction → List OrderedTransaction × List OrderedTransaction
  | [] => (pending, [])
  | tx :: queued =>
    if tx.nonce = min (nextNonce + pending.length) U64_MAX then
      promote nextNonce (pending ++ [tx]) queued
    else (pending, tx :: queued)

def promoteQueued (self : SenderQueue) : SenderQueue :=
  let (pending, queued) := promote self.nextNonce self.pending self.queued
  { self with pending, queued }

/-- Remove the transactions with nonces up to and including `confirmedNonce`. -/
def removeConfirmed (self : SenderQueue) (confirmedNonce : ℕ) : SenderQueue :=
  promoteQueued
    { self with
      pending := self.pending.filter (fun tx => confirmedNonce < tx.nonce)
      queued := self.queued.filter (fun tx => confirmedNonce < tx.nonce)
      nextNonce :=
        if confirmedNonce ≥ self.nextNonce then min (confirmedNonce + 1) U64_MAX
        else self.nextNonce }

/-- Remove a transaction. When it was pending, those after it have a gap before them and become
queued again. -/
def removeByHash (self : SenderQueue) (hash : B256) : SenderQueue :=
  match self.pending.findIdx? (fun tx => tx.hash = hash) with
  | some idx =>
    { self with
      pending := self.pending.take idx
      queued := (self.queued ++ self.pending.drop (idx + 1)).insertionSort
        (fun tx tx' => tx.nonce ≤ tx'.nonce) }
  | none =>
    match self.queued.findIdx? (fun tx => tx.hash = hash) with
    | some idx => { self with queued := self.queued.eraseIdx idx }
    | none => self

end SenderQueue

/-! ### The pool -/

structure PoolInner where
  byHash : ExtTreeMap B256 OrderedTransaction
  byId : ExtTreeMap B256 B256
  bySender : ExtTreeMap Address SenderQueue
  pendingCount : ℕ
  queuedCount : ℕ

/-- A sender while a block is built: the transactions left, and the nonce that comes next. -/
structure BuildSenderState where
  txs : List OrderedTransaction
  expectedNonce : ℕ
deriving DecidableEq

namespace BuildSenderState

variable (P : Platform)

/-- Skip to the next candidate of a sender, and return it if there is one. -/
def nextCandidate (excluded : List B256) :
    List OrderedTransaction → ℕ → BuildSenderState × Option OrderedTransaction
  | [], expectedNonce => (⟨[], expectedNonce⟩, none)
  | tx :: txs, expectedNonce =>
    if tx.nonce < expectedNonce then nextCandidate excluded txs expectedNonce
    else if tx.nonce > expectedNonce then (⟨tx :: txs, expectedNonce⟩, none)
    else if excluded.contains (orderedTxId P tx) then
      nextCandidate excluded txs (min (tx.nonce + 1) U64_MAX)
    else (⟨tx :: txs, expectedNonce⟩, some tx)

def consume (self : BuildSenderState) : BuildSenderState :=
  ⟨self.txs.tail, min (self.expectedNonce + 1) U64_MAX⟩

variable {P}

theorem txs_nextCandidate (excluded : List B256) (txs : List OrderedTransaction)
    (expectedNonce : ℕ) : (nextCandidate P excluded txs expectedNonce).1.txs <:+ txs := by
  induction txs generalizing expectedNonce with
  | nil => exact suffix_rfl
  | cons tx txs ih =>
    rw [nextCandidate]
    split_ifs
    · exact (ih _).trans (suffix_cons tx txs)
    · exact suffix_rfl
    · exact (ih _).trans (suffix_cons tx txs)
    · exact suffix_rfl

theorem mem_of_nextCandidate {excluded : List B256} {txs : List OrderedTransaction}
    {expectedNonce : ℕ} {tx : OrderedTransaction}
    (h : (nextCandidate P excluded txs expectedNonce).2 = some tx) :
    tx ∈ txs ∧ orderedTxId P tx ∉ excluded := by
  induction txs generalizing expectedNonce with
  | nil => cases h
  | cons tx' txs ih =>
    rw [nextCandidate] at h
    split_ifs at h with hp hgap he
    · exact ⟨mem_cons_of_mem tx' (ih h).1, (ih h).2⟩
    · exact ⟨mem_cons_of_mem tx' (ih h).1, (ih h).2⟩
    · obtain rfl : tx' = tx := some.inj h
      exact ⟨mem_cons_self, fun hmem => he (contains_iff_mem.2 hmem)⟩

end BuildSenderState

namespace PoolInner

variable (P : Platform)

def new : PoolInner := ⟨∅, ∅, ∅, 0, 0⟩

def updateCounts (self : PoolInner) : PoolInner :=
  { self with
    pendingCount := (self.bySender.values.map (fun queue => queue.pending.length)).sum
    queuedCount := (self.bySender.values.map (fun queue => queue.queued.length)).sum }

/-- Remove a sender's queue if it has become empty. -/
def dropEmpty (self : PoolInner) (sender : Address) : PoolInner :=
  match self.bySender[sender]? with
  | some queue =>
    if queue.isEmpty then { self with bySender := self.bySender.erase sender } else self
  | none => self

/-- Remove a transaction from the three indexes. -/
def removeByHash (self : PoolInner) (hash : B256) : PoolInner :=
  match self.byHash[hash]? with
  | none => self
  | some tx =>
    let inner :=
      { self with
        byHash := self.byHash.erase hash
        byId := self.byId.erase (orderedTxId P tx) }
    match inner.bySender[tx.sender]? with
    | none => inner
    | some queue =>
      dropEmpty
        { inner with bySender := inner.bySender.insert tx.sender (queue.removeByHash hash) }
        tx.sender

/-! ### Building -/

/-- The first of the candidates that no other one precedes. -/
def best : List (Address × OrderedTransaction) → Option (Address × OrderedTransaction)
  | [] => none
  | candidate :: candidates =>
    some (candidates.foldl
      (fun left right => if right.2.cmp left.2 = .lt then right else left) candidate)

/-- The senders with pending transactions, ready to be walked. -/
def buildSenders (self : PoolInner) : List (Address × BuildSenderState) :=
  (self.bySender.toList.filter (fun entry => !entry.2.pending.isEmpty)).map
    (fun entry => (entry.1, ⟨entry.2.pending, entry.2.nextNonce⟩))

/-- Take the best of the senders' candidates until there is none or the block is full. -/
def buildLoop (excluded : List B256) : ℕ → List (Address × BuildSenderState) → List Tx
  | 0, _ => []
  | room + 1, senders =>
    let turns := senders.map (fun entry =>
      (entry.1, BuildSenderState.nextCandidate P excluded entry.2.txs entry.2.expectedNonce))
    match best (turns.filterMap (fun turn => turn.2.2.map (fun tx => (turn.1, tx)))) with
    | none => []
    | some (sender, tx) =>
      orderedToTx tx :: buildLoop excluded room
        (turns.map (fun turn =>
          (turn.1, if turn.1 = sender then turn.2.1.consume else turn.2.1)))

/-- Select up to `maxTxs` transactions outside of an excluded set. -/
def build (self : PoolInner) (maxTxs : ℕ) (excluded : List B256) : List Tx :=
  buildLoop P excluded maxTxs self.buildSenders

/-! ### Pruning -/

/-- The pooled transaction with an id. -/
def getById (self : PoolInner) (id : B256) : Option OrderedTransaction :=
  (self.byId[id]?).bind (fun hash => self.byHash[hash]?)

/-- Note a transaction of a finalized block: its sender's nonces up to it are confirmed. -/
def confirm (confirmed : ExtTreeMap Address ℕ) (tx : OrderedTransaction) : ExtTreeMap Address ℕ :=
  confirmed.insert tx.sender
    (match confirmed[tx.sender]? with
      | some nonce => max nonce tx.nonce
      | none => tx.nonce)

/-- The largest confirmed nonce of each sender. -/
def confirmedBySender (self : PoolInner) (txIds : List B256) : ExtTreeMap Address ℕ :=
  (txIds.filterMap self.getById).foldl confirm ∅

/-- The pool during a pruning, with the hashes and the senders still to be looked at. -/
structure Pruning where
  inner : PoolInner
  hashesToRemove : List B256
  sendersToCheck : List Address

/-- The hashes of a queue's transactions up to a confirmed nonce. -/
def confirmedHashes (queue : SenderQueue) (confirmedNonce : ℕ) : List B256 :=
  (queue.txs.filter (fun tx => tx.nonce ≤ confirmedNonce)).map (·.hash)

def pruneSender (self : Pruning) (entry : Address × ℕ) : Pruning :=
  match self.inner.bySender[entry.1]? with
  | none => self
  | some queue =>
    { inner :=
        { self.inner with
          bySender := self.inner.bySender.insert entry.1 (queue.removeConfirmed entry.2) }
      hashesToRemove := self.hashesToRemove ++ confirmedHashes queue entry.2
      sendersToCheck := self.sendersToCheck ++ [entry.1] }

/-- Remove the transactions of a finalized block, and everything of their senders before them. -/
def prune (self : PoolInner) (txIds : List B256) : PoolInner :=
  let pruning := (self.confirmedBySender txIds).toList.foldl pruneSender ⟨self, [], []⟩
  let inner := pruning.hashesToRemove.foldl (removeByHash P) pruning.inner
  (pruning.sendersToCheck.foldl dropEmpty inner).updateCounts

/-! ### Consistency -/

/-- The three indexes describe the same transactions. -/
structure Consistent (pool : PoolInner) : Prop where
  queue_of_byHash : ∀ {hash : B256} {tx}, pool.byHash[hash]? = some tx →
    tx.hash = hash ∧ ∃ queue, pool.bySender[tx.sender]? = some queue ∧ tx ∈ queue.txs
  byHash_of_queue : ∀ {sender : Address} {queue} {tx : OrderedTransaction},
    pool.bySender[sender]? = some queue → tx ∈ queue.txs →
      tx.sender = sender ∧ pool.byHash[tx.hash]? = some tx
  byId_of_byHash : ∀ {hash : B256} {tx}, pool.byHash[hash]? = some tx →
    pool.byId[orderedTxId P tx]? = some hash
  byHash_of_byId : ∀ {id hash : B256}, pool.byId[id]? = some hash →
    ∃ tx, pool.byHash[hash]? = some tx ∧ orderedTxId P tx = id

def Pooled (self : PoolInner) (tx : OrderedTransaction) : Prop := self.byHash[tx.hash]? = some tx

variable {P}

variable {tx : OrderedTransaction}

theorem Consistent.getById_eq_some {self : PoolInner} (h : self.Consistent P) {id : B256} :
    self.getById id = some tx ↔ self.Pooled tx ∧ orderedTxId P tx = id := by
  rw [getById, bind_eq_some_iff]
  constructor
  · rintro ⟨hash, hid, hh⟩
    obtain ⟨tx', hh', hid'⟩ := h.byHash_of_byId hid
    obtain rfl : tx' = tx := some.inj (hh'.symm.trans hh)
    obtain ⟨rfl, -⟩ := h.queue_of_byHash hh
    exact ⟨hh, hid'⟩
  · rintro ⟨hp, rfl⟩
    exact ⟨tx.hash, h.byId_of_byHash hp, hp⟩

theorem Consistent.pooled_iff {self : PoolInner} (h : self.Consistent P) :
    self.Pooled tx ↔ ∃ queue, self.bySender[tx.sender]? = some queue ∧ tx ∈ queue.txs := by
  constructor
  · exact fun hp => (h.queue_of_byHash hp).2
  · rintro ⟨queue, hq, htx⟩
    exact (h.byHash_of_queue hq htx).2

/-! ### What is built -/

theorem mem_of_best {candidates : List (Address × OrderedTransaction)}
    {candidate : Address × OrderedTransaction} (h : best candidates = some candidate) :
    candidate ∈ candidates := by
  cases candidates with
  | nil => cases h
  | cons first rest =>
    obtain rfl := some.inj h
    clear h
    induction rest generalizing first with
    | nil => exact mem_cons_self
    | cons second rest ih =>
      rw [foldl_cons]
      split
      · exact mem_cons_of_mem first (ih second)
      · rcases mem_cons.1 (ih first) with heq | hmem
        · rw [heq]
          exact mem_cons_self
        · exact mem_cons_of_mem first (mem_cons_of_mem second hmem)

theorem mem_buildLoop {excluded : List B256} {room : ℕ}
    {senders : List (Address × BuildSenderState)} {tx : Tx}
    (h : tx ∈ buildLoop P excluded room senders) :
    ∃ entry ∈ senders, ∃ otx ∈ entry.2.txs,
      tx = orderedToTx otx ∧ orderedTxId P otx ∉ excluded := by
  induction room generalizing senders with
  | zero => cases h
  | succ room ih =>
    rw [buildLoop] at h
    split at h
    · cases h
    · next sender otx hb =>
      rcases mem_cons.1 h with rfl | hl
      · -- the best candidate is one of the candidates, and those are what is next at a sender
        obtain ⟨turn, ht, hc⟩ := mem_filterMap.1 (mem_of_best hb)
        obtain ⟨entry, he, rfl⟩ := mem_map.1 ht
        obtain ⟨otx', hotx', heq⟩ := map_eq_some_iff.1 hc
        obtain rfl : otx' = otx := (Prod.mk.inj heq).2
        obtain ⟨hmem, hex⟩ := BuildSenderState.mem_of_nextCandidate hotx'
        exact ⟨entry, he, otx', hmem, rfl, hex⟩
      · -- what is left of a sender after a turn is a part of what it had before
        obtain ⟨entry', he', otx', hotx', heq, hex⟩ := ih hl
        obtain ⟨turn, ht, rfl⟩ := mem_map.1 he'
        obtain ⟨entry, he, rfl⟩ := mem_map.1 ht
        refine ⟨entry, he, otx', ?_, heq, hex⟩
        have hs := BuildSenderState.txs_nextCandidate (P := P) excluded entry.2.txs
          entry.2.expectedNonce
        dsimp only at hotx'
        split at hotx'
        · exact hs.subset (mem_of_mem_tail hotx')
        · exact hs.subset hotx'

variable {pool : PoolInner}

theorem mem_build {maxTxs : ℕ} {excluded : List B256} {tx : Tx}
    (h : tx ∈ pool.build P maxTxs excluded) :
    ∃ (sender : Address) (queue : SenderQueue), pool.bySender[sender]? = some queue ∧
      ∃ otx ∈ queue.pending, tx = orderedToTx otx ∧ orderedTxId P otx ∉ excluded := by
  obtain ⟨entry, hen, otx, hotx, heq, he⟩ := mem_buildLoop h
  obtain ⟨⟨sender, queue⟩, hq, rfl⟩ := mem_map.1 hen
  have hq := ExtTreeMap.mem_toList_iff_getElem?_eq_some.1 (mem_of_mem_filter hq)
  exact ⟨sender, queue, hq, otx, hotx, heq, he⟩

/-! ### What is pruned -/

theorem getElem?_confirm (confirmed : ExtTreeMap Address ℕ) (tx : OrderedTransaction)
    (sender : Address) :
    (confirm confirmed tx)[sender]? =
      if tx.sender = sender then some (max ((confirmed[sender]?).getD 0) tx.nonce)
      else confirmed[sender]? := by
  rw [confirm, ExtTreeMap.getElem?_insert]
  simp only [LawfulEqCmp.compare_eq_iff_eq]
  split
  · next heq =>
    subst heq
    cases confirmed[tx.sender]? <;> simp
  · rfl

theorem foldl_confirm_mem {txs : List OrderedTransaction} {confirmed : ExtTreeMap Address ℕ}
    {sender : Address} {nonce : ℕ} (h : (txs.foldl confirm confirmed)[sender]? = some nonce) :
    confirmed[sender]? = some nonce ∨ ∃ tx ∈ txs, tx.sender = sender ∧ tx.nonce = nonce := by
  induction txs generalizing confirmed with
  | nil => exact .inl h
  | cons tx txs ih =>
    rcases ih h with hb | ⟨tx', htx', hsp⟩
    · rw [getElem?_confirm] at hb
      split at hb
      -- the new value is the larger of the old one and the nonce of this transaction
      · next hs =>
        have hmax := some.inj hb
        cases hold : confirmed[sender]? with
        | none =>
          rw [hold] at hmax
          exact .inr ⟨tx, mem_cons_self, hs, by simpa using hmax⟩
        | some old =>
          rw [hold, getD_some] at hmax
          rcases max_choice old tx.nonce with heq | heq
          · exact .inl (by rw [← hmax, heq])
          · exact .inr ⟨tx, mem_cons_self, hs, by rw [← hmax, heq]⟩
      · exact .inl hb
    · exact .inr ⟨tx', mem_cons_of_mem tx htx', hsp⟩

theorem foldl_confirm_le (txs : List OrderedTransaction) {confirmed : ExtTreeMap Address ℕ}
    {sender : Address} {nonce : ℕ} (h : confirmed[sender]? = some nonce) :
    ∃ nonce', (txs.foldl confirm confirmed)[sender]? = some nonce' ∧ nonce ≤ nonce' := by
  induction txs generalizing confirmed nonce with
  | nil => exact ⟨nonce, h, le_rfl⟩
  | cons tx txs ih =>
    have hs : ∃ nonce', (confirm confirmed tx)[sender]? = some nonce' ∧ nonce ≤ nonce' := by
      rw [getElem?_confirm, h]
      split
      · exact ⟨_, rfl, le_max_left nonce tx.nonce⟩
      · exact ⟨nonce, rfl, le_rfl⟩
    obtain ⟨nonce₁, h₁, hle₁⟩ := hs
    obtain ⟨nonce₂, h₂, hle₂⟩ := ih h₁
    exact ⟨nonce₂, h₂, hle₁.trans hle₂⟩

theorem foldl_confirm_covers {txs : List OrderedTransaction} (htx : tx ∈ txs)
    (confirmed : ExtTreeMap Address ℕ) :
    ∃ nonce, (txs.foldl confirm confirmed)[tx.sender]? = some nonce ∧ tx.nonce ≤ nonce := by
  obtain ⟨before, after, rfl⟩ := List.append_of_mem htx
  rw [foldl_append, foldl_cons]
  have hself : (confirm (before.foldl confirm confirmed) tx)[tx.sender]? =
      some (max (((before.foldl confirm confirmed)[tx.sender]?).getD 0) tx.nonce) := by
    rw [getElem?_confirm, if_pos rfl]
  obtain ⟨nonce, hn, hle⟩ := foldl_confirm_le after hself
  exact ⟨nonce, hn, (le_max_right _ _).trans hle⟩

@[simp] theorem byHash_dropEmpty (pool : PoolInner) (sender : Address) :
    (pool.dropEmpty sender).byHash = pool.byHash := by
  rw [dropEmpty]
  split
  · split <;> rfl
  · rfl

theorem getElem?_byHash_removeByHash (pool : PoolInner) (hash hash' : B256) :
    (removeByHash P pool hash).byHash[hash']? =
      if hash = hash' then none else pool.byHash[hash']? := by
  have he : (pool.byHash.erase hash)[hash']? =
      if hash = hash' then none else pool.byHash[hash']? := by
    rw [ExtTreeMap.getElem?_erase]
    simp only [LawfulEqCmp.compare_eq_iff_eq]
  rw [removeByHash]
  split
  · next hnone =>
    split
    · next heq => rw [← heq, hnone]
    · rfl
  · rw [← he]
    dsimp only
    split
    · rfl
    · rw [byHash_dropEmpty]

theorem getElem?_byHash_foldl_removeByHash (hashes : List B256) (pool : PoolInner)
    (hash : B256) :
    (hashes.foldl (removeByHash P) pool).byHash[hash]? =
      if hash ∈ hashes then none else pool.byHash[hash]? := by
  induction hashes generalizing pool with
  | nil => simp
  | cons first hashes ih =>
    rw [foldl_cons, ih, getElem?_byHash_removeByHash]
    by_cases hf : first = hash
    · simp [hf]
    · simp [hf, Ne.symm hf]

theorem byHash_foldl_dropEmpty (senders : List Address) (pool : PoolInner) :
    (senders.foldl dropEmpty pool).byHash = pool.byHash := by
  induction senders generalizing pool with
  | nil => rfl
  | cons sender senders ih => rw [foldl_cons, ih, byHash_dropEmpty]

theorem byHash_foldl_pruneSender (entries : List (Address × ℕ)) (pruning : Pruning) :
    (entries.foldl pruneSender pruning).inner.byHash = pruning.inner.byHash := by
  induction entries generalizing pruning with
  | nil => rfl
  | cons entry entries ih =>
    rw [foldl_cons, ih, pruneSender]
    split <;> rfl

theorem hashesToRemove_foldl_pruneSender {entries : List (Address × ℕ)}
    (hd : entries.Pairwise fun e e' => e.1 ≠ e'.1) (pruning : Pruning) :
    (entries.foldl pruneSender pruning).hashesToRemove =
      pruning.hashesToRemove ++ entries.flatMap fun e =>
        (pruning.inner.bySender[e.1]?).elim [] (fun queue => confirmedHashes queue e.2) := by
  induction entries generalizing pruning with
  | nil => simp
  | cons entry entries ih =>
    obtain ⟨hne, hr⟩ := pairwise_cons.1 hd
    -- pruning one sender leaves the queues of the others
    have ho : ∀ e ∈ entries, (pruneSender pruning entry).inner.bySender[e.1]? =
        pruning.inner.bySender[e.1]? := by
      intro e he
      rw [pruneSender]
      split
      · rfl
      · rw [ExtTreeMap.getElem?_insert, if_neg]
        exact fun h => hne e he (LawfulEqCmp.compare_eq_iff_eq.1 h)
    have hl : (entries.flatMap fun e =>
        ((pruneSender pruning entry).inner.bySender[e.1]?).elim []
          (fun queue => confirmedHashes queue e.2)) =
        entries.flatMap fun e =>
          (pruning.inner.bySender[e.1]?).elim [] (fun queue => confirmedHashes queue e.2) := by
      refine flatMap_congr fun e he => ?_
      rw [ho e he]
    rw [foldl_cons, ih hr, hl, flatMap_cons, ← append_assoc]
    congr 1
    rw [pruneSender]
    cases pruning.inner.bySender[entry.1]? <;> simp

theorem mem_hashesToRemove (confirmed : ExtTreeMap Address ℕ) {hash : B256} :
    hash ∈ (confirmed.toList.foldl pruneSender ⟨pool, [], []⟩).hashesToRemove ↔
      ∃ (sender : Address) (nonce : ℕ) (queue : SenderQueue), confirmed[sender]? = some nonce ∧
        pool.bySender[sender]? = some queue ∧
        ∃ tx ∈ queue.txs, tx.nonce ≤ nonce ∧ tx.hash = hash := by
  have hd : confirmed.toList.Pairwise fun e e' => e.1 ≠ e'.1 :=
    confirmed.distinct_keys_toList.imp fun {e e'} hne heq =>
      hne (LawfulEqCmp.compare_eq_iff_eq.2 heq)
  rw [hashesToRemove_foldl_pruneSender hd, nil_append, mem_flatMap]
  constructor
  · rintro ⟨⟨sender, nonce⟩, he, hh⟩
    dsimp only at hh
    cases hq : pool.bySender[sender]? with
    | none =>
      rw [hq] at hh
      cases hh
    | some queue =>
      rw [hq] at hh
      obtain ⟨tx, htx, hh⟩ := mem_map.1 hh
      obtain ⟨hmem, hle⟩ := mem_filter.1 htx
      exact ⟨sender, nonce, queue, ExtTreeMap.mem_toList_iff_getElem?_eq_some.1 he, hq,
        tx, hmem, by simpa using hle, hh⟩
  · rintro ⟨sender, nonce, queue, hc, hq, tx, htx, hle, hh⟩
    refine ⟨(sender, nonce), ExtTreeMap.mem_toList_iff_getElem?_eq_some.2 hc, ?_⟩
    dsimp only
    rw [hq]
    exact mem_map.2 ⟨tx, mem_filter.2 ⟨htx, by simpa using hle⟩, hh⟩

variable {txIds : List B256}

theorem pooled_prune_iff :
    (pool.prune P txIds).Pooled tx ↔ pool.Pooled tx ∧
      tx.hash ∉ ((pool.confirmedBySender txIds).toList.foldl pruneSender
        ⟨pool, [], []⟩).hashesToRemove := by
  show (List.foldl dropEmpty _ _).byHash[tx.hash]? = some tx ↔ _
  rw [byHash_foldl_dropEmpty, getElem?_byHash_foldl_removeByHash, byHash_foldl_pruneSender]
  split
  · next hmem => simp [hmem]
  · next hmem => simp [hmem, Pooled]

theorem Consistent.mem_listed (h : pool.Consistent P) :
    tx ∈ txIds.filterMap pool.getById ↔ pool.Pooled tx ∧ orderedTxId P tx ∈ txIds := by
  rw [mem_filterMap]
  constructor
  · rintro ⟨id, hid, hget⟩
    obtain ⟨hp, rfl⟩ := h.getById_eq_some.1 hget
    exact ⟨hp, hid⟩
  · rintro ⟨hp, hid⟩
    exact ⟨_, hid, h.getById_eq_some.2 ⟨hp, rfl⟩⟩

/-- **Exactly what pruning drops**: what has a given, pooled transaction of its sender at or after
its nonce. -/
theorem Consistent.prune_removes_iff (h : pool.Consistent P) (htx : pool.Pooled tx) :
    ¬ (pool.prune P txIds).Pooled tx ↔
      ∃ tx', pool.Pooled tx' ∧ orderedTxId P tx' ∈ txIds ∧ tx'.sender = tx.sender ∧
        tx.nonce ≤ tx'.nonce := by
  rw [pooled_prune_iff, not_and, not_not, mem_hashesToRemove]
  constructor
  · intro hr
    obtain ⟨sender, nonce, queue, hc, hq, tx₁, htx₁, hle, hh⟩ := hr htx
    -- one hash, one transaction
    obtain ⟨rfl, hp⟩ := h.byHash_of_queue hq htx₁
    rw [hh] at hp
    obtain rfl : tx = tx₁ := some.inj (htx.symm.trans hp)
    rcases foldl_confirm_mem hc with hnone | ⟨tx', htx', hs, rfl⟩
    · simp at hnone
    · obtain ⟨hp', hid⟩ := h.mem_listed.1 htx'
      exact ⟨tx', hp', hid, hs, hle⟩
  · rintro ⟨tx', hp', hid, hs, hle⟩ -
    -- the confirmed nonce is at least that of the listed transaction
    obtain ⟨nonce, hc, hle'⟩ :=
      foldl_confirm_covers (h.mem_listed.2 ⟨hp', hid⟩) ∅
    obtain ⟨queue, hq, hmem⟩ := h.pooled_iff.1 htx
    rw [hs] at hc
    exact ⟨tx.sender, nonce, queue, hc, hq, tx, hmem, hle.trans hle', rfl⟩

end PoolInner

end Kora
