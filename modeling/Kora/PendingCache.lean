/-
The cache of pending transactions (`send_raw_transaction` and `get_transaction_by_hash` in
`node/rpc/src/eth.rs`).

Transactions are kept in a map, and their hashes in a queue; lookups and repeated sends
let the two drift apart. A send beyond the cap takes hashes off the front of the queue,
and a counter keeps how many. A position plus that counter is an absolute index, which
filters use as their cursor.

* `Bounded.cachePending`, `Continues.cachePending` — what one send keeps;
* `pending_cache_bounded` — the same along every sequence of sends and lookups.
-/
import Kora.Run
import Kora.Submission

open Std List ExtTreeMap

namespace Kora

namespace EthApi

/-- The index that the first hash of the queue would have if none had ever left it, and so on. -/
def absoluteIndex (self : EthApi) (position : ℕ) : ℕ := self.pendingTxEvicted + position

/-- Look a transaction up, given what the provider has indexed under its hash. -/
def getTransactionByHash (self : EthApi) (indexed : Option RpcTransaction) (hash : B256) :
    EthApi × Option RpcTransaction :=
  match indexed with
  | some tx => ({ self with pendingTxs := self.pendingTxs.erase hash }, some tx)
  | none => (self, self.pendingTxs[hash]?)

def withMaxPendingTxs (maxPendingTxs : ℕ) : EthApi := { new with maxPendingTxs }

/-- The loop takes hashes off the front with their entries, until both counts are met or none is
left. -/
theorem drainPending_spec (mapExcess target : ℕ) (order : List B256)
    (txs : ExtTreeMap B256 RpcTransaction) (evicted drained : ℕ) :
    ∃ n, (drainPending mapExcess target order txs evicted drained).1 = order.drop n ∧
      (drainPending mapExcess target order txs evicted drained).2.2 = drained + n ∧
      n ≤ order.length ∧ (order.drop n = [] ∨ target ≤ drained + n) ∧
      ∀ hash, hash ∈ (drainPending mapExcess target order txs evicted drained).2.1 ↔
        hash ∈ txs ∧ hash ∉ order.take n := by
  induction order generalizing txs evicted drained with
  | nil => exact ⟨0, by simp [drainPending]⟩
  | cons oldHash order ih =>
    by_cases hmore : evicted < mapExcess ∨ drained < target
    · -- the hash leaves the map if it has an entry there
      obtain ⟨txs', evicted', hnext, hmem'⟩ : ∃ txs' evicted',
          drainPending mapExcess target (oldHash :: order) txs evicted drained =
            drainPending mapExcess target order txs' evicted' (drained + 1) ∧
          ∀ hash, hash ∈ txs' ↔ hash ∈ txs ∧ hash ≠ oldHash := by
        rw [drainPending, if_pos hmore]
        split_ifs with hin
        · refine ⟨_, _, rfl, fun hash => ?_⟩
          rw [mem_erase, ne_eq, LawfulEqCmp.compare_eq_iff_eq, and_comm, eq_comm]
        · refine ⟨_, _, rfl, fun hash => (and_iff_left_of_imp ?_).symm⟩
          rintro hmem rfl
          exact hin (contains_iff_mem.2 hmem)
      obtain ⟨n, ho, hd, hle, hend, hmem⟩ := ih txs' evicted' (drained + 1)
      rw [hnext]
      refine ⟨n + 1, ho, by omega, by simpa using hle, ?_, fun hash => ?_⟩
      · exact hend.imp id fun hge => by omega
      · rw [hmem, hmem', take_succ_cons, mem_cons, not_or, and_assoc]
    · rw [drainPending, if_neg hmore]
      refine ⟨0, rfl, rfl, Nat.zero_le _, .inr ?_, by simp⟩
      omega

/-! ### One send -/

structure Bounded (api : EthApi) (cap : ℕ) : Prop where
  cap_eq : api.maxPendingTxs = cap
  map_le : api.pendingTxs.size ≤ cap
  order_le : api.pendingTxOrder.length ≤ cap
  queued : ∀ hash, hash ∈ api.pendingTxs → hash ∈ api.pendingTxOrder

/-- What is queued in `api` and has not left the queue of `api'` stands there at the same absolute
index. -/
structure Continues (api api' : EthApi) : Prop where
  evicted_le : api.pendingTxEvicted ≤ api'.pendingTxEvicted
  kept : ∀ (position : ℕ) (hash : B256), api.pendingTxOrder[position]? = some hash →
    api'.pendingTxEvicted ≤ api.absoluteIndex position →
      ∃ position', api'.pendingTxOrder[position']? = some hash ∧
        api'.absoluteIndex position' = api.absoluteIndex position

theorem Continues.refl (self : EthApi) : self.Continues self :=
  ⟨le_rfl, fun position _ h _ => ⟨position, h, rfl⟩⟩

theorem Continues.trans {self api api' : EthApi} (h : self.Continues api)
    (h' : api.Continues api') : self.Continues api' := by
  refine ⟨h.evicted_le.trans h'.evicted_le, fun position hash hq hle => ?_⟩
  obtain ⟨position', hq', heq⟩ := h.kept position hash hq (h'.evicted_le.trans hle)
  obtain ⟨position'', hq'', heq'⟩ := h'.kept position' hash hq' (hle.trans heq.ge)
  exact ⟨position'', hq'', heq'.trans heq⟩

section Send

variable (self : EthApi) (txHash : B256) (pendingTx : RpcTransaction)

/-- **What a send leaves behind**: the queue with the new hash, less some hashes at its front, which
are counted, and the map with the new entry, less theirs. -/
theorem cachePending_spec :
    ∃ n, (self.cachePending txHash pendingTx).pendingTxOrder =
        (self.pendingTxOrder ++ [txHash]).drop n ∧
      (self.cachePending txHash pendingTx).pendingTxEvicted = self.pendingTxEvicted + n ∧
      (self.cachePending txHash pendingTx).maxPendingTxs = self.maxPendingTxs ∧
      n ≤ self.pendingTxOrder.length + 1 ∧ self.pendingTxOrder.length + 1 ≤ self.maxPendingTxs + n ∧
      ∀ hash, hash ∈ (self.cachePending txHash pendingTx).pendingTxs ↔
        (txHash = hash ∨ hash ∈ self.pendingTxs) ∧
          hash ∉ (self.pendingTxOrder ++ [txHash]).take n := by
  have hin : ∀ hash, hash ∈ self.pendingTxs.insert txHash pendingTx ↔
      txHash = hash ∨ hash ∈ self.pendingTxs := by
    intro hash
    rw [mem_insert, LawfulEqCmp.compare_eq_iff_eq]
  have hlen : (self.pendingTxOrder ++ [txHash]).length = self.pendingTxOrder.length + 1 := by simp
  rw [cachePending]
  dsimp only
  split_ifs with hexceeds
  · obtain ⟨n, ho, hd, hle, hend, hmem⟩ := drainPending_spec
      ((self.pendingTxs.insert txHash pendingTx).size - self.maxPendingTxs)
      (max ((self.pendingTxs.insert txHash pendingTx).size - self.maxPendingTxs)
        ((self.pendingTxOrder ++ [txHash]).length - self.maxPendingTxs))
      (self.pendingTxOrder ++ [txHash]) (self.pendingTxs.insert txHash pendingTx) 0 0
    refine ⟨n, ho, by rw [hd, Nat.zero_add], rfl, by omega, ?_, fun hash => by rw [hmem, hin]⟩
    -- the loop ends with the queue empty, or with enough hashes taken off
    rcases hend with hnil | hge
    · have := drop_eq_nil_iff.1 hnil
      omega
    · have := (le_max_right _ _).trans hge
      omega
  · refine ⟨0, rfl, rfl, rfl, Nat.zero_le _, by omega, fun hash => ?_⟩
    rw [hin]
    simp

variable {self} in
theorem Bounded.cachePending {cap : ℕ} (h : self.Bounded cap) :
    (self.cachePending txHash pendingTx).Bounded cap := by
  obtain ⟨n, ho, -, hc, -, hcap, hmem⟩ := cachePending_spec self txHash pendingTx
  have hqueued : ∀ hash, hash ∈ (self.cachePending txHash pendingTx).pendingTxs →
      hash ∈ (self.cachePending txHash pendingTx).pendingTxOrder := by
    intro hash hh
    obtain ⟨hin, hnot⟩ := (hmem hash).1 hh
    have hall : hash ∈ self.pendingTxOrder ++ [txHash] := by
      rcases hin with rfl | hin
      · simp
      · exact mem_append_left _ (h.queued hash hin)
    rw [← take_append_drop n (self.pendingTxOrder ++ [txHash])] at hall
    rw [ho]
    exact (mem_append.1 hall).resolve_left hnot
  have hlen : (self.cachePending txHash pendingTx).pendingTxOrder.length ≤ cap := by
    rw [h.cap_eq] at hcap
    rw [ho, length_drop, length_append, length_singleton]
    omega
  exact ⟨hc.trans h.cap_eq, (OrderedMap.size_le_length hqueued).trans hlen, hlen, hqueued⟩

theorem Continues.cachePending : self.Continues (self.cachePending txHash pendingTx) := by
  obtain ⟨n, ho, he, -⟩ := cachePending_spec self txHash pendingTx
  refine ⟨by omega, fun position hash hq hle => ?_⟩
  rw [absoluteIndex, he] at hle
  refine ⟨position - n, ?_, ?_⟩
  · have hlt : position < self.pendingTxOrder.length := (List.getElem?_eq_some_iff.1 hq).1
    rw [ho, getElem?_drop, Nat.add_sub_cancel' (by omega), getElem?_append_left hlt, hq]
  · rw [absoluteIndex, absoluteIndex, he]
    omega

end Send

/-! ### Sequences of sends and lookups -/

inductive PendingOp where
  | sendRawTransaction (txSubmit : Option (PoolInner → Bytes → PoolInner × Except RpcError Unit))
      (pool : PoolInner) (data : Bytes)
  | getTransactionByHash (indexed : Option RpcTransaction) (hash : B256)

variable (P : Platform) (C : EnvelopeCodec)

def apply (self : EthApi) : PendingOp → EthApi
  | .sendRawTransaction txSubmit pool data => (self.sendRawTransaction P C txSubmit pool data).api
  | .getTransactionByHash indexed hash => (self.getTransactionByHash indexed hash).1

variable {P C} {self : EthApi}

theorem api_sendRawTransaction (self : EthApi)
    (txSubmit : Option (PoolInner → Bytes → PoolInner × Except RpcError Unit)) (pool : PoolInner)
    (data : Bytes) :
    (self.sendRawTransaction P C txSubmit pool data).api = self ∨
      ∃ txHash pendingTx, (self.sendRawTransaction P C txSubmit pool data).api =
        self.cachePending txHash pendingTx := by
  rw [EthApi.sendRawTransaction]
  split
  · exact .inl rfl
  · next pendingTx _ =>
    split
    · exact .inr ⟨_, pendingTx, rfl⟩
    · split
      · exact .inl rfl
      · exact .inr ⟨_, pendingTx, rfl⟩

theorem Bounded.apply {cap : ℕ} (h : self.Bounded cap) (op : PendingOp) :
    (self.apply P C op).Bounded cap ∧ self.Continues (self.apply P C op) := by
  cases op with
  | sendRawTransaction txSubmit pool data =>
    rw [EthApi.apply]
    rcases api_sendRawTransaction (P := P) (C := C) self txSubmit pool data with
      heq | ⟨txHash, pendingTx, heq⟩
    · rw [heq]
      exact ⟨h, .refl self⟩
    · rw [heq]
      exact ⟨h.cachePending txHash pendingTx, .cachePending self txHash pendingTx⟩
  | getTransactionByHash indexed hash =>
    cases indexed with
    | none => exact ⟨h, .refl self⟩
    | some tx =>
      -- only the map loses an entry
      refine ⟨⟨h.cap_eq, size_erase_le.trans h.map_le, h.order_le, fun hash' hin => ?_⟩, ?_⟩
      · exact h.queued hash' (ExtTreeMap.mem_of_mem_erase hin)
      · exact ⟨le_rfl, fun position _ hq _ => ⟨position, hq, rfl⟩⟩

theorem bounded_withMaxPendingTxs (cap : ℕ) : (withMaxPendingTxs cap).Bounded cap :=
  ⟨rfl, Nat.zero_le _, Nat.zero_le _, fun _ h => absurd h not_mem_empty⟩

/-- **The cache of pending transactions is bounded, and its cursors stay meaningful.** Map and queue
have at most `cap` entries, what the map has is queued, and a hash keeps its absolute index while it
is queued. -/
theorem pending_cache_bounded (P : Platform) (C : EnvelopeCodec) (cap : ℕ)
    (ops : List PendingOp) :
    (∀ k, ((ops.take k).foldl (apply P C) (withMaxPendingTxs cap)).Bounded cap) ∧
    ∀ k l, k ≤ l → ((ops.take k).foldl (apply P C) (withMaxPendingTxs cap)).Continues
      ((ops.take l).foldl (apply P C) (withMaxPendingTxs cap)) := by
  have hstep : ∀ (api : EthApi) (op : PendingOp), api.Bounded cap → True →
      (api.apply P C op).Bounded cap ∧ api.Continues (api.apply P C op) :=
    fun _ op h _ => h.apply op
  have hstart := bounded_withMaxPendingTxs cap
  constructor
  · intro k
    have hrun : Run.Along (apply P C) (fun _ _ => True) (withMaxPendingTxs cap) (ops.take k) :=
      Run.along_true _ _
    exact hrun.history (fun _ api => api.Bounded cap) hstart
      fun _ api op h ht => (hstep api op h ht).1
  · intro k l hkl
    exact (Run.along_true _ ops).rel Continues.refl Continues.trans hstep hstart hkl

end EthApi

end Kora
