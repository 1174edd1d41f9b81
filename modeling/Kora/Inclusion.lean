/-
From the pool into a block and out of the pool.

A builder puts every transaction that the pool selects into the block, whether or not the
executor came to it. Once the block is final, its transactions are pruned, and everything
of their senders up to their nonces.

* `inclusion_safe_iff` — when each transaction has its receipt, and when pruning drops
  only transactions that are `Settled`.
-/
import Kora.Application
import Kora.Executor
import Kora.Txpool

open Std Option ExtTreeMap

namespace Kora

open Revm

/-- Drop the transactions of a finalized block from the mempool. -/
def pruneMempool (P : Platform) (mempool : PoolInner) (txs : List Tx) : PoolInner :=
  mempool.prune P (txs.map P.txId)

/-! ### Executing a block -/

section Block

variable (R : Revm) (P : Platform) (state : StateView) (context : BlockContext) (txs : List Tx)

/-- The executor's loop at its end. -/
def Revm.last : Progress R :=
  executeTxs P.keccak256 context.header.gasLimit (R.start state context.view) (txs.map (·.bytes))

/-- The executor comes to a transaction of the block. -/
def Revm.TurnOf (tx : Bytes) (q : Progress R) : Prop :=
  Turn P.keccak256 context.header.gasLimit (R.start state context.view) (txs.map (·.bytes)) tx q

/-- No transaction of the block ends the executor's loop. -/
def Revm.BlockFits : Prop :=
  GasFits P.keccak256 context.header.gasLimit (R.start state context.view) (txs.map (·.bytes))

/-- Each transaction reached decodes, fits, and is executed or behind its sender's nonce. -/
def Revm.RunsThrough : Prop :=
  ∀ tx q, R.TurnOf P state context txs tx q →
    ∃ env, R.decodeTxEnv tx = some env ∧ q.Fits context.header.gasLimit env ∧
      ((R.replay q.db env).isSome ∨ env.nonce < R.nonce q.db env.caller)

def Revm.Settled (tx : OrderedTransaction) : Prop :=
  Executed P.keccak256 context.header.gasLimit (R.start state context.view) (txs.map (·.bytes))
      tx.envelope ∨
    tx.nonce < R.nonce (R.last P state context txs).db tx.sender

end Block

def PoolInner.DecodedBy (pool : PoolInner) (R : Revm) : Prop :=
  ∀ tx, pool.Pooled tx →
    ∃ env, R.decodeTxEnv tx.envelope = some env ∧ env.caller = tx.sender ∧ env.nonce = tx.nonce

section Settled

variable {R : Revm} {P : Platform} {state : StateView} {context : BlockContext} {txs : List Tx}
  {pool : PoolInner}

theorem Revm.Settled.nonce_lt (hR : R.Lawful) (hd : pool.DecodedBy R)
    {tx : OrderedTransaction} (htx : pool.Pooled tx) (h : R.Settled P state context txs tx) :
    tx.nonce < R.nonce (R.last P state context txs).db tx.sender := by
  rcases h with he | hn
  · obtain ⟨env, henv, hc, hn⟩ := hd tx htx
    rw [← hc, ← hn]
    exact hR.nonce_lt_of_executed henv he
  · exact hn

theorem Revm.RunsThrough.blockFits (h : R.RunsThrough P state context txs) :
    R.BlockFits P state context txs := by
  intro tx q env ht henv
  obtain ⟨env', henv', hf, -⟩ := h tx q ht
  obtain rfl : env' = env := some.inj (henv'.symm.trans henv)
  exact hf

theorem Revm.RunsThrough.settled (hR : R.Lawful) (h : R.RunsThrough P state context txs)
    (hd : pool.DecodedBy R) {tx : OrderedTransaction} (htx : pool.Pooled tx)
    (hmem : orderedToTx tx ∈ txs) : R.Settled P state context txs tx := by
  have hb : tx.envelope ∈ txs.map (·.bytes) := List.mem_map.2 ⟨_, hmem, rfl⟩
  obtain ⟨q, ht⟩ := h.blockFits.exists_turn hb
  obtain ⟨env, henv, hf, hr | hp⟩ := h _ q ht
  · obtain ⟨result, hrs⟩ := isSome_iff_exists.1 hr
    exact .inl ⟨q, env, result, ht, henv, hf, hrs⟩
  · obtain ⟨env', henv', hc, hn⟩ := hd tx htx
    obtain rfl : env' = env := some.inj (henv'.symm.trans henv)
    rw [hc, hn] at hp
    exact .inr (hp.trans_le (hR.nonce_le_of_turn ht tx.sender))

variable (state context txs) in
theorem prune_settled_iff (hR : R.Lawful) (hp : pool.Consistent P)
    (hd : pool.DecodedBy R) :
    (∀ tx, pool.Pooled tx → ¬ (pruneMempool P pool txs).Pooled tx →
        R.Settled P state context txs tx) ↔
      ∀ tx, pool.Pooled tx → orderedTxId P tx ∈ txs.map P.txId →
        R.Settled P state context txs tx := by
  constructor
  · intro h tx htx hid
    exact h tx htx ((hp.prune_removes_iff htx).2 ⟨tx, htx, hid, rfl, le_rfl⟩)
  · intro h tx htx hr
    obtain ⟨tx', htx', hid, hs, hle⟩ := (hp.prune_removes_iff htx).1 hr
    -- the chain is past the nonce of the block's transaction, so also past this one
    have hps := (h tx' htx' hid).nonce_lt hR hd htx'
    rw [hs] at hps
    exact .inr (hle.trans_lt hps)

end Settled

/-! ### Nothing lost -/

/-- **When inclusion loses nothing**, for every block, state and context: each transaction has its
own receipt exactly when none ends the executor's loop; and pruning the final block drops only
settled transactions exactly when those of the block are settled. -/
theorem inclusion_safe_iff {R : Revm} (hR : R.Lawful) (P : Platform) (state : StateView)
    (context : BlockContext) (block : Block) {pool : PoolInner} (hpool : pool.Consistent P)
    (hdecoded : pool.DecodedBy R)
    (hids : ∀ tx, pool.Pooled tx → orderedTxId P tx ∈ block.txs.map P.txId →
      orderedToTx tx ∈ block.txs) :
    (∃ outcome, (R.platform P).executeBlock state context block.txs = .ok outcome ∧
      (outcome.receipts.map (·.txHash) = block.txs.map (fun tx => P.keccak256 tx.bytes) ↔
        R.BlockFits P state context block.txs)) ∧
    ((∀ tx, pool.Pooled tx → ¬ (pruneMempool P pool block.txs).Pooled tx →
        R.Settled P state context block.txs tx) ↔
      ∀ tx, pool.Pooled tx → orderedTxId P tx ∈ block.txs.map P.txId →
        R.Settled P state context block.txs tx) ∧
    (R.RunsThrough P state context block.txs →
      R.BlockFits P state context block.txs ∧
      ∀ tx, pool.Pooled tx → ¬ (pruneMempool P pool block.txs).Pooled tx →
        R.Settled P state context block.txs tx) := by
  have hp := prune_settled_iff state context block.txs hR hpool hdecoded
  refine ⟨⟨_, rfl, ?_⟩, hp, fun h => ⟨h.blockFits, hp.2 fun tx htx hid => ?_⟩⟩
  · have hr := receipts_executeTxs_iff P.keccak256 context.header.gasLimit
      (R.start state context.view) (block.txs.map (·.bytes))
    rw [List.map_map] at hr
    exact hr
  · exact h.settled hR hdecoded htx (hids tx htx hid)

/-! ### A transaction that does not fit -/

namespace TwoTransfers

/-- An EVM that keeps nonces alone: a transaction is its nonce and its gas limit, all of which it
uses. -/
def revm : Revm where
  Db := Address → ℕ
  load state _ := fun address => (state address).nonce.toOption.elim 0 (·.toNat)
  decodeTxEnv
    | [nonce, gasLimit] => some ⟨0xA, nonce.toNat, gasLimit.toNat⟩
    | _ => none
  replay db env :=
    if db env.caller = env.nonce ∧ env.nonce < 255 then
      some ⟨true, env.gasLimit, (∅ : EvmState).insert env.caller
        ⟨⟨0, BitVec.ofNat 64 (env.nonce + 1), 0, none⟩, ∅, true, false, false⟩, [], none⟩
    else none
  commit db state := fun address => (state[address]?).elim (db address) (·.info.nonce.toNat)
  nonce db := db

theorem commit_eq {db : Address → ℕ} {env : TxEnv} {result : ExecutionResult}
    (h : revm.replay db env = some result) (address : Address) :
    db env.caller = env.nonce ∧ revm.nonce (revm.commit db result.state) address =
      if env.caller = address then env.nonce + 1 else db address := by
  simp only [revm] at h
  split at h
  · next hn =>
    obtain rfl := some.inj h
    refine ⟨hn.1, ?_⟩
    simp only [revm, getElem?_insert, LawfulEqCmp.compare_eq_iff_eq]
    split
    · have hs : env.nonce + 1 < 2 ^ 64 := by omega
      simp only [elim_some, BitVec.toNat_ofNat]
      exact Nat.mod_eq_of_lt hs
    · simp
  · cases h

theorem revm_lawful : revm.Lawful where
  nonce_lt_commit {db env result} h := by
    rw [(commit_eq h env.caller).2, if_pos rfl]
    exact Nat.lt_succ_self _
  nonce_le_commit {db env result} h address := by
    obtain ⟨hn, ha⟩ := commit_eq h address
    rw [ha]
    split
    · next heq =>
      rw [← heq]
      exact hn.trans_le (Nat.le_succ _)
    · exact le_rfl

def platform : Platform where
  keccak256 bytes := BitVec.ofNat 256 (bytes.headD 0).toNat
  sha256 := id
  blockId b := BitVec.ofNat 256 b.height
  txId tx := BitVec.ofNat 256 (tx.bytes.headD 0).toNat
  consensus := default
  execute _ _ _ := .error ""

/-- The transaction with a nonce, which asks for 60 gas. -/
def transfer (nonce : ℕ) : OrderedTransaction where
  hash := BitVec.ofNat 256 nonce
  sender := 0xA
  nonce := nonce
  effectiveGasPrice := 1
  timestamp := 0
  envelope := [UInt8.ofNat nonce, 60]

/-- The two transactions of one sender, both pending. -/
def pool : PoolInner where
  byHash := (∅ : ExtTreeMap B256 OrderedTransaction).insert 0 (transfer 0) |>.insert 1 (transfer 1)
  byId := (∅ : ExtTreeMap B256 B256).insert 0 0 |>.insert 1 1
  bySender := (∅ : ExtTreeMap Address SenderQueue).insert 0xA
    ⟨0xA, 0, [transfer 0, transfer 1], []⟩
  pendingCount := 2
  queuedCount := 0

theorem getElem?_byHash {hash : B256} {tx : OrderedTransaction} :
    pool.byHash[hash]? = some tx ↔ hash = 1 ∧ tx = transfer 1 ∨ hash = 0 ∧ tx = transfer 0 := by
  simp only [pool, getElem?_insert, LawfulEqCmp.compare_eq_iff_eq,
    getElem?_empty]
  by_cases h1 : (1 : B256) = hash
  · subst h1
    simp [eq_comm]
  · by_cases h0 : (0 : B256) = hash
    · subst h0
      simp [eq_comm]
    · rw [if_neg h1, if_neg h0]
      constructor
      · exact nofun
      · rintro (⟨rfl, -⟩ | ⟨rfl, -⟩)
        · exact absurd rfl h1
        · exact absurd rfl h0

theorem pooled_iff {tx : OrderedTransaction} :
    pool.Pooled tx ↔ tx = transfer 1 ∨ tx = transfer 0 := by
  rw [PoolInner.Pooled, getElem?_byHash]
  constructor
  · rintro (⟨-, h⟩ | ⟨-, h⟩)
    · exact .inl h
    · exact .inr h
  · rintro (rfl | rfl)
    · exact .inl ⟨rfl, rfl⟩
    · exact .inr ⟨rfl, rfl⟩

theorem pool_consistent : pool.Consistent platform where
  queue_of_byHash h := by
    rcases getElem?_byHash.1 h with ⟨rfl, rfl⟩ | ⟨rfl, rfl⟩
    · exact ⟨rfl, _, getElem?_insert_self, .tail _ (.head _)⟩
    · exact ⟨rfl, _, getElem?_insert_self, .head _⟩
  byHash_of_queue {sender queue tx} h htx := by
    simp only [pool, getElem?_insert, LawfulEqCmp.compare_eq_iff_eq,
      getElem?_empty] at h
    split at h
    · next hs =>
      obtain rfl := some.inj h
      have htx : tx ∈ [transfer 0, transfer 1] := htx
      simp only [List.mem_cons, List.not_mem_nil, or_false] at htx
      rcases htx with rfl | rfl
      · exact ⟨hs, getElem?_byHash.2 (.inr ⟨rfl, rfl⟩)⟩
      · exact ⟨hs, getElem?_byHash.2 (.inl ⟨rfl, rfl⟩)⟩
    · cases h
  byId_of_byHash h := by
    rcases getElem?_byHash.1 h with ⟨rfl, rfl⟩ | ⟨rfl, rfl⟩ <;> decide +kernel
  byHash_of_byId {id hash} h := by
    simp only [pool, getElem?_insert, LawfulEqCmp.compare_eq_iff_eq,
      getElem?_empty] at h
    split at h
    · next hid =>
      obtain rfl := some.inj h
      exact ⟨transfer 1, getElem?_byHash.2 (.inl ⟨rfl, rfl⟩), hid⟩
    · split at h
      · next hid =>
        obtain rfl := some.inj h
        exact ⟨transfer 0, getElem?_byHash.2 (.inr ⟨rfl, rfl⟩), hid⟩
      · cases h

theorem pool_decodedBy : pool.DecodedBy revm := by
  intro tx htx
  rcases pooled_iff.1 htx with rfl | rfl
  · exact ⟨⟨0xA, 1, 60⟩, rfl, rfl, rfl⟩
  · exact ⟨⟨0xA, 0, 60⟩, rfl, rfl, rfl⟩

def genesis : Block := LedgerState.genesisBlock 0 0

def ledger : LedgerState := LedgerState.init (revm.platform platform) QmdbStore.new genesis

def app : RevmApplication := RevmApplication.new (revm.platform platform) genesis 10 100 0

/-- The state of the genesis snapshot, and the context of a block on it. -/
def state : StateView := reads (OverlayState.new QmdbStore.new ChangeSet.new)

def context : BlockContext := app.blockContext 1 1 0 ((revm.platform platform).commitment genesis)

/-- A block with the first `n` transactions. -/
def block (n : ℕ) : Block :=
  { parentId := 0, height := 1, timestamp := 1, prevrandao := 0, stateRoot := 0
    txs := (List.range n).map (fun nonce => orderedToTx (transfer nonce)) }

theorem runsThrough_first : revm.RunsThrough platform state context (block 1).txs := by
  intro tx q ht
  change Turn platform.keccak256 100 (revm.start state context.view) [[0, 60]] tx q at ht
  cases ht with
  | here => exact ⟨⟨0xA, 0, 60⟩, rfl, by decide, .inl (by decide)⟩
  | later _ ht => cases ht

theorem ids_first (tx : OrderedTransaction) (htx : pool.Pooled tx)
    (hid : orderedTxId platform tx ∈ (block 1).txs.map platform.txId) :
    orderedToTx tx ∈ (block 1).txs := by
  rcases pooled_iff.1 htx with rfl | rfl
  · exact absurd hid (by decide)
  · exact .head _

end TwoTransfers

section

open TwoTransfers

/-- The first of the two transactions alone is executed, and so it is pruned as a settled one. -/
theorem inclusion_safe_iff_first :
    pool.Pooled (transfer 0) ∧ ¬ (pruneMempool platform pool (block 1).txs).Pooled (transfer 0) ∧
      revm.Settled platform state context (block 1).txs (transfer 0) := by
  have hp : pool.Pooled (transfer 0) := pooled_iff.2 (.inr rfl)
  have hr : ¬ (pruneMempool platform pool (block 1).txs).Pooled (transfer 0) :=
    (pool_consistent.prune_removes_iff hp).2 ⟨transfer 0, hp, .head _, rfl, le_rfl⟩
  exact ⟨hp, hr,
    ((inclusion_safe_iff revm_lawful platform state context (block 1) pool_consistent
      pool_decodedBy ids_first).2.2 runsThrough_first).2 (transfer 0) hp hr⟩

/-- The second transaction of the block does not fit behind the first: it is not executed and has no
receipt, and it is dropped from the pool although the chain still waits for its nonce. -/
theorem gas_limited_tx_lost :
    (app.buildBlock (revm.platform platform) ledger (pool.build platform) (fun _ => none) genesis
        1).2.map (·.txs) = some [orderedToTx (transfer 0), orderedToTx (transfer 1)] ∧
      ((revm.platform platform).executeBlock state context (block 2).txs).toOption.map
        (fun outcome => outcome.receipts.map (·.txHash)) =
          some [platform.keccak256 (transfer 0).envelope] ∧
      revm.Lawful ∧ pool.Consistent platform ∧ pool.DecodedBy revm ∧
      pool.Pooled (transfer 1) ∧
      ¬ (pruneMempool platform pool (block 2).txs).Pooled (transfer 1) ∧
      ¬ revm.Settled platform state context (block 2).txs (transfer 1) := by
  have hp : pool.Pooled (transfer 1) := pooled_iff.2 (.inl rfl)
  refine ⟨by decide +kernel, by decide +kernel, revm_lawful, pool_consistent, pool_decodedBy,
    hp, ?_, fun hs => ?_⟩
  · exact (pool_consistent.prune_removes_iff hp).2
      ⟨transfer 1, hp, .tail _ (.head _), rfl, le_rfl⟩
  · have hn : revm.nonce (revm.last platform state context (block 2).txs).db 0xA = 1 := by
      decide +kernel
    have hps : 1 < revm.nonce (revm.last platform state context (block 2).txs).db 0xA :=
      hs.nonce_lt revm_lawful pool_decodedBy hp
    omega

end

end Kora
