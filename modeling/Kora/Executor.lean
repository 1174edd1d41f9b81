/-
The block executor (`execute` in `node/executor/src/revm.rs`).

A transaction that does not decode, or that REVM refuses, is skipped with a failed
receipt. One whose gas limit does not fit in what is left of the block ends the loop,
without a receipt for it and those behind it. REVM is a parameter (`Revm`).

* `receipts_executeTxs_iff` — every transaction has its receipt exactly when none ends the
  loop;
* `Lawful.nonce_lt_of_executed` — an executed transaction leaves its nonce consumed.
-/
import Kora.Block
import Kora.Extract

open Std Option

namespace Kora

/-- A decoded transaction, as far as the node depends on it. -/
structure TxEnv where
  caller : Address
  nonce : ℕ
  gasLimit : ℕ
deriving DecidableEq

/-- What REVM returns for a transaction that it executed, failed or not. -/
structure ExecutionResult where
  success : Bool
  txGasUsed : ℕ
  state : EvmState
  /-- The logs, and the address of the contract if one was created, of a success. -/
  logs : List Log
  createdAddress : Option Address

/-- REVM. A replay that is refused returns nothing and leaves the database as it was. -/
structure Revm where
  Db : Type
  /-- The database over a state, under the block environment of a context. -/
  load : StateView → BlockContext.View → Db
  decodeTxEnv : Bytes → Option TxEnv
  replay : Db → TxEnv → Option ExecutionResult
  commit : Db → EvmState → Db
  /-- The nonce the database has for an account. -/
  nonce : Db → Address → ℕ

namespace Revm

structure Progress (R : Revm) where
  db : R.Db
  cumulativeGas : ℕ
  outcome : ExecutionOutcome

def buildSkippedReceipt (txHash : B256) (cumulativeGasUsed : ℕ) : ExecutionReceipt :=
  ⟨txHash, false, 0, cumulativeGasUsed, [], none⟩

def buildReceipt (result : ExecutionResult) (txHash : B256) (gasUsed cumulativeGasUsed : ℕ) :
    ExecutionReceipt :=
  ⟨txHash, result.success, gasUsed, cumulativeGasUsed, if result.success then result.logs else [],
    if result.success then result.createdAddress else none⟩

variable {R : Revm}

/-- Go on without the transaction. -/
def Progress.skip (self : Progress R) (txHash : B256) : Progress R :=
  { self with
    outcome.receipts :=
      self.outcome.receipts ++ [buildSkippedReceipt txHash self.cumulativeGas] }

/-- Enter an executed transaction. -/
def Progress.enter (self : Progress R) (txHash : B256) (result : ExecutionResult) : Progress R :=
  let cumulativeGas := min (self.cumulativeGas + result.txGasUsed) U64_MAX
  { db := R.commit self.db result.state
    cumulativeGas
    outcome :=
      { self.outcome with
        receipts :=
          self.outcome.receipts ++ [buildReceipt result txHash result.txGasUsed cumulativeGas]
        selfdestructedAddresses := self.outcome.selfdestructedAddresses ++
          (result.state.toList.filter (fun e => e.2.isSelfdestructed)).map (·.1)
        changes := self.outcome.changes.merge (extractChanges result.state) } }

/-- Whether a transaction still fits in the block. -/
def Progress.Fits (self : Progress R) (gasLimit : ℕ) (env : TxEnv) : Prop :=
  min (self.cumulativeGas + env.gasLimit) U64_MAX ≤ gasLimit

instance (self : Progress R) (gasLimit : ℕ) (env : TxEnv) : Decidable (self.Fits gasLimit env) :=
  inferInstanceAs (Decidable (_ ≤ _))

variable (keccak256 : Bytes → B256) (gasLimit : ℕ)

/-- One turn of the loop; `none` ends it. -/
def executeTx (self : Progress R) (tx : Bytes) : Option (Progress R) :=
  match R.decodeTxEnv tx with
  | none => some (self.skip (keccak256 tx))
  | some env =>
    if self.Fits gasLimit env then
      match R.replay self.db env with
      | none => some (self.skip (keccak256 tx))
      | some result => some (self.enter (keccak256 tx) result)
    -- neither this transaction nor those behind it get a receipt
    else none

/-- The loop over the transactions of a block. -/
def executeTxs (self : Progress R) : List Bytes → Progress R
  | [] => self
  | tx :: txs =>
    match executeTx keccak256 gasLimit self tx with
    | some next => executeTxs next txs
    | none => self

variable (R)

def start (state : StateView) (view : BlockContext.View) : Progress R :=
  ⟨R.load state view, 0, ⟨ChangeSet.new, [], 0, []⟩⟩

/-- Execute a batch against the given state. The trait's hooks before and after change nothing. -/
def execute (state : StateView) (view : BlockContext.View) (txs : List Bytes) :
    Except String ExecutionOutcome :=
  let last := executeTxs keccak256 view.gasLimit (R.start state view) txs
  .ok { last.outcome with gasUsed := last.cumulativeGas }

/-- The node's outside with REVM as its executor. -/
def platform (P : Platform) : Platform := { P with execute := R.execute P.keccak256 }

/-! ### One turn -/

variable {R}

/-- **Everything a turn can do**: end the loop at a transaction that does not fit, skip it, or
enter it. -/
theorem executeTx_cases (p : Progress R) (tx : Bytes) :
    (∃ env, R.decodeTxEnv tx = some env ∧ ¬ p.Fits gasLimit env ∧
        executeTx keccak256 gasLimit p tx = none) ∨
      ((∀ env, R.decodeTxEnv tx = some env → p.Fits gasLimit env) ∧
        (executeTx keccak256 gasLimit p tx = some (p.skip (keccak256 tx)) ∨
          ∃ env result, R.decodeTxEnv tx = some env ∧ R.replay p.db env = some result ∧
            executeTx keccak256 gasLimit p tx = some (p.enter (keccak256 tx) result))) := by
  rw [executeTx]
  cases henv : R.decodeTxEnv tx with
  | none => exact .inr ⟨nofun, .inl rfl⟩
  | some env =>
    by_cases hf : p.Fits gasLimit env
    · refine .inr ⟨fun env' h => some.inj h ▸ hf, ?_⟩
      dsimp only
      rw [if_pos hf]
      cases hr : R.replay p.db env with
      | none => exact .inl rfl
      | some result => exact .inr ⟨env, result, rfl, hr, rfl⟩
    · exact .inl ⟨env, rfl, hf, by dsimp only; rw [if_neg hf]⟩

variable {keccak256 gasLimit}

variable {p : Progress R} {tx : Bytes}

theorem receipts_executeTx {p' : Progress R} (h : executeTx keccak256 gasLimit p tx = some p') :
    p'.outcome.receipts.map (·.txHash) =
      p.outcome.receipts.map (·.txHash) ++ [keccak256 tx] := by
  obtain ⟨env, -, -, hnone⟩ | ⟨-, hs | ⟨env, result, -, -, he⟩⟩ :=
    executeTx_cases keccak256 gasLimit p tx
  · rw [hnone] at h
    cases h
  · obtain rfl := some.inj (hs.symm.trans h)
    simp [Progress.skip, buildSkippedReceipt]
  · obtain rfl := some.inj (he.symm.trans h)
    simp [Progress.enter, buildReceipt]

/-! ### Receipts -/

variable (keccak256 gasLimit) in
/-- The loop comes to `tx`, with the progress `q`. -/
inductive Turn : Progress R → List Bytes → Bytes → Progress R → Prop
  | here {p : Progress R} {tx : Bytes} {txs : List Bytes} : Turn p (tx :: txs) tx p
  | later {p p' q : Progress R} {tx tx' : Bytes} {txs : List Bytes} :
      executeTx keccak256 gasLimit p tx' = some p' → Turn p' txs tx q → Turn p (tx' :: txs) tx q

variable (keccak256 gasLimit) in
/-- Each transaction that the loop comes to fits in what is left of the block. -/
def GasFits (p : Progress R) (txs : List Bytes) : Prop :=
  ∀ tx q env, Turn keccak256 gasLimit p txs tx q → R.decodeTxEnv tx = some env →
    q.Fits gasLimit env

variable {txs : List Bytes}

theorem gasFits_cons :
    GasFits keccak256 gasLimit p (tx :: txs) ↔
      (∀ env, R.decodeTxEnv tx = some env → p.Fits gasLimit env) ∧
        ∀ p', executeTx keccak256 gasLimit p tx = some p' →
          GasFits keccak256 gasLimit p' txs := by
  constructor
  · intro h
    exact ⟨fun env => h tx p env .here,
      fun p' hp' tx' q env ht => h tx' q env (.later hp' ht)⟩
  · rintro ⟨hh, hl⟩ tx' q env ht
    cases ht with
    | here => exact hh env
    | later hp' ht => exact hl _ hp' tx' q env ht

variable (keccak256 gasLimit) in
theorem receipts_executeTxs_iff (p : Progress R) (txs : List Bytes) :
    (executeTxs keccak256 gasLimit p txs).outcome.receipts.map (·.txHash) =
        p.outcome.receipts.map (·.txHash) ++ txs.map keccak256 ↔
      GasFits keccak256 gasLimit p txs := by
  induction txs generalizing p with
  | nil =>
    simp only [executeTxs, List.map_nil, List.append_nil, true_iff]
    intro tx q env ht
    cases ht
  | cons tx txs ih =>
    rw [executeTxs, gasFits_cons, List.map_cons]
    obtain ⟨env, henv, hf, hnone⟩ | ⟨hf, hsome⟩ :=
      executeTx_cases keccak256 gasLimit p tx
    · -- the loop ends here, one receipt short
      rw [hnone]
      refine ⟨fun h => ?_, fun h => absurd (h.1 env henv) hf⟩
      have hl := congrArg List.length h
      simp at hl
    · -- the loop goes on, with one receipt more, whether the transaction was executed or not
      obtain ⟨p', hp'⟩ : ∃ p', executeTx keccak256 gasLimit p tx = some p' := by
        rcases hsome with hs | ⟨env, result, -, -, he⟩
        · exact ⟨_, hs⟩
        · exact ⟨_, he⟩
      rw [hp']
      dsimp only
      have hr := ih p'
      rw [receipts_executeTx hp', List.append_assoc, List.singleton_append] at hr
      rw [hr]
      refine ⟨fun h => ⟨hf, fun p'' hp'' => ?_⟩, fun h => h.2 p' rfl⟩
      exact some.inj hp'' ▸ h

theorem GasFits.exists_turn (h : GasFits keccak256 gasLimit p txs) (htx : tx ∈ txs) :
    ∃ q, Turn keccak256 gasLimit p txs tx q := by
  induction txs generalizing p with
  | nil => cases htx
  | cons tx' txs ih =>
    obtain ⟨hh, hl⟩ := gasFits_cons.1 h
    rcases List.mem_cons.1 htx with rfl | htx
    · exact ⟨p, .here⟩
    · obtain ⟨env, henv, hf, -⟩ | ⟨-, hs | ⟨env, result, -, -, he⟩⟩ :=
        executeTx_cases keccak256 gasLimit p tx'
      · exact absurd (hh env henv) hf
      · obtain ⟨q, hq⟩ := ih (hl _ hs) htx
        exact ⟨q, .later hs hq⟩
      · obtain ⟨q, hq⟩ := ih (hl _ he) htx
        exact ⟨q, .later he hq⟩

/-! ### Nonces -/

variable (R) in
/-- An executed transaction raises its sender's nonce above its own, and none lowers a nonce. -/
structure Lawful : Prop where
  nonce_lt_commit : ∀ {db env result}, R.replay db env = some result →
    env.nonce < R.nonce (R.commit db result.state) env.caller
  nonce_le_commit : ∀ {db env result}, R.replay db env = some result →
    ∀ address, R.nonce db address ≤ R.nonce (R.commit db result.state) address

variable (keccak256 gasLimit) in
/-- A transaction of the list is executed when its turn comes. -/
def Executed (p : Progress R) (txs : List Bytes) (tx : Bytes) : Prop :=
  ∃ q env result, Turn keccak256 gasLimit p txs tx q ∧ R.decodeTxEnv tx = some env ∧
    q.Fits gasLimit env ∧ R.replay q.db env = some result

theorem Lawful.nonce_le_executeTx (hR : R.Lawful) {p' : Progress R}
    (h : executeTx keccak256 gasLimit p tx = some p') (address : Address) :
    R.nonce p.db address ≤ R.nonce p'.db address := by
  obtain ⟨env, -, -, hnone⟩ | ⟨-, hs | ⟨env, result, -, hr, he⟩⟩ :=
    executeTx_cases keccak256 gasLimit p tx
  · rw [hnone] at h
    cases h
  · obtain rfl := some.inj (hs.symm.trans h)
    exact le_rfl
  · obtain rfl := some.inj (he.symm.trans h)
    exact hR.nonce_le_commit hr address

theorem Lawful.nonce_le_executeTxs (hR : R.Lawful) (p : Progress R) (txs : List Bytes)
    (address : Address) :
    R.nonce p.db address ≤ R.nonce (executeTxs keccak256 gasLimit p txs).db address := by
  induction txs generalizing p with
  | nil => exact le_rfl
  | cons tx txs ih =>
    rw [executeTxs]
    cases hs : executeTx keccak256 gasLimit p tx with
    | none => exact le_rfl
    | some p' => exact (hR.nonce_le_executeTx hs address).trans (ih p')

theorem Lawful.nonce_le_of_turn (hR : R.Lawful) {q : Progress R}
    (h : Turn keccak256 gasLimit p txs tx q) (address : Address) :
    R.nonce q.db address ≤ R.nonce (executeTxs keccak256 gasLimit p txs).db address := by
  induction h with
  | here => exact hR.nonce_le_executeTxs _ _ address
  | later hs _ ih =>
    rw [executeTxs, hs]
    exact ih

theorem Lawful.nonce_lt_of_executed (hR : R.Lawful) {env : TxEnv}
    (henv : R.decodeTxEnv tx = some env) (h : Executed keccak256 gasLimit p txs tx) :
    env.nonce < R.nonce (executeTxs keccak256 gasLimit p txs).db env.caller := by
  obtain ⟨q, env', result, ht, henv', hf, hr⟩ := h
  obtain rfl : env' = env := some.inj (henv'.symm.trans henv)
  -- along the turns before it the final state stays the same
  induction ht with
  | @here p tx txs =>
    have hs : executeTx keccak256 gasLimit p tx = some (p.enter (keccak256 tx) result) := by
      simp only [executeTx, henv, hf, hr, if_true]
    rw [executeTxs, hs]
    have ha : env'.nonce < R.nonce (p.enter (keccak256 tx) result).db env'.caller :=
      hR.nonce_lt_commit hr
    exact ha.trans_le (hR.nonce_le_executeTxs _ txs _)
  | later hs _ ih =>
    rw [executeTxs, hs]
    exact ih henv hf hr henv'

end Revm

end Kora
