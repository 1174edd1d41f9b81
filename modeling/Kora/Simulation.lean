/-
Simulated calls (`simulate_call` and `estimate_gas` in `node/executor/src/revm.rs`,
`StateDbAdapter` in `node/executor/src/adapter.rs`).

REVM asks for an account, for code, for a slot or for a block hash, and the adapter turns
that into reads of the state, three of them for one account. REVM is a parameter; for a
context and a transaction it is a program of such queries.

* `StateReader.eval_basicRef` — against one state the adapter's reads give its account;
* `CallExecutor.simulateCall`, `CallExecutor.estimateGas` — programs of state reads.
-/
import Kora.Code
import Kora.Executor
import Kora.ReadProgram

open Std

namespace Kora

/-! ### Queries -/

/-- One read of a state. -/
inductive StateQuery where
  | nonce (address : Address)
  | balance (address : Address)
  | codeHash (address : Address)
  | code (hash : B256)
  | storage (address : Address) (slot : U256)

namespace StateQuery

def Answer : StateQuery → Type
  | nonce _ => Except StateDbError U64
  | balance _ => Except StateDbError U256
  | codeHash _ => Except StateDbError B256
  | code _ => Except StateDbError Bytes
  | storage _ _ => Except StateDbError U256

def answer {S : Type} [StateDbRead S] (state : S) : (q : StateQuery) → q.Answer
  | nonce address => StateDbRead.nonce state address
  | balance address => StateDbRead.balance state address
  | codeHash address => StateDbRead.codeHash state address
  | code hash => StateDbRead.code state hash
  | storage address slot => StateDbRead.storage state address slot

end StateQuery

inductive ExecutionError where
  | state (error : StateDbError)
  | txExecution (message : String)
  | revert (output : Bytes)
  | invalidTx (message : String)
deriving DecidableEq

/-- What REVM asks its database. -/
inductive DbQuery where
  | basic (address : Address)
  | codeByHash (codeHash : B256)
  | storage (address : Address) (index : U256)
  | blockHash (number : ℕ)

def DbQuery.Answer : DbQuery → Type
  | basic _ => Except ExecutionError (Option AccountInfo)
  | codeByHash _ => Except ExecutionError Bytes
  | storage _ _ => Except ExecutionError U256
  | blockHash _ => Except ExecutionError B256

/-- A program of state reads. -/
abbrev StateReader (α : Type) : Type := ReadProgram StateQuery StateQuery.Answer α

/-! ### The adapter, read by read -/

namespace StateReader

variable {S : Type} [StateDbRead S] (state : S)

/-! Single reads. -/

def nonce (address : Address) : StateReader (Except StateDbError U64) :=
  ReadProgram.ask (StateQuery.nonce address)

def balance (address : Address) : StateReader (Except StateDbError U256) :=
  ReadProgram.ask (StateQuery.balance address)

def codeHash (address : Address) : StateReader (Except StateDbError B256) :=
  ReadProgram.ask (StateQuery.codeHash address)

def code (hash : B256) : StateReader (Except StateDbError Bytes) :=
  ReadProgram.ask (StateQuery.code hash)

def storage (address : Address) (slot : U256) : StateReader (Except StateDbError U256) :=
  ReadProgram.ask (StateQuery.storage address slot)

@[simp] theorem eval_nonce (address : Address) :
    (nonce address).eval (StateQuery.answer state) = StateDbRead.nonce state address := rfl

@[simp] theorem eval_balance (address : Address) :
    (balance address).eval (StateQuery.answer state) = StateDbRead.balance state address := rfl

@[simp] theorem eval_codeHash (address : Address) :
    (codeHash address).eval (StateQuery.answer state) = StateDbRead.codeHash state address := rfl

@[simp] theorem eval_code (hash : B256) :
    (code hash).eval (StateQuery.answer state) = StateDbRead.code state hash := rfl

/-! The adapter. -/

/-- The three reads that make up an account; the first that fails ends them. -/
def account (address : Address) : StateReader (Except StateDbError AccountInfo) := do
  match ← nonce address with
  | .error e => pure (.error e)
  | .ok nonce =>
    match ← balance address with
    | .error e => pure (.error e)
    | .ok balance =>
      match ← codeHash address with
      | .error e => pure (.error e)
      | .ok codeHash => pure (.ok { balance, nonce, codeHash, code := none })

def basicRef (address : Address) : StateReader (Except ExecutionError (Option AccountInfo)) := do
  match ← account address with
  | .ok info => pure (.ok (some info))
  | .error (.accountNotFound _) => pure (.ok none)
  | .error e => pure (.error (.state e))

def codeByHashRef (analyse : Bytes → Bytes) (codeHash : B256) :
    StateReader (Except ExecutionError Bytes) :=
  if codeHash = KECCAK256_EMPTY ∨ codeHash = 0 then pure (.ok (analyse []))
  else do
    match ← code codeHash with
    | .ok bytes => pure (.ok (analyse bytes))
    | .error e => pure (.error (.state e))

def storageRef (address : Address) (index : U256) :
    StateReader (Except ExecutionError U256) := do
  match ← storage address index with
  | .ok value => pure (.ok value)
  | .error (.accountNotFound _) => pure (.ok 0)
  | .error e => pure (.error (.state e))

/-- The hashes of blocks come with the context, without a read of the state. -/
def adapter (analyse : Bytes → Bytes) (context : BlockContext) :
    (q : DbQuery) → StateReader q.Answer
  | .basic address => basicRef address
  | .codeByHash codeHash => codeByHashRef analyse codeHash
  | .storage address index => storageRef address index
  | .blockHash number => pure (.ok (context.blockHashRef number))

/-- Against one state, the reads of an account are those of the adapter over that state. -/
theorem eval_basicRef (address : Address) :
    (basicRef address).eval (StateQuery.answer state) =
      (StateDbAdapter.basicRef state address).mapError .state := by
  rw [basicRef, StateDbAdapter.basicRef, account]
  simp only [ReadProgram.eval_bind, eval_nonce]
  cases StateDbRead.nonce state address with
  | error e => cases e <;> rfl
  | ok nonce =>
    simp only [ReadProgram.eval_bind, eval_balance]
    cases StateDbRead.balance state address with
    | error e => cases e <;> rfl
    | ok balance =>
      simp only [ReadProgram.eval_bind, eval_codeHash]
      cases StateDbRead.codeHash state address with
      | error e => cases e <;> rfl
      | ok codeHash => rfl

theorem eval_codeByHashRef (analyse : Bytes → Bytes) (codeHash : B256) :
    (codeByHashRef analyse codeHash).eval (StateQuery.answer state) =
      (StateDbAdapter.codeByHashRef analyse state codeHash).mapError .state := by
  rw [codeByHashRef, StateDbAdapter.codeByHashRef]
  split
  · rfl
  · rw [ReadProgram.eval_bind, eval_code]
    cases StateDbRead.code state codeHash <;> rfl

end StateReader

/-! ### Calls -/

structure CallParams where
  caller : Address
  /-- Without a recipient the call creates a contract. -/
  recipient : Option Address
  value : U256
  data : Bytes
  gasLimit : Option ℕ
  gasPrice : ℕ
  nonce : ℕ

inductive TxKind where
  | create
  | call (address : Address)
deriving DecidableEq

/-- The transaction that REVM is given for a call. -/
structure CallTxEnv where
  caller : Address
  gasLimit : ℕ
  gasPrice : ℕ
  value : U256
  data : Bytes
  nonce : ℕ
  chainId : ℕ
  kind : TxKind

/-- How a call ended. -/
inductive CallResult where
  | success (output : Bytes)
  | revert (output : Bytes)
  | halt (reason : String)

/-- Simulated calls. REVM's builder may refuse a transaction and its replay may fail, each with a
text. -/
structure CallExecutor where
  chainId : ℕ
  /-- Analysis of code that is loaded. -/
  analyse : Bytes → Bytes
  build : CallTxEnv → Except String Unit
  replay : BlockContext → CallTxEnv →
    ReadProgram DbQuery DbQuery.Answer (Except String CallResult)

namespace CallExecutor

def callParamsToTxEnv (self : CallExecutor) (params : CallParams) (defaultGasLimit : ℕ) :
    Except ExecutionError CallTxEnv :=
  let env : CallTxEnv :=
    { caller := params.caller
      gasLimit := params.gasLimit.getD defaultGasLimit
      gasPrice := params.gasPrice
      value := params.value
      data := params.data
      nonce := params.nonce
      chainId := self.chainId
      kind := params.recipient.elim .create .call }
  match self.build env with
  | .ok () => .ok env
  | .error e => .error (.invalidTx s!"build call tx env: {e}")

/-- Run a read-only call; its changes are dropped. -/
def simulateCall (self : CallExecutor) (params : CallParams) (context : BlockContext) :
    StateReader (Except ExecutionError Bytes) :=
  match self.callParamsToTxEnv params context.header.gasLimit with
  | .error e => pure (.error e)
  | .ok env => do
    let result : Except String CallResult ←
      (self.replay context env).interpret (StateReader.adapter self.analyse context)
    match result with
    | .error e => pure (.error (.txExecution e))
    | .ok (.success output) => pure (.ok output)
    | .ok (.revert output) => pure (.error (.revert output))
    | .ok (.halt reason) => pure (.error (.txExecution s!"halt: {reason}"))

/-- The call with another gas limit. -/
def simulateAt (self : CallExecutor) (params : CallParams) (context : BlockContext) (gas : ℕ) :
    StateReader (Except ExecutionError Bytes) :=
  self.simulateCall { params with gasLimit := some gas } context

/-- The search of `estimate_gas`, with the iterations that are left. -/
def estimateLoop (self : CallExecutor) (params : CallParams) (context : BlockContext) :
    ℕ → ℕ → ℕ → ℕ → StateReader ℕ
  | 0, _, _, best => pure best
  | iters + 1, lo, hi, best =>
    if lo + 1 < hi then do
      let mid := lo + (hi - lo) / 2
      match ← self.simulateAt params context mid with
      | .ok _ => self.estimateLoop params context iters lo mid mid
      | .error _ => self.estimateLoop params context iters mid hi best
    else pure best

/-- The upper bound of the search. -/
def gasUpper (params : CallParams) (context : BlockContext) : ℕ :=
  min (params.gasLimit.getD context.header.gasLimit) context.header.gasLimit

def estimateGas (self : CallExecutor) (params : CallParams) (context : BlockContext) :
    StateReader (Except ExecutionError ℕ) := do
  let upper := gasUpper params context
  match ← self.simulateAt params context upper with
  | .error e => pure (.error e)
  | .ok _ => do
    let best ← self.estimateLoop params context 25 21000 upper upper
    pure (.ok best)

end CallExecutor

end Kora
