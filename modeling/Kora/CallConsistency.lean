/-
The state that a simulated call sees (`node/ledger/src/live_state.rs`,
`node/executor/src/adapter.rs`).

Every state read of a call asks the ledger for its latest state anew. Between two reads a
snapshot may be inserted, which becomes the head, and blocks may be committed under it.

* `Node.readWhile` — a program of state reads while the node goes on;
* `call_sees_one_block` — a call during which all operations are `Quiet` sees one block.
-/
import Kora.LiveState
import Kora.Simulation

open Std List

namespace Kora

open StateDbRead QmdbStore

/-! ### Reads of code

The answers so far are a list of queries with their answers. -/

def basicHash : Except ExecutionError (Option AccountInfo) → Option B256
  | .ok (some info) => some info.codeHash
  | _ => none

/-- The code hash that a query of REVM has returned. -/
def DbQuery.loaded : (q : DbQuery) → q.Answer → Option B256
  | .basic _, info => basicHash info
  | _, _ => none

/-- The code hash that a read of an account has returned. -/
def StateQuery.returned : (q : StateQuery) → q.Answer → Option B256
  | .codeHash address, hash =>
    if address = COMMIT_SEQ_ACCOUNT_KEY then none else Except.toOption hash
  | _, _ => none

/-- REVM asks for code under the hash of a loaded account, and for no account of the store's own. -/
def DbQuery.Sourced (past : List (Σ q : DbQuery, q.Answer)) : DbQuery → Prop
  | .basic address => address ≠ COMMIT_SEQ_ACCOUNT_KEY
  | .codeByHash hash => NoCode hash ∨ ∃ entry ∈ past, entry.1.loaded entry.2 = some hash
  | .storage address _ => address ≠ COMMIT_SEQ_ACCOUNT_KEY
  | .blockHash _ => True

/-- The same for the reads of the state. -/
def StateQuery.Sourced (past : List (Σ q : StateQuery, q.Answer)) : StateQuery → Prop
  | .nonce address => address ≠ COMMIT_SEQ_ACCOUNT_KEY
  | .balance address => address ≠ COMMIT_SEQ_ACCOUNT_KEY
  | .codeHash address => address ≠ COMMIT_SEQ_ACCOUNT_KEY
  | .code hash => ¬ NoCode hash ∧ ∃ entry ∈ past, entry.1.returned entry.2 = some hash
  | .storage address _ => address ≠ COMMIT_SEQ_ACCOUNT_KEY

/-- Every hash that REVM has loaded was read. -/
def HashesRead (past : List (Σ q : DbQuery, q.Answer))
    (reads : List (Σ q : StateQuery, q.Answer)) : Prop :=
  ∀ hash, (∃ entry ∈ past, entry.1.loaded entry.2 = some hash) →
    ∃ entry ∈ reads, entry.1.returned entry.2 = some hash

theorem HashesRead.cons {past : List (Σ q : DbQuery, q.Answer)}
    {reads reads' : List (Σ q : StateQuery, q.Answer)} (h : HashesRead past reads)
    (hsub : reads ⊆ reads') {q : DbQuery} {a : q.Answer}
    (hnew : ∀ hash, q.loaded a = some hash →
      ∃ entry ∈ reads', entry.1.returned entry.2 = some hash) :
    HashesRead (⟨q, a⟩ :: past) reads' := by
  rintro hash ⟨entry, he, hl⟩
  rcases mem_cons.1 he with rfl | hold
  · exact hnew hash hl
  · obtain ⟨entry', he', hr⟩ := h hash ⟨entry, hold, hl⟩
    exact ⟨entry', hsub he', hr⟩

namespace StateReader

variable {reads : List (Σ q : StateQuery, q.Answer)}

theorem asks_account {address : Address} (ha : address ≠ COMMIT_SEQ_ACCOUNT_KEY) :
    (account address).Asks StateQuery.Sourced (fun reads' r => reads ⊆ reads' ∧
      ∀ info, r = .ok info →
        ∃ entry ∈ reads', entry.1.returned entry.2 = some info.codeHash) reads := by
  refine .bind ⟨ha, fun nonce => ?_⟩
  cases nonce with
  | error e => exact ⟨subset_cons_self _ _, fun info h => by cases h⟩
  | ok nonce =>
    refine .bind ⟨ha, fun balance => ?_⟩
    cases balance with
    | error e =>
      refine ⟨fun entry h => ?_, fun info h => by cases h⟩
      exact mem_cons_of_mem _ (mem_cons_of_mem _ h)
    | ok balance =>
      refine .bind ⟨ha, fun hash => ?_⟩
      have hsub : reads ⊆ ⟨.codeHash address, hash⟩ :: ⟨.balance address, .ok balance⟩ ::
          ⟨.nonce address, .ok nonce⟩ :: reads := fun entry h =>
        mem_cons_of_mem _ (mem_cons_of_mem _ (mem_cons_of_mem _ h))
      cases hash with
      | error e => exact ⟨hsub, fun info h => by cases h⟩
      | ok hash =>
        refine ⟨hsub, fun info h => ⟨_, mem_cons_self, ?_⟩⟩
        obtain rfl := Except.ok.inj h
        exact if_neg ha

theorem asks_adapter (analyse : Bytes → Bytes) (context : BlockContext)
    (past : List (Σ q : DbQuery, q.Answer)) (reads : List (Σ q : StateQuery, q.Answer))
    (q : DbQuery) (hr : HashesRead past reads) (hq : q.Sourced past) :
    (adapter analyse context q).Asks StateQuery.Sourced
      (fun reads' a => HashesRead (⟨q, a⟩ :: past) reads') reads := by
  cases q with
  | basic address =>
    refine .bind ((asks_account hq).mono ?_)
    rintro reads' r ⟨hsub, hh⟩
    cases r with
    | ok info =>
      refine hr.cons hsub fun hash hl => ?_
      obtain rfl := Option.some.inj hl
      exact hh info rfl
    | error e => cases e <;> exact hr.cons hsub fun hash h => by cases h
  | codeByHash hash =>
    rw [adapter, codeByHashRef]
    split
    · exact hr.cons (List.Subset.refl _) fun hash h => by cases h
    · next hc =>
      refine .bind ⟨⟨hc, hr hash (hq.resolve_left hc)⟩, fun bytes => ?_⟩
      cases bytes <;> exact hr.cons (subset_cons_self _ _) fun hash h => by cases h
  | storage address index =>
    refine .bind ⟨hq, fun value => ?_⟩
    have hcn := subset_cons_self (⟨.storage address index, value⟩ :
      Σ q : StateQuery, q.Answer) reads
    cases value with
    | ok value => exact hr.cons hcn fun hash h => by cases h
    | error e => cases e <;> exact hr.cons hcn fun hash h => by cases h
  | blockHash number => exact hr.cons (List.Subset.refl _) fun hash h => by cases h

end StateReader

namespace CallExecutor

variable {executor : CallExecutor} {params : CallParams} {context : BlockContext}
  {reads : List (Σ q : StateQuery, q.Answer)}

theorem asks_simulateCall
    (hr : ∀ env, (executor.replay context env).Asks DbQuery.Sourced (fun _ _ => True) []) :
    (executor.simulateCall params context).Asks StateQuery.Sourced (fun _ _ => True) reads := by
  rw [simulateCall]
  split
  · trivial
  · next env _ =>
    have hn : HashesRead [] reads := fun hash ⟨entry, h, _⟩ => absurd h not_mem_nil
    refine .bind ((ReadProgram.Asks.interpret (StateReader.asks_adapter executor.analyse context)
      (hr env) hn).mono fun reads' result _ => ?_)
    rcases result with e | (output | output | reason) <;> trivial

theorem asks_estimateGas
    (hr : ∀ env, (executor.replay context env).Asks DbQuery.Sourced (fun _ _ => True) []) :
    (executor.estimateGas params context).Asks StateQuery.Sourced (fun _ _ => True) reads := by
  have hl : ∀ iters lo hi best reads, (executor.estimateLoop params context iters lo hi
      best).Asks StateQuery.Sourced (fun _ _ => True) reads := by
    intro iters
    induction iters with
    | zero => exact fun _ _ _ _ => trivial
    | succ iters ih =>
      intro lo hi best reads
      rw [estimateLoop]
      split
      · refine .bind ((asks_simulateCall hr).mono fun reads' result _ => ?_)
        cases result with
        | ok output | error e => exact ih _ _ _ _
      · trivial
  refine .bind ((asks_simulateCall hr).mono fun reads' result _ => ?_)
  cases result with
  | error e => trivial
  | ok output => exact .bind ((hl _ _ _ _ _).mono fun _ _ _ => trivial)

end CallExecutor

/-! ### Reads while the node goes on -/

variable {P : Platform}

/-- Run state reads, each of the latest state, with the operations `before t` before read `t`. -/
def Node.readWhile (P : Platform) {α : Type} (before : ℕ → List Node.Op) (node : Node)
    (reader : StateReader α) : α :=
  ReadProgram.interleave (Node.step P)
    (fun node => StateQuery.answer node.ledger.latestState) before 0 node reader

/-- What is read of an account does not depend on which blocks are committed: no block destroys an
account, and code is found under the hashes that accounts have. -/
def Chain.Steady (chain : Chain P) (q₀ : QmdbStore) : Prop :=
  chain.StartsFrom q₀ ∧ chain.Undestroyed ∧ ∃ B, chain.Coded q₀ B

/-- The operation inserts no snapshot: what is verified is known or rejected, what is finalized is
known. It persists nothing above block `i`, and nothing of a chain that is not steady. -/
def Node.Op.Quiet (chain : Chain P) (q₀ : QmdbStore) (i : ℕ) (node : Node) : Node.Op → Prop
  | .build .. => True
  | .verify block parentTimestamp nowSecs =>
    (node.ledger.queryStateRoot (P.commitment block)).isSome = true ∨
      (node.app.verifyBlock P node.ledger block parentTimestamp nowSecs).2.2 = false
  | .finalize block persistCheckpoint =>
    (node.ledger.queryStateRoot (P.commitment block)).isSome = true ∧
      (persistCheckpoint = true → chain.Steady q₀ ∧ ∃ i' ≤ i, P.commitment block = chain.digest i')
  | .persist digest => chain.Steady q₀ ∧ ∃ i' ≤ i, digest = chain.digest i'

/-- The node shows the state after block `i`. -/
def Shows (chain : Chain P) (q₀ : QmdbStore) (i : ℕ) (node : Node) : Prop :=
  ∃ k m n, Live chain q₀ k m n node.ledger ∧ max m k = i

theorem Node.Op.Quiet.ledger {chain : Chain P} {q₀ : QmdbStore} {i : ℕ} {node : Node}
    {op : Node.Op} (h : op.Quiet chain q₀ i node) :
    (node.step P op).ledger = node.ledger ∨ chain.Steady q₀ ∧
      ∃ i' ≤ i, (node.step P op).ledger = (node.ledger.persistSnapshot (chain.digest i')).1 := by
  cases op with
  | build mempool seeds parent timestamp => exact .inl rfl
  | verify block parentTimestamp nowSecs =>
    left
    rcases node.app.verifyBlock_cases P node.ledger block parentTimestamp nowSecs with
      ⟨height, ok, hres⟩ | ⟨ht, hres⟩ | ⟨parent, outcome, -, hnone, hres⟩
    · rw [Node.step, hres]
    · rcases h with hk | hr
      · rw [ht.2.1] at hk
        cases hk
      · rw [hres] at hr
        cases hr
    · rcases h with hk | hr
      · rw [hnone] at hk
        cases hk
      · rw [hres] at hr
        cases hr
  | finalize block persistCheckpoint =>
    obtain ⟨hk, hp⟩ := h
    have hens := FinalizedReporter.ensureSnapshot_known P hk node.index node.provider true
    rw [Node.step, FinalizedReporter.handleFinalizedUpdate_ledger]
    cases persistCheckpoint with
    | false =>
      rw [FinalizedReporter.finalizeBlock_noCheckpoint]
      exact .inl hens
    | true =>
      obtain ⟨hst, i', hi', hd⟩ := hp rfl
      rcases FinalizedReporter.finalizeBlock_ledger P node.ledger node.index node.provider true
        block true with hres | hres
      · exact .inl (hres.trans hens)
      · rw [hens, hd] at hres
        exact .inr ⟨hst, i', hi', hres⟩
  | persist digest =>
    obtain ⟨hst, i', hi', rfl⟩ := h
    exact .inr ⟨hst, i', hi', rfl⟩

namespace Shows

variable {chain : Chain P} {q₀ : QmdbStore} {i : ℕ} {node node' : Node}

theorem step (h : Shows chain q₀ i node) {op : Node.Op} (hop : op.Quiet chain q₀ i node) :
    Shows chain q₀ i (node.step P op) := by
  obtain ⟨k, m, n, hl, rfl⟩ := h
  obtain heq | ⟨-, i', hi', heq⟩ := hop.ledger
  · refine ⟨k, m, n, ?_, rfl⟩
    rwa [heq]
  · have hin : i' ≤ n := hi'.trans (max_le hl.finalized hl.committed)
    obtain ⟨k', hle, hle', hp⟩ := hl.persistSnapshot hin
    refine ⟨k', m, n, ?_, by omega⟩
    rwa [heq]

theorem reads_eq (h : Shows chain q₀ i node) (h' : Shows chain q₀ i node')
    (hst : chain.Steady q₀) {address : Address} (ha : address ≠ COMMIT_SEQ_ACCOUNT_KEY) :
    reads node.ledger.latestState address = reads node'.ledger.latestState address ∧
      ∀ hash, codeHash node.ledger.latestState address = .ok hash → ¬ NoCode hash →
        code node.ledger.latestState hash = code node'.ledger.latestState hash := by
  obtain ⟨hq, hsd, B, hc⟩ := hst
  obtain ⟨k, m, n, hl, rfl⟩ := h
  obtain ⟨k', m', n', hl', hi⟩ := h'
  obtain ⟨hr, hcode⟩ := hl.shown_eq_database hq hsd hc ha
  obtain ⟨hr', hcode'⟩ := hl'.shown_eq_database hq hsd hc ha
  rw [hi] at hr' hcode'
  have hreads := hr.trans hr'.symm
  have hhash : codeHash node.ledger.latestState address =
      codeHash node'.ledger.latestState address := congrArg AccountReads.codeHash hreads
  refine ⟨hreads, fun hash hh hn => (hcode hash hh hn).trans (hcode' hash ?_ hn).symm⟩
  rwa [← hhash]

theorem answer (h : Shows chain q₀ i node) (h' : Shows chain q₀ i node') (hst : chain.Steady q₀)
    (past : List (Σ q : StateQuery, q.Answer)) (q : StateQuery)
    (hp : ∀ entry ∈ past, entry.2 = entry.1.answer node'.ledger.latestState)
    (hs : q.Sourced past) :
    q.answer node.ledger.latestState = q.answer node'.ledger.latestState := by
  have hr : ∀ address, address ≠ COMMIT_SEQ_ACCOUNT_KEY → _ := fun address ha =>
    reads_eq h h' hst ha
  cases q with
  | nonce address => exact congrArg AccountReads.nonce (hr address hs).1
  | balance address => exact congrArg AccountReads.balance (hr address hs).1
  | codeHash address => exact congrArg AccountReads.codeHash (hr address hs).1
  | storage address slot =>
    exact congrFun (congrArg AccountReads.storage (hr address hs).1) slot
  | code hash =>
    -- the hash was read of an account, which has it in both states
    obtain ⟨hcd, ⟨q', a⟩, he, hrt⟩ := hs
    cases q' with
    | codeHash address =>
      obtain rfl : a = codeHash node'.ledger.latestState address := hp _ he
      have hrd : (if address = COMMIT_SEQ_ACCOUNT_KEY then none else
          (codeHash node'.ledger.latestState address).toOption) = some hash := hrt
      split at hrd
      · cases hrd
      · next ha =>
        have hsm : codeHash node.ledger.latestState address =
            codeHash node'.ledger.latestState address :=
          congrArg AccountReads.codeHash (hr address ha).1
        cases hh : codeHash node'.ledger.latestState address with
        | error e =>
          rw [hh] at hrd
          cases hrd
        | ok hash' =>
          rw [hh] at hrd hsm
          obtain rfl := Option.some.inj hrd
          exact (hr address ha).2 _ hsm hcd
    | _ => cases hrt

end Shows

/-- **A call sees one block**, the one shown when it begins, as long as no snapshot is inserted and
nothing above the block is persisted, and what is persisted is of a steady chain. The block's state
is then also the database to which its chain is committed. -/
theorem call_sees_one_block {chain : Chain P} {q₀ : QmdbStore} {i : ℕ} {node : Node}
    (hshows : Shows chain q₀ i node) (before : ℕ → List Node.Op)
    (hquiet : ∀ n, Run.Along (Node.step P) (fun node op => op.Quiet chain q₀ i node) node
      ((List.range' 0 n).flatMap before)) (executor : CallExecutor)
    (params : CallParams) (context : BlockContext)
    (hrevm : ∀ env, (executor.replay context env).Asks DbQuery.Sourced (fun _ _ => True) []) :
    (node.readWhile P before (executor.simulateCall params context) =
        (executor.simulateCall params context).eval
          (StateQuery.answer node.ledger.latestState) ∧
      node.readWhile P before (executor.estimateGas params context) =
        (executor.estimateGas params context).eval
          (StateQuery.answer node.ledger.latestState)) ∧
    (chain.Steady q₀ → ∀ address, address ≠ COMMIT_SEQ_ACCOUNT_KEY →
      reads node.ledger.latestState address = reads (chain.database q₀ i) address) := by
  have hn : ∀ entry ∈ ([] : List (Σ q : StateQuery, q.Answer)),
      entry.2 = entry.1.answer node.ledger.latestState := fun entry h => absurd h not_mem_nil
  -- the state shown is the same, or it reads alike
  have hinv : ∀ (node' : Node) (op : Node.Op), (Shows chain q₀ i node' ∧
        (node'.ledger.latestState = node.ledger.latestState ∨ chain.Steady q₀)) →
      op.Quiet chain q₀ i node' → Shows chain q₀ i (node'.step P op) ∧
        ((node'.step P op).ledger.latestState = node.ledger.latestState ∨ chain.Steady q₀) := by
    rintro node' op ⟨hs, hl⟩ hop
    refine ⟨hs.step hop, ?_⟩
    obtain heq | ⟨hst, -⟩ := hop.ledger
    · rwa [heq]
    · exact .inr hst
  have ha : ∀ node' : Node, (Shows chain q₀ i node' ∧
      (node'.ledger.latestState = node.ledger.latestState ∨ chain.Steady q₀)) →
      ∀ past q, (∀ entry ∈ past, entry.2 = entry.1.answer node.ledger.latestState) →
        q.Sourced past →
        StateQuery.answer node'.ledger.latestState q = q.answer node.ledger.latestState := by
    rintro node' ⟨hs, heq | hst⟩ past q hp hq
    · rw [heq]
    · exact hs.answer hshows hst past q hp hq
  refine ⟨⟨ReadProgram.interleave_eq_eval hinv ha hn (CallExecutor.asks_simulateCall hrevm)
      ⟨hshows, .inl rfl⟩ hquiet,
    ReadProgram.interleave_eq_eval hinv ha hn (CallExecutor.asks_estimateGas hrevm)
      ⟨hshows, .inl rfl⟩ hquiet⟩, ?_⟩
  rintro ⟨hq, hsd, B, hc⟩ address hne
  obtain ⟨k, m, n, hl, rfl⟩ := hshows
  exact (hl.shown_eq_database hq hsd hc hne).1

/-! ### A call that is torn -/

section Example

open ThreeBlocks

private def lowByte : Except ExecutionError U256 → UInt8
  | .ok value => UInt8.ofNat value.toNat
  | .error _ => 0

private def slotExecutor : CallExecutor where
  chainId := 1
  analyse := id
  build _ := .ok ()
  replay _ _ := .read (.basic 0xA) fun info =>
    match info with
    | .ok (some _) => .read (.storage 0xA 1) fun value => .read (.storage 0xA 2) fun value' =>
      .done (.ok (.success [lowByte value, lowByte value']))
    | _ => .done (.ok (.success []))

private def anyCall : CallParams := ⟨1, some 0xA, 0, [], none, 0, 0⟩

private def anyContext : BlockContext := ⟨⟨1, 0, 30000000, 0, none⟩, 0, 0, none, ∅⟩

private theorem slotExecutor_sourced (context : BlockContext) (env : CallTxEnv) :
    (slotExecutor.replay context env).Asks DbQuery.Sourced (fun _ _ => True) [] := by
  have ha : (0xA : Address) ≠ COMMIT_SEQ_ACCOUNT_KEY := by decide
  refine ⟨ha, fun info => ?_⟩
  rcases info with e | (_ | info)
  · trivial
  · trivial
  · exact ⟨ha, fun _ => ⟨ha, fun _ => trivial⟩⟩

private def atGenesis : Node := Node.start platform QmdbStore.new (block 0) 10 30000000 0 0

private theorem shows_atGenesis {n : ℕ} (hn : n ≤ 3) : Shows (chain n hn) new 0 atGenesis :=
  ⟨0, 0, 0, Live.init (chain n hn) new, rfl⟩

private def settling (t : ℕ) : List Node.Op :=
  if t = 1 then [.verify (block 0) none 0, .persist (platform.commitment (block 0))] else []

theorem call_sees_one_block_genesis :
    atGenesis.readWhile platform settling (slotExecutor.simulateCall anyCall anyContext) =
      (slotExecutor.simulateCall anyCall anyContext).eval
        (StateQuery.answer atGenesis.ledger.latestState) := by
  have hst : (chain 1 (by decide)).Steady QmdbStore.new :=
    ⟨startsFrom _, undestroyed _, noCodes, coded _⟩
  have hlater : ∀ n, (List.range' 2 n).flatMap settling = [] := fun n =>
    flatMap_eq_nil_iff.2 fun t ht => if_neg (by rw [mem_range'_1] at ht; omega)
  refine (call_sees_one_block (shows_atGenesis (n := 1) (by decide)) _ (fun n => ?_) slotExecutor
    anyCall anyContext (slotExecutor_sourced anyContext)).1.1
  match n with
  | 0 => trivial
  | 1 => trivial
  | n + 2 =>
    have hops : (List.range' 0 (n + 2)).flatMap settling = settling 1 ++ [] := by
      rw [← hlater n]
      rfl
    rw [hops]
    exact ⟨.inl (by decide +kernel), ⟨hst, 0, le_rfl, rfl⟩, trivial⟩

private def tearing (t : ℕ) : List Node.Op :=
  if t = 0 then [.verify (block 1) none 0] else if t = 4 then [.verify (block 2) none 0] else []

/-- The call loads the account and its first slot from block 1, the second slot from block 2. -/
theorem torn_call :
    ¬ ∀ (P : Platform) (chain : Chain P) (q₀ : QmdbStore) (B : Bytecodes), chain.StartsFrom q₀ →
      chain.Undestroyed → chain.Coded q₀ B → ∀ (i : ℕ) (node : Node), Shows chain q₀ i node →
      ∀ before : ℕ → List Node.Op, (∀ t, ∀ op ∈ before t, op.OnChain chain) →
      ∀ (executor : CallExecutor) (params : CallParams) (context : BlockContext),
      (∀ env, (executor.replay context env).Asks DbQuery.Sourced (fun _ _ => True) []) →
      ∃ i' ≤ chain.length, node.readWhile P before (executor.simulateCall params context) =
        (executor.simulateCall params context).eval
          (StateQuery.answer (chain.database q₀ i')) := by
  intro h
  obtain ⟨i', hi', heq⟩ := h platform (chain 2 (by decide)) new noCodes (startsFrom _)
    (undestroyed _) (coded _) 0 atGenesis (shows_atGenesis _) tearing (fun t op hop => by
      rw [tearing] at hop
      split_ifs at hop
      · rw [mem_singleton.1 hop]
        trivial
      · rw [mem_singleton.1 hop]
        trivial
      · cases hop) slotExecutor anyCall anyContext (slotExecutor_sourced anyContext)
  have ht : atGenesis.readWhile platform tearing (slotExecutor.simulateCall anyCall anyContext) =
      .ok [1, 2] := by
    decide +kernel
  have hb : ∀ i ≤ 2, (slotExecutor.simulateCall anyCall anyContext).eval
      (StateQuery.answer ((chain 2 (by decide)).database new i)) ≠ .ok [1, 2] := by
    decide +kernel
  exact hb i' hi' (heq.symm.trans ht)

end Example

end Kora
