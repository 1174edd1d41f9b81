/-
The vote on a block (`propose` and `verify` of `node/runner/src/app.rs`).

Outside the catch-up after a restart the answer is a comparison of roots: the block is
executed on its parent's snapshot under the validator's own context, with the validator's
own fee recipient.

* `Validator.verdict_eq_iff` — what the answers of two validators depend on;
* `HonestChain.honest_blocks_accepted` — a fresh node accepts an honest chain block by
  block, by induction over pending changes, fees, roots and timestamps at once.
-/
import Kora.Environment

open Std Option

namespace Kora

open LedgerState RevmApplication

/-! ### The answer of a verification -/

namespace RevmApplication

variable (P : Platform)

variable {app : RevmApplication} {l : LedgerState}

theorem verifyBlock_answer {block : Block} (h : app.isCatchingUp block.height = false)
    (parentTimestamp : Option ℕ) (nowSecs : ℕ) :
    (app.verifyBlock P l block parentTimestamp nowSecs).2.2 = true ↔
      (l.queryStateRoot (P.commitment block)).isSome = true ∨
        timestampRejected block parentTimestamp nowSecs = false ∧
          ∃ result, l.executeOnParent P (app.verifyContext P block) block = .ok result := by
  rw [verifyBlock]
  by_cases hk : (l.queryStateRoot (P.commitment block)).isSome = true
  · simp [hk]
  rw [if_neg hk, h]
  by_cases hr : timestampRejected block parentTimestamp nowSecs = true
  · simp [hk, hr]
  have hf : timestampRejected block parentTimestamp nowSecs = false := by simpa using hr
  cases hexec : l.executeOnParent P (app.verifyContext P block) block with
  | error e => simp [hk, hf]
  | ok result => simp [hf]

theorem verifyBlock_executes {block : Block} {parentTimestamp : Option ℕ} {nowSecs : ℕ}
    {parent : Snapshot} {outcome : ExecutionOutcome}
    (hu : ¬ (l.queryStateRoot (P.commitment block)).isSome = true)
    (hc : timestampRejected block parentTimestamp nowSecs = false)
    (hexec : l.executeOnParent P (app.verifyContext P block) block = .ok (parent, outcome)) :
    app.verifyBlock P l block parentTimestamp nowSecs =
      ((app.recordBlockFees (P.commitment block) outcome.gasUsed
          (app.computeBaseFee (P.parent block))).advanceVerified block.height,
        l.insertExecuted P block parent outcome.changes, true) := by
  rw [verifyBlock, if_neg hu, hc, Bool.and_false, if_neg Bool.false_ne_true, hexec]
  rfl

theorem verify_child {parent : Block}
    (hp : (l.queryStateRoot (P.commitment parent)).isSome = true) (block : Block)
    (older : List Block) (nowSecs : ℕ) :
    app.verify P l (block :: parent :: older) nowSecs =
      if (l.queryStateRoot (P.commitment block)).isSome then (app, l, true)
      else app.verifyBlock P l block (some parent.timestamp) nowSecs := by
  rw [verify, collectUnverified]
  by_cases hk : (l.queryStateRoot (P.commitment block)).isSome = true
  · rw [if_pos hk, if_pos hk]
    rfl
  · rw [if_neg hk, if_neg hk, collectUnverified, if_pos hp]
    show app.verifyBlocks P l (some parent.timestamp) nowSecs [block] = _
    rw [verifyBlocks]
    split
    · next heq => rw [heq]
    · next heq =>
      rw [heq]
      rfl

end RevmApplication

/-! ### Two validators -/

/-- A validator as it verifies. Neither its mempool nor its checkpoint interval is read. -/
structure Validator where
  app : RevmApplication
  ledger : LedgerState

namespace Validator

variable (P : Platform)

def verdict (self : Validator) (block : Block) (parentTimestamp : Option ℕ) (nowSecs : ℕ) : Bool :=
  (self.app.verifyBlock P self.ledger block parentTimestamp nowSecs).2.2

/-- What a validator has of a block's parent: the state that its snapshot shows, and its root. -/
def parentState (self : Validator) (block : Block) : Option (StateView × B256) :=
  (self.ledger.parentSnapshot (P.parent block)).map fun parent =>
    (self.ledger.snapshotView parent, parent.stateRoot)

/-- Validators outside catch-up with the same parent state, fees and gas limit, that both have the
block or not. -/
structure SameData (v v' : Validator) (block : Block) : Prop where
  settled : v.app.isCatchingUp block.height = false
  settled' : v'.app.isCatchingUp block.height = false
  gasLimit : v.app.gasLimit = v'.app.gasLimit
  fees : v.app.blockFees[P.parent block]? = v'.app.blockFees[P.parent block]?
  parent : v.parentState P block = v'.parentState P block
  known : (v.ledger.queryStateRoot (P.commitment block)).isSome =
    (v'.ledger.queryStateRoot (P.commitment block)).isSome

/-- The root that the transactions come to on the parent's state with a given fee recipient. -/
def rootWith (self : Validator) (block : Block) (feeRecipient : Address) : Option B256 :=
  (self.parentState P block).bind fun parent =>
    match P.execute parent.1 (environment block self.app.gasLimit feeRecipient
        (self.app.computeBaseFee (P.parent block)) (fun _ => 0)) (block.txs.map (·.bytes)) with
    | .error _ => none
    | .ok outcome => some (StateRoot.transition P.keccak256 parent.2 outcome.changes)

theorem executes_iff_rootWith (v : Validator) (block : Block) :
    (∃ result, v.ledger.executeOnParent P (v.app.verifyContext P block) block = .ok result) ↔
      v.rootWith P block v.app.feeRecipient = some block.stateRoot := by
  have hv := view_verifyContext P v.app block
  constructor
  · rintro ⟨⟨parent, outcome⟩, hexec⟩
    obtain ⟨hget, hrun, hr⟩ := (executeOnParent_ok P).1 hexec
    rw [Platform.executeBlock, hv] at hrun
    rw [rootWith, parentState, parentSnapshot, hget, map_some, bind_some, hrun]
    exact congrArg some hr
  · intro h
    rw [rootWith, parentState, parentSnapshot] at h
    cases hget : v.ledger.snapshots.get (P.parent block) with
    | none =>
      rw [hget] at h
      cases h
    | some parent =>
      rw [hget, map_some, bind_some] at h
      split at h
      · cases h
      · next outcome hrun =>
        refine ⟨(parent, outcome), (executeOnParent_ok P).2 ⟨hget, ?_, ?_⟩⟩
        · rw [Platform.executeBlock, hv]
          exact hrun
        · exact some.inj h

variable {P} {v v' : Validator} {block : Block}

theorem SameData.rootWith_eq (h : SameData P v v' block) (feeRecipient : Address) :
    v.rootWith P block feeRecipient = v'.rootWith P block feeRecipient := by
  have hfee : v.app.computeBaseFee (P.parent block) = v'.app.computeBaseFee (P.parent block) := by
    rw [computeBaseFee, computeBaseFee, h.fees, h.gasLimit]
  rw [rootWith, rootWith, h.parent, h.gasLimit, hfee]

theorem verdict_iff (hs : v.app.isCatchingUp block.height = false)
    (parentTimestamp : Option ℕ) (nowSecs : ℕ) :
    v.verdict P block parentTimestamp nowSecs = true ↔
      (v.ledger.queryStateRoot (P.commitment block)).isSome = true ∨
        RevmApplication.timestampRejected block parentTimestamp nowSecs = false ∧
          v.rootWith P block v.app.feeRecipient = some block.stateRoot := by
  rw [verdict, verifyBlock_answer P hs, executes_iff_rootWith]

/-- **What the answer depends on.** Two validators outside catch-up with the same parent state, fee
data, gas limit and clock agree on a block exactly if it is known, its timestamp is rejected, or
their fee recipients lead to the declared root both or neither. No other setting has a part in the
answer. -/
theorem verdict_eq_iff (h : SameData P v v' block) (parentTimestamp : Option ℕ) (nowSecs : ℕ) :
    (v.verdict P block parentTimestamp nowSecs = v'.verdict P block parentTimestamp nowSecs ↔
      (v.ledger.queryStateRoot (P.commitment block)).isSome = true ∨
        RevmApplication.timestampRejected block parentTimestamp nowSecs = true ∨
        (v.rootWith P block v.app.feeRecipient = some block.stateRoot ↔
          v.rootWith P block v'.app.feeRecipient = some block.stateRoot)) ∧
    (v.app.feeRecipient = v'.app.feeRecipient →
      v.verdict P block parentTimestamp nowSecs =
        v'.verdict P block parentTimestamp nowSecs) := by
  have ha : v.verdict P block parentTimestamp nowSecs =
      v'.verdict P block parentTimestamp nowSecs ↔
      (v.ledger.queryStateRoot (P.commitment block)).isSome = true ∨
        timestampRejected block parentTimestamp nowSecs = true ∨
        (v.rootWith P block v.app.feeRecipient = some block.stateRoot ↔
          v.rootWith P block v'.app.feeRecipient = some block.stateRoot) := by
    rw [Bool.eq_iff_iff, verdict_iff h.settled, verdict_iff h.settled', ← h.known,
      h.rootWith_eq v'.app.feeRecipient]
    cases timestampRejected block parentTimestamp nowSecs
    · simp only [true_and, Bool.false_eq_true, false_or]
      tauto
    · simp
  refine ⟨ha, fun hs => ha.2 ?_⟩
  rw [hs]
  exact .inr (.inr Iff.rfl)

end Validator

/-! ### A block with a tip

The executor of this platform gives the beneficiary a tip of one wei for a block with
transactions. -/

namespace Tips

def outcome (beneficiary : Address) : ExecutionOutcome :=
  ⟨ChangeSet.new.insert beneficiary
    { created := true, selfdestructed := false, nonce := 0, balance := 1
      codeHash := KECCAK256_EMPTY, code := none, storage := ∅ }, [], 21000, []⟩

/-- The sum of the bytes. -/
def keccak256 (bytes : Bytes) : B256 := BitVec.ofNat 256 (bytes.map UInt8.toNat).sum

def genesis : Block := LedgerState.genesisBlock 0 0

/-- A block of a proposer whose fee recipient is the zero address. -/
def block : Block :=
  { parentId := 1, height := 1, timestamp := 0, prevrandao := 0
    stateRoot := StateRoot.transition keccak256 0 (outcome 0).changes
    txs := [⟨[1]⟩] }

def platform : Platform where
  keccak256 := keccak256
  sha256 := id
  blockId b := if b = genesis then 1 else if b = block then 2 else 0
  txId _ := 0
  consensus := default
  execute _ view txs :=
    .ok (if txs = [] then ⟨ChangeSet.new, [], 0, []⟩ else outcome view.beneficiary)

def validator (feeRecipient : Address) (maxTxs : ℕ) : Validator where
  app := RevmApplication.new platform genesis maxTxs 30000000 feeRecipient
  ledger := LedgerState.init platform QmdbStore.new genesis

theorem sameData (f f' : Address) (n n' : ℕ) :
    Validator.SameData platform (validator f n) (validator f' n') block :=
  ⟨rfl, rfl, rfl, rfl, rfl, rfl⟩

end Tips

section

open Tips

theorem Validator.verdict_eq_iff_interval :
    Validator.SameData platform (validator 0 1) (validator 0 8) block ∧
      (validator 0 1).verdict platform block (some 0) 0 =
        (validator 0 8).verdict platform block (some 0) 0 :=
  ⟨sameData 0 0 1 8, (Validator.verdict_eq_iff (sameData 0 0 1 8) (some 0) 0).2 rfl⟩

/-- Two fresh validators differ in the fee recipient alone; one accepts, the other finds another
root. -/
theorem fee_recipient_splits_verdict :
    ¬ ∀ (P : Platform) (v v' : Validator) (block : Block), Validator.SameData P v v' block →
      ∀ (parentTimestamp : Option ℕ) (nowSecs : ℕ),
        v.verdict P block parentTimestamp nowSecs = v'.verdict P block parentTimestamp nowSecs := by
  intro h
  have hs := h platform (validator 0 1) (validator 1 1) block (sameData 0 1 1 1) (some 0) 0
  have ha : (validator 0 1).verdict platform block (some 0) 0 = true := by decide +kernel
  have hr : (validator 1 1).verdict platform block (some 0) 0 = false := by decide +kernel
  rw [ha, hr] at hs
  cases hs

end

/-! ### Honest proposals -/

/-- Operations before the first checkpoint: builds, verifications, finalizations of held blocks. -/
def Node.Op.NoCheckpoint (P : Platform) (node : Node) : Node.Op → Prop
  | .build .. => True
  | .verify .. => True
  | .finalize block persistCheckpoint => persistCheckpoint = false ∧
      (node.ledger.queryStateRoot (P.commitment block)).isSome = true
  | .persist _ => False

/-- What the nodes of a network start with. -/
structure Network where
  qmdb : QmdbStore
  genesisTimestamp : ℕ
  genesisRoot : B256
  gasLimit : ℕ
  feeRecipient : Address
  timestamp_le : genesisTimestamp ≤ U64_MAX

namespace Network

variable (P : Platform) (net : Network)

def genesis : Block := LedgerState.genesisBlock net.genesisTimestamp net.genesisRoot

/-- A fresh node of the network. -/
def start (maxTxs : ℕ) : Node :=
  Node.start P net.qmdb net.genesis maxTxs net.gasLimit net.feeRecipient 0

end Network

/-- From genesis, each block is proposed by a node that verified the earlier ones and made no
checkpoint. -/
structure HonestChain (P : Platform) (net : Network) where
  length : ℕ
  block : ℕ → Block
  /-- The clock of the proposer of a block. -/
  clock : ℕ → ℕ
  clock_le : ∀ i, clock i ≤ U64_MAX
  genesis : block 0 = net.genesis
  /-- No other block has the digest of a block of the chain. -/
  unique : ∀ i ≤ length, ∀ b, P.commitment b = P.commitment (block i) → b = block i
  proposed : ∀ i < length, ∃ (maxTxs : ℕ) (ops : List Node.Op)
    (mempool : ℕ → List B256 → List Tx) (seeds : Digest → Option B256)
    (finalizedHeight : Option ℕ) (ancestry : List Block),
    Run.Along (Node.step P) (Node.Op.NoCheckpoint P) (net.start P maxTxs) ops ∧
    let node := ops.foldl (Node.step P) (net.start P maxTxs)
    (node.app.propose P node.ledger mempool seeds finalizedHeight (block i :: ancestry)
      (clock (i + 1))).2 = some (block (i + 1))

namespace HonestChain

variable {P : Platform} {net : Network} (chain : HonestChain P net)

def digest (i : ℕ) : Digest := P.commitment (chain.block i)

/-- A block of the chain and its ancestors, newest first. -/
def ancestry : ℕ → List Block
  | 0 => [chain.block 0]
  | i + 1 => chain.block (i + 1) :: ancestry i

theorem ancestry_eq (i : ℕ) : ∃ older, chain.ancestry i = chain.block i :: older := by
  cases i with
  | zero => exact ⟨[], rfl⟩
  | succ i => exact ⟨chain.ancestry i, rfl⟩

/-- A fresh node that has been offered the first blocks of the chain, at the times `now`. -/
def offered (maxTxs : ℕ) (now : ℕ → ℕ) : ℕ → RevmApplication × LedgerState
  | 0 => ((net.start P maxTxs).app, (net.start P maxTxs).ledger)
  | i + 1 =>
    let (app, ledger) := offered maxTxs now i
    let result := app.verify P ledger (chain.ancestry (i + 1)) (now (i + 1))
    (result.1, result.2.1)

/-! ### What every node of the network computes -/

/-- Pending changes, gas used and base fee of a block. -/
structure Replayed where
  state : ChangeSet
  gasUsed : ℕ
  baseFee : ℕ

/-- The base fee of the next block. -/
def Replayed.nextBaseFee (r : Replayed) (gasLimit : ℕ) : ℕ :=
  calculateBaseFee r.baseFee r.gasUsed gasLimit BaseFeeParams.DEFAULT

/-- The chain executed block by block over the database of the network. -/
def replay : ℕ → Option Replayed
  | 0 => some ⟨ChangeSet.new, 0, INITIAL_BASE_FEE⟩
  | i + 1 => (replay i).bind fun parent =>
    let block := chain.block (i + 1)
    let baseFee := parent.nextBaseFee net.gasLimit
    match P.execute (reads (OverlayState.new net.qmdb parent.state))
        (environment block net.gasLimit net.feeRecipient baseFee (fun _ => 0))
        (block.txs.map (·.bytes)) with
    | .error _ => none
    | .ok outcome =>
      if StateRoot.transition P.keccak256 (chain.block i).stateRoot outcome.changes =
          block.stateRoot then
        some ⟨parent.state.merge outcome.changes, outcome.gasUsed, baseFee⟩
      else none

/-- The application and the ledger hold what the replay computes for the blocks they have. -/
structure Tracks (app : RevmApplication) (l : LedgerState) : Prop where
  qmdb : l.qmdb = net.qmdb
  gasLimit : app.gasLimit = net.gasLimit
  feeRecipient : app.feeRecipient = net.feeRecipient
  fresh : app.recoveredHeight = 0
  genesis : ∃ s, l.snapshots.get (chain.digest 0) = some s
  snapshot : ∀ i ≤ chain.length, ∀ s, l.snapshots.get (chain.digest i) = some s →
    ∃ r, chain.replay i = some r ∧ s.state = r.state ∧
      s.stateRoot = (chain.block i).stateRoot ∧
      app.blockFees[chain.digest i]? = some (r.gasUsed, r.baseFee)

variable {chain}

variable {i : ℕ}

theorem replay_succ {r' : Replayed} :
    chain.replay (i + 1) = some r' ↔ ∃ r outcome, chain.replay i = some r ∧
      P.execute (reads (OverlayState.new net.qmdb r.state))
        (environment (chain.block (i + 1)) net.gasLimit net.feeRecipient
          (r.nextBaseFee net.gasLimit) (fun _ => 0))
        ((chain.block (i + 1)).txs.map (·.bytes)) = .ok outcome ∧
      StateRoot.transition P.keccak256 (chain.block i).stateRoot outcome.changes =
        (chain.block (i + 1)).stateRoot ∧
      r' = ⟨r.state.merge outcome.changes, outcome.gasUsed, r.nextBaseFee net.gasLimit⟩ := by
  rw [replay, bind_eq_some_iff]
  refine exists_congr fun r => ⟨?_, ?_⟩
  · rintro ⟨hr, h⟩
    dsimp only at h
    split at h
    · cases h
    · next outcome hexec =>
      split at h
      · next hrt => exact ⟨outcome, hr, hexec, hrt, (some.inj h).symm⟩
      · cases h
  · rintro ⟨outcome, hr, hexec, hrt, rfl⟩
    refine ⟨hr, ?_⟩
    dsimp only
    rw [hexec]
    exact if_pos hrt

theorem proposal (hi : i < chain.length) :
    ∃ (maxTxs : ℕ) (ops : List Node.Op),
      Run.Along (Node.step P) (Node.Op.NoCheckpoint P) (net.start P maxTxs) ops ∧
      let node := ops.foldl (Node.step P) (net.start P maxTxs)
      (∃ result, node.ledger.executeOnParent P (node.app.verifyContext P (chain.block (i + 1)))
        (chain.block (i + 1)) = .ok result) ∧
      P.parent (chain.block (i + 1)) = chain.digest i ∧
      (chain.block (i + 1)).height = (chain.block i).height + 1 ∧
      (chain.block (i + 1)).timestamp = max (chain.clock (i + 1)) (chain.block i).timestamp := by
  obtain ⟨maxTxs, ops, mempool, seeds, finalizedHeight, ancestry, hrun, hp⟩ :=
    chain.proposed i hi
  refine ⟨maxTxs, ops, hrun, ?_⟩
  dsimp only at hp ⊢
  set node := ops.foldl (Node.step P) (net.start P maxTxs)
  have hb := propose_some P hp
  rcases buildBlock_cases P node.app node.ledger mempool seeds (chain.block i)
    (max (chain.clock (i + 1)) (chain.block i).timestamp) with
    hnone | ⟨block, snapshot, outcome, hexec, hpr, hh, ht, hr⟩
  · rw [hnone] at hb
    cases hb
  · rw [hr] at hb
    obtain rfl : block = chain.block (i + 1) := some.inj hb
    refine ⟨⟨_, hexec⟩, ?_, hh, ht⟩
    rw [Platform.parent, hpr]
    rfl

theorem height_block (hi : i ≤ chain.length) : (chain.block i).height = i := by
  induction i with
  | zero =>
    rw [chain.genesis]
    rfl
  | succ i ih =>
    obtain ⟨-, -, -, -, -, hh, -⟩ := chain.proposal (show i < chain.length by omega)
    rw [hh, ih (by omega)]

theorem timestamp_le_of {bound : ℕ} (hi : i ≤ chain.length)
    (hg : net.genesisTimestamp ≤ bound) (hc : ∀ j < i, chain.clock (j + 1) ≤ bound) :
    (chain.block i).timestamp ≤ bound := by
  induction i with
  | zero =>
    rw [chain.genesis]
    exact hg
  | succ i ih =>
    obtain ⟨-, -, -, -, -, -, ht⟩ := chain.proposal (show i < chain.length by omega)
    rw [ht]
    exact max_le (hc i (by omega)) (ih (by omega) fun j hj => hc j (by omega))

namespace Tracks

variable {app : RevmApplication} {l : LedgerState}

theorem executes_iff (h : chain.Tracks app l) (hi : i < chain.length) {parent : Snapshot}
    (hget : l.snapshots.get (chain.digest i) = some parent) {r' : Replayed} :
    chain.replay (i + 1) = some r' ↔ ∃ outcome,
      l.executeOnParent P (app.verifyContext P (chain.block (i + 1))) (chain.block (i + 1)) =
        .ok (parent, outcome) ∧
      r' = ⟨parent.state.merge outcome.changes, outcome.gasUsed,
        app.computeBaseFee (P.parent (chain.block (i + 1)))⟩ := by
  obtain ⟨-, -, -, -, hp, -, -⟩ := chain.proposal hi
  obtain ⟨r, hr, hs, hrt, hf⟩ := h.snapshot i hi.le parent hget
  have hfee : app.computeBaseFee (P.parent (chain.block (i + 1))) =
      r.nextBaseFee net.gasLimit := by
    rw [hp, computeBaseFee, hf, h.gasLimit]
    rfl
  have hv : l.snapshotView parent = reads (OverlayState.new net.qmdb r.state) := by
    rw [snapshotView, h.qmdb, hs]
  rw [replay_succ]
  constructor
  · rintro ⟨r₀, outcome, hr₀, hexec, ht, rfl⟩
    obtain rfl : r = r₀ := some.inj (hr.symm.trans hr₀)
    refine ⟨outcome, (executeOnParent_ok P).2 ⟨hp ▸ hget, ?_, ?_⟩, ?_⟩
    · rw [Platform.executeBlock, view_verifyContext, hv, h.gasLimit, h.feeRecipient, hfee]
      exact hexec
    · rw [hrt]
      exact ht
    · rw [hs, hfee]
  · rintro ⟨outcome, hexec, rfl⟩
    obtain ⟨-, hrun, ht⟩ := (executeOnParent_ok P).1 hexec
    rw [Platform.executeBlock, view_verifyContext, hv, h.gasLimit, h.feeRecipient, hfee] at hrun
    rw [hrt] at ht
    exact ⟨r, outcome, hr, hrun, ht, by rw [hs, hfee]⟩

variable {block : Block} {result : Snapshot × ExecutionOutcome}

section

variable (hexec : l.executeOnParent P (app.verifyContext P block) block = .ok result)
include hexec

theorem replay_of_executes (h : chain.Tracks app l) (hne : P.commitment block ≠ chain.digest 0)
    (hi : i ≤ chain.length) (hd : P.commitment block = chain.digest i) :
    block = chain.block i ∧ chain.replay i = some ⟨result.1.state.merge result.2.changes,
      result.2.gasUsed, app.computeBaseFee (P.parent block)⟩ := by
  obtain rfl := chain.unique i hi block hd
  refine ⟨rfl, ?_⟩
  cases i with
  | zero => exact absurd rfl hne
  | succ i =>
    obtain ⟨-, -, -, -, hp, -, -⟩ := chain.proposal (show i < chain.length by omega)
    obtain ⟨hget, -, -⟩ := (executeOnParent_ok P).1 hexec
    rw [hp] at hget
    exact (h.executes_iff (by omega) hget).2 ⟨result.2, hexec, rfl⟩

omit hexec in
theorem advanceVerified (h : chain.Tracks app l) (height : ℕ) :
    chain.Tracks (app.advanceVerified height) l :=
  ⟨h.qmdb, h.gasLimit, h.feeRecipient, h.fresh, h.genesis, h.snapshot⟩

theorem recordBlockFees (h : chain.Tracks app l) (hne : P.commitment block ≠ chain.digest 0) :
    chain.Tracks (app.recordBlockFees (P.commitment block) result.2.gasUsed
      (app.computeBaseFee (P.parent block))) l := by
  refine ⟨h.qmdb, h.gasLimit, h.feeRecipient, h.fresh, h.genesis, ?_⟩
  intro i hi s hs
  obtain ⟨r, hr, hst, hrt, hf⟩ := h.snapshot i hi s hs
  refine ⟨r, hr, hst, hrt, ?_⟩
  rw [RevmApplication.recordBlockFees, ExtTreeMap.getElem?_insert]
  split
  · next heq =>
    obtain ⟨-, hrp⟩ := h.replay_of_executes hexec hne hi (by simpa using heq)
    obtain rfl := some.inj (hr.symm.trans hrp)
    rfl
  · exact hf

theorem insertExecuted (h : chain.Tracks app l) (hne : P.commitment block ≠ chain.digest 0) :
    chain.Tracks (app.recordBlockFees (P.commitment block) result.2.gasUsed
      (app.computeBaseFee (P.parent block)))
      (l.insertExecuted P block result.1 result.2.changes) := by
  have hrec := h.recordBlockFees hexec hne
  have hget := l.get_insertExecuted P block result.1 result.2.changes
  refine ⟨h.qmdb, h.gasLimit, h.feeRecipient, h.fresh, ?_, ?_⟩
  · rw [hget, if_neg hne]
    exact h.genesis
  · intro i hi s hs
    rw [hget] at hs
    split at hs
    · next heq =>
      -- the new snapshot
      obtain ⟨rfl, hr⟩ := h.replay_of_executes hexec hne hi heq
      obtain rfl := some.inj hs
      refine ⟨_, hr, rfl, rfl, ?_⟩
      rw [RevmApplication.recordBlockFees]
      exact ExtTreeMap.getElem?_insert_self
    · exact hrec.snapshot i hi s hs

end

theorem start (chain : HonestChain P net) (maxTxs : ℕ) :
    chain.Tracks (net.start P maxTxs).app (net.start P maxTxs).ledger := by
  have hd : P.commitment net.genesis = chain.digest 0 := by
    rw [digest, chain.genesis]
  have hget := get_init P net.qmdb net.genesis
  refine ⟨rfl, rfl, rfl, rfl, ⟨_, (hget _).trans (if_pos hd)⟩, ?_⟩
  intro i hi s hs
  have hs' := (hget (chain.digest i)).symm.trans hs
  split at hs'
  · next heq =>
    have hb : chain.block 0 = chain.block i := chain.unique i hi _ (hd.symm.trans heq)
    obtain rfl : 0 = i := by
      rw [← chain.height_block (Nat.zero_le _), ← chain.height_block hi, hb]
    obtain rfl := some.inj hs'
    refine ⟨_, rfl, rfl, by rw [chain.genesis], ?_⟩
    rw [← hd]
    exact ExtTreeMap.getElem?_insert_self
  · cases hs'

theorem verifyBlock (h : chain.Tracks app l) (block : Block) (parentTimestamp : Option ℕ)
    (nowSecs : ℕ) :
    chain.Tracks (app.verifyBlock P l block parentTimestamp nowSecs).1
      (app.verifyBlock P l block parentTimestamp nowSecs).2.1 := by
  rcases verifyBlock_cases P app l block parentTimestamp nowSecs with
    ⟨height, ok, hres⟩ | ⟨⟨hc, -⟩, -⟩ | ⟨parent, outcome, hexec, hnone, hres⟩
  · rw [hres]
    exact h.advanceVerified height
  · -- a fresh node does not catch up
    rw [isCatchingUp, if_pos h.fresh] at hc
    cases hc
  · rw [hres]
    refine (h.insertExecuted hexec ?_).advanceVerified _
    intro heq
    obtain ⟨s, hs⟩ := h.genesis
    rw [queryStateRoot, heq, hs] at hnone
    cases hnone

theorem step {node : Node} (h : chain.Tracks node.app node.ledger) {op : Node.Op}
    (hop : op.NoCheckpoint P node) :
    chain.Tracks (node.step P op).app (node.step P op).ledger := by
  cases op with
  | build mempool seeds parent timestamp =>
    rcases buildBlock_cases P node.app node.ledger mempool seeds parent timestamp
      with hnone | ⟨block, snapshot, outcome, hexec, -, hh, -, hb⟩
    · rw [Node.step, hnone]
      exact h
    · rw [Node.step, hb]
      refine h.recordBlockFees hexec fun heq => ?_
      have hbl := chain.unique 0 (Nat.zero_le _) block heq
      rw [hbl, chain.height_block (Nat.zero_le _)] at hh
      omega
  | verify block parentTimestamp nowSecs => exact h.verifyBlock block parentTimestamp nowSecs
  | finalize block persistCheckpoint =>
    obtain ⟨rfl, hk⟩ := hop
    have hl : (node.step P (.finalize block false)).ledger = node.ledger := by
      rw [Node.step]
      dsimp only
      rw [FinalizedReporter.handleFinalizedUpdate_ledger,
        FinalizedReporter.finalizeBlock_noCheckpoint,
        FinalizedReporter.ensureSnapshot_known P hk]
    rw [hl]
    exact h
  | persist digest => exact hop.elim

end Tracks

theorem Tracks.run {maxTxs : ℕ} {ops : List Node.Op}
    (hrun : Run.Along (Node.step P) (Node.Op.NoCheckpoint P) (net.start P maxTxs) ops) :
    chain.Tracks (ops.foldl (Node.step P) (net.start P maxTxs)).app
      (ops.foldl (Node.step P) (net.start P maxTxs)).ledger :=
  hrun.history (fun _ node => chain.Tracks node.app node.ledger) (Tracks.start chain maxTxs)
    fun _ _ _ h hop => h.step hop

theorem replay_some (hi : i ≤ chain.length) : ∃ r, chain.replay i = some r := by
  cases i with
  | zero => exact ⟨_, rfl⟩
  | succ i =>
    obtain ⟨maxTxs, ops, hrun, ⟨⟨parent, outcome⟩, hexec⟩, hp, -, -⟩ :=
      chain.proposal (show i < chain.length by omega)
    obtain ⟨hget, -, -⟩ := (executeOnParent_ok P).1 hexec
    rw [hp] at hget
    exact ⟨_, ((Tracks.run hrun).executes_iff (by omega) hget).2 ⟨outcome, hexec, rfl⟩⟩

theorem timestamp_passes {nowSecs : ℕ} (hi : i < chain.length)
    (hg : net.genesisTimestamp ≤ nowSecs + RevmApplication.MAX_FUTURE_TIMESTAMP_DRIFT)
    (hc : ∀ j ≤ i,
      chain.clock (j + 1) ≤ nowSecs + RevmApplication.MAX_FUTURE_TIMESTAMP_DRIFT) :
    RevmApplication.timestampRejected (chain.block (i + 1)) (some (chain.block i).timestamp)
      nowSecs = false := by
  have hf : (chain.block (i + 1)).timestamp ≤
      min (nowSecs + RevmApplication.MAX_FUTURE_TIMESTAMP_DRIFT) U64_MAX :=
    chain.timestamp_le_of (by omega) (le_min hg net.timestamp_le) fun j hj =>
      le_min (hc j (by omega)) (chain.clock_le _)
  obtain ⟨-, -, -, -, -, -, ht⟩ := chain.proposal hi
  have hp : (chain.block i).timestamp ≤ (chain.block (i + 1)).timestamp := by
    rw [ht]
    exact le_max_right _ _
  simp only [timestampRejected, Bool.or_eq_false_iff, decide_eq_false_iff_not]
  exact ⟨hp.not_gt, hf.not_gt⟩

/-- With the parent, a node accepts a block of the chain if its clock lets it, and then has it. -/
theorem Tracks.verify {app : RevmApplication} {l : LedgerState} (h : chain.Tracks app l)
    (hi : i < chain.length) {parent : Snapshot}
    (hget : l.snapshots.get (chain.digest i) = some parent) {nowSecs : ℕ}
    (hc : RevmApplication.timestampRejected (chain.block (i + 1))
      (some (chain.block i).timestamp) nowSecs = false) {result}
    (hrs : app.verify P l (chain.ancestry (i + 1)) nowSecs = result) :
    chain.Tracks result.1 result.2.1 ∧
      (∃ s, result.2.1.snapshots.get (chain.digest (i + 1)) = some s) ∧ result.2.2 = true := by
  have hp : (l.queryStateRoot (P.commitment (chain.block i))).isSome = true := by
    rw [queryStateRoot, ← digest, hget]
    rfl
  obtain ⟨older, holder⟩ := chain.ancestry_eq i
  rw [ancestry, holder, verify_child P hp] at hrs
  split at hrs
  · next hk =>
    subst hrs
    rw [queryStateRoot, isSome_map, isSome_iff_exists] at hk
    exact ⟨h, hk, rfl⟩
  · next hu =>
    obtain ⟨r, hr⟩ := chain.replay_some (show i + 1 ≤ chain.length by omega)
    obtain ⟨outcome, hexec, -⟩ := (h.executes_iff hi hget).1 hr
    have ht := h.verifyBlock (chain.block (i + 1)) (some (chain.block i).timestamp) nowSecs
    rw [hrs] at ht
    rw [verifyBlock_executes P hu hc hexec] at hrs
    subst hrs
    refine ⟨ht, ⟨_, (get_insertExecuted ..).trans (if_pos rfl)⟩, rfl⟩

/-- **Honest proposals are accepted** by a fresh node that is offered the blocks in order, if its
clock does not go back and is at most fifteen seconds behind that of every proposer so far, and
behind the genesis time at the first block. -/
theorem honest_blocks_accepted (chain : HonestChain P net) (maxTxs : ℕ) {now : ℕ → ℕ}
    (hmono : Monotone now)
    (hgenesis : net.genesisTimestamp ≤ now 1 + RevmApplication.MAX_FUTURE_TIMESTAMP_DRIFT)
    (hclock : ∀ i < chain.length, ∀ j ≤ i,
      chain.clock (j + 1) ≤ now (i + 1) + RevmApplication.MAX_FUTURE_TIMESTAMP_DRIFT)
    {i : ℕ} (hi : i < chain.length) :
    ((chain.offered maxTxs now i).1.verify P (chain.offered maxTxs now i).2
      (chain.ancestry (i + 1)) (now (i + 1))).2.2 = true := by
  have hp : ∀ i < chain.length, timestampRejected (chain.block (i + 1))
      (some (chain.block i).timestamp) (now (i + 1)) = false := by
    intro i hi
    have hl : now 1 ≤ now (i + 1) := hmono (by omega)
    exact chain.timestamp_passes hi (by omega) (hclock i hi)
  -- by induction the node has the blocks before it, with what the replay computes for them
  have ho : ∀ i ≤ chain.length,
      chain.Tracks (chain.offered maxTxs now i).1 (chain.offered maxTxs now i).2 ∧
        ∃ s, (chain.offered maxTxs now i).2.snapshots.get (chain.digest i) = some s := by
    intro i hi
    induction i with
    | zero => exact ⟨Tracks.start chain maxTxs, (Tracks.start chain maxTxs).genesis⟩
    | succ i ih =>
      obtain ⟨ht, parent, hget⟩ := ih (by omega)
      obtain ⟨ht', hget', -⟩ := ht.verify hi hget (hp i hi) rfl
      exact ⟨ht', hget'⟩
  obtain ⟨ht, parent, hget⟩ := ho i hi.le
  exact (ht.verify hi hget (hp i hi) rfl).2.2

end HonestChain

namespace ThreeBlocks

def net : Network where
  qmdb := QmdbStore.new
  genesisTimestamp := 0
  genesisRoot := 0
  gasLimit := 30000000
  feeRecipient := 0
  timestamp_le := Nat.zero_le _

def honest : HonestChain platform net where
  length := 2
  block := block
  clock _ := 0
  clock_le _ := Nat.zero_le _
  genesis := rfl
  unique _ hi _ h := eq_block_of_commitment (hi.trans (by decide)) h
  proposed i hi := by
    have hcases : i = 0 ∨ i = 1 := by omega
    rcases hcases with rfl | rfl
    · exact ⟨10, [], fun _ _ => [⟨[1]⟩], fun _ => none, none, [], trivial, by decide +kernel⟩
    · exact ⟨10, [.verify (block 1) (some 0) 0], fun _ _ => [⟨[2]⟩], fun _ => none, some 0,
        [block 0], ⟨trivial, trivial⟩, by decide +kernel⟩

end ThreeBlocks

theorem HonestChain.honest_blocks_accepted_two :
    ((ThreeBlocks.honest.offered 10 (fun _ => 0) 1).1.verify ThreeBlocks.platform
      (ThreeBlocks.honest.offered 10 (fun _ => 0) 1).2 (ThreeBlocks.honest.ancestry 2) 0).2.2 =
      true :=
  HonestChain.honest_blocks_accepted ThreeBlocks.honest 10
    (show Monotone fun _ : ℕ => (0 : ℕ) from fun _ _ _ => le_rfl) (Nat.zero_le _)
    (fun _ _ _ _ => Nat.zero_le _) (i := 1) (by decide)

/-! ### A genesis time in the future -/

namespace LateGenesis

/-- A network whose genesis time is a hundred seconds ahead of the clocks. -/
def net : Network where
  qmdb := QmdbStore.new
  genesisTimestamp := 100
  genesisRoot := 0
  gasLimit := 30000000
  feeRecipient := 0
  timestamp_le := by decide

/-- Genesis, and the block that a node proposes on it at time zero. -/
def block (i : ℕ) : Block :=
  { parentId := BitVec.ofNat 256 i, height := i, timestamp := 100, prevrandao := 0, stateRoot := 0
    txs := [] }

def platform : Platform where
  keccak256 _ := 0
  sha256 := id
  blockId b := if b.height ≤ 1 ∧ b = block b.height then BitVec.ofNat 256 (b.height + 1) else 0
  txId _ := 0
  consensus := default
  execute _ _ _ := .ok ⟨ChangeSet.new, [], 0, []⟩

def chain : HonestChain platform net where
  length := 1
  block := block
  clock _ := 0
  clock_le _ := Nat.zero_le _
  genesis := rfl
  unique _ hi _ h := eq_block_of_digest (by decide) (fun _ => rfl) (fun _ => rfl) hi h
  proposed _ hi := by
    obtain rfl := Nat.lt_one_iff.1 hi
    exact ⟨10, [], fun _ _ => [], fun _ => none, none, [], trivial, by decide +kernel⟩

end LateGenesis

/-- Proposed before the genesis time, a block has that time: too far ahead of the clock. -/
theorem HonestChain.late_genesis_rejected :
    ¬ ∀ (P : Platform) (net : Network) (chain : HonestChain P net) (maxTxs : ℕ) (now : ℕ → ℕ),
      Monotone now →
      (∀ i < chain.length, ∀ j ≤ i,
        chain.clock (j + 1) ≤ now (i + 1) + RevmApplication.MAX_FUTURE_TIMESTAMP_DRIFT) →
      ∀ i < chain.length, ((chain.offered maxTxs now i).1.verify P (chain.offered maxTxs now i).2
        (chain.ancestry (i + 1)) (now (i + 1))).2.2 = true := by
  intro h
  have ha := h LateGenesis.platform LateGenesis.net LateGenesis.chain 10 (fun _ => 0)
    (fun _ _ _ => le_rfl) (fun _ _ _ _ => Nat.zero_le _) 0 (by decide)
  exact absurd ha (by decide +kernel)

end Kora
