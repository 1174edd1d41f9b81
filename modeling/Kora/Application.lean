/-
The consensus application (`node/runner/src/app.rs`).

It builds blocks on a parent's snapshot and verifies those of others by executing them.
While it catches up after a restart, a block that it cannot verify is taken on its
finality certificate, as a snapshot that counts as persisted.

* `verifyBlock_cases`, `buildBlock_cases` — everything the two operations can do; a built
  block is one that its builder would verify.
-/
import Kora.Ledger

open Std

namespace Kora

open LedgerState

/-- The REVM application, without its handles on the ledger and the executor. -/
structure RevmApplication where
  maxTxs : ℕ
  gasLimit : ℕ
  feeRecipient : Address
  /-- The height recovered from the archive at startup; zero on a fresh node. -/
  recoveredHeight : ℕ
  lastVerifiedHeight : ℕ
  /-- Gas used and base fee by block digest. -/
  blockFees : ExtTreeMap Digest (ℕ × ℕ)

namespace RevmApplication

variable (P : Platform)

def CATCH_UP_THRESHOLD : ℕ := 64

def MAX_FUTURE_TIMESTAMP_DRIFT : ℕ := 15

/-- How far a block may be ahead of the finalized height to be built on. -/
def MAX_PROPOSAL_LAG : ℕ := 64

def new (genesis : Block) (maxTxs gasLimit : ℕ) (feeRecipient : Address) : RevmApplication :=
  { maxTxs, gasLimit, feeRecipient, recoveredHeight := 0, lastVerifiedHeight := 0
    blockFees := (∅ : ExtTreeMap Digest (ℕ × ℕ)).insert (P.commitment genesis)
      (0, INITIAL_BASE_FEE) }

def withRecoveredHeight (self : RevmApplication) (height : ℕ) : RevmApplication :=
  { self with recoveredHeight := height, lastVerifiedHeight := height }

/-! ### Fees and contexts -/

/-- Enter known fees, as digest, gas used and base fee. -/
def seedBlockFees (self : RevmApplication) (entries : List (Digest × ℕ × ℕ)) : RevmApplication :=
  { self with
    blockFees := entries.foldl (fun fees entry => fees.insert entry.1 entry.2) self.blockFees }

def computeBaseFee (self : RevmApplication) (parentDigest : Digest) : ℕ :=
  match self.blockFees[parentDigest]? with
  | some (parentGasUsed, parentBaseFee) =>
    calculateBaseFee parentBaseFee parentGasUsed self.gasLimit BaseFeeParams.DEFAULT
  | none => INITIAL_BASE_FEE

def recordBlockFees (self : RevmApplication) (digest : Digest) (gasUsed baseFee : ℕ) :
    RevmApplication :=
  { self with blockFees := self.blockFees.insert digest (gasUsed, baseFee) }

def blockContext (self : RevmApplication) (height timestamp : ℕ) (prevrandao : B256)
    (parentDigest : Digest) : BlockContext :=
  let header : Header :=
    { number := height, timestamp, gasLimit := self.gasLimit, beneficiary := self.feeRecipient,
      baseFeePerGas := some (self.computeBaseFee parentDigest) }
  BlockContext.new header 0 prevrandao

def verifyContext (self : RevmApplication) (block : Block) : BlockContext :=
  self.blockContext block.height block.timestamp block.prevrandao (P.parent block)

/-! ### Building -/

/-- The transactions of the unpersisted ancestors of a block, newest block first; `none` if one of
their snapshots is gone. The number of snapshots bounds the turns. -/
def collectPendingTxIds (snapshots : InMemorySnapshotStore) : ℕ → Option Digest → Option (List B256)
  | _, none => some []
  | 0, some _ => none
  | fuel + 1, some digest =>
    if snapshots.isPersisted digest then some []
    else match snapshots.get digest with
      | none => none
      | some snapshot =>
        (collectPendingTxIds snapshots fuel snapshot.parent).map (snapshot.txIds ++ ·)

/-- Build a block on a parent. The mempool selects up to a number of transactions outside an
excluded set, and `seeds` holds the randomness of finalized blocks. -/
def buildBlock (self : RevmApplication) (ledger : LedgerState)
    (mempool : ℕ → List B256 → List Tx) (seeds : Digest → Option B256) (parent : Block)
    (timestamp : ℕ) : RevmApplication × Option Block :=
  let parentDigest := P.commitment parent
  match ledger.parentSnapshot parentDigest with
  | none => (self, none)
  | some parentSnapshot =>
    match collectPendingTxIds ledger.snapshots (ledger.snapshots.snapshots.size + 1)
        (some parentDigest) with
    | none => (self, none)
    | some excluded =>
      let txs := mempool self.maxTxs excluded
      let prevrandao := (seeds parentDigest).getD 0
      let height := parent.height + 1
      let context := self.blockContext height timestamp prevrandao parentDigest
      match P.executeBlock (ledger.snapshotView parentSnapshot) context txs with
      | .error _ => (self, none)
      | .ok outcome =>
        match ledger.computeRootFromStore P parentDigest outcome.changes with
        | .error _ => (self, none)
        | .ok stateRoot =>
          let block : Block :=
            { parentId := P.blockId parent, height, timestamp, prevrandao, stateRoot, txs }
          (self.recordBlockFees (P.commitment block) outcome.gasUsed
            (context.header.baseFeePerGas.getD INITIAL_BASE_FEE), some block)

/-- Propose a block on the tip of an ancestry, unless the tip is too far ahead of the finalized
height. -/
def propose (self : RevmApplication) (ledger : LedgerState)
    (mempool : ℕ → List B256 → List Tx) (seeds : Digest → Option B256)
    (finalizedHeight : Option ℕ) (ancestry : List Block) (nowSecs : ℕ) :
    RevmApplication × Option Block :=
  match ancestry with
  | [] => (self, none)
  | parent :: _ =>
    if finalizedHeight.any (· + MAX_PROPOSAL_LAG < parent.height) then (self, none)
    else match Block.nextTimestamp nowSecs parent.timestamp with
      | none => (self, none)
      | some timestamp => self.buildBlock P ledger mempool seeds parent timestamp

/-! ### Verifying -/

def isCatchingUp (self : RevmApplication) (blockHeight : ℕ) : Bool :=
  if self.recoveredHeight = 0 then false
  else if blockHeight ≤ self.recoveredHeight then false
  else self.lastVerifiedHeight < min (self.recoveredHeight + CATCH_UP_THRESHOLD) U64_MAX

/-- Whether the timestamp moved backwards or is too far in the future. -/
def timestampRejected (block : Block) (parentTimestamp : Option ℕ) (nowSecs : ℕ) : Bool :=
  (match parentTimestamp with
    | some parentTs => decide (block.timestamp < parentTs)
    | none => false) ||
  decide (min (nowSecs + MAX_FUTURE_TIMESTAMP_DRIFT) U64_MAX < block.timestamp)

def advanceVerified (self : RevmApplication) (height : ℕ) : RevmApplication :=
  { self with lastVerifiedHeight := max self.lastVerifiedHeight height }

/-- Verify a block, with the clock and the timestamp of its parent. -/
def verifyBlock (self : RevmApplication) (ledger : LedgerState) (block : Block)
    (parentTimestamp : Option ℕ) (nowSecs : ℕ) : RevmApplication × LedgerState × Bool :=
  if (ledger.queryStateRoot (P.commitment block)).isSome then
    (self.advanceVerified block.height, ledger, true)
  else if !self.isCatchingUp block.height && timestampRejected block parentTimestamp nowSecs then
    (self, ledger, false)
  else match ledger.executeOnParent P (self.verifyContext P block) block with
    | .error _ =>
      -- Whatever the reason is, a missing parent, a failed execution or another root: while
      -- catching up the block is taken on its certificate.
      if self.isCatchingUp block.height then
        (self, ledger.restorePersistedSnapshot P block, true)
      else (self, ledger, false)
    | .ok (parent, outcome) =>
      let baseFee := (self.verifyContext P block).header.baseFeePerGas.getD INITIAL_BASE_FEE
      ((self.recordBlockFees (P.commitment block) outcome.gasUsed baseFee).advanceVerified
          block.height,
        ledger.insertExecuted P block parent outcome.changes, true)

/-- The blocks at the front of an ancestry that the ledger lacks, and the timestamp of the first it
has. -/
def collectUnverified (ledger : LedgerState) : List Block → List Block × Option ℕ
  | [] => ([], none)
  | block :: ancestry =>
    if (ledger.queryStateRoot (P.commitment block)).isSome then ([], some block.timestamp)
    else
      let (blocks, parentTimestamp) := collectUnverified ledger ancestry
      (block :: blocks, parentTimestamp)

def verifyBlocks (self : RevmApplication) (ledger : LedgerState) (parentTimestamp : Option ℕ)
    (nowSecs : ℕ) : List Block → RevmApplication × LedgerState × Bool
  | [] => (self, ledger, true)
  | block :: blocks =>
    match self.verifyBlock P ledger block parentTimestamp nowSecs with
    | (self, ledger, false) => (self, ledger, false)
    | (self, ledger, true) => self.verifyBlocks ledger (some block.timestamp) nowSecs blocks

/-- Verify the tip of an ancestry: all blocks since the newest known one, from the oldest on. -/
def verify (self : RevmApplication) (ledger : LedgerState) (ancestry : List Block)
    (nowSecs : ℕ) : RevmApplication × LedgerState × Bool :=
  let (blocks, parentTimestamp) := collectUnverified P ledger ancestry
  self.verifyBlocks P ledger parentTimestamp nowSecs blocks.reverse

/-- The block is taken on its finality certificate. -/
def Trusts (self : RevmApplication) (ledger : LedgerState) (block : Block) : Prop :=
  self.isCatchingUp block.height = true ∧ ledger.queryStateRoot (P.commitment block) = none ∧
    ∃ e, ledger.executeOnParent P (self.verifyContext P block) block = .error e

/-- **Everything `verifyBlock` can do**: at most advance the verified height, take the block on its
certificate, or execute it on its parent's snapshot. -/
theorem verifyBlock_cases (app : RevmApplication) (l : LedgerState) (block : Block)
    (parentTimestamp : Option ℕ) (nowSecs : ℕ) :
    (∃ height ok, app.verifyBlock P l block parentTimestamp nowSecs =
        (app.advanceVerified height, l, ok)) ∨
      (app.Trusts P l block ∧ app.verifyBlock P l block parentTimestamp nowSecs =
        (app, l.restorePersistedSnapshot P block, true)) ∨
      ∃ parent outcome,
        l.executeOnParent P (app.verifyContext P block) block = .ok (parent, outcome) ∧
        l.queryStateRoot (P.commitment block) = none ∧
        app.verifyBlock P l block parentTimestamp nowSecs =
          ((app.recordBlockFees (P.commitment block) outcome.gasUsed
              (app.computeBaseFee (P.parent block))).advanceVerified block.height,
            l.insertExecuted P block parent outcome.changes, true) := by
  -- an answer without any effect advances the verified height by nothing
  have hs : app = app.advanceVerified 0 := by simp [advanceVerified]
  rw [verifyBlock]
  split
  · exact .inl ⟨_, _, rfl⟩
  · next hk =>
    have hnone : l.queryStateRoot (P.commitment block) = none := by simpa using hk
    split
    · exact .inl ⟨0, _, by rw [← hs]⟩
    · cases he : l.executeOnParent P (app.verifyContext P block) block with
      | error e =>
        dsimp only
        split
        · next hc => exact .inr (.inl ⟨⟨hc, hnone, e, he⟩, rfl⟩)
        · exact .inl ⟨0, _, by rw [← hs]⟩
      | ok result => exact .inr (.inr ⟨result.1, result.2, rfl, hnone, rfl⟩)

theorem verifyBlock_accepted {app : RevmApplication} {l : LedgerState} {block : Block}
    {parentTimestamp : Option ℕ} {nowSecs : ℕ}
    (h : (app.verifyBlock P l block parentTimestamp nowSecs).2.2 = true) :
    ((app.verifyBlock P l block parentTimestamp nowSecs).2.1.queryStateRoot
      (P.commitment block)).isSome = true := by
  rw [verifyBlock] at h ⊢
  split
  · next hk => exact hk
  · next hk =>
    rw [if_neg hk] at h
    split
    · next hr =>
      rw [if_pos hr] at h
      cases h
    · next hr =>
      rw [if_neg hr] at h
      cases he : l.executeOnParent P (app.verifyContext P block) block with
      | error e =>
        rw [he] at h
        dsimp only at h ⊢
        split
        · rw [queryStateRoot, get_restorePersistedSnapshot, if_pos rfl]
          rfl
        · next hc =>
          rw [if_neg hc] at h
          cases h
      | ok result =>
        dsimp only
        rw [queryStateRoot, get_insertExecuted, if_pos rfl]
        rfl

/-- **A built block executes on its parent** in the context it would be verified in. -/
theorem buildBlock_cases (app : RevmApplication) (l : LedgerState)
    (mempool : ℕ → List B256 → List Tx) (seeds : Digest → Option B256) (parent : Block)
    (timestamp : ℕ) :
    app.buildBlock P l mempool seeds parent timestamp = (app, none) ∨
      ∃ block snapshot outcome,
        l.executeOnParent P (app.verifyContext P block) block = .ok (snapshot, outcome) ∧
        block.parentId = P.blockId parent ∧ block.height = parent.height + 1 ∧
        block.timestamp = timestamp ∧
        app.buildBlock P l mempool seeds parent timestamp =
          (app.recordBlockFees (P.commitment block) outcome.gasUsed
            (app.computeBaseFee (P.parent block)), some block) := by
  rw [buildBlock]
  dsimp only
  cases hget : l.parentSnapshot (P.commitment parent) with
  | none => exact .inl rfl
  | some snapshot =>
    dsimp only
    split
    · exact .inl rfl
    · next excluded _ =>
      split
      · exact .inl rfl
      · next outcome he =>
        -- the block is given the very root that its verification will compare with
        have hr : l.computeRootFromStore P (P.commitment parent) outcome.changes =
            .ok (StateRoot.transition P.keccak256 snapshot.stateRoot outcome.changes) := by
          rw [computeRootFromStore, ← parentSnapshot, hget]
        rw [hr]
        refine .inr ⟨_, snapshot, outcome, ?_, rfl, rfl, rfl, rfl⟩
        exact (executeOnParent_ok P).2 ⟨hget, he, rfl⟩

theorem buildBlock_some {app : RevmApplication} {l : LedgerState}
    {mempool : ℕ → List B256 → List Tx} {seeds : Digest → Option B256} {parent block : Block}
    {timestamp : ℕ} (h : (app.buildBlock P l mempool seeds parent timestamp).2 = some block) :
    (∃ excluded, block.txs = mempool app.maxTxs excluded) ∧
      block.prevrandao = (seeds (P.commitment parent)).getD 0 := by
  rw [buildBlock] at h
  dsimp only at h
  split at h
  · cases h
  · split at h
    · cases h
    · next excluded _ =>
      split at h
      · cases h
      · split at h
        · cases h
        · obtain rfl := Option.some.inj h
          exact ⟨⟨excluded, rfl⟩, rfl⟩

theorem propose_some {app : RevmApplication} {l : LedgerState}
    {mempool : ℕ → List B256 → List Tx} {seeds : Digest → Option B256}
    {finalizedHeight : Option ℕ} {parent block : Block} {ancestry : List Block} {nowSecs : ℕ}
    (h : (app.propose P l mempool seeds finalizedHeight (parent :: ancestry) nowSecs).2 =
      some block) :
    (app.buildBlock P l mempool seeds parent (max nowSecs parent.timestamp)).2 = some block := by
  rw [propose] at h
  split at h
  · cases h
  · rw [Block.nextTimestamp_eq] at h
    exact h

end RevmApplication

end Kora
