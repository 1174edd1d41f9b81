/-
The replay of an honest history (`restore_checkpoint_and_replay_tail` and
`index_recovered_block` in `node/runner/src/runner.rs`).

Startup indexes every archived block with a gas figure of zero, restores the checkpoint
and executes the archive above it again, under base fees and hashes from the index. Each
block has to come to the root that it had under the context of its proposer.

* `Chain.Replays` — the history that the replay recomputes;
* `recovery_accepts_iff` — the restart reaches the head of the archive exactly if it does.
-/
import Kora.Recovery
import Kora.Environment
import Kora.Durability

open Std

namespace Kora

open InMemorySnapshotStore RevmContextProvider BlockIndex Recovery LedgerState

variable {P : Platform}

theorem baseFeeAt_congr {gasLimit : ℕ} {gas gas' : ℕ → ℕ} {i : ℕ} (h : ∀ j < i, gas j = gas' j) :
    baseFeeAt gasLimit gas i = baseFeeAt gasLimit gas' i := by
  induction i with
  | zero => rfl
  | succ i ih => rw [baseFeeAt, baseFeeAt, ih fun j hj => h j (by omega), h i (by omega)]

/-! ### The history that a replay recomputes -/

namespace Chain

variable (chain : Chain P)

/-- The hashes of the blocks in the window before a height. -/
def hashBefore (height number : ℕ) : B256 :=
  if number < height ∧ height ≤ number + 256 then P.blockId (chain.block number) else 0

/-- The changes after block `m` up to block `i`, pending over a database. -/
def pendingView (q : QmdbStore) (m i : ℕ) : StateView :=
  reads (OverlayState.new q
    (ChangeSet.mergeAll ((chainSegment chain.digest chain.changes m i).map Prod.snd)))

/-- Execute a block of the chain on a state, under a base fee and a table of hashes. -/
def executeOn (state : StateView) (baseFee : ℕ) (blockHash : ℕ → B256) (i : ℕ) :
    Except String ExecutionOutcome :=
  P.execute state (environment (chain.block i) chain.gasLimit chain.feeRecipient baseFee blockHash)
    ((chain.block i).txs.map (·.bytes))

/-- Under the figures' base fees, the blocks after `m` up to `r` come to their roots with this very
gas. -/
def Follows (gas : ℕ → ℕ) (q : QmdbStore) (m r : ℕ) : Prop :=
  ∀ i, m ≤ i → i < r → ∃ outcome,
    chain.executeOn (chain.pendingView q m i) (baseFeeAt chain.gasLimit gas (i + 1))
      (chain.hashBefore (i + 1)) (i + 1) = .ok outcome ∧
    StateRoot.transition P.keccak256 (chain.block i).stateRoot outcome.changes =
      (chain.block (i + 1)).stateRoot ∧
    gas (i + 1) = outcome.gasUsed

/-- The blocks after `m` come to their roots again if none up to `m` is taken to have used gas. -/
def Replays (q : QmdbStore) (m a : ℕ) : Prop :=
  ∃ gas : ℕ → ℕ, (∀ i ≤ m, gas i = 0) ∧ chain.Follows gas q m a

variable {chain}

theorem Follows.update {gas : ℕ → ℕ} {q : QmdbStore} {m r : ℕ} (h : chain.Follows gas q m r)
    {outcome : ExecutionOutcome}
    (he : chain.executeOn (chain.pendingView q m r) (baseFeeAt chain.gasLimit gas (r + 1))
      (chain.hashBefore (r + 1)) (r + 1) = .ok outcome)
    (hr : StateRoot.transition P.keccak256 (chain.block r).stateRoot outcome.changes =
      (chain.block (r + 1)).stateRoot) :
    chain.Follows (Function.update gas (r + 1) outcome.gasUsed) q m (r + 1) := by
  intro i hmi hi
  have hfee : baseFeeAt chain.gasLimit (Function.update gas (r + 1) outcome.gasUsed) (i + 1) =
      baseFeeAt chain.gasLimit gas (i + 1) :=
    baseFeeAt_congr fun j hj => Function.update_of_ne (by omega) _ _
  rw [hfee]
  rcases Nat.lt_or_ge i r with hlt | hge
  · rw [Function.update_of_ne (by omega)]
    exact h i hmi hlt
  · obtain rfl : i = r := by omega
    exact ⟨outcome, he, hr, Function.update_self ..⟩

end Chain

/-! ### The index in the course of a restart -/

/-- The index entry of a block of the chain, under gas figures for the blocks. -/
structure Chain.Entry (chain : Chain P) (gas : ℕ → ℕ) (i : ℕ) (b : IndexedBlock) : Prop where
  hash : b.hash = P.blockId (chain.block i)
  gasUsed : b.gasUsed = gas i
  baseFee : b.baseFeePerGas = some (baseFeeAt chain.gasLimit gas i)
  gasLimit : b.gasLimit = chain.gasLimit

/-- The index has the hashes up to `a`, and up to `r` the gas figures and the fees they lead to. -/
structure IndexHolds (chain : Chain P) (gas : ℕ → ℕ) (r a : ℕ) (index : BlockIndex) : Prop where
  byNumber : ∀ i ≤ a, index.blocksByNumber[i]? = some (P.blockId (chain.block i))
  byHash : ∀ i ≤ r, ∃ b, index.blocksByHash[P.blockId (chain.block i)]? = some b ∧
    chain.Entry gas i b

namespace IndexHolds

variable {chain : Chain P} {gas : ℕ → ℕ} {r a : ℕ} {index : BlockIndex}

theorem baseFee_eq (h : IndexHolds chain gas r a index) {i : ℕ} (hi : i ≤ r) (hia : i ≤ a) :
    RevmContextProvider.baseFee index (i + 1) = baseFeeAt chain.gasLimit gas (i + 1) := by
  obtain ⟨b, hb, he⟩ := h.byHash i hi
  rw [baseFee, if_neg (Nat.succ_ne_zero i), Nat.add_sub_cancel,
    getBlockByNumber, h.byNumber i hia]
  dsimp only
  rw [hb]
  dsimp only
  rw [he.baseFee, he.gasUsed, he.gasLimit]
  rfl

theorem view_context (h : IndexHolds chain gas r a index) {i : ℕ} (hi : i ≤ r) (hia : i ≤ a)
    (hlen : i < chain.length) :
    (context ⟨chain.gasLimit, chain.feeRecipient⟩ index
      (chain.block (i + 1))).view =
    environment (chain.block (i + 1)) chain.gasLimit chain.feeRecipient
      (baseFeeAt chain.gasLimit gas (i + 1)) (chain.hashBefore (i + 1)) := by
  have hh : hashWindow index (i + 1) = chain.hashBefore (i + 1) := by
    funext number
    rw [hashWindow, Chain.hashBefore]
    split
    · rw [h.byNumber number (by omega), Option.getD_some]
    · rfl
  rw [Kora.view_context, chain.height (i + 1) hlen, h.baseFee_eq hi hia, hh]

theorem insertBlock (h : IndexHolds chain gas r a index) {r' a' i : ℕ} {b : IndexedBlock}
    {txs : List IndexedTransaction} {receipts : List IndexedReceipt}
    (hi : i ≤ chain.length) (hr : r' ≤ chain.length) (hr' : ∀ j ≤ r', j ≠ i → j ≤ r)
    (ha' : ∀ j ≤ a', j ≠ i → j ≤ a) (hn : b.number = i)
    (hh : b.hash = P.blockId (chain.block i)) (hb : i ≤ r' → chain.Entry gas i b) :
    IndexHolds chain gas r' a' (index.insertBlock b txs receipts) where
  byNumber j hj := by
    rw [blocksByNumber_insertBlock, hn, hh]
    split
    · next heq => rw [heq]
    · next hne => exact h.byNumber j (ha' j hj (Ne.symm hne))
  byHash j hj := by
    rw [blocksByHash_insertBlock, hh]
    split
    · next heq =>
      obtain rfl : i = j := chain.digest_inj hi (hj.trans hr) (congrArg P.sha256 heq)
      exact ⟨b, rfl, hb hj⟩
    · next hne =>
      refine h.byHash j (hr' j hj ?_)
      rintro rfl
      exact hne rfl

theorem genesis (chain : Chain P) (hzero : gas 0 = 0) : IndexHolds chain gas 0 0
    (BlockIndex.new.seedGenesisBlockIndex P (chain.block 0) chain.gasLimit) where
  byNumber i hi := by
    obtain rfl : i = 0 := by omega
    exact (blocksByNumber_insertBlock ..).trans (if_pos rfl)
  byHash i hi := by
    obtain rfl : i = 0 := by omega
    exact ⟨_, (blocksByHash_insertBlock ..).trans (if_pos rfl), rfl, hzero.symm, rfl, rfl⟩

theorem indexArchive {m : ℕ} (hzero : ∀ i ≤ m, gas i = 0) (ha : a ≤ chain.length) :
    IndexHolds chain gas (min m a) a (chain.indexArchive ⟨chain.gasLimit, chain.feeRecipient⟩
      (BlockIndex.new.seedGenesisBlockIndex P (chain.block 0) chain.gasLimit) a) := by
  induction a with
  | zero =>
    rw [Nat.min_zero]
    exact genesis chain (hzero 0 (Nat.zero_le _))
  | succ a ih =>
    have h := ih (by omega)
    rw [Chain.indexArchive, List.range'_1_concat, List.foldl_append, ← Chain.indexArchive,
      Nat.add_comm 1 a]
    refine h.insertBlock ha (by omega) (fun j hj hne => by omega) (fun j hj hne => by omega)
      (chain.height _ ha) rfl fun hle => ⟨rfl, (hzero _ (by omega)).symm, ?_, rfl⟩
    show some (baseFee _ (chain.block (a + 1)).height) = _
    rw [chain.height _ ha, h.baseFee_eq (by omega) le_rfl]

end IndexHolds

/-! ### The replay -/

theorem Recovery.replayTail_succeeds {chain : Chain P} {a : ℕ} (ha : a ≤ chain.length)
    {provider : RevmContextProvider} (Inv : ℕ → LedgerState → BlockIndex → Prop)
    (hs : ∀ r l index, r < a → Inv r l index → ∃ l' index',
      replayFinalizedBlock P l index provider (chain.block (r + 1)) = .ok (l', index') ∧
      Inv (r + 1) l' index')
    {remaining r : ℕ} {l : LedgerState} {index : BlockIndex} {replayed : Bool} (h : Inv r l index)
    (hra : r + remaining = a) :
    ∃ restored, replayTail P provider (chain.archive a) remaining (r + 1)
      ⟨l, index, r, chain.digest r, replayed⟩ = .ok restored := by
  induction remaining generalizing r l index replayed with
  | zero => exact ⟨_, rfl⟩
  | succ remaining ih =>
    obtain ⟨l', index', hb, hinv⟩ := hs r l index (by omega) h
    rw [replayTail_archive ha (by omega), hb]
    exact ih hinv (by omega)

/-- The ledger and the index after the replay of the blocks after `m` up to `r`. -/
structure Replaying (chain : Chain P) (gas : ℕ → ℕ) (q : QmdbStore) (m r a : ℕ) (l : LedgerState)
    (index : BlockIndex) : Prop where
  tail : HoldsTail chain m r l
  qmdb : l.qmdb = q
  index : IndexHolds chain gas r a index

namespace Replaying

variable {chain : Chain P} {gas : ℕ → ℕ} {q : QmdbStore} {m r a : ℕ} {l : LedgerState}
  {index : BlockIndex}

variable (h : Replaying chain gas q m r a l index)
include h

theorem executeOnParent_iff (hr : r < a) (ha : a ≤ chain.length) {outcome : ExecutionOutcome} :
    (∃ parent, l.executeOnParent P (context
        ⟨chain.gasLimit, chain.feeRecipient⟩ index (chain.block (r + 1))) (chain.block (r + 1)) =
          .ok (parent, outcome)) ↔
      chain.executeOn (chain.pendingView q m r) (baseFeeAt chain.gasLimit gas (r + 1))
        (chain.hashBefore (r + 1)) (r + 1) = .ok outcome ∧
      StateRoot.transition P.keccak256 (chain.block r).stateRoot outcome.changes =
        (chain.block (r + 1)).stateRoot := by
  have hlen : r < chain.length := by omega
  obtain ⟨parent, hget, hs⟩ := h.tail.shown r h.tail.low le_rfl
  have hrt := h.tail.root r hlen.le parent hget
  have hv : l.snapshotView parent = chain.pendingView q m r := by
    rw [snapshotView, h.qmdb, hs, Chain.pendingView]
  have he : ∀ parent', l.executeOnParent P (context
        ⟨chain.gasLimit, chain.feeRecipient⟩ index (chain.block (r + 1))) (chain.block (r + 1)) =
          .ok (parent', outcome) ↔ parent = parent' ∧
      chain.executeOn (l.snapshotView parent') (baseFeeAt chain.gasLimit gas (r + 1))
        (chain.hashBefore (r + 1)) (r + 1) = .ok outcome ∧
      StateRoot.transition P.keccak256 parent'.stateRoot outcome.changes =
        (chain.block (r + 1)).stateRoot := by
    intro parent'
    rw [executeOnParent_ok, chain.parent_block hlen, hget, Platform.executeBlock,
      h.index.view_context le_rfl hr.le hlen, Option.some_inj]
    rfl
  simp only [he, exists_eq_left', hv, hrt]

theorem insertExecuted (hr : r < a) (ha : a ≤ chain.length) {parent : Snapshot}
    {outcome : ExecutionOutcome}
    (he : l.executeOnParent P (context ⟨chain.gasLimit, chain.feeRecipient⟩
      index (chain.block (r + 1))) (chain.block (r + 1)) = .ok (parent, outcome))
    (hgas : gas (r + 1) = outcome.gasUsed) :
    Replaying chain gas q m (r + 1) a
      (l.insertExecuted P (chain.block (r + 1)) parent outcome.changes)
      (index.insertBlock (IndexedBlock.ofRecovered P (chain.block (r + 1))
        (context ⟨chain.gasLimit, chain.feeRecipient⟩ index
          (chain.block (r + 1))) outcome.gasUsed) [] []) := by
  have hlen : r < chain.length := by omega
  refine ⟨h.tail.insertExecuted hlen he, h.qmdb, ?_⟩
  refine h.index.insertBlock hlen hlen (fun j hj hne => by omega) (fun j hj _ => hj)
    (chain.height _ hlen) rfl fun _ => ⟨rfl, hgas.symm, ?_, rfl⟩
  show some (baseFee index (chain.block (r + 1)).height) = _
  rw [chain.height _ hlen, h.index.baseFee_eq le_rfl hr.le]

theorem replays (hr : r < a) (ha : a ≤ chain.length) (hf : chain.Follows gas q m a) :
    ∃ l' index',
    replayFinalizedBlock P l index ⟨chain.gasLimit, chain.feeRecipient⟩
      (chain.block (r + 1)) = .ok (l', index') ∧
    Replaying chain gas q m (r + 1) a l' index' := by
  obtain ⟨outcome, hrun, hrt, hgas⟩ := hf r h.tail.low hr
  obtain ⟨parent, he⟩ := (h.executeOnParent_iff hr ha).2 ⟨hrun, hrt⟩
  refine ⟨_, _, ?_, h.insertExecuted hr ha he hgas⟩
  rw [replayFinalizedBlock, h.tail.queryStateRoot_succ (by omega), Option.isSome_none,
    if_neg Bool.false_ne_true]
  dsimp only
  rw [he]

theorem congr_gas {gas' : ℕ → ℕ} (hgas : ∀ i ≤ r, gas i = gas' i) :
    Replaying chain gas' q m r a l index := by
  refine ⟨h.tail, h.qmdb, h.index.byNumber, fun i hi => ?_⟩
  obtain ⟨b, hb, he⟩ := h.index.byHash i hi
  refine ⟨b, hb, he.hash, he.gasUsed.trans (hgas i hi), ?_, he.gasLimit⟩
  rw [he.baseFee, baseFeeAt_congr fun j hj => hgas j (by omega)]

theorem settles (hr : r < a) (ha : a ≤ chain.length) (hzero : ∀ i ≤ m, gas i = 0)
    (hf : chain.Follows gas q m r) {l' : LedgerState} {index' : BlockIndex}
    (hb : replayFinalizedBlock P l index ⟨chain.gasLimit, chain.feeRecipient⟩
      (chain.block (r + 1)) = .ok (l', index')) :
    ∃ gas' : ℕ → ℕ, (∀ i ≤ m, gas' i = 0) ∧ chain.Follows gas' q m (r + 1) ∧
      Replaying chain gas' q m (r + 1) a l' index' := by
  have hlow := h.tail.low
  obtain ⟨parent, outcome, he, rfl, rfl⟩ := replayFinalizedBlock_ok
    (h.tail.queryStateRoot_succ (by omega)) hb
  obtain ⟨hrun, hrt⟩ := (h.executeOnParent_iff hr ha).1 ⟨parent, he⟩
  have hold : ∀ i ≤ r, gas i = Function.update gas (r + 1) outcome.gasUsed i :=
    fun i hi => (Function.update_of_ne (by omega) _ _).symm
  refine ⟨Function.update gas (r + 1) outcome.gasUsed, fun i hi => ?_,
    hf.update hrun hrt, ?_⟩
  · rw [← hold i (by omega)]
    exact hzero i hi
  · exact (h.congr_gas hold).insertExecuted hr ha he (Function.update_self ..)

end Replaying

theorem Recovery.recoverFinalizedState_marked {chain : Chain P} {m a : ℕ} (hpos : 0 < m)
    (hma : m ≤ a) (ha : a ≤ chain.length) (l : LedgerState) (index : BlockIndex)
    (provider : RevmContextProvider) :
    recoverFinalizedState P l index provider (chain.archive a) (some (chain.digest m)) =
      replayTail P provider (chain.archive a) (a - m) (m + 1)
        ⟨l.restorePersistedSnapshot P (chain.block m), chain.indexArchive provider index a, m,
          chain.digest m, false⟩ := by
  obtain ⟨b, rfl⟩ : ∃ b, a = b + 1 := ⟨a - 1, by omega⟩
  have hi : (chain.archive (b + 1)).toList.foldl (fun index entry =>
      indexRecoveredBlock P provider index entry.2) index =
      chain.indexArchive provider index (b + 1) := by
    rw [chain.toList_archive, List.foldl_map]
    rfl
  rw [recoverFinalizedState, hi, restoreCheckpointAndReplayTail,
    chain.getLast?_archive]
  dsimp only
  rw [chain.findCheckpoint_archive ha (hma.trans ha) hpos, if_pos hma]
  dsimp only
  rw [chain.height _ ha, chain.height _ (hma.trans ha)]
  rfl

theorem Replaying.start {chain : Chain P} {gas : ℕ → ℕ} {q : QmdbStore} {m a : ℕ} (hpos : 0 < m)
    (hma : m ≤ a) (ha : a ≤ chain.length) (hzero : ∀ i ≤ m, gas i = 0) :
    Replaying chain gas q m m a
      ((init P q (chain.block 0)).restorePersistedSnapshot P (chain.block m))
      (chain.indexArchive ⟨chain.gasLimit, chain.feeRecipient⟩
        (BlockIndex.new.seedGenesisBlockIndex P (chain.block 0) chain.gasLimit) a) := by
  have hi := IndexHolds.indexArchive hzero ha
  rw [Nat.min_eq_left hma] at hi
  exact ⟨(HoldsTail.init chain q).restorePersistedSnapshot hpos (hma.trans ha), rfl, hi⟩

/-- **When recovery accepts a history**: with a marker that names a block, startup ends at the head
of the archive exactly if the chain replays from that block. -/
theorem recovery_accepts_iff {chain : Chain P} {q : QmdbStore} {m a : ℕ} (hpos : 0 < m)
    (hma : m ≤ a) (ha : a ≤ chain.length) :
    (∃ restored, Recovery.recoverFinalizedState P (LedgerState.init P q (chain.block 0))
        (BlockIndex.new.seedGenesisBlockIndex P (chain.block 0) chain.gasLimit)
        ⟨chain.gasLimit, chain.feeRecipient⟩ (chain.archive a) (some (chain.digest m)) =
          .ok restored ∧ restored.height = a) ↔
      chain.Replays q m a := by
  rw [recoverFinalizedState_marked hpos hma ha]
  constructor
  · rintro ⟨restored, hres, -⟩
    obtain ⟨⟨gas, hzero, hf, -⟩, -⟩ := replayTail_induction ha
      (fun r l index => ∃ gas : ℕ → ℕ, (∀ i ≤ m, gas i = 0) ∧ chain.Follows gas q m r ∧
        Replaying chain gas q m r a l index)
      (fun r l index l' index' hr ⟨gas, hzero, hf, h⟩ hb =>
        h.settles hr ha hzero hf hb)
      ⟨fun _ => 0, fun _ _ => rfl, fun i hmi hi => absurd hi (by omega),
        .start hpos hma ha fun _ _ => rfl⟩ (Nat.add_sub_cancel' hma) hres
    exact ⟨gas, hzero, hf⟩
  · rintro ⟨gas, hzero, hf⟩
    obtain ⟨restored, hres⟩ := replayTail_succeeds ha
      (fun r l index => Replaying chain gas q m r a l index)
      (fun r l index hr h => h.replays hr ha hf) (.start hpos hma ha hzero)
      (Nat.add_sub_cancel' hma)
    obtain ⟨-, hh, -⟩ := replayTail_induction ha (fun _ _ _ => True)
      (fun _ _ _ _ _ _ _ _ => trivial) trivial (Nat.add_sub_cancel' hma) hres
    exact ⟨restored, hres, hh⟩

/-! ### Histories that replay -/

namespace Chain

/-- Each block was built on the chain's state in its proposer's context, with the chain's fee and no
hashes. -/
def Built (chain : Chain P) : Prop :=
  ∀ i < chain.length, chain.executeOn (chain.state i) (chain.baseFee (i + 1)) (fun _ => 0) (i + 1) =
    .ok (chain.outcome (i + 1))

/-- On the state of the chain the block after `i` asks for no block hash. -/
def Hashless (chain : Chain P) (i : ℕ) : Prop :=
  ∀ blockHash, chain.executeOn (chain.state i) (chain.baseFee (i + 1)) blockHash (i + 1) =
    chain.executeOn (chain.state i) (chain.baseFee (i + 1)) (fun _ => 0) (i + 1)

/-- A state that shows that of the chain, except for the account of the commit sequence. -/
def Shows (chain : Chain P) (i : ℕ) (state : StateView) : Prop :=
  ∀ address, address ≠ COMMIT_SEQ_ACCOUNT_KEY → state address = chain.state i address

/-- **A block of the chain executes as its proposer saw it** on a state that shows that of the
chain, under its base fee, and without hashes that it asks for. -/
theorem Built.executeOn_eq {chain : Chain P} (h : chain.Built) (hs : P.SkipsSentinel) {i : ℕ}
    (hi : i < chain.length) {state : StateView} (hst : chain.Shows i state) {blockHash : ℕ → B256}
    (hh : blockHash = (fun _ => 0) ∨ chain.Hashless i) :
    chain.executeOn state (chain.baseFee (i + 1)) blockHash (i + 1) =
      .ok (chain.outcome (i + 1)) := by
  rw [executeOn, hs _ _ _ _ hst, ← executeOn, ← h i hi]
  rcases hh with rfl | hh
  · rfl
  · exact hh blockHash

end Chain

/-- A chain whose blocks up to the checkpoint used no gas replays from it, if the blocks after it
ask for no block hash and the executor does not look at the commit sequence. -/
theorem Chain.Built.replays {chain : Chain P} (h : chain.Built) (hs : P.SkipsSentinel)
    {q₀ : QmdbStore} (hq : chain.StartsFrom q₀) (hsd : chain.Undestroyed) {m a : ℕ}
    (ha : a ≤ chain.length) (hh : ∀ i, m ≤ i → i < a → chain.Hashless i)
    {groups : List (List ChangeSet)} (hc : groups.flatten = changesUpTo chain.outcome m)
    (hcn : groups.length ≤ chain.length) (hzero : ∀ i ≤ m, chain.gasUsed i = 0) :
    chain.Replays (q₀.commitGroups groups) m a := by
  refine ⟨chain.gasUsed, hzero, fun i hmi hi => ?_⟩
  have hlen : i < chain.length := by omega
  have hst : chain.Shows i (chain.pendingView (q₀.commitGroups groups) m i) := by
    intro address had
    rw [Chain.pendingView, chain.segment_eq_drop hmi]
    exact hq.reads_pending hsd hc hcn le_rfl hmi hlen.le had
  exact ⟨chain.outcome (i + 1), h.executeOn_eq hs hlen hst (.inr (hh i hmi hi)),
    chain.root i hlen, rfl⟩

section

open ThreeBlocks

theorem recovery_accepts_iff_two :
    ∃ restored, Recovery.recoverFinalizedState platform
      (LedgerState.init platform QmdbStore.new (block 0))
      (BlockIndex.new.seedGenesisBlockIndex platform (block 0) 30000000) ⟨30000000, 0⟩
      ((chain 3 le_rfl).archive 2) (some ((chain 3 le_rfl).digest 1)) = .ok restored ∧
        restored.height = 2 := by
  refine (recovery_accepts_iff (show 0 < 1 by decide) (show 1 ≤ 2 by decide)
    (show 2 ≤ (chain 3 le_rfl).length by decide)).2
    ⟨fun i => if i ≤ 1 then 0 else 21000, fun i hi => if_pos hi, fun i hlow hh => ?_⟩
  obtain rfl : i = 1 := by omega
  exact ⟨outcome [[2]], rfl, rfl, rfl⟩

end

/-! ### An executor that reads the base fee -/

section

open ThreeBlocks

def chainFee (_ : StateView) (view : BlockContext.View) : Bool :=
  view.baseFee = baseFeeAt 30000000 (fun j => (outcomeAt j).gasUsed) view.number

theorem chainFee_seen (i : ℕ) (_ : i < 3) : Seen chainFee i := decide_eq_true rfl

theorem chainFee_built : (heedingChain le_rfl chainFee_seen).Built := fun i hi =>
  congrArg (fun txs => Except.ok (outcome txs)) (if_pos (chainFee_seen i hi))

/-- The checkpoint, block `1`, used gas; the index says none, and block `2` is refused. -/
theorem replay_refuses_honest_block :
    ¬ ∀ (P : Platform) (chain : Chain P) (q₀ : QmdbStore), chain.StartsFrom q₀ →
      chain.Undestroyed → chain.Built → ∀ (m a : ℕ) (groups : List (List ChangeSet)),
      0 < m → m < a → a ≤ chain.length → groups.flatten = changesUpTo chain.outcome m →
      ∃ restored, Recovery.recoverFinalizedState P
        (LedgerState.init P (q₀.commitGroups groups) (chain.block 0))
        (BlockIndex.new.seedGenesisBlockIndex P (chain.block 0) chain.gasLimit)
        ⟨chain.gasLimit, chain.feeRecipient⟩ (chain.archive a) (some (chain.digest m)) =
          .ok restored ∧ restored.height = a := by
  intro h
  obtain ⟨restored, hres, -⟩ := h (heeding chainFee) (heedingChain le_rfl chainFee_seen)
    QmdbStore.new (heedingChain_startsFrom le_rfl _) (heedingChain_undestroyed le_rfl _)
    chainFee_built 1 2 [[(outcomeAt 1).changes]] (by decide) (by decide) (by decide) rfl
  have hok : Except.isOk _ = true := congrArg Except.isOk hres
  exact absurd hok (by decide +kernel)

end

end Kora
