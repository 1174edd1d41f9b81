/-
Soundness of the vote (`verify` and `verify_block` of `node/runner/src/app.rs`).

A vote should mean that the block, executed on the true state of its parent in its own
context, comes to the root it declares. The node executes on the parent's snapshot, under
the base fee from its cache, and while it catches up it takes blocks that it could not
verify on their certificate.

* `Chain.Valid` — the blocks that come to their declared roots from genesis on;
* `Faithful.life` — careful events keep every snapshot one of a valid block;
* `vote_sound` — hence `verify` accepts only blocks with the right root.
-/
import Kora.Fees
import Kora.Replay

open Std List Option

namespace Kora

open InMemorySnapshotStore QmdbStore ChangeSet Recovery

variable {P : Platform}

/-! ### True states -/

namespace Chain

variable (chain : Chain P)

def nextFee (gasUsed baseFee : ℕ) : ℕ :=
  calculateBaseFee baseFee gasUsed chain.gasLimit BaseFeeParams.DEFAULT

/-- Execute a block in its context on what a history leaves, after a parent with the given gas and
fee. -/
def executeAfter (history : List ChangeSet) (gasUsed baseFee : ℕ) (block : Block) :
    Except String ExecutionOutcome :=
  P.execute (chain.genesis.applyAll history) (environment block chain.gasLimit chain.feeRecipient
    (chain.nextFee gasUsed baseFee) (fun _ => 0)) (block.txs.map (·.bytes))

/-- The block and its ancestors down to genesis come to the roots they declare. The indices are the
change sets up to the block, its gas and its base fee. -/
inductive Valid : Block → List ChangeSet → ℕ → ℕ → Prop
  | genesis : Valid (chain.block 0) [] 0 INITIAL_BASE_FEE
  | child {parent block : Block} {history : List ChangeSet} {gasUsed baseFee : ℕ}
    {outcome : ExecutionOutcome} (hvalid : Valid parent history gasUsed baseFee)
    (hne : block ≠ chain.block 0) (hlink : P.parent block = P.commitment parent)
    (hexec : chain.executeAfter history gasUsed baseFee block = .ok outcome)
    (hroot : StateRoot.transition P.keccak256 parent.stateRoot outcome.changes =
      block.stateRoot) :
    Valid block (history ++ [outcome.changes]) outcome.gasUsed (chain.nextFee gasUsed baseFee)

/-- Executing the block on the true state of its parent, in its own context, yields the root that it
declares. -/
def DeclaresRoot (block : Block) : Prop :=
  ∃ parent history gasUsed baseFee outcome, chain.Valid parent history gasUsed baseFee ∧
    P.parent block = P.commitment parent ∧
    chain.executeAfter history gasUsed baseFee block = .ok outcome ∧
    StateRoot.transition P.keccak256 parent.stateRoot outcome.changes = block.stateRoot

variable {chain}

variable {b : Block} {history : List ChangeSet} {gasUsed baseFee : ℕ}

theorem Valid.cases (h : chain.Valid b history gasUsed baseFee) :
    (b = chain.block 0 ∧ history = [] ∧ gasUsed = 0 ∧ baseFee = INITIAL_BASE_FEE) ∨
      b ≠ chain.block 0 ∧ ∃ parent history' gasUsed' baseFee' outcome,
        chain.Valid parent history' gasUsed' baseFee' ∧ P.parent b = P.commitment parent ∧
        chain.executeAfter history' gasUsed' baseFee' b = .ok outcome ∧
        StateRoot.transition P.keccak256 parent.stateRoot outcome.changes = b.stateRoot ∧
        history = history' ++ [outcome.changes] ∧ gasUsed = outcome.gasUsed ∧
        baseFee = chain.nextFee gasUsed' baseFee' := by
  cases h with
  | genesis => exact .inl ⟨rfl, rfl, rfl, rfl⟩
  | child hv hne hl he hr =>
    exact .inr ⟨hne, _, _, _, _, _, hv, hl, he, hr, rfl, rfl, rfl⟩

theorem Valid.declaresRoot (h : chain.Valid b history gasUsed baseFee) (hne : b ≠ chain.block 0) :
    chain.DeclaresRoot b := by
  rcases h.cases with ⟨rfl, -⟩ | ⟨-, parent, history', gasUsed', baseFee', outcome, hv, hl,
    he, hr, -⟩
  · exact absurd rfl hne
  · exact ⟨parent, history', gasUsed', baseFee', outcome, hv, hl, he, hr⟩

theorem Built.valid (hbuilt : chain.Built) {i : ℕ} (hi : i ≤ chain.length) :
    chain.Valid (chain.block i) (changesUpTo chain.outcome i) (chain.gasUsed i)
      (chain.baseFee i) := by
  induction i with
  | zero =>
    rw [chain.gasUsed_zero]
    exact .genesis
  | succ i ih =>
    have hne : chain.block (i + 1) ≠ chain.block 0 := by
      intro heq
      have hh := chain.height (i + 1) hi
      rw [heq, chain.height 0 (Nat.zero_le _)] at hh
      omega
    have hc := (ih (by omega)).child hne (chain.parent_block hi) (hbuilt i hi) (chain.root i hi)
    rw [changesUpTo_succ]
    exact hc

/-- **The true state of a block of the chain is determined by it**, as its ancestors are. -/
theorem Built.unique (hbuilt : chain.Built) {i : ℕ} (hi : i ≤ chain.length)
    (h : chain.Valid (chain.block i) history gasUsed baseFee) :
    history = changesUpTo chain.outcome i ∧ gasUsed = chain.gasUsed i ∧
      baseFee = chain.baseFee i := by
  induction i generalizing history gasUsed baseFee with
  | zero =>
    rcases h.cases with ⟨-, rfl, rfl, rfl⟩ | ⟨hne, -⟩
    · exact ⟨rfl, chain.gasUsed_zero.symm, rfl⟩
    · exact absurd rfl hne
  | succ i ih =>
    rcases h.cases with ⟨heq, -⟩ | ⟨-, parent, history', gasUsed', baseFee', outcome, hv, hl, he,
      -, rfl, rfl, rfl⟩
    · have hh := chain.height (i + 1) hi
      rw [heq, chain.height 0 (Nat.zero_le _)] at hh
      omega
    · obtain rfl := chain.unique i (by omega) parent (hl.symm.trans (chain.parent_block hi))
      obtain ⟨rfl, rfl, rfl⟩ := ih (by omega) hv
      obtain rfl : chain.outcome (i + 1) = outcome := Except.ok.inj ((hbuilt i hi).symm.trans he)
      exact ⟨(changesUpTo_succ ..).symm, rfl, rfl⟩

end Chain

/-! ### Faithful snapshots -/

/-- The snapshot of a valid block with the given history. If the block continues the `k` committed
blocks, the pending changes reach from there, or from below, to the block. An unmarked one holds its
own changes and its parent. -/
structure ShowsBlock (chain : Chain P) (k : ℕ) (marked : Prop) (s : Snapshot) (b : Block)
    (history : List ChangeSet) : Prop where
  valid : ∃ gasUsed baseFee, chain.Valid b history gasUsed baseFee
  root : s.stateRoot = b.stateRoot
  shown : changesUpTo chain.outcome k <+: history →
    ∃ j ≤ k, s.state = ChangeSet.mergeAll (history.drop j)
  linked : ¬ marked → s.parent = some (P.parent b) ∧ history.getLast? = some s.changes

/-- The first `k` blocks of the chain are committed to the database, which was `q₀` at genesis,
block `k` is the newest marked one, and every snapshot is that of a valid block among those met so
far. -/
structure Faithful (chain : Chain P) (q₀ : QmdbStore) (met : Set Block) (k : ℕ)
    (l : LedgerState) : Prop where
  onChain : ∀ i ≤ chain.length, chain.block i ∈ met
  le : k ≤ chain.length
  marked : chain.digest k ∈ l.snapshots.persisted
  unmarked : chain.UnmarkedAbove k l
  committed : ∃ groups, groups.flatten = changesUpTo chain.outcome k ∧ groups.length ≤ k ∧
    l.qmdb = q₀.commitGroups groups
  snapshots : ∀ d s, l.snapshots.get d = some s → ∃ b ∈ met, ∃ history, P.commitment b = d ∧
    ShowsBlock chain k (d ∈ l.snapshots.persisted) s b history

/-- The history begins with the changes of every marked block, and destroys no account. -/
def Chain.Continues (chain : Chain P) (l : LedgerState) (history : List ChangeSet) : Prop :=
  (∀ ch ∈ history, ch.Undestroyed) ∧
    ∀ i ≤ chain.length, chain.digest i ∈ l.snapshots.persisted →
      changesUpTo chain.outcome i <+: history

namespace ShowsBlock

variable {chain : Chain P} {k i : ℕ} {marked : Prop} {s : Snapshot} {b : Block}
  {history : List ChangeSet}

theorem of_digest (h : ShowsBlock chain k marked s b history) (hbuilt : chain.Built)
    (hi : i ≤ chain.length) (hd : P.commitment b = chain.digest i) :
    b = chain.block i ∧ history = changesUpTo chain.outcome i := by
  obtain rfl := chain.unique i hi b hd
  obtain ⟨gasUsed, baseFee, hv⟩ := h.valid
  exact ⟨rfl, (hbuilt.unique hi hv).1⟩

theorem child (h : ShowsBlock chain k marked s b history)
    (hc : changesUpTo chain.outcome k <+: history) {changes : ChangeSet} {marked' : Prop}
    {block : Block} {txIds : List B256}
    (hv : ∃ gasUsed baseFee, chain.Valid block (history ++ [changes]) gasUsed baseFee) :
    ShowsBlock chain k marked'
      ⟨some (P.parent block), s.state.merge changes, block.stateRoot, changes, txIds⟩ block
      (history ++ [changes]) where
  valid := hv
  root := rfl
  shown _ := by
    obtain ⟨j, hj, hs⟩ := h.shown hc
    have hlen := hc.length_le
    rw [length_changesUpTo] at hlen
    refine ⟨j, hj, ?_⟩
    rw [drop_append_of_le_length (hj.trans hlen), mergeAll_concat, ← hs]
  linked _ := ⟨rfl, getLast?_concat⟩

theorem compact (hbuilt : chain.Built) (hi : i ≤ chain.length) (hik : i ≤ k)
    {parent : Option Digest} {txIds : List B256} (hm : marked) :
    ShowsBlock chain k marked
      ⟨parent, new, (chain.block i).stateRoot, new, txIds⟩ (chain.block i)
      (changesUpTo chain.outcome i) where
  valid := ⟨_, _, hbuilt.valid hi⟩
  root := rfl
  shown _ := by
    refine ⟨i, hik, ?_⟩
    rw [drop_of_length_le (length_changesUpTo ..).le]
    rfl
  linked hnot := absurd hm hnot

end ShowsBlock

namespace Faithful

variable {chain : Chain P} {q₀ : QmdbStore} {met : Set Block} {k : ℕ} {l : LedgerState}

variable (h : Faithful chain q₀ met k l)
include h

theorem eq_of_newest {m : ℕ} (hm : m ≤ chain.length)
    (hmr : chain.digest m ∈ l.snapshots.persisted) (hu : chain.UnmarkedAbove m l) :
    m = k := by
  rcases Nat.lt_trichotomy m k with hlt | heq | hgt
  · exact absurd h.marked (hu k hlt h.le)
  · exact heq
  · exact absurd hmr (h.unmarked m hgt hm)

/-- **What a snapshot shows** is the true state of its block, if the block continues what is
committed. -/
theorem view (hq : chain.StartsFrom q₀) {marked : Prop} {s : Snapshot} {b : Block}
    {history : List ChangeSet} (hs : ShowsBlock chain k marked s b history)
    (hc : chain.Continues l history) {address : Address}
    (ha : address ≠ COMMIT_SEQ_ACCOUNT_KEY) :
    l.snapshotView s address = chain.genesis.applyAll history address := by
  obtain ⟨groups, hf, hlen, hqm⟩ := h.committed
  have hp := hc.2 k h.le h.marked
  obtain ⟨j, hj, hst⟩ := hs.shown hp
  have hr := hq.room address ha
  have hle := h.le
  rw [LedgerState.snapshotView, hqm, hst, hq.genesis]
  refine reads_pending_history hq.clean hc.1 (hf ▸ hp) ?_ ha (by omega)
  rw [hf, length_changesUpTo]
  exact hj

theorem insertExecuted {block : Block} (hblock : block ∈ met) {parent : Snapshot}
    {changes : ChangeSet} {history : List ChangeSet}
    (hnew : ShowsBlock chain k (P.commitment block ∈ l.snapshots.persisted)
      ⟨some (P.parent block), parent.state.merge changes, block.stateRoot, changes,
        block.txs.map P.txId⟩ block history) :
    Faithful chain q₀ met k (l.insertExecuted P block parent changes) := by
  refine ⟨h.onChain, h.le, h.marked, h.unmarked, h.committed, fun d s hs => ?_⟩
  rw [LedgerState.get_insertExecuted] at hs
  split at hs
  · next heq =>
    obtain rfl := some.inj hs
    subst heq
    exact ⟨block, hblock, history, rfl, hnew⟩
  · exact h.snapshots d s hs

theorem le_of_unmarkedAbove {i : ℕ} (hi : chain.UnmarkedAbove i l) : k ≤ i := by
  by_contra hlt
  exact hi k (by omega) h.le h.marked

variable (hbuilt : chain.Built)
include hbuilt

theorem finalized {i : ℕ} (hi : i < chain.length) (hki : k ≤ i)
    {context : BlockContext} {parent : Snapshot} {outcome : ExecutionOutcome}
    (he : l.executeOnParent P context (chain.block (i + 1)) = .ok (parent, outcome)) :
    Faithful chain q₀ met k (l.insertExecuted P (chain.block (i + 1)) parent outcome.changes) := by
  obtain ⟨hget, hrun, hr⟩ := (LedgerState.executeOnParent_ok P).1 he
  rw [chain.parent_block hi] at hget
  obtain ⟨b, -, history, hdg, hs⟩ := h.snapshots _ _ hget
  obtain ⟨rfl, rfl⟩ := hs.of_digest hbuilt hi.le hdg
  rw [hs.root] at hr
  have hc : outcome.changes = chain.changes (i + 1) := chain.binds i hi _ _ _ hrun hr
  refine h.insertExecuted (h.onChain (i + 1) hi) (hs.child (changesUpTo_initial _ hki) ?_)
  rw [hc, Chain.changes, ← changesUpTo_succ]
  exact ⟨_, _, hbuilt.valid hi⟩

theorem restorePersistedSnapshot {i : ℕ} (hik : i ≤ k) :
    Faithful chain q₀ met k (l.restorePersistedSnapshot P (chain.block i)) := by
  have hi : i ≤ chain.length := hik.trans h.le
  have hm := l.mem_persisted_restorePersistedSnapshot P (chain.block i)
  refine ⟨h.onChain, h.le, (hm _).2 (.inr h.marked), fun j hkj hj hmem => ?_, h.committed,
    fun d s hs => ?_⟩
  · rcases (hm _).1 hmem with heq | hold
    · have hji : j = i := chain.digest_inj hj hi heq
      omega
    · exact h.unmarked j hkj hj hold
  · rw [LedgerState.get_restorePersistedSnapshot] at hs
    split at hs
    · next heq =>
      obtain rfl := some.inj hs
      subst heq
      exact ⟨chain.block i, h.onChain i hi, _, rfl, .compact hbuilt hi hik ((hm _).2 (.inl rfl))⟩
    · obtain ⟨b, hb, history, hd, hsh⟩ := h.snapshots d s hs
      refine ⟨b, hb, history, hd, hsh.valid, hsh.root, hsh.shown, fun hnot => ?_⟩
      exact hsh.linked fun hmem => hnot ((hm d).2 (.inr hmem))

theorem walk_eq {j fuel : ℕ} (hkj : k ≤ j)
    (hj : j ≤ chain.length) {entries : List (Digest × ChangeSet)}
    (hw : l.snapshots.walk fuel (some (chain.digest j)) = .ok entries) :
    entries = chainSegment chain.digest chain.changes k j := by
  refine walk_above (n := chain.length) (fun i hki hi => ?_) (fun i hi hki s hs => ?_) hkj hj hw
  · refine ⟨fun hmem => ?_, fun heq => heq ▸ h.marked⟩
    by_contra hne
    exact h.unmarked i (by omega) hi hmem
  · obtain ⟨b, -, history, hdg, hsh⟩ := h.snapshots _ s hs
    obtain ⟨rfl, rfl⟩ := hsh.of_digest hbuilt hi hdg
    obtain ⟨hp, hl⟩ := hsh.linked (h.unmarked (i + 1) (by omega) hi)
    rw [changesUpTo_succ, getLast?_concat] at hl
    exact ⟨by rw [hp, chain.parent_block hi], (some.inj hl).symm⟩

theorem persistSnapshot {j : ℕ} (hj : j ≤ chain.length)
    (ho : chain.digest j ∈ l.snapshots.persisted ∨ chain.UnmarkedAbove j l) :
    ∃ k', Faithful chain q₀ met k' (l.persistSnapshot (chain.digest j)).1 := by
  rcases ho with hmr | hu
  · rw [LedgerState.persistSnapshot_of_persisted hmr]
    exact ⟨k, h⟩
  have hkj := h.le_of_unmarkedAbove hu
  rcases l.persistSnapshot_cases (chain.digest j) with hsm | ⟨entries, hw, hc⟩
  · rw [hsm]
    exact ⟨k, h⟩
  obtain rfl := h.walk_eq hbuilt hkj hj hw
  obtain ⟨groups, hf, hlen, hq⟩ := h.committed
  refine ⟨j, h.onChain, hj, ?_, fun i hji hi => ?_, ?_, fun d s hs => ?_⟩
  · rw [hc.persisted, mem_chainSegment]
    rcases Nat.lt_or_ge k j with hlt | hge
    · exact .inl ⟨j, hlt, le_rfl, rfl⟩
    · obtain rfl : k = j := by omega
      exact .inr h.marked
  · rw [hc.persisted, mem_chainSegment]
    rintro (⟨i', -, hi', heq⟩ | hmem)
    · have hsm := chain.digest_inj hi (hi'.trans hj) heq
      omega
    · exact h.unmarked i (by omega) hi hmem
  · obtain ⟨groups', hf', hlen', hsm⟩ := chain.commitGroups_segment hkj hf hlen
    exact ⟨groups', hf', hlen', by rw [hc.qmdb, hq, hsm]⟩
  · have hm := hc.persisted d
    obtain ⟨s₀, hs₀, hcs⟩ := hc.snapshots d s hs
    obtain ⟨b, hb, history, hdg, hsh⟩ := h.snapshots d s₀ hs₀
    refine ⟨b, hb, history, hdg, ?_⟩
    rcases hcs with ⟨hmem, rfl⟩ | rfl
    · -- a compacted snapshot is one of the chain, at or below the new end of what is committed
      obtain ⟨i, -, hij, rfl⟩ := mem_chainSegment.1 hmem
      obtain ⟨rfl, rfl⟩ := hsh.of_digest hbuilt (hij.trans hj) hdg
      have hcm : ShowsBlock chain j _ ⟨s₀.parent, new, (chain.block i).stateRoot,
          new, s₀.txIds⟩ (chain.block i) (changesUpTo chain.outcome i) :=
        .compact hbuilt (hij.trans hj) hij (hm.2 (.inl hmem))
      rw [← hsh.root] at hcm
      exact hcm
    · refine ⟨hsh.valid, hsh.root, fun hp => ?_, fun hnot => ?_⟩
      · obtain ⟨j', hj', hst⟩ := hsh.shown ((changesUpTo_initial _ hkj).trans hp)
        exact ⟨j', hj'.trans hkj, hst⟩
      · exact hsh.linked fun hmem => hnot (hm.2 (.inr hmem))

end Faithful

/-! ### What keeps snapshots faithful -/

/-- The block is not taken on a certificate, its fee is cached, and its parent continues what is
committed. -/
structure Node.Verifiable (chain : Chain P) (node : Node) (block : Block) : Prop where
  notGenesis : block ≠ chain.block 0
  executes : ¬ node.app.Trusts P node.ledger block
  parent : ∀ parent history gasUsed baseFee, chain.Valid parent history gasUsed baseFee →
    P.commitment parent = P.parent block →
    node.app.computeBaseFee (P.parent block) = chain.nextFee gasUsed baseFee ∧
      chain.Continues node.ledger history

/-- Blocks that are new to the ledger are verifiable. The finalizer restores no block, and executes
and persists blocks above all marks, or finds them marked. A restart stands on the newest marked
block. -/
def Lifecycle.Careful (chain : Chain P) (node : Node) : Lifecycle → Prop
  | live (.verify block _ _) => (node.ledger.queryStateRoot (P.commitment block)).isSome ∨
      node.Verifiable chain block
  | live (.finalize block _) => ¬ FinalizedReporter.Restores P node.ledger block ∧
      ∀ i < chain.length, block = chain.block (i + 1) → chain.UnmarkedAbove i node.ledger ∨
        (node.ledger.queryStateRoot (chain.digest (i + 1))).isSome ∧
          chain.digest (i + 1) ∈ node.ledger.snapshots.persisted
  | live (.persist digest) => ∀ i ≤ chain.length, digest = chain.digest i →
      chain.digest i ∈ node.ledger.snapshots.persisted ∨ chain.UnmarkedAbove i node.ledger
  | live (.build ..) => True
  | restart archived marker => (∀ m, marker = some m → m ≤ archived) ∧
      chain.digest (marker.getD archived) ∈ node.ledger.snapshots.persisted ∧
      chain.UnmarkedAbove (marker.getD archived) node.ledger

/-- The database starts at genesis, the chain was built, and execution ignores the database's
counter. -/
structure Sound (chain : Chain P) (q₀ : QmdbStore) : Prop where
  starts : chain.StartsFrom q₀
  built : chain.Built
  sentinel : P.SkipsSentinel

/-- A block that is verified is one of those. -/
def Node.Op.Meets (met : Set Block) : Node.Op → Prop
  | .verify block _ _ => block ∈ met
  | _ => True

def Lifecycle.Meets (met : Set Block) : Lifecycle → Prop
  | live op => op.Meets met
  | restart .. => True

namespace Faithful

variable {chain : Chain P} {q₀ : QmdbStore} {met : Set Block} {k : ℕ} {node : Node}

variable (h : Faithful chain q₀ met k node.ledger)
include h

theorem verified (hsn : Sound chain q₀)
    (hp : node.provider = ⟨chain.gasLimit, chain.feeRecipient⟩) {block : Block}
    (hblock : block ∈ met) (hver : node.Verifiable chain block) {parent : Snapshot}
    {outcome : ExecutionOutcome}
    (he : node.ledger.executeOnParent P (node.app.verifyContext P block) block =
      .ok (parent, outcome)) :
    Faithful chain q₀ met k (node.ledger.insertExecuted P block parent outcome.changes) := by
  obtain ⟨hget, hrun, hrt⟩ := (LedgerState.executeOnParent_ok P).1 he
  obtain ⟨b, -, history, hd, hs⟩ := h.snapshots _ _ hget
  obtain ⟨gasUsed, baseFee, hv⟩ := hs.valid
  obtain ⟨hfee, hc⟩ := hver.parent b history gasUsed baseFee hv hd
  obtain ⟨hgas, hr⟩ := (RevmContextProvider.mk.injEq ..).mp hp
  -- on the true state of the parent, in the block's own context, the executor returns the same
  have he' : chain.executeAfter history gasUsed baseFee block = .ok outcome := by
    rw [Platform.executeBlock, view_verifyContext, hfee, hgas, hr] at hrun
    rw [Chain.executeAfter, ← hrun]
    exact hsn.sentinel _ _ _ _ fun address ha => (h.view hsn.starts hs hc ha).symm
  rw [hs.root] at hrt
  exact h.insertExecuted hblock (hs.child (hc.2 k h.le h.marked)
    ⟨_, _, hv.child hver.notGenesis hd.symm he' hrt⟩)

theorem ensureSnapshot (hsn : Sound chain q₀) {i : ℕ} (hi : i < chain.length)
    (hr : ¬ FinalizedReporter.Restores P node.ledger (chain.block (i + 1)))
    (ho : chain.UnmarkedAbove i node.ledger ∨
      (node.ledger.queryStateRoot (chain.digest (i + 1))).isSome ∧
        chain.digest (i + 1) ∈ node.ledger.snapshots.persisted) {l : LedgerState}
    (hl : l = (FinalizedReporter.ensureSnapshot P node.ledger node.index
      node.provider true (chain.block (i + 1))).1) :
    Faithful chain q₀ met k l ∧
      (chain.digest (i + 1) ∈ l.snapshots.persisted ∨ chain.UnmarkedAbove (i + 1) l) := by
  rcases ho with hu | ⟨hk, hm⟩
  · have ha : chain.UnmarkedAbove (i + 1) node.ledger := fun j hj => hu j (by omega)
    rcases FinalizedReporter.ensureSnapshot_cases P node.ledger node.index node.provider true
      (chain.block (i + 1)) with ⟨hs, -⟩ | ⟨hrs, -⟩ | ⟨parent, outcome, he, hres⟩
    · rw [hl, hs]
      exact ⟨h, .inr ha⟩
    · exact absurd hrs hr
    · rw [hl, hres]
      exact ⟨h.finalized hsn.built hi (h.le_of_unmarkedAbove hu) he,
        .inr ha⟩
  · have hs : l = node.ledger := hl.trans (FinalizedReporter.ensureSnapshot_known P hk _ _ _)
    rw [hs]
    exact ⟨h, .inl hm⟩

theorem step (hs : Sound chain q₀)
    (hp : node.provider = ⟨chain.gasLimit, chain.feeRecipient⟩) {op : Node.Op}
    (hch : op.OnChain chain) (hmet : op.Meets met) (hc : (Lifecycle.live op).Careful chain node) :
    ∃ k', Faithful chain q₀ met k' (node.step P op).ledger := by
  cases op with
  | build mempool seeds parent timestamp => exact ⟨k, h⟩
  | verify block parentTimestamp nowSecs =>
    refine ⟨k, ?_⟩
    rcases node.app.verifyBlock_cases P node.ledger block parentTimestamp nowSecs
      with ⟨height, ok, hres⟩ | ⟨ht, -⟩ | ⟨parent, outcome, he, hnone, hres⟩
    · rw [Node.step, hres]
      exact h
    · rcases hc with hk | hver
      · rw [ht.2.1] at hk
        cases hk
      · exact absurd ht hver.executes
    · rw [Node.step, hres]
      rcases hc with hk | hver
      · rw [hnone] at hk
        cases hk
      · exact h.verified hs hp hmet hver he
  | finalize block persistCheckpoint =>
    obtain ⟨i, hi, rfl⟩ := hch
    obtain ⟨hf, ho⟩ := h.ensureSnapshot hs hi hc.1 (hc.2 i hi rfl) rfl
    rw [Node.step, FinalizedReporter.handleFinalizedUpdate_ledger]
    rcases FinalizedReporter.finalizeBlock_ledger P node.ledger node.index node.provider true
      (chain.block (i + 1)) persistCheckpoint with hres | hres
    · rw [hres]
      exact ⟨k, hf⟩
    · rw [hres]
      exact hf.persistSnapshot hs.built hi ho
  | persist digest =>
    obtain ⟨i, hi, rfl⟩ := hch
    exact h.persistSnapshot hs.built hi (hc i hi rfl)

end Faithful

/-! ### A restart -/

namespace Faithful

variable {chain : Chain P} {q₀ : QmdbStore} {met : Set Block} {k : ℕ} {l : LedgerState}

theorem init (chain : Chain P) (q₀ : QmdbStore) (hmet : ∀ i ≤ chain.length, chain.block i ∈ met) :
    Faithful chain q₀ met 0 (LedgerState.init P q₀ (chain.block 0)) := by
  have hm := LedgerState.mem_persisted_init P q₀ (chain.block 0)
  refine ⟨hmet, Nat.zero_le _, (hm _).2 rfl, fun j hj hlen hmem => ?_, ⟨[], rfl, le_rfl, rfl⟩,
    fun d s hs => ?_⟩
  · exact absurd ((hm _).1 hmem).symm (chain.digest_ne_of_lt hj hlen)
  · rw [LedgerState.get_init] at hs
    split at hs
    · next heq =>
      obtain rfl := some.inj hs
      subst heq
      exact ⟨chain.block 0, hmet 0 (Nat.zero_le _), [], rfl, ⟨_, _, .genesis⟩, rfl,
        fun _ => ⟨0, le_rfl, rfl⟩, fun hnot => absurd ((hm _).2 rfl) hnot⟩
    · cases hs

theorem init_restore (hbuilt : chain.Built) (hmet : ∀ i ≤ chain.length, chain.block i ∈ met)
    (hk : k ≤ chain.length)
    {groups : List (List ChangeSet)} (hf : groups.flatten = changesUpTo chain.outcome k)
    (hlen : groups.length ≤ k) :
    Faithful chain q₀ met k ((LedgerState.init P (q₀.commitGroups groups)
      (chain.block 0)).restorePersistedSnapshot P (chain.block k)) := by
  have hm : ∀ d, d ∈ ((LedgerState.init P (q₀.commitGroups groups)
      (chain.block 0)).restorePersistedSnapshot P (chain.block k)).snapshots.persisted ↔
      d = chain.digest k ∨ d = chain.digest 0 := by
    intro d
    rw [LedgerState.mem_persisted_restorePersistedSnapshot, LedgerState.mem_persisted_init]
    rfl
  refine ⟨hmet, hk, (hm _).2 (.inl rfl), fun j hj hjl hmem => ?_, ⟨groups, hf, hlen, rfl⟩,
    fun d s hs => ?_⟩
  · rcases (hm _).1 hmem with heq | heq
    · exact absurd heq.symm (chain.digest_ne_of_lt hj hjl)
    · exact absurd heq.symm (chain.digest_ne_of_lt (Nat.zero_lt_of_lt hj) hjl)
  · rw [LedgerState.get_restorePersistedSnapshot, LedgerState.get_init] at hs
    split at hs
    · next heq =>
      obtain rfl := some.inj hs
      subst heq
      exact ⟨chain.block k, hmet k hk, _, rfl, .compact hbuilt hk le_rfl ((hm _).2 (.inl rfl))⟩
    · split at hs
      · next heq =>
        obtain rfl := some.inj hs
        subst heq
        exact ⟨chain.block 0, hmet 0 (Nat.zero_le _), _, rfl,
          .compact hbuilt (Nat.zero_le _) (Nat.zero_le k) ((hm _).2 (.inr rfl))⟩
      · cases hs

theorem replayTail (h : Faithful chain q₀ met k l) (hbuilt : chain.Built)
    {a : ℕ} (hka : k ≤ a) (ha : a ≤ chain.length)
    {provider : RevmContextProvider} {index : BlockIndex} {restored : Recovery.Restored}
    (hres : replayTail P provider (chain.archive a) (a - k) (k + 1)
      ⟨l, index, k, chain.digest k, false⟩ = .ok restored) :
    Faithful chain q₀ met k restored.ledger := by
  obtain ⟨⟨-, hf⟩, -⟩ := replayTail_induction ha
    (fun r l _ => k ≤ r ∧ Faithful chain q₀ met k l) (by
      rintro r l index l' index' hra ⟨hkr, h⟩ hb
      refine ⟨hkr.trans (Nat.le_succ r), ?_⟩
      by_cases hk : (l.queryStateRoot (P.commitment (chain.block (r + 1)))).isSome = true
      · rw [replayFinalizedBlock, if_pos hk] at hb
        obtain ⟨rfl, -⟩ := Prod.mk.inj (Except.ok.inj hb)
        exact h
      · obtain ⟨parent, outcome, he, rfl, -⟩ :=
          replayFinalizedBlock_ok (by simpa using hk) hb
        exact h.finalized hbuilt (by omega) hkr he) ⟨le_rfl, h⟩
      (Nat.add_sub_cancel' hka) hres
  exact hf

theorem prepopulateSnapshotCache (h : Faithful chain q₀ met k l) (hbuilt : chain.Built) {a : ℕ}
    {heights : List ℕ} (hh : ∀ height ∈ heights, height ≤ k) :
    Faithful chain q₀ met k (prepopulateSnapshotCache P (chain.archive a) heights l) := by
  induction heights generalizing l with
  | nil => exact h
  | cons height heights ih =>
    have hr := fun height hmem => hh height (mem_cons_of_mem _ hmem)
    rw [prepopulateSnapshotCache, chain.getElem?_archive]
    split
    · exact h
    · next block hget =>
      split at hget
      · obtain rfl := some.inj hget
        refine ih ?_ hr
        split
        · exact h
        · exact h.restorePersistedSnapshot hbuilt (hh height mem_cons_self)
      · cases hget

theorem restart (h : Faithful chain q₀ met k l) (hbuilt : chain.Built)
    {a : ℕ} (ha : a ≤ chain.length) {marker : Option ℕ}
    (hmr : ∀ m, marker = some m → 0 < m ∧ m ≤ chain.length)
    (har : ∀ m, marker = some m → m ≤ a) (hk : marker.getD a = k) {gasLimit maxTxs : ℕ}
    {feeRecipient : Address} {node : Node}
    (hres : Node.restart P l.qmdb (chain.block 0) maxTxs gasLimit feeRecipient (chain.archive a)
      (marker.map chain.digest) = .ok node) : Faithful chain q₀ met k node.ledger := by
  obtain ⟨groups, hfl, hlen, hq⟩ := h.committed
  have hr : Faithful chain q₀ met k ((LedgerState.init P (q₀.commitGroups groups)
      (chain.block 0)).restorePersistedSnapshot P (chain.block k)) :=
    init_restore hbuilt h.onChain h.le hfl hlen
  rw [Node.restart, hq] at hres
  split at hres
  · cases hres
  · next restored hrec =>
    have hrs : Faithful chain q₀ met k restored.ledger ∧
        (restored.replayedTail = true ∨ restored.height = k) := by
      rcases Recovery.recoverFinalizedState_cases ha hmr hrec with
        ⟨rfl, rfl⟩ | ⟨hpos, rfl, rfl⟩ | ⟨m, rfl, hpos, hma, hrp⟩
      · -- an empty archive, and so no marker and no commit
        have hnone : marker = none := by
          refine eq_none_iff_forall_ne_some.2 fun m hm => ?_
          have hpos := (hmr m hm).1
          have hzero := har m hm
          omega
        obtain rfl : k = 0 := by rw [← hk, hnone, getD_none]
        obtain rfl : groups = [] := eq_nil_of_length_eq_zero (by omega)
        exact ⟨init chain q₀ h.onChain, .inr rfl⟩
      · obtain rfl : a = k := hk
        exact ⟨hr, .inr rfl⟩
      · obtain rfl : m = k := hk
        refine ⟨hr.replayTail hbuilt hma ha hrp, ?_⟩
        rcases Recovery.replayTail_replayed_or_same ha hma hrp with hrl | ⟨rfl, rfl⟩
        · exact .inl hrl
        · exact .inr rfl
    obtain ⟨hf, ht⟩ := hrs
    split at hres
    · obtain rfl := Except.ok.inj hres
      exact hf
    · obtain rfl := Except.ok.inj hres
      dsimp only
      split
      · exact hf
      · next hnone =>
        have hh := ht.resolve_left hnone
        refine hf.prepopulateSnapshotCache hbuilt fun height hmem => ?_
        rw [mem_range'_1] at hmem
        omega

theorem life {node : Node} (h : Faithful chain q₀ met k node.ledger) (hs : Sound chain q₀)
    (hp : node.provider = ⟨chain.gasLimit, chain.feeRecipient⟩) {event : Lifecycle}
    (hc : event.OnChain chain) (hmet : event.Meets met) (hcr : event.Careful chain node) :
    ∃ k', Faithful chain q₀ met k' (event.step chain node).ledger := by
  cases event with
  | live op => exact h.step hs hp hc hmet hcr
  | restart archived marker =>
    rw [Lifecycle.step]
    split
    · next node' hres =>
      obtain ⟨ha, hm, hu⟩ := hcr
      have hle : marker.getD archived ≤ chain.length := by
        cases marker with
        | none => exact hc.1
        | some m => exact (hc.2 m rfl).2
      have hk := h.eq_of_newest hle hm hu
      exact ⟨k, h.restart hs.built hc.1 hc.2 ha hk hres⟩
    · exact ⟨k, h⟩

end Faithful

/-! ### The vote -/

namespace Node

/-- Verifications one after the other, as operations of the node. -/
def verifyOps (nowSecs : ℕ) : Option ℕ → List Block → List Op
  | _, [] => []
  | parentTimestamp, block :: blocks =>
    .verify block parentTimestamp nowSecs :: verifyOps nowSecs (some block.timestamp) blocks

/-- The verifications that a vote on an ancestry takes. -/
def voteOps (P : Platform) (node : Node) (ancestry : List Block) (nowSecs : ℕ) : List Op :=
  let (blocks, parentTimestamp) := RevmApplication.collectUnverified P node.ledger ancestry
  verifyOps nowSecs parentTimestamp blocks.reverse

theorem verifyBlocks_accepted {nowSecs : ℕ} {blocks : List Block} {node : Node}
    {parentTimestamp : Option ℕ}
    (h : (node.app.verifyBlocks P node.ledger parentTimestamp nowSecs blocks).2.2 = true)
    {block : Block} (hl : blocks.getLast? = some block) :
    (((verifyOps nowSecs parentTimestamp blocks).foldl (Node.step P) node).ledger.queryStateRoot
      (P.commitment block)).isSome = true := by
  induction blocks generalizing node parentTimestamp with
  | nil => cases hl
  | cons b blocks ih =>
    rw [RevmApplication.verifyBlocks] at h
    rw [verifyOps, foldl_cons]
    split at h
    · cases h
    · next app ledger hres =>
      have hs : node.step P (.verify b parentTimestamp nowSecs) =
          { node with app := app, ledger := ledger } := by
        rw [step, hres]
      rw [hs]
      cases blocks with
      | nil =>
        obtain rfl : b = block := some.inj hl
        have ha : (node.app.verifyBlock P node.ledger b parentTimestamp nowSecs).2.2 =
            true := by rw [hres]
        have hk := RevmApplication.verifyBlock_accepted P ha
        rw [hres] at hk
        exact hk
      | cons b' blocks =>
        rw [getLast?_cons_cons] at hl
        have hr : (({ node with app := app, ledger := ledger } : Node).app.verifyBlocks P ledger
            (some b.timestamp) nowSecs (b' :: blocks)).2.2 = true := h
        exact ih hr hl

theorem verify_accepted {node : Node} {block : Block} {older : List Block} {nowSecs : ℕ}
    (h : (node.app.verify P node.ledger (block :: older) nowSecs).2.2 = true) :
    (((node.voteOps P (block :: older) nowSecs).foldl (Node.step P) node).ledger.queryStateRoot
      (P.commitment block)).isSome = true := by
  rw [RevmApplication.verify, RevmApplication.collectUnverified] at h
  rw [voteOps, RevmApplication.collectUnverified]
  by_cases hk : (node.ledger.queryStateRoot (P.commitment block)).isSome = true
  · rw [if_pos hk]
    exact hk
  · rw [if_neg hk] at h ⊢
    refine verifyBlocks_accepted h ?_
    rw [reverse_cons, getLast?_concat]

end Node

theorem Node.mem_verifyOps {nowSecs : ℕ} {blocks : List Block} {parentTimestamp : Option ℕ}
    {op : Node.Op} (h : op ∈ Node.verifyOps nowSecs parentTimestamp blocks) :
    ∃ block ∈ blocks, ∃ timestamp, op = .verify block timestamp nowSecs := by
  induction blocks generalizing parentTimestamp with
  | nil => cases h
  | cons block blocks ih =>
    rcases mem_cons.1 h with rfl | hr
    · exact ⟨block, mem_cons_self, _, rfl⟩
    · obtain ⟨block', hb, timestamp, rfl⟩ := ih hr
      exact ⟨block', mem_cons_of_mem _ hb, timestamp, rfl⟩

theorem RevmApplication.mem_of_mem_collectUnverified {l : LedgerState} {ancestry : List Block}
    {b : Block} (h : b ∈ (collectUnverified P l ancestry).1) : b ∈ ancestry := by
  induction ancestry with
  | nil => cases h
  | cons block ancestry ih =>
    rw [collectUnverified] at h
    split at h
    · cases h
    · rcases mem_cons.1 h with rfl | hr
      · exact mem_cons_self
      · exact mem_cons_of_mem _ (ih hr)

theorem Node.mem_voteOps {node : Node} {ancestry : List Block} {nowSecs : ℕ} {op : Node.Op}
    (h : op ∈ node.voteOps P ancestry nowSecs) :
    ∃ block ∈ ancestry, ∃ timestamp, op = .verify block timestamp nowSecs := by
  obtain ⟨b, hb, timestamp, rfl⟩ := Node.mem_verifyOps h
  exact ⟨b, RevmApplication.mem_of_mem_collectUnverified (mem_reverse.1 hb), timestamp, rfl⟩

/-- **A vote is sound.** In every careful life, and in every state reached, a vote whose
verifications are careful is for a block that comes to the root it declares, executed on the true
state of its parent in its own context. It is not the genesis block, and no two of the blocks met
have the same digest. -/
theorem vote_sound {chain : Chain P} {q₀ : QmdbStore} (hsound : Sound chain q₀) {met : Set Block}
    (hmet : ∀ i ≤ chain.length, chain.block i ∈ met) (hdigests : met.InjOn P.commitment)
    {maxTxs recoveredHeight : ℕ} {life : List Lifecycle}
    (hchain : ∀ event ∈ life, event.OnChain chain ∧ event.Meets met)
    (hrun : Run.Along (fun node event => Lifecycle.step chain node event)
      (fun node event => Lifecycle.Careful chain node event)
      (Node.start P q₀ (chain.block 0) maxTxs chain.gasLimit chain.feeRecipient recoveredHeight)
      life) (node : Node)
    (hnode : node = life.foldl (fun node event => Lifecycle.step chain node event)
      (Node.start P q₀ (chain.block 0) maxTxs chain.gasLimit chain.feeRecipient recoveredHeight))
    {block : Block} {older : List Block} (hvoted : ∀ b ∈ block :: older, b ∈ met) {nowSecs : ℕ}
    (hnew : block ≠ chain.block 0)
    (hcareful : Run.Along (Node.step P) (fun node op => (Lifecycle.live op).Careful chain node) node
      (node.voteOps P (block :: older) nowSecs))
    (hvote : (node.app.verify P node.ledger (block :: older) nowSecs).2.2 = true) :
    chain.DeclaresRoot block := by
  have hr : node.provider = ⟨chain.gasLimit, chain.feeRecipient⟩ ∧
      ∃ k, Faithful chain q₀ met k node.ledger := by
    rw [hnode]
    refine (hrun.and_forall hchain).history (fun _ node =>
      node.provider = ⟨chain.gasLimit, chain.feeRecipient⟩ ∧
        ∃ k, Faithful chain q₀ met k node.ledger) ⟨rfl, 0, Faithful.init chain q₀ hmet⟩ ?_
    rintro - node event ⟨hp, k, h⟩ ⟨⟨he, hm⟩, hcareful⟩
    exact ⟨(event.provider_step chain node).trans hp, h.life hsound hp he hm hcareful⟩
  have hops : ∀ op ∈ node.voteOps P (block :: older) nowSecs, op.OnChain chain ∧ op.Meets met := by
    intro op hop
    obtain ⟨b, hb, timestamp, rfl⟩ := Node.mem_voteOps hop
    exact ⟨trivial, hvoted b hb⟩
  have hvt : ((node.voteOps P (block :: older) nowSecs).foldl (Node.step P) node).provider =
      ⟨chain.gasLimit, chain.feeRecipient⟩ ∧ ∃ k, Faithful chain q₀ met k
        ((node.voteOps P (block :: older) nowSecs).foldl (Node.step P) node).ledger := by
    refine (hcareful.and_forall hops).history (fun _ node =>
      node.provider = ⟨chain.gasLimit, chain.feeRecipient⟩ ∧
        ∃ k, Faithful chain q₀ met k node.ledger) hr ?_
    rintro - node op ⟨hp, k, h⟩ ⟨⟨hop, hm⟩, hcareful⟩
    exact ⟨(node.provider_step op).trans hp, h.step hsound hp hop hm hcareful⟩
  -- the tip has a snapshot now, which is that of a valid block with its digest
  obtain ⟨-, k, h⟩ := hvt
  have hk := Node.verify_accepted hvote
  rw [LedgerState.queryStateRoot, isSome_map] at hk
  obtain ⟨s, hs⟩ := isSome_iff_exists.1 hk
  obtain ⟨b, hmem, history, hb, hsh⟩ := h.snapshots _ s hs
  obtain ⟨gasUsed, baseFee, hv⟩ := hsh.valid
  obtain rfl := hdigests hmem (hvoted block mem_cons_self) hb
  exact hv.declaresRoot hnew

section

open ThreeBlocks

namespace ThreeBlocks

theorem sound : Sound (chain 0 (by decide)) QmdbStore.new where
  starts := startsFrom _
  built i hi := absurd hi (Nat.not_lt_zero i)
  sentinel _ _ _ _ _ := rfl

def fresh : Node := Node.start platform QmdbStore.new (block 0) 10 30000000 0 0

theorem verifiable : fresh.Verifiable (chain 0 (by decide)) (block 1) where
  notGenesis := by decide
  executes ht := absurd ht.1 (by decide +kernel)
  parent parent history gasUsed fee hv hd := by
    obtain rfl := eq_block_of_commitment (i := 0) (by decide) hd
    obtain ⟨rfl, rfl, rfl⟩ := sound.built.unique (Nat.zero_le 0) hv
    refine ⟨by decide +kernel, fun ch hch => absurd hch not_mem_nil, fun i hi _ => ?_⟩
    obtain rfl := Nat.le_zero.1 hi
    exact nil_prefix

end ThreeBlocks

/-- A fresh node votes for the block after genesis. -/
theorem vote_sound_first :
    (fresh.app.verify platform fresh.ledger [block 1, block 0] 0).2.2 = true ∧
      (chain 0 (by decide)).DeclaresRoot (block 1) := by
  have hv : (fresh.app.verify platform fresh.ledger [block 1, block 0] 0).2.2 = true := by
    decide +kernel
  have hl : ∀ event ∈ ([] : List Lifecycle), event.OnChain (chain 0 (by decide)) ∧
      event.Meets {block 0, block 1} := fun event he => absurd he not_mem_nil
  have hmet : ∀ i ≤ 0, block i ∈ ({block 0, block 1} : Set Block) := fun i hi =>
    .inl (congrArg block (Nat.le_zero.1 hi))
  have hdigests : ({block 0, block 1} : Set Block).InjOn platform.commitment := by
    rintro b - b' (rfl | rfl) heq
    · exact eq_block_of_commitment (by decide) heq
    · exact eq_block_of_commitment (by decide) heq
  have hops : fresh.voteOps platform [block 1, block 0] 0 = [.verify (block 1) (some 0) 0] := by
    rw [Node.voteOps, RevmApplication.collectUnverified, if_neg (by decide +kernel),
      RevmApplication.collectUnverified, if_pos (by decide +kernel)]
    rfl
  refine ⟨hv, vote_sound sound hmet hdigests hl trivial fresh rfl (fun b hb => ?_) (by decide) ?_
    hv⟩
  · rcases mem_cons.1 hb with rfl | hb
    · exact .inr rfl
    · exact .inl (mem_singleton.1 hb)
  · rw [hops]
    exact ⟨.inr verifiable, trivial⟩

end

/-! ### A wrong root -/

namespace ThreeBlocks

/-- A child of the first block that declares a root which no execution comes to. -/
def forged : Block :=
  { parentId := 2, height := 2, timestamp := 0, prevrandao := 0, stateRoot := 99
    txs := [⟨[2]⟩] }

theorem not_declaresRoot_forged : ¬ (chain 1 (by decide)).DeclaresRoot forged := by
  rintro ⟨parent, history, gasUsed, baseFee, outcome', -, -, he, hr⟩
  obtain rfl : outcome [[2]] = outcome' := Except.ok.inj he
  -- the changes are not empty, so the root is the hash, whatever the parent's root is
  rw [StateRoot.transition, if_neg (by decide +kernel)] at hr
  have hh : (7 : B256) = 99 := hr
  exact absurd hh (by decide)

/-- The first block is finalized and persisted, and the node restarts on it. -/
def recovered : List Lifecycle := [.live (.finalize (block 1) true), .restart 1 (some 1)]

theorem onChain_recovered : ∀ event ∈ recovered, event.OnChain (chain 1 (by decide)) := by
  intro event he
  rcases mem_cons.1 he with rfl | hr
  · exact ⟨0, Nat.zero_lt_one, rfl⟩
  · obtain rfl := mem_singleton.1 hr
    exact ⟨le_rfl, fun m hm => by
      obtain rfl := some.inj hm
      exact ⟨Nat.zero_lt_one, le_rfl⟩⟩

end ThreeBlocks

section

open ThreeBlocks

/-- A node that restarted on its newest persisted block accepts a child with a wrong root: while it
catches up, a failed verification is taken for a finalized block. -/
theorem wrong_root_accepted :
    ¬ ∀ (P : Platform) (chain : Chain P) (q₀ : QmdbStore), chain.StartsFrom q₀ →
      ∀ (maxTxs : ℕ) (life : List Lifecycle), (∀ event ∈ life, event.OnChain chain) →
      ∀ node, node = life.foldl (fun node event => Lifecycle.step chain node event)
          (Node.start P q₀ (chain.block 0) maxTxs chain.gasLimit chain.feeRecipient 0) →
      ∀ (block : Block) (older : List Block) (nowSecs : ℕ),
        (∀ i ≤ chain.length, block ≠ chain.block i) →
        (node.app.verify P node.ledger (block :: older) nowSecs).2.2 = true →
        chain.DeclaresRoot block := by
  intro h
  have hnew : ∀ i ≤ 1, forged ≠ block i := by
    intro i hi heq
    have hh : 2 = i := congrArg Block.height heq
    omega
  exact not_declaresRoot_forged (h platform (chain 1 (by decide)) QmdbStore.new
    (startsFrom (by decide)) 10 recovered onChain_recovered _ rfl forged [block 1] 0 hnew
    (by decide +kernel))

end

end Kora
