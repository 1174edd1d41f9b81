/-
Base fees along a chain (`compute_base_fee` in `node/runner/src/app.rs`,
`index_recovered_block` and `context` in `node/runner/src/runner.rs`).

The application reads base fees off its cache, the finalizer off the block index, and both
fall back to the initial base fee where the parent is unknown. At a restart the index is
filled again with gas figures of zero.

* `FeesSound.step`, `FeesSound.restart` — what keeps the entries of both right;
* `base_fee_of_chain` — then both give the base fee of the chain exactly for the parents
  they know, and for those whose child has the initial base fee.
-/
import Kora.Replay

open Std Option

namespace Kora

open RevmApplication FinalizedReporter RevmContextProvider

variable {P : Platform}

namespace Chain

variable (chain : Chain P)

theorem gasUsed_zero : chain.gasUsed 0 = 0 := chain.genesisGas

theorem baseFee_succ (i : ℕ) :
    chain.baseFee (i + 1) =
      calculateBaseFee (chain.baseFee i) (chain.gasUsed i) chain.gasLimit BaseFeeParams.DEFAULT :=
  rfl

theorem blockId_inj {i j : ℕ} (hi : i ≤ chain.length) (hj : j ≤ chain.length)
    (h : P.blockId (chain.block i) = P.blockId (chain.block j)) : i = j :=
  chain.digest_inj hi hj (congrArg P.sha256 h)

/-- The snapshot of block `i`, if it is there, shows the state of the chain. -/
def Shown (l : LedgerState) (i : ℕ) : Prop :=
  ∀ s, l.snapshots.get (chain.digest i) = some s → chain.Shows i (l.snapshotView s)

theorem Built.gasUsed_eq {chain : Chain P} (h : chain.Built) (hs : P.SkipsSentinel) {i : ℕ}
    (hi : i < chain.length) {l : LedgerState} (hst : chain.Shown l i) {context : BlockContext}
    {blockHash : ℕ → B256} (hh : blockHash = (fun _ => 0) ∨ chain.Hashless i)
    (hv : context.view = environment (chain.block (i + 1)) chain.gasLimit chain.feeRecipient
      (chain.baseFee (i + 1)) blockHash) {parent : Snapshot} {outcome : ExecutionOutcome}
    (he : l.executeOnParent P context (chain.block (i + 1)) = .ok (parent, outcome)) :
    outcome.gasUsed = chain.gasUsed (i + 1) := by
  obtain ⟨hget, hrun, -⟩ := (LedgerState.executeOnParent_ok P).1 he
  rw [chain.parent_block hi] at hget
  rw [Platform.executeBlock, hv] at hrun
  have hex := h.executeOn_eq hs hi (hst parent hget) hh
  exact congrArg ExecutionOutcome.gasUsed (Except.ok.inj (hrun.symm.trans hex))

end Chain

/-! ### The cache -/

/-- What the cache holds for a block of the chain is its gas and its base fee. -/
def CacheSound (chain : Chain P) (fees : ExtTreeMap Digest (ℕ × ℕ)) : Prop :=
  ∀ i ≤ chain.length, ∀ entry, fees[chain.digest i]? = some entry →
    entry = (chain.gasUsed i, chain.baseFee i)

theorem CacheSound.insert {chain : Chain P} {fees : ExtTreeMap Digest (ℕ × ℕ)}
    (h : CacheSound chain fees) {digest : Digest} {entry : ℕ × ℕ}
    (hen : ∀ i ≤ chain.length, digest = chain.digest i →
      entry = (chain.gasUsed i, chain.baseFee i)) :
    CacheSound chain (fees.insert digest entry) := by
  intro i hi e he
  rw [ExtTreeMap.getElem?_insert] at he
  split at he
  · next heq =>
    obtain rfl := some.inj he
    exact hen i hi (LawfulEqCmp.compare_eq_iff_eq.1 heq)
  · exact h i hi e he

/-- **The base fee for a child** is right iff the block is cached or the fallback happens to be
right. -/
theorem CacheSound.computeBaseFee_iff {chain : Chain P} {app : RevmApplication}
    (h : CacheSound chain app.blockFees) (hl : app.gasLimit = chain.gasLimit) {i : ℕ}
    (hi : i ≤ chain.length) :
    app.computeBaseFee (chain.digest i) = chain.baseFee (i + 1) ↔
      (app.blockFees[chain.digest i]?).isSome ∨ chain.baseFee (i + 1) = INITIAL_BASE_FEE := by
  rw [computeBaseFee]
  cases he : app.blockFees[chain.digest i]? with
  | none => simp [eq_comm]
  | some entry =>
    obtain rfl := h i hi entry he
    simp [hl, chain.baseFee_succ]

/-! ### The index -/

/-- The index holds blocks of the chain under their numbers, and what it holds for them is right. -/
structure IndexSound (chain : Chain P) (index : BlockIndex) : Prop where
  byNumber : ∀ number hash, index.blocksByNumber[number]? = some hash →
    number ≤ chain.length ∧ hash = P.blockId (chain.block number)
  byHash : ∀ i ≤ chain.length, ∀ b,
    index.blocksByHash[P.blockId (chain.block i)]? = some b → chain.Entry chain.gasUsed i b

namespace IndexSound

variable {chain : Chain P} {i : ℕ} {index : BlockIndex} {b : IndexedBlock}
  {txs : List IndexedTransaction} {receipts : List IndexedReceipt}

variable (h : IndexSound chain index)
include h

theorem getBlockByNumber (hb : index.getBlockByNumber i = some b) :
    i ≤ chain.length ∧ chain.Entry chain.gasUsed i b := by
  rw [BlockIndex.getBlockByNumber] at hb
  split at hb
  · cases hb
  · next hash hh =>
    obtain ⟨hlen, rfl⟩ := h.byNumber i hash hh
    exact ⟨hlen, h.byHash i hlen b hb⟩

theorem baseFee_iff :
    baseFee index (i + 1) = chain.baseFee (i + 1) ↔
      (index.getBlockByNumber i).isSome ∨ chain.baseFee (i + 1) = INITIAL_BASE_FEE := by
  rw [baseFee, if_neg (Nat.succ_ne_zero i), Nat.add_sub_cancel]
  cases hb : index.getBlockByNumber i with
  | none => simp [eq_comm]
  | some b =>
    obtain ⟨-, he⟩ := h.getBlockByNumber hb
    simp [he.baseFee, he.gasUsed, he.gasLimit, Chain.baseFee, baseFeeAt]

theorem insertBlock (hi : i ≤ chain.length) (hn : b.number = i)
    (hb : chain.Entry chain.gasUsed i b) :
    IndexSound chain (index.insertBlock b txs receipts) where
  byNumber number hash hget := by
    rw [BlockIndex.blocksByNumber_insertBlock] at hget
    split at hget
    · next heq =>
      obtain rfl := some.inj hget
      rw [← heq, hn, hb.hash]
      exact ⟨hi, rfl⟩
    · exact h.byNumber number hash hget
  byHash j hj b' hget := by
    rw [BlockIndex.blocksByHash_insertBlock, hb.hash] at hget
    split at hget
    · next heq =>
      obtain rfl := chain.blockId_inj hi hj heq
      obtain rfl := some.inj hget
      exact hb
    · exact h.byHash j hj b' hget

theorem pruneBefore (minBlockNumber : ℕ) : IndexSound chain (index.pruneBefore minBlockNumber) where
  byNumber number hash hget := h.byNumber number hash (BlockIndex.blocksByNumber_pruneBefore hget)
  byHash i hi b hget := h.byHash i hi b (BlockIndex.blocksByHash_pruneBefore hget)

omit h in
theorem genesis (chain : Chain P) : IndexSound chain
    (BlockIndex.new.seedGenesisBlockIndex P (chain.block 0) chain.gasLimit) := by
  have he : IndexSound chain BlockIndex.new :=
    ⟨fun number hash hget => absurd hget (by simp [BlockIndex.new]),
      fun i _ b hget => absurd hget (by simp [BlockIndex.new])⟩
  exact he.insertBlock (Nat.zero_le _) rfl ⟨rfl, chain.gasUsed_zero.symm, rfl, rfl⟩

theorem view_context (hi : i < chain.length) (hk : (index.getBlockByNumber i).isSome) :
    (context ⟨chain.gasLimit, chain.feeRecipient⟩ index (chain.block (i + 1))).view =
      environment (chain.block (i + 1)) chain.gasLimit chain.feeRecipient (chain.baseFee (i + 1))
        (hashWindow index (i + 1)) := by
  rw [Kora.view_context, chain.height (i + 1) hi, h.baseFee_iff.2 (.inl hk)]

end IndexSound

/-! ### The operations of a running node -/

/-- Cache and index of a node are right about the chain. -/
structure FeesSound (chain : Chain P) (node : Node) : Prop where
  gasLimit : node.app.gasLimit = chain.gasLimit
  feeRecipient : node.app.feeRecipient = chain.feeRecipient
  cache : CacheSound chain node.app.blockFees
  index : IndexSound chain node.index

/-- Wherever an operation executes a block of the chain, the fees of the parent are known and its
snapshot shows the chain. What the finalizer executes asks for no block hash, since the proposer's
context held none. -/
def Node.Op.FeesKnown (chain : Chain P) (node : Node) : Node.Op → Prop
  | .build _ _ parent _ => ∀ i < chain.length, parent = chain.block i →
      (node.app.blockFees[chain.digest i]?).isSome ∧ chain.Shown node.ledger i
  | .verify block _ _ => block ≠ chain.block 0 ∧ ∀ i < chain.length,
      block = chain.block (i + 1) → (node.ledger.queryStateRoot (chain.digest (i + 1))).isSome ∨
        (node.app.blockFees[chain.digest i]?).isSome ∧ chain.Shown node.ledger i
  | .finalize block _ => ∀ i < chain.length, block = chain.block (i + 1) →
      (node.index.getBlockByNumber i).isSome ∧ chain.Shown node.ledger i ∧ chain.Hashless i
  | .persist _ => True

namespace FeesSound

variable {chain : Chain P} {node : Node} {i : ℕ}

variable (h : FeesSound chain node)
include h

theorem view_verifyContext (hi : i < chain.length)
    (hk : (node.app.blockFees[chain.digest i]?).isSome) :
    node.app.computeBaseFee (P.parent (chain.block (i + 1))) = chain.baseFee (i + 1) ∧
      (node.app.verifyContext P (chain.block (i + 1))).view = environment (chain.block (i + 1))
        chain.gasLimit chain.feeRecipient (chain.baseFee (i + 1)) (fun _ => 0) := by
  have hfee : node.app.computeBaseFee (P.parent (chain.block (i + 1))) = chain.baseFee (i + 1) := by
    rw [chain.parent_block hi]
    exact (h.cache.computeBaseFee_iff h.gasLimit hi.le).2 (.inl hk)
  exact ⟨hfee, by rw [Kora.view_verifyContext, hfee, h.gasLimit, h.feeRecipient]⟩

variable (hbuilt : chain.Built) (hs : P.SkipsSentinel)
include hbuilt hs

theorem recordBlockFees {block : Block} {parent : Snapshot} {outcome : ExecutionOutcome}
    (he : node.ledger.executeOnParent P (node.app.verifyContext P block) block =
      .ok (parent, outcome)) (hg : block ≠ chain.block 0)
    (hk : ∀ i < chain.length, block = chain.block (i + 1) →
      (node.app.blockFees[chain.digest i]?).isSome ∧ chain.Shown node.ledger i) :
    CacheSound chain (node.app.recordBlockFees (P.commitment block) outcome.gasUsed
      (node.app.computeBaseFee (P.parent block))).blockFees := by
  refine h.cache.insert fun j hj hd => ?_
  obtain rfl := chain.unique j hj block hd
  cases j with
  | zero => exact absurd rfl hg
  | succ i =>
    obtain ⟨hknown, hst⟩ := hk i hj rfl
    obtain ⟨hfee, hv⟩ := h.view_verifyContext hj hknown
    rw [hfee, hbuilt.gasUsed_eq hs hj hst (.inl rfl) hv he]

theorem indexFinalizedBlock (hi : i < chain.length) {parent : Snapshot}
    {outcome : ExecutionOutcome}
    (he : node.ledger.executeOnParent P (node.provider.context node.index
      (chain.block (i + 1))) (chain.block (i + 1)) = .ok (parent, outcome))
    (hk : (node.index.getBlockByNumber i).isSome) (hst : chain.Shown node.ledger i)
    (hh : chain.Hashless i) :
    IndexSound chain (FinalizedReporter.indexFinalizedBlock P node.index
      (chain.block (i + 1)) (node.provider.context node.index (chain.block (i + 1))) outcome) := by
  have hp : node.provider = ⟨chain.gasLimit, chain.feeRecipient⟩ := by
    rw [Node.provider, h.gasLimit, h.feeRecipient]
  rw [hp] at he ⊢
  have hgas := hbuilt.gasUsed_eq hs hi hst (.inr hh) (h.index.view_context hi hk) he
  have hfee : RevmContextProvider.baseFee node.index (chain.block (i + 1)).height =
      chain.baseFee (i + 1) := by
    rw [chain.height (i + 1) hi]
    exact h.index.baseFee_iff.2 (.inl hk)
  have he' : chain.Entry chain.gasUsed (i + 1) (IndexedBlock.ofBlock P (chain.block (i + 1))
      (RevmContextProvider.context ⟨chain.gasLimit, chain.feeRecipient⟩ node.index
        (chain.block (i + 1))) outcome) := ⟨rfl, hgas, congrArg some hfee, rfl⟩
  have hin : IndexSound chain (node.index.indexFinalizedBlock P (chain.block (i + 1)) _ outcome) :=
    h.index.insertBlock hi (chain.height (i + 1) hi) he'
  rw [FinalizedReporter.indexFinalizedBlock]
  split
  · exact hin.pruneBefore _
  · exact hin

theorem step {op : Node.Op} (hc : op.OnChain chain) (hk : op.FeesKnown chain node) :
    FeesSound chain (node.step P op) := by
  cases op with
  | build mempool seeds parent timestamp =>
    rw [Node.step]
    rcases buildBlock_cases P node.app node.ledger mempool seeds parent timestamp
      with hnone | ⟨block, snapshot, outcome, he, hp, hh, -, hb⟩
    · rw [hnone]
      exact h
    · rw [hb]
      refine ⟨h.gasLimit, h.feeRecipient, h.recordBlockFees hbuilt hs he ?_ ?_, h.index⟩
      -- a built block has a parent, and if it is on the chain so is its parent
      · rintro rfl
        rw [chain.height 0 (Nat.zero_le _)] at hh
        omega
      · rintro i hi rfl
        rw [chain.linked i hi] at hp
        exact hk i hi (chain.unique i hi.le parent (congrArg P.sha256 hp.symm))
  | verify block parentTimestamp nowSecs =>
    rw [Node.step]
    rcases verifyBlock_cases P node.app node.ledger block parentTimestamp nowSecs
      with ⟨height, ok, hres⟩ | ⟨-, hres⟩ | ⟨parent, outcome, he, hnone, hres⟩
    · rw [hres]
      exact ⟨h.gasLimit, h.feeRecipient, h.cache, h.index⟩
    · -- trust adds a snapshot, and no fees
      rw [hres]
      exact ⟨h.gasLimit, h.feeRecipient, h.cache, h.index⟩
    · rw [hres]
      refine ⟨h.gasLimit, h.feeRecipient, h.recordBlockFees hbuilt hs he hk.1 ?_, h.index⟩
      rintro i hi rfl
      refine (hk.2 i hi rfl).resolve_left fun hknown => ?_
      rw [Chain.digest, hnone] at hknown
      cases hknown
  | finalize block persistCheckpoint =>
    obtain ⟨i, hi, rfl⟩ := hc
    refine ⟨h.gasLimit, h.feeRecipient, h.cache, ?_⟩
    show IndexSound chain (handleFinalizedUpdate P node.ledger
      node.index node.provider (chain.block (i + 1)) persistCheckpoint).2.1
    rcases handleFinalizedUpdate_index P node.ledger node.index node.provider
      (chain.block (i + 1)) persistCheckpoint with hs' | ⟨parent, outcome, he, hres⟩
    · rw [hs']
      exact h.index
    · obtain ⟨hknown, hst, hh⟩ := hk i hi rfl
      rw [hres]
      exact h.indexFinalizedBlock hbuilt hs hi he hknown hst hh
  | persist digest => exact ⟨h.gasLimit, h.feeRecipient, h.cache, h.index⟩

end FeesSound

/-! ### A restart -/

/-- The index in the course of a restart has no block beyond `a`. -/
structure IndexWithin (chain : Chain P) (a : ℕ) (index : BlockIndex) : Prop where
  byNumber : ∀ number hash, index.blocksByNumber[number]? = some hash → number ≤ a
  byHash : ∀ i ≤ chain.length, a < i →
    index.blocksByHash[P.blockId (chain.block i)]? = none

namespace IndexWithin

variable {chain : Chain P} {a : ℕ} {index : BlockIndex}

theorem insertBlock (h : IndexWithin chain a index) {a' i : ℕ} {b : IndexedBlock} (haa : a ≤ a')
    (hi : i ≤ chain.length) (hia : i ≤ a') (hn : b.number = i)
    (hh : b.hash = P.blockId (chain.block i)) :
    IndexWithin chain a' (index.insertBlock b [] []) where
  byNumber number hash hget := by
    rw [BlockIndex.blocksByNumber_insertBlock] at hget
    split at hget
    · omega
    · exact (h.byNumber number hash hget).trans haa
  byHash j hj haj := by
    rw [BlockIndex.blocksByHash_insertBlock, hh, if_neg]
    · exact h.byHash j hj (by omega)
    · intro heq
      have hij := chain.blockId_inj hi hj heq
      omega

theorem indexArchive (ha : a ≤ chain.length) (provider : RevmContextProvider) :
    IndexWithin chain a (chain.indexArchive provider
      (BlockIndex.new.seedGenesisBlockIndex P (chain.block 0) chain.gasLimit) a) := by
  induction a with
  | zero =>
    have he : IndexWithin chain 0 BlockIndex.new :=
      ⟨fun number hash hget => absurd hget (by simp [BlockIndex.new]),
        fun i _ _ => by simp [BlockIndex.new]⟩
    exact he.insertBlock le_rfl (Nat.zero_le _) le_rfl rfl rfl
  | succ a ih =>
    rw [Chain.indexArchive, List.range'_1_concat, List.foldl_append, ← Chain.indexArchive,
      Nat.add_comm 1 a]
    exact (ih (by omega)).insertBlock (Nat.le_succ a) ha le_rfl (chain.height _ ha) rfl

theorem indexSound (h : IndexWithin chain a index) (ha : a ≤ chain.length)
    (hin : IndexHolds chain chain.gasUsed a a index) : IndexSound chain index where
  byNumber number hash hget := by
    have hle := h.byNumber number hash hget
    rw [hin.byNumber number hle] at hget
    exact ⟨hle.trans ha, (some.inj hget).symm⟩
  byHash i hi b hget := by
    rcases Nat.lt_or_ge a i with hlt | hle
    · rw [h.byHash i hi hlt] at hget
      cases hget
    · obtain ⟨b', hb', he⟩ := hin.byHash i hle
      obtain rfl := some.inj (hget.symm.trans hb')
      exact he

end IndexWithin

/-- Each replay of a block on a database that shows the state of the chain enters its true gas. -/
theorem Replaying.replayFinalizedBlock {chain : Chain P} {q : QmdbStore} {m r a : ℕ}
    {l l' : LedgerState} {index index' : BlockIndex}
    (h : Replaying chain chain.gasUsed q m r a l index) (hbuilt : chain.Built)
    (hs : P.SkipsSentinel) (hra : r < a) (ha : a ≤ chain.length)
    (hst : chain.Shows r (chain.pendingView q m r)) (hh : chain.Hashless r)
    (hres : Recovery.replayFinalizedBlock P l index ⟨chain.gasLimit, chain.feeRecipient⟩
      (chain.block (r + 1)) = .ok (l', index')) :
    Replaying chain chain.gasUsed q m (r + 1) a l' index' ∧
      (IndexWithin chain a index → IndexWithin chain a index') := by
  have hr : r < chain.length := by omega
  obtain ⟨parent, outcome, he, rfl, rfl⟩ :=
    Recovery.replayFinalizedBlock_ok (h.tail.queryStateRoot_succ hr) hres
  have hrun := ((h.executeOnParent_iff hra ha).1 ⟨parent, he⟩).1
  have hout := hrun.symm.trans (hbuilt.executeOn_eq hs hr hst (.inr hh))
  refine ⟨h.insertExecuted hra ha he ?_, fun hw => ?_⟩
  · rw [Except.ok.inj hout]
    rfl
  · exact hw.insertBlock le_rfl hr hra (chain.height _ hr) rfl

theorem CacheSound.seedBlockFeeCache {chain : Chain P} {app : RevmApplication}
    (h : CacheSound chain app.blockFees) {index : BlockIndex}
    (hin : IndexSound chain index) (headHeight : ℕ) :
    CacheSound chain (Recovery.seedBlockFeeCache P app index headHeight).blockFees := by
  rw [Recovery.seedBlockFeeCache, seedBlockFees]
  refine List.foldlRecOn _ _ h fun fees hf entry he => hf.insert fun i hi hd => ?_
  obtain ⟨height, -, hmap⟩ := List.mem_filterMap.1 he
  obtain ⟨b, hb, rfl⟩ := Option.map_eq_some_iff.1 hmap
  obtain ⟨hlen, hg⟩ := hin.getBlockByNumber hb
  have hs : chain.digest height = chain.digest i := by
    rw [← hd]
    exact congrArg P.sha256 hg.hash.symm
  obtain rfl := chain.digest_inj hlen hi hs
  show (b.gasUsed, b.baseFeePerGas.getD INITIAL_BASE_FEE) = _
  rw [hg.gasUsed, hg.baseFee]
  rfl

namespace FeesSound

variable {chain : Chain P}

theorem start (chain : Chain P) (q : QmdbStore) (maxTxs recoveredHeight : ℕ) :
    FeesSound chain (Node.start P q (chain.block 0) maxTxs chain.gasLimit chain.feeRecipient
      recoveredHeight) where
  gasLimit := rfl
  feeRecipient := rfl
  cache := by
    have he : CacheSound chain (∅ : ExtTreeMap Digest (ℕ × ℕ)) :=
      fun i _ entry hen => absurd hen (by simp)
    refine he.insert fun i hi hd => ?_
    obtain rfl := chain.digest_inj (Nat.zero_le _) hi hd
    rw [chain.gasUsed_zero]
    rfl
  index := .genesis chain

/-- The blocks up to the checkpoint, or without a marker up to the head of the archive, used no gas,
and those after it are replayed on the state of the chain and ask for no block hash. -/
def RestartKnown (chain : Chain P) (q : QmdbStore) (a : ℕ) (marker : Option ℕ) : Prop :=
  (∀ i ≤ marker.getD a, chain.gasUsed i = 0) ∧ ∀ r, marker.getD a ≤ r → r < a →
    chain.Shows r (chain.pendingView q (marker.getD a) r) ∧ chain.Hashless r

theorem restart (hbuilt : chain.Built) (hs : P.SkipsSentinel) {a : ℕ} (ha : a ≤ chain.length)
    {marker : Option ℕ} (hmr : ∀ m, marker = some m → 0 < m ∧ m ≤ chain.length) {q : QmdbStore}
    (hk : RestartKnown chain q a marker) {maxTxs : ℕ} {node : Node}
    (hres : Node.restart P q (chain.block 0) maxTxs chain.gasLimit chain.feeRecipient
      (chain.archive a) (marker.map chain.digest) = .ok node) : FeesSound chain node := by
  have hf := start chain q maxTxs 0
  obtain ⟨hzero, hreplayed⟩ := hk
  have hw := IndexWithin.indexArchive ha ⟨chain.gasLimit, chain.feeRecipient⟩
  rw [Node.restart] at hres
  split at hres
  · cases hres
  · next restored hrec =>
    have hin : IndexSound chain restored.index := by
      rcases Recovery.recoverFinalizedState_cases ha hmr hrec with
        ⟨rfl, rfl⟩ | ⟨hpos, rfl, rfl⟩ | ⟨m, rfl, hpos, hma, hr⟩
      · -- nothing archived: genesis alone
        exact .genesis chain
      · have hin := IndexHolds.indexArchive hzero ha
        rw [getD_none, Nat.min_self] at hin
        exact hw.indexSound ha hin
      · -- the placeholders up to the marked block are right, and the replay enters the others
        obtain ⟨⟨hrep, hw'⟩, -⟩ := Recovery.replayTail_induction ha
          (fun r l index => Replaying chain chain.gasUsed q m r a l index ∧
            IndexWithin chain a index) (by
            rintro r l₁ index₁ l₂ index₂ hra ⟨hrep, hw₁⟩ hb
            obtain ⟨hst, hh⟩ := hreplayed r hrep.tail.low hra
            obtain ⟨hrep', hw₂⟩ := hrep.replayFinalizedBlock hbuilt hs hra ha hst hh hb
            exact ⟨hrep', hw₂ hw₁⟩) ⟨.start hpos hma ha hzero, hw⟩ (by omega) hr
        exact hw'.indexSound ha hrep.index
    split at hres
    · obtain rfl := Except.ok.inj hres
      exact ⟨rfl, rfl, hf.cache, hin⟩
    · obtain rfl := Except.ok.inj hres
      exact ⟨rfl, rfl, hf.cache.seedBlockFeeCache hin _, hin⟩

end FeesSound

/-! ### Lives of a node -/

/-- What happens to a node: operations, and restarts on what survived. -/
inductive Lifecycle where
  | live (op : Node.Op)
  /-- The archive reaches up to a height, and the marker names another. -/
  | restart (archived : ℕ) (marker : Option ℕ)

namespace Lifecycle

/-- One operation or restart. A restart that fails leaves no node; the events after it are those of
no life. -/
def step (chain : Chain P) (node : Node) : Lifecycle → Node
  | live op => node.step P op
  | restart archived marker =>
    match Node.restart P node.ledger.qmdb (chain.block 0) node.app.maxTxs node.app.gasLimit
        node.app.feeRecipient (chain.archive archived) (marker.map chain.digest) with
    | .ok node' => node'
    | .error _ => node

theorem provider_step (chain : Chain P) (node : Node) (event : Lifecycle) :
    (event.step chain node).provider = node.provider := by
  cases event with
  | live op => exact node.provider_step op
  | restart archived marker =>
    rw [step]
    split
    · next node' hres => exact Node.provider_restart hres
    · rfl

def OnChain (chain : Chain P) : Lifecycle → Prop
  | live op => op.OnChain chain
  | restart archived marker => archived ≤ chain.length ∧
      ∀ m, marker = some m → 0 < m ∧ m ≤ chain.length

/-- The condition on each event. -/
def FeesKnown (chain : Chain P) (node : Node) : Lifecycle → Prop
  | live op => op.FeesKnown chain node
  | restart archived marker => FeesSound.RestartKnown chain node.ledger.qmdb archived marker

end Lifecycle

theorem FeesSound.life {chain : Chain P} {node : Node} (h : FeesSound chain node)
    (hbuilt : chain.Built) (hs : P.SkipsSentinel) {event : Lifecycle} (hc : event.OnChain chain)
    (hk : event.FeesKnown chain node) : FeesSound chain (event.step chain node) := by
  cases event with
  | live op => exact h.step hbuilt hs hc hk
  | restart archived marker =>
    rw [Lifecycle.step]
    split
    · next node' hres =>
      rw [h.gasLimit, h.feeRecipient] at hres
      exact restart hbuilt hs hc.1 hc.2 hk hres
    · exact h

/-- **The base fee is that of the chain, where the parent is known.** In every life whose events
meet the condition, and in every state reached, the base fee for a child of a block is that of the
chain exactly if the block is in the application's cache, or the chain's base fee is the initial
one; and so for the finalizer and its index. -/
theorem base_fee_of_chain {chain : Chain P} (hbuilt : chain.Built) (hs : P.SkipsSentinel)
    {q₀ : QmdbStore}
    {maxTxs recoveredHeight : ℕ} {life : List Lifecycle}
    (hchain : ∀ event ∈ life, event.OnChain chain)
    (hrun : Run.Along (fun node event => Lifecycle.step chain node event)
      (fun node event => Lifecycle.FeesKnown chain node event)
      (Node.start P q₀ (chain.block 0) maxTxs chain.gasLimit chain.feeRecipient recoveredHeight)
      life) (n : ℕ) (node : Node)
    (hnode : node = (life.take n).foldl (fun node event => Lifecycle.step chain node event)
      (Node.start P q₀ (chain.block 0) maxTxs chain.gasLimit chain.feeRecipient recoveredHeight))
    {i : ℕ} (hi : i ≤ chain.length) :
    (node.app.computeBaseFee (chain.digest i) = chain.baseFee (i + 1) ↔
        (node.app.blockFees[chain.digest i]?).isSome ∨
          chain.baseFee (i + 1) = INITIAL_BASE_FEE) ∧
      (RevmContextProvider.baseFee node.index (i + 1) = chain.baseFee (i + 1) ↔
        (node.index.getBlockByNumber i).isSome ∨ chain.baseFee (i + 1) = INITIAL_BASE_FEE) := by
  have hst := (hrun.take n).and_forall
    (fun event he => hchain event (List.mem_of_mem_take he))
  have hsound : FeesSound chain node := by
    rw [hnode]
    exact hst.history (fun _ node => FeesSound chain node) (.start chain q₀ _ _)
      (fun _ node event h he => h.life hbuilt hs he.1 he.2)
  exact ⟨hsound.cache.computeBaseFee_iff hsound.gasLimit hi, hsound.index.baseFee_iff⟩

namespace ThreeBlocks

theorem built {n : ℕ} (hn : n ≤ 3) : (chain n hn).Built := fun _ _ => rfl

theorem skipsSentinel : platform.SkipsSentinel := fun _ _ _ _ _ => rfl

theorem hashless {n : ℕ} (hn : n ≤ 3) (i : ℕ) : (chain n hn).Hashless i := fun _ => rfl

theorem shown_of_new {n : ℕ} (hn : n ≤ 3) {l : LedgerState} (hq : l.qmdb = QmdbStore.new)
    (hg : (l.snapshots.get ((chain n hn).digest 0)).map (·.state) = some ChangeSet.new) :
    (chain n hn).Shown l 0 := by
  intro s hget address _
  rw [hget, Option.map_some, Option.some_inj] at hg
  rw [LedgerState.snapshotView, hq, hg]
  rfl

end ThreeBlocks

section

open ThreeBlocks

theorem base_fee_of_chain_verified :
    ([Lifecycle.live (.verify (block 1) none 0), .live (.finalize (block 1) true)].foldl
        (fun node event => Lifecycle.step (chain 1 (by decide)) node event)
        (Node.start platform QmdbStore.new (block 0) 10 30000000 0 0)).app.computeBaseFee
      ((chain 1 (by decide)).digest 1) = (chain 1 (by decide)).baseFee 2 := by
  have hc : ∀ event ∈ [Lifecycle.live (.verify (block 1) none 0),
      .live (.finalize (block 1) true)], event.OnChain (chain 1 (by decide)) := by
    intro event he
    rw [List.mem_cons, List.mem_singleton] at he
    rcases he with rfl | rfl
    · trivial
    · exact ⟨0, by decide, rfl⟩
  have hone : ∀ i < (chain 1 (by decide)).length, i = 0 := fun i hi => Nat.lt_one_iff.1 hi
  have hrun : Run.Along (fun node event => event.step (chain 1 (by decide)) node)
      (fun node event => Lifecycle.FeesKnown (chain 1 (by decide)) node event)
      (Node.start platform QmdbStore.new (block 0) 10 30000000 0 0)
      [Lifecycle.live (.verify (block 1) none 0), .live (.finalize (block 1) true)] := by
    refine ⟨⟨by decide, fun i hi _ => .inr ?_⟩, fun i hi _ => ?_, trivial⟩
    · obtain rfl := hone i hi
      exact ⟨by decide, shown_of_new _ rfl (by decide)⟩
    · obtain rfl := hone i hi
      exact ⟨by decide, shown_of_new _ rfl (by decide), hashless _ 0⟩
  exact (base_fee_of_chain (built _) skipsSentinel hc hrun 2 _ rfl le_rfl).1.2 (.inl (by decide))

/-- Block `1` used gas. After a restart the index says none, and the application caches that. -/
theorem restart_forgets_gas :
    ¬ ∀ (P : Platform) (chain : Chain P), chain.Built → P.SkipsSentinel →
      ∀ q₀ : QmdbStore, chain.StartsFrom q₀ → chain.Undestroyed →
      ∀ (maxTxs recoveredHeight : ℕ) (life : List Lifecycle),
      (∀ event ∈ life, event.OnChain chain) →
      ∀ node, node = life.foldl (fun node event => Lifecycle.step chain node event)
        (Node.start P q₀ (chain.block 0) maxTxs chain.gasLimit chain.feeRecipient
          recoveredHeight) →
      ∀ i ≤ chain.length, (node.ledger.snapshots.get (chain.digest i)).isSome →
        node.app.computeBaseFee (chain.digest i) = chain.baseFee (i + 1) := by
  intro h
  have hfee := h platform (chain 1 (by decide)) (built _) skipsSentinel QmdbStore.new
    (startsFrom _) (undestroyed _) 10 0
    [.live (.verify (block 1) none 0), .live (.finalize (block 1) true), .restart 1 (some 1)]
    (by
      intro event he
      simp only [List.mem_cons, List.not_mem_nil, or_false] at he
      rcases he with rfl | rfl | rfl
      · trivial
      · exact ⟨0, by decide, rfl⟩
      · exact ⟨le_rfl, fun m hm => by obtain rfl := some.inj hm; decide⟩)
    _ rfl 1 le_rfl (by decide +kernel)
  exact absurd hfee (by decide +kernel)

end

end Kora
