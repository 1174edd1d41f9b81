/-
Chains of executed blocks.

What the node is for: the state after a chain of blocks is the result of executing them
one after the other on the genesis state, and the database has to hold that state.

* `reads_commitGroups_eq` — a clean database to which change sets without selfdestructs
  are committed, in whatever groups, reads as the sequence;
* `Chain` — its blocks are linked, no other block has the digest of one of them, and a
  state root stands for one change set.
-/
import Kora.Cadence
import Kora.Snapshot
import Mathlib.Tactic.IntervalCases

open Std List

namespace Kora

open QmdbStore ChangeSet
open InMemorySnapshotStore (chainSegment chainSegment_of_le chainSegment_succ)

/-! ### Change sets over a state -/

namespace StateView

/-- A change set over a state. -/
def apply (v : StateView) (ch : ChangeSet) : StateView :=
  fun address => (ch[address]?).elim (v address) (fun u => u.over (v address))

def applyAll (v : StateView) (cs : List ChangeSet) : StateView := cs.foldl apply v

theorem applyAll_append (v : StateView) (cs ds : List ChangeSet) :
    v.applyAll (cs ++ ds) = (v.applyAll cs).applyAll ds :=
  foldl_append

theorem applyAll_concat (v : StateView) (cs : List ChangeSet) (ch : ChangeSet) :
    v.applyAll (cs ++ [ch]) = (v.applyAll cs).apply ch := by
  rw [applyAll_append]
  rfl

theorem applyAll_congr {v w : StateView} {address : Address} (h : v address = w address)
    (cs : List ChangeSet) : v.applyAll cs address = w.applyAll cs address := by
  induction cs generalizing v w with
  | nil => exact h
  | cons ch cs ih => exact ih (by rw [apply, apply, h])

end StateView

variable {cs : List ChangeSet} {address : Address}

section

variable (h : ∀ ch ∈ cs, ch.Undestroyed)
include h

theorem ChangeSet.Undestroyed.updatesOf {u : AccountUpdate}
    (hu : u ∈ ChangeSet.updatesOf address cs) : u.selfdestructed = false := by
  obtain ⟨ch, hch, heq⟩ := mem_filterMap.1 hu
  exact h ch hch address u heq

theorem ChangeSet.Undestroyed.mergeAll : (ChangeSet.mergeAll cs).Undestroyed := by
  intro address u hu
  rw [getElem?_mergeAll] at hu
  exact absorbAll_alive hu fun w hw => Undestroyed.updatesOf h hw

theorem StateView.apply_mergeAll (v : StateView) :
    v.apply (ChangeSet.mergeAll cs) = v.applyAll cs := by
  induction cs using List.reverseRecOn with
  | nil =>
    funext address
    simp [apply, applyAll, ChangeSet.mergeAll]
  | append_singleton cs ch ih =>
    have hi : ∀ d ∈ cs, d.Undestroyed := fun d hd => h d (mem_append_left [ch] hd)
    rw [applyAll_concat, ← ih hi, mergeAll_concat]
    funext address
    simp only [apply, getElem?_merge]
    cases hu : ch[address]? with
    | none => rfl
    | some u =>
      cases he : (ChangeSet.mergeAll cs)[address]? with
      | none => rfl
      | some e =>
        -- the older update is no selfdestruct, so it has nothing that could be revived
        have hsd : e.selfdestructed = false := Undestroyed.mergeAll hi address e he
        refine (over_merge_iff ?_ (v address)).2 ?_
        · exact fun hdd => absurd hdd (by simp [hsd])
        · exact fun hdd => absurd hdd (by simp [hsd])

omit h in
theorem StateView.apply_apply (v : StateView) (ch : ChangeSet) :
    (v.apply ch).apply ch = v.apply ch := by
  funext address
  simp only [apply]
  cases ch[address]? with
  | none => rfl
  | some u => exact u.over_over (v address)

theorem StateView.applyAll_again (rest : List ChangeSet) (j : ℕ) (v : StateView) :
    (v.applyAll cs).applyAll (cs.drop j ++ rest) = v.applyAll (cs ++ rest) := by
  have hd : ∀ ch ∈ cs.drop j, ch.Undestroyed := fun ch hch => h ch (mem_of_mem_drop hch)
  have hcs : v.applyAll cs = (v.applyAll (cs.take j)).apply (ChangeSet.mergeAll (cs.drop j)) := by
    rw [apply_mergeAll hd, ← applyAll_append, take_append_drop]
  have ha : (v.applyAll cs).applyAll (cs.drop j) = v.applyAll cs := by
    rw [hcs, ← apply_mergeAll hd, apply_apply]
  rw [applyAll_append, ha, applyAll_append]

end

/-! ### Committing them -/

variable {q : QmdbStore}

theorem reads_commitChanges_eq (hq : q.Clean) {ch : ChangeSet} (hch : ch.Undestroyed)
    (ha : address ≠ COMMIT_SEQ_ACCOUNT_KEY)
    (hr : (q.account address).generation.toNat + 1 < 2 ^ 64) :
    reads (q.commitChanges ch) address = StateView.apply (reads q) ch address := by
  rw [StateView.apply, reads_qmdb, reads_qmdb, account_commitChanges q ch ha]
  cases hu : ch[address]? with
  | none => rfl
  | some u =>
    refine ((AccountState.over_reads_iff _ u address).2 ?_).symm
    exact (hq address ha).shows (hch address u hu) (fun _ => by omega)

theorem reads_commitGroups_eq (hq : q.Clean) {groups : List (List ChangeSet)}
    (hgr : ∀ ch ∈ groups.flatten, ch.Undestroyed) (ha : address ≠ COMMIT_SEQ_ACCOUNT_KEY)
    (hr : (q.account address).generation.toNat + groups.length < 2 ^ 64) :
    reads (q.commitGroups groups) address =
      StateView.applyAll (reads q) groups.flatten address := by
  induction groups generalizing q with
  | nil => rfl
  | cons g groups ih =>
    rw [flatten_cons] at hgr ⊢
    rw [length_cons] at hr
    have hg : ∀ ch ∈ g, ch.Undestroyed := fun ch hch => hgr ch (mem_append_left _ hch)
    have hm := Undestroyed.mergeAll hg
    have hgen := generation_commitChanges_le q (ChangeSet.mergeAll g) ha
    have hrs := ih (hq.commitChanges hm)
      (fun ch hch => hgr ch (mem_append_right _ hch)) (by omega)
    have hf : reads (q.commitChanges (ChangeSet.mergeAll g)) address =
        StateView.applyAll (reads q) g address := by
      rw [reads_commitChanges_eq hq hm ha (by omega), StateView.apply_mergeAll hg]
    show reads ((q.commitChanges (ChangeSet.mergeAll g)).commitGroups groups) address = _
    rw [hrs, StateView.applyAll_append]
    exact StateView.applyAll_congr hf groups.flatten

/-- **A history seen from its end.** Over a database that holds the beginning of a history, pending
changes from anywhere in that beginning to the end show all of it. -/
theorem reads_pending_history (hq : q.Clean) {history : List ChangeSet}
    (hh : ∀ ch ∈ history, ch.Undestroyed) {groups : List (List ChangeSet)}
    (hc : groups.flatten <+: history) {j : ℕ} (hj : j ≤ groups.flatten.length)
    (ha : address ≠ COMMIT_SEQ_ACCOUNT_KEY)
    (hr : (q.account address).generation.toNat + groups.length < 2 ^ 64) :
    reads (OverlayState.new (q.commitGroups groups) (ChangeSet.mergeAll (history.drop j)))
      address = StateView.applyAll (reads q) history address := by
  obtain ⟨rest, rfl⟩ := hc
  have hb : ∀ ch ∈ groups.flatten, ch.Undestroyed :=
    fun ch hch => hh ch (mem_append_left _ hch)
  have hbs := reads_commitGroups_eq hq hb ha hr
  have ho : reads (OverlayState.new (q.commitGroups groups)
      (ChangeSet.mergeAll ((groups.flatten ++ rest).drop j))) =
      StateView.apply (reads (q.commitGroups groups))
        (ChangeSet.mergeAll ((groups.flatten ++ rest).drop j)) :=
    funext fun address => reads_overlay _ _ address
  rw [ho, StateView.apply_mergeAll (fun ch hch => hh ch (mem_of_mem_drop hch)),
    StateView.applyAll_congr hbs, drop_append_of_le_length hj]
  -- the changes from `j` on that are committed are applied a second time
  rw [StateView.applyAll_again hb]

/-! ### Chains -/

/-- The change sets of the first `i` blocks after genesis, oldest first. -/
def changesUpTo (outcome : ℕ → ExecutionOutcome) (i : ℕ) : List ChangeSet :=
  (List.range i).map fun j => (outcome (j + 1)).changes

theorem changesUpTo_succ (outcome : ℕ → ExecutionOutcome) (i : ℕ) :
    changesUpTo outcome (i + 1) = changesUpTo outcome i ++ [(outcome (i + 1)).changes] := by
  rw [changesUpTo, range_succ, map_append]
  rfl

theorem length_changesUpTo (outcome : ℕ → ExecutionOutcome) (i : ℕ) :
    (changesUpTo outcome i).length = i := by
  rw [changesUpTo, length_map, length_range]

/-- The base fees of EIP-1559 along the gas used by the blocks. -/
def baseFeeAt (gasLimit : ℕ) (gasUsed : ℕ → ℕ) : ℕ → ℕ
  | 0 => INITIAL_BASE_FEE
  | i + 1 => calculateBaseFee (baseFeeAt gasLimit gasUsed i) (gasUsed i) gasLimit
      BaseFeeParams.DEFAULT

/-- A finalized chain from genesis, with the state that genesis leaves and the outcomes of its
blocks. -/
structure Chain (P : Platform) where
  length : ℕ
  block : ℕ → Block
  genesis : StateView
  gasLimit : ℕ
  feeRecipient : Address
  outcome : ℕ → ExecutionOutcome
  height : ∀ i ≤ length, (block i).height = i
  linked : ∀ i < length, (block (i + 1)).parentId = P.blockId (block i)
  /-- No other block has the digest of a block of the chain. -/
  unique : ∀ i ≤ length, ∀ b, P.commitment b = P.commitment (block i) → b = block i
  genesisGas : (outcome 0).gasUsed = 0
  /-- Each outcome is that of the block on the state before it, under a context with the fields of
  the block and the base fee of the chain, and whatever hashes. -/
  executed : ∀ i < length, ∃ context : BlockContext,
    context.header = ⟨i + 1, (block (i + 1)).timestamp, gasLimit, feeRecipient,
      some (baseFeeAt gasLimit (fun j => (outcome j).gasUsed) (i + 1))⟩ ∧
    context.prevrandao = (block (i + 1)).prevrandao ∧
    P.executeBlock (genesis.applyAll (changesUpTo outcome i)) context (block (i + 1)).txs =
      .ok (outcome (i + 1))
  root : ∀ i < length, StateRoot.transition P.keccak256 (block i).stateRoot
    (outcome (i + 1)).changes = (block (i + 1)).stateRoot
  /-- The root of a block stands for one change set: whatever the state and the context, changes
  with the root of the block are those of the chain. -/
  binds : ∀ i < length, ∀ state context outcome',
    P.executeBlock state context (block (i + 1)).txs = .ok outcome' →
    StateRoot.transition P.keccak256 (block i).stateRoot outcome'.changes =
      (block (i + 1)).stateRoot →
    outcome'.changes = (outcome (i + 1)).changes

namespace Chain

variable {P : Platform} (chain : Chain P)

def digest (i : ℕ) : Digest := P.commitment (chain.block i)

def changes (i : ℕ) : ChangeSet := (chain.outcome i).changes

def gasUsed (i : ℕ) : ℕ := (chain.outcome i).gasUsed

def baseFee (i : ℕ) : ℕ := baseFeeAt chain.gasLimit chain.gasUsed i

/-- The state after the first `i` blocks. -/
def state (i : ℕ) : StateView := chain.genesis.applyAll (changesUpTo chain.outcome i)

theorem parent_block {i : ℕ} (hi : i < chain.length) :
    P.parent (chain.block (i + 1)) = chain.digest i := by
  rw [Platform.parent, chain.linked i hi]
  rfl

variable {j : ℕ}

theorem digest_inj {i : ℕ} (hi : i ≤ chain.length) (hj : j ≤ chain.length)
    (h : chain.digest i = chain.digest j) : i = j := by
  have hb := chain.unique j hj (chain.block i) h
  rw [← chain.height i hi, ← chain.height j hj, hb]

theorem digest_ne_of_lt {i : ℕ} (hij : i < j) (hj : j ≤ chain.length) :
    chain.digest i ≠ chain.digest j := by
  intro heq
  have hs := chain.digest_inj (hij.le.trans hj) hj heq
  omega

theorem changesUpTo_segment {k : ℕ} (hkj : k ≤ j) :
    changesUpTo chain.outcome k ++ (chainSegment chain.digest chain.changes k j).map Prod.snd =
      changesUpTo chain.outcome j := by
  induction j, hkj using Nat.le_induction with
  | base => rw [chainSegment_of_le le_rfl, map_nil, append_nil]
  | succ j hkj ih =>
    rw [chainSegment_succ hkj, map_append, ← append_assoc, ih, changesUpTo_succ]
    rfl

theorem segment_eq_drop {k : ℕ} (hkj : k ≤ j) :
    (chainSegment chain.digest chain.changes k j).map Prod.snd =
      (changesUpTo chain.outcome j).drop k := by
  rw [← chain.changesUpTo_segment hkj, drop_left' (length_changesUpTo chain.outcome k)]

theorem commitGroups_segment {q₀ : QmdbStore} {groups : List (List ChangeSet)} {k : ℕ} (hkj : k ≤ j)
    (hc : groups.flatten = changesUpTo chain.outcome k) (hcn : groups.length ≤ k) :
    ∃ groups', groups'.flatten = changesUpTo chain.outcome j ∧ groups'.length ≤ j ∧
      (q₀.commitGroups groups).commitChanges
        (ChangeSet.mergeAll ((chainSegment chain.digest chain.changes k j).map Prod.snd)) =
        q₀.commitGroups groups' := by
  rcases Nat.lt_or_ge k j with hlt | hge
  · refine ⟨groups ++ [(chainSegment chain.digest chain.changes k j).map Prod.snd], ?_, ?_, ?_⟩
    · rw [flatten_append, hc, flatten_singleton, chain.changesUpTo_segment hkj]
    · rw [length_append, length_singleton]
      omega
    · rw [QmdbStore.commitGroups, QmdbStore.commitGroups, map_append, QmdbStore.commitAll,
        QmdbStore.commitAll, foldl_append]
      rfl
  · -- nothing above block `k`: the commit is that of the empty change set
    obtain rfl : k = j := by omega
    refine ⟨groups, hc, hcn, ?_⟩
    rw [chainSegment_of_le le_rfl]
    exact QmdbStore.commitChanges_new _

end Chain

theorem changesUpTo_initial (outcome : ℕ → ExecutionOutcome) {k j : ℕ} (hkj : k ≤ j) :
    changesUpTo outcome k <+: changesUpTo outcome j := by
  induction j, hkj using Nat.le_induction with
  | base => exact prefix_rfl
  | succ j _ ih =>
    rw [changesUpTo_succ]
    exact ih.trans (prefix_append _ _)

section Conditions

variable {P : Platform}

/-- The executor does not look at the account under whose key the database keeps its commit
sequence. -/
def Platform.SkipsSentinel (P : Platform) : Prop :=
  ∀ (state state' : StateView) (view : BlockContext.View) (txs : List Bytes),
    (∀ address, address ≠ COMMIT_SEQ_ACCOUNT_KEY → state address = state' address) →
    P.execute state view txs = P.execute state' view txs

/-- A database with the genesis state of a chain and room for the generations of its blocks. -/
structure Chain.StartsFrom (chain : Chain P) (q₀ : QmdbStore) : Prop where
  clean : q₀.Clean
  genesis : chain.genesis = reads q₀
  room : ∀ address, address ≠ COMMIT_SEQ_ACCOUNT_KEY →
    (q₀.account address).generation.toNat + chain.length < 2 ^ 64

/-- No block of the chain selfdestructs an account. -/
def Chain.Undestroyed (chain : Chain P) : Prop :=
  ∀ i < chain.length, (chain.changes (i + 1)).Undestroyed

theorem Chain.Undestroyed.upTo {chain : Chain P} (h : chain.Undestroyed) {k : ℕ}
    (hk : k ≤ chain.length) {ch : ChangeSet} (hch : ch ∈ changesUpTo chain.outcome k) :
    ch.Undestroyed := by
  obtain ⟨i, hi, rfl⟩ := mem_map.1 hch
  exact h i ((mem_range.1 hi).trans_le hk)

/-- Over the first `k` blocks, pending changes from `k` or before show the state at their end. -/
theorem Chain.StartsFrom.reads_pending {chain : Chain P} {q₀ : QmdbStore} (hq : chain.StartsFrom q₀)
    (hsd : chain.Undestroyed) {groups : List (List ChangeSet)} {k : ℕ}
    (hc : groups.flatten = changesUpTo chain.outcome k)
    (hcn : groups.length ≤ chain.length) {i j : ℕ} (hjk : j ≤ k) (hki : k ≤ i)
    (hi : i ≤ chain.length) (ha : address ≠ COMMIT_SEQ_ACCOUNT_KEY) :
    reads (OverlayState.new (q₀.commitGroups groups)
      (ChangeSet.mergeAll ((changesUpTo chain.outcome i).drop j))) address =
      chain.state i address := by
  have hr := hq.room address ha
  rw [reads_pending_history hq.clean (fun ch hch => hsd.upTo hi hch)
    (hc ▸ changesUpTo_initial chain.outcome hki)
    (by rw [hc, length_changesUpTo]; exact hjk) ha (by omega), Chain.state, hq.genesis]

end Conditions

/-! ### A chain of three blocks

The executor of this platform writes the byte of a block's only transaction to slots `1` and `2` of
account `0xA`, in every state and context. -/

/-- Digests that are one more than the height tell blocks from all others. -/
theorem eq_block_of_digest {P : Platform} {block : ℕ → Block} {n : ℕ} (hn : n < 255)
    (hheight : ∀ i, (block i).height = i)
    (hid : ∀ b, P.commitment b =
      if b.height ≤ n ∧ b = block b.height then BitVec.ofNat 256 (b.height + 1) else 0)
    {i : ℕ} (hi : i ≤ n) {b : Block} (h : P.commitment b = P.commitment (block i)) :
    b = block i := by
  have hb : (block i).height ≤ n ∧ block i = block (block i).height := by
    rw [hheight]
    exact ⟨hi, rfl⟩
  rw [hid, hid (block i), if_pos hb, hheight] at h
  have hnat := congrArg BitVec.toNat h
  split at hnat
  · next hb' =>
    simp only [BitVec.toNat_ofNat] at hnat
    have heq : b.height = i := by omega
    rw [hb'.2, heq]
  · rw [BitVec.toNat_ofNat, show BitVec.toNat (0 : BitVec 256) = 0 from rfl] at hnat
    omega

namespace ThreeBlocks

def block (i : ℕ) : Block :=
  { parentId := BitVec.ofNat 256 i, height := i, timestamp := 0, prevrandao := 0
    stateRoot := if i = 0 then 0 else 7
    txs := if i = 0 then [] else [⟨[UInt8.ofNat i]⟩] }

def outcome : List Bytes → ExecutionOutcome
  | [[b]] => ⟨extractChanges (evmAccountA false false (BitVec.ofNat 256 b.toNat)),
      [⟨7, true, 21000, 21000, [], none⟩], 21000, []⟩
  | _ => ⟨ChangeSet.new, [], 0, []⟩

/-- Every byte is an envelope, all of which have one signer. -/
def consensus : AlloyConsensus where
  decode2718 bytes := bytes.head?.map fun b =>
    .legacy ⟨⟨BitVec.ofNat 64 b.toNat, 21000, 0, []⟩, none, 1, some 0xA⟩ ⟨false, 1, 1⟩
  recoverSigner _ := some 0xB
  calculateTransactionRoot txs := if txs = [] then EMPTY_ROOT_HASH else 1
  calculateReceiptRoot receipts := if receipts = [] then EMPTY_ROOT_HASH else 1
  logsBloom logs := BitVec.ofNat 2048 logs.length

def platform : Platform where
  keccak256 _ := 7
  sha256 := id
  blockId b := if b.height ≤ 3 ∧ b = block b.height then BitVec.ofNat 256 (b.height + 1) else 0
  txId tx := BitVec.ofNat 256 tx.bytes.length
  consensus := consensus
  execute _ _ txs := .ok (outcome txs)

theorem commitment_block {i : ℕ} (hi : i ≤ 3) :
    platform.commitment (block i) = BitVec.ofNat 256 (i + 1) :=
  if_pos ⟨hi, rfl⟩

theorem eq_block_of_commitment {i : ℕ} (hi : i ≤ 3) {b : Block}
    (h : platform.commitment b = platform.commitment (block i)) : b = block i :=
  eq_block_of_digest (by decide) (fun _ => rfl) (fun _ => rfl) hi h

/-- The first `n` blocks, on the empty database. -/
def chain (n : ℕ) (hn : n ≤ 3) : Chain platform where
  length := n
  block := block
  genesis := reads QmdbStore.new
  gasLimit := 30000000
  feeRecipient := 0
  outcome i := outcome ((block i).txs.map (·.bytes))
  height _ _ := rfl
  linked i hi := (commitment_block (by omega)).symm
  unique i hi b h := eq_block_of_commitment (by omega) h
  genesisGas := rfl
  executed i hi := ⟨⟨_, 0, _, none, ∅⟩, rfl, rfl, rfl⟩
  root i hi := by
    have hi3 : i < 3 := by omega
    clear hi
    interval_cases i <;> rfl
  binds i hi state context outcome' h _ := by
    have hout : outcome ((block (i + 1)).txs.map (·.bytes)) = outcome' := Except.ok.inj h
    rw [hout]

theorem startsFrom {n : ℕ} (hn : n ≤ 3) : (chain n hn).StartsFrom QmdbStore.new where
  clean := .new
  genesis := rfl
  room _ _ := by
    show 0 + n < 2 ^ 64
    omega

theorem undestroyed {n : ℕ} (hn : n ≤ 3) : (chain n hn).Undestroyed :=
  fun _ _ _ _ hu => (evmAccountA_update hu).2.2

/-! The same blocks on an executor that looks around: where it does not see what the proposers saw
it writes `9` instead, and the hash tells the two outcomes apart. -/

section Heeding

def telling (bytes : Bytes) : B256 := if bytes.getLast? = some 9 then 8 else 7

def outcomeAt (i : ℕ) : ExecutionOutcome := outcome ((block i).txs.map (·.bytes))

theorem root_outcomeAt {i : ℕ} (hi : i < 3) : StateRoot.transition telling (block i).stateRoot
    (outcomeAt (i + 1)).changes = (block (i + 1)).stateRoot := by
  interval_cases i <;> decide +kernel

theorem root_nine_ne {i : ℕ} (hi : i < 3) : StateRoot.transition telling (block i).stateRoot
    (outcome (((block (i + 1)).txs.map (·.bytes)).map fun _ => [9])).changes ≠
      (block (i + 1)).stateRoot := by
  interval_cases i <;> decide +kernel

variable (sees : StateView → BlockContext.View → Bool)

def heeding : Platform :=
  { platform with
    keccak256 := telling
    execute := fun state view txs => .ok (outcome
      (if sees state view then txs else txs.map fun _ => [9])) }

/-- The context of block `i`, with the base fee of the chain and without hashes. -/
def contextAt (i : ℕ) : BlockContext :=
  .new ⟨i, 0, 30000000, 0, some (baseFeeAt 30000000 (fun j => (outcomeAt j).gasUsed) i)⟩ 0 0

/-- On the state after block `i`, the next one sees what it is meant to see. -/
abbrev Seen (i : ℕ) : Prop :=
  sees (StateView.applyAll (reads QmdbStore.new) (changesUpTo outcomeAt i))
    (contextAt (i + 1)).view = true

variable {sees} {n : ℕ} (hn : n ≤ 3) (h : ∀ i < n, Seen sees i)

def heedingChain : Chain (heeding sees) where
  length := n
  block := block
  genesis := reads QmdbStore.new
  gasLimit := 30000000
  feeRecipient := 0
  outcome := outcomeAt
  height _ _ := rfl
  linked _ hi := (commitment_block (hi.le.trans hn)).symm
  unique _ hi _ h := eq_block_of_commitment (hi.trans hn) h
  genesisGas := rfl
  executed i hi := ⟨contextAt (i + 1), rfl, rfl,
    congrArg (fun txs => Except.ok (outcome txs)) (if_pos (h i hi))⟩
  root _ hi := root_outcomeAt (hi.trans_le hn)
  binds i hi state context outcome' h hroot := by
    obtain rfl := Except.ok.inj h
    split at hroot
    · next hsee => rw [if_pos hsee, outcomeAt]
    · exact absurd hroot (root_nine_ne (hi.trans_le hn))

theorem heedingChain_startsFrom : (heedingChain hn h).StartsFrom QmdbStore.new where
  clean := .new
  genesis := rfl
  room _ _ := by
    show 0 + n < 2 ^ 64
    omega

theorem heedingChain_undestroyed : (heedingChain hn h).Undestroyed :=
  fun _ _ _ _ hu => (evmAccountA_update hu).2.2

/-- Genesis and the first block. -/
def firstBlock (h : Seen sees 0) : Chain (heeding sees) :=
  heedingChain (n := 1) (by decide) fun _ hi => Nat.lt_one_iff.1 hi ▸ h

end Heeding

end ThreeBlocks

end Kora
