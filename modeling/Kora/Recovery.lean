/-
Recovery at startup (`recover_finalized_state` in `node/runner/src/runner.rs`).

The archive, the database and the commit marker, which is written some time after a
commit, survive a crash. Startup restores the block that the marker names and replays the
archive after it; without a marker it takes the database to be at the head of the archive.

* `recoverFinalizedState`, `Node.restart` — startup as the source does it;
* `recovery_consistent_iff` — when every block is then applied exactly once.
-/
import Kora.Node

open Std List

namespace Kora

open QmdbStore InMemorySnapshotStore

/-- Finalized blocks by height. -/
abbrev Archive := ExtTreeMap ℕ Block

inductive RecoveryError where
  | replay (height : ℕ) (error : LedgerState.ReplayError)
  | unknownMarker (marker : Digest) (archiveHead : ℕ)
deriving DecidableEq

namespace Recovery

variable (P : Platform)

/-! ### Startup -/

/-- Index an archived block, whose gas is not known before it is executed. -/
def indexRecoveredBlock (provider : RevmContextProvider) (index : BlockIndex) (block : Block) :
    BlockIndex :=
  index.insertBlock (IndexedBlock.ofRecovered P block (provider.context index block) 0) [] []

/-- Execute an archived block again, for its snapshot and its index entry. -/
def replayFinalizedBlock (ledger : LedgerState) (index : BlockIndex)
    (provider : RevmContextProvider) (block : Block) :
    Except RecoveryError (LedgerState × BlockIndex) :=
  if (ledger.queryStateRoot (P.commitment block)).isSome then .ok (ledger, index)
  else
    let context := provider.context index block
    match ledger.executeOnParent P context block with
    | .error e => .error (.replay block.height e)
    | .ok (parent, outcome) =>
      .ok (ledger.insertExecuted P block parent outcome.changes,
        index.insertBlock (IndexedBlock.ofRecovered P block context outcome.gasUsed) [] [])

/-- How far the restoration has come. -/
structure Restored where
  ledger : LedgerState
  index : BlockIndex
  height : ℕ
  digest : Digest
  replayedTail : Bool

/-- Replay heights up to the first that is missing or not linked to the one before. -/
def replayTail (provider : RevmContextProvider) (archive : Archive) :
    (remaining expectedHeight : ℕ) → Restored → Except RecoveryError Restored
  | 0, _, restored => .ok restored
  | remaining + 1, expectedHeight, restored =>
    match archive[expectedHeight]? with
    | none => .ok restored
    | some block =>
      if P.parent block ≠ restored.digest then .ok restored
      else match replayFinalizedBlock P restored.ledger restored.index provider block with
        | .error e => .error e
        | .ok (ledger, index) =>
          replayTail provider archive remaining (expectedHeight + 1)
            ⟨ledger, index, block.height, P.commitment block, true⟩

/-- The archived block that the marker names. -/
def findCheckpoint (archive : Archive) (marker : Option Digest) : Option Block :=
  marker.bind fun digest =>
    (archive.toList.find? fun entry => P.commitment entry.2 = digest).map Prod.snd

def restoreCheckpointAndReplayTail (ledger : LedgerState) (index : BlockIndex)
    (provider : RevmContextProvider) (archive : Archive) (marker : Option Digest) :
    Except RecoveryError Restored :=
  match archive.toList.getLast? with
  | none => .ok ⟨ledger, index, 0, ledger.head, false⟩
  | some (_, head) =>
    match findCheckpoint P archive marker with
    | some checkpoint =>
      replayTail P provider archive (head.height - checkpoint.height) (checkpoint.height + 1)
        ⟨ledger.restorePersistedSnapshot P checkpoint, index, checkpoint.height,
          P.commitment checkpoint, false⟩
    | none =>
      match marker with
      | some digest => .error (.unknownMarker digest head.height)
      | none =>
        -- No marker at all: the head of the archive is trusted.
        .ok ⟨ledger.restorePersistedSnapshot P head, index, head.height, P.commitment head, false⟩

/-- Index the archive and restore the ledger. -/
def recoverFinalizedState (ledger : LedgerState) (index : BlockIndex)
    (provider : RevmContextProvider) (archive : Archive) (marker : Option Digest) :
    Except RecoveryError Restored :=
  restoreCheckpointAndReplayTail P ledger
    (archive.toList.foldl (fun index entry => indexRecoveredBlock P provider index entry.2) index)
    provider archive marker

def SNAPSHOT_PREPOPULATE_COUNT : ℕ := 64

def prepopulateSnapshotCache (archive : Archive) : List ℕ → LedgerState → LedgerState
  | [], ledger => ledger
  | height :: heights, ledger =>
    match archive[height]? with
    | none => ledger
    | some block =>
      prepopulateSnapshotCache archive heights
        (if (ledger.queryStateRoot (P.commitment block)).isSome then ledger
          else ledger.restorePersistedSnapshot P block)

/-- The fees of the last few indexed blocks, for the application's cache. -/
def seedBlockFeeCache (app : RevmApplication) (index : BlockIndex) (headHeight : ℕ) :
    RevmApplication :=
  app.seedBlockFees ((List.range' (headHeight - 4) (headHeight - (headHeight - 4) + 1)).filterMap
    fun height => (index.getBlockByNumber height).map fun indexed =>
      (P.sha256 indexed.hash, indexed.gasUsed, indexed.baseFeePerGas.getD INITIAL_BASE_FEE))

end Recovery

open Recovery in
/-- A node started on what survived. -/
def Node.restart (P : Platform) (qmdb : QmdbStore) (genesis : Block) (maxTxs gasLimit : ℕ)
    (feeRecipient : Address) (archive : Archive) (marker : Option Digest) :
    Except RecoveryError Node :=
  let fresh := Node.start P qmdb genesis maxTxs gasLimit feeRecipient 0
  match recoverFinalizedState P fresh.ledger fresh.index fresh.provider archive marker with
  | .error e => .error e
  | .ok restored =>
    if archive.isEmpty then .ok { fresh with ledger := restored.ledger, index := restored.index }
    else
      let start := restored.height - SNAPSHOT_PREPOPULATE_COUNT
      .ok
        { app := seedBlockFeeCache P (fresh.app.withRecoveredHeight restored.height) restored.index
            restored.height
          ledger :=
            if restored.replayedTail then restored.ledger
            else prepopulateSnapshotCache P archive (List.range' start (restored.height - start))
              restored.ledger
          index := restored.index }

theorem Node.provider_restart {P : Platform} {qmdb : QmdbStore} {genesis : Block}
    {maxTxs gasLimit : ℕ} {feeRecipient : Address} {archive : Archive} {marker : Option Digest}
    {node : Node}
    (h : Node.restart P qmdb genesis maxTxs gasLimit feeRecipient archive marker = .ok node) :
    node.provider = ⟨gasLimit, feeRecipient⟩ := by
  rw [Node.restart] at h
  split at h
  · cases h
  · split at h
    · obtain rfl := Except.ok.inj h
      rfl
    · obtain rfl := Except.ok.inj h
      rfl

/-! ### What survives a crash -/

variable {P : Platform}

/-- What is durable on a chain: the archive and the database up to heights, and the checkpoint's
marker. -/
structure Durable where
  archived : ℕ
  committed : ℕ
  /-- The change sets of each commit. -/
  commits : List (List ChangeSet)
  /-- Committed checkpoints whose marker has not been written yet, oldest first. -/
  pendingMarkers : List ℕ
  marker : Option ℕ

namespace Durable

def new : Durable := ⟨0, 0, [], [], none⟩

inductive Event where
  /-- The archive is synced with one more block. -/
  | sync
  /-- A checkpoint is committed to the database. -/
  | commit (height : ℕ)
  /-- The observer of persisted snapshots writes the next marker. -/
  | writeMarker
  /-- Writing the next marker fails, which is only logged. -/
  | loseMarker

def step (chain : Chain P) (self : Durable) : Event → Durable
  | .sync =>
    if self.archived < chain.length then { self with archived := self.archived + 1 } else self
  | .commit height =>
    if self.committed < height ∧ height ≤ chain.length then
      { self with
        committed := height
        commits := self.commits ++
          [(chainSegment chain.digest chain.changes self.committed height).map Prod.snd]
        pendingMarkers := self.pendingMarkers ++ [height] }
    else self
  | .writeMarker =>
    match self.pendingMarkers with
    | [] => self
    | height :: rest => { self with marker := some height, pendingMarkers := rest }
  | .loseMarker => { self with pendingMarkers := self.pendingMarkers.tail }

structure Valid (chain : Chain P) (d : Durable) : Prop where
  archived : d.archived ≤ chain.length
  committed : d.committed ≤ chain.length
  commits : d.commits.flatten = changesUpTo chain.outcome d.committed
  count : d.commits.length ≤ d.committed
  pending : ∀ height ∈ d.pendingMarkers, 0 < height ∧ height ≤ d.committed
  marker : ∀ height, d.marker = some height → 0 < height ∧ height ≤ d.committed

theorem Valid.step {chain : Chain P} {d : Durable} (h : d.Valid chain) (event : Event) :
    (d.step chain event).Valid chain := by
  cases event with
  | sync =>
    rw [Durable.step]
    split
    · next hlt => exact { h with archived := hlt }
    · exact h
  | commit height =>
    rw [Durable.step]
    split
    · next hg =>
      obtain ⟨hlt, hle⟩ := hg
      have hc := h.count
      refine ⟨h.archived, hle, ?_, ?_, fun m hm => ?_, fun m hm => ?_⟩
      · show (d.commits ++ [_]).flatten = _
        rw [flatten_append, h.commits, flatten_singleton, chain.changesUpTo_segment hlt.le]
      · show (d.commits ++ [_]).length ≤ height
        rw [length_append, length_singleton]
        omega
      · rcases mem_append.1 hm with hm | hm
        · exact ⟨(h.pending m hm).1, (h.pending m hm).2.trans hlt.le⟩
        · rw [mem_singleton.1 hm]
          exact ⟨by omega, le_rfl⟩
      · exact ⟨(h.marker m hm).1, (h.marker m hm).2.trans hlt.le⟩
    · exact h
  | writeMarker =>
    rw [Durable.step]
    split
    · exact h
    · next height rest hp =>
      have hh := h.pending
      rw [hp] at hh
      refine { h with pending := fun m hm => hh m (mem_cons_of_mem _ hm), marker := ?_ }
      intro m hm
      obtain rfl := Option.some.inj hm
      exact hh _ mem_cons_self
  | loseMarker => exact { h with pending := fun m hm => h.pending m (mem_of_mem_tail hm) }

theorem Valid.run (chain : Chain P) (events : List Event) :
    (events.foldl (Durable.step chain) Durable.new).Valid chain :=
  List.foldlRecOn events _
    ⟨Nat.zero_le _, Nat.zero_le _, rfl, le_rfl, fun _ h => absurd h not_mem_nil,
      fun _ h => by cases h⟩
    (fun _ h event _ => h.step event)

end Durable

/-! ### The archive of a chain -/

namespace Chain

variable (chain : Chain P)

/-- The archive of the blocks after genesis, up to a height. -/
def archive (a : ℕ) : Archive :=
  OrderedMap.gather (fun i => some (chain.block i)) (List.range' 1 a) ∅

theorem getElem?_archive (a i : ℕ) :
    (chain.archive a)[i]? = if 0 < i ∧ i ≤ a then some (chain.block i) else none := by
  rw [archive, OrderedMap.getElem?_gather]
  have hmem : i ∈ List.range' 1 a ↔ 0 < i ∧ i ≤ a := by
    rw [mem_range'_1]
    omega
  simp only [hmem]
  split <;> simp

theorem toList_archive (a : ℕ) :
    (chain.archive a).toList = (List.range' 1 a).map fun i => (i, chain.block i) := by
  refine OrderedMap.toList_eq_of_ordered ?_ fun i b => ?_
  · rw [pairwise_map]
    refine (pairwise_lt_range' ..).imp fun {i j} hlt => ?_
    exact Nat.compare_eq_lt.2 hlt
  · rw [getElem?_archive, mem_map]
    constructor
    · rintro ⟨j, hj, heq⟩
      obtain ⟨rfl, rfl⟩ := Prod.mk.inj heq
      rw [mem_range'_1] at hj
      rw [if_pos (by omega)]
    · intro hsome
      split at hsome
      · next hin =>
        obtain rfl := Option.some.inj hsome
        exact ⟨i, mem_range'_1.2 (by omega), rfl⟩
      · cases hsome

theorem getLast?_archive (a : ℕ) :
    (chain.archive (a + 1)).toList.getLast? = some (a + 1, chain.block (a + 1)) := by
  rw [toList_archive, range'_1_concat, map_append, map_singleton, getLast?_concat, Nat.add_comm]

theorem findCheckpoint_archive {a m : ℕ} (ha : a ≤ chain.length) (hm : m ≤ chain.length)
    (hpos : 0 < m) :
    Recovery.findCheckpoint P (chain.archive a) (some (chain.digest m)) =
      if m ≤ a then some (chain.block m) else none := by
  show ((chain.archive a).toList.find? fun entry => P.commitment entry.2 = chain.digest m).map
    Prod.snd = _
  cases hf : (chain.archive a).toList.find? fun entry =>
      P.commitment entry.2 = chain.digest m with
  | none =>
    rw [if_neg, Option.map_none]
    intro hma
    refine find?_eq_none.1 hf (m, chain.block m) ?_ (decide_eq_true rfl)
    rw [ExtTreeMap.mem_toList_iff_getElem?_eq_some, getElem?_archive, if_pos ⟨hpos, hma⟩]
  | some entry =>
    have hmem := mem_of_find?_eq_some hf
    have hd : P.commitment entry.2 = chain.digest m := by
      simpa using find?_some hf
    rw [toList_archive] at hmem
    obtain ⟨i, hi, rfl⟩ := mem_map.1 hmem
    rw [mem_range'_1] at hi
    obtain rfl := chain.digest_inj (show i ≤ chain.length by omega) hm hd
    rw [if_pos (by omega), Option.map_some]

end Chain

/-! ### The replay -/

variable {index : BlockIndex} {provider : RevmContextProvider} {l : LedgerState}

theorem Recovery.replayFinalizedBlock_ok {l' : LedgerState} {index' : BlockIndex} {block : Block}
    (hnew : l.queryStateRoot (P.commitment block) = none)
    (h : Recovery.replayFinalizedBlock P l index provider block = .ok (l', index')) :
    ∃ parent outcome,
      l.executeOnParent P (provider.context index block) block = .ok (parent, outcome) ∧
      l' = l.insertExecuted P block parent outcome.changes ∧
      index' = index.insertBlock
        (IndexedBlock.ofRecovered P block (provider.context index block) outcome.gasUsed)
        [] [] := by
  rw [Recovery.replayFinalizedBlock, if_neg (by rw [hnew]; decide)] at h
  dsimp only at h
  split at h
  · cases h
  · next parent outcome he =>
    obtain ⟨rfl, rfl⟩ := Prod.mk.inj (Except.ok.inj h)
    exact ⟨parent, outcome, he, rfl, rfl⟩

variable {a : ℕ} {restored : Recovery.Restored}

/-- A turn: the next height is archived, and its block has the last one as its parent. -/
theorem Recovery.replayTail_archive {chain : Chain P} (ha : a ≤ chain.length) {r : ℕ} (hr : r < a)
    (remaining : ℕ) (replayed : Bool) :
    Recovery.replayTail P provider (chain.archive a) (remaining + 1) (r + 1)
      ⟨l, index, r, chain.digest r, replayed⟩ =
      match Recovery.replayFinalizedBlock P l index provider (chain.block (r + 1)) with
      | .error e => .error e
      | .ok (l', index') => Recovery.replayTail P provider (chain.archive a) remaining (r + 1 + 1)
          ⟨l', index', r + 1, chain.digest (r + 1), true⟩ := by
  have hr' : r < chain.length := by omega
  rw [Recovery.replayTail, chain.getElem?_archive, if_pos ⟨Nat.succ_pos r, hr⟩]
  dsimp only
  rw [if_neg (not_not.2 (chain.parent_block hr')), chain.height (r + 1) hr']
  rfl

/-- **The replay rule.** What each replayed block keeps holds after the replay, which ends at the
archive's head. -/
theorem Recovery.replayTail_induction {chain : Chain P} (ha : a ≤ chain.length)
    (Inv : ℕ → LedgerState → BlockIndex → Prop)
    (hs : ∀ r l index l' index', r < a → Inv r l index →
      Recovery.replayFinalizedBlock P l index provider (chain.block (r + 1)) = .ok (l', index') →
      Inv (r + 1) l' index') {remaining r : ℕ} {replayed : Bool} (h : Inv r l index)
    (hra : r + remaining = a)
    (hres : Recovery.replayTail P provider (chain.archive a) remaining (r + 1)
      ⟨l, index, r, chain.digest r, replayed⟩ = .ok restored) :
    Inv a restored.ledger restored.index ∧ restored.height = a ∧
      (replayed = true ∨ 0 < remaining → restored.replayedTail = true) := by
  induction remaining generalizing r l index replayed with
  | zero =>
    obtain rfl := Except.ok.inj hres
    obtain rfl : r = a := by omega
    exact ⟨h, rfl, fun hsome => hsome.resolve_right (lt_irrefl 0)⟩
  | succ remaining ih =>
    rw [Recovery.replayTail_archive ha (by omega)] at hres
    split at hres
    · cases hres
    · next l' index' hb =>
      obtain ⟨hi, hh, hrp⟩ := ih (hs r l index l' index' (by omega) h hb) (by omega) hres
      exact ⟨hi, hh, fun _ => hrp (.inl rfl)⟩

theorem Recovery.replayTail_replayed_or_same {chain : Chain P} {m : ℕ} (ha : a ≤ chain.length)
    (hma : m ≤ a) (hres : Recovery.replayTail P provider (chain.archive a) (a - m) (m + 1)
      ⟨l, index, m, chain.digest m, false⟩ = .ok restored) :
    restored.replayedTail = true ∨
      m = a ∧ restored = ⟨l, index, m, chain.digest m, false⟩ := by
  rcases Nat.lt_or_ge m a with hlt | hge
  · obtain ⟨-, -, hrp⟩ := Recovery.replayTail_induction ha (fun _ _ _ => True)
      (fun _ _ _ _ _ _ _ _ => trivial) trivial (Nat.add_sub_cancel' hma) hres
    exact .inl (hrp (.inr (Nat.sub_pos_of_lt hlt)))
  · obtain rfl : m = a := Nat.le_antisymm hma hge
    rw [Nat.sub_self] at hres
    exact .inr ⟨rfl, (Except.ok.inj hres).symm⟩

/-- Block `m` is marked, and the snapshots up to `r` are held, each with the changes since `m`; none
beyond. -/
structure HoldsTail (chain : Chain P) (m r : ℕ) (l : LedgerState) : Prop where
  low : m ≤ r
  high : r ≤ chain.length
  persisted : ∀ i, m ≤ i → i ≤ chain.length →
    (chain.digest i ∈ l.snapshots.persisted ↔ i = m)
  root : chain.RootsHold l
  shown : ∀ i, m ≤ i → i ≤ r → ∃ s, l.snapshots.get (chain.digest i) = some s ∧
    s.state = ChangeSet.mergeAll ((chainSegment chain.digest chain.changes m i).map Prod.snd)
  linked : ∀ i, m ≤ i → i < r → ∃ s, l.snapshots.get (chain.digest (i + 1)) = some s ∧
    s.parent = some (chain.digest i) ∧ s.changes = chain.changes (i + 1)
  fresh : ∀ i, r < i → i ≤ chain.length → l.snapshots.get (chain.digest i) = none

namespace HoldsTail

variable {chain : Chain P} {q : QmdbStore} {m r : ℕ} {l : LedgerState}

theorem init (chain : Chain P) (q : QmdbStore) :
    HoldsTail chain 0 0 (LedgerState.init P q (chain.block 0)) where
  low := le_rfl
  high := Nat.zero_le _
  persisted i _ hi := by
    rw [LedgerState.mem_persisted_init]
    exact ⟨chain.digest_inj hi (Nat.zero_le _), fun h => by rw [h]; rfl⟩
  root := .init chain q
  shown i _ hi := by
    obtain rfl : i = 0 := by omega
    exact ⟨_, (LedgerState.get_init P q _ _).trans (if_pos rfl), rfl⟩
  linked i _ hi := absurd hi (by omega)
  fresh i hi hlen := by
    rw [LedgerState.get_init, if_neg]
    exact chain.digest_ne_of_lt (by omega) hlen

theorem restorePersistedSnapshot (h : HoldsTail chain 0 0 l) (hpos : 0 < m) (hm : m ≤ chain.length)
    :
    HoldsTail chain m m (l.restorePersistedSnapshot P (chain.block m)) where
  low := le_rfl
  high := hm
  persisted i hmi hi := by
    rw [LedgerState.mem_persisted_restorePersistedSnapshot]
    constructor
    · rintro (heq | hmem)
      · exact chain.digest_inj hi hm heq
      · exact absurd ((h.persisted i (Nat.zero_le _) hi).1 hmem) (by omega)
    · rintro rfl
      exact .inl rfl
  root := h.root.restorePersistedSnapshot _
  shown i hmi hi := by
    obtain rfl : i = m := by omega
    refine ⟨_, (l.get_restorePersistedSnapshot P _ _).trans (if_pos rfl), ?_⟩
    rw [chainSegment_of_le le_rfl]
    rfl
  linked i hmi hi := absurd hi (by omega)
  fresh i hi hlen := by
    rw [LedgerState.get_restorePersistedSnapshot, if_neg]
    · exact h.fresh i (by omega) hlen
    · exact chain.digest_ne_of_lt (by omega) hlen

variable (h : HoldsTail chain m r l)
include h

theorem insertExecuted (hr : r < chain.length) {context : BlockContext} {parent : Snapshot}
    {outcome : ExecutionOutcome}
    (he : l.executeOnParent P context (chain.block (r + 1)) = .ok (parent, outcome)) :
    HoldsTail chain m (r + 1)
      (l.insertExecuted P (chain.block (r + 1)) parent outcome.changes) := by
  -- the parent that was found is the snapshot the tail ends with
  have hget := ((LedgerState.executeOnParent_ok P).1 he).1
  rw [chain.parent_block hr] at hget
  obtain ⟨s, hs, hst⟩ := h.shown r h.low le_rfl
  obtain rfl : s = parent := Option.some.inj (hs.symm.trans hget)
  -- and the root check makes the changes those of the chain
  have hc := h.root.changes_eq hr he
  have hins : ∀ d, (l.insertExecuted P (chain.block (r + 1)) s outcome.changes).snapshots.get d =
      if chain.digest (r + 1) = d then some
        ⟨some (chain.digest r), s.state.merge (chain.changes (r + 1)),
          (chain.block (r + 1)).stateRoot, chain.changes (r + 1),
          (chain.block (r + 1)).txs.map P.txId⟩
      else l.snapshots.get d := by
    intro d
    rw [LedgerState.get_insertExecuted, hc, chain.parent_block hr]
    rfl
  have ho : ∀ i ≤ r, chain.digest (r + 1) ≠ chain.digest i := by
    intro i hi
    exact (chain.digest_ne_of_lt (Nat.lt_succ_of_le hi) hr).symm
  refine ⟨h.low.trans (Nat.le_succ r), hr, h.persisted, h.root.insertExecuted _ _ _, ?_, ?_, ?_⟩
  · intro i hmi hi
    rw [hins]
    rcases Nat.lt_or_ge r i with hl | hold
    · obtain rfl : i = r + 1 := by omega
      refine ⟨_, if_pos rfl, ?_⟩
      rw [chainSegment_succ h.low, map_append, map_singleton, ChangeSet.mergeAll_concat, ← hst]
    · rw [if_neg (ho i hold)]
      exact h.shown i hmi hold
  · intro i hmi hi
    rw [hins]
    rcases Nat.lt_or_ge i r with hold | hl
    · rw [if_neg (ho (i + 1) hold)]
      exact h.linked i hmi hold
    · obtain rfl : i = r := by omega
      exact ⟨_, if_pos rfl, rfl, rfl⟩
  · intro i hi hlen
    rw [hins, if_neg]
    · exact h.fresh i (by omega) hlen
    · exact chain.digest_ne_of_lt (by omega) hlen

theorem queryStateRoot_succ (hr : r < chain.length) :
    l.queryStateRoot (P.commitment (chain.block (r + 1))) = none := by
  show (l.snapshots.get (chain.digest (r + 1))).map _ = none
  rw [h.fresh (r + 1) (Nat.lt_succ_self r) hr, Option.map_none]

theorem replayFinalizedBlock (hr : r < chain.length) {index' : BlockIndex}
    {provider : RevmContextProvider} {l' : LedgerState}
    (hres : Recovery.replayFinalizedBlock P l index provider (chain.block (r + 1)) =
      .ok (l', index')) : HoldsTail chain m (r + 1) l' ∧ l'.qmdb = l.qmdb := by
  obtain ⟨parent, outcome, he, rfl, -⟩ :=
    Recovery.replayFinalizedBlock_ok (h.queryStateRoot_succ hr) hres
  exact ⟨h.insertExecuted hr he, rfl⟩

theorem replayTail (ha : a ≤ chain.length) {provider : RevmContextProvider} {remaining : ℕ}
    {replayed : Bool} {restored : Recovery.Restored} (hra : r + remaining = a)
    (hres : Recovery.replayTail P provider (chain.archive a) remaining (r + 1)
      ⟨l, index, r, chain.digest r, replayed⟩ = .ok restored) :
    HoldsTail chain m a restored.ledger ∧ restored.ledger.qmdb = l.qmdb ∧ restored.height = a := by
  obtain ⟨⟨ht, hq⟩, hh, -⟩ := Recovery.replayTail_induction ha
    (fun r l' _ => HoldsTail chain m r l' ∧ l'.qmdb = l.qmdb) (by
      rintro r l₁ index₁ l₂ index₂ hra ⟨ht, hq⟩ hb
      obtain ⟨ht', hq'⟩ := ht.replayFinalizedBlock (hra.trans_le ha) hb
      exact ⟨ht', hq'.trans hq⟩) ⟨h, rfl⟩ hra hres
  exact ⟨ht, hq, hh⟩

end HoldsTail

/-! ### Crash consistency -/

/-- A restart has come out right: what was committed before the crash, followed by what is pending
below the restored head, are the change sets of the chain up to the restored height, each once, and
the head reads as the chain there. -/
def Recovered (chain : Chain P) (d : Durable) (restored : Recovery.Restored) : Prop :=
  ∃ s entries,
    restored.ledger.snapshots.get (chain.digest restored.height) = some s ∧
    restored.ledger.snapshots.walk (restored.ledger.snapshots.snapshots.size + 1)
      (some (chain.digest restored.height)) = .ok entries ∧
    d.commits.flatten ++ entries.map Prod.snd = changesUpTo chain.outcome restored.height ∧
    ∀ address, address ≠ COMMIT_SEQ_ACCOUNT_KEY →
      restored.ledger.snapshotView s address = chain.state restored.height address

namespace HoldsTail

variable {chain : Chain P} {m r : ℕ} {l : LedgerState}

theorem walk (h : HoldsTail chain m r l) :
    l.snapshots.walk (l.snapshots.snapshots.size + 1) (some (chain.digest r)) =
      .ok (chainSegment chain.digest chain.changes m r) := by
  refine walk_of_present h.low (fun i hmi hir => h.persisted i hmi (hir.trans h.high))
    (fun i hmi hir => h.linked i hmi hir) ?_
  -- the digests above the marked one are distinct keys of the store
  have hsz := OrderedMap.length_le_size (t := l.snapshots.snapshots)
    (l := (List.range' (m + 1) (r - m)).map chain.digest) ?_ ?_
  · rw [length_map, length_range'] at hsz
    omega
  · refine List.Nodup.map_on (fun i hi j hj heq => ?_) (nodup_range' ..)
    rw [mem_range'_1] at hi hj
    have hh := h.high
    exact chain.digest_inj (by omega) (by omega) heq
  · intro d hd
    obtain ⟨i, hi, rfl⟩ := mem_map.1 hd
    rw [mem_range'_1] at hi
    obtain ⟨s, hs, -⟩ := h.shown i (by omega) (by omega)
    rw [ExtTreeMap.mem_iff_isSome_getElem?]
    exact Option.isSome_iff_exists.2 ⟨s, hs⟩

theorem recovered_iff (h : HoldsTail chain m r l) {q₀ : QmdbStore} (hq : chain.StartsFrom q₀)
    (hsd : chain.Undestroyed) {d : Durable} (hd : d.Valid chain)
    (hqm : l.qmdb = q₀.commitGroups d.commits) {digest : Digest} {replayed : Bool} :
    Recovered chain d ⟨l, index, r, digest, replayed⟩ ↔ d.committed = m := by
  have hlow := h.low
  constructor
  · rintro ⟨s, entries, -, hw, ho, -⟩
    obtain rfl : chainSegment chain.digest chain.changes m r = entries :=
      Except.ok.inj (h.walk.symm.trans hw)
    -- counting the change sets is enough
    have hlen := congrArg List.length ho
    rw [length_append, hd.commits, length_changesUpTo, length_changesUpTo, length_map, chainSegment,
      length_map, length_range'] at hlen
    dsimp only at hlen
    omega
  · intro hm
    obtain ⟨s, hs, hst⟩ := h.shown r h.low le_rfl
    -- the commits end where the overlay of the head begins
    have hc := hd.commits
    rw [hm] at hc
    have ho : d.commits.flatten ++ (chainSegment chain.digest chain.changes m r).map Prod.snd =
        changesUpTo chain.outcome r := by
      rw [hc, chain.changesUpTo_segment h.low]
    have hcn := hd.count.trans hd.committed
    refine ⟨s, _, hs, h.walk, ho, fun address ha => ?_⟩
    rw [LedgerState.snapshotView, hqm, hst, chain.segment_eq_drop h.low]
    exact hq.reads_pending hsd hc hcn le_rfl h.low h.high ha

end HoldsTail

/-- The index after the blocks of an archive have been entered. -/
def Chain.indexArchive (chain : Chain P) (provider : RevmContextProvider) (index : BlockIndex)
    (a : ℕ) : BlockIndex :=
  (List.range' 1 a).foldl
    (fun index i => Recovery.indexRecoveredBlock P provider index (chain.block i)) index

/-- **Everything a restart on an archive of the chain can do**: start from genesis, restore the head
of the archive, or restore the marked block and replay the rest. -/
theorem Recovery.recoverFinalizedState_cases {chain : Chain P} (ha : a ≤ chain.length)
    {marker : Option ℕ} (hm : ∀ m, marker = some m → 0 < m ∧ m ≤ chain.length)
    (h : Recovery.recoverFinalizedState P l index provider (chain.archive a)
      (marker.map chain.digest) = .ok restored) :
    (a = 0 ∧ restored = ⟨l, chain.indexArchive provider index a, a, l.head, false⟩) ∨
      (0 < a ∧ marker = none ∧ restored = ⟨l.restorePersistedSnapshot P (chain.block a),
        chain.indexArchive provider index a, a, chain.digest a, false⟩) ∨
      ∃ m, marker = some m ∧ 0 < m ∧ m ≤ a ∧
        Recovery.replayTail P provider (chain.archive a) (a - m) (m + 1)
          ⟨l.restorePersistedSnapshot P (chain.block m), chain.indexArchive provider index a, m,
            chain.digest m, false⟩ = .ok restored := by
  have hi : (chain.archive a).toList.foldl (fun index entry =>
      Recovery.indexRecoveredBlock P provider index entry.2) index =
      chain.indexArchive provider index a := by
    rw [chain.toList_archive, foldl_map]
    rfl
  rw [Recovery.recoverFinalizedState, hi, Recovery.restoreCheckpointAndReplayTail] at h
  cases a with
  | zero => exact .inl ⟨rfl, (Except.ok.inj h).symm⟩
  | succ a =>
    rw [chain.getLast?_archive] at h
    dsimp only at h
    right
    cases marker with
    | none =>
      -- without a marker the head of the archive is trusted
      have hres := (Except.ok.inj h).symm
      rw [chain.height _ ha] at hres
      exact .inl ⟨Nat.succ_pos a, rfl, hres⟩
    | some m =>
      obtain ⟨hpos, hlen⟩ := hm m rfl
      rw [Option.map_some, chain.findCheckpoint_archive ha hlen hpos] at h
      split at h
      -- the marked block has to be in the archive
      · next checkpoint hf =>
        split at hf
        · next hma =>
          obtain rfl := Option.some.inj hf
          rw [chain.height _ ha, chain.height _ hlen] at h
          exact .inr ⟨m, rfl, hpos, hma, h⟩
        · cases hf
      · cases h

/-- **When recovery is crash consistent.** After any archive syncs, commits and marker writes, a
restart that does not stop with an error has come out right exactly when the marker names the last
commit, or there is none and the database is at the head of the archive. -/
theorem recovery_consistent_iff {chain : Chain P} {q₀ : QmdbStore} (hq : chain.StartsFrom q₀)
    (hsd : chain.Undestroyed) (events : List Durable.Event) (d : Durable)
    (hd : d = events.foldl (Durable.step chain) Durable.new) (index : BlockIndex)
    (provider : RevmContextProvider) {restored : Recovery.Restored}
    (hres : Recovery.recoverFinalizedState P
      (LedgerState.init P (q₀.commitGroups d.commits) (chain.block 0)) index provider
      (chain.archive d.archived) (d.marker.map chain.digest) = .ok restored) :
    Recovered chain d restored ↔
      (d.marker = some d.committed ∧ 0 < d.archived) ∨
        (d.marker = none ∧ d.committed = d.archived) := by
  have hv : d.Valid chain := hd ▸ Durable.Valid.run chain events
  have hi := HoldsTail.init chain (q₀.commitGroups d.commits)
  have hlen : ∀ m, d.marker = some m → 0 < m ∧ m ≤ chain.length := fun m hm =>
    ⟨(hv.marker m hm).1, (hv.marker m hm).2.trans hv.committed⟩
  rcases Recovery.recoverFinalizedState_cases hv.archived hlen hres with
    ⟨hzero, rfl⟩ | ⟨hpos, hnone, rfl⟩ | ⟨m, hm, hpos, hma, hr⟩
  · -- an empty archive: the node starts as from genesis
    rw [hzero, hi.recovered_iff hq hsd hv rfl]
    cases hm : d.marker with
    | none => simp
    | some m =>
      -- a marker means a commit, and nothing is archived that could follow it
      have hrn := hv.marker m hm
      constructor
      · intro heq
        omega
      · rintro (⟨-, hf⟩ | ⟨hf, -⟩)
        · omega
        · cases hf
  · -- no marker: the restart stands on the head of the archive
    rw [(hi.restorePersistedSnapshot hpos hv.archived).recovered_iff hq hsd hv rfl,
      hnone]
    simp
  · -- a marker: the restart stands on the marked block and replays what is archived after it
    obtain ⟨ht, hqm, hh⟩ := (hi.restorePersistedSnapshot hpos
      (hlen m hm).2).replayTail hv.archived (by omega) hr
    obtain ⟨l, idx, r, digest, replayed⟩ := restored
    obtain rfl : r = d.archived := hh
    have ha : 0 < d.archived := hpos.trans_le hma
    rw [ht.recovered_iff hq hsd hv hqm, hm]
    simp [ha, eq_comm]

section

open ThreeBlocks

/-- A checkpoint at block `1` with its marker, and block `2` archived after it: the restart replays
block `2`. -/
theorem recovery_consistent_iff_replay : ∃ restored,
    Recovery.recoverFinalizedState platform (LedgerState.init platform
      (QmdbStore.new.commitGroups [[(chain 3 le_rfl).changes 1]]) (block 0)) BlockIndex.new
      ⟨30000000, 0⟩ ((chain 3 le_rfl).archive 2) (some ((chain 3 le_rfl).digest 1)) = .ok restored ∧
    Recovered (chain 3 le_rfl) ⟨2, 1, [[(chain 3 le_rfl).changes 1]], [], some 1⟩ restored := by
  cases hres : Recovery.recoverFinalizedState platform (LedgerState.init platform
      (QmdbStore.new.commitGroups [[(chain 3 le_rfl).changes 1]]) (block 0)) BlockIndex.new
      ⟨30000000, 0⟩ ((chain 3 le_rfl).archive 2) (some ((chain 3 le_rfl).digest 1)) with
  | error e =>
    have hf : Except.isOk _ = false := congrArg Except.isOk hres
    exact absurd hf (by decide +kernel)
  | ok restored =>
    refine ⟨restored, rfl, ?_⟩
    exact (recovery_consistent_iff (startsFrom _) (undestroyed _) [.sync, .commit 1, .writeMarker,
      .sync] ⟨2, 1, [[(chain 3 le_rfl).changes 1]], [], some 1⟩ rfl BlockIndex.new ⟨30000000, 0⟩
      hres).2 (.inl ⟨rfl, by decide⟩)

/-- A checkpoint at block `1` without its marker, and block `2` archived after it: the restart takes
the database to be at block `2`, whose changes are in no store. -/
theorem recovery_misses_block :
    ¬ ∀ (P : Platform) (chain : Chain P) (q₀ : QmdbStore), chain.StartsFrom q₀ →
      chain.Undestroyed → ∀ (events : List Durable.Event) (d : Durable),
      d = events.foldl (Durable.step chain) Durable.new →
      ∀ (index : BlockIndex) (provider : RevmContextProvider) (restored : Recovery.Restored),
      Recovery.recoverFinalizedState P
        (LedgerState.init P (q₀.commitGroups d.commits) (chain.block 0)) index provider
        (chain.archive d.archived) (d.marker.map chain.digest) = .ok restored →
      Recovered chain d restored := by
  intro h
  obtain ⟨s, entries, -, hw, ho, -⟩ := h platform (chain 3 le_rfl) QmdbStore.new
    (startsFrom _) (undestroyed _) [.sync, .commit 1, .sync] _ rfl BlockIndex.new ⟨30000000, 0⟩ _
    rfl
  obtain rfl : [] = entries := Except.ok.inj hw
  exact absurd (congrArg List.length ho) (by decide)

end

end Kora
