/-
State queries over RPC (`latest_state` of `node/ledger/src/lib.rs`,
`node/ledger/src/live_state.rs`, `node/rpc/src/indexed_provider.rs`).

The state that RPC serves, whatever the tag, is that of the snapshot that was inserted
last, finalized or not.

* `Live` — the head is a finalized block, and every snapshot of the chain shows its block
  or, once its block is committed, the database;
* `finalized_answers` — then `safe` and `finalized` answers are those of finalized blocks,
  in order.
-/
import Kora.Durability
import Kora.Code

open Std List

namespace Kora

open ChangeSet QmdbStore InMemorySnapshotStore LedgerState FinalizedReporter

/-! ### The queries -/

/-- The overlay for the latest executed state known to the ledger. -/
def LedgerState.latestState (self : LedgerState) : OverlayState QmdbStore :=
  match self.snapshots.get self.head with
  | some snapshot => OverlayState.new self.qmdb snapshot.state
  | none => OverlayState.new self.qmdb ChangeSet.new

inductive BlockTag where
  | earliest
  | finalized
  | safe
  | latest
  | pending
deriving DecidableEq

inductive BlockNumberOrTag where
  | number (number : U64)
  | tag (tag : BlockTag)
  | latest
deriving DecidableEq

/-- The errors of state and log queries and of transactions that are sent. -/
inductive RpcError where
  | accountNotFound (address : Address)
  | invalidBlockNumber (message : String)
  | invalidTransaction (message : String)
  | invalidParams (message : String)
  | stateError (message : String)
  | internal (message : String)
  | unsupported (message : String)
deriving DecidableEq

def stateErrorToRpc : StateDbError → RpcError
  | .accountNotFound address => .accountNotFound address
  | .codeNotFound hash => .stateError ("code not found: 0x" ++ hash.toHex)
  | .storage message => .stateError message
  | .lockPoisoned => .internal "lock poisoned"
  | .rootComputation message => .stateError message

/-- Reject requests for historical or future state. -/
def BlockIndex.rejectHistoricalBlock (self : BlockIndex) :
    Option BlockNumberOrTag → Except RpcError Unit
  | none | some .latest | some (.tag .latest) | some (.tag .pending) | some (.tag .safe)
  | some (.tag .finalized) => .ok ()
  | some (.number number) =>
    let head := self.headBlock
    let requested := number.toNat
    if requested = head then .ok ()
    else if requested > head then
      .error (.invalidBlockNumber
        s!"block not yet available (requested {requested}, head {head})")
    else .error (.unsupported s!"historical state not available (block {requested})")
  | some (.tag .earliest) => .error (.unsupported "historical state not available (tag Earliest)")

/-- The provider of state queries: a block index beside a state. -/
structure IndexedStateProvider (S : Type) where
  index : BlockIndex
  state : S

namespace IndexedStateProvider

variable {S S' : Type} [StateDbRead S] [StateDbRead S']

/-- A read with a value for accounts that are not there. -/
def orDefault {α : Type} (value : α) : Except StateDbError α → Except RpcError α
  | .ok a => .ok a
  | .error (.accountNotFound _) => .ok value
  | .error e => .error (stateErrorToRpc e)

def balance (self : IndexedStateProvider S) (address : Address)
    (block : Option BlockNumberOrTag) : Except RpcError U256 := do
  self.index.rejectHistoricalBlock block
  orDefault 0 (StateDbRead.balance self.state address)

def nonce (self : IndexedStateProvider S) (address : Address)
    (block : Option BlockNumberOrTag) : Except RpcError U64 := do
  self.index.rejectHistoricalBlock block
  orDefault 0 (StateDbRead.nonce self.state address)

def code (self : IndexedStateProvider S) (address : Address)
    (block : Option BlockNumberOrTag) : Except RpcError Bytes := do
  self.index.rejectHistoricalBlock block
  match StateDbRead.codeHash self.state address with
  | .error (.accountNotFound _) => .ok []
  | .error e => .error (stateErrorToRpc e)
  | .ok codeHash =>
    if codeHash = 0 ∨ codeHash = KECCAK256_EMPTY then .ok []
    else match StateDbRead.code self.state codeHash with
      | .ok bytes => .ok bytes
      | .error (.codeNotFound _) => .ok []
      | .error e => .error (stateErrorToRpc e)

def storage (self : IndexedStateProvider S) (address : Address) (slot : U256)
    (block : Option BlockNumberOrTag) : Except RpcError U256 := do
  self.index.rejectHistoricalBlock block
  orDefault 0 (StateDbRead.storage self.state address slot)

/-- Two providers answer every query about an address alike. -/
structure SameAnswers (provider : IndexedStateProvider S) (other : IndexedStateProvider S')
    (block : Option BlockNumberOrTag) (address : Address) : Prop where
  balance : provider.balance address block = other.balance address block
  nonce : provider.nonce address block = other.nonce address block
  code : provider.code address block = other.code address block
  storage : ∀ slot, provider.storage address slot block = other.storage address slot block

theorem sameAnswers_of_reads {index : BlockIndex} {state : S} {state' : S'} {address : Address}
    (hr : reads state address = reads state' address)
    (hc : ∀ hash, StateDbRead.codeHash state address = .ok hash → ¬ NoCode hash →
      StateDbRead.code state hash = StateDbRead.code state' hash)
    (block : Option BlockNumberOrTag) :
    SameAnswers ⟨index, state⟩ ⟨index, state'⟩ block address := by
  have hb : StateDbRead.balance state address = StateDbRead.balance state' address :=
    congrArg AccountReads.balance hr
  have hn : StateDbRead.nonce state address = StateDbRead.nonce state' address :=
    congrArg AccountReads.nonce hr
  have hh : StateDbRead.codeHash state address = StateDbRead.codeHash state' address :=
    congrArg AccountReads.codeHash hr
  have hs : StateDbRead.storage state address = StateDbRead.storage state' address :=
    congrArg AccountReads.storage hr
  refine ⟨?_, ?_, ?_, fun slot => ?_⟩
  · rw [balance, balance, hb]
  · rw [nonce, nonce, hn]
  · rw [code, code]
    simp only [← hh]
    cases hrd : StateDbRead.codeHash state address with
    | error e => cases e <;> rfl
    | ok hash =>
      by_cases hno : hash = 0 ∨ hash = KECCAK256_EMPTY
      · simp only [if_pos hno]
      · simp only [if_neg hno]
        rw [hc hash hrd (fun h => hno h.symm)]
  · rw [storage, storage, hs]

end IndexedStateProvider

/-! ### The state after a finalized block -/

theorem QmdbStore.commitGroups_append (q : QmdbStore) (groups groups' : List (List ChangeSet)) :
    q.commitGroups (groups ++ groups') = (q.commitGroups groups).commitGroups groups' := by
  rw [commitGroups, commitGroups, commitGroups, map_append, commitAll, foldl_append]
  rfl

/-- The database after the first `i` blocks, each committed on its own. -/
def Chain.database {P : Platform} (chain : Chain P) (q₀ : QmdbStore) (i : ℕ) : QmdbStore :=
  q₀.commitGroups ((changesUpTo chain.outcome i).map ([·]))

/-- What is assumed of code: the genesis database comes from commits; these and the blocks bring the
code along that their accounts have; and analysing code again does not change it. -/
structure Chain.Coded {P : Platform} (chain : Chain P) (q₀ : QmdbStore) (B : Bytecodes) :
    Prop where
  traced : ∃ groups, q₀ = QmdbStore.new.commitGroups groups ∧
    B.Traced (groups.flatten ++ changesUpTo chain.outcome chain.length)
  settled : ∀ code ∈ B.deployed, B.analyse (B.analyse code) = B.analyse code

theorem Bytecodes.iterate_analyse {B : Bytecodes} {code : Bytes}
    (hs : B.analyse (B.analyse code) = B.analyse code) (n : ℕ) :
    B.analyse^[n + 1] code = B.analyse code := by
  induction n with
  | zero => rfl
  | succ n ih => rw [Function.iterate_succ_apply', ih, hs]

theorem HistoryView.code_eq {B : Bytecodes} {history : List ChangeSet}
    (view view' : HistoryView history) (ht : B.Traced history)
    (hst : ∀ code ∈ B.deployed, B.analyse (B.analyse code) = B.analyse code)
    {address : Address} {hash : B256} (h : StateDbRead.codeHash view.state address = .ok hash)
    (h' : StateDbRead.codeHash view'.state address = .ok hash) (hc : ¬ NoCode hash) :
    StateDbRead.code view.state hash = StateDbRead.code view'.state hash := by
  have hm : hash ≠ COMMIT_SEQ_CODE_KEY := (view.codeHash_known ht h).unmarked hc
  -- either finds bytes that stem from the one code with the hash
  have hs : ∀ v : HistoryView history, ∀ bytes, StateDbRead.code v.state hash = .ok bytes →
      ∃ code ∈ B.deployed, B.keccak256 code = hash ∧ bytes = B.analyse code := by
    intro v bytes hb
    obtain hno | ⟨code, hd, hh, n, rfl⟩ := v.code_stems ht hm hb
    · exact absurd hno hc
    · exact ⟨code, hd, hh, B.iterate_analyse (hst code hd) n⟩
  obtain ⟨bytes, hb⟩ := view.code_found ht h hc
  obtain ⟨bytes', hb'⟩ := view'.code_found ht h' hc
  obtain ⟨code, hd, hh, rfl⟩ := hs view bytes hb
  obtain ⟨code', hd', hh', rfl⟩ := hs view' bytes' hb'
  obtain rfl := B.injective hd hd' (hh.trans hh'.symm)
  rw [hb, hb']

theorem OverlayState.code_new (q : QmdbStore) (hash : B256) :
    StateDbRead.code (OverlayState.new q ChangeSet.new) hash = StateDbRead.code q hash := by
  rcases OverlayState.code_cases q ChangeSet.new hash with ⟨address, u, -, hu, -⟩ | ⟨-, hb⟩
  · rw [getElem?_new] at hu
    cases hu
  · exact hb

theorem flatten_changesUpTo (outcome : ℕ → ExecutionOutcome) (i : ℕ) :
    ((changesUpTo outcome i).map ([·])).flatten = changesUpTo outcome i :=
  flatMap_singleton' _

section Reads

variable {P : Platform} {chain : Chain P} {q₀ : QmdbStore} {B : Bytecodes}

theorem Chain.StartsFrom.reads_database (hq : chain.StartsFrom q₀) (hsd : chain.Undestroyed)
    {i : ℕ} (hi : i ≤ chain.length) {address : Address} (ha : address ≠ COMMIT_SEQ_ACCOUNT_KEY) :
    reads (chain.database q₀ i) address = chain.state i address := by
  have hr := hq.room address ha
  have hf := flatten_changesUpTo chain.outcome i
  have hu : ∀ ch ∈ ((changesUpTo chain.outcome i).map ([·])).flatten, ch.Undestroyed := by
    rw [hf]
    exact fun ch hch => hsd.upTo hi hch
  have hl : ((changesUpTo chain.outcome i).map ([·])).length = i := by
    rw [length_map, length_changesUpTo]
  rw [Chain.database, reads_commitGroups_eq hq.clean hu ha (by omega), hf, Chain.state,
    hq.genesis]

/-- **Pending changes** read as the database after the block they reach to, code included. -/
theorem pending_eq_database (hq : chain.StartsFrom q₀) (hsd : chain.Undestroyed)
    (hcd : chain.Coded q₀ B) {groups : List (List ChangeSet)} {k : ℕ}
    (hc : groups.flatten = changesUpTo chain.outcome k)
    (hcn : groups.length ≤ chain.length) {i j : ℕ} (hjk : j ≤ k) (hki : k ≤ i)
    (hi : i ≤ chain.length) {state : OverlayState QmdbStore}
    (hs : state = OverlayState.new (q₀.commitGroups groups)
      (mergeAll ((changesUpTo chain.outcome i).drop j)))
    {address : Address} (ha : address ≠ COMMIT_SEQ_ACCOUNT_KEY) :
    reads state address = reads (chain.database q₀ i) address ∧
      ∀ hash, StateDbRead.codeHash state address = .ok hash → ¬ NoCode hash →
        StateDbRead.code state hash = StateDbRead.code (chain.database q₀ i) hash := by
  subst hs
  have hr := (hq.reads_pending hsd hc hcn hjk hki hi ha).trans
    (hq.reads_database hsd hi ha).symm
  refine ⟨hr, fun hash hh hco => ?_⟩
  obtain ⟨genesis, rfl, ht⟩ := hcd.traced
  -- both states are views of the history from the empty database on
  have hin : genesis.flatten ++ changesUpTo chain.outcome i <+:
      genesis.flatten ++ changesUpTo chain.outcome chain.length :=
    (prefix_append_right_inj _).2 (changesUpTo_initial _ hi)
  obtain ⟨rest, hrs⟩ := hin
  rw [← hrs] at ht
  have ht := (Bytecodes.traced_append.1 ht).1
  let view : HistoryView (genesis.flatten ++ changesUpTo chain.outcome i) :=
    { groups := genesis ++ groups
      pending := genesis.flatten.length + j
      committed := by
        rw [flatten_append, hc]
        exact (prefix_append_right_inj _).2 (changesUpTo_initial _ hki)
      reaches := by
        rw [flatten_append, hc, length_append, length_changesUpTo]
        omega }
  have hv : view.state = OverlayState.new ((QmdbStore.new.commitGroups genesis).commitGroups
      groups) (mergeAll ((changesUpTo chain.outcome i).drop j)) := by
    rw [HistoryView.state, commitGroups_append, drop_length_add_append]
  have hf := flatten_changesUpTo chain.outcome i
  let view' : HistoryView (genesis.flatten ++ changesUpTo chain.outcome i) :=
    { groups := genesis ++ (changesUpTo chain.outcome i).map ([·])
      pending := genesis.flatten.length + i
      committed := by rw [flatten_append, hf]
      reaches := by rw [flatten_append, hf, length_append, length_changesUpTo] }
  have hv' : view'.state = OverlayState.new (chain.database (QmdbStore.new.commitGroups genesis)
      i) ChangeSet.new := by
    rw [HistoryView.state, commitGroups_append, drop_length_add_append,
      drop_of_length_le (length_changesUpTo ..).le]
    rfl
  have hh' : StateDbRead.codeHash view'.state address = .ok hash := by
    rw [hv', ← hh]
    exact (congrArg AccountReads.codeHash hr).symm
  rw [← hv] at hh ⊢
  rw [← OverlayState.code_new, ← hv']
  exact view.code_eq view' ht hcd.settled hh hh' hco

end Reads

/-! ### The head -/

section Head

variable {P : Platform}

/-- The database holds the first `k` blocks, the head is block `m`, and both are among the `n`
finalized ones. The snapshots of committed blocks are compact; those above show the chain up to
their block. -/
structure Live (chain : Chain P) (q₀ : QmdbStore) (k m n : ℕ) (l : LedgerState) : Prop where
  holds : HoldsPrefix chain q₀ k l
  committed : k ≤ n
  le : n ≤ chain.length
  head : l.head = chain.digest m
  finalized : m ≤ n
  present : k < m → ∃ s, l.snapshots.get (chain.digest m) = some s
  compact : ∀ i ≤ k, ∀ s, l.snapshots.get (chain.digest i) = some s → s.state = ChangeSet.new
  pending : ∀ i, k < i → i ≤ chain.length → ∀ s, l.snapshots.get (chain.digest i) = some s →
    ∃ j ≤ k, s.state = mergeAll ((changesUpTo chain.outcome i).drop j)

def Chain.Extends (chain : Chain P) (i : ℕ) (l : LedgerState) : Prop :=
  chain.UnmarkedAbove i l ∧ ∀ m ≤ chain.length, l.head = chain.digest m → m ≤ i + 1

namespace Live

variable {chain : Chain P} {q₀ : QmdbStore} {k m n i : ℕ} {l : LedgerState}

theorem init (chain : Chain P) (q₀ : QmdbStore) :
    Live chain q₀ 0 0 0 (LedgerState.init P q₀ (chain.block 0)) where
  holds := .init chain q₀
  committed := le_rfl
  le := Nat.zero_le _
  head := rfl
  finalized := le_rfl
  present h := absurd h (lt_irrefl 0)
  compact i hi s hs := by
    rw [get_init] at hs
    split at hs
    · obtain rfl := Option.some.inj hs
      rfl
    · cases hs
  pending i hpos hi s hs := by
    rw [get_init] at hs
    split at hs
    · next heq => exact absurd heq (chain.digest_ne_of_lt hpos hi)
    · cases hs

variable (h : Live chain q₀ k m n l)
include h

/-- **What the head shows**: the chain's state at the head or, past it, at the end of what is
committed. -/
theorem latestState :
    ∃ j ≤ k, l.latestState =
      OverlayState.new l.qmdb (mergeAll ((changesUpTo chain.outcome (max m k)).drop j)) := by
  rcases Nat.lt_or_ge k m with hkm | hmk
  · obtain ⟨s, hs⟩ := h.present hkm
    obtain ⟨j, hj, hst⟩ := h.pending m hkm (h.finalized.trans h.le) s hs
    refine ⟨j, hj, ?_⟩
    rw [LedgerState.latestState, h.head, hs, max_eq_left hkm.le]
    exact congrArg (OverlayState.new l.qmdb) hst
  · refine ⟨k, le_rfl, ?_⟩
    rw [max_eq_right hmk, drop_of_length_le (length_changesUpTo ..).le, LedgerState.latestState,
      h.head]
    cases hs : l.snapshots.get (chain.digest m) with
    | none => rfl
    | some s =>
      show OverlayState.new l.qmdb s.state = _
      rw [h.compact m hmk s hs]
      rfl

theorem mono {n' : ℕ} (hn : n ≤ n') (hle : n' ≤ chain.length) : Live chain q₀ k m n' l :=
  { h with committed := h.committed.trans hn, le := hle, finalized := h.finalized.trans hn }

theorem le_of_extends (hext : chain.Extends i l) : k ≤ i ∧ m ≤ i + 1 := by
  refine ⟨?_, hext.2 m (h.finalized.trans h.le) h.head⟩
  by_contra hlt
  exact hext.1 k (by omega) h.holds.le ((h.holds.persisted _).2 ⟨k, le_rfl, rfl⟩)

theorem overlay (hki : k ≤ i) (hi : i ≤ chain.length) {s : Snapshot}
    (hs : l.snapshots.get (chain.digest i) = some s) :
    ∃ j ≤ k, s.state = mergeAll ((changesUpTo chain.outcome i).drop j) := by
  rcases Nat.lt_or_ge k i with hlt | hge
  · exact h.pending i hlt hi s hs
  · obtain rfl : k = i := by omega
    refine ⟨k, le_rfl, ?_⟩
    rw [h.compact k le_rfl s hs, drop_of_length_le (length_changesUpTo ..).le]
    rfl

theorem insertExecuted (hin : i + 1 ≤ n) (hki : k ≤ i) {context : BlockContext} {parent : Snapshot}
    {outcome : ExecutionOutcome}
    (he : l.executeOnParent P context (chain.block (i + 1)) = .ok (parent, outcome)) :
    Live chain q₀ k (i + 1) n
      (l.insertExecuted P (chain.block (i + 1)) parent outcome.changes) := by
  have hi : i + 1 ≤ chain.length := hin.trans h.le
  have hget := get_insertExecuted P l (chain.block (i + 1)) parent outcome.changes
  refine ⟨h.holds.insertExecuted he, h.committed, h.le, rfl, hin, fun _ => ?_, ?_, ?_⟩
  · exact ⟨_, (hget _).trans (if_pos rfl)⟩
  · intro i' hi' s hs
    have hne : P.commitment (chain.block (i + 1)) ≠ chain.digest i' :=
      (chain.digest_ne_of_lt (by omega) hi).symm
    rw [hget, if_neg hne] at hs
    exact h.compact i' hi' s hs
  · intro i' hki' hi' s hs
    rw [hget] at hs
    split at hs
    · next heq =>
      -- the changes of the block, on top of what its parent shows
      obtain rfl : i + 1 = i' := chain.digest_inj hi hi' heq
      obtain rfl := Option.some.inj hs
      obtain ⟨hp, -, -⟩ := (executeOnParent_ok P).1 he
      rw [chain.parent_block hi] at hp
      obtain ⟨j, hj, hst⟩ := h.overlay hki (by omega) hp
      have hc : outcome.changes = (chain.outcome (i + 1)).changes :=
        h.holds.root.changes_eq hi he
      refine ⟨j, hj, ?_⟩
      show parent.state.merge outcome.changes = _
      rw [hst, hc, changesUpTo_succ, drop_append_of_le_length, mergeAll_concat]
      rw [length_changesUpTo]
      omega
    · exact h.pending i' hki' hi' s hs

theorem persistSnapshot (hin : i ≤ n) :
    ∃ k', k ≤ k' ∧ k' ≤ max k i ∧
      Live chain q₀ k' m n (l.persistSnapshot (chain.digest i)).1 := by
  have hi : i ≤ chain.length := hin.trans h.le
  rcases h.holds.persistSnapshot_cases hi with hsm | ⟨hc, hh⟩
  · rw [hsm]
    exact ⟨k, le_rfl, le_max_left _ _, h⟩
  -- a block of the chain is marked exactly if it is in the new prefix
  have hu : ∀ i' ≤ chain.length, max k i < i' →
      chain.digest i' ∉ (l.persistSnapshot (chain.digest i)).1.snapshots.persisted := by
    intro i' hi' hlt hmem
    obtain ⟨i'', hle, heq⟩ := (hh.persisted _).1 hmem
    have hidx := chain.digest_inj hi' (hle.trans hh.le) heq
    omega
  refine ⟨max k i, le_max_left _ _, le_rfl, hh, max_le h.committed hin, h.le, ?_, h.finalized,
    ?_, ?_, ?_⟩
  · rw [head_persistSnapshot]
    exact h.head
  · intro hlt
    rw [get_persistSnapshot (hu m (h.finalized.trans h.le) hlt)]
    exact h.present (by omega)
  · intro i' hi' s hs
    have hi'le : i' ≤ chain.length := hi'.trans hh.le
    rcases Nat.lt_or_ge k i' with hlt | hge
    · refine compact_persistSnapshot (fun hmem => ?_)
        ((hh.persisted _).2 ⟨i', hi', rfl⟩) hs
      obtain ⟨i'', hle, heq⟩ := (h.holds.persisted _).1 hmem
      have hidx := chain.digest_inj hi'le (hle.trans h.holds.le) heq
      omega
    · obtain ⟨s₀, hs₀, ⟨-, rfl⟩ | rfl⟩ := hc.snapshots _ s hs
      · rfl
      · exact h.compact i' hge s hs₀
  · intro i' hlt hi' s hs
    rw [get_persistSnapshot (hu i' hi' hlt)] at hs
    obtain ⟨j, hj, hst⟩ := h.pending i' (by omega) hi' s hs
    exact ⟨j, by omega, hst⟩

theorem restorePersistedSnapshot (hik : i + 1 ≤ k) :
    Live chain q₀ k (i + 1) n (l.restorePersistedSnapshot P (chain.block (i + 1))) := by
  have hi : i + 1 ≤ chain.length := hik.trans h.holds.le
  have hget := get_restorePersistedSnapshot P l (chain.block (i + 1))
  have hm := mem_persisted_restorePersistedSnapshot P l (chain.block (i + 1))
  have hh : HoldsPrefix chain q₀ k (l.restorePersistedSnapshot P (chain.block (i + 1))) := by
    refine ⟨h.holds.le, fun d => ?_, h.holds.committed,
      h.holds.root.restorePersistedSnapshot _, fun i' hi' s hs => ?_⟩
    · rw [hm, h.holds.persisted]
      refine ⟨?_, .inr⟩
      rintro (rfl | hold)
      · exact ⟨i + 1, hik, rfl⟩
      · exact hold
    · rw [hget] at hs
      split at hs
      · next heq =>
        obtain rfl : i = i' := Nat.succ.inj (chain.digest_inj hi hi' heq)
        obtain rfl := Option.some.inj hs
        exact ⟨congrArg some (chain.parent_block hi), fun hki => by omega⟩
      · exact h.holds.linked i' hi' s hs
  refine ⟨hh, h.committed, h.le, rfl, hik.trans h.committed, fun hlt => by omega, ?_, ?_⟩
  · intro i' hi' s hs
    rw [hget] at hs
    split at hs
    · obtain rfl := Option.some.inj hs
      rfl
    · exact h.compact i' hi' s hs
  · intro i' hlt hi' s hs
    have hne : P.commitment (chain.block (i + 1)) ≠ chain.digest i' :=
      chain.digest_ne_of_lt (by omega) hi'
    rw [hget, if_neg hne] at hs
    exact h.pending i' hlt hi' s hs

end Live

/-! ### Runs -/

namespace Node

/-- The provider of state queries of a node. -/
def rpc (self : Node) : IndexedStateProvider (OverlayState QmdbStore) where
  index := self.index
  state := self.ledger.latestState

/-- The number of the highest finalized block after an operation. -/
def Op.finalizes (n : ℕ) : Op → ℕ
  | .finalize block _ => max n block.height
  | _ => n

/-- One operation on a node, beside the number of the highest finalized block. -/
def track (P : Platform) (s : Node × ℕ) (op : Op) : Node × ℕ := (s.1.step P op, op.finalizes s.2)

/-- The operation puts at the head only a finalized block that is not behind the state shown: one
that is executed and extends the head, or is restored when it and the head are committed; other
blocks are known. What is persisted is finalized. -/
def Op.Settled (chain : Chain P) (s : Node × ℕ) : Op → Prop
  | .build .. => True
  | .verify block _ _ => (s.1.ledger.queryStateRoot (P.commitment block)).isSome ∨
      ¬ s.1.app.Trusts P s.1.ledger block ∧
        ∃ i, i + 1 ≤ s.2 ∧ block = chain.block (i + 1) ∧ chain.Extends i s.1.ledger
  | .finalize block _ => ∃ i < chain.length, block = chain.block (i + 1) ∧
      ((s.1.ledger.queryStateRoot (chain.digest (i + 1))).isSome ∨
        (¬ FinalizedReporter.Restores P s.1.ledger block ∧ chain.Extends i s.1.ledger) ∨
        (FinalizedReporter.Restores P s.1.ledger block ∧
          chain.digest (i + 1) ∈ s.1.ledger.snapshots.persisted ∧
          s.1.ledger.head ∈ s.1.ledger.snapshots.persisted))
  | .persist digest => ∃ i ≤ s.2, digest = chain.digest i

end Node

namespace Live

variable {chain : Chain P} {q₀ : QmdbStore} {k m n : ℕ} {node : Node}

theorem ensureSnapshot (h : Live chain q₀ k m n node.ledger) {i : ℕ} (hin : i + 1 ≤ n)
    (hst : (node.ledger.queryStateRoot (chain.digest (i + 1))).isSome ∨
      (¬ FinalizedReporter.Restores P node.ledger (chain.block (i + 1)) ∧
        chain.Extends i node.ledger) ∨
      (FinalizedReporter.Restores P node.ledger (chain.block (i + 1)) ∧
        chain.digest (i + 1) ∈ node.ledger.snapshots.persisted ∧
        node.ledger.head ∈ node.ledger.snapshots.persisted)) :
    ∃ m', max m k ≤ max m' k ∧ Live chain q₀ k m' n (FinalizedReporter.ensureSnapshot P node.ledger
      node.index node.provider true (chain.block (i + 1))).1 := by
  rcases hst with hk | ⟨hr, hext⟩ | ⟨hr, hmr, hh⟩
  · rw [ensureSnapshot_known P hk]
    exact ⟨m, le_rfl, h⟩
  · obtain ⟨hki, hmi⟩ := h.le_of_extends hext
    rcases ensureSnapshot_cases P node.ledger node.index node.provider true
      (chain.block (i + 1)) with ⟨hs, -⟩ | ⟨hrs, -⟩ | ⟨parent, outcome, he, hres⟩
    · rw [hs]
      exact ⟨m, le_rfl, h⟩
    · exact absurd hrs hr
    · rw [hres]
      exact ⟨i + 1, max_le_max_right k hmi, h.insertExecuted hin hki he⟩
  · -- the marks are on committed blocks, so what is shown is the database before and after
    obtain ⟨i', hi', heq⟩ := (h.holds.persisted _).1 hmr
    have hik : i + 1 ≤ k := by
      rw [chain.digest_inj (hin.trans h.le) (hi'.trans h.holds.le) heq]
      exact hi'
    have hmk : m ≤ k := by
      rw [h.head] at hh
      obtain ⟨m', hm', heq⟩ := (h.holds.persisted _).1 hh
      rw [chain.digest_inj (h.finalized.trans h.le) (hm'.trans h.holds.le) heq]
      exact hm'
    rcases ensureSnapshot_cases P node.ledger node.index node.provider true
      (chain.block (i + 1)) with ⟨hs, -⟩ | ⟨-, hres⟩ | ⟨parent, outcome, he, -⟩
    · rw [hs]
      exact ⟨m, le_rfl, h⟩
    · rw [hres]
      exact ⟨i + 1, by omega, h.restorePersistedSnapshot hik⟩
    · -- a block whose parent is gone is not executed
      have hm : node.ledger.executeOnParent P (node.provider.context node.index
          (chain.block (i + 1))) (chain.block (i + 1)) = .error .missingParent :=
        (executeOnParent_missingParent P).2 hr.2
      rw [hm] at he
      cases he

theorem step (h : Live chain q₀ k m n node.ledger) {op : Node.Op}
    (hop : op.Settled chain (node, n)) :
    ∃ k' m', max m k ≤ max m' k' ∧
      Live chain q₀ k' m' (op.finalizes n) (node.step P op).ledger := by
  cases op with
  | build mempool seeds parent timestamp => exact ⟨k, m, le_rfl, h⟩
  | verify block parentTimestamp nowSecs =>
    rcases node.app.verifyBlock_cases P node.ledger block parentTimestamp nowSecs
      with ⟨height, ok, hres⟩ | ⟨ht, -⟩ | ⟨parent, outcome, hex, hnone, hres⟩
    · rw [Node.step, hres]
      exact ⟨k, m, le_rfl, h⟩
    · rcases hop with hk | ⟨hno, -⟩
      · rw [ht.2.1] at hk
        cases hk
      · exact absurd ht hno
    · rcases hop with hk | ⟨-, i, hin, rfl, hext⟩
      · rw [hnone] at hk
        cases hk
      · obtain ⟨hki, hmi⟩ := h.le_of_extends hext
        rw [Node.step, hres]
        exact ⟨k, i + 1, max_le_max_right k hmi, h.insertExecuted hin hki hex⟩
  | finalize block persistCheckpoint =>
    obtain ⟨i, hi, rfl, hs⟩ := hop
    have hn : (Node.Op.finalize (chain.block (i + 1)) persistCheckpoint).finalizes n =
        max n (i + 1) := congrArg (max n) (chain.height (i + 1) hi)
    rw [hn]
    have hl := h.mono (le_max_left n (i + 1)) (max_le h.le hi)
    obtain ⟨m', hm', he⟩ := hl.ensureSnapshot (le_max_right n (i + 1)) hs
    rw [Node.step, handleFinalizedUpdate_ledger]
    rcases finalizeBlock_ledger P node.ledger node.index node.provider true
      (chain.block (i + 1)) persistCheckpoint with hres | hres
    · rw [hres]
      exact ⟨k, m', hm', he⟩
    · rw [hres]
      obtain ⟨k', hk', -, hp⟩ := he.persistSnapshot (le_max_right n (i + 1))
      exact ⟨k', m', hm'.trans (max_le_max_left m' hk'), hp⟩
  | persist digest =>
    obtain ⟨i, hin, rfl⟩ := hop
    obtain ⟨k', hk', -, hp⟩ := h.persistSnapshot hin
    exact ⟨k', m, max_le_max_left m hk', hp⟩

end Live

/-- The queries for `safe` and `finalized` are answered with the state after block `i`, which is
finalized. -/
def FinalizedAnswers (chain : Chain P) (q₀ : QmdbStore) (s : Node × ℕ) (i : ℕ) : Prop :=
  i ≤ s.2 ∧ ∀ tag, tag = .safe ∨ tag = .finalized → ∀ address, address ≠ COMMIT_SEQ_ACCOUNT_KEY →
    s.1.rpc.SameAnswers ⟨s.1.index, chain.database q₀ i⟩ (some (.tag tag)) address

theorem Live.shown_eq_database {chain : Chain P} {q₀ : QmdbStore} {B : Bytecodes} {k m n : ℕ}
    {l : LedgerState} (h : Live chain q₀ k m n l) (hq : chain.StartsFrom q₀)
    (hsd : chain.Undestroyed) (hc : chain.Coded q₀ B) {address : Address}
    (ha : address ≠ COMMIT_SEQ_ACCOUNT_KEY) :
    reads l.latestState address = reads (chain.database q₀ (max m k)) address ∧
      ∀ hash, StateDbRead.codeHash l.latestState address = .ok hash → ¬ NoCode hash →
        StateDbRead.code l.latestState hash =
          StateDbRead.code (chain.database q₀ (max m k)) hash := by
  obtain ⟨j, hj, hl⟩ := h.latestState
  obtain ⟨groups, hf, hlen, hqm⟩ := h.holds.committed
  have hle : max m k ≤ chain.length := (max_le h.finalized h.committed).trans h.le
  rw [hqm] at hl
  exact pending_eq_database hq hsd hc hf (hlen.trans h.holds.le) hj (le_max_right m k) hle
    hl ha

theorem Live.finalizedAnswers {chain : Chain P} {q₀ : QmdbStore} {B : Bytecodes} {k m n : ℕ}
    {node : Node} (h : Live chain q₀ k m n node.ledger) (hq : chain.StartsFrom q₀)
    (hsd : chain.Undestroyed) (hc : chain.Coded q₀ B) :
    FinalizedAnswers chain q₀ (node, n) (max m k) := by
  refine ⟨max_le h.finalized h.committed, fun tag _ address ha => ?_⟩
  obtain ⟨hr, hcd⟩ := h.shown_eq_database hq hsd hc ha
  exact IndexedStateProvider.sameAnswers_of_reads hr hcd _

/-- **State queries for `safe` and `finalized`.** Along every run whose steps put only finalized
blocks at the head, and none behind the state shown, the answers are those after a finalized block,
and never an earlier one than before. -/
theorem finalized_answers {chain : Chain P} {q₀ : QmdbStore} {B : Bytecodes}
    (hq : chain.StartsFrom q₀) (hsd : chain.Undestroyed) (hcoded : chain.Coded q₀ B)
    {maxTxs recoveredHeight : ℕ} {ops : List Node.Op}
    (hrun : Run.Along (Node.track P) (fun s op => op.Settled chain s)
      (Node.start P q₀ (chain.block 0) maxTxs chain.gasLimit chain.feeRecipient recoveredHeight, 0)
      ops) :
    ∃ shown : ℕ → ℕ, Monotone shown ∧ ∀ t, FinalizedAnswers chain q₀ ((ops.take t).foldl
      (Node.track P) (Node.start P q₀ (chain.block 0) maxTxs chain.gasLimit chain.feeRecipient
        recoveredHeight, 0)) (shown t) := by
  let Shows : Node × ℕ → ℕ → Prop := fun s v =>
    ∃ k m, v = max m k ∧ Live chain q₀ k m s.2 s.1.ledger
  have hi : Shows (Node.start P q₀ (chain.block 0) maxTxs chain.gasLimit chain.feeRecipient
      recoveredHeight, 0) 0 := ⟨0, 0, rfl, Live.init chain q₀⟩
  have hst : ∀ (s : Node × ℕ) (op : Node.Op) (v : ℕ), Shows s v → op.Settled chain s →
      ∃ v', v ≤ v' ∧ Shows (Node.track P s op) v' := by
    rintro ⟨node, n⟩ op v ⟨k, m, rfl, h⟩ hop
    obtain ⟨k', m', hle, h'⟩ := h.step hop
    exact ⟨max m' k', hle, k', m', rfl, h'⟩
  obtain ⟨shown, -, hm, hs⟩ := hrun.exists_monotone hst hi
  refine ⟨shown, hm, fun t => ?_⟩
  obtain ⟨k, m, heq, h⟩ := hs t
  rw [heq]
  exact h.finalizedAnswers hq hsd hcoded

end Head

/-! ### A proposal that loses

The three blocks. No account of theirs has code. -/

namespace ThreeBlocks

def noCodes : Bytecodes where
  keccak256 _ := 0
  analyse := id
  deployed := ∅
  pads _ := prefix_rfl
  injective := Set.injOn_empty _
  nonzero _ h := absurd h (Set.notMem_empty _)
  unmarked _ h := absurd h (Set.notMem_empty _)

theorem sourced_changes {n : ℕ} (hn : n ≤ 3) {i : ℕ} {address : Address} {before : B256}
    {u : AccountUpdate} (hu : ((chain n hn).outcome (i + 1)).changes[address]? = some u) :
    noCodes.Sourced address before u := by
  have hu' : (extractChanges (evmAccountA false false
      (BitVec.ofNat 256 (UInt8.ofNat (i + 1)).toNat)))[address]? = some u := hu
  rw [extractChanges_getElem?, evmAccountA, ExtTreeMap.getElem?_insert] at hu'
  split at hu'
  · obtain rfl := Option.some.inj hu'
    refine ⟨.inl rfl, fun bytes hb => ?_, fun _ => .inl (.inl rfl), fun _ => .inl (.inl rfl)⟩
    cases hb
  · cases hu'

theorem traced {n : ℕ} (hn : n ≤ 3) (i : ℕ) :
    noCodes.Traced (changesUpTo (chain n hn).outcome i) := by
  induction i with
  | zero => exact fun address => trivial
  | succ i ih =>
    intro address
    rw [changesUpTo_succ, updatesOf_append, Bytecodes.chained_append]
    exact ⟨ih address, Bytecodes.chained_updatesOf_singleton fun u hu => sourced_changes hn hu⟩

theorem coded {n : ℕ} (hn : n ≤ 3) : (chain n hn).Coded QmdbStore.new noCodes where
  traced := ⟨[], rfl, traced hn n⟩
  settled _ h := absurd h (Set.notMem_empty _)

end ThreeBlocks

section

open ThreeBlocks

/-- A block is finalized and persisted, and then verified once more. -/
theorem finalized_answers_first :
    ∃ shown : ℕ → ℕ, Monotone shown ∧ ∀ t, FinalizedAnswers (chain 1 (by decide)) QmdbStore.new
      (([Node.Op.finalize (block 1) true, .verify (block 1) none 0].take t).foldl
        (Node.track platform) (Node.start platform QmdbStore.new (block 0) 10 30000000 0 0, 0))
      (shown t) := by
  have hrun : Run.Along (Node.track platform) (fun s op => op.Settled (chain 1 (by decide)) s)
      (Node.start platform QmdbStore.new (block 0) 10 30000000 0 0, 0)
      [Node.Op.finalize (block 1) true, .verify (block 1) none 0] := by
    refine ⟨⟨0, by decide, rfl, .inr (.inl ⟨fun h => absurd h.2 (by decide), ?_, ?_⟩)⟩, .inl ?_,
      trivial⟩
    · intro j hj hlen hmem
      obtain rfl : j = 1 := Nat.le_antisymm hlen hj
      exact absurd hmem (by decide +kernel)
    · intro m hm _
      exact hm
    · decide +kernel
  exact finalized_answers (startsFrom _) (undestroyed _) (coded _) hrun

/-- Block 1 is proposed and verified only, and its slot is served under the tag `finalized`. -/
theorem losing_proposal_served :
    ¬ ∀ (P : Platform) (chain : Chain P) (q₀ : QmdbStore) (B : Bytecodes), chain.StartsFrom q₀ →
      chain.Undestroyed → chain.Coded q₀ B → ∀ (maxTxs recoveredHeight : ℕ) (ops : List Node.Op),
      (∀ op ∈ ops, op.OnChain chain) →
      ∃ shown : ℕ → ℕ, Monotone shown ∧ ∀ t, FinalizedAnswers chain q₀ ((ops.take t).foldl
        (Node.track P) (Node.start P q₀ (chain.block 0) maxTxs chain.gasLimit chain.feeRecipient
          recoveredHeight, 0)) (shown t) := by
  intro h
  obtain ⟨shown, -, hsh⟩ := h platform (chain 0 (by decide)) QmdbStore.new noCodes
    (startsFrom _) (undestroyed _) (coded _) 10 0 [.verify (block 1) none 0] (by simp
      [Node.Op.OnChain])
  obtain ⟨hle, ha⟩ := hsh 1
  obtain hzero : shown 1 = 0 := Nat.le_zero.1 hle
  have hs := (ha .finalized (.inr rfl) 0xA (by decide)).storage 1
  rw [hzero] at hs
  exact absurd hs (by decide +kernel)

end

end Kora
