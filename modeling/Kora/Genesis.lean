/-
The genesis block at startup (`init_with_config_and_genesis_options` in `node/ledger`,
`QmdbLedger::init_with_genesis` in `storage/qmdb-ledger`, `init_genesis` in
`storage/handlers`).

A start checks that the three partitions carry the same commit number and, if the archive
is empty, commits the genesis allocation. The genesis block carries the root of whatever
the database then holds. Its number tells what that can be (`Numbered`).

* `genesis_block_same_iff` — a start computes the genesis block of a fresh node exactly if
  it finds no commit, or, on a node with finalized blocks, one.
-/
import Kora.Ledger

open Std

namespace Kora

/-! ### Commit sequence markers -/

def decodeCommitSeqAccount (bytes : AccountValue) : Option U64 :=
  (AccountEncoding.decode bytes.1).map (·.nonce)

def decodeCommitSeqCode (bytes : Bytes) : Option U64 :=
  if bytes.length < 8 then none else some (BigEndian.ofBytes 8 (bytes.take 8))

structure PartitionCommitSeqs where
  accounts : Option U64
  storage : Option U64
  code : Option U64
deriving DecidableEq

/-- All present sequences match, or there are none. -/
def PartitionCommitSeqs.isConsistent (self : PartitionCommitSeqs) : Bool :=
  match self.accounts, self.storage, self.code with
  | none, none, none => true
  | some a, some s, some c => a = s && s = c
  | _, _, _ => false

theorem PartitionCommitSeqs.isConsistent_iff {seqs : PartitionCommitSeqs} :
    seqs.isConsistent = true ↔ ∃ o, seqs = ⟨o, o, o⟩ := by
  constructor
  · intro h
    obtain ⟨accounts, storage, code⟩ := seqs
    rw [isConsistent] at h
    split at h
    · next ha hs hc => exact ⟨none, (mk.injEq ..).mpr ⟨ha, hs, hc⟩⟩
    · next a s c ha hs hc =>
      simp only [Bool.and_eq_true, decide_eq_true_eq] at h
      obtain ⟨rfl, rfl⟩ := h
      exact ⟨some a, (mk.injEq ..).mpr ⟨ha, hs, hc⟩⟩
    · cases h
  · rintro ⟨o, rfl⟩
    cases o <;> simp [isConsistent]

namespace Stores

/-- Read the commit sequence marker from each partition. -/
def commitSeqs (self : Stores) : PartitionCommitSeqs where
  accounts := (self.accounts COMMIT_SEQ_ACCOUNT_KEY).bind decodeCommitSeqAccount
  storage := (self.storage COMMIT_SEQ_STORAGE_KEY).bind fun value =>
    if value.toNat < 2 ^ 64 then some (value.setWidth 64) else none
  code := (self.code COMMIT_SEQ_CODE_KEY).bind decodeCommitSeqCode

/-- The number of the last commit, zero without one. -/
def commitSeq (self : Stores) : U64 := self.commitSeqs.accounts.getD 0

end Stores

/-! ### Starting on a database -/

namespace QmdbStore

/-- Open the stores that were found, if their markers are consistent. -/
def openStores (stores : Stores) : Except PartitionCommitSeqs QmdbStore :=
  if stores.commitSeqs.isConsistent then .ok ⟨stores, stores.commitSeq⟩
  else .error stores.commitSeqs

def genesisChanges (allocs : List (Address × U256)) : ChangeSet :=
  ⟨allocs.foldl (fun accounts alloc => accounts.insert alloc.1
    { created := true, selfdestructed := false, nonce := 0, balance := alloc.2
      codeHash := KECCAK256_EMPTY, code := none, storage := ∅ }) ∅⟩

def initGenesis (self : QmdbStore) (allocs : List (Address × U256)) : QmdbStore :=
  self.commitChanges (genesisChanges allocs)

/-- Open the stores, and apply the genesis allocation if asked to. -/
def initWithGenesis (stores : Stores) (allocs : List (Address × U256)) (applyGenesis : Bool) :
    Except PartitionCommitSeqs QmdbStore :=
  (openStores stores).map fun q => if applyGenesis then q.initGenesis allocs else q

/-- What is on disk if the process dies when some of the three partitions have been written. -/
def crashDuring (self : QmdbStore) (changes : ChangeSet) (written : ℕ) : Stores :=
  let committed := (self.commitChanges changes).stores
  { accounts := if 1 ≤ written then committed.accounts else self.stores.accounts
    storage := if 2 ≤ written then committed.storage else self.stores.storage
    code := if 3 ≤ written then committed.code else self.stores.code }

end QmdbStore

/-- The stores on the disk, whether the archive has a block, and the running process's commit
number. -/
structure Machine where
  stores : Stores
  archived : Bool
  running : Option U64

namespace Machine

def new : Machine := ⟨QmdbStore.new.stores, false, none⟩

inductive Event where
  | start
  /-- The process dies while a start writes the genesis allocation. -/
  | startCrash (written : ℕ)
  | commit (changes : ChangeSet)
  /-- The process dies while it commits. -/
  | commitCrash (changes : ChangeSet) (written : ℕ)
  /-- A finalized block reaches the archive. -/
  | archive
  /-- The process stops, or dies between two commits. -/
  | stop

/-- The database of a process that starts now. -/
def startStore (allocs : List (Address × U256)) (self : Machine) :
    Except PartitionCommitSeqs QmdbStore :=
  QmdbStore.initWithGenesis self.stores allocs (!self.archived)

def step (allocs : List (Address × U256)) (self : Machine) : Event → Machine
  | .start =>
    match self.running, self.startStore allocs with
    | none, .ok q => { self with stores := q.stores, running := some q.commitSeq }
    | _, _ => self
  | .startCrash written =>
    match self.running, QmdbStore.openStores self.stores with
    | none, .ok q =>
      if self.archived then self
      else { self with stores := q.crashDuring (QmdbStore.genesisChanges allocs) written }
    | _, _ => self
  | .commit changes =>
    match self.running with
    | some seq =>
      let q := (⟨self.stores, seq⟩ : QmdbStore).commitChanges changes
      { self with stores := q.stores, running := some q.commitSeq }
    | none => self
  | .commitCrash changes written =>
    match self.running with
    | some seq =>
      { self with
        stores := (⟨self.stores, seq⟩ : QmdbStore).crashDuring changes written
        running := none }
    | none => self
  | .archive => if self.running.isSome then { self with archived := true } else self
  | .stop => { self with running := none }

/-- The genesis block that a ledger over a database computes. -/
def genesisBlock (root : Stores → B256) (timestamp : ℕ) (q : QmdbStore) : Block :=
  LedgerState.genesisBlock timestamp (root q.stores)

end Machine

/-! ### What a commit does to the markers -/

theorem decodeCommitSeqCode_encode (seq : U64) :
    decodeCommitSeqCode (encodeCommitSeqCode seq) = some seq := by
  have hlen : (encodeCommitSeqCode seq).length = 8 := BigEndian.toBytes_length 8 seq
  rw [decodeCommitSeqCode, if_neg (by omega), List.take_of_length_le hlen.le, encodeCommitSeqCode,
    BigEndian.ofBytes_toBytes]

namespace QmdbStore

/-- The database of a fresh node after its first start. -/
def fresh (allocs : List (Address × U256)) : QmdbStore := new.initGenesis allocs

theorem commitSeqs_applyBatches (q : QmdbStore) (batches : StoreBatches) :
    (q.applyBatches batches).stores.commitSeqs =
      ⟨some (q.commitSeq.saturatingAdd 1), some (q.commitSeq.saturatingAdd 1),
        some (q.commitSeq.saturatingAdd 1)⟩ := by
  set n := q.commitSeq.saturatingAdd 1 with hn
  have ha : (q.applyBatches batches).stores.accounts COMMIT_SEQ_ACCOUNT_KEY =
      some (encodeCommitSeqAccount n) := by
    show KeyValueStore.writeBatch _ (_ ++ [(COMMIT_SEQ_ACCOUNT_KEY, _)]) _ = _
    rw [KeyValueStore.writeBatch_concat, KeyValueStore.write_self]
  have hs : (q.applyBatches batches).stores.storage COMMIT_SEQ_STORAGE_KEY =
      some (n.setWidth 256) := by
    show KeyValueStore.writeBatch _ (_ ++ [(COMMIT_SEQ_STORAGE_KEY, _)]) _ = _
    rw [KeyValueStore.writeBatch_concat, KeyValueStore.write_self]
  have hc : (q.applyBatches batches).stores.code COMMIT_SEQ_CODE_KEY =
      some (encodeCommitSeqCode n) := by
    show KeyValueStore.writeBatch _ (_ ++ [(COMMIT_SEQ_CODE_KEY, _)]) _ = _
    rw [KeyValueStore.writeBatch_concat, KeyValueStore.write_self]
  have hsm : (n.setWidth 256).toNat < 2 ^ 64 := by
    rw [BitVec.toNat_setWidth]
    have hlt := n.isLt
    omega
  rw [Stores.commitSeqs, ha, hs, hc, Option.bind_some, Option.bind_some,
    Option.bind_some, if_pos hsm, decodeCommitSeqCode_encode, decodeCommitSeqAccount,
    encodeCommitSeqAccount, AccountEncoding.decode_encode]
  simp

variable {q : QmdbStore}

theorem commitSeqs_commitChanges {changes : ChangeSet} (h : changes ≠ ChangeSet.new) :
    (q.commitChanges changes).stores.commitSeqs =
      ⟨some (q.commitSeq.saturatingAdd 1), some (q.commitSeq.saturatingAdd 1),
        some (q.commitSeq.saturatingAdd 1)⟩ ∧
      (q.commitChanges changes).commitSeq = q.commitSeq.saturatingAdd 1 := by
  rw [commitChanges_of_ne_new h]
  exact ⟨q.commitSeqs_applyBatches _, rfl⟩

theorem commitChanges_memory (hok : q.stores.commitSeqs.isConsistent = true)
    (hseq : q.commitSeq = q.stores.commitSeq) (changes : ChangeSet) :
    (q.commitChanges changes).stores.commitSeqs.isConsistent = true ∧
      (q.commitChanges changes).commitSeq = (q.commitChanges changes).stores.commitSeq := by
  by_cases he : changes = ChangeSet.new
  · rw [he, commitChanges_new]
    exact ⟨hok, hseq⟩
  · obtain ⟨hs, hc⟩ := commitSeqs_commitChanges (q := q) he
    refine ⟨PartitionCommitSeqs.isConsistent_iff.2 ⟨_, hs⟩, ?_⟩
    rw [hc, Stores.commitSeq, hs]
    rfl

@[simp] theorem crashDuring_new (q : QmdbStore) (written : ℕ) :
    q.crashDuring ChangeSet.new written = q.stores := by
  rw [crashDuring, commitChanges_new]
  simp

theorem commitSeqs_crashDuring {changes : ChangeSet} (h : changes ≠ ChangeSet.new) (written : ℕ) :
    (q.crashDuring changes written).commitSeqs =
      { accounts := if 1 ≤ written then some (q.commitSeq.saturatingAdd 1)
          else q.stores.commitSeqs.accounts
        storage := if 2 ≤ written then some (q.commitSeq.saturatingAdd 1)
          else q.stores.commitSeqs.storage
        code := if 3 ≤ written then some (q.commitSeq.saturatingAdd 1)
          else q.stores.commitSeqs.code } := by
  have hnew := (commitSeqs_commitChanges (q := q) h).1
  rw [Stores.commitSeqs, PartitionCommitSeqs.mk.injEq] at hnew
  obtain ⟨ha, hs, hc⟩ := hnew
  rw [Stores.commitSeqs, PartitionCommitSeqs.mk.injEq]
  dsimp only [crashDuring]
  refine ⟨?_, ?_, ?_⟩
  · rw [← ha]
    split <;> rfl
  · rw [← hs]
    split <;> rfl
  · rw [← hc]
    split <;> rfl

theorem genesisChanges_eq_new_iff {allocs : List (Address × U256)} :
    genesisChanges allocs = ChangeSet.new ↔ allocs = [] := by
  constructor
  · intro h
    induction allocs using List.reverseRecOn with
    | nil => rfl
    | append_singleton allocs alloc _ =>
      have hget := congrArg (fun ch : ChangeSet => ch.accounts[alloc.1]?) h
      rw [genesisChanges] at hget
      dsimp only at hget
      rw [List.foldl_append, List.foldl_cons, List.foldl_nil,
        ExtTreeMap.getElem?_insert_self] at hget
      cases hget
  · rintro rfl
    rfl

end QmdbStore

/-! ### What the number of a database says -/

open QmdbStore in
/-- Without a commit the stores are empty, and after one they hold the allocation, if there is
one. -/
def Numbered (allocs : List (Address × U256)) (stores : Stores) : Prop :=
  stores = new.stores ∨ ∃ n : U64, stores.commitSeqs = ⟨some n, some n, some n⟩ ∧ n ≠ 0 ∧
    (n = 1 → allocs ≠ [] → stores = (fresh allocs).stores)

namespace Numbered

open QmdbStore

variable {allocs : List (Address × U256)} {stores : Stores} {q : QmdbStore}

theorem saturatingAdd_one_eq_one {n : U64} (h : n.saturatingAdd 1 = 1) : n = 0 := by
  have hnat := congrArg BitVec.toNat h
  rw [saturatingAdd_one_toNat] at hnat
  apply BitVec.eq_of_toNat_eq
  simp at hnat ⊢
  omega

theorem commitSeq_eq_zero_iff (h : Numbered allocs stores) :
    stores.commitSeq = 0 ↔ stores = new.stores := by
  constructor
  · intro hzero
    rcases h with rfl | ⟨n, hs, hne, -⟩
    · rfl
    · rw [Stores.commitSeq, hs] at hzero
      exact absurd hzero hne
  · rintro rfl
    rfl

/-- **A commit, or a crash in one**, with consistent markers. The first commit is the allocation, if
any. -/
theorem crashDuring (h : Numbered allocs q.stores) (hseq : q.commitSeq = q.stores.commitSeq)
    {changes : ChangeSet}
    (hf : allocs ≠ [] → q.stores = new.stores → changes = genesisChanges allocs)
    {written : ℕ} (hok : (q.crashDuring changes written).commitSeqs.isConsistent = true) :
    Numbered allocs (q.crashDuring changes written) := by
  by_cases he : changes = ChangeSet.new
  · rw [he, crashDuring_new]
    exact h
  have hs := commitSeqs_crashDuring (q := q) he written
  set n := q.commitSeq.saturatingAdd 1 with hn
  have hne : n ≠ 0 := saturatingAdd_one_ne_zero _
  rcases Nat.lt_or_ge written 3 with hlt | hge
  · rcases Nat.eq_zero_or_pos written with rfl | hpos
    · exact h
    -- the accounts are written and the code is not, so the new number is the old one
    have hone : 1 ≤ written := hpos
    rw [if_pos hone, if_neg (by omega : ¬ 3 ≤ written)] at hs
    obtain ⟨o, ho⟩ := PartitionCommitSeqs.isConsistent_iff.1 hok
    obtain ⟨rfl, -, hc⟩ := PartitionCommitSeqs.mk.inj (ho.symm.trans hs)
    rcases h with hnew | ⟨m, hold, hm, -⟩
    · rw [hnew] at hc
      cases hc
    · rw [hold] at hc
      obtain rfl : n = m := Option.some.inj hc
      refine .inr ⟨n, ho, hne, fun heq => ?_⟩
      rw [Stores.commitSeq, hold] at hseq
      rw [heq, hseq] at hn
      exact absurd hn.symm (by rw [heq]; decide)
  · -- all three are written
    have hd : q.crashDuring changes written = (q.commitChanges changes).stores := by
      rw [QmdbStore.crashDuring, if_pos (by omega), if_pos (by omega), if_pos hge]
    rw [hd]
    refine .inr ⟨n, (commitSeqs_commitChanges he).1, hne, fun heq ha => ?_⟩
    have hzero : q.stores.commitSeq = 0 := hseq ▸ saturatingAdd_one_eq_one (hn.symm.trans heq)
    have hst := h.commitSeq_eq_zero_iff.1 hzero
    obtain ⟨stores, seq⟩ := q
    obtain rfl : stores = new.stores := hst
    obtain rfl : seq = 0 := hseq
    rw [hf ha rfl]
    rfl

theorem crashDuring_ne_new (h : Numbered allocs q.stores) (hne : q.stores ≠ new.stores)
    (changes : ChangeSet) (written : ℕ) : q.crashDuring changes written ≠ new.stores := by
  by_cases he : changes = ChangeSet.new
  · rw [he, crashDuring_new]
    exact hne
  intro heq
  obtain ⟨m, hold, -⟩ := h.resolve_left hne
  have hs := commitSeqs_crashDuring (q := q) he written
  have ha := congrArg PartitionCommitSeqs.accounts hs
  rw [heq, hold] at ha
  dsimp only at ha
  split at ha <;> cases ha

end Numbered

/-! ### Machines -/

namespace Machine

open QmdbStore

variable {allocs : List (Address × U256)} {m : Machine}

theorem startStore_ok {q : QmdbStore} : m.startStore allocs = .ok q ↔
    m.stores.commitSeqs.isConsistent = true ∧
      q = if m.archived then ⟨m.stores, m.stores.commitSeq⟩
        else (⟨m.stores, m.stores.commitSeq⟩ : QmdbStore).initGenesis allocs := by
  rw [startStore, initWithGenesis, openStores]
  by_cases hok : m.stores.commitSeqs.isConsistent = true
  · rw [if_pos hok]
    cases m.archived <;> simp [Except.map, hok, eq_comm]
  · rw [if_neg hok]
    simp [Except.map, hok]

/-- What holds of a machine whatever happened to it. -/
structure Sound (allocs : List (Address × U256)) (m : Machine) : Prop where
  disk : m.stores.commitSeqs.isConsistent = true → Numbered allocs m.stores
  memory : ∀ seq, m.running = some seq →
    m.stores.commitSeqs.isConsistent = true ∧ seq = m.stores.commitSeq
  applied : allocs ≠ [] → m.running.isSome = true ∨ m.archived = true →
    m.stores ≠ QmdbStore.new.stores

namespace Sound

theorem start (allocs : List (Address × U256)) : Sound allocs Machine.new where
  disk _ := .inl rfl
  memory seq h := by cases h
  applied _ h := by
    rcases h with h | h <;> cases h

variable (h : Sound allocs m)
include h

theorem commit {seq : U64} (hr : m.running = some seq) (changes : ChangeSet) (written : ℕ) :
    ((⟨m.stores, seq⟩ : QmdbStore).crashDuring changes written).commitSeqs.isConsistent = true →
      Numbered allocs ((⟨m.stores, seq⟩ : QmdbStore).crashDuring changes written) := by
  obtain ⟨hok, hseq⟩ := h.memory seq hr
  refine (h.disk hok).crashDuring hseq fun ha hnew => ?_
  exact absurd hnew (h.applied ha (.inl (by rw [hr]; rfl)))

theorem initGenesis (hok : m.stores.commitSeqs.isConsistent = true) (written : ℕ) :
    ((⟨m.stores, m.stores.commitSeq⟩ : QmdbStore).crashDuring (genesisChanges allocs)
        written).commitSeqs.isConsistent = true →
      Numbered allocs ((⟨m.stores, m.stores.commitSeq⟩ : QmdbStore).crashDuring
        (genesisChanges allocs) written) :=
  (h.disk hok).crashDuring rfl fun _ _ => rfl

theorem started : Sound allocs (m.step allocs .start) := by
  rw [Machine.step]
  split
  · next q hr hs =>
    obtain ⟨hok, hq⟩ := startStore_ok.1 hs
    cases ha : m.archived with
    | true =>
      rw [ha, if_pos rfl] at hq
      subst hq
      refine ⟨h.disk, fun seq hseq => ⟨hok, (Option.some.inj hseq).symm⟩, fun hal _ => ?_⟩
      exact h.applied hal (.inr ha)
    | false =>
      rw [ha, if_neg Bool.false_ne_true] at hq
      subst hq
      obtain ⟨hok', hseq'⟩ := commitChanges_memory (q := ⟨m.stores, m.stores.commitSeq⟩) hok rfl
        (genesisChanges allocs)
      refine ⟨h.initGenesis hok 3, fun seq hseq => ⟨hok', ?_⟩, fun hal _ heq => ?_⟩
      · exact (Option.some.inj hseq).symm.trans hseq'
      · have hsq := (commitSeqs_commitChanges (q := ⟨m.stores, m.stores.commitSeq⟩)
          (mt genesisChanges_eq_new_iff.1 hal)).1
        have hnone := congrArg (fun stores => stores.commitSeqs.accounts) heq
        cases hnone.symm.trans (congrArg PartitionCommitSeqs.accounts hsq)
  · exact h

theorem startCrashed (written : ℕ) : Sound allocs (m.step allocs (.startCrash written)) := by
  rw [Machine.step]
  split
  · next q hrn ho =>
    rw [openStores] at ho
    split at ho
    · next hok =>
      obtain rfl := Except.ok.inj ho
      split
      · exact h
      · next ha =>
        refine ⟨h.initGenesis hok written, fun seq hseq => ?_, fun _ hr => ?_⟩
        · cases hrn.symm.trans hseq
        · rcases hr with hr | hr
          · cases (congrArg Option.isSome hrn).symm.trans hr
          · exact absurd hr ha
    · cases ho
  · exact h

theorem step (event : Event) : Sound allocs (m.step allocs event) := by
  cases event with
  | start => exact h.started
  | startCrash written => exact h.startCrashed written
  | commit changes =>
    rw [Machine.step]
    split
    · next seq hr =>
      obtain ⟨hok, hseq⟩ := h.memory seq hr
      obtain ⟨hok', hseq'⟩ := commitChanges_memory (q := ⟨m.stores, seq⟩) hok hseq changes
      refine ⟨h.commit hr changes 3, fun seq' hseq'' => ⟨hok', ?_⟩, fun ha _ => ?_⟩
      · exact (Option.some.inj hseq'').symm.trans hseq'
      · have hne := h.applied ha (.inl (by rw [hr]; rfl))
        exact (h.disk hok).crashDuring_ne_new (q := ⟨m.stores, seq⟩) hne changes 3
    · exact h
  | commitCrash changes written =>
    rw [Machine.step]
    split
    · next seq hr =>
      obtain ⟨hok, hseq⟩ := h.memory seq hr
      refine ⟨h.commit hr changes written, fun seq' hseq'' => (by cases hseq''),
        fun ha _ => ?_⟩
      have hne := h.applied ha (.inl (by rw [hr]; rfl))
      exact (h.disk hok).crashDuring_ne_new (q := ⟨m.stores, seq⟩) hne changes written
    · exact h
  | archive =>
    rw [Machine.step]
    split
    · next hr => exact ⟨h.disk, h.memory, fun ha _ => h.applied ha (.inl hr)⟩
    · exact h
  | stop =>
    refine ⟨h.disk, fun seq hseq => (by cases hseq), fun ha hrn => ?_⟩
    rcases hrn with hrn | har
    · cases hrn
    · exact h.applied ha (.inr har)

theorem run (events : List Event) : Sound allocs (events.foldl (Machine.step allocs) m) :=
  List.foldlRecOn events _ h fun _ h event _ => h.step event

theorem startStore_eq_fresh_iff {q : QmdbStore} (hs : m.startStore allocs = .ok q) :
    q.stores = (fresh allocs).stores ↔
      m.stores.commitSeq.toNat = if allocs = [] ∨ m.archived = false then 0 else 1 := by
  obtain ⟨hok, rfl⟩ := startStore_ok.1 hs
  have hnum := h.disk hok
  have hzero : m.stores.commitSeq.toNat = 0 ↔ m.stores = QmdbStore.new.stores := by
    rw [← hnum.commitSeq_eq_zero_iff]
    exact (BitVec.toNat_eq (x := m.stores.commitSeq) (y := 0)).symm
  by_cases ha : allocs = []
  · -- nothing is ever allocated, and the database of a fresh node stays empty
    have hf : fresh allocs = QmdbStore.new := by
      rw [fresh, QmdbStore.initGenesis, genesisChanges_eq_new_iff.2 ha, commitChanges_new]
    rw [QmdbStore.initGenesis, genesisChanges_eq_new_iff.2 ha, commitChanges_new, ite_self,
      hf, if_pos (.inl ha), hzero]
  have hne := mt genesisChanges_eq_new_iff.1 ha
  have hone : (fresh allocs).stores.commitSeq = 1 := by
    rw [Stores.commitSeq, fresh, QmdbStore.initGenesis, (commitSeqs_commitChanges hne).1]
    rfl
  cases har : m.archived with
  | true =>
    rw [if_pos rfl, if_neg (by simp [ha])]
    constructor
    · intro heq
      rw [show m.stores = _ from heq, hone]
      rfl
    · intro hseq
      rcases hnum with hnew | ⟨n, hsq, -, hfr⟩
      · rw [hzero.2 hnew] at hseq
        cases hseq
      · refine hfr (BitVec.eq_of_toNat_eq ?_) ha
        rw [Stores.commitSeq, hsq] at hseq
        exact hseq
  | false =>
    rw [if_neg Bool.false_ne_true, if_pos (.inr rfl), hzero]
    constructor
    · intro heq
      have hseq := congrArg Stores.commitSeq heq
      rw [hone, Stores.commitSeq, QmdbStore.initGenesis, (commitSeqs_commitChanges hne).1] at hseq
      exact hnum.commitSeq_eq_zero_iff.1 (Numbered.saturatingAdd_one_eq_one hseq)
    · intro hnew
      rw [hnew]
      rfl

end Sound

/-- **The genesis block is that of a fresh node exactly if the start finds the database as a fresh
node does**: without a commit before any block is archived, and afterwards with the allocation as
its only commit. -/
theorem genesis_block_same_iff (root : Stores → B256) (allocs : List (Address × U256))
    (timestamp : ℕ) (events : List Event) {m : Machine}
    (hm : m = events.foldl (Machine.step allocs) Machine.new) {q : QmdbStore}
    (hstart : m.startStore allocs = .ok q)
    (hroot : root q.stores = root (fresh allocs).stores → q.stores = (fresh allocs).stores) :
    genesisBlock root timestamp q = genesisBlock root timestamp (fresh allocs) ↔
      m.stores.commitSeq.toNat = if allocs = [] ∨ m.archived = false then 0 else 1 := by
  have hs : Sound allocs m := hm ▸ (Sound.start allocs).run events
  rw [← hs.startStore_eq_fresh_iff hstart]
  constructor
  · intro h
    exact hroot (congrArg Block.stateRoot h)
  · intro h
    rw [genesisBlock, genesisBlock, h]

end Machine

/-! ### Two starts -/

namespace Machine

open QmdbStore

namespace TwoStarts

def allocs : List (Address × U256) := [(0xA, 1)]

/-- A root that tells databases apart by their number. -/
def root (stores : Stores) : B256 := stores.commitSeq.setWidth 256

def stopped (archived : Bool) : Machine := ⟨(fresh allocs).stores, archived, none⟩

theorem stopped_run : stopped false =
    [Event.start, .stop].foldl (Machine.step allocs) Machine.new :=
  rfl

theorem stopped_archive : stopped true =
    [Event.start, .archive, .stop].foldl (Machine.step allocs) Machine.new :=
  rfl

theorem startStore_stopped : (stopped false).startStore allocs =
    .ok ((fresh allocs).initGenesis allocs) :=
  startStore_ok.2 ⟨by decide +kernel, rfl⟩

theorem startStore_archive : (stopped true).startStore allocs = .ok (fresh allocs) :=
  startStore_ok.2 ⟨by decide +kernel, rfl⟩

end TwoStarts

section

open TwoStarts

/-- A start after the first finalized block was archived. -/
theorem genesis_block_same_iff_archive : (stopped true).stores.commitSeq.toNat = 1 ∧
    (genesisBlock root 0 (fresh allocs) = genesisBlock root 0 (fresh allocs) ↔
      (stopped true).stores.commitSeq.toNat =
        if allocs = [] ∨ (stopped true).archived = false then 0 else 1) :=
  ⟨by decide +kernel, genesis_block_same_iff root allocs 0 [.start, .archive, .stop] stopped_archive
      startStore_archive fun _ => rfl⟩

/-- **A second start before the first finalized block** commits the allocation again, and moves
genesis to that root. -/
theorem restart_moves_genesis : ¬ ∀ (root : Stores → B256) (allocs : List (Address × U256))
    (timestamp : ℕ) (events : List Event) (q : QmdbStore),
    (events.foldl (Machine.step allocs) Machine.new).startStore allocs = .ok q →
    (root q.stores = root (fresh allocs).stores → q.stores = (fresh allocs).stores) →
    genesisBlock root timestamp q = genesisBlock root timestamp (fresh allocs) := by
  intro h
  have hm : root ((fresh allocs).initGenesis allocs).stores ≠
      root (fresh allocs).stores := by
    decide +kernel
  have hs := h root allocs 0 [.start, .stop] _
    (stopped_run ▸ startStore_stopped) fun heq => absurd heq hm
  exact hm (congrArg Block.stateRoot hs)

end

end Machine

end Kora
