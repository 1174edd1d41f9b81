/-
Write errors (`StoreSlot` and `write_batch` of `storage/backend/src`, `apply_batches` of
`storage/qmdb/src/store.rs`, `finalize_with_retry` of `node/reporters/src/lib.rs`).

A write takes the database out of its slot, runs the three stages of a commit on it and
puts it back; an error of a stage returns in between.

* `commitChanges_ofStore` — without an error this is the store of `QmdbStore`;
* `recovers_iff` — a commit with a write error is recovered from only if it wrote nothing.
-/
import Kora.StateDb

open Std

namespace Kora

/-! ### The slot of a partition -/

inductive BackendError where
  | storage (message : String)
  | notInitialized
deriving DecidableEq

def BackendError.toString : BackendError → String
  | .storage message => "storage error: " ++ message
  | .notInitialized => "database not initialized"

/-- The slot that a partition keeps its database in. -/
structure StoreSlot (T : Type) where
  inner : Option T

namespace StoreSlot

variable {T : Type}

def new (inner : T) : StoreSlot T := ⟨some inner⟩

def get (self : StoreSlot T) : Except BackendError T :=
  match self.inner with
  | some inner => .ok inner
  | none => .error .notInitialized

/-- Take the database out; the slot is empty afterwards. -/
def take (self : StoreSlot T) : StoreSlot T × Except BackendError T :=
  (⟨none⟩, self.get)

def restore (_self : StoreSlot T) (inner : T) : StoreSlot T := ⟨some inner⟩

@[simp] theorem get_new (inner : T) : (new inner).get = .ok inner := rfl

theorem get_of_empty {slot : StoreSlot T} (h : slot.inner = none) :
    slot.get = .error .notInitialized := by
  rw [get, h]

end StoreSlot

/-- The stages of a partition write that can fail. -/
inductive WriteStage where
  | merkleize
  | apply
  | commit
deriving DecidableEq

/-- An error of one stage, with the text that the database reports. -/
structure StageError where
  stage : WriteStage
  message : String

/-- Run a stage: it fails if it is the one the error is in. -/
def WriteStage.run (stage : WriteStage) (error : Option StageError) : Except BackendError Unit :=
  match error with
  | some e => if e.stage = stage then .error (.storage e.message) else .ok ()
  | none => .ok ()

namespace StoreSlot

variable {K V : Type} [DecidableEq K]

/-- The part of `writeBatch` that has the database in its hands. -/
def commitBatch (inner : KeyValueStore K V) (error : Option StageError)
    (ops : List (K × Option V)) : Except BackendError (KeyValueStore K V) := do
  WriteStage.merkleize.run error
  WriteStage.apply.run error
  WriteStage.commit.run error
  return inner.writeBatch ops

def writeBatch (self : StoreSlot (KeyValueStore K V)) (error : Option StageError)
    (ops : List (K × Option V)) : StoreSlot (KeyValueStore K V) × Except BackendError Unit :=
  match self.take with
  | (slot, .error e) => (slot, .error e)
  | (slot, .ok inner) =>
    match commitBatch inner error ops with
    -- the early return of a stage: the database is dropped, and the slot was left empty
    | .error e => (slot, .error e)
    | .ok inner => (slot.restore inner, .ok ())

@[simp] theorem writeBatch_new (p : KeyValueStore K V) (ops : List (K × Option V)) :
    (new p).writeBatch none ops = (new (p.writeBatch ops), .ok ()) := rfl

theorem writeBatch_of_empty {slot : StoreSlot (KeyValueStore K V)} (h : slot.inner = none)
    (error : Option StageError) (ops : List (K × Option V)) :
    slot.writeBatch error ops = (⟨none⟩, .error .notInitialized) := by
  rw [writeBatch, take, get_of_empty h]

theorem commitBatch_of_error (p : KeyValueStore K V) (e : StageError)
    (ops : List (K × Option V)) : commitBatch p (some e) ops = .error (.storage e.message) := by
  obtain ⟨stage, message⟩ := e
  cases stage <;> rfl

theorem writeBatch_of_error (p : KeyValueStore K V) (e : StageError) (ops : List (K × Option V)) :
    (new p).writeBatch (some e) ops = (⟨none⟩, .error (.storage e.message)) := by
  rw [writeBatch, take, get_new]
  simp only [commitBatch_of_error]

end StoreSlot

/-! ### The three partitions in their slots -/

inductive Partition where
  | accounts
  | storage
  | code
deriving DecidableEq

/-- Where the write of a commit fails. -/
structure WriteFault where
  partition : Partition
  error : StageError

/-- The error that the write of a partition meets. -/
def WriteFault.at (fault : Option WriteFault) (partition : Partition) : Option StageError :=
  fault.bind (fun f => if f.partition = partition then some f.error else none)

/-- The store over partitions that are kept in slots. -/
structure BackedStore where
  accounts : StoreSlot (KeyValueStore Address AccountValue)
  storage : StoreSlot (KeyValueStore StorageKey U256)
  code : StoreSlot (KeyValueStore B256 Bytes)
  commitSeq : U64

namespace BackedStore

/-- A store whose three databases are in their slots. -/
def ofStore (q : QmdbStore) : BackedStore where
  accounts := .new q.stores.accounts
  storage := .new q.stores.storage
  code := .new q.stores.code
  commitSeq := q.commitSeq

/-- An error of the backend, as the store wraps it. -/
def wrap {α : Type} : Except BackendError α → Except QmdbError α
  | .ok a => .ok a
  | .error e => .error (.storage e.toString)

def getAccount (self : BackedStore) (address : Address) :
    Except QmdbError (Option AccountRecord) := do
  let accounts ← wrap self.accounts.get
  match accounts address with
  | some bytes =>
    match AccountEncoding.decode bytes.1 with
    | some record => .ok (some record)
    | none => .error .decodeError
  | none => .ok none

def getStorage (self : BackedStore) (key : StorageKey) : Except QmdbError (Option U256) := do
  let storage ← wrap self.storage.get
  return storage key

def getCode (self : BackedStore) (hash : B256) : Except QmdbError (Option Bytes) := do
  let code ← wrap self.code.get
  return code hash

/-- One turn of the loop over the changed accounts. -/
def pushUpdate (self : BackedStore) (batches : StoreBatches) (entry : Address × AccountUpdate) :
    Except QmdbError StoreBatches := do
  let accounts ← wrap self.accounts.get
  let currentGen : U64 := match accounts entry.1 with
    | some bytes => ((AccountEncoding.decode bytes.1).map (·.generation)).getD 0
    | none => 0
  return { accounts := batches.accounts ++ [QmdbStore.accountOp currentGen entry]
           storage := batches.storage ++ QmdbStore.storageOps currentGen entry
           code := batches.code ++ QmdbStore.codeOps entry.2 }

def buildBatches (self : BackedStore) (changes : ChangeSet) : Except QmdbError StoreBatches :=
  changes.accounts.toList.foldlM self.pushUpdate StoreBatches.new

/-- Write the three batches one after the other. The first that fails ends the commit. -/
def applyBatches (self : BackedStore) (fault : Option WriteFault) (batches : StoreBatches) :
    BackedStore × Except QmdbError Unit :=
  let nextSeq := self.commitSeq.saturatingAdd 1
  let accountOps := batches.accounts ++
    [(COMMIT_SEQ_ACCOUNT_KEY, some (encodeCommitSeqAccount nextSeq))]
  let storageOps := batches.storage ++ [(COMMIT_SEQ_STORAGE_KEY, some (nextSeq.setWidth 256))]
  let codeOps := batches.code ++ [(COMMIT_SEQ_CODE_KEY, some (encodeCommitSeqCode nextSeq))]
  match self.accounts.writeBatch (WriteFault.at fault .accounts) accountOps with
  | (accounts, .error e) => ({ self with accounts }, wrap (.error e))
  | (accounts, .ok _) =>
    match self.storage.writeBatch (WriteFault.at fault .storage) storageOps with
    | (storage, .error e) => ({ self with accounts, storage }, wrap (.error e))
    | (storage, .ok _) =>
      match self.code.writeBatch (WriteFault.at fault .code) codeOps with
      | (code, .error e) => ({ self with accounts, storage, code }, wrap (.error e))
      | (code, .ok _) => (⟨accounts, storage, code, nextSeq⟩, .ok ())

def commitChanges (self : BackedStore) (fault : Option WriteFault) (changes : ChangeSet) :
    BackedStore × Except QmdbError Unit :=
  if changes.isEmpty then (self, .ok ())
  else match self.buildBatches changes with
    | .error e => (self, .error e)
    | .ok batches => self.applyBatches fault batches

/-- The loop of `finalize_with_retry` around a commit: after an error, which the first attempt alone
meets, up to `retries` more. A `PersistFailed` is always tried again. -/
def commitWithRetry (self : BackedStore) (fault : Option WriteFault) (changes : ChangeSet) :
    ℕ → BackedStore × Except QmdbError Unit
  | 0 => self.commitChanges fault changes
  | retries + 1 =>
    match self.commitChanges fault changes with
    | (store, .ok _) => (store, .ok ())
    | (store, .error _) => store.commitWithRetry none changes retries

/-! ### Without an error -/

variable {s : BackedStore}

theorem pushUpdate_of_accounts {q : QmdbStore} (h : s.accounts = .new q.stores.accounts)
    (batches : StoreBatches) (entry : Address × AccountUpdate) :
    s.pushUpdate batches entry = .ok (q.pushUpdate batches entry) := by
  rw [pushUpdate, h]
  rfl

theorem buildBatches_of_accounts {q : QmdbStore} (h : s.accounts = .new q.stores.accounts)
    (changes : ChangeSet) : s.buildBatches changes = .ok (q.buildBatches changes) := by
  rw [buildBatches, QmdbStore.buildBatches]
  generalize changes.accounts.toList = entries
  generalize StoreBatches.new = batches
  induction entries generalizing batches with
  | nil => rfl
  | cons entry entries ih =>
    rw [List.foldlM_cons, pushUpdate_of_accounts h]
    exact ih (q.pushUpdate batches entry)

/-- Without a write error the store in slots commits as the plain store does. -/
theorem commitChanges_ofStore (q : QmdbStore) (changes : ChangeSet) :
    (ofStore q).commitChanges none changes = (ofStore (q.commitChanges changes), .ok ()) := by
  rw [commitChanges, QmdbStore.commitChanges]
  split_ifs with he
  · rfl
  · rw [buildBatches_of_accounts (q := q) rfl]
    rfl

/-! ### Lost partitions -/

/-- The slot of the partition is empty. -/
def Lost (self : BackedStore) : Partition → Prop
  | .accounts => self.accounts.inner = none
  | .storage => self.storage.inner = none
  | .code => self.code.inner = none

/-- Every read of the store is answered. -/
structure Usable (store : BackedStore) : Prop where
  account : ∀ address, ∃ record, store.getAccount address = .ok record
  storage : ∀ key, ∃ value, store.getStorage key = .ok value
  code : ∀ hash, ∃ bytes, store.getCode hash = .ok bytes

theorem usable_ofStore (q : QmdbStore) : (ofStore q).Usable where
  account address := ⟨q.record address, q.getAccount_ok address⟩
  storage key := ⟨q.stores.storage key, rfl⟩
  code hash := ⟨q.stores.code hash, rfl⟩

variable {p : Partition}

theorem Lost.not_usable (h : s.Lost p) : ¬ s.Usable := by
  intro hu
  cases p with
  | accounts =>
    obtain ⟨record, hr⟩ := hu.account 0
    rw [getAccount, StoreSlot.get_of_empty h] at hr
    cases hr
  | storage =>
    obtain ⟨value, hr⟩ := hu.storage COMMIT_SEQ_STORAGE_KEY
    rw [getStorage, StoreSlot.get_of_empty h] at hr
    cases hr
  | code =>
    obtain ⟨bytes, hr⟩ := hu.code 0
    rw [getCode, StoreSlot.get_of_empty h] at hr
    cases hr

theorem Lost.applyBatches (h : s.Lost p) (fault : Option WriteFault) (batches : StoreBatches) :
    (s.applyBatches fault batches).1.Lost p ∧
      ∃ e, (s.applyBatches fault batches).2 = .error e := by
  cases p with
  | accounts =>
    rw [BackedStore.applyBatches, StoreSlot.writeBatch_of_empty h]
    exact ⟨rfl, _, rfl⟩
  | storage =>
    rw [BackedStore.applyBatches, StoreSlot.writeBatch_of_empty h]
    split
    · exact ⟨h, _, rfl⟩
    · exact ⟨rfl, _, rfl⟩
  | code =>
    rw [BackedStore.applyBatches, StoreSlot.writeBatch_of_empty h]
    split
    · exact ⟨h, _, rfl⟩
    · split
      · exact ⟨h, _, rfl⟩
      · exact ⟨rfl, _, rfl⟩

theorem Lost.commitChanges (h : s.Lost p) (fault : Option WriteFault) (changes : ChangeSet) :
    (s.commitChanges fault changes).1.Lost p ∧
      (changes ≠ ChangeSet.new → ∃ e, (s.commitChanges fault changes).2 = .error e) := by
  rw [BackedStore.commitChanges]
  split_ifs with he
  · exact ⟨h, fun hne => absurd (ChangeSet.isEmpty_iff.mp he) hne⟩
  · split
    · exact ⟨h, fun _ => ⟨_, rfl⟩⟩
    · next batches _ =>
      obtain ⟨hl, her⟩ := h.applyBatches fault batches
      exact ⟨hl, fun _ => her⟩

/-- The store after some more commits, each with an error or without. -/
def commitAll (self : BackedStore) (commits : List (Option WriteFault × ChangeSet)) :
    BackedStore :=
  commits.foldl (fun store commit => (store.commitChanges commit.1 commit.2).1) self

theorem Lost.commitAll (h : s.Lost p) (commits : List (Option WriteFault × ChangeSet)) :
    (s.commitAll commits).Lost p := by
  refine List.foldlRecOn (motive := fun store : BackedStore => store.Lost p) commits _ h ?_
  intro store hl commit _
  exact (hl.commitChanges commit.1 commit.2).1

variable {changes : ChangeSet}

theorem Lost.commitWithRetry (h : s.Lost p) (fault : Option WriteFault)
    (hne : changes ≠ ChangeSet.new) (retries : ℕ) :
    ∃ e, (s.commitWithRetry fault changes retries).2 = .error e := by
  induction retries generalizing s fault with
  | zero => exact (h.commitChanges fault changes).2 hne
  | succ retries ih =>
    obtain ⟨hl, e, he⟩ := And.imp_right (· hne) (h.commitChanges fault changes)
    rw [BackedStore.commitWithRetry]
    split
    · next store _ heq =>
      rw [heq] at he
      cases he
    · next store _ heq =>
      rw [heq] at hl
      exact ih hl none

/-! ### A write error -/

theorem lost_applyBatches (q : QmdbStore) (fault : WriteFault) (batches : StoreBatches) :
    ((ofStore q).applyBatches (some fault) batches).1.Lost fault.partition ∧
      ((ofStore q).applyBatches (some fault) batches).2 =
        .error (.storage ("storage error: " ++ fault.error.message)) := by
  obtain ⟨partition, error⟩ := fault
  have hat : WriteFault.at (some ⟨partition, error⟩) partition = some error := if_pos rfl
  cases partition with
  | accounts =>
    simp only [applyBatches, ofStore, hat, StoreSlot.writeBatch_of_error]
    exact ⟨rfl, rfl⟩
  | storage =>
    have ha : WriteFault.at (some ⟨.storage, error⟩) .accounts = none := rfl
    simp only [applyBatches, ofStore, ha, hat, StoreSlot.writeBatch_new,
      StoreSlot.writeBatch_of_error]
    exact ⟨rfl, rfl⟩
  | code =>
    have ha : WriteFault.at (some ⟨.code, error⟩) .accounts = none := rfl
    have hs : WriteFault.at (some ⟨.code, error⟩) .storage = none := rfl
    simp only [applyBatches, ofStore, ha, hs, hat, StoreSlot.writeBatch_new,
      StoreSlot.writeBatch_of_error]
    exact ⟨rfl, rfl⟩

/-- A failing write loses its partition: those before have the new commit, those after do not. -/
theorem lost_of_fault (q : QmdbStore) (fault : WriteFault) (hne : changes ≠ ChangeSet.new) :
    ((ofStore q).commitChanges (some fault) changes).1.Lost fault.partition ∧
      ((ofStore q).commitChanges (some fault) changes).2 =
        .error (.storage ("storage error: " ++ fault.error.message)) := by
  have he : ¬ changes.isEmpty = true := fun hc => hne (ChangeSet.isEmpty_iff.mp hc)
  rw [commitChanges, if_neg he, buildBatches_of_accounts (q := q) rfl]
  exact lost_applyBatches q fault _

/-- After the failed commit reads are answered, and trying it again at last gives an undisturbed
commit's. -/
def Recovers (q : QmdbStore) (fault : WriteFault) (changes : ChangeSet) : Prop :=
  ((ofStore q).commitChanges (some fault) changes).1.Usable ∧
    ∃ (retries : ℕ) (q' : QmdbStore),
      (ofStore q).commitWithRetry (some fault) changes retries = (ofStore q', .ok ()) ∧
        ∀ address, reads q' address = reads (q.commitChanges changes) address

theorem not_recovers (q : QmdbStore) (fault : WriteFault) (hne : changes ≠ ChangeSet.new) :
    ¬ Recovers q fault changes := fun h =>
  (lost_of_fault q fault hne).1.not_usable h.1

/-- A commit with a write error is recovered from exactly if it has nothing to write, so that the
error is never met. Otherwise no read of the failed partition is answered again, and no further
attempt succeeds. -/
theorem recovers_iff (q : QmdbStore) (fault : WriteFault) (changes : ChangeSet) :
    (Recovers q fault changes ↔ changes = ChangeSet.new) ∧
      (changes ≠ ChangeSet.new →
        (∀ later, ¬ (((ofStore q).commitChanges (some fault) changes).1.commitAll later).Usable) ∧
        ∀ retries, ∃ e, ((ofStore q).commitWithRetry (some fault) changes retries).2 = .error e)
      := by
  refine ⟨⟨?_, ?_⟩, fun hne => ⟨?_, ?_⟩⟩
  · intro hr
    by_contra hne
    exact not_recovers q fault hne hr
  · rintro rfl
    have hnone : (ofStore q).commitChanges (some fault) ChangeSet.new = (ofStore q, .ok ()) := by
      rw [commitChanges, if_pos (ChangeSet.isEmpty_iff.mpr rfl)]
    refine ⟨?_, 0, q, hnone, fun address => ?_⟩
    · rw [hnone]
      exact usable_ofStore q
    · rw [QmdbStore.commitChanges_new]
  · intro later
    exact ((lost_of_fault q fault hne).1.commitAll later).not_usable
  · intro retries
    obtain ⟨hl, he⟩ := lost_of_fault q fault hne
    cases retries with
    | zero => exact ⟨_, he⟩
    | succ retries =>
      rw [commitWithRetry]
      split
      · next store _ heq =>
        rw [heq] at he
        cases he
      · next store _ heq =>
        rw [heq] at hl
        exact hl.commitWithRetry none hne retries

/-- A change set that pays 5 to one account. -/
def payment : ChangeSet := ChangeSet.new.insert 1 ⟨false, false, 0, 5, KECCAK256_EMPTY, none, ∅⟩

/-- A payment whose accounts write fails once in its last stage. -/
theorem write_error_not_recovered :
    ¬ ∀ (q : QmdbStore) (fault : WriteFault) (changes : ChangeSet), Recovers q fault changes := by
  intro h
  have hne : payment ≠ ChangeSet.new := fun heq =>
    absurd (ChangeSet.isEmpty_iff.mpr heq) (by decide +kernel)
  exact not_recovers QmdbStore.new ⟨.accounts, .commit, "disk full"⟩ hne (h _ _ payment)

end BackedStore

end Kora
