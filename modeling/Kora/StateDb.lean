/-
State reads (`storage/traits`, `storage/handlers/src/state.rs`).

`StateDbRead` is the trait the executor reads state through; a QMDB handle implements it
on top of the store.

* `reads_qmdb` — the reads of an address are those of its own record and cells;
* `account_commitChanges` — away from the sentinel a commit moves them by the address's
  own update.
-/
import Kora.QmdbStore

open Std

namespace Kora

inductive StateDbError where
  | accountNotFound (address : Address)
  | codeNotFound (hash : B256)
  | storage (message : String)
  | lockPoisoned
  | rootComputation (message : String)
deriving DecidableEq

class StateDbRead (S : Type) where
  nonce : S → Address → Except StateDbError U64
  balance : S → Address → Except StateDbError U256
  codeHash : S → Address → Except StateDbError B256
  code : S → B256 → Except StateDbError Bytes
  storage : S → Address → U256 → Except StateDbError U256

/-- Everything that can be read about one address. -/
@[ext] structure AccountReads where
  nonce : Except StateDbError U64
  balance : Except StateDbError U256
  codeHash : Except StateDbError B256
  storage : U256 → Except StateDbError U256

/-- The nonce, balance, code hash and storage reads of an address. -/
def reads {S : Type} [StateDbRead S] (s : S) (address : Address) : AccountReads where
  nonce := StateDbRead.nonce s address
  balance := StateDbRead.balance s address
  codeHash := StateDbRead.codeHash s address
  storage := StateDbRead.storage s address

/-! ### Reading QMDB -/

/-- The text of a store error, as the handle wraps it. -/
def QmdbError.toStateDbError : QmdbError → StateDbError
  | .storage message => .storage ("storage error: " ++ message)
  | .storeUnavailable => .storage "stores unavailable"
  | .decodeError => .storage "account decode failed"

def KECCAK256_EMPTY : B256 :=
  0xc5d2460186f7233c927e7db2dcc703c0e500b653ca82273b7bfad8045d85a470

namespace QmdbHandle

/-- A field of an account record, or the error for an account that is not there. -/
def field {α : Type} (q : QmdbStore) (address : Address) (f : AccountRecord → α) :
    Except StateDbError α :=
  match q.getAccount address with
  | .ok (some record) => .ok (f record)
  | .ok none => .error (.accountNotFound address)
  | .error e => .error e.toStateDbError

def nonce (q : QmdbStore) (address : Address) : Except StateDbError U64 :=
  field q address (·.nonce)

def balance (q : QmdbStore) (address : Address) : Except StateDbError U256 :=
  field q address (·.balance)

def codeHash (q : QmdbStore) (address : Address) : Except StateDbError B256 :=
  field q address (·.codeHash)

def code (q : QmdbStore) (codeHash : B256) : Except StateDbError Bytes :=
  if codeHash = KECCAK256_EMPTY ∨ codeHash = 0 then .ok []
  else match q.getCode codeHash with
    | .ok (some bytes) => .ok bytes
    | .ok none => .error (.codeNotFound codeHash)
    | .error e => .error e.toStateDbError

def storage (q : QmdbStore) (address : Address) (slot : U256) : Except StateDbError U256 :=
  match q.getAccount address with
  | .ok (some record) =>
    match q.getStorage ⟨address, record.generation, slot⟩ with
    | .ok value => .ok (value.getD 0)
    | .error e => .error e.toStateDbError
  -- an account that is not there has empty storage, not an error
  | .ok none => .ok 0
  | .error e => .error e.toStateDbError

end QmdbHandle

instance : StateDbRead QmdbStore where
  nonce := QmdbHandle.nonce
  balance := QmdbHandle.balance
  codeHash := QmdbHandle.codeHash
  code := QmdbHandle.code
  storage := QmdbHandle.storage

/-! ### One address of the database -/

/-- What QMDB holds for an address: its record, and its cells by generation, zero if not stored. -/
@[ext] structure AccountState where
  record : Option AccountRecord
  cell : U64 → U256 → U256

namespace AccountState

/-- The current generation, `0` without a record. -/
def generation (s : AccountState) : U64 := (s.record.map (·.generation)).getD 0

def reads (s : AccountState) (address : Address) : AccountReads :=
  match s.record with
  | some r =>
    ⟨.ok r.nonce, .ok r.balance, .ok r.codeHash, fun slot => .ok (s.cell r.generation slot)⟩
  | none =>
    ⟨.error (.accountNotFound address), .error (.accountNotFound address),
      .error (.accountNotFound address), fun _ => .ok 0⟩

/-- The cells after an update wrote its slots under generation `g`. -/
def writeSlots (s : AccountState) (g : U64) (u : AccountUpdate) : U64 → U256 → U256 :=
  fun g' slot => if g' = g then (u.storage[slot]?).getD (s.cell g' slot) else s.cell g' slot

/-- One update committed to the address. -/
def commit (s : AccountState) (u : AccountUpdate) : AccountState :=
  let g := QmdbStore.newGeneration s.generation u
  { record := if u.selfdestructed then none else some ⟨u.nonce, u.balance, u.codeHash, g⟩
    cell := s.writeSlots g u }

theorem commit_cell (s : AccountState) (u : AccountUpdate) (g : U64) (slot : U256) :
    (s.commit u).cell g slot =
      if g = QmdbStore.newGeneration s.generation u then (u.storage[slot]?).getD (s.cell g slot)
      else s.cell g slot := rfl

/-- The value a storage read of the address gives. -/
def slot (s : AccountState) (slot : U256) : U256 :=
  match s.record with
  | some r => s.cell r.generation slot
  | none => 0

theorem reads_storage (s : AccountState) (address : Address) (slot : U256) :
    (s.reads address).storage slot = .ok (s.slot slot) := by
  cases h : s.record <;> simp [reads, AccountState.slot, h]

theorem slot_of_record_none {s : AccountState} (h : s.record = none) (slot : U256) :
    s.slot slot = 0 := by
  simp [AccountState.slot, h]

theorem slot_of_record {s : AccountState} {r : AccountRecord} (h : s.record = some r)
    (slot : U256) : s.slot slot = s.cell s.generation slot := by
  simp [AccountState.slot, generation, h]

variable {u : AccountUpdate}

theorem commit_slot_of_selfdestructed (h : u.selfdestructed = true) (s : AccountState) (slot : U256)
    : (s.commit u).slot slot = 0 := by
  simp [AccountState.slot, commit, h]

/-- A slot after a commit: what the update wrote, or what the generation moved to held before. -/
theorem commit_slot (h : u.selfdestructed = false) (s : AccountState) (slot : U256) :
    (s.commit u).slot slot =
      (u.storage[slot]?).getD (s.cell (QmdbStore.newGeneration s.generation u) slot) := by
  simp [AccountState.slot, commit, writeSlots, h]

theorem commit_reads (h : u.selfdestructed = false) (s : AccountState) (address : Address) :
    (s.commit u).reads address =
      ⟨.ok u.nonce, .ok u.balance, .ok u.codeHash, fun slot => .ok ((s.commit u).slot slot)⟩ := by
  simp [reads, AccountState.slot, commit, h]

end AccountState

namespace QmdbStore

/-- What the store holds for one address. -/
def account (q : QmdbStore) (address : Address) : AccountState where
  record := q.record address
  cell g slot := (q.stores.storage ⟨address, g, slot⟩).getD 0

@[simp] theorem account_record (q : QmdbStore) (address : Address) :
    (q.account address).record = q.record address := rfl

theorem account_generation (q : QmdbStore) (address : Address) :
    (q.account address).generation = q.currentGeneration address :=
  (q.currentGeneration_eq address).symm

end QmdbStore

open QmdbStore

theorem reads_qmdb (q : QmdbStore) (address : Address) :
    reads q address = (q.account address).reads address := by
  cases h : q.record address <;>
    simp [reads, StateDbRead.nonce, StateDbRead.balance, StateDbRead.codeHash, StateDbRead.storage,
      QmdbHandle.nonce, QmdbHandle.balance, QmdbHandle.codeHash,
      QmdbHandle.field, AccountState.reads, getAccount_ok, h]
  all_goals
    funext slot
    simp [QmdbHandle.storage, getAccount_ok, getStorage, account, h]

/-! ### Commits, one address at a time -/

private theorem getD_slotValue (v : U256) :
    (if v = 0 then none else some v : Option U256).getD 0 = v := by
  split
  · next h => exact h.symm
  · rfl

theorem record_writeBatch (q : QmdbStore) (ch : ChangeSet) (address : Address) :
    (q.stores.accounts.writeBatch (q.buildBatches ch).accounts address).bind
        (fun bytes => AccountEncoding.decode bytes.1) =
      (ch[address]?).elim (q.record address)
        (fun u => ((q.account address).commit u).record) := by
  rw [writeBatch_accounts]
  cases hu : ch[address]? with
  | none => rfl
  | some u =>
    simp only [Option.elim_some, AccountState.commit, account_generation, accountOp]
    split
    · rfl
    · rw [Option.bind_some, AccountEncoding.decode_encode]

theorem cell_writeBatch (q : QmdbStore) (ch : ChangeSet) (address : Address) (g : U64)
    (slot : U256) :
    (q.stores.storage.writeBatch (q.buildBatches ch).storage ⟨address, g, slot⟩).getD 0 =
      (ch[address]?).elim ((q.account address).cell g slot)
        (fun u => ((q.account address).commit u).cell g slot) := by
  rw [writeBatch_storage]
  cases hu : ch[address]? with
  | none => rfl
  | some u =>
    rw [Option.elim_some, Option.elim_some, AccountState.commit_cell, account_generation]
    split
    · -- a zero is stored as an absent cell, and reads as zero
      cases hv : u.storage[slot]? with
      | none => rfl
      | some v => exact getD_slotValue v
    · rfl

theorem record_commitChanges {q : QmdbStore} {ch : ChangeSet} (hc : ch ≠ ChangeSet.new)
    (address : Address) :
    (q.commitChanges ch).record address =
      if address = COMMIT_SEQ_ACCOUNT_KEY then some ⟨q.commitSeq.saturatingAdd 1, 0, 0, 0⟩
      else (ch[address]?).elim (q.record address)
        (fun u => ((q.account address).commit u).record) := by
  rw [commitChanges_of_ne_new hc, record, applyBatches]
  -- the marker is written last, so it has the last word on the sentinel
  simp only [KeyValueStore.writeBatch_concat]
  split
  · next h =>
    rw [h, KeyValueStore.write_self, encodeCommitSeqAccount, Option.bind_some,
      AccountEncoding.decode_encode]
  · next h =>
    rw [KeyValueStore.write_of_ne _ (Ne.symm h)]
    exact record_writeBatch q ch address

theorem cell_commitChanges {q : QmdbStore} {ch : ChangeSet} (hc : ch ≠ ChangeSet.new)
    {address : Address} {g : U64} {slot : U256}
    (hkey : (⟨address, g, slot⟩ : StorageKey) ≠ COMMIT_SEQ_STORAGE_KEY) :
    ((q.commitChanges ch).account address).cell g slot =
      (ch[address]?).elim ((q.account address).cell g slot)
        (fun u => ((q.account address).commit u).cell g slot) := by
  rw [commitChanges_of_ne_new hc, account, applyBatches]
  simp only [KeyValueStore.writeBatch_concat]
  rw [KeyValueStore.write_of_ne _ (Ne.symm hkey)]
  exact cell_writeBatch q ch address g slot

/-- **A commit by address**: off the sentinel an address moves by its own update alone. -/
theorem account_commitChanges (q : QmdbStore) (ch : ChangeSet) {address : Address}
    (h : address ≠ COMMIT_SEQ_ACCOUNT_KEY) :
    (q.commitChanges ch).account address =
      (ch[address]?).elim (q.account address) (q.account address).commit := by
  by_cases hc : ch = ChangeSet.new
  · simp [hc]
  · have hr := record_commitChanges (q := q) hc address
    rw [if_neg h] at hr
    have hcl : ∀ g slot, ((q.commitChanges ch).account address).cell g slot = _ := fun g slot =>
      cell_commitChanges (q := q) hc (fun hkey => h (congrArg StorageKey.address hkey))
    ext1
    · rw [account_record, hr]
      cases ch[address]? <;> rfl
    · funext g slot
      rw [hcl]
      cases ch[address]? <;> rfl

end Kora
