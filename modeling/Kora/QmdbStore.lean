/-
The QMDB store and its commits (`storage/qmdb/src/store.rs`).

A change set is turned into one batch for each of the partitions of accounts, storage
cells and code, with a commit sequence marker under a sentinel key. Cells of one address
are told apart by the generation in its record: creating or selfdestructing it moves to
the next generation. The backend is seen through its lookups and does not fail; the
stores of a handle are never taken out of it, so they are a plain field.

* `writeBatch_accounts`, `writeBatch_storage` — what a commit leaves, key by key.
-/
import Kora.Encoding
import Kora.KeyValueStore

open Std

namespace Kora

open KeyValueStore

/-- Addition of `u64` that stops at the largest value. -/
def U64.saturatingAdd (a b : U64) : U64 :=
  if a.toNat + b.toNat < 2 ^ 64 then a + b else BitVec.allOnes 64

theorem saturatingAdd_one_toNat (g : U64) :
    (g.saturatingAdd 1).toNat = min (g.toNat + 1) (2 ^ 64 - 1) := by
  have hlt := g.isLt
  rw [U64.saturatingAdd]
  split
  · next hsum =>
    rw [BitVec.toNat_add, Nat.mod_eq_of_lt hsum]
    simp at hsum ⊢
    omega
  · next hsum =>
    simp at hsum ⊢
    omega

theorem saturatingAdd_one_ne_zero (g : U64) : g.saturatingAdd 1 ≠ 0 := by
  intro h
  have hnat : min (g.toNat + 1) (2 ^ 64 - 1) = 0 := by
    rw [← saturatingAdd_one_toNat, h]
    rfl
  omega

/-- Sentinel address of the commit sequence number in the accounts partition. -/
def COMMIT_SEQ_ACCOUNT_KEY : Address := 0xFFFFFFFFFFFFFFFFFFFFFFFFFFFFFFFFFFFFFFFE

def COMMIT_SEQ_STORAGE_KEY : StorageKey :=
  ⟨COMMIT_SEQ_ACCOUNT_KEY, BitVec.allOnes 64, BitVec.allOnes 256⟩

/-- Sentinel code hash of the commit sequence number in the code partition. -/
def COMMIT_SEQ_CODE_KEY : B256 :=
  0xFFFFFFFFFFFFFFFFFFFFFFFFFFFFFFFFFFFFFFFFFFFFFFFFFFFFFFFFFFFFFFFE

def encodeCommitSeqAccount (seq : U64) : AccountValue := AccountEncoding.encode seq 0 0 0

def encodeCommitSeqCode (seq : U64) : Bytes := BigEndian.toBytes 8 seq

inductive QmdbError where
  | storage (message : String)
  | storeUnavailable
  | decodeError
deriving DecidableEq

structure StoreBatches where
  accounts : List (Address × Option AccountValue)
  storage : List (StorageKey × Option U256)
  code : List (B256 × Option Bytes)

def StoreBatches.new : StoreBatches := ⟨[], [], []⟩

structure Stores where
  accounts : KeyValueStore Address AccountValue
  storage : KeyValueStore StorageKey U256
  code : KeyValueStore B256 Bytes

/-- The stores together with the number of the last commit. -/
structure QmdbStore where
  stores : Stores
  commitSeq : U64

namespace QmdbStore

def new : QmdbStore := ⟨⟨fun _ => none, fun _ => none, fun _ => none⟩, 0⟩

/-! ### Reads -/

def getAccount (self : QmdbStore) (address : Address) :
    Except QmdbError (Option AccountRecord) :=
  match self.stores.accounts address with
  | some bytes =>
    match AccountEncoding.decode bytes.1 with
    | some record => .ok (some record)
    | none => .error .decodeError
  | none => .ok none

def getStorage (self : QmdbStore) (key : StorageKey) : Except QmdbError (Option U256) :=
  .ok (self.stores.storage key)

def getCode (self : QmdbStore) (hash : B256) : Except QmdbError (Option Bytes) :=
  .ok (self.stores.code hash)

/-- The record stored for an address, if any. -/
def record (self : QmdbStore) (address : Address) : Option AccountRecord :=
  (self.stores.accounts address).bind (fun bytes => AccountEncoding.decode bytes.1)

theorem getAccount_ok (q : QmdbStore) (address : Address) :
    q.getAccount address = .ok (q.record address) := by
  cases h : q.stores.accounts address with
  | none => simp [getAccount, record, h]
  | some v =>
    obtain ⟨r, hr⟩ := Option.isSome_iff_exists.mp (AccountEncoding.decode_isSome v)
    simp [getAccount, record, h, hr]

/-! ### Building the batches of a commit -/

/-- The generation an update writes its storage under, given the current one. -/
def newGeneration (currentGen : U64) (update : AccountUpdate) : U64 :=
  if update.created || update.selfdestructed then currentGen.saturatingAdd 1 else currentGen

theorem newGeneration_of_created {u : AccountUpdate} (h : u.created = true) (g : U64) :
    newGeneration g u = g.saturatingAdd 1 := by
  simp [newGeneration, h]

theorem newGeneration_of_plain {u : AccountUpdate} (hc : u.created = false)
    (hsd : u.selfdestructed = false) (g : U64) : newGeneration g u = g := by
  simp [newGeneration, hc, hsd]

/-- The generation of a stored record, `0` without one. -/
def currentGeneration (self : QmdbStore) (address : Address) : U64 :=
  match self.stores.accounts address with
  | some bytes => ((AccountEncoding.decode bytes.1).map (·.generation)).getD 0
  | none => 0

/-- The write of an update to the accounts partition. -/
def accountOp (currentGen : U64) (entry : Address × AccountUpdate) :
    Address × Option AccountValue :=
  let (address, update) := entry
  if update.selfdestructed then (address, none)
  else (address, some (AccountEncoding.encode update.nonce update.balance update.codeHash
    (newGeneration currentGen update)))

/-- The write of an update to the code partition. -/
def codeOps (update : AccountUpdate) : List (B256 × Option Bytes) :=
  if update.selfdestructed then []
  else match update.code with
    | some code => [(update.codeHash, some code)]
    | none => []

/-- The write of one slot to the storage partition: zero deletes. -/
def slotOp (address : Address) (generation : U64) (entry : U256 × U256) :
    StorageKey × Option U256 :=
  (⟨address, generation, entry.1⟩, if entry.2 = 0 then none else some entry.2)

/-- The writes of an update to the storage partition. They are made for a selfdestructed
account as well. -/
def storageOps (currentGen : U64) (entry : Address × AccountUpdate) :
    List (StorageKey × Option U256) :=
  let (address, update) := entry
  update.storage.toList.map (slotOp address (newGeneration currentGen update))

/-- One turn of the loop over the changed accounts. -/
def pushUpdate (self : QmdbStore) (batches : StoreBatches) (entry : Address × AccountUpdate) :
    StoreBatches :=
  let currentGen := self.currentGeneration entry.1
  { accounts := batches.accounts ++ [accountOp currentGen entry]
    storage := batches.storage ++ storageOps currentGen entry
    code := batches.code ++ codeOps entry.2 }

def buildBatches (self : QmdbStore) (changes : ChangeSet) : StoreBatches :=
  changes.accounts.toList.foldl self.pushUpdate StoreBatches.new

theorem foldl_pushUpdate (q : QmdbStore) (l : List (Address × AccountUpdate)) (b : StoreBatches) :
    l.foldl q.pushUpdate b =
      { accounts := b.accounts ++ l.map (fun e => accountOp (q.currentGeneration e.1) e)
        storage := b.storage ++ l.flatMap (fun e => storageOps (q.currentGeneration e.1) e)
        code := b.code ++ l.flatMap (fun e => codeOps e.2) } := by
  induction l generalizing b with
  | nil => simp
  | cons e l ih => simp [ih, pushUpdate, List.append_assoc]

theorem buildBatches_eq (q : QmdbStore) (ch : ChangeSet) :
    q.buildBatches ch =
      { accounts := ch.accounts.toList.map (fun e => accountOp (q.currentGeneration e.1) e)
        storage := ch.accounts.toList.flatMap (fun e => storageOps (q.currentGeneration e.1) e)
        code := ch.accounts.toList.flatMap (fun e => codeOps e.2) } := by
  rw [buildBatches, foldl_pushUpdate]
  rfl

/-! ### Applying them -/

/-- Apply batches to stores, with the commit sequence marker last in each. -/
def applyBatches (self : QmdbStore) (batches : StoreBatches) : QmdbStore :=
  let nextSeq := self.commitSeq.saturatingAdd 1
  let accountOps := batches.accounts ++
    [(COMMIT_SEQ_ACCOUNT_KEY, some (encodeCommitSeqAccount nextSeq))]
  let storageOps := batches.storage ++ [(COMMIT_SEQ_STORAGE_KEY, some (nextSeq.setWidth 256))]
  let codeOps := batches.code ++ [(COMMIT_SEQ_CODE_KEY, some (encodeCommitSeqCode nextSeq))]
  { stores :=
      { accounts := self.stores.accounts.writeBatch accountOps
        storage := self.stores.storage.writeBatch storageOps
        code := self.stores.code.writeBatch codeOps }
    commitSeq := nextSeq }

def commitChanges (self : QmdbStore) (changes : ChangeSet) : QmdbStore :=
  if changes.isEmpty then self else self.applyBatches (self.buildBatches changes)

@[simp] theorem commitChanges_new (q : QmdbStore) : q.commitChanges ChangeSet.new = q := by
  have he : ChangeSet.new.isEmpty = true := ChangeSet.isEmpty_iff.mpr rfl
  rw [commitChanges, if_pos he]

/-! ### What a commit leaves in the partitions -/

theorem currentGeneration_eq (q : QmdbStore) (address : Address) :
    q.currentGeneration address = ((q.record address).map (·.generation)).getD 0 := by
  cases h : q.stores.accounts address <;> simp [currentGeneration, record, h]

@[simp] theorem accountOp_fst (g : U64) (e : Address × AccountUpdate) :
    (accountOp g e).1 = e.1 := by
  rw [accountOp]
  split <;> rfl

theorem storageOps_address {g : U64} {e : Address × AccountUpdate} {op : StorageKey × Option U256}
    (h : op ∈ storageOps g e) : op.1.address = e.1 ∧ op.1.generation = newGeneration g e.2 := by
  obtain ⟨x, -, rfl⟩ := List.mem_map.mp h
  exact ⟨rfl, rfl⟩

theorem writeBatch_accounts (q : QmdbStore) (ch : ChangeSet) (address : Address) :
    q.stores.accounts.writeBatch (q.buildBatches ch).accounts address =
      (ch[address]?).elim (q.stores.accounts address)
        (fun u => (accountOp (q.currentGeneration address) (address, u)).2) := by
  rw [buildBatches_eq, writeBatch_map]
  refine OrderedMap.walk_at (fun p : KeyValueStore Address AccountValue => p address)
    (fun _ u => (accountOp (q.currentGeneration address) (address, u)).2) ?_ ?_ ch.accounts _
  · intro p e hne
    exact write_of_ne p (by simpa using hne)
  · intro p u
    have hkey := accountOp_fst (q.currentGeneration address) (address, u)
    rw [write, hkey, Function.update_self]

theorem writeBatch_storageOps (p : KeyValueStore StorageKey U256) (g : U64) (address : Address)
    (u : AccountUpdate) (slot : U256) :
    p.writeBatch (storageOps g (address, u)) ⟨address, newGeneration g u, slot⟩ =
      (u.storage[slot]?).elim (p ⟨address, newGeneration g u, slot⟩)
        (fun v => if v = 0 then none else some v) := by
  rw [storageOps, writeBatch_map]
  refine OrderedMap.walk_at
    (fun p : KeyValueStore StorageKey U256 => p ⟨address, newGeneration g u, slot⟩)
    (fun _ v => if v = 0 then none else some v) ?_ ?_ u.storage p
  · intro p e hne
    refine write_of_ne p ?_
    simpa [slotOp] using hne
  · intro p v
    exact write_self p _ _

theorem writeBatch_storage (q : QmdbStore) (ch : ChangeSet) (address : Address) (g : U64)
    (slot : U256) :
    q.stores.storage.writeBatch (q.buildBatches ch).storage ⟨address, g, slot⟩ =
      (ch[address]?).elim (q.stores.storage ⟨address, g, slot⟩) (fun u =>
        if g = newGeneration (q.currentGeneration address) u then
          (u.storage[slot]?).elim (q.stores.storage ⟨address, g, slot⟩)
            (fun v => if v = 0 then none else some v)
        else q.stores.storage ⟨address, g, slot⟩) := by
  rw [buildBatches_eq, writeBatch_flatMap]
  refine OrderedMap.walk_at (fun p : KeyValueStore StorageKey U256 => p ⟨address, g, slot⟩)
    (fun old u =>
      if g = newGeneration (q.currentGeneration address) u then
        (u.storage[slot]?).elim old (fun v => if v = 0 then none else some v)
      else old) ?_ ?_ ch.accounts _
  -- the cells of another address, and those of another generation, are not written
  · intro p e hne
    refine writeBatch_of_notMem p _ (fun op hop heq => hne ?_)
    rw [← (storageOps_address hop).1, heq]
  · intro p u
    by_cases hg : g = newGeneration (q.currentGeneration address) u
    · rw [if_pos hg, hg]
      exact writeBatch_storageOps p _ address u slot
    · rw [if_neg hg]
      refine writeBatch_of_notMem p _ (fun op hop heq => hg ?_)
      rw [← (storageOps_address hop).2, heq]

theorem commitChanges_of_ne_new {q : QmdbStore} {ch : ChangeSet} (h : ch ≠ ChangeSet.new) :
    q.commitChanges ch = q.applyBatches (q.buildBatches ch) := by
  rw [commitChanges, if_neg (fun hc => h (ChangeSet.isEmpty_iff.mp hc))]

end QmdbStore

end Kora
