/-
Overlays of pending changes (`storage/overlay/src/overlay.rs`).

Read at one address, an overlay is the action of the address's update on the base reads
(`AccountUpdate.over`, `reads_overlay`), and the merge of change sets ought to be the
composition of these actions.

* `over_merge_iff`, `overlay_merge_reads_iff` — when it is, for updates and for change
  sets.
-/
import Kora.StateDb
import Kora.Extract

open Std

namespace Kora

/-- Pending changes on top of a base state database. -/
structure OverlayState (S : Type) where
  base : S
  changes : ChangeSet

namespace OverlayState

variable {S : Type}

def new (base : S) (changes : ChangeSet) : OverlayState S := ⟨base, changes⟩

/-- Merge the current overlay changes with a newer change set. -/
def mergeChanges (self : OverlayState S) (newer : ChangeSet) : ChangeSet :=
  self.changes.merge newer

variable [StateDbRead S]

def field {α : Type} (self : OverlayState S) (address : Address) (f : AccountUpdate → α)
    (fromBase : S → Address → Except StateDbError α) : Except StateDbError α :=
  match self.changes.accounts[address]? with
  | some update => .ok (f update)
  | none => fromBase self.base address

def nonce (self : OverlayState S) (address : Address) : Except StateDbError U64 :=
  self.field address (·.nonce) StateDbRead.nonce

def balance (self : OverlayState S) (address : Address) : Except StateDbError U256 :=
  self.field address (·.balance) StateDbRead.balance

def codeHash (self : OverlayState S) (address : Address) : Except StateDbError B256 :=
  self.field address (·.codeHash) StateDbRead.codeHash

/-- The first pending code under the hash, in address order. -/
def code (self : OverlayState S) (codeHash : B256) : Except StateDbError Bytes :=
  match self.changes.accounts.toList.findSome?
      (fun e => if e.2.codeHash = codeHash then e.2.code else none) with
  | some code => .ok code
  | none => StateDbRead.code self.base codeHash

def storage (self : OverlayState S) (address : Address) (slot : U256) :
    Except StateDbError U256 :=
  match self.changes.accounts[address]? with
  | some update =>
    if update.selfdestructed then .ok 0
    else match update.storage[slot]? with
      | some value => .ok value
      | none => if update.created then .ok 0 else StateDbRead.storage self.base address slot
  | none => StateDbRead.storage self.base address slot

end OverlayState

instance {S : Type} [StateDbRead S] : StateDbRead (OverlayState S) where
  nonce := OverlayState.nonce
  balance := OverlayState.balance
  codeHash := OverlayState.codeHash
  code := OverlayState.code
  storage := OverlayState.storage

/-! ### An overlay acts address by address -/

/-- What an address reads as under a pending update. -/
def AccountUpdate.over (u : AccountUpdate) (r : AccountReads) : AccountReads where
  nonce := .ok u.nonce
  balance := .ok u.balance
  codeHash := .ok u.codeHash
  storage slot :=
    if u.selfdestructed then .ok 0
    else match u.storage[slot]? with
      | some value => .ok value
      | none => if u.created then .ok 0 else r.storage slot

theorem AccountUpdate.over_over (u : AccountUpdate) (r : AccountReads) :
    u.over (u.over r) = u.over r := by
  have hs : (u.over (u.over r)).storage = (u.over r).storage := by
    funext slot
    simp only [AccountUpdate.over]
    split
    · rfl
    · split
      · rfl
      · split <;> rfl
  exact congrArg (AccountReads.mk _ _ _) hs

theorem reads_overlay {S : Type} [StateDbRead S] (base : S) (ch : ChangeSet) (address : Address) :
    reads (OverlayState.new base ch) address =
      (ch[address]?).elim (reads base address) (fun u => u.over (reads base address)) := by
  rw [ChangeSet.getElem?_def]
  cases h : ch.accounts[address]? <;>
    simp [reads, StateDbRead.nonce, StateDbRead.balance, StateDbRead.codeHash, StateDbRead.storage,
      OverlayState.nonce, OverlayState.balance, OverlayState.codeHash,
      OverlayState.field, OverlayState.new, AccountUpdate.over, h]
  all_goals
    funext slot
    simp [OverlayState.storage, h]

/-! ### Merging against composing -/

/-- The newer update `u` brings nothing back from before the selfdestruct of the older one `e`:
where `u` neither creates nor destroys the account, every slot of `e` that it does not write was
zero. -/
def AccountUpdate.NoRevival (e u : AccountUpdate) : Prop :=
  e.selfdestructed → ¬ u.created → ¬ u.selfdestructed →
    ∀ slot v : U256, e.storage[slot]? = some v → u.storage[slot]? = none → v = 0

/-- No account of `b` is a revival of one of `a`. -/
def ChangeSet.NoRevival (a b : ChangeSet) : Prop :=
  ∀ (address : Address) e u, a[address]? = some e → b[address]? = some u → e.NoRevival u

variable {u : AccountUpdate}

theorem over_merge_storage_iff {e : AccountUpdate} (he : e.CancunFlags) (r : AccountReads)
    (slot : U256) :
    ((e.merge u).over r).storage slot = (u.over (e.over r)).storage slot ↔
      (e.selfdestructed → ¬ u.created → ¬ u.selfdestructed →
        ∀ v, e.storage[slot]? = some v → u.storage[slot]? = none → v = 0) := by
  simp only [AccountUpdate.over, AccountUpdate.merge_selfdestructed, AccountUpdate.merge_created,
    AccountUpdate.getElem?_merge_storage]
  cases hus : u.selfdestructed
  case true => simp
  cases huv : u.storage[slot]?
  case some => simp
  cases huc : u.created
  case true => simp
  -- only here does the read reach the older update
  cases hes : e.selfdestructed
  case false => simp
  have hec : e.created = true := he hes
  cases hev : e.storage[slot]? <;> simp [hec]

theorem over_merge_iff {e : AccountUpdate} (he : e.CancunFlags) (r : AccountReads) :
    (e.merge u).over r = u.over (e.over r) ↔ e.NoRevival u := by
  constructor
  · intro h hes huc hus slot v hev huv
    have hs := congrFun (congrArg AccountReads.storage h) slot
    exact (over_merge_storage_iff he r slot).mp hs hes huc hus v hev huv
  · intro h
    ext1
    · rfl
    · rfl
    · rfl
    · funext slot
      refine (over_merge_storage_iff he r slot).mpr (fun hes huc hus v hev huv => ?_)
      exact h hes huc hus slot v hev huv

theorem reads_overlay_merge_iff {S : Type} [StateDbRead S] (base : S) {a : ChangeSet}
    (ha : a.CancunFlags) (b : ChangeSet) (address : Address) :
    reads (OverlayState.new base (a.merge b)) address =
        reads (OverlayState.new (OverlayState.new base a) b) address ↔
      ∀ e u, a[address]? = some e → b[address]? = some u → e.NoRevival u := by
  rw [reads_overlay, reads_overlay, reads_overlay, ChangeSet.getElem?_merge]
  cases hb : b[address]? with
  | none => simp
  | some u =>
    cases hea : a[address]? with
    | none => simp [ChangeSet.absorb]
    | some e =>
      have hc := ha address e hea
      simpa [ChangeSet.absorb] using over_merge_iff hc (reads base address)

/-- **Merging is sequential composition unless a destroyed account comes back**, for reported
changes. -/
theorem overlay_merge_reads_iff {S : Type} [StateDbRead S] (base : S) {a : ChangeSet}
    (ha : Reported a) (b : ChangeSet) :
    (∀ address, reads (OverlayState.new base (a.merge b)) address =
        reads (OverlayState.new (OverlayState.new base a) b) address) ↔ a.NoRevival b := by
  constructor
  · intro h address e u
    exact (reads_overlay_merge_iff base ha.cancunFlags b address).mp (h address) e u
  · intro h address
    exact (reads_overlay_merge_iff base ha.cancunFlags b address).mpr (h address)

/-! ### The case that breaks composition -/

/-- `0xA` as REVM returns it: slots `1` and `2` moved from `0` to `value` unless that is zero. -/
def evmAccountA (created selfdestructed : Bool) (value : U256) : EvmState :=
  (∅ : EvmState).insert 0xA
    { info := ⟨1, 1, KECCAK256_EMPTY, none⟩
      storage := ((∅ : ExtTreeMap U256 EvmStorageSlot).insert 1 ⟨0, value⟩).insert 2 ⟨0, value⟩
      isTouched := true
      isCreated := created
      isSelfdestructed := selfdestructed }

theorem evmAccountA_cancun {created selfdestructed : Bool} (value : U256)
    (h : selfdestructed → created) : (evmAccountA created selfdestructed value).Cancun := by
  intro address account ha
  rw [evmAccountA, ExtTreeMap.getElem?_insert] at ha
  split at ha
  · obtain rfl := Option.some_inj.mp ha
    exact h
  · simp at ha

theorem evmAccountA_update {created selfdestructed : Bool} {value : U256} {address : Address}
    (h : (extractChanges (evmAccountA created selfdestructed value))[address]? = some u) :
    address = 0xA ∧ u.created = created ∧ u.selfdestructed = selfdestructed := by
  rw [extractChanges_getElem?, evmAccountA, ExtTreeMap.getElem?_insert] at h
  split at h
  · next hkey =>
    obtain rfl := Option.some_inj.mp h
    exact ⟨(LawfulEqCmp.compare_eq_iff_eq.mp hkey).symm, rfl, rfl⟩
  · simp at h

/-- A transaction that creates `0xA`, writes `5` to its slots and selfdestructs it. -/
def createWriteDestroy : ChangeSet := extractChanges (evmAccountA true true 5)

/-- A transaction that only sends value to `0xA`. -/
def plainTransfer : ChangeSet := extractChanges (evmAccountA false false 0)

/-- A transaction that creates `0xA` and writes `7` to its slots. -/
def recreate : ChangeSet := extractChanges (evmAccountA true false 7)

/-- A transaction that creates `0xA` and writes nothing. -/
def createEmpty : ChangeSet := extractChanges (evmAccountA true false 0)

theorem createWriteDestroy_reported : Reported createWriteDestroy :=
  .transaction _ (evmAccountA_cancun 5 (fun _ => rfl))

theorem recreate_reported : Reported recreate :=
  .transaction _ (evmAccountA_cancun 7 (fun _ => rfl))

theorem createEmpty_reported : Reported createEmpty :=
  .transaction _ (evmAccountA_cancun 0 (fun _ => rfl))

theorem plainTransfer_reported : Reported plainTransfer :=
  .transaction _ (evmAccountA_cancun 0 (fun h => absurd h (by decide)))

/-- The slot written before the selfdestruct is zero in the composition and readable again in the
merge. -/
theorem merge_revives_slot :
    ¬ ∀ (base : QmdbStore) (a b : ChangeSet), Reported a → Reported b → ∀ address,
      reads (OverlayState.new base (a.merge b)) address =
        reads (OverlayState.new (OverlayState.new base a) b) address := by
  intro h
  have hr := h QmdbStore.new createWriteDestroy plainTransfer createWriteDestroy_reported
    plainTransfer_reported 0xA
  have hs := congrFun (congrArg AccountReads.storage hr) 1
  exact absurd hs (by decide)

/-- A re-creation after the selfdestruct composes. -/
theorem overlay_merge_reads_iff_recreate :
    reads (OverlayState.new QmdbStore.new (createWriteDestroy.merge recreate)) 0xA =
      reads (OverlayState.new (OverlayState.new QmdbStore.new createWriteDestroy) recreate)
        0xA := by
  refine (overlay_merge_reads_iff QmdbStore.new createWriteDestroy_reported recreate).mpr ?_ 0xA
  intro address e u he hu hsd huc
  exact absurd (evmAccountA_update hu).2.1 huc

end Kora
