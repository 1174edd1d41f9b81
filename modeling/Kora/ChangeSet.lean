/-
State changes and their merge (`storage/qmdb/src/changes.rs`).

A transaction, block or run of blocks is reported as a `ChangeSet`: one `AccountUpdate`
per touched address. Change sets are merged newest last (`ChangeSet.getElem?_merge`), and
at each address a merged chain folds the updates of that address alone
(`ChangeSet.getElem?_mergeAll`).
-/
import Kora.OrderedMap
import Mathlib.Data.List.Induction

open Std

namespace Kora

abbrev Address := BitVec 160

abbrev U256 := BitVec 256

abbrev B256 := BitVec 256

abbrev U64 := BitVec 64

abbrev Bytes := List UInt8

instance Address.transOrd : TransOrd Address := BitVec.instTransOrd

instance Address.lawfulEqOrd : LawfulEqOrd Address := BitVec.instLawfulEqOrd

instance U256.transOrd : TransOrd U256 := BitVec.instTransOrd

instance U256.lawfulEqOrd : LawfulEqOrd U256 := BitVec.instLawfulEqOrd

structure AccountUpdate where
  created : Bool
  selfdestructed : Bool
  nonce : U64
  balance : U256
  codeHash : B256
  /-- New code bytes, if code was deployed. -/
  code : Option Bytes
  storage : ExtTreeMap U256 U256
deriving DecidableEq

namespace AccountUpdate

/-- Merge another, newer update into this one. -/
def merge (self other : AccountUpdate) : AccountUpdate :=
  let storage := if other.created then ∅ else self.storage
  let storage := if other.selfdestructed then ∅ else storage
  { created := if other.created then true else self.created
    selfdestructed := other.selfdestructed
    nonce := other.nonce
    balance := other.balance
    codeHash := other.codeHash
    code := if self.codeHash ≠ other.codeHash ∨ other.code.isSome then other.code else self.code
    storage :=
      if other.selfdestructed then storage
      else OrderedMap.combine (fun _ value => value) storage other.storage }

variable (e u : AccountUpdate)

@[simp] theorem merge_selfdestructed : (e.merge u).selfdestructed = u.selfdestructed := rfl

@[simp] theorem merge_nonce : (e.merge u).nonce = u.nonce := rfl

@[simp] theorem merge_balance : (e.merge u).balance = u.balance := rfl

@[simp] theorem merge_codeHash : (e.merge u).codeHash = u.codeHash := rfl

@[simp] theorem merge_created : (e.merge u).created = (u.created || e.created) := by
  cases h : u.created <;> simp [merge, h]

/-- The slots of a merged update: the newer one's own, above those the older one wrote, unless the
newer one created the account. A selfdestruct in the newer one leaves none, in the *older* one it
clears nothing. -/
@[simp] theorem getElem?_merge_storage (slot : U256) :
    (e.merge u).storage[slot]? =
      if u.selfdestructed then none
      else (u.storage[slot]?).elim (if u.created then none else e.storage[slot]?) some := by
  cases hs : u.selfdestructed <;> cases hc : u.created <;>
    cases h : u.storage[slot]? <;> simp [merge, hs, hc, h]

end AccountUpdate

/-- Accumulated state changes that can be merged across blocks. -/
structure ChangeSet where
  accounts : ExtTreeMap Address AccountUpdate
deriving DecidableEq

namespace ChangeSet

def new : ChangeSet := ⟨∅⟩

def isEmpty (self : ChangeSet) : Bool := self.accounts.isEmpty

/-- What `get_mut` followed by `merge` or `insert` leaves under an address. -/
def absorb (existing : Option AccountUpdate) (update : AccountUpdate) : AccountUpdate :=
  match existing with
  | some existing => existing.merge update
  | none => update

def merge (self other : ChangeSet) : ChangeSet :=
  ⟨OrderedMap.combine absorb self.accounts other.accounts⟩

def insert (self : ChangeSet) (address : Address) (update : AccountUpdate) : ChangeSet :=
  ⟨self.accounts.insert address (absorb self.accounts[address]? update)⟩

instance : GetElem? ChangeSet Address AccountUpdate (fun ch address => address ∈ ch.accounts) where
  getElem ch address h := ch.accounts[address]
  getElem? ch address := ch.accounts[address]?

theorem getElem?_def (ch : ChangeSet) (address : Address) :
    ch[address]? = ch.accounts[address]? := rfl

@[simp] theorem getElem?_new (address : Address) : new[address]? = none :=
  ExtTreeMap.getElem?_empty

@[ext] theorem ext {ch d : ChangeSet} (h : ∀ address : Address, ch[address]? = d[address]?) :
    ch = d := by
  cases ch
  cases d
  congr
  exact ExtTreeMap.ext_getElem? h

@[simp] theorem isEmpty_iff {ch : ChangeSet} : ch.isEmpty = true ↔ ch = new := by
  cases ch
  simp [isEmpty, new, ExtTreeMap.isEmpty_iff]

@[simp] theorem getElem?_merge (ch d : ChangeSet) (address : Address) :
    (ch.merge d)[address]? =
      (d[address]?).elim ch[address]? (fun u => some (absorb ch[address]? u)) :=
  OrderedMap.getElem?_combine absorb ch.accounts d.accounts address

theorem getElem?_insert (ch : ChangeSet) (address address' : Address) (u : AccountUpdate) :
    (ch.insert address u)[address']? =
      if address = address' then some (absorb ch[address]? u) else ch[address']? := by
  rw [getElem?_def, insert, ExtTreeMap.getElem?_insert]
  simp only [LawfulEqCmp.compare_eq_iff_eq, getElem?_def]

/-! ### Chains of change sets -/

/-- A chain of change sets, oldest first, merged into one. -/
def mergeAll (chain : List ChangeSet) : ChangeSet := chain.foldl merge new

theorem mergeAll_concat (cs : List ChangeSet) (ch : ChangeSet) :
    mergeAll (cs ++ [ch]) = (mergeAll cs).merge ch := by
  rw [mergeAll, List.foldl_append]
  rfl

/-- The updates a chain has for one address, oldest first. -/
def updatesOf (address : Address) (chain : List ChangeSet) : List AccountUpdate :=
  chain.filterMap (fun ch => ch[address]?)

/-- The updates of one address folded into one, if there are any. -/
def absorbAll (updates : List AccountUpdate) : Option AccountUpdate :=
  updates.foldl (fun o u => some (absorb o u)) none

theorem absorbAll_concat (us : List AccountUpdate) (u : AccountUpdate) :
    absorbAll (us ++ [u]) = some (absorb (absorbAll us) u) := by
  rw [absorbAll, List.foldl_append]
  rfl

theorem updatesOf_append (address : Address) (cs ds : List ChangeSet) :
    updatesOf address (cs ++ ds) = updatesOf address cs ++ updatesOf address ds :=
  List.filterMap_append

theorem getElem?_mergeAll (cs : List ChangeSet) (address : Address) :
    (mergeAll cs)[address]? = absorbAll (updatesOf address cs) := by
  induction cs using List.reverseRecOn with
  | nil => exact getElem?_new address
  | append_singleton cs ch ih =>
    rw [mergeAll_concat, getElem?_merge, ih, updatesOf_append]
    cases h : ch[address]? with
    | none => simp [updatesOf, h]
    | some u =>
      have hl : updatesOf address [ch] = [u] := by simp [updatesOf, h]
      rw [hl, absorbAll_concat, Option.elim_some]

end ChangeSet

end Kora
