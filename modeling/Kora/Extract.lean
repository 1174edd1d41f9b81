/-
What the executor reports (`extract_changes` in `node/executor/src/revm.rs`).

REVM hands back the accounts a transaction loaded; untouched accounts and unchanged slots
are skipped. Under the CANCUN rules an account is selfdestructed only by the transaction
that created it.

* `Reported` — one transaction's report or a merge of such (`Reported.cancunFlags`).
-/
import Kora.ChangeSet

open Std

namespace Kora

open ChangeSet

/-- A storage slot as REVM tracks it during a transaction. -/
structure EvmStorageSlot where
  originalValue : U256
  presentValue : U256
deriving DecidableEq

def EvmStorageSlot.isChanged (slot : EvmStorageSlot) : Bool :=
  slot.originalValue ≠ slot.presentValue

structure AccountInfo where
  balance : U256
  nonce : U64
  codeHash : B256
  code : Option Bytes
deriving DecidableEq

/-- An account as REVM returns it after a transaction. -/
structure EvmAccount where
  info : AccountInfo
  storage : ExtTreeMap U256 EvmStorageSlot
  isTouched : Bool
  isCreated : Bool
  isSelfdestructed : Bool
deriving DecidableEq

/-- The accounts a transaction loaded. The source's hash map has no order to depend on: the
addresses are distinct. -/
abbrev EvmState := ExtTreeMap Address EvmAccount

/-- The changed slots of an account, with their present values. -/
def changedSlots (account : EvmAccount) : ExtTreeMap U256 U256 :=
  account.storage.toList.foldl
    (fun acc e => if e.2.isChanged then acc.insert e.1 e.2.presentValue else acc) ∅

/-- The update reported for one account. -/
def accountUpdate (account : EvmAccount) : AccountUpdate where
  created := account.isCreated
  selfdestructed := account.isSelfdestructed
  nonce := account.info.nonce
  balance := account.info.balance
  codeHash := account.info.codeHash
  code := account.info.code
  storage := changedSlots account

/-- Extract state changes from REVM execution state. -/
def extractChanges (state : EvmState) : ChangeSet :=
  state.toList.foldl
    (fun changes e =>
      -- skip untouched accounts
      if e.2.isTouched then changes.insert e.1 (accountUpdate e.2) else changes)
    ChangeSet.new

theorem extractChanges_getElem? (state : EvmState) (address : Address) :
    (extractChanges state)[address]? =
      (state[address]?).bind (fun e => if e.isTouched then some (accountUpdate e) else none) := by
  rw [extractChanges]
  refine (OrderedMap.walk_at (k := address) (fun ch : ChangeSet => ch[address]?)
    (fun old e => if e.isTouched then some (absorb old (accountUpdate e)) else old)
    ?_ ?_ state new).trans ?_
  · intro ch e hne
    split
    · rw [getElem?_insert, if_neg hne]
    · rfl
  · intro ch e
    split
    · rw [getElem?_insert, if_pos rfl]
    · rfl
  · -- the addresses are distinct, so an insert finds its address still empty
    cases state[address]? <;> simp [absorb]

/-! ### Reported change sets -/

/-- The CANCUN rule on the state REVM returns for a transaction. -/
def EvmState.Cancun (state : EvmState) : Prop :=
  ∀ (address : Address) (account : EvmAccount), state[address]? = some account →
    account.isSelfdestructed → account.isCreated

/-- The change sets the executor can report: the update of one transaction, or a merge of such. -/
inductive Reported : ChangeSet → Prop
  | transaction (state : EvmState) : EvmState.Cancun state → Reported (extractChanges state)
  | merge {a b : ChangeSet} : Reported a → Reported b → Reported (a.merge b)

/-- The CANCUN rule on an update. -/
def AccountUpdate.CancunFlags (u : AccountUpdate) : Prop := u.selfdestructed → u.created

/-- The CANCUN rule on every update of a change set. -/
def ChangeSet.CancunFlags (ch : ChangeSet) : Prop :=
  ∀ (address : Address) u, ch[address]? = some u → u.CancunFlags

theorem AccountUpdate.CancunFlags.not_selfdestructed {u : AccountUpdate} (h : u.CancunFlags)
    (hc : u.created = false) : u.selfdestructed = false := by
  cases hsd : u.selfdestructed with
  | false => rfl
  | true => exact absurd (h hsd) (by simp [hc])

theorem AccountUpdate.CancunFlags.merge {u : AccountUpdate} (e : AccountUpdate)
    (h : u.CancunFlags) : (e.merge u).CancunFlags := by
  intro hsd
  rw [merge_selfdestructed] at hsd
  rw [merge_created, h hsd, Bool.true_or]

theorem ChangeSet.CancunFlags.merge {a b : ChangeSet} (ha : a.CancunFlags) (hb : b.CancunFlags) :
    (a.merge b).CancunFlags := by
  intro address u hu
  rw [getElem?_merge] at hu
  cases hub : b[address]? with
  | none =>
    rw [hub] at hu
    exact ha address u hu
  | some v =>
    rw [hub, Option.elim_some, Option.some_inj] at hu
    cases hua : a[address]? with
    | none =>
      rw [hua] at hu
      exact hu ▸ hb address v hub
    | some e =>
      rw [hua] at hu
      exact hu ▸ (hb address v hub).merge e

theorem ChangeSet.CancunFlags.new : new.CancunFlags := by
  intro address u hu
  exact absurd hu (by simp)

theorem ChangeSet.CancunFlags.mergeAll {cs : List ChangeSet} (h : ∀ ch ∈ cs, ch.CancunFlags) :
    (mergeAll cs).CancunFlags := by
  induction cs using List.reverseRecOn with
  | nil => exact CancunFlags.new
  | append_singleton cs ch ih =>
    rw [mergeAll_concat]
    refine (ih (fun d hd => h d ?_)).merge (h ch ?_)
    · exact List.mem_append_left [ch] hd
    · exact List.mem_append_right cs List.mem_cons_self

theorem Reported.cancunFlags {ch : ChangeSet} (h : Reported ch) : ch.CancunFlags := by
  induction h with
  | transaction state hc =>
    intro address u hu
    rw [extractChanges_getElem?] at hu
    obtain ⟨account, hs, ht⟩ := Option.bind_eq_some_iff.mp hu
    split at ht
    · obtain rfl := Option.some_inj.mp ht
      exact hc address account hs
    · exact absurd ht (by simp)
  | merge _ _ iha ihb => exact iha.merge ihb

end Kora
