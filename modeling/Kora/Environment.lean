/-
The environments of verification and finalization.

A block is verified under `RevmApplication.blockContext`, with the base fee from the cache
and no block hashes, and executed again at its finalization under
`RevmContextProvider.context`, with both from the block index.

* `same_environment_iff` — when the two agree; then an accepted block does not fail its
  finalization with another root.
-/
import Kora.Node

open Std

namespace Kora

open RevmContextProvider FinalizedReporter

variable (P : Platform)

/-! ### What execution can read -/

/-- The environment of a block under a base fee and a table of block hashes. -/
def environment (block : Block) (gasLimit : ℕ) (feeRecipient : Address) (baseFee : ℕ)
    (blockHash : ℕ → B256) : BlockContext.View where
  number := block.height
  timestamp := block.timestamp
  gasLimit := gasLimit
  beneficiary := feeRecipient
  baseFee := baseFee
  prevrandao := block.prevrandao
  blobBaseFee := none
  blockHash := blockHash

/-- The window of the BLOCKHASH opcode in an index, seen from a height. -/
def hashWindow (index : BlockIndex) (height number : ℕ) : B256 :=
  if number < height ∧ height ≤ number + 256 then (index.blocksByNumber[number]?).getD 0 else 0

theorem view_verifyContext (app : RevmApplication) (block : Block) :
    (app.verifyContext P block).view = environment block app.gasLimit app.feeRecipient
      (app.computeBaseFee (P.parent block)) (fun _ => 0) := by
  have hh : (app.verifyContext P block).view.blockHash = fun _ => 0 := by
    funext number
    show (if number < block.height ∧ block.height ≤ number + 256 then
      ((∅ : ExtTreeMap ℕ B256)[number]?).getD 0 else 0) = (0 : B256)
    rw [ExtTreeMap.getElem?_empty]
    split <;> rfl
  rw [environment, ← hh]
  rfl

theorem view_context (provider : RevmContextProvider) (index : BlockIndex) (block : Block) :
    (provider.context index block).view = environment block provider.gasLimit
      provider.feeRecipient (baseFee index block.height)
      (hashWindow index block.height) := by
  have hh : (provider.context index block).view.blockHash = hashWindow index block.height :=
    funext fun number => provider.blockHash_context index block number
  rw [environment, ← hh]
  rfl

theorem environment_inj {block : Block} {gasLimit : ℕ} {feeRecipient : Address} {f g : ℕ}
    {h k : ℕ → B256} :
    environment block gasLimit feeRecipient f h = environment block gasLimit feeRecipient g k ↔
      f = g ∧ h = k := by
  rw [environment, environment, BlockContext.View.mk.injEq]
  tauto

/-- No number of the window is indexed, unless under the hash zero. -/
def WindowEmpty (index : BlockIndex) (height : ℕ) : Prop :=
  ∀ number, number < height → height ≤ number + 256 →
    ∀ hash, index.blocksByNumber[number]? = some hash → hash = 0

theorem hashWindow_eq_zero_iff {index : BlockIndex} {height : ℕ} :
    (fun _ => 0) = hashWindow index height ↔ WindowEmpty index height := by
  constructor
  · intro h number hlow hhg hash hh
    have hnum := congrFun h number
    rw [hashWindow, if_pos ⟨hlow, hhg⟩, hh] at hnum
    exact hnum.symm
  · intro h
    funext number
    rw [hashWindow]
    split
    · next hin =>
      cases hh : index.blocksByNumber[number]? with
      | none => rfl
      | some hash => exact (h number hin.1 hin.2 hash hh).symm
    · rfl

/-! ### The two environments of a block -/

theorem executeOnParent_congr {l l' : LedgerState} {context context' : BlockContext}
    {block : Block} {parent parent' : Snapshot} {outcome : ExecutionOutcome}
    (hv : context.view = context'.view)
    (hget : l'.snapshots.get (P.parent block) = some parent')
    (hs : l'.snapshotView parent' = l.snapshotView parent)
    (hr : parent'.stateRoot = parent.stateRoot)
    (h : l.executeOnParent P context block = .ok (parent, outcome)) :
    l'.executeOnParent P context' block = .ok (parent', outcome) := by
  obtain ⟨-, he, ht⟩ := (LedgerState.executeOnParent_ok P).1 h
  refine (LedgerState.executeOnParent_ok P).2 ⟨hget, ?_, ?_⟩
  · rw [Platform.executeBlock, hs, ← hv]
    exact he
  · rw [hr]
    exact ht

theorem finalizeBlock_ne_mismatch {l : LedgerState} {index : BlockIndex}
    {provider : RevmContextProvider} {block : Block} {result : Snapshot × ExecutionOutcome}
    (h : l.executeOnParent P (provider.context index block) block = .ok result)
    (blockIndexed persistCheckpoint : Bool) (expected computed : B256) :
    (finalizeBlock P l index provider blockIndexed block persistCheckpoint).2 ≠
      .error (.stateRootMismatch expected computed) := by
  -- the first part succeeds whether or not it executes, and a persist fails with its own error
  have hens : ∃ l' execution, ensureSnapshot P l index provider blockIndexed
      block = (l', .ok execution) := by
    rw [ensureSnapshot]
    dsimp only
    rw [h]
    split
    · dsimp only
      split <;> exact ⟨_, _, rfl⟩
    · exact ⟨_, _, rfl⟩
  obtain ⟨l', execution, hens⟩ := hens
  rw [finalizeBlock, hens]
  dsimp only
  split
  · cases l'.persistSnapshot (P.commitment block) with
    | mk l'' persisted =>
      cases persisted with
      | ok b | error e => exact fun hbad => by cases hbad
  · exact fun hbad => by cases hbad

/-- **When verification and finalization share their environment.** The contexts agree on what
execution can read exactly when cache and index give the same base fee and the window of hashes is
empty. Then a block that was accepted by full execution does not fail its finalization on the same
parent state. -/
theorem same_environment_iff (app : RevmApplication) (index : BlockIndex) (block : Block) :
    ((app.verifyContext P block).view =
        (RevmContextProvider.context ⟨app.gasLimit, app.feeRecipient⟩ index block).view ↔
      app.computeBaseFee (P.parent block) = RevmContextProvider.baseFee index block.height ∧
        WindowEmpty index block.height) ∧
    (app.computeBaseFee (P.parent block) = RevmContextProvider.baseFee index block.height →
      WindowEmpty index block.height →
      ∀ (l l' : LedgerState) (parent parent' : Snapshot) (outcome : ExecutionOutcome),
        l.executeOnParent P (app.verifyContext P block) block = .ok (parent, outcome) →
        l'.snapshots.get (P.parent block) = some parent' →
        l'.snapshotView parent' = l.snapshotView parent → parent'.stateRoot = parent.stateRoot →
        ∀ (blockIndexed persistCheckpoint : Bool) (expected computed : B256),
          (FinalizedReporter.finalizeBlock P l' index ⟨app.gasLimit, app.feeRecipient⟩ blockIndexed
            block persistCheckpoint).2 ≠ .error (.stateRootMismatch expected computed)) := by
  have ha : (app.verifyContext P block).view =
        (context ⟨app.gasLimit, app.feeRecipient⟩ index block).view ↔
      app.computeBaseFee (P.parent block) = baseFee index block.height ∧
        WindowEmpty index block.height := by
    rw [view_verifyContext, view_context, environment_inj, hashWindow_eq_zero_iff]
  refine ⟨ha, ?_⟩
  intro hfee hw l l' parent parent' outcome he hget hs hr
  exact finalizeBlock_ne_mismatch P
    (executeOnParent_congr P (ha.2 ⟨hfee, hw⟩) hget hs hr he)

/-! ### A block that asks for the hash of genesis -/

section

open ThreeBlocks

def hashUnknown (_ : StateView) (view : BlockContext.View) : Bool := view.blockHash 0 = 0

theorem hashUnknown_seen : Seen hashUnknown 0 := by
  decide +kernel

/-- Block 1 is accepted where genesis' hash is unknown; the finalizer's index has it and finds
another root. -/
theorem blockhash_splits_environments :
    ¬ ∀ (P : Platform) (chain : Chain P) (q₀ : QmdbStore), chain.StartsFrom q₀ →
      ∀ (maxTxs : ℕ) (ops : List Node.Op), (∀ op ∈ ops, op.OnChain chain) →
      ∀ node, node = ops.foldl (Node.step P) (Node.start P q₀ (chain.block 0) maxTxs
          chain.gasLimit chain.feeRecipient 0) →
      ∀ i < chain.length,
        (node.app.verifyContext P (chain.block (i + 1))).view =
            (node.provider.context node.index (chain.block (i + 1))).view ∧
          ∀ result, node.ledger.executeOnParent P (node.app.verifyContext P (chain.block (i + 1)))
              (chain.block (i + 1)) = .ok result →
            ∀ expected computed, (FinalizedReporter.finalizeBlock P node.ledger node.index
              node.provider true (chain.block (i + 1)) false).2 ≠
                .error (.stateRootMismatch expected computed) := by
  intro h
  obtain ⟨-, hf⟩ := h (heeding hashUnknown) (firstBlock hashUnknown_seen) QmdbStore.new
    (heedingChain_startsFrom _ _) 10 [] (by simp) _ rfl 0 (by decide)
  refine hf (⟨none, ChangeSet.new, 0, ChangeSet.new, []⟩, outcomeAt 1) ?_ 7 8 ?_
  · decide +kernel
  · decide +kernel

end

end Kora
