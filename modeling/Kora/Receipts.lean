/-
The receipts of an executed block (`execute` in `node/executor/src/revm.rs`).

The indexer pairs receipts with transactions by position, and the fee of the next block is
computed from the gas used.

* `Accounts` — the receipts made so far answer for the transactions gone through;
* `execute_receipts` — the receipts of a block.
-/
import Kora.Inclusion
import Mathlib.Algebra.Order.BigOperators.Group.List

open List Option

namespace Kora

namespace Revm

variable {R : Revm} {keccak256 : Bytes → B256} {gasLimit : ℕ}

variable (R) in
/-- REVM charges a transaction at most its gas limit. -/
def GasBounded : Prop :=
  ∀ db env result, R.replay db env = some result → result.txGasUsed ≤ env.gasLimit

/-- The gas used by a list of receipts. -/
def totalGas (receipts : List ExecutionReceipt) : ℕ := (receipts.map (·.gasUsed)).sum

theorem totalGas_concat (receipts : List ExecutionReceipt) (receipt : ExecutionReceipt) :
    totalGas (receipts ++ [receipt]) = totalGas receipts + receipt.gasUsed := by
  simp [totalGas]

theorem totalGas_take_mono (receipts : List ExecutionReceipt) {i j : ℕ} (hij : i ≤ j) :
    totalGas (receipts.take i) ≤ totalGas (receipts.take j) := by
  have hsub : (receipts.take i).Sublist (receipts.take j) :=
    (take_prefix_take_left hij).sublist
  exact (hsub.map _).sum_le_sum fun _ _ => Nat.zero_le _

variable (keccak256 gasLimit) in
structure Accounts (p : Progress R) (done : List Bytes) : Prop where
  /-- Each transaction has its receipt, in order. -/
  hashes : p.outcome.receipts.map (·.txHash) = done.map keccak256
  /-- Each cumulative value is the gas used up to its receipt. -/
  partialSums : ∀ i receipt, p.outcome.receipts[i]? = some receipt →
    receipt.cumulativeGasUsed = totalGas (p.outcome.receipts.take (i + 1))
  total : p.cumulativeGas = totalGas p.outcome.receipts
  bound : p.cumulativeGas ≤ gasLimit

namespace Accounts

variable {p p' : Progress R} {done : List Bytes}

theorem start (state : StateView) (view : BlockContext.View) :
    Accounts keccak256 gasLimit (R.start state view) [] :=
  ⟨rfl, fun i receipt h => by simp [Revm.start] at h, rfl, Nat.zero_le _⟩

variable (h : Accounts keccak256 gasLimit p done)
include h

theorem add {tx : Bytes} {receipt : ExecutionReceipt}
    (hrc : p'.outcome.receipts = p.outcome.receipts ++ [receipt])
    (hh : receipt.txHash = keccak256 tx)
    (hc : receipt.cumulativeGasUsed = p.cumulativeGas + receipt.gasUsed)
    (ht : p'.cumulativeGas = p.cumulativeGas + receipt.gasUsed)
    (hb : p'.cumulativeGas ≤ gasLimit) : Accounts keccak256 gasLimit p' (done ++ [tx]) where
  hashes := by
    rw [hrc, map_append, map_append, h.hashes, map_singleton, map_singleton, hh]
  partialSums i r hr := by
    rw [hrc] at hr ⊢
    by_cases hi : i < p.outcome.receipts.length
    · rw [getElem?_append_left hi] at hr
      rw [h.partialSums i r hr, take_append_of_le_length (by omega)]
    · obtain rfl : i = p.outcome.receipts.length := by
        have hlt := (List.getElem?_eq_some_iff.1 hr).1
        rw [length_append, length_singleton] at hlt
        omega
      rw [getElem?_concat_length] at hr
      obtain rfl := some.inj hr
      rw [hc, h.total, take_of_length_le (by simp), totalGas_concat]
  total := by rw [ht, hrc, totalGas_concat, h.total]
  bound := hb

/-- **One turn.** Skipped, it uses nothing; executed, it had fitted, and nothing saturates. -/
theorem executeTx (hR : R.GasBounded) (hl : gasLimit < U64_MAX) {tx : Bytes}
    (ht : Revm.executeTx keccak256 gasLimit p tx = some p') :
    Accounts keccak256 gasLimit p' (done ++ [tx]) := by
  obtain ⟨env, -, -, hnone⟩ | ⟨hf, hs | ⟨env, result, henv, hr, hen⟩⟩ :=
    executeTx_cases keccak256 gasLimit p tx
  · rw [hnone] at ht
    cases ht
  · obtain rfl := some.inj (hs.symm.trans ht)
    exact h.add rfl rfl rfl rfl h.bound
  · obtain rfl := some.inj (hen.symm.trans ht)
    have hu := hR _ _ _ hr
    have hrm := hf env henv
    rw [Progress.Fits] at hrm
    have he : min (p.cumulativeGas + result.txGasUsed) U64_MAX =
        p.cumulativeGas + result.txGasUsed := by omega
    refine h.add rfl rfl he he ?_
    calc min (p.cumulativeGas + result.txGasUsed) U64_MAX
        = p.cumulativeGas + result.txGasUsed := he
      _ ≤ gasLimit := by omega

/-- **The loop** ends before the end of the list only at one that does not fit in what is left. -/
theorem executeTxs (hR : R.GasBounded) (hl : gasLimit < U64_MAX) (txs : List Bytes) :
    ∃ k ≤ txs.length,
      Accounts keccak256 gasLimit (Revm.executeTxs keccak256 gasLimit p txs)
        (done ++ txs.take k) ∧
      ∀ tx, txs[k]? = some tx → ∃ env, R.decodeTxEnv tx = some env ∧
        gasLimit < (Revm.executeTxs keccak256 gasLimit p txs).cumulativeGas + env.gasLimit := by
  induction txs generalizing p done with
  | nil => exact ⟨0, le_rfl, by simpa [Revm.executeTxs] using h, by simp⟩
  | cons tx txs ih =>
    rw [Revm.executeTxs]
    obtain ⟨env, henv, hf, hnone⟩ | ⟨-, hsome⟩ := executeTx_cases keccak256 gasLimit p tx
    · -- The loop ends at this transaction.
      rw [hnone]
      refine ⟨0, Nat.zero_le _, by simpa using h, fun tx' htx => ⟨env, ?_, ?_⟩⟩
      · obtain rfl := Option.some.inj htx
        exact henv
      · rw [Progress.Fits] at hf
        dsimp only
        omega
    · obtain ⟨p', hp'⟩ : ∃ p', Revm.executeTx keccak256 gasLimit p tx = some p' := by
        rcases hsome with hs | ⟨env, result, -, -, he⟩
        · exact ⟨_, hs⟩
        · exact ⟨_, he⟩
      rw [hp']
      obtain ⟨k, hk, ha, hr⟩ := ih (h.executeTx hR hl hp')
      refine ⟨k + 1, Nat.succ_le_succ hk, ?_, fun tx' htx => hr tx' htx⟩
      rwa [append_assoc, singleton_append] at ha

theorem receipt_of_getElem? {i : ℕ} {receipt : ExecutionReceipt}
    (hr : p.outcome.receipts[i]? = some receipt) :
    ∃ tx, done[i]? = some tx ∧ receipt.txHash = keccak256 tx := by
  have hh : (done.map keccak256)[i]? = some receipt.txHash := by
    rw [← h.hashes, getElem?_map, hr]
    rfl
  rw [getElem?_map, map_eq_some_iff] at hh
  obtain ⟨tx, htx, heq⟩ := hh
  exact ⟨tx, htx, heq.symm⟩

theorem cumulative_pairwise : (p.outcome.receipts.map (·.cumulativeGasUsed)).Pairwise (· ≤ ·) := by
  rw [pairwise_map, pairwise_iff_getElem]
  intro i j hi hj hij
  rw [h.partialSums i _ (getElem?_eq_getElem hi), h.partialSums j _ (getElem?_eq_getElem hj)]
  exact totalGas_take_mono _ (by omega)

theorem cumulative_last :
    p.cumulativeGas = (p.outcome.receipts.getLast?.map (·.cumulativeGasUsed)).getD 0 := by
  rw [h.total, getLast?_eq_getElem?]
  cases hl : p.outcome.receipts[p.outcome.receipts.length - 1]? with
  | none =>
    have hnil : p.outcome.receipts.length = 0 := by
      have hle := List.getElem?_eq_none_iff.1 hl
      omega
    rw [eq_nil_of_length_eq_zero hnil]
    rfl
  | some receipt =>
    rw [map_some, getD_some, h.partialSums _ _ hl, take_of_length_le (by omega)]

end Accounts

/-- **The receipts of a block** answer for a beginning of its transactions, the cumulative gas sums
up to the block's gas used, which is within the limit, and the first transaction without a receipt
did not fit. -/
theorem execute_receipts (hR : R.GasBounded) (keccak256 : Bytes → B256) (state : StateView)
    (view : BlockContext.View) (hlimit : view.gasLimit < U64_MAX) (txs : List Bytes) :
    ∃ outcome : ExecutionOutcome, R.execute keccak256 state view txs = .ok outcome ∧
      (∀ (i : ℕ) (receipt : ExecutionReceipt), outcome.receipts[i]? = some receipt →
        ∃ tx, txs[i]? = some tx ∧ receipt.txHash = keccak256 tx) ∧
      (∀ (i : ℕ) (receipt : ExecutionReceipt), outcome.receipts[i]? = some receipt →
        receipt.cumulativeGasUsed = totalGas (outcome.receipts.take (i + 1))) ∧
      (outcome.receipts.map (·.cumulativeGasUsed)).Pairwise (· ≤ ·) ∧
      outcome.gasUsed = (outcome.receipts.getLast?.map (·.cumulativeGasUsed)).getD 0 ∧
      outcome.gasUsed ≤ view.gasLimit ∧
      (∀ tx, txs[outcome.receipts.length]? = some tx → ∃ env, R.decodeTxEnv tx = some env ∧
        view.gasLimit < outcome.gasUsed + env.gasLimit) := by
  have hs : Accounts keccak256 view.gasLimit (R.start state view) [] := .start state view
  obtain ⟨k, hk, h, hrs⟩ := hs.executeTxs hR hlimit txs
  rw [nil_append] at h
  have hln : (executeTxs keccak256 view.gasLimit (R.start state view)
      txs).outcome.receipts.length = k := by
    have hl := congrArg List.length h.hashes
    rwa [length_map, length_map, length_take, Nat.min_eq_left hk] at hl
  refine ⟨_, rfl, fun i receipt hr => ?_, h.partialSums, h.cumulative_pairwise, h.cumulative_last,
    h.bound, ?_⟩
  · obtain ⟨tx, htx, hh⟩ := h.receipt_of_getElem? hr
    rw [getElem?_take] at htx
    split at htx
    · exact ⟨tx, htx, hh⟩
    · cases htx
  · dsimp only
    rwa [hln]

end Revm

section Example

open Revm TwoTransfers

theorem TwoTransfers.revm_gasBounded : TwoTransfers.revm.GasBounded := by
  intro db env result h
  simp only [TwoTransfers.revm] at h
  split at h
  · obtain rfl := some.inj h
    exact le_rfl
  · cases h

theorem execute_receipts_block :
    context.view.gasLimit = 100 ∧
    ∃ outcome : ExecutionOutcome, revm.execute platform.keccak256 state context.view
        [(transfer 0).envelope, (transfer 1).envelope] = .ok outcome ∧
      outcome.receipts =
        [⟨platform.keccak256 (transfer 0).envelope, true, 60, 60, [], none⟩] ∧
      outcome.gasUsed ≤ 100 := by
  have hl : context.view.gasLimit = 100 := rfl
  obtain ⟨outcome, he, -, -, -, -, hgas, -⟩ := execute_receipts revm_gasBounded
    platform.keccak256 state context.view (by decide)
    [(transfer 0).envelope, (transfer 1).envelope]
  refine ⟨hl, outcome, he, ?_, hgas⟩
  obtain rfl := Except.ok.inj he
  decide +kernel

end Example

end Kora
