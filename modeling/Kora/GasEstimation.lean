/-
Gas estimation (`estimate_gas` in `node/executor/src/revm.rs`).

The estimate is a search between 21000 and the gas of the request, or of a block. The
lower end is never tried, though a transaction may cost exactly that much; and after 25
iterations the search ends wherever it is.

* `eval_estimateLoop` — against one state, the loop is a bisection of the call's success;
* `estimate_exact_iff` — the estimate is the least gas limit exactly if 25 halvings lead
  to it.
-/
import Kora.Bisection
import Kora.Simulation

namespace Kora

open StateQuery Bisection

namespace CallExecutor

variable (E : CallExecutor) {S : Type} [StateDbRead S] (state : S) (params : CallParams)
  (context : BlockContext)

/-- The call succeeds with a gas limit. -/
def succeeds (gas : ℕ) : Bool :=
  match (E.simulateAt params context gas).eval (StateQuery.answer state) with
  | .ok _ => true
  | .error _ => false

/-- Success is monotone in the gas limit up to the upper bound, and has a least gas limit there. -/
structure Threshold (least : ℕ) : Prop where
  monotone : ∀ gas gas', gas ≤ gas' → gas' ≤ gasUpper params context →
    E.succeeds state params context gas = true → E.succeeds state params context gas' = true
  succeeds : E.succeeds state params context least = true
  fails : ∀ gas < least, E.succeeds state params context gas = false
  low : 21000 ≤ least
  high : least ≤ gasUpper params context

variable {E state params context}

theorem Threshold.succeeds_iff {least : ℕ} (h : E.Threshold state params context least) {gas : ℕ}
    (hgas : gas ≤ gasUpper params context) :
    E.succeeds state params context gas = true ↔ least ≤ gas := by
  constructor
  · intro hs
    by_contra hlt
    rw [h.fails gas (by omega)] at hs
    cases hs
  · intro hle
    exact h.monotone least gas hle hgas h.succeeds

/-- Against one state the loop bisects the call's success; the best found is the upper end. -/
theorem eval_estimateLoop (iters lo hi : ℕ) :
    (E.estimateLoop params context iters lo hi hi).eval (answer state) =
      search (E.succeeds state params context) iters lo hi := by
  induction iters generalizing lo hi with
  | zero => rfl
  | succ iters ih =>
    rw [estimateLoop, search, succeeds]
    split
    · rw [ReadProgram.eval_bind]
      cases (E.simulateAt params context (lo + (hi - lo) / 2)).eval (answer state) with
      | ok output => exact ih lo (lo + (hi - lo) / 2)
      | error e => exact ih (lo + (hi - lo) / 2) hi
    · rfl

theorem eval_estimateGas (hu : E.succeeds state params context (gasUpper params context)) :
    (E.estimateGas params context).eval (answer state) =
      .ok (search (E.succeeds state params context) 25 21000
        (gasUpper params context)) := by
  rw [estimateGas, ReadProgram.eval_bind]
  rw [succeeds, simulateAt] at hu
  rw [simulateAt]
  revert hu
  cases (E.simulateCall { params with gasLimit := some (gasUpper params context) } context).eval
      (answer state) with
  | ok output =>
    intro _
    rw [ReadProgram.eval_bind, eval_estimateLoop]
    rfl
  | error e => exact fun h => absurd h (by simp)

/-- **When gas estimation is exact**, for a call with monotone success and a least gas limit in the
range: exactly if that limit is the upper end of a part that 25 halvings lead to. -/
theorem estimate_exact_iff (E : CallExecutor) {S : Type} [StateDbRead S] (state : S)
    (params : CallParams) (context : BlockContext) (least : ℕ)
    (h : E.Threshold state params context least) :
    (E.estimateGas params context).eval (StateQuery.answer state) = .ok least ↔
      least ∈ ends 25 21000 (gasUpper params context) := by
  rw [eval_estimateGas ((h.succeeds_iff le_rfl).2 h.high), Except.ok.injEq]
  exact search_eq_iff (fun gas _ hgas => h.succeeds_iff hgas) h.high

end CallExecutor

/-! ### A call with a fixed cost -/

namespace FixedCost

def executor (cost : ℕ) : CallExecutor where
  chainId := 1
  analyse := id
  build _ := .ok ()
  replay context env := .done <|
    if context.header.gasLimit < env.gasLimit then .error "CallerGasLimitMoreThanBlock"
    else if env.gasLimit < cost then .ok (.halt "OutOfGas") else .ok (.success [])

def params : CallParams := ⟨0xA, some 0xB, 1, [], none, 0, 0⟩

/-- A block of 30 million gas. -/
def context : BlockContext := .new ⟨1, 1, 30000000, 0, none⟩ 0 0

theorem succeeds_iff {cost gas : ℕ} :
    (executor cost).succeeds QmdbStore.new params context gas = true ↔
      cost ≤ gas ∧ gas ≤ 30000000 := by
  rw [CallExecutor.succeeds]
  simp only [CallExecutor.simulateAt, CallExecutor.simulateCall, CallExecutor.callParamsToTxEnv,
    executor, ReadProgram.interpret, ReadProgram.eval_bind, ReadProgram.eval_done,
    Option.getD_some, context, BlockContext.new]
  split_ifs with hb hc
  · simp only [ReadProgram.eval_pure, Bool.false_eq_true, false_iff]
    omega
  · simp only [ReadProgram.eval_pure, Bool.false_eq_true, false_iff]
    omega
  · simp only [ReadProgram.eval_pure, true_iff]
    omega

theorem threshold {cost : ℕ} (hlow : 21000 ≤ cost) (hh : cost ≤ 30000000) :
    (executor cost).Threshold QmdbStore.new params context cost where
  monotone gas gas' hle hu h := by
    rw [succeeds_iff] at h ⊢
    have hb : CallExecutor.gasUpper params context = 30000000 := rfl
    omega
  succeeds := succeeds_iff.2 ⟨le_rfl, hh⟩
  fails gas hlt := by
    rw [Bool.eq_false_iff, ne_eq, succeeds_iff]
    omega
  low := hlow
  high := hh

end FixedCost

section Example

open FixedCost CallExecutor

theorem estimate_exact_iff_50000 :
    (executor 50000).Threshold QmdbStore.new params context 50000 ∧
    ((executor 50000).estimateGas params context).eval (StateQuery.answer QmdbStore.new) =
      .ok 50000 := by
  have hc : (executor 50000).Threshold QmdbStore.new params context 50000 :=
    threshold (by decide) (by decide)
  exact ⟨hc, (estimate_exact_iff _ _ _ _ _ hc).2 ((mem_ends_iff (by decide) (by decide)).2
    (by decide))⟩

/-- A plain transfer costs 21000, which is not tried. -/
theorem estimate_transfer :
    ¬ ∀ (E : CallExecutor) (S : Type) [StateDbRead S] (state : S) (params : CallParams)
      (context : BlockContext) (least : ℕ), E.Threshold state params context least →
      (E.estimateGas params context).eval (StateQuery.answer state) = .ok least := by
  intro hcl
  have hc : (executor 21000).Threshold QmdbStore.new params context 21000 :=
    threshold le_rfl (by decide)
  have he := hcl _ _ _ _ _ _ hc
  rw [eval_estimateGas ((hc.succeeds_iff le_rfl).2 hc.high), Except.ok.injEq,
    search_eq_iff (fun gas _ hgas => hc.succeeds_iff hgas) hc.high] at he
  exact absurd (bounds_of_mem_ends (by decide) he).1 (by decide)

end Example

end Kora
