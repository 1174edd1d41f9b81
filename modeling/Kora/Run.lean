/-
Runs of a step function.

The state after a run is the fold of the step function over the inputs. `Along` says that
each step meets a condition in the state it is taken from.

* `Along.history`, `Along.invariant` — what every such step keeps holds after the run;
* `Along.take` — every beginning of such a run is such a run;
* `forall_take_iff` — when the condition decides, step by step, whether a property
  survives.
-/
import Mathlib.Order.Monotone.Basic
import Mathlib.Tactic.Common

namespace Run

variable {σ ι : Type*}

/-- Every step of the run from `s` over the inputs meets `P` in the state it is taken from. -/
def Along (step : σ → ι → σ) (P : σ → ι → Prop) : σ → List ι → Prop
  | _, [] => True
  | s, i :: is => P s i ∧ Along step P (step s i) is

variable {step : σ → ι → σ} {P : σ → ι → Prop}

/-- Whether a run meets a condition can be computed if each step can be checked. -/
instance Along.decidable [∀ s i, Decidable (P s i)] :
    (s : σ) → (is : List ι) → Decidable (Along step P s is)
  | _, [] => isTrue trivial
  | s, i :: is => @instDecidableAnd _ _ _ (Along.decidable (step s i) is)

variable {s : σ} {is : List ι}

/-- **The run rule**, for an invariant that also speaks about the inputs taken so far. -/
theorem Along.history (hrun : Along step P s is) (Inv : List ι → σ → Prop) (hi : Inv [] s)
    (hs : ∀ past s i, Inv past s → P s i → Inv (past ++ [i]) (step s i)) :
    Inv is (is.foldl step s) := by
  suffices h : ∀ past, Inv past s → Inv (past ++ is) (is.foldl step s) from h [] hi
  clear hi
  induction is generalizing s with
  | nil =>
    intro past hp
    rwa [List.append_nil]
  | cons i is ih =>
    intro past hp
    have hn := ih hrun.2 (past ++ [i]) (hs past s i hp hrun.1)
    rwa [List.append_assoc] at hn

theorem Along.invariant (hrun : Along step P s is) {Inv : σ → Prop} (hi : Inv s)
    (hs : ∀ s i, Inv s → P s i → Inv (step s i)) : Inv (is.foldl step s) :=
  hrun.history (fun _ => Inv) hi (fun _ => hs)

theorem along_append {js : List ι} :
    Along step P s (is ++ js) ↔ Along step P s is ∧ Along step P (is.foldl step s) js := by
  induction is generalizing s with
  | nil => simp [Along]
  | cons i is ih => simp [Along, ih, and_assoc]

theorem along_of_forall {Q : ι → Prop} (h : ∀ i ∈ is, Q i) : Along step (fun _ i => Q i) s is := by
  induction is generalizing s with
  | nil => trivial
  | cons i is ih =>
    exact ⟨h i List.mem_cons_self, ih fun j hj => h j (List.mem_cons_of_mem i hj)⟩

theorem along_true (s : σ) (is : List ι) : Along step (fun _ _ => True) s is :=
  along_of_forall fun _ _ => trivial

theorem Along.take (h : Along step P s is) (k : ℕ) : Along step P s (is.take k) := by
  rw [← List.take_append_drop k is] at h
  exact (along_append.mp h).1

/-- **The exact condition of a run.** If in every state with the invariant and the property a step
keeps the property exactly when it meets the condition, then the property holds throughout exactly
when every step meets it. -/
theorem forall_take_iff {Inv Q : σ → Prop} (hinv : ∀ s i, Inv s → Inv (step s i))
    (hst : ∀ s i, Inv s → Q s → (Q (step s i) ↔ P s i)) (hs : Inv s) (hq : Q s) (is : List ι) :
    (∀ k, Q ((is.take k).foldl step s)) ↔ Along step P s is := by
  induction is generalizing s with
  | nil => simpa [Along] using hq
  | cons i is ih =>
    constructor
    · intro hall
      have hf : Q (step s i) := hall 1
      refine ⟨(hst s i hs hq).1 hf, (ih (hinv s i hs) hf).1 fun k => ?_⟩
      exact hall (k + 1)
    · rintro ⟨hi, his⟩ k
      have hf : Q (step s i) := (hst s i hs hq).2 hi
      cases k with
      | zero => exact hq
      | succ k => exact (ih (hinv s i hs) hf).2 his k

/-- **The run rule**, for an invariant of the state and a value that steps do not lower. -/
theorem Along.exists_monotone {α : Type*} [Preorder α] {Inv : σ → α → Prop}
    (hst : ∀ s i a, Inv s a → P s i → ∃ b, a ≤ b ∧ Inv (step s i) b) (hrun : Along step P s is)
    {a : α} (hs : Inv s a) :
    ∃ f : ℕ → α, f 0 = a ∧ Monotone f ∧ ∀ t, Inv ((is.take t).foldl step s) (f t) := by
  induction is generalizing s a with
  | nil => exact ⟨fun _ => a, rfl, monotone_const, fun t => by rwa [List.take_nil]⟩
  | cons i is ih =>
    obtain ⟨b, hab, hb⟩ := hst s i a hs hrun.1
    obtain ⟨f, hzero, hm, hinv⟩ := ih hrun.2 hb
    refine ⟨fun t => Nat.casesOn t a f, rfl, monotone_nat_of_le_succ fun t => ?_, fun t => ?_⟩
    · cases t with
      | zero => exact hab.trans hzero.ge
      | succ t => exact hm (Nat.le_succ t)
    · cases t with
      | zero => exact hs
      | succ t => exact hinv t

/-- **The run rule** for a preorder that every step goes up in: later states are above. -/
theorem Along.rel {Inv : σ → Prop} {R : σ → σ → Prop} (hrun : Along step P s is)
    (hrefl : ∀ s, R s s) (htrans : ∀ {s t u}, R s t → R t u → R s u)
    (hst : ∀ s i, Inv s → P s i → Inv (step s i) ∧ R s (step s i)) (hs : Inv s) {k l : ℕ}
    (hkl : k ≤ l) : R ((is.take k).foldl step s) ((is.take l).foldl step s) := by
  induction is generalizing s k l with
  | nil =>
    rw [List.take_nil, List.take_nil]
    exact hrefl s
  | cons i is ih =>
    obtain ⟨hi, hr⟩ := hst s i hs hrun.1
    cases l with
    | zero =>
      obtain rfl : k = 0 := Nat.le_zero.1 hkl
      exact hrefl s
    | succ l =>
      cases k with
      | zero => exact htrans hr (ih hrun.2 hi (Nat.zero_le l))
      | succ k => exact ih hrun.2 hi (Nat.le_of_succ_le_succ hkl)

theorem Along.and_forall {Q : ι → Prop} (h : Along step P s is) (hQ : ∀ i ∈ is, Q i) :
    Along step (fun s i => Q i ∧ P s i) s is := by
  induction is generalizing s with
  | nil => trivial
  | cons i is ih =>
    refine ⟨⟨hQ i List.mem_cons_self, h.1⟩, ih h.2 (fun j hj => hQ j ?_)⟩
    exact List.mem_cons_of_mem i hj

end Run
