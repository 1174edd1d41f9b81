/-
Bisection for a threshold.

A search for the least number that passes a test halves an interval whose upper end is
known to pass, a bounded number of times. The lower end is taken to fail and never tested.

* `search_eq_iff` — the search finds a threshold exactly if it is the upper end of a part
  that the halvings lead to;
* `mem_ends_iff` — with enough turns every number above the lower end is one.
-/
import Mathlib.Algebra.Order.Ring.Nat
import Mathlib.Data.Set.Insert
import Mathlib.Tactic.Common

namespace Bisection

/-- Halve the interval at most the given number of times; the upper end is the result. -/
def search (test : ℕ → Bool) : ℕ → ℕ → ℕ → ℕ
  | 0, _, hi => hi
  | turns + 1, lo, hi =>
    if lo + 1 < hi then
      if test (lo + (hi - lo) / 2) then search test turns lo (lo + (hi - lo) / 2)
      else search test turns (lo + (hi - lo) / 2) hi
    else hi

/-- The upper ends of the parts that the halvings of an interval lead to. -/
def ends : ℕ → ℕ → ℕ → Set ℕ
  | 0, _, hi => {hi}
  | turns + 1, lo, hi =>
    if lo + 1 < hi then
      ends turns lo (lo + (hi - lo) / 2) ∪ ends turns (lo + (hi - lo) / 2) hi
    else {hi}

variable {x turns lo hi : ℕ}

theorem bounds_of_mem_ends (hlt : lo < hi) (h : x ∈ ends turns lo hi) : lo < x ∧ x ≤ hi := by
  induction turns generalizing lo hi with
  | zero =>
    obtain rfl : x = hi := h
    exact ⟨hlt, le_rfl⟩
  | succ turns ih =>
    rw [ends] at h
    split at h
    · rcases h with h | h
      · obtain ⟨hl, hr⟩ := ih (by omega) h
        omega
      · obtain ⟨hl, hr⟩ := ih (by omega) h
        omega
    · obtain rfl : x = hi := h
      exact ⟨hlt, le_rfl⟩

/-- **The search finds a threshold** of the test exactly if it is the upper end of a part. -/
theorem search_eq_iff {test : ℕ → Bool} {least : ℕ}
    (hts : ∀ g, lo < g → g ≤ hi → (test g = true ↔ least ≤ g)) (hl : least ≤ hi) :
    search test turns lo hi = least ↔ least ∈ ends turns lo hi := by
  induction turns generalizing lo hi with
  | zero => exact eq_comm
  | succ turns ih =>
    rw [search, ends]
    split
    · next hwd =>
      have hmid : lo < lo + (hi - lo) / 2 ∧ lo + (hi - lo) / 2 < hi := by omega
      generalize lo + (hi - lo) / 2 = mid at hmid
      have ht := hts mid hmid.1 hmid.2.le
      rw [Set.mem_union]
      split
      · next hp =>
        -- The threshold is in the lower half, and the ends of the upper one lie above it.
        have hle := ht.1 hp
        rw [ih (fun g hlo hhi => hts g hlo (hhi.trans hmid.2.le)) hle]
        refine ⟨.inl, fun h => h.resolve_right fun hu => ?_⟩
        have hb := bounds_of_mem_ends hmid.2 hu
        omega
      · next hf =>
        have hlt : mid < least := Nat.lt_of_not_le fun hle => hf (ht.2 hle)
        rw [ih (fun g hlo hhi => hts g (hmid.1.trans hlo) hhi) hl]
        refine ⟨.inr, fun h => h.resolve_left fun hu => ?_⟩
        have hb := bounds_of_mem_ends hmid.1 hu
        omega
    · exact eq_comm

theorem mem_ends_iff (hlt : lo < hi) (hw : hi - lo ≤ 2 ^ turns) :
    x ∈ ends turns lo hi ↔ lo < x ∧ x ≤ hi := by
  refine ⟨bounds_of_mem_ends hlt, fun h => ?_⟩
  induction turns generalizing lo hi with
  | zero =>
    show x = hi
    omega
  | succ turns ih =>
    rw [Nat.pow_succ] at hw
    rw [ends]
    split
    · by_cases hx : x ≤ lo + (hi - lo) / 2
      · exact .inl (ih (by omega) (by omega) ⟨h.1, hx⟩)
      · exact .inr (ih (by omega) (by omega) ⟨by omega, h.2⟩)
    · show x = hi
      omega

end Bisection
