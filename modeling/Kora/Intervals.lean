/-
The maximal intervals of an increasing list of numbers.

* `intervals_spec` — the computed intervals are in increasing order with a gap between any
  two, and they cover exactly the numbers of the list.
-/
import Mathlib.Tactic.Common
import Mathlib.Data.Nat.Basic
import Mathlib.Data.List.Basic

namespace Intervals

/-- Put a smaller number before a list of intervals: it extends the first one or stands alone. -/
def prepend (n : ℕ) : List (ℕ × ℕ) → List (ℕ × ℕ)
  | [] => [(n, n)]
  | (start, stop) :: rest =>
    if n + 1 = start then (n, stop) :: rest else (n, n) :: (start, stop) :: rest

def intervals (ns : List ℕ) : List (ℕ × ℕ) := ns.foldr prepend []

/-- A number lies in one of the intervals. -/
def Covers (ranges : List (ℕ × ℕ)) (n : ℕ) : Prop := ∃ r ∈ ranges, r.1 ≤ n ∧ n ≤ r.2

/-- Intervals in increasing order, none of them empty, no two of them touching. -/
structure Apart (ranges : List (ℕ × ℕ)) : Prop where
  ordered : ∀ r ∈ ranges, r.1 ≤ r.2
  gap : ranges.Pairwise fun r r' => r.2 + 1 < r'.1

theorem covers_cons {start stop n : ℕ} {rest : List (ℕ × ℕ)} :
    Covers ((start, stop) :: rest) n ↔ (start ≤ n ∧ n ≤ stop) ∨ Covers rest n := by
  simp [Covers]

theorem covers_prepend {ranges : List (ℕ × ℕ)} (h : ∀ r ∈ ranges, r.1 ≤ r.2) (n m : ℕ) :
    Covers (prepend n ranges) m ↔ m = n ∨ Covers ranges m := by
  rcases ranges with _ | ⟨⟨start, stop⟩, rest⟩
  · simp [prepend, Covers]
    omega
  · have hle : start ≤ stop := h (start, stop) List.mem_cons_self
    rw [prepend]
    split_ifs with hn
    · -- the first interval grows by one number at its lower end
      simp only [covers_cons]
      constructor
      · rintro (hm | hm)
        · by_cases heq : m = n
          · exact .inl heq
          · exact .inr (.inl (by omega))
        · exact .inr (.inr hm)
      · rintro (hm | hm | hm)
        · exact .inl (by omega)
        · exact .inl (by omega)
        · exact .inr hm
    · refine covers_cons.trans ?_
      have heq : n ≤ m ∧ m ≤ n ↔ m = n := by omega
      rw [heq]

theorem Apart.prepend {ranges : List (ℕ × ℕ)} (h : Apart ranges) {n : ℕ}
    (hn : ∀ r ∈ ranges, n < r.1) : Apart (prepend n ranges) := by
  rcases ranges with _ | ⟨⟨start, stop⟩, rest⟩
  · exact ⟨by simp [Intervals.prepend], by simp [Intervals.prepend]⟩
  · obtain ⟨hlo, hgap⟩ := h
    obtain ⟨hfirst, hrest⟩ := List.pairwise_cons.1 hgap
    have hlt : n < start := hn (start, stop) List.mem_cons_self
    have hle : start ≤ stop := hlo (start, stop) List.mem_cons_self
    rw [Intervals.prepend]
    split_ifs with heq
    · refine ⟨?_, List.pairwise_cons.2 ⟨hfirst, hrest⟩⟩
      intro r hr
      rcases List.mem_cons.1 hr with rfl | hr
      · show n ≤ stop
        omega
      · exact hlo r (List.mem_cons_of_mem _ hr)
    · refine ⟨?_, List.pairwise_cons.2 ⟨?_, hgap⟩⟩
      · intro r hr
        rcases List.mem_cons.1 hr with rfl | hr
        · exact le_rfl
        · exact hlo r hr
      · -- the gap before the first interval, and so before all others
        intro r hr
        show n + 1 < r.1
        rcases List.mem_cons.1 hr with rfl | hr
        · show n + 1 < start
          omega
        · have := hfirst r hr
          omega

theorem intervals_spec {ns : List ℕ} (h : ns.Pairwise (· < ·)) :
    Apart (intervals ns) ∧ ∀ m, Covers (intervals ns) m ↔ m ∈ ns := by
  induction ns with
  | nil => exact ⟨⟨by simp [intervals], by simp [intervals]⟩, by simp [intervals, Covers]⟩
  | cons n ns ih =>
    obtain ⟨hlt, hns⟩ := List.pairwise_cons.1 h
    obtain ⟨hap, hcov⟩ := ih hns
    have hs : intervals (n :: ns) = prepend n (intervals ns) := rfl
    rw [hs]
    constructor
    · refine hap.prepend fun r hr => ?_
      -- an interval starts at a number of the list
      have hmem : r.1 ∈ ns := (hcov r.1).1 ⟨r, hr, le_rfl, hap.ordered r hr⟩
      exact hlt r.1 hmem
    · intro m
      rw [covers_prepend hap.ordered, hcov m, List.mem_cons]

end Intervals
