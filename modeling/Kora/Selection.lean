/-
Choosing the first in an order, again and again.

Several sources each offer the first of their items. In every turn the one that comes
before all other offers is taken, until nothing is offered or enough is taken.

* `GreedyMerge.unique` — what is taken does not depend on how the turns are made;
* `GreedyMerge.isPrefix_filter`, `GreedyMerge.filter_eq_of_lt` — the first part of each
  source, or with room left over all of it.
-/
import Mathlib.Data.List.Nodup
import Mathlib.Data.List.Infix
import Mathlib.Logic.Function.Basic
import Mathlib.Order.Basic

open Std List

/-! ### A least item -/

theorem foldl_least {α β : Type*} {cmp : α → α → Ordering} [TransCmp cmp] (f : β → α) (first : β)
    (l : List β) :
    l.foldl (fun left right => if cmp (f right) (f left) = .lt then right else left) first ∈
        first :: l ∧
      ∀ b ∈ first :: l, (cmp (f (l.foldl
        (fun left right => if cmp (f right) (f left) = .lt then right else left) first))
          (f b)).isLE = true := by
  induction l generalizing first with
  | nil =>
    refine ⟨mem_cons_self, fun b hb => ?_⟩
    obtain rfl := mem_singleton.1 hb
    exact ReflCmp.isLE_rfl
  | cons second l ih =>
    rw [foldl_cons]
    split
    · next hlt =>
      obtain ⟨hmem, hle⟩ := ih second
      refine ⟨mem_cons_of_mem first hmem, fun b hb => ?_⟩
      rcases mem_cons.1 hb with rfl | hb
      · exact TransCmp.isLE_trans (hle second mem_cons_self) (Ordering.isLE_of_eq_lt hlt)
      · exact hle b hb
    · next hge =>
      obtain ⟨hmem, hle⟩ := ih first
      have hs : (cmp (f first) (f second)).isLE = true := by
        have hsw : cmp (f first) (f second) = (cmp (f second) (f first)).swap :=
          OrientedCmp.eq_swap
        rw [hsw]
        cases hcmp : cmp (f second) (f first) with
        | lt => exact absurd hcmp hge
        | eq | gt => rfl
      refine ⟨?_, fun b hb => ?_⟩
      · rcases mem_cons.1 hmem with heq | hmem
        · rw [heq]
          exact mem_cons_self
        · exact mem_cons_of_mem first (mem_cons_of_mem second hmem)
      · rcases mem_cons.1 hb with rfl | hb
        · exact hle b mem_cons_self
        · rcases mem_cons.1 hb with rfl | hb
          · exact TransCmp.isLE_trans (hle first mem_cons_self) hs
          · exact hle b (mem_cons_of_mem first hb)

/-! ### Merging -/

variable {ι α : Type*} [DecidableEq ι] {before : α → α → Prop} {n : ℕ} {source : ι → List α}
  {taken : List α}

/-- Up to `n` items are taken from the fronts of the sources, each of which comes before what the
other sources offer. -/
inductive GreedyMerge (before : α → α → Prop) : ℕ → (ι → List α) → List α → Prop
  | full (source : ι → List α) : GreedyMerge before 0 source []
  | exhausted {n : ℕ} {source : ι → List α} (hnil : ∀ i, source i = []) :
      GreedyMerge before n source []
  | take {n : ℕ} {source : ι → List α} {i : ι} {a : α} {rest taken : List α}
      (hi : source i = a :: rest)
      (hbefore : ∀ j b rest', j ≠ i → source j = b :: rest' → before a b)
      (hlater : GreedyMerge before n (Function.update source i rest) taken) :
      GreedyMerge before (n + 1) source (a :: taken)

open Function

namespace GreedyMerge

theorem length_le (h : GreedyMerge before n source taken) : taken.length ≤ n := by
  induction h with
  | full => exact le_rfl
  | exhausted => exact Nat.zero_le _
  | take _ _ _ ih => exact Nat.succ_le_succ ih

theorem unique (ha : ∀ a b, before a b → ¬ before b a) {taken' : List α}
    (h : GreedyMerge before n source taken) (h' : GreedyMerge before n source taken') :
    taken = taken' := by
  induction h generalizing taken' with
  | full =>
    cases h' with
    | full | exhausted => rfl
  | exhausted hnil =>
    cases h' with
    | full | exhausted => rfl
    | take hi => cases (hnil _).symm.trans hi
  | @take n source i a rest taken hi hb hl ih =>
    cases h' with
    | exhausted hnil => cases (hnil i).symm.trans hi
    | @take _ _ i' a' rest' taken' hi' hb' hl' =>
      by_cases heq : i' = i
      · subst heq
        obtain ⟨rfl, rfl⟩ := cons.inj (hi.symm.trans hi')
        rw [ih hl']
      · exact absurd (hb' i a rest (Ne.symm heq) hi) (ha _ _ (hb i' a' rest' heq hi'))

section Owner

variable {owner : α → ι} (howner : ∀ i, ∀ a ∈ source i, owner a = i)

variable {a : α}

theorem owner_update {i : ι} {rest : List α} (hi : source i = a :: rest)
    (howner : ∀ j, ∀ b ∈ source j, owner b = j) :
    ∀ j, ∀ b ∈ update source i rest j, owner b = j := by
  intro j b hb
  by_cases heq : j = i
  · subst heq
    rw [update_self] at hb
    exact howner j b (hi ▸ mem_cons_of_mem a hb)
  · rw [update_of_ne heq] at hb
    exact howner j b hb

/-- What a source offers once some items are taken. -/
def next (source : ι → List α) (owner : α → ι) (taken : List α) (i : ι) : Option α :=
  ((source i).drop (taken.filter (fun a => owner a = i)).length).head?

theorem next_nil (source : ι → List α) (owner : α → ι) (i : ι) :
    next source owner [] i = (source i).head? := rfl

theorem next_cons {i : ι} {rest : List α} (hi : source i = a :: rest) (ho : owner a = i)
    (taken : List α) (j : ι) :
    next source owner (a :: taken) j = next (update source i rest) owner taken j := by
  rw [next, next, filter_cons, ho]
  by_cases heq : j = i
  · subst heq
    rw [decide_eq_true rfl, if_pos rfl, update_self, hi, length_cons, drop_succ_cons]
  · rw [decide_eq_false (Ne.symm heq), if_neg Bool.false_ne_true, update_of_ne heq]

include howner

variable (h : GreedyMerge before n source taken)
include h

theorem isPrefix_filter (i : ι) : taken.filter (fun a => owner a = i) <+: source i := by
  induction h with
  | full | exhausted => exact nil_prefix
  | @take n source j a rest taken hj hb hl ih =>
    have hl := ih (owner_update hj howner)
    have ho : owner a = j := howner j a (hj ▸ mem_cons_self)
    rw [filter_cons, ho]
    by_cases heq : i = j
    · subst heq
      rw [update_self] at hl
      rw [decide_eq_true rfl, if_pos rfl, hj]
      exact cons_prefix_cons.2 ⟨rfl, hl⟩
    · rw [update_of_ne heq] at hl
      rwa [decide_eq_false (Ne.symm heq), if_neg Bool.false_ne_true]

theorem filter_eq_of_lt (hlt : taken.length < n) (i : ι) :
    taken.filter (fun a => owner a = i) = source i := by
  induction h with
  | full => exact absurd hlt (Nat.lt_irrefl 0)
  | exhausted hnil => exact (hnil i).symm
  | @take n source j a rest taken hj hb hl ih =>
    have hl := ih (owner_update hj howner) (Nat.lt_of_succ_lt_succ hlt)
    have ho : owner a = j := howner j a (hj ▸ mem_cons_self)
    rw [filter_cons, ho]
    by_cases heq : i = j
    · subst heq
      rw [update_self] at hl
      rw [decide_eq_true rfl, if_pos rfl, hj, hl]
    · rw [update_of_ne heq] at hl
      rw [decide_eq_false (Ne.symm heq), if_neg Bool.false_ne_true, hl]

theorem mem_source (ha : a ∈ taken) : a ∈ source (owner a) := by
  refine (h.isPrefix_filter howner (owner a)).subset (mem_filter.2 ⟨ha, ?_⟩)
  exact decide_eq_true rfl

theorem nodup (hn : ∀ i, (source i).Nodup) : taken.Nodup := by
  induction h with
  | full | exhausted => exact nodup_nil
  | @take n source j a rest taken hj hb hl ih =>
    obtain ⟨hf, hr⟩ := nodup_cons.1 (hj ▸ hn j)
    have ho : owner a = j := howner j a (hj ▸ mem_cons_self)
    refine nodup_cons.2 ⟨fun hmem => hf ?_, ih (owner_update hj howner) fun i => ?_⟩
    · have hl := hl.mem_source (owner_update hj howner) hmem
      rwa [ho, update_self] at hl
    · by_cases heq : i = j
      · subst heq
        rwa [update_self]
      · rw [update_of_ne heq]
        exact hn i

theorem before_next {k : ℕ} (ha : taken[k]? = some a) :
    next source owner (taken.take k) (owner a) = some a ∧
      ∀ j b, j ≠ owner a → next source owner (taken.take k) j = some b → before a b := by
  induction h generalizing k with
  | full | exhausted => simp at ha
  | @take n source i first rest taken hi hbf hl ih =>
    have ho : owner first = i := howner i first (hi ▸ mem_cons_self)
    cases k with
    | zero =>
      obtain rfl : first = a := Option.some.inj ha
      rw [take_zero, ho]
      refine ⟨by rw [next_nil, hi, head?_cons], fun j b hne hb => ?_⟩
      rw [next_nil, head?_eq_some_iff] at hb
      obtain ⟨rest', hj⟩ := hb
      exact hbf j b rest' hne hj
    | succ k =>
      rw [take_succ_cons, next_cons hi ho]
      obtain ⟨hn, hot⟩ := ih (owner_update hi howner) ha
      refine ⟨hn, fun j b hne hb => hot j b hne ?_⟩
      rwa [next_cons hi ho] at hb

end Owner

end GreedyMerge
