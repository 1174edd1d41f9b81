/-
A run of numbers that stops counting at a largest one.

When `start + i` saturates at a cap, a run and the rest beyond it may hold any number of
items that carry the cap. Below it there is one item for each number.

* `SaturatingRun.concat` — the first item of the rest moves over when it continues the
  run;
* `SettledRun` — nothing that waits could continue the run, the cap apart.
-/
import Mathlib.Data.List.Nodup
import Mathlib.Data.List.Range
import Mathlib.Data.Nat.Basic

open List

variable {α : Type*} {key : α → ℕ} {cap start : ℕ} {run rest : List α}

/-- The numbers of `run` count up from `start` to the cap and stay there; those of `rest` are
increasing up to the cap and not below the number after the run. -/
structure SaturatingRun (key : α → ℕ) (cap start : ℕ) (run rest : List α) : Prop where
  start_le : start ≤ cap
  run_key : ∀ {i : ℕ} {a : α}, run[i]? = some a → key a = min (start + i) cap
  rest_sorted : rest.Pairwise fun a b => key a < key b ∨ key b = cap
  rest_ge : ∀ a ∈ rest, min (start + run.length) cap ≤ key a
  rest_le : ∀ a ∈ rest, key a ≤ cap

/-- The rest leaves a gap after the run, unless it carries the cap. -/
structure SettledRun (key : α → ℕ) (cap start : ℕ) (run rest : List α) : Prop
    extends SaturatingRun key cap start run rest where
  gap : ∀ a ∈ rest, start + run.length < key a ∨ key a = cap

namespace SaturatingRun

theorem nil (key : α → ℕ) (h : start ≤ cap) : SaturatingRun key cap start [] [] :=
  ⟨h, by simp, List.Pairwise.nil, by simp, by simp⟩

variable (h : SaturatingRun key cap start run rest)
include h

theorem key_of_mem_run {a : α} (ha : a ∈ run) : start ≤ key a ∧ key a ≤ cap := by
  obtain ⟨i, hi⟩ := getElem?_of_mem ha
  have hkey := h.run_key hi
  have hs := h.start_le
  omega

theorem sorted : (run ++ rest).Pairwise fun a b => key a < key b ∨ key b = cap := by
  refine pairwise_append.2 ⟨?_, h.rest_sorted, fun a ha b hb => ?_⟩
  · refine pairwise_iff_getElem.2 fun i j hi hj hij => ?_
    have hkey := h.run_key (getElem?_eq_getElem hi)
    have hkey' := h.run_key (getElem?_eq_getElem hj)
    omega
  · obtain ⟨i, hi⟩ := getElem?_of_mem ha
    have hlt : i < run.length := (List.getElem?_eq_some_iff.1 hi).1
    have hkey := h.run_key hi
    have hge := h.rest_ge b hb
    have hle := h.rest_le b hb
    omega

omit h in
theorem concat {a : α} (h : SaturatingRun key cap start run (a :: rest))
    (ha : key a = min (start + run.length) cap) :
    SaturatingRun key cap start (run ++ [a]) rest := by
  obtain ⟨hf, hr⟩ := pairwise_cons.1 h.rest_sorted
  refine ⟨h.start_le, fun {i b} hb => ?_, hr, fun b hb => ?_, fun b hb => ?_⟩
  · rcases Nat.lt_trichotomy i run.length with hlt | rfl | hgt
    · rw [getElem?_append_left hlt] at hb
      exact h.run_key hb
    · rw [getElem?_concat_length] at hb
      rw [← Option.some.inj hb, ha]
    · have hl : (run ++ [a]).length ≤ i := by
        rw [length_append, length_singleton]
        omega
      rw [getElem?_eq_none hl] at hb
      cases hb
  · have hlr := hf b hb
    rw [length_append, length_singleton]
    omega
  · exact h.rest_le b (mem_cons_of_mem a hb)

theorem filter_run {c : ℕ} (hc : c < cap) :
    run.filter (fun a => c < key a) = run.drop (c + 1 - start) := by
  have hb : (run.take (c + 1 - start)).filter (fun a => c < key a) = [] := by
    refine filter_eq_nil_iff.2 fun a ha => ?_
    obtain ⟨i, hi⟩ := getElem?_of_mem ha
    rw [getElem?_take] at hi
    split at hi
    · next hlt =>
      have hkey := h.run_key hi
      simp only [decide_eq_true_eq]
      omega
    · cases hi
  have haf : (run.drop (c + 1 - start)).filter (fun a => c < key a) =
      run.drop (c + 1 - start) := by
    refine filter_eq_self.2 fun a ha => ?_
    obtain ⟨i, hi⟩ := getElem?_of_mem ha
    rw [getElem?_drop] at hi
    have hkey := h.run_key hi
    simp only [decide_eq_true_eq]
    omega
  conv_lhs => rw [← take_append_drop (c + 1 - start) run]
  rw [filter_append, hb, haf, nil_append]

theorem filter_above (c : ℕ) :
    SaturatingRun key cap (if c ≥ start then min (c + 1) cap else start)
      (run.filter fun a => c < key a) (rest.filter fun a => c < key a) := by
  have hs := h.start_le
  rcases Nat.lt_or_ge c cap with hc | hc
  · rw [h.filter_run hc]
    refine ⟨by split <;> omega, fun {i a} ha => ?_, h.rest_sorted.filter _, fun a ha => ?_,
      fun a ha => h.rest_le a (mem_of_mem_filter ha)⟩
    · rw [getElem?_drop] at ha
      have hkey := h.run_key ha
      split <;> omega
    · obtain ⟨hr, hlt⟩ := mem_filter.1 ha
      have hge := h.rest_ge a hr
      have hlt : c < key a := of_decide_eq_true hlt
      rw [length_drop]
      split <;> omega
  · -- nothing is above the cap
    have hnone : ∀ l : List α, (∀ a ∈ l, key a ≤ cap) → l.filter (fun a => c < key a) = [] := by
      intro l hl
      refine filter_eq_nil_iff.2 fun a ha => ?_
      have hle := hl a ha
      simp only [decide_eq_true_eq]
      omega
    rw [hnone run fun a ha => (h.key_of_mem_run ha).2, hnone rest h.rest_le]
    exact .nil key (by split <;> omega)

end SaturatingRun

namespace SettledRun

variable {rest' : List α}

theorem of_rest (h : SaturatingRun key cap start run rest)
    (hs : rest'.Pairwise fun a b => key a < key b ∨ key b = cap)
    (hgap : ∀ a ∈ rest', start + run.length < key a ∨ key a = cap) (hle : ∀ a ∈ rest', key a ≤ cap)
    : SettledRun key cap start run rest' where
  start_le := h.start_le
  run_key := h.run_key
  rest_sorted := hs
  rest_ge a ha := by
    have hgap := hgap a ha
    omega
  rest_le := hle
  gap := hgap

theorem nil (key : α → ℕ) (h : start ≤ cap) : SettledRun key cap start [] [] :=
  ⟨.nil key h, by simp⟩

variable (h : SettledRun key cap start run rest)
include h

theorem sublist (hsub : rest'.Sublist rest) : SettledRun key cap start run rest' :=
  .of_rest h.toSaturatingRun (h.rest_sorted.sublist hsub) (fun a ha => h.gap a (hsub.subset ha))
    fun a ha => h.rest_le a (hsub.subset ha)

theorem set {i : ℕ} {a : α} (ha : key a = min (start + i) cap) :
    SettledRun key cap start (run.set i a) rest where
  start_le := h.start_le
  run_key {j b} hb := by
    rw [getElem?_set] at hb
    split at hb
    · next heq =>
      split at hb
      · rw [← Option.some.inj hb, ha, heq]
      · cases hb
    · exact h.run_key hb
  rest_sorted := h.rest_sorted
  rest_ge := by simpa using h.rest_ge
  rest_le := h.rest_le
  gap := by simpa using h.gap

theorem cons {a : α} (ha : key a = min (start + run.length) cap) :
    SaturatingRun key cap start run (a :: rest) := by
  refine ⟨h.start_le, h.run_key, pairwise_cons.2 ⟨fun b hb => ?_, h.rest_sorted⟩,
    forall_mem_cons.2 ⟨ha.ge, h.rest_ge⟩, forall_mem_cons.2 ⟨?_, h.rest_le⟩⟩
  · have hgap := h.gap b hb
    omega
  · omega

theorem take {i : ℕ} (hi : i < run.length) (hp : rest'.Perm (rest ++ run.drop (i + 1)))
    (hs : rest'.Pairwise fun a b => key a ≤ key b) :
    SettledRun key cap start (run.take i) rest' := by
  have hl : (run.take i).length = i := length_take_of_le hi.le
  have hrun : SaturatingRun key cap start (run.take i) [] := by
    refine ⟨h.start_le, fun {j a} ha => ?_, List.Pairwise.nil, by simp, by simp⟩
    rw [getElem?_take] at ha
    split at ha
    · exact h.run_key ha
    · cases ha
  have hmem : ∀ a ∈ rest', (start + i < key a ∨ key a = cap) ∧ key a ≤ cap := by
    intro a ha
    rcases mem_append.1 (hp.subset ha) with hr | hdr
    · have hgap := h.gap a hr
      have hle := h.rest_le a hr
      omega
    · obtain ⟨j, hj⟩ := getElem?_of_mem hdr
      rw [getElem?_drop] at hj
      have hkey := h.run_key hj
      omega
  -- below the cap the numbers are distinct, in whatever order
  have hd : rest'.Pairwise fun a b => key a = key b → key a = cap := by
    have hall : (run ++ rest).Pairwise fun a b => key a = key b → key a = cap :=
      h.sorted.imp fun hor heq => by omega
    have hsub : (run.drop (i + 1) ++ rest).Sublist (run ++ rest) :=
      (drop_sublist _ _).append_right rest
    refine ((hp.trans perm_append_comm).pairwise_iff ?_).2 (hall.sublist hsub)
    intro a b hab heq
    rw [← hab heq.symm, heq]
  refine .of_rest hrun ?_ (fun a ha => ?_) fun a ha => (hmem a ha).2
  · refine (hs.and hd).imp fun {a b} hab => ?_
    rcases Nat.lt_or_eq_of_le hab.1 with hlt | heq
    · exact .inl hlt
    · exact .inr (heq ▸ hab.2 heq)
  · rw [hl]
    exact (hmem a ha).1

theorem present_of_lt {n : ℕ} (hs : start ≤ n) (hcap : n ≤ cap) (hlt : n < start + run.length) :
    ∃ a ∈ run, key a = n := by
  have hi : n - start < run.length := by omega
  refine ⟨run[n - start], getElem_mem hi, ?_⟩
  have hkey := h.run_key (getElem?_eq_getElem hi)
  omega

end SettledRun
