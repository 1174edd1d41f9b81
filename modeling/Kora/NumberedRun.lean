/-
A run of consecutive numbers and what waits beyond it.

Items are kept in a run, whose numbers count up from `start`, and an increasing rest,
which waits for the numbers that are missing. The run is maximal when the rest does not
continue it.

* `NumberedRun.eq_of_key_eq` — there is one item for each number;
* `MaximalRun.unique` — the items and the start determine run and rest;
* `MaximalRun.settledRun`, `SettledRun.maximalRun` — below a cap it is the saturating run.
-/
import Kora.SaturatingRun

open List

variable {α : Type*} {key : α → ℕ} {start : ℕ} {run rest : List α}

/-- The numbers of `run` count up from `start`; those of `rest` increase from the run's end on. -/
structure NumberedRun (key : α → ℕ) (start : ℕ) (run rest : List α) : Prop where
  run_keys : run.map key = List.range' start run.length
  rest_sorted : rest.Pairwise fun a b => key a < key b
  rest_ge : ∀ a ∈ rest, start + run.length ≤ key a

/-- The rest leaves a gap after the run. -/
structure MaximalRun (key : α → ℕ) (start : ℕ) (run rest : List α) : Prop
    extends NumberedRun key start run rest where
  gap : ∀ a ∈ rest, key a ≠ start + run.length

namespace NumberedRun

theorem nil (key : α → ℕ) (start : ℕ) : NumberedRun key start [] [] :=
  ⟨rfl, List.Pairwise.nil, by simp⟩

variable {a : α}

section

variable (h : NumberedRun key start run rest)
include h

theorem key_of_mem_run (ha : a ∈ run) : start ≤ key a ∧ key a < start + run.length := by
  have hmem : key a ∈ run.map key := mem_map_of_mem ha
  rwa [h.run_keys, mem_range'_1] at hmem

theorem key_of_getElem? {i : ℕ} (ha : run[i]? = some a) : key a = start + i := by
  have hlt : i < run.length := (List.getElem?_eq_some_iff.1 ha).1
  have hkey : (run.map key)[i]? = some (key a) := by rw [getElem?_map, ha]; rfl
  rw [h.run_keys, getElem?_range' hlt, Nat.one_mul] at hkey
  exact (Option.some.inj hkey).symm

theorem sorted : (run ++ rest).Pairwise fun a b => key a < key b := by
  have hrun : (run.map key).Pairwise (· < ·) := by
    rw [h.run_keys]
    exact pairwise_lt_range'
  refine pairwise_append.2 ⟨pairwise_map.1 hrun, h.rest_sorted, fun a ha b hb => ?_⟩
  exact (h.key_of_mem_run ha).2.trans_le (h.rest_ge b hb)

theorem nodup : ((run ++ rest).map key).Nodup :=
  pairwise_map.2 (h.sorted.imp fun hlt => hlt.ne)

theorem eq_of_key_eq {b : α} (ha : a ∈ run ++ rest) (hb : b ∈ run ++ rest) (hkey : key a = key b) :
    a = b :=
  inj_on_of_nodup_map h.nodup ha hb hkey

theorem start_le_key (ha : a ∈ run ++ rest) : start ≤ key a := by
  rcases mem_append.1 ha with hrun | hr
  · exact (h.key_of_mem_run hrun).1
  · exact (Nat.le_add_right _ _).trans (h.rest_ge a hr)

end

theorem concat (h : NumberedRun key start run (a :: rest)) (ha : key a = start + run.length) :
    NumberedRun key start (run ++ [a]) rest := by
  obtain ⟨hf, hr⟩ := pairwise_cons.1 h.rest_sorted
  refine ⟨?_, hr, fun b hb => ?_⟩
  · rw [map_append, h.run_keys, length_append, length_singleton, range'_1_concat, map_singleton, ha]
  · have hlt := hf b hb
    rw [length_append, length_singleton]
    omega

end NumberedRun

namespace MaximalRun

theorem rest_gt (h : MaximalRun key start run rest) {a : α} (ha : a ∈ rest) :
    start + run.length < key a :=
  lt_of_le_of_ne (h.rest_ge a ha) (h.gap a ha).symm

variable {rest' : List α}

theorem of_rest (h : NumberedRun key start run rest)
    (hs : rest'.Pairwise fun a b => key a < key b)
    (hgt : ∀ a ∈ rest', start + run.length < key a) : MaximalRun key start run rest' where
  run_keys := h.run_keys
  rest_sorted := hs
  rest_ge a ha := (hgt a ha).le
  gap a ha := (hgt a ha).ne'

variable (h : MaximalRun key start run rest)
include h

theorem cons {a : α} (ha : key a = start + run.length) : NumberedRun key start run (a :: rest) := by
  refine ⟨h.run_keys, pairwise_cons.2 ⟨fun b hb => ?_, h.rest_sorted⟩,
    forall_mem_cons.2 ⟨ha.ge, h.rest_ge⟩⟩
  exact ha ▸ h.rest_gt hb

theorem set {i : ℕ} {a : α} (ha : key a = start + i) : MaximalRun key start (run.set i a) rest := by
  have hk : (run.set i a).map key = run.map key := by
    rw [map_set, ha]
    refine ext_getElem? fun j => ?_
    rw [getElem?_set]
    split
    · next hij =>
      subst hij
      rw [length_map]
      split
      · next hlt => rw [h.run_keys, getElem?_range' hlt, Nat.one_mul]
      · next hge => rw [getElem?_eq_none (by simpa using hge)]
    · rfl
  constructor
  · constructor
    · rw [hk, length_set]
      exact h.run_keys
    · exact h.rest_sorted
    · simpa using h.rest_ge
  · simpa using h.gap

theorem length_le {run' : List α} (h' : MaximalRun key start run' rest')
    (heq : run ++ rest = run' ++ rest') : run'.length ≤ run.length := by
  by_contra hlt
  have hlt : run.length < run'.length := Nat.not_le.1 hlt
  -- the item after the shorter run continues it
  have hget : (run' ++ rest')[run.length]? = some (run'[run.length]) := by
    rw [getElem?_append_left hlt, getElem?_eq_getElem hlt]
  rw [← heq, getElem?_append_right le_rfl] at hget
  exact h.gap _ (mem_of_getElem? hget)
    (h'.key_of_getElem? (getElem?_eq_getElem hlt))

theorem unique {run' : List α} (h' : MaximalRun key start run' rest')
    (hmem : ∀ a, a ∈ run ++ rest ↔ a ∈ run' ++ rest') : run = run' ∧ rest = rest' := by
  have hp : (run ++ rest).Perm (run' ++ rest') :=
    (perm_ext_iff_of_nodup (.of_map _ h.nodup) (.of_map _ h'.nodup)).2 hmem
  have heq : run ++ rest = run' ++ rest' :=
    hp.eq_of_pairwise (fun a b _ _ hab hba => absurd hba (Nat.lt_asymm hab)) h.sorted h'.sorted
  exact append_inj heq (Nat.le_antisymm (h'.length_le h heq.symm) (h.length_le h' heq))

theorem settledRun {cap : ℕ} (hs : start ≤ cap) (hle : ∀ a ∈ run ++ rest, key a ≤ cap) :
    SettledRun key cap start run rest := by
  refine ⟨⟨hs, fun {i a} ha => ?_, h.rest_sorted.imp .inl, fun a ha => ?_, fun a ha => ?_⟩,
    fun a ha => .inl (h.rest_gt ha)⟩
  · have hkey := h.key_of_getElem? ha
    have hmax := hle a (mem_append_left _ (mem_of_getElem? ha))
    omega
  · exact (Nat.min_le_left _ _).trans (h.rest_ge a ha)
  · exact hle a (mem_append_right _ ha)

end MaximalRun

theorem SettledRun.maximalRun {cap : ℕ} (h : SettledRun key cap start run rest)
    (hlt : ∀ a ∈ run ++ rest, key a < cap) : MaximalRun key start run rest := by
  have hr : ∀ a ∈ rest, start + run.length < key a := fun a ha =>
    (h.gap a ha).resolve_right (hlt a (mem_append_right _ ha)).ne
  refine .of_rest ⟨ext_getElem? fun i => ?_, List.Pairwise.nil, by simp⟩ ?_ hr
  · rw [getElem?_map]
    cases hget : run[i]? with
    | none => rw [getElem?_eq_none (by simpa using hget), Option.map_none]
    | some a =>
      have hkey := h.run_key hget
      have hmax := hlt a (mem_append_left _ (mem_of_getElem? hget))
      rw [Option.map_some, getElem?_range' (List.getElem?_eq_some_iff.1 hget).1]
      congr 1
      omega
  · exact h.rest_sorted.imp_of_mem fun _ hb hor =>
      hor.resolve_right (hlt _ (mem_append_right _ hb)).ne
