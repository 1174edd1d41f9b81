/-
A key-value store with batched writes.

A store is seen only through its lookups; a write sets or deletes one key, and a batch is
its writes in order.

* `writeBatch_of_notMem`, `writeBatch_of_mem` — which keys a batch can move;
* `writeBatch_flatMap` — a batch assembled from pieces.
-/
import Mathlib.Data.List.Induction
import Mathlib.Logic.Function.Basic
import Mathlib.Tactic.Common

/-- A key-value store, as the lookups it answers. -/
abbrev KeyValueStore (K V : Type*) := K → Option V

namespace KeyValueStore

variable {K V ι : Type*} [DecidableEq K]

/-- One write of a batch: `some v` sets the key, `none` deletes it. -/
def write (p : KeyValueStore K V) (op : K × Option V) : KeyValueStore K V :=
  Function.update p op.1 op.2

/-- A batch of writes, first to last. -/
def writeBatch (p : KeyValueStore K V) (ops : List (K × Option V)) : KeyValueStore K V :=
  ops.foldl write p

@[simp] theorem write_self (p : KeyValueStore K V) (k : K) (v : Option V) :
    p.write (k, v) k = v := by
  rw [write, Function.update_self]

variable {k : K}

theorem write_of_ne (p : KeyValueStore K V) {op : K × Option V} (h : op.1 ≠ k) :
    p.write op k = p k := by
  rw [write, Function.update_of_ne h.symm]

theorem writeBatch_concat (p : KeyValueStore K V) (ops : List (K × Option V)) (op : K × Option V) :
    p.writeBatch (ops ++ [op]) = (p.writeBatch ops).write op := by
  rw [writeBatch, List.foldl_append]
  rfl

theorem writeBatch_of_notMem (p : KeyValueStore K V) (ops : List (K × Option V))
    (h : ∀ op ∈ ops, op.1 ≠ k) : p.writeBatch ops k = p k := by
  induction ops generalizing p with
  | nil => rfl
  | cons op ops ih =>
    rw [writeBatch, List.foldl_cons]
    rw [← writeBatch, ih (p.write op) (fun o ho => h o (List.mem_cons_of_mem op ho))]
    exact write_of_ne p (h op List.mem_cons_self)

theorem writeBatch_congr {p p' : KeyValueStore K V} (h : p k = p' k) (ops : List (K × Option V)) :
    p.writeBatch ops k = p'.writeBatch ops k := by
  induction ops generalizing p p' with
  | nil => exact h
  | cons op ops ih =>
    refine ih ?_
    by_cases hkey : op.1 = k
    · rw [← hkey, write, write, Function.update_self, Function.update_self]
    · rw [write_of_ne p hkey, write_of_ne p' hkey, h]

theorem writeBatch_of_mem (p : KeyValueStore K V) {ops : List (K × Option V)}
    (h : ∃ op ∈ ops, op.1 = k) : ∃ op ∈ ops, op.1 = k ∧ p.writeBatch ops k = op.2 := by
  induction ops using List.reverseRecOn with
  | nil =>
    obtain ⟨op, hop, -⟩ := h
    cases hop
  | append_singleton ops last ih =>
    rw [writeBatch_concat]
    by_cases hl : last.1 = k
    · refine ⟨last, List.mem_append_right _ List.mem_cons_self, hl, ?_⟩
      rw [← hl]
      exact write_self _ _ _
    · obtain ⟨op, hop, hkey⟩ := h
      have hmem : op ∈ ops := by
        rcases List.mem_append.1 hop with hmem | hmem
        · exact hmem
        · exact absurd (List.mem_singleton.1 hmem ▸ hkey) hl
      obtain ⟨op', hop', hkey', hval⟩ := ih ⟨op, hmem, hkey⟩
      exact ⟨op', List.mem_append_left _ hop', hkey', (write_of_ne _ hl).trans hval⟩

theorem writeBatch_map (p : KeyValueStore K V) (l : List ι) (op : ι → K × Option V) :
    p.writeBatch (l.map op) = l.foldl (fun q i => q.write (op i)) p := by
  rw [writeBatch, List.foldl_map]

theorem writeBatch_flatMap (p : KeyValueStore K V) (l : List ι) (ops : ι → List (K × Option V)) :
    p.writeBatch (l.flatMap ops) = l.foldl (fun q i => q.writeBatch (ops i)) p := by
  rw [writeBatch, List.foldl_flatMap]
  rfl

end KeyValueStore
