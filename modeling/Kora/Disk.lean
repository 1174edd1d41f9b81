/-
Directories and crashes.

A program changes a directory in small steps: a file is removed, emptied, or gets one more
element. A crash stops it after any number of steps (`crash`), so that a file that was
being written is left with the first part of its content (`crash_write`).
-/
import Mathlib.Data.Nat.Notation
import Mathlib.Logic.Function.Basic

open Function

namespace Disk

variable {Name α : Type}

/-- The content of each file that exists. -/
abbrev Directory (Name α : Type) := Name → Option (List α)

inductive Step (Name α : Type) where
  | remove (name : Name)
  /-- Create the file, or empty it. -/
  | truncate (name : Name)
  | append (name : Name) (a : α)

def write (name : Name) (content : List α) : List (Step Name α) :=
  .truncate name :: content.map (.append name)

@[simp] theorem length_write (name : Name) (content : List α) :
    (write name content).length = content.length + 1 := by
  rw [write, List.length_cons, List.length_map]

variable [DecidableEq Name]

def Step.run (d : Directory Name α) : Step Name α → Directory Name α
  | .remove name => Function.update d name none
  | .truncate name => Function.update d name (some [])
  | .append name a => Function.update d name (some ((d name).getD [] ++ [a]))

def run (d : Directory Name α) (program : List (Step Name α)) : Directory Name α :=
  program.foldl Step.run d

def crash (program : List (Step Name α)) (i : ℕ) (d : Directory Name α) : Directory Name α :=
  run d (program.take i)

variable {p q : List (Step Name α)} {i : ℕ}

theorem crash_append_of_le (h : i ≤ p.length) (d : Directory Name α) :
    crash (p ++ q) i d = crash p i d := by
  rw [crash, List.take_append_of_le_length h]
  rfl

theorem crash_append (p q : List (Step Name α)) (i : ℕ) (d : Directory Name α) :
    crash (p ++ q) (p.length + i) d = crash q i (run d p) := by
  rw [crash, List.take_length_add_append, run, List.foldl_append]
  rfl

theorem run_map_append (d : Directory Name α) (name : Name) (l content : List α) :
    run (update d name (some l)) (content.map (.append name)) =
      update d name (some (l ++ content)) := by
  induction content generalizing l with
  | nil => rw [List.append_nil]; rfl
  | cons a content ih =>
    show run (update (update d name (some l)) name
      (some ((update d name (some l) name).getD [] ++ [a]))) _ = _
    rw [update_idem, update_self, Option.getD_some, ih, List.append_assoc]
    rfl

theorem crash_write (name : Name) (content : List α) (k : ℕ) (d : Directory Name α) :
    crash (write name content) (k + 1) d =
      update d name (some (content.take k)) := by
  rw [crash, write, List.take_succ_cons, ← List.map_take]
  exact run_map_append d name [] (content.take k)

theorem run_write (name : Name) (content : List α) (d : Directory Name α) :
    run d (write name content) = update d name (some content) :=
  run_map_append d name [] content

end Disk
