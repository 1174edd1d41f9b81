/-
Maps that tabulate a set.

`Tabulates` says that a map holds, under the keys of the records of a set, their values,
and nothing else. As long as the keys differ, `Tabulates.insert` and `Tabulates.eraseAll`
act on the map as on the set.
-/
import Kora.OrderedMap
import Mathlib.Data.Set.Function

open Std

/-- The map has the values of the records in the set under their keys, and no other entries. -/
def Tabulates {ι α β : Type*} {cmp : α → α → Ordering} [TransCmp cmp] (t : ExtTreeMap α β cmp)
    (key : ι → α) (value : ι → β) (records : Set ι) : Prop :=
  ∀ k v, t[k]? = some v ↔ ∃ i ∈ records, key i = k ∧ value i = v

namespace Tabulates

variable {ι α β : Type*} {cmp : α → α → Ordering} [TransCmp cmp] [LawfulEqCmp cmp]
  {t : ExtTreeMap α β cmp} {key : ι → α} {value : ι → β} {records : Set ι}

omit [LawfulEqCmp cmp] in
theorem empty : Tabulates (∅ : ExtTreeMap α β cmp) key value ∅ := by
  intro k v
  simp

omit [LawfulEqCmp cmp] in
theorem getElem? (h : Tabulates t key value records) {i : ι} (hi : i ∈ records) :
    t[key i]? = some (value i) :=
  (h _ _).2 ⟨i, hi, rfl, rfl⟩

theorem insert (h : Tabulates t key value records) {i : ι}
    (hinj : Set.InjOn key (Insert.insert i records)) :
    Tabulates (t.insert (key i) (value i)) key value (Insert.insert i records) := by
  intro k v
  rw [ExtTreeMap.getElem?_insert]
  split
  · next heq =>
    obtain rfl := LawfulEqCmp.compare_eq_iff_eq.1 heq
    rw [Option.some.injEq]
    constructor
    · rintro rfl
      exact ⟨i, Set.mem_insert i records, rfl, rfl⟩
    · rintro ⟨j, hj, hkey, rfl⟩
      rw [hinj hj (Set.mem_insert i records) hkey]
  · next hne =>
    rw [h k v]
    constructor
    · rintro ⟨j, hj, hkey, hv⟩
      exact ⟨j, Set.mem_insert_of_mem i hj, hkey, hv⟩
    · rintro ⟨j, rfl | hj, hkey, hv⟩
      · exact absurd (LawfulEqCmp.compare_eq_iff_eq.2 hkey) hne
      · exact ⟨j, hj, hkey, hv⟩

theorem insertAll (h : Tabulates t key value records) {l : List ι}
    (hinj : Set.InjOn key (records ∪ {i | i ∈ l})) :
    Tabulates (l.foldl (fun acc i => acc.insert (key i) (value i)) t) key value
      (records ∪ {i | i ∈ l}) := by
  induction l generalizing t records with
  | nil => simpa using h
  | cons i l ih =>
    have hset : records ∪ {j | j ∈ i :: l} = Insert.insert i records ∪ {j | j ∈ l} := by
      ext j
      simp only [Set.mem_union, Set.mem_ofPred_eq, List.mem_cons, Set.mem_insert_iff]
      tauto
    rw [hset] at hinj ⊢
    exact ih (h.insert (hinj.mono Set.subset_union_left)) hinj

theorem eraseAll [DecidableEq α] {κ : Type*} (h : Tabulates t key value records) (l : List κ)
    (erased : κ → α) :
    Tabulates (l.foldl (fun acc c => acc.erase (erased c)) t) key value
      {i ∈ records | key i ∉ l.map erased} := by
  intro k v
  rw [OrderedMap.getElem?_foldl_erase]
  split
  · next hmem =>
    refine ⟨nofun, ?_⟩
    rintro ⟨i, ⟨-, hnot⟩, rfl, -⟩
    exact absurd hmem hnot
  · next hnot =>
    rw [h k v]
    constructor
    · rintro ⟨i, hi, rfl, hv⟩
      exact ⟨i, ⟨hi, hnot⟩, rfl, hv⟩
    · rintro ⟨i, ⟨hi, -⟩, hkey, hv⟩
      exact ⟨i, hi, hkey, hv⟩

theorem nodup_values {key : β → α} {records : Set β} (h : Tabulates t key id records) :
    t.values.Nodup := by
  rw [OrderedMap.values_eq_map_toList, List.Nodup, List.pairwise_map]
  refine t.ordered_keys_toList.imp_of_mem fun {e e'} he he' hlt heq => ?_
  obtain ⟨i, -, hkey, hi⟩ := (h e.1 e.2).1 (ExtTreeMap.mem_toList_iff_getElem?_eq_some.1 he)
  obtain ⟨i', -, hkey', hi'⟩ := (h e'.1 e'.2).1 (ExtTreeMap.mem_toList_iff_getElem?_eq_some.1 he')
  obtain rfl : i = i' := hi.trans (heq.trans hi'.symm)
  have hself : cmp e.1 e.1 = .eq := ReflCmp.compare_self
  rw [← hkey', hkey, hself] at hlt
  cases hlt

end Tabulates
