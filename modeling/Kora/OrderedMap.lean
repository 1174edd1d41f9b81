/-
Walking an ordered map.

When the part of the state one looks at is moved only by the entry of one key, the order
of a walk does not matter, because the keys of a map are distinct.

* `walk_at` — such a part ends where the entry of its key, if there is one, takes it;
* `getElem?_combine` — a walk that folds one map into another, key by key;
* `getElem?_gather`, `getElem?_foldl_erase` — maps filled and thinned out along a list of
  keys;
* `getElem?_foldl_insert` — of the values under a key the last one stays.
-/
import Mathlib.Tactic.Common
import Mathlib.Tactic.Linarith.Frontend
import Mathlib.Data.List.Perm.Subperm

open Std List ExtTreeMap

namespace OrderedMap

variable {α β γ : Type*} {cmp : α → α → Ordering} [TransCmp cmp]

/-! ### The walk rule -/

section Walk

variable {σ δ : Type*} {step : σ → α × β → σ} {look : σ → δ} {k : α}

theorem foldl_frame (hf : ∀ s e, e.1 ≠ k → look (step s e) = look s) (l : List (α × β))
    (hl : ∀ e ∈ l, e.1 ≠ k) (s : σ) : look (l.foldl step s) = look s := by
  induction l generalizing s with
  | nil => rfl
  | cons e l ih =>
    rw [foldl_cons, ih (fun e' he' => hl e' (mem_cons_of_mem e he'))]
    exact hf s e (hl e mem_cons_self)

variable [LawfulEqCmp cmp]

theorem toList_split {t : ExtTreeMap α β cmp} {v : β} (h : t[k]? = some v) :
    ∃ l₁ l₂, t.toList = l₁ ++ (k, v) :: l₂ ∧ (∀ e ∈ l₁, e.1 ≠ k) ∧ ∀ e ∈ l₂, e.1 ≠ k := by
  obtain ⟨l₁, l₂, hs⟩ := List.append_of_mem (mem_toList_iff_getElem?_eq_some.mpr h)
  have hk := t.distinct_keys_toList
  rw [hs, pairwise_append, pairwise_cons] at hk
  obtain ⟨-, ⟨ha, -⟩, hb⟩ := hk
  refine ⟨l₁, l₂, hs, fun e he heq => ?_, fun e he heq => ?_⟩
  · exact hb e he (k, v) mem_cons_self (LawfulEqCmp.compare_eq_iff_eq.mpr heq)
  · exact ha e he (LawfulEqCmp.compare_eq_iff_eq.mpr heq.symm)

/-- **The walk rule.** If only the entry of `k` moves what `look` sees, by `upd`, then after the
whole walk `look` sees one such move, or none without an entry. -/
theorem walk_at (look : σ → δ) (upd : δ → β → δ)
    (hf : ∀ s e, e.1 ≠ k → look (step s e) = look s)
    (hst : ∀ s v, look (step s (k, v)) = upd (look s) v) (t : ExtTreeMap α β cmp) (s : σ) :
    look (t.toList.foldl step s) = (t[k]?).elim (look s) (upd (look s)) := by
  cases h : t[k]? with
  | none =>
    refine foldl_frame hf t.toList (fun e he heq => ?_) s
    have hsome : t[e.1]? = some e.2 := mem_toList_iff_getElem?_eq_some.mp he
    rw [heq, h] at hsome
    exact absurd hsome (by simp)
  | some v =>
    obtain ⟨l₁, l₂, hs, h₁, h₂⟩ := toList_split h
    rw [hs, foldl_append, foldl_cons, foldl_frame hf l₂ h₂, hst, foldl_frame hf l₁ h₁]
    rfl

end Walk

/-! ### Folding one map into another -/

/-- Walk `u` in key order and replace, in `t`, the entry of each key by
`f (old entry) (walked entry)`. -/
def combine (f : Option β → γ → β) (t : ExtTreeMap α β cmp) (u : ExtTreeMap α γ cmp) :
    ExtTreeMap α β cmp :=
  u.toList.foldl (fun acc e => acc.insert e.1 (f acc[e.1]? e.2)) t

variable [LawfulEqCmp cmp]

@[simp] theorem getElem?_combine (f : Option β → γ → β) (t : ExtTreeMap α β cmp)
    (u : ExtTreeMap α γ cmp) (k : α) :
    (combine f t u)[k]? = (u[k]?).elim t[k]? (fun v => some (f t[k]? v)) := by
  refine walk_at (fun m : ExtTreeMap α β cmp => m[k]?) (fun o v => some (f o v)) ?_ ?_ u t
  · intro acc e hne
    rw [ExtTreeMap.getElem?_insert, if_neg]
    exact fun h => hne (LawfulEqCmp.compare_eq_iff_eq.mp h)
  · intro acc v
    exact getElem?_insert_self

/-! ### Filling and thinning out along a list of keys -/

/-- Insert the entry that `f` has for each key of a list. -/
def gather (f : α → Option β) (l : List α) (t : ExtTreeMap α β cmp) : ExtTreeMap α β cmp :=
  l.foldl (fun acc k => match f k with
    | some v => acc.insert k v
    | none => acc) t

theorem getElem?_gather [DecidableEq α] (f : α → Option β) (l : List α) (t : ExtTreeMap α β cmp)
    (k : α) : (gather f l t)[k]? = if k ∈ l then (f k).or t[k]? else t[k]? := by
  induction l generalizing t with
  | nil => simp [gather]
  | cons a l ih =>
    rw [gather, foldl_cons, ← gather, ih]
    cases hf : f a with
    | none =>
      by_cases hak : k = a
      · simp [hak, hf]
      · simp [hak]
    | some v =>
      simp only [ExtTreeMap.getElem?_insert, LawfulEqCmp.compare_eq_iff_eq]
      by_cases hak : k = a
      · simp [hak, hf]
      · simp [hak, Ne.symm hak]

omit [LawfulEqCmp cmp] in
theorem size_gather_le (f : α → Option β) (l : List α) (t : ExtTreeMap α β cmp) :
    (gather f l t).size ≤ t.size + l.length := by
  induction l generalizing t with
  | nil => simp [gather]
  | cons a l ih =>
    rw [gather, foldl_cons, ← gather]
    cases f a with
    | none =>
      have h := ih t
      rw [length_cons]
      dsimp only
      omega
    | some v =>
      have h := ih (t.insert a v)
      have hi : (t.insert a v).size ≤ t.size + 1 := size_insert_le
      rw [length_cons]
      dsimp only
      omega

theorem getElem?_foldl_erase [DecidableEq α] {ι : Type*} (key : ι → α) (l : List ι)
    (t : ExtTreeMap α β cmp) (k : α) :
    (l.foldl (fun acc i => acc.erase (key i)) t)[k]? = if k ∈ l.map key then none else t[k]? := by
  induction l generalizing t with
  | nil => simp
  | cons i l ih =>
    rw [foldl_cons, ih]
    simp only [getElem?_erase, LawfulEqCmp.compare_eq_iff_eq]
    by_cases hik : key i = k
    · simp [hik]
    · simp [hik, Ne.symm hik]

theorem insert_of_getElem? {t : ExtTreeMap α β cmp} {k : α} {v : β} (h : t[k]? = some v) :
    t.insert k v = t := by
  refine ext_getElem? fun k' => ?_
  rw [ExtTreeMap.getElem?_insert]
  split
  · next heq => rw [← LawfulEqCmp.compare_eq_iff_eq.1 heq, h]
  · rfl

/-- The last value of a list under a key. -/
def lastOf [DecidableEq α] (key : β → α) (l : List β) (k : α) : Option β :=
  l.reverse.find? fun i => key i = k

theorem lastOf_eq_some [DecidableEq α] {key : β → α} {l : List β} {k : α} {i : β}
    (h : lastOf key l k = some i) : i ∈ l ∧ key i = k := by
  rw [lastOf] at h
  exact ⟨mem_reverse.1 (mem_of_find?_eq_some h), by simpa using find?_some h⟩

theorem getElem?_foldl_insert [DecidableEq α] (key : β → α) (l : List β) (t : ExtTreeMap α β cmp)
    (k : α) :
    (l.foldl (fun acc i => acc.insert (key i) i) t)[k]? = (lastOf key l k).or t[k]? := by
  induction l generalizing t with
  | nil => rfl
  | cons i l ih =>
    rw [foldl_cons, ih, lastOf, lastOf, reverse_cons, find?_append, Option.or_assoc,
      ExtTreeMap.getElem?_insert]
    simp only [LawfulEqCmp.compare_eq_iff_eq]
    by_cases hik : key i = k
    · simp [hik]
    · simp [hik]

theorem foldl_insert_of_lastOf [DecidableEq α] (key : β → α) {l : List β}
    {t : ExtTreeMap α β cmp} (h : ∀ i ∈ l, t[key i]? = lastOf key l (key i)) :
    l.foldl (fun acc i => acc.insert (key i) i) t = t := by
  refine ext_getElem? fun k => ?_
  rw [getElem?_foldl_insert]
  cases hk : lastOf key l k with
  | none => rfl
  | some i =>
    obtain ⟨hi, rfl⟩ := lastOf_eq_some hk
    rw [h i hi, hk, Option.some_or]

/-! ### The entries, the values and the size -/

omit [LawfulEqCmp cmp] in
theorem nodup_of_ordered {l : List (α × β)} (hl : l.Pairwise fun e e' => cmp e.1 e'.1 = .lt) :
    l.Nodup := by
  refine hl.imp fun {e e'} hlt heq => ?_
  have hself : cmp e'.1 e'.1 = .eq := ReflCmp.compare_self
  rw [heq, hself] at hlt
  cases hlt

variable {t : ExtTreeMap α β cmp}

theorem toList_eq_of_ordered {l : List (α × β)} (hl : l.Pairwise fun e e' => cmp e.1 e'.1 = .lt)
    (hmem : ∀ k v, (k, v) ∈ l ↔ t[k]? = some v) : t.toList = l := by
  refine List.Perm.eq_of_pairwise ?_ t.ordered_keys_toList hl ?_
  · intro e e' _ _ hlt hlt'
    rw [OrientedCmp.gt_of_lt hlt] at hlt'
    cases hlt'
  · refine (perm_ext_iff_of_nodup (nodup_of_ordered t.ordered_keys_toList)
      (nodup_of_ordered hl)).2 fun e => ?_
    rw [hmem e.1 e.2]
    exact mem_toList_iff_getElem?_eq_some

omit [LawfulEqCmp cmp] in
theorem values_eq_map_toList (t : ExtTreeMap α β cmp) : t.values = t.toList.map Prod.snd := by
  rcases t with ⟨t⟩
  induction t using ExtDTreeMap.inductionOn with
  | _ m =>
    show m.inner.values = (DTreeMap.Internal.Impl.Const.toList m.inner).map Prod.snd
    rw [DTreeMap.Internal.Impl.values_eq_map_snd,
      DTreeMap.Internal.Impl.Const.toList_eq_toListModel_map, List.map_map]
    rfl

theorem mem_values {v : β} : v ∈ t.values ↔ ∃ k : α, t[k]? = some v := by
  rw [values_eq_map_toList, List.mem_map]
  constructor
  · rintro ⟨e, he, rfl⟩
    exact ⟨e.1, mem_toList_iff_getElem?_eq_some.1 he⟩
  · rintro ⟨k, hk⟩
    exact ⟨(k, v), mem_toList_iff_getElem?_eq_some.2 hk, rfl⟩

theorem values_of_single {a : α} {b : β} (h : ∀ k v, t[k]? = some v ↔ k = a ∧ v = b) :
    t.values = [b] := by
  have hl : t.toList = [(a, b)] := by
    refine toList_eq_of_ordered (pairwise_singleton _ _) fun k v => ?_
    rw [h, mem_singleton, Prod.mk.injEq]
  rw [values_eq_map_toList, hl]
  rfl

theorem getElem?_insert_eq_none {a k : α} {b : β} :
    (t.insert a b)[k]? = none ↔ t[k]? = none ∧ a ≠ k := by
  rw [ExtTreeMap.getElem?_insert]
  split_ifs with h
  · simp [LawfulEqCmp.compare_eq_iff_eq.1 h]
  · exact (and_iff_left fun heq => h (LawfulEqCmp.compare_eq_iff_eq.2 heq)).symm

theorem length_le_size {l : List α} (hl : l.Nodup) (hmem : ∀ k ∈ l, k ∈ t) : l.length ≤ t.size := by
  rw [← length_keys]
  exact (hl.subperm fun k hk => ExtTreeMap.mem_keys.2 (hmem k hk)).length_le

theorem size_le_length {l : List α} (hmem : ∀ k ∈ t, k ∈ l) : t.size ≤ l.length := by
  rw [← length_keys]
  exact (subperm_of_subset t.nodup_keys fun k hk => hmem k (ExtTreeMap.mem_keys.1 hk)).length_le

theorem getElem?_insert_of_notMem {a k : α} {b v : β} (ha : a ∉ t) (hk : t[k]? = some v) :
    (t.insert a b)[k]? = some v := by
  rw [ExtTreeMap.getElem?_insert, if_neg, hk]
  intro heq
  rw [LawfulEqCmp.compare_eq_iff_eq.1 heq] at ha
  exact ha (mem_iff_isSome_getElem?.2 (by rw [hk]; rfl))

end OrderedMap
