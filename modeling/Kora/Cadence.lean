/-
Checkpoint cadence (`changes_for_persist` with `commit_changes`).

Nodes with different checkpoint intervals cut the same chain into different groups, each
of which is folded into one change set and committed. Seen from one address, the question
is for each slot which generation the account ends up with, and what this generation
holds.

* `storedUnder`, `generationAfter`, `Brings` — what a group does, told by its flags and
  writes;
* `exists_current` — a cut that lays open what the last generation holds;
* `cadence_independent` — all cuts agree at an address exactly if it is `CadenceSafe`.
-/
import Kora.Lifetimes

open Std List

namespace Kora

open QmdbStore ChangeSet

/-- Commit the groups of a chain, each folded into one change set. -/
def QmdbStore.commitGroups (q : QmdbStore) (groups : List (List ChangeSet)) : QmdbStore :=
  q.commitAll (groups.map mergeAll)

/-! ### One group -/

variable {us vs : List AccountUpdate} {u : AccountUpdate} {slot v : U256}

theorem absorbAll_eq_none_iff : absorbAll us = none ↔ us = [] := by
  induction us using List.reverseRecOn with
  | nil => simp [absorbAll]
  | append_singleton us u _ => simp [absorbAll_concat]

theorem absorbAll_last {u w : AccountUpdate} (h : absorbAll (us ++ [u]) = some w) :
    w.nonce = u.nonce ∧ w.balance = u.balance ∧ w.codeHash = u.codeHash ∧
      w.selfdestructed = u.selfdestructed := by
  rw [absorbAll_concat, Option.some_inj] at h
  subst h
  cases absorbAll us <;> simp [absorb]

theorem absorbAll_alive {w : AccountUpdate} (h : absorbAll us = some w)
    (hus : ∀ u ∈ us, u.selfdestructed = false) : w.selfdestructed = false := by
  rcases eq_nil_or_concat us with rfl | ⟨us, u, rfl⟩
  · cases h
  · rw [concat_eq_append] at h hus
    rw [(absorbAll_last h).2.2.2, hus u (by simp)]

theorem absorbAll_created {w : AccountUpdate} (h : absorbAll us = some w) :
    w.created = us.any (·.created) := by
  induction us using List.reverseRecOn generalizing w with
  | nil => simp [absorbAll] at h
  | append_singleton us u ih =>
    rw [absorbAll_concat, Option.some_inj] at h
    subst h
    cases he : absorbAll us with
    | none => simp [absorb, absorbAll_eq_none_iff.1 he]
    | some e => simp [absorb, ih he, Bool.or_comm]

/-- The update does nothing to the slot. -/
def AccountUpdate.Spares (u : AccountUpdate) (slot : U256) : Prop :=
  u.created = false ∧ u.selfdestructed = false ∧ u.storage[slot]? = none

/-- A group brings a value to a slot: one update writes it and those after it do nothing to the
slot. What a selfdestruct writes counts only if it is the first. -/
def Brings (us : List AccountUpdate) (slot v : U256) : Prop :=
  ∃ before u after, us = before ++ u :: after ∧ u.storage[slot]? = some v ∧
    (before = [] ∨ u.selfdestructed = false) ∧ ∀ w ∈ after, w.Spares slot

theorem brings_concat : Brings (us ++ [u]) slot v ↔
    u.storage[slot]? = some v ∧ (us = [] ∨ u.selfdestructed = false) ∨
      u.Spares slot ∧ Brings us slot v := by
  constructor
  · rintro ⟨before, w, after, heq, hw, hd, ha⟩
    rcases eq_nil_or_concat after with rfl | ⟨after, x, rfl⟩
    · obtain ⟨rfl, hu⟩ := append_inj' heq rfl
      obtain rfl := List.singleton_inj.1 hu
      exact .inl ⟨hw, hd⟩
    · rw [concat_eq_append, ← cons_append, ← append_assoc] at heq
      rw [concat_eq_append] at ha
      obtain ⟨rfl, hu⟩ := append_inj' heq rfl
      obtain rfl := List.singleton_inj.1 hu
      exact .inr ⟨ha u (by simp), before, w, after, rfl, hw, hd,
        fun y hy => ha y (mem_append_left _ hy)⟩
  · rintro (⟨hw, hd⟩ | ⟨hs, before, w, after, rfl, hw, hd, ha⟩)
    · exact ⟨us, u, [], rfl, hw, hd, by simp⟩
    · refine ⟨before, w, after ++ [u], by simp, hw, hd, fun y hy => ?_⟩
      rcases mem_append.1 hy with hy | hy
      · exact ha y hy
      · exact mem_singleton.1 hy ▸ hs

/-- **The slots of a merged group.** -/
theorem absorbAll_storage {w : AccountUpdate} (h : absorbAll us = some w) :
    w.storage[slot]? = some v ↔ Brings us slot v := by
  induction us using List.reverseRecOn generalizing w with
  | nil => simp [absorbAll] at h
  | append_singleton us u ih =>
    rw [absorbAll_concat, Option.some_inj] at h
    subst h
    rw [brings_concat]
    cases he : absorbAll us with
    | none =>
      obtain rfl := absorbAll_eq_none_iff.1 he
      simp [absorb, Brings]
    | some e =>
      have hne : us ≠ [] := fun hnil => by simp [hnil, absorbAll] at he
      rw [absorb, AccountUpdate.getElem?_merge_storage, ← ih he, AccountUpdate.Spares]
      cases u.selfdestructed <;> cases u.storage[slot]? <;> cases u.created <;> simp [hne]

/-! ### Generations, told by the flags -/

/-- The generation under which a group stores its slots. -/
def storedUnder (g : U64) (us : List AccountUpdate) : U64 :=
  if us.any (·.created) then g.saturatingAdd 1 else g

/-- The group ends with a selfdestruct. -/
def destroys (us : List AccountUpdate) : Bool := us.getLast?.any (·.selfdestructed)

/-- The generation after a group: a selfdestruct at its end deletes the record. -/
def generationAfter (g : U64) (us : List AccountUpdate) : U64 :=
  if destroys us then 0 else storedUnder g us

theorem generationAfter_of_plain (h : ∀ u ∈ us, u.created = false ∧ u.selfdestructed = false)
    (g : U64) (vs : List AccountUpdate) : storedUnder g (us ++ vs) = storedUnder g vs ∧
      generationAfter g (us ++ vs) = generationAfter g vs := by
  have hno : us.any (·.created) = false := by simpa using fun u hu => (h u hu).1
  have hs : storedUnder g (us ++ vs) = storedUnder g vs := by
    rw [storedUnder, storedUnder, any_append, hno, Bool.false_or]
  refine ⟨hs, ?_⟩
  rw [generationAfter, generationAfter, hs, destroys, destroys, getLast?_append]
  cases hv : vs.getLast? with
  | some u => rw [Option.some_or]
  | none =>
    rw [Option.none_or, if_neg, Option.any_none, if_neg Bool.false_ne_true]
    cases hl : us.getLast? with
    | none => simp
    | some u => simp [(h u (mem_of_getLast? hl)).2]

theorem storedUnder_of_spares (h : ∀ u ∈ us, u.Spares slot) (g : U64) :
    storedUnder g us = g ∧ generationAfter g us = g := by
  have hs := generationAfter_of_plain (fun u hu => ⟨(h u hu).1, (h u hu).2.1⟩) g []
  rwa [append_nil] at hs

theorem not_brings_of_spares (h : ∀ u ∈ us, u.Spares slot) : ¬ Brings us slot v := by
  rintro ⟨before, u, after, rfl, hu, -⟩
  rw [(h u (by simp)).2.2] at hu
  cases hu

def AccountState.commitGroup (s : AccountState) (us : List AccountUpdate) : AccountState :=
  (absorbAll us).elim s s.commit

/-- The groups of one address, each folded into one update and committed. -/
def AccountState.commitUpdates (s : AccountState) (groups : List (List AccountUpdate)) :
    AccountState :=
  groups.foldl AccountState.commitGroup s

namespace AccountState

variable {s : AccountState} {γ : U64}

theorem commitGroup_eq (hf : ∀ u ∈ us, u.CancunFlags) (s : AccountState) :
    (s.commitGroup us).generation = generationAfter s.generation us ∧
    (∀ γ slot, γ ≠ storedUnder s.generation us →
      (s.commitGroup us).cell γ slot = s.cell γ slot) ∧
    (∀ slot, (∀ v, ¬ Brings us slot v) → ∀ γ, (s.commitGroup us).cell γ slot = s.cell γ slot) ∧
    ∀ slot v, Brings us slot v →
      (s.commitGroup us).cell (storedUnder s.generation us) slot = v := by
  rcases eq_nil_or_concat us with rfl | ⟨us, u, rfl⟩
  · refine ⟨rfl, fun _ _ _ => rfl, fun _ _ _ => rfl, ?_⟩
    rintro slot v ⟨before, u, after, heq, -⟩
    simp at heq
  rw [concat_eq_append] at hf ⊢
  obtain ⟨w, hw⟩ : ∃ w, absorbAll (us ++ [u]) = some w := ⟨_, absorbAll_concat us u⟩
  obtain ⟨-, -, -, hsd⟩ := absorbAll_last hw
  have hc := absorbAll_created hw
  have hg : newGeneration s.generation w = storedUnder s.generation (us ++ [u]) := by
    rw [newGeneration, storedUnder, ← hc, hsd]
    cases hd : u.selfdestructed with
    | false => rw [Bool.or_false]
    | true =>
      have hcr : w.created = true := by
        rw [hc, any_eq_true]
        exact ⟨u, by simp, hf u (by simp) hd⟩
      rw [hcr, Bool.or_true]
  rw [commitGroup, hw, Option.elim_some]
  refine ⟨?_, fun γ slot hne => ?_, fun slot hno γ => ?_, fun slot v hb => ?_⟩
  · rw [generationAfter, destroys, getLast?_concat, Option.any_some, ← hsd, ← hg]
    cases hd : w.selfdestructed <;> simp [generation, commit, hd]
  · rw [commit_cell, if_neg (by rwa [hg])]
  · have hnone : w.storage[slot]? = none := Option.eq_none_iff_forall_ne_some.2
      fun v hv => hno v ((absorbAll_storage hw).1 hv)
    rw [commit_cell, hnone]
    exact ite_self _
  · rw [commit_cell, if_pos hg.symm, (absorbAll_storage hw).2 hb]
    rfl

/-- The slot of the current generation, record or not. -/
def current (s : AccountState) (slot : U256) : U256 := s.cell s.generation slot

/-! ### A sequence of groups -/

variable {K : List (List AccountUpdate)} {last rest : List AccountUpdate}

theorem commitUpdates_append (s : AccountState) (K L : List (List AccountUpdate)) :
    s.commitUpdates (K ++ L) = (s.commitUpdates K).commitUpdates L :=
  foldl_append

theorem commitUpdates_generation (hf : ∀ u ∈ K.flatten, u.CancunFlags) (s : AccountState) :
    (s.commitUpdates K).generation = K.foldl generationAfter s.generation := by
  induction K generalizing s with
  | nil => rfl
  | cons us K ih =>
    rw [flatten_cons, forall_mem_append] at hf
    rw [commitUpdates, foldl_cons, foldl_cons, ← (commitGroup_eq hf.1 s).1]
    exact ih hf.2 _

/-- The value is held under a generation after the groups, perhaps covered: the database or a group
brings it. -/
def Held (s : AccountState) (K : List (List AccountUpdate)) (γ : U64) (slot v : U256) : Prop :=
  v = s.cell γ slot ∨ ∃ before us after, K = before ++ us :: after ∧
    storedUnder (before.foldl generationAfter s.generation) us = γ ∧ Brings us slot v

theorem held_commitUpdates (hf : ∀ u ∈ K.flatten, u.CancunFlags) (s : AccountState) (γ : U64)
    (slot : U256) : s.Held K γ slot ((s.commitUpdates K).cell γ slot) := by
  induction K using List.reverseRecOn with
  | nil => exact .inl rfl
  | append_singleton K us ih =>
    rw [flatten_append, flatten_singleton, forall_mem_append] at hf
    obtain ⟨-, hne, hno, hb⟩ := commitGroup_eq hf.2 (s.commitUpdates K)
    rw [commitUpdates_append]
    by_cases hbr : γ = storedUnder (s.commitUpdates K).generation us ∧ ∃ v, Brings us slot v
    · obtain ⟨hγ, v, hv⟩ := hbr
      refine .inr ⟨K, us, [], rfl, ?_, ?_⟩
      · rw [hγ, commitUpdates_generation hf.1]
      · rw [show ((s.commitUpdates K).commitUpdates [us]).cell γ slot = v from hγ ▸ hb slot v hv]
        exact hv
    · have hcell : ((s.commitUpdates K).commitUpdates [us]).cell γ slot =
          (s.commitUpdates K).cell γ slot := by
        rcases not_and_or.1 hbr with hγ | hv
        · exact hne γ slot hγ
        · exact hno slot (not_exists.1 hv) γ
      rw [hcell]
      refine (ih hf.1).imp_right ?_
      rintro ⟨before, us', after, rfl, hst, hv⟩
      exact ⟨before, us', after ++ [us], by simp, hst, hv⟩

theorem cell_of_avoids (hf : ∀ u ∈ K.flatten, u.CancunFlags)
    (h : Run.Along generationAfter (fun g us => storedUnder g us ≠ γ) s.generation K)
    (slot : U256) : (s.commitUpdates K).cell γ slot = s.cell γ slot := by
  induction K generalizing s with
  | nil => rfl
  | cons us K ih =>
    rw [flatten_cons, forall_mem_append] at hf
    obtain ⟨hg, hne, -⟩ := commitGroup_eq hf.1 s
    rw [commitUpdates, foldl_cons, ← commitUpdates, ih hf.2 (hg ▸ h.2), hne γ slot h.1.symm]

theorem current_of_spares (h : ∀ u ∈ K.flatten, u.Spares slot) (s : AccountState) :
    (s.commitUpdates K).current slot = s.current slot := by
  induction K generalizing s with
  | nil => rfl
  | cons us K ih =>
    rw [flatten_cons, forall_mem_append] at h
    have hf : ∀ u ∈ us, u.CancunFlags := fun u hu hsd => by
      rw [(h.1 u hu).2.1] at hsd
      cases hsd
    obtain ⟨hg, -, hno, -⟩ := commitGroup_eq hf s
    rw [commitUpdates, foldl_cons, ← commitUpdates, ih h.2, current, hg,
      (storedUnder_of_spares h.1 _).2, hno slot (fun _ => not_brings_of_spares h.1)]
    rfl

/-- The slot is read after a group, and after others that do nothing to it. -/
theorem current_concat (hf : ∀ u ∈ K.flatten ++ last, u.CancunFlags)
    {L : List (List AccountUpdate)} (hL : ∀ u ∈ L.flatten, u.Spares slot) (s : AccountState) :
    (s.commitUpdates (K ++ [last] ++ L)).current slot =
      ((s.commitUpdates K).commitGroup last).cell
        (generationAfter (K.foldl generationAfter s.generation) last) slot := by
  rw [forall_mem_append] at hf
  rw [commitUpdates_append, current_of_spares hL, commitUpdates_append,
    ← commitUpdates_generation hf.1, ← (commitGroup_eq hf.2 _).1]
  rfl

end AccountState

/-! ### What can be laid open -/

theorem generationAfter_append {last : List AccountUpdate} (hc : last.any (·.created) = true)
    (g : U64) (us : List AccountUpdate) :
    storedUnder g (us ++ last) = g.saturatingAdd 1 ∧
      (destroys last = true → generationAfter g (us ++ last) = 0) ∧
      (destroys last = false → generationAfter g (us ++ last) = g.saturatingAdd 1) := by
  have hne : last ≠ [] := fun hnil => by simp [hnil] at hc
  have hs : storedUnder g (us ++ last) = g.saturatingAdd 1 :=
    if_pos (by rw [any_append, hc, Bool.or_true])
  have hl : destroys (us ++ last) = destroys last := by
    rw [destroys, getLast?_append, Option.or_of_isSome (by simpa using hne), destroys]
  refine ⟨hs, fun hd => ?_, fun hd => ?_⟩
  · rw [generationAfter, hl, if_pos hd]
  · rw [generationAfter, hl, hd, hs]
    rfl

theorem brings_of_append {last : List AccountUpdate} (hc : last.any (·.created) = true)
    (h : Brings (us ++ last) slot v) : Brings last slot v := by
  obtain ⟨before, u, after, heq, hw, hd, ha⟩ := h
  rcases append_eq_append_iff.1 heq with ⟨c, rfl, hl⟩ | ⟨c, rfl, hl⟩
  · refine ⟨c, u, after, hl, hw, hd.imp_left fun hnil => (append_eq_nil_iff.1 hnil).2, ha⟩
  · cases c with
    | nil => exact ⟨[], u, after, hl.symm, hw, .inl rfl, ha⟩
    | cons x c =>
      -- the update that writes is before the creation
      obtain ⟨-, rfl⟩ := cons_eq_cons.1 hl
      obtain ⟨y, hy, hcy⟩ := any_eq_true.1 hc
      rw [(ha y (mem_append_right c hy)).1] at hcy
      cases hcy

/-- **The groups can be cut so that nothing is stored under the next generation.** -/
theorem exists_avoiding {γ g : U64} {K : List (List AccountUpdate)}
    (hf : ∀ u ∈ K.flatten, u.CancunFlags)
    (hγ : (K.foldl generationAfter g).saturatingAdd 1 = γ) :
    ∃ A us, A.flatten ++ us = K.flatten ∧
      Run.Along generationAfter (fun g us => storedUnder g us ≠ γ) g A ∧
      (A.foldl generationAfter g).saturatingAdd 1 = γ := by
  induction K generalizing g with
  | nil => exact ⟨[], [], rfl, trivial, hγ⟩
  | cons us K ih =>
    rw [flatten_cons, forall_mem_append] at hf
    by_cases hg : g.saturatingAdd 1 = γ
    · exact ⟨[], us ++ K.flatten, rfl, trivial, hg⟩
    obtain ⟨A, vs, hfl, hav, hgen⟩ := ih hf.2 hγ
    by_cases hst : storedUnder g us = γ
    swap
    · exact ⟨us :: A, vs, by simp [hfl], ⟨hst, hav⟩, hgen⟩
    -- a group that stores under the generation creates nothing, and is joined with the next one
    have hno : us.any (·.created) = false := by
      by_contra hcr
      rw [storedUnder, if_pos (by simpa using hcr)] at hst
      exact hg hst
    have hplain : ∀ u ∈ us, u.created = false ∧ u.selfdestructed = false := by
      intro u hu
      have hcu : u.created = false := by simpa using any_eq_false.1 hno u hu
      exact ⟨hcu, (hf.1 u hu).not_selfdestructed hcu⟩
    have hsame : generationAfter g us = g := by
      have hnil := (generationAfter_of_plain hplain g []).2
      rwa [append_nil] at hnil
    rw [hsame] at hav hgen
    cases A with
    | nil => exact absurd hgen hg
    | cons ws A =>
      obtain ⟨hs, ha⟩ := generationAfter_of_plain hplain g ws
      refine ⟨(us ++ ws) :: A, vs, by simpa using hfl, ⟨hs.trans_ne hav.1, ?_⟩, ?_⟩
      · rw [ha]
        exact hav.2
      · rw [foldl_cons, ha]
        exact hgen

namespace AccountState

variable {s : AccountState} {K : List (List AccountUpdate)} {last rest : List AccountUpdate}

/-- **What the last generation holds can be read**, if the group that leads to it brings nothing. -/
theorem exists_current (hf : ∀ u ∈ K.flatten ++ last, u.CancunFlags)
    (hc : last.any (·.created) = true) (hrest : ∀ u ∈ rest, u.Spares slot)
    (hno : destroys last = true ∨ ∀ v, ¬ Brings last slot v) :
    ∃ K', K'.flatten = K.flatten ++ last ++ rest ∧ (s.commitUpdates K').current slot =
      s.cell (generationAfter (K.foldl generationAfter s.generation) last) slot := by
  rw [forall_mem_append] at hf
  generalize hγ : generationAfter (K.foldl generationAfter s.generation) last = γ
  obtain ⟨A, us, hfl, hav, hgen⟩ : ∃ A us, A.flatten ++ us = K.flatten ∧
      Run.Along generationAfter (fun g us => storedUnder g us ≠ γ) s.generation A ∧
      generationAfter (A.foldl generationAfter s.generation) (us ++ last) = γ := by
    cases hd : destroys last with
    | true =>
      refine ⟨[], K.flatten, rfl, trivial, ?_⟩
      rw [← hγ, (generationAfter_append hc _ _).2.1 hd]
      exact ((generationAfter_append hc _ []).2.1 hd).symm
    | false =>
      rw [← nil_append last, (generationAfter_append hc _ _).2.2 hd] at hγ
      obtain ⟨A, us, hfl, hav, hgen⟩ := exists_avoiding hf.1 hγ
      exact ⟨A, us, hfl, hav, by rw [(generationAfter_append hc _ us).2.2 hd, hgen]⟩
  have hA : ∀ u ∈ A.flatten, u.CancunFlags := fun u hu => hf.1 u (hfl ▸ mem_append_left us hu)
  have hl : ∀ u ∈ us ++ last, u.CancunFlags := forall_mem_append.2
    ⟨fun u hu => hf.1 u (hfl ▸ mem_append_right A.flatten hu), hf.2⟩
  refine ⟨A ++ [us ++ last] ++ [rest], by simp [← hfl], ?_⟩
  obtain ⟨-, hne, hnb, -⟩ := commitGroup_eq hl (s.commitUpdates A)
  rw [current_concat (forall_mem_append.2 ⟨hA, hl⟩) (by simpa using hrest), hgen,
    ← cell_of_avoids hA hav slot]
  rcases hno with hd | hb
  · refine hne _ slot ?_
    rw [← hgen, (generationAfter_append hc _ us).2.1 hd, (generationAfter_append hc _ us).1]
    exact (saturatingAdd_one_ne_zero _).symm
  · exact hnb slot (fun v hv => hb v (brings_of_append hc hv)) _

end AccountState

/-! ### The condition -/

theorem exists_last {α : Type*} {p : α → Prop} {l : List α} (h : ∃ x ∈ l, p x) :
    ∃ before x after, l = before ++ x :: after ∧ p x ∧ ∀ y ∈ after, ¬ p y := by
  induction l using List.reverseRecOn with
  | nil => simp at h
  | append_singleton l x ih =>
    by_cases hx : p x
    · exact ⟨l, x, [], rfl, hx, by simp⟩
    · obtain ⟨y, hy, hpy⟩ := h
      have hmem : y ∈ l := (mem_append.1 hy).resolve_right fun hs => hx (mem_singleton.1 hs ▸ hpy)
      obtain ⟨before, z, after, rfl, hz, ha⟩ := ih ⟨y, hmem, hpy⟩
      refine ⟨before, z, after ++ [x], by simp, hz, forall_mem_append.2 ⟨ha, ?_⟩⟩
      simpa using hx

theorem exists_group {α : Type*} {K : List (List α)} {u : α} {before after : List α}
    (h : K.flatten = before ++ u :: after) : ∃ K₁ a b K₂, K = K₁ ++ [a ++ u :: b] ++ K₂ ∧
      K₁.flatten ++ a = before ∧ b ++ K₂.flatten = after := by
  rcases flatten_eq_append_iff.1 h with ⟨K₁, K₂, rfl, rfl, h'⟩ | ⟨K₁, a, c, b, K₂, rfl, rfl, h'⟩
  · obtain ⟨L₁, b, L₂, rfl, hnil, rfl⟩ := flatten_eq_cons_iff.1 h'.symm
    refine ⟨K₁ ++ L₁, [], b, L₂, by simp, ?_, rfl⟩
    rw [flatten_append, flatten_eq_nil_iff.2 hnil, append_nil, append_nil]
  · obtain ⟨rfl, rfl⟩ := cons_eq_cons.1 h'
    exact ⟨K₁, a, b, K₂, by simp, rfl, rfl⟩

/-- An update that is no selfdestruct writes the slot, and those after it do nothing to the slot. -/
def FinalWrite (us : List AccountUpdate) (slot v : U256) : Prop :=
  ∃ before u after, us = before ++ u :: after ∧ u.storage[slot]? = some v ∧
    u.selfdestructed = false ∧ ∀ w ∈ after, w.Spares slot

namespace AccountState

variable {s : AccountState} {K : List (List AccountUpdate)} {last rest : List AccountUpdate}

/-- The value may be read after the groups and `last`, the last one that creates or destroys the
account: `last` brings it, or brings nothing, and the generation it leads to holds the value. -/
def Shown (s : AccountState) (K : List (List AccountUpdate)) (last : List AccountUpdate)
    (slot v : U256) : Prop :=
  destroys last = false ∧ Brings last slot v ∨
    (destroys last = true ∨ ∀ v, ¬ Brings last slot v) ∧
      s.Held K (generationAfter (K.foldl generationAfter s.generation) last) slot v

/-- A slot does not depend on the cut: a last write settles it, or only one value may be read. -/
def SlotSafe (s : AccountState) (us : List AccountUpdate) (slot : U256) : Prop :=
  (∃ v, FinalWrite us slot v) ∨ ∃ z, ∀ K last rest v, K.flatten ++ last ++ rest = us →
    last.any (·.created) = true → (∀ u ∈ rest, u.created = false) → s.Shown K last slot v → v = z

/-- The condition on an address and its updates. -/
def CadenceSafe (s : AccountState) (us : List AccountUpdate) : Prop :=
  (∃ u, us.getLast? = some u ∧ u.selfdestructed = true) ∨ ∀ slot, s.SlotSafe us slot

theorem cell_of_brings (hf : ∀ u ∈ K.flatten ++ last, u.CancunFlags) (hd : destroys last = false)
    (hb : Brings last slot v) (s : AccountState) : ((s.commitUpdates K).commitGroup last).cell
      (generationAfter (K.foldl generationAfter s.generation) last) slot = v := by
  rw [forall_mem_append] at hf
  rw [generationAfter, hd, ← commitUpdates_generation hf.1]
  exact (commitGroup_eq hf.2 (s.commitUpdates K)).2.2.2 slot v hb

theorem current_of_finalWrite (hf : ∀ u ∈ K.flatten, u.CancunFlags)
    (h : FinalWrite K.flatten slot v) (s : AccountState) :
    (s.commitUpdates K).current slot = v := by
  obtain ⟨before, u, after, heq, hw, hsd, ha⟩ := h
  obtain ⟨K₁, a, b, K₂, rfl, -, rfl⟩ := exists_group heq
  rw [forall_mem_append] at ha
  have hd : destroys (a ++ u :: b) = false := by
    rw [destroys]
    rcases eq_nil_or_concat b with rfl | ⟨b, w, rfl⟩
    · simp [hsd]
    · rw [concat_eq_append] at ha ⊢
      rw [← cons_append, ← append_assoc, getLast?_concat, Option.any_some, (ha.1 w (by simp)).2.1]
  have hf' : ∀ w ∈ K₁.flatten ++ (a ++ u :: b), w.CancunFlags := fun w hmem =>
    hf w (by simpa using mem_append_left K₂.flatten hmem)
  rw [current_concat hf' ha.2]
  exact cell_of_brings hf' hd ⟨a, u, b, rfl, hw, .inr hsd, ha.1⟩ s

/-- **What is read after the groups may be read**, and nothing else. -/
theorem shown_current (hf : ∀ u ∈ K.flatten ++ last, u.CancunFlags)
    (hc : last.any (·.created) = true) {L : List (List AccountUpdate)}
    (hL : ∀ u ∈ L.flatten, u.Spares slot) (s : AccountState) :
    s.Shown K last slot ((s.commitUpdates (K ++ [last] ++ L)).current slot) := by
  rw [current_concat hf hL]
  by_cases hn : destroys last = true ∨ ∀ v, ¬ Brings last slot v
  · refine .inr ⟨hn, ?_⟩
    rw [forall_mem_append] at hf
    obtain ⟨hg, hne, hno, -⟩ := commitGroup_eq hf.2 (s.commitUpdates K)
    generalize hγ : generationAfter (K.foldl generationAfter s.generation) last = γ
    have hcell : ((s.commitUpdates K).commitGroup last).cell γ slot =
        (s.commitUpdates K).cell γ slot := by
      rcases hn with hd | hnb
      · refine hne γ slot ?_
        rw [← hγ, generationAfter, if_pos hd, storedUnder, if_pos hc]
        exact (saturatingAdd_one_ne_zero _).symm
      · exact hno slot hnb γ
    rw [hcell]
    exact held_commitUpdates hf.1 s γ slot
  · obtain ⟨hd, hbr⟩ := not_or.1 hn
    obtain ⟨v, hv⟩ := not_forall_not.1 hbr
    have hd' : destroys last = false := by simpa using hd
    rw [cell_of_brings hf hd' hv]
    exact .inl ⟨hd', hv⟩

theorem exists_of_shown (hf : ∀ u ∈ K.flatten ++ last, u.CancunFlags)
    (hc : last.any (·.created) = true) (hrest : ∀ u ∈ rest, u.Spares slot)
    (h : s.Shown K last slot v) : ∃ K', K'.flatten = K.flatten ++ last ++ rest ∧
      (s.commitUpdates K').current slot = v := by
  rcases h with ⟨hd, hb⟩ | ⟨hno, rfl | ⟨A, us, B, rfl, hst, hb⟩⟩
  · refine ⟨K ++ [last] ++ [rest], by simp, ?_⟩
    rw [current_concat hf (by simpa using hrest), cell_of_brings hf hd hb]
  · exact exists_current hf hc hrest hno
  · -- the groups after the one that brings the value are cut anew
    have hA : ∀ u ∈ A.flatten, u.CancunFlags := fun u hu => hf u (by simp [hu])
    have hus : ∀ u ∈ us, u.CancunFlags := fun u hu => hf u (by simp [hu])
    obtain ⟨hg, -, -, hbr⟩ := commitGroup_eq hus (s.commitUpdates A)
    rw [commitUpdates_generation hA] at hg hbr
    obtain ⟨K', hfl, hcur⟩ := exists_current (s := (s.commitUpdates A).commitGroup us) (K := B)
      (fun u hu => hf u (by simp only [flatten_append, flatten_cons, mem_append] at hu ⊢; tauto))
      hc hrest hno
    refine ⟨A ++ [us] ++ K', by simp [hfl], ?_⟩
    rw [commitUpdates_append, commitUpdates_append]
    refine hcur.trans ?_
    rw [hg, ← foldl_cons, ← foldl_append, ← hst]
    exact hbr slot v hb

/-- **A slot reads the same after all cuts exactly if it is safe.** -/
theorem slotSafe_iff (hf : ∀ u ∈ us, u.CancunFlags) (s : AccountState) (slot : U256) :
    s.SlotSafe us slot ↔ ∀ G H : List (List AccountUpdate), G.flatten = us → H.flatten = us →
      (s.commitUpdates G).current slot = (s.commitUpdates H).current slot := by
  by_cases hst : ∃ v, FinalWrite us slot v
  · refine iff_of_true (.inl hst) fun G H hG hH => ?_
    obtain ⟨v, hv⟩ := hst
    rw [current_of_finalWrite (hG ▸ hf) (hG ▸ hv), current_of_finalWrite (hH ▸ hf) (hH ▸ hv)]
  -- after the last creation nothing is done to the slot
  have hsp : ∀ before after, us = before ++ after → (∀ u ∈ after, u.created = false) →
      ∀ u ∈ after, u.Spares slot := by
    rintro before after rfl hc
    have hsd : ∀ u ∈ after, u.selfdestructed = false := fun u hu =>
      (hf u (mem_append_right before hu)).not_selfdestructed (hc u hu)
    by_contra hno
    simp only [not_forall] at hno
    obtain ⟨u, hu, hnu⟩ := hno
    have hw : ∃ u ∈ after, ∃ v, u.storage[slot]? = some v := by
      refine ⟨u, hu, Option.ne_none_iff_exists'.1 fun hnone => hnu ⟨hc u hu, hsd u hu, hnone⟩⟩
    obtain ⟨before', u, after', rfl, ⟨v, hv⟩, ha⟩ := exists_last hw
    refine hst ⟨v, before ++ before', u, after', by simp, hv, hsd u (by simp), fun w hw => ?_⟩
    have hmem : w ∈ before' ++ u :: after' := by simp [hw]
    exact ⟨hc w hmem, hsd w hmem, Option.eq_none_iff_forall_ne_some.2 fun v hv => ha w hw ⟨v, hv⟩⟩
  constructor
  · rintro (hs | ⟨z, hz⟩)
    · exact absurd hs hst
    by_cases hcr : ∃ u ∈ us, u.created = true
    · obtain ⟨before, u, after, rfl, hcu, hac⟩ := exists_last hcr
      have hno : ∀ w ∈ after, w.created = false := fun w hw => by simpa using hac w hw
      have hall : ∀ K : List (List AccountUpdate), K.flatten = before ++ u :: after →
          (s.commitUpdates K).current slot = z := by
        intro K hK
        obtain ⟨K₁, a, b, K₂, rfl, rfl, rfl⟩ := exists_group hK
        have hb : ∀ w ∈ K₂.flatten, w.created = false := fun w hw => hno w (mem_append_right b hw)
        have hc : (a ++ u :: b).any (·.created) = true := by simp [hcu]
        refine hz K₁ (a ++ u :: b) K₂.flatten _ (by simp) hc hb (shown_current ?_ hc ?_ s)
        · exact fun w hw => hf w (by simp only [mem_append, mem_cons] at hw ⊢; tauto)
        · exact hsp (K₁.flatten ++ (a ++ u :: b)) _ (by simp) hb
      intro G H hG hH
      rw [hall G hG, hall H hH]
    · -- nothing is done to the slot at all
      have hall := hsp [] us rfl fun u hu => by simpa using fun hc => hcr ⟨u, hu, hc⟩
      intro G H hG hH
      rw [current_of_spares (hG ▸ hall), current_of_spares (hH ▸ hall)]
  · intro h
    refine .inr ⟨(s.commitUpdates [us]).current slot, ?_⟩
    rintro K last rest v rfl hc hrest hv
    obtain ⟨K', hfl, rfl⟩ := exists_of_shown (fun u hu => hf u (mem_append_left rest hu)) hc
      (hsp _ rest rfl hrest) hv
    exact h K' _ hfl (by simp)

end AccountState

/-! ### The reads of an address -/

namespace AccountState

variable {s : AccountState} {groups : List (List AccountUpdate)}

theorem commitUpdates_record (h : groups.flatten = us ++ [u]) (s : AccountState) :
    (u.selfdestructed = true → (s.commitUpdates groups).record = none) ∧
    (u.selfdestructed = false → ∃ g,
      (s.commitUpdates groups).record = some ⟨u.nonce, u.balance, u.codeHash, g⟩) := by
  induction groups using List.reverseRecOn generalizing us with
  | nil => simp at h
  | append_singleton groups last ih =>
    have hs : s.commitUpdates (groups ++ [last]) =
        (s.commitUpdates groups).commitGroup last :=
      commitUpdates_append s groups [last]
    rw [hs]
    rw [flatten_append, flatten_singleton] at h
    -- an empty last group commits nothing; otherwise it ends with the last update of all
    rcases eq_nil_or_concat last with rfl | ⟨init, v, rfl⟩
    · exact ih (by simpa using h)
    · rw [concat_eq_append] at h ⊢
      rw [← append_assoc] at h
      obtain rfl : v = u := by simpa using (append_inj' h rfl).2
      obtain ⟨w, hw⟩ : ∃ w, absorbAll (init ++ [v]) = some w := ⟨_, absorbAll_concat init v⟩
      obtain ⟨hn, hb, hc, hsd⟩ := absorbAll_last hw
      rw [commitGroup, hw, Option.elim_some, AccountState.commit, ← hsd, ← hn, ← hb, ← hc]
      refine ⟨fun hd => by simp [hd], fun ha => ⟨_, by simp [ha]; rfl⟩⟩

theorem commitUpdates_of_flatten_nil (h : groups.flatten = []) (s : AccountState) :
    s.commitUpdates groups = s := by
  induction groups with
  | nil => rfl
  | cons us groups ih =>
    rw [flatten_cons, append_eq_nil_iff] at h
    rw [commitUpdates, foldl_cons, h.1]
    exact ih h.2

theorem reads_of_record {r : AccountRecord} (h : s.record = some r) (address : Address) :
    s.reads address =
      ⟨.ok r.nonce, .ok r.balance, .ok r.codeHash, fun slot => .ok (s.current slot)⟩ := by
  have hgen : s.generation = r.generation := by simp [generation, h]
  simp [reads, h, current, hgen]

/-- **An address reads the same after all cuts exactly if it is safe.** -/
theorem cadenceSafe_iff (hf : ∀ u ∈ us, u.CancunFlags) (s : AccountState) (address : Address) :
    (∀ G H : List (List AccountUpdate), G.flatten = us → H.flatten = us →
      (s.commitUpdates G).reads address = (s.commitUpdates H).reads address) ↔
    s.CadenceSafe us := by
  rcases eq_nil_or_concat us with rfl | ⟨us, u, rfl⟩
  · refine iff_of_true (fun G H hG hH => ?_) (.inr fun slot => (slotSafe_iff hf s slot).2 ?_)
    · rw [commitUpdates_of_flatten_nil hG, commitUpdates_of_flatten_nil hH]
    · intro G H hG hH
      rw [commitUpdates_of_flatten_nil hG, commitUpdates_of_flatten_nil hH]
  rw [concat_eq_append] at hf ⊢
  cases hsd : u.selfdestructed with
  | true =>
    refine iff_of_true (fun G H hG hH => ?_) (.inl ⟨u, getLast?_concat, hsd⟩)
    simp [reads, (commitUpdates_record hG s).1 hsd, (commitUpdates_record hH s).1 hsd]
  | false =>
    -- the slots decide
    have hlast : ¬ ∃ w, (us ++ [u]).getLast? = some w ∧ w.selfdestructed = true := by
      simp [hsd]
    rw [CadenceSafe, or_iff_right hlast]
    simp only [slotSafe_iff hf]
    constructor
    · intro h slot G H hG hH
      obtain ⟨g, hg⟩ := (commitUpdates_record hG s).2 hsd
      obtain ⟨g', hg'⟩ := (commitUpdates_record hH s).2 hsd
      have heq := h G H hG hH
      rw [reads_of_record hg, reads_of_record hg'] at heq
      exact Except.ok.inj (congrFun (congrArg AccountReads.storage heq) slot)
    · intro h G H hG hH
      obtain ⟨g, hg⟩ := (commitUpdates_record hG s).2 hsd
      obtain ⟨g', hg'⟩ := (commitUpdates_record hH s).2 hsd
      rw [reads_of_record hg, reads_of_record hg']
      congr 1
      funext slot
      rw [h slot G H hG hH]

end AccountState

/-! ### Whole databases -/

theorem account_commitGroups (q : QmdbStore) (groups : List (List ChangeSet)) {address : Address}
    (ha : address ≠ COMMIT_SEQ_ACCOUNT_KEY) :
    (q.commitGroups groups).account address =
      (q.account address).commitUpdates (groups.map (updatesOf address)) := by
  induction groups generalizing q with
  | nil => rfl
  | cons g groups ih =>
    have hs := account_commitChanges q (mergeAll g) ha
    rw [getElem?_mergeAll] at hs
    rw [map_cons, AccountState.commitUpdates, foldl_cons, AccountState.commitGroup, ← hs]
    exact ih (q.commitChanges (mergeAll g))

theorem flatten_map_updatesOf (address : Address) (groups : List (List ChangeSet)) :
    (groups.map (updatesOf address)).flatten = updatesOf address groups.flatten := by
  induction groups with
  | nil => rfl
  | cons g groups ih =>
    rw [map_cons, flatten_cons, flatten_cons, ih, updatesOf_append]

/-- Every cut of the updates of an address comes from a cut of the chain. -/
theorem exists_cut {address : Address} {K : List (List AccountUpdate)} {cs : List ChangeSet}
    (h : K.flatten = updatesOf address cs) : ∃ G : List (List ChangeSet), G.flatten = cs ∧
      ∀ s : AccountState, s.commitUpdates (G.map (updatesOf address)) = s.commitUpdates K := by
  induction K generalizing cs with
  | nil =>
    refine ⟨[cs], by simp, AccountState.commitUpdates_of_flatten_nil ?_⟩
    rw [map_singleton, flatten_singleton, ← h]
    rfl
  | cons us K ih =>
    obtain ⟨c, d, rfl, hc, hd⟩ := filterMap_eq_append_iff.1 h.symm
    obtain ⟨G, rfl, hG⟩ := ih hd.symm
    refine ⟨c :: G, rfl, fun s => ?_⟩
    rw [map_cons, AccountState.commitUpdates, foldl_cons, ← AccountState.commitUpdates, hG,
      updatesOf, hc]
    rfl

variable {q : QmdbStore}

/-! ### The sentinel under a sequence of groups -/

theorem mergeAll_eq_new_iff {cs : List ChangeSet} : mergeAll cs = ChangeSet.new ↔
    ∀ ch ∈ cs, ch = ChangeSet.new := by
  have hnone : ∀ address : Address,
      (mergeAll cs)[address]? = none ↔ ∀ ch ∈ cs, ch[address]? = none := by
    intro address
    rw [getElem?_mergeAll, absorbAll_eq_none_iff, updatesOf, filterMap_eq_nil_iff]
  constructor
  · intro h ch hc
    ext1 address
    rw [(hnone address).mp (by simp [h]) ch hc, getElem?_new]
  · intro h
    ext1 address
    rw [(hnone address).mpr (fun ch hc => by simp [h ch hc]), getElem?_new]

theorem countP_mergeAll_eq_zero_iff {groups : List (List ChangeSet)} :
    (groups.map mergeAll).countP (fun ch => decide (ch ≠ ChangeSet.new)) = 0 ↔
      ∀ ch ∈ groups.flatten, ch = ChangeSet.new := by
  rw [countP_eq_zero]
  simp only [mem_map, forall_exists_index, and_imp, forall_apply_eq_imp_iff₂, decide_eq_true_eq,
    not_not, mergeAll_eq_new_iff, mem_flatten]
  exact ⟨fun h ch g hg hc => h g hg ch hc, fun h g hg ch hc => h ch g hg hc⟩

section Sentinel

variable {ds : List ChangeSet}

theorem commitSeq_commitAll (q : QmdbStore) (ds : List ChangeSet) :
    (q.commitAll ds).commitSeq.toNat =
      min (q.commitSeq.toNat + ds.countP (fun ch => decide (ch ≠ ChangeSet.new))) (2 ^ 64 - 1) := by
  induction ds generalizing q with
  | nil =>
    have hlt := q.commitSeq.isLt
    simp only [commitAll, foldl_nil, countP_nil]
    omega
  | cons d ds ih =>
    rw [commitAll, foldl_cons, ← commitAll, ih]
    by_cases hd : d = ChangeSet.new
    · rw [hd, commitChanges_new, countP_cons_of_neg]
      simp
    · rw [commitSeq_commitChanges hd, saturatingAdd_one_toNat, countP_cons,
        if_pos (decide_eq_true hd)]
      omega

theorem record_sentinel_commitAll (h : ds.countP (fun ch => decide (ch ≠ ChangeSet.new)) ≠ 0) :
    (q.commitAll ds).record COMMIT_SEQ_ACCOUNT_KEY =
      some ⟨(q.commitAll ds).commitSeq, 0, 0, 0⟩ := by
  induction ds using List.reverseRecOn with
  | nil => simp at h
  | append_singleton ds d ih =>
    rw [commitAll, foldl_append, ← commitAll]
    show ((q.commitAll ds).commitChanges d).record _ =
      some ⟨((q.commitAll ds).commitChanges d).commitSeq, 0, 0, 0⟩
    by_cases hd : d = ChangeSet.new
    · rw [hd, commitChanges_new]
      refine ih (fun hzero => h ?_)
      rw [countP_append, hzero, hd]
      rfl
    · rw [record_sentinel_commitChanges hd, commitSeq_commitChanges hd]

theorem commitAll_of_new (h : ∀ d ∈ ds, d = ChangeSet.new) (q : QmdbStore) :
    q.commitAll ds = q := by
  induction ds generalizing q with
  | nil => rfl
  | cons d ds ih =>
    rw [commitAll, foldl_cons, h d mem_cons_self, commitChanges_new]
    exact ih (fun e he => h e (mem_cons_of_mem d he)) q

end Sentinel

theorem commitGroups_of_new {K : List (List ChangeSet)} (h : ∀ ch ∈ K.flatten, ch = ChangeSet.new)
    (q : QmdbStore) : q.commitGroups K = q := by
  refine commitAll_of_new (fun d hd => ?_) q
  simpa using countP_eq_zero.1 (countP_mergeAll_eq_zero_iff.2 h) d hd

theorem mergeAll_of_single {a b : List ChangeSet} (ha : ∀ ch ∈ a, ch = ChangeSet.new)
    (hb : ∀ ch ∈ b, ch = ChangeSet.new) (d : ChangeSet) : mergeAll (a ++ d :: b) = d := by
  have hnone : ∀ l : List ChangeSet, (∀ ch ∈ l, ch = ChangeSet.new) → ∀ address,
      updatesOf address l = [] := fun l hl address =>
    filterMap_eq_nil_iff.2 fun ch hch => by rw [hl ch hch, getElem?_new]
  ext1 address
  rw [getElem?_mergeAll, updatesOf_append, hnone a ha, ← singleton_append, updatesOf_append,
    hnone b hb, updatesOf, nil_append, append_nil]
  cases h : d[address]? <;> simp [h, absorbAll, absorb]

/-- If there is one change set that is not empty, every cut commits it alone. -/
theorem commitGroups_of_single {K : List (List ChangeSet)} {before after : List ChangeSet}
    {d : ChangeSet} (hb : ∀ ch ∈ before, ch = ChangeSet.new)
    (ha : ∀ ch ∈ after, ch = ChangeSet.new) (hK : K.flatten = before ++ d :: after)
    (q : QmdbStore) : q.commitGroups K = q.commitChanges d := by
  obtain ⟨K₁, a, b, K₂, rfl, rfl, rfl⟩ := exists_group hK
  rw [forall_mem_append] at hb ha
  have hd : q.commitGroups (K₁ ++ [a ++ d :: b] ++ K₂) =
      (((q.commitGroups K₁).commitChanges (mergeAll (a ++ d :: b))).commitGroups K₂) := by
    simp [commitGroups, commitAll]
  rw [hd, commitGroups_of_new hb.1, mergeAll_of_single hb.2 ha.1, commitGroups_of_new ha.2]

/-- **All cuts agree on the sentinel** exactly if there is at most one commit to make, unless the
sequence number is about to saturate. -/
theorem reads_sentinel_iff {cs : List ChangeSet} (hseq : q.commitSeq.toNat + 1 < 2 ^ 64 - 1) :
    (∀ G H : List (List ChangeSet), G.flatten = cs → H.flatten = cs →
      reads (q.commitGroups G) COMMIT_SEQ_ACCOUNT_KEY =
        reads (q.commitGroups H) COMMIT_SEQ_ACCOUNT_KEY) ↔
    cs.countP (fun ch => decide (ch ≠ ChangeSet.new)) ≤ 1 := by
  by_cases hnew : ∀ ch ∈ cs, ch = ChangeSet.new
  · refine iff_of_true (fun G H hG hH => ?_) ?_
    · rw [commitGroups_of_new (hG ▸ hnew), commitGroups_of_new (hH ▸ hnew)]
    · rw [countP_eq_zero.2 (by simpa using hnew)]
      exact Nat.zero_le 1
  obtain ⟨before, d, after, rfl, hd, hafter⟩ := exists_last (by simpa using hnew)
  have ha : ∀ ch ∈ after, ch = ChangeSet.new := fun ch hch => not_not.1 (hafter ch hch)
  have hcount : (before ++ d :: after).countP (fun ch => decide (ch ≠ ChangeSet.new)) ≤ 1 ↔
      ∀ ch ∈ before, ch = ChangeSet.new := by
    have hzero : after.countP (fun ch => decide (ch ≠ ChangeSet.new)) = 0 :=
      countP_eq_zero.2 (by simpa using ha)
    rw [countP_append, countP_cons, if_pos (decide_eq_true hd), hzero]
    simp
  rw [hcount]
  constructor
  · intro h
    by_contra hb
    -- the marker shows whether what is before the last change set is committed by itself
    have hnonce : ∀ K : List (List ChangeSet), K.flatten = before ++ d :: after →
        (reads (q.commitGroups K) COMMIT_SEQ_ACCOUNT_KEY).nonce =
          .ok (q.commitGroups K).commitSeq := by
      intro K hK
      rw [← hK, ← countP_mergeAll_eq_zero_iff] at hnew
      rw [reads_qmdb, AccountState.reads, account_record, commitGroups,
        record_sentinel_commitAll hnew]
    have hr := congrArg AccountReads.nonce
      (h [before, d :: after] [before ++ d :: after] (by simp) (by simp))
    rw [hnonce _ (by simp), hnonce _ (by simp)] at hr
    have hnat := congrArg BitVec.toNat (Except.ok.inj hr)
    have hd' : mergeAll (d :: after) ≠ ChangeSet.new := fun hm =>
      hd (mergeAll_eq_new_iff.1 hm d mem_cons_self)
    rw [commitGroups, commitGroups, commitSeq_commitAll, commitSeq_commitAll] at hnat
    simp [hd', mt mergeAll_eq_new_iff.1 hb, mt mergeAll_eq_new_iff.1 hnew] at hnat
    omega
  · intro hb G H hG hH
    rw [commitGroups_of_single hb ha hG, commitGroups_of_single hb ha hH]

/-- **Cadence.** All ways of cutting a chain into groups read the same at an address other than the
sentinel exactly if it is safe, and at the sentinel exactly if there is at most one commit to make.
-/
theorem cadence_independent (q : QmdbStore) {cs : List ChangeSet}
    (hflags : ∀ ch ∈ cs, ch.CancunFlags) :
    (∀ address, address ≠ COMMIT_SEQ_ACCOUNT_KEY →
      ((∀ G H : List (List ChangeSet), G.flatten = cs → H.flatten = cs →
          reads (q.commitGroups G) address = reads (q.commitGroups H) address) ↔
        (q.account address).CadenceSafe (updatesOf address cs))) ∧
    (q.commitSeq.toNat + 1 < 2 ^ 64 - 1 →
      ((∀ G H : List (List ChangeSet), G.flatten = cs → H.flatten = cs →
          reads (q.commitGroups G) COMMIT_SEQ_ACCOUNT_KEY =
            reads (q.commitGroups H) COMMIT_SEQ_ACCOUNT_KEY) ↔
        cs.countP (fun ch => decide (ch ≠ ChangeSet.new)) ≤ 1)) := by
  refine ⟨fun address ha => ?_, reads_sentinel_iff⟩
  have hfl : ∀ u ∈ updatesOf address cs, u.CancunFlags := by
    intro u hu
    obtain ⟨ch, hch, hget⟩ := mem_filterMap.1 hu
    exact hflags ch hch address u hget
  have hr : ∀ G, reads (q.commitGroups G) address =
      ((q.account address).commitUpdates (G.map (updatesOf address))).reads address := fun G => by
    rw [reads_qmdb, account_commitGroups q G ha]
  rw [← AccountState.cadenceSafe_iff hfl _ address]
  simp only [hr]
  constructor
  · intro h K L hK hL
    obtain ⟨G, hG, hGK⟩ := exists_cut hK
    obtain ⟨H, hH, hHL⟩ := exists_cut hL
    rw [← hGK, ← hHL]
    exact h G H hG hH
  · intro h G H hG hH
    exact h _ _ (by rw [flatten_map_updatesOf, hG]) (by rw [flatten_map_updatesOf, hH])

/-- A transaction that creates `0xA` and selfdestructs it, and writes nothing. -/
def createDestroy : ChangeSet := extractChanges (evmAccountA true true 0)

/-- Where no slot is written, a selfdestruct does no harm. -/
theorem cadence_independent_unwritten :
    reads (QmdbStore.new.commitGroups [[createDestroy], [plainTransfer]]) 0xA =
      reads (QmdbStore.new.commitGroups [[createDestroy, plainTransfer]]) 0xA := by
  have hflags : ∀ ch ∈ [createDestroy, plainTransfer], ch.CancunFlags := by
    refine forall_mem_cons.2 ⟨?_, forall_mem_singleton.2 plainTransfer_reported.cancunFlags⟩
    exact (Reported.transaction _ (evmAccountA_cancun 0 (fun _ => rfl))).cancunFlags
  have hst : ∀ u ∈ updatesOf 0xA [createDestroy, plainTransfer], u.storage = ∅ := by
    decide +kernel
  have hnb : ∀ us, us ⊆ updatesOf 0xA [createDestroy, plainTransfer] →
      ∀ slot v, ¬ Brings us slot v := by
    rintro _ hsub slot v ⟨before, u, after, rfl, hu, -⟩
    rw [hst u (hsub (by simp))] at hu
    cases hu
  refine ((cadence_independent QmdbStore.new hflags).1 0xA (by decide)).2
    (.inr fun slot => .inr ⟨0, ?_⟩) _ _ rfl rfl
  rintro K last rest v heq - - (⟨-, hb⟩ | ⟨-, hcell | ⟨A, us, B, rfl, -, hb⟩⟩)
  · exact absurd hb (hnb last (fun u hu => heq ▸ by simp [hu]) slot v)
  · exact hcell
  · exact absurd hb (hnb us (fun u hu => heq ▸ by simp [hu]) slot v)

/-- An account created and destroyed in a block and paid in the next: one by one its slot is gone,
together it is back. -/
theorem cadence_dependent :
    ¬ ∀ (q : QmdbStore) (cs : List ChangeSet), (∀ ch ∈ cs, ch.CancunFlags) →
      ∀ G H : List (List ChangeSet), G.flatten = cs → H.flatten = cs → ∀ address,
        reads (q.commitGroups G) address = reads (q.commitGroups H) address := by
  intro h
  have hr := h QmdbStore.new [createWriteDestroy, plainTransfer] ?_
    [[createWriteDestroy], [plainTransfer]] [[createWriteDestroy, plainTransfer]] rfl rfl 0xA
  · exact absurd (congrFun (congrArg AccountReads.storage hr) 1) (by decide)
  · intro ch hc
    rw [mem_cons, mem_singleton] at hc
    rcases hc with rfl | rfl
    · exact createWriteDestroy_reported.cancunFlags
    · exact plainTransfer_reported.cancunFlags

end Kora
