/-
Committing under live overlays (`persist_snapshot` in `node/ledger/src/lib.rs`).

Persisting block `k` commits the merge of the first `k` change sets, while the overlays of
the descendants keep standing on the database. What protects them is that they mask what
the commit rewrote (`Masks`, `masks_mergeAll`).

* `persist_preserves_descendants` — persisting is invisible above, on a database whose
  absent accounts have nothing stored under generation zero (`NoOrphans`).
-/
import Kora.Overlay
import Kora.Run

open Std

namespace Kora

open QmdbStore ChangeSet

/-- An address without a record has no cell under generation zero, which touching it would bring
back. -/
def AccountState.NoOrphans (s : AccountState) : Prop :=
  s.record = none → ∀ slot, s.cell 0 slot = 0

/-- No address but the sentinel has orphaned cells. -/
def QmdbStore.NoOrphans (q : QmdbStore) : Prop :=
  ∀ address, address ≠ COMMIT_SEQ_ACCOUNT_KEY → (q.account address).NoOrphans

/-- What an overlay holds for an address masks what was committed below it: without an update
nothing was committed, and an update that lets reads through stands on a commit that moved neither
the generation nor a slot that is read through. -/
def Masks (committed overlay : Option AccountUpdate) : Prop :=
  match overlay with
  | none => committed = none
  | some u => u.created = false → ∀ w, committed = some w →
      w.created = false ∧ w.selfdestructed = false ∧
        ∀ slot : U256, u.storage[slot]? = none → w.storage[slot]? = none

theorem Masks.refl {o : Option AccountUpdate} (h : ∀ u, o = some u → u.CancunFlags) :
    Masks o o := by
  cases o with
  | none => rfl
  | some u =>
    rintro hc w hw
    obtain rfl := Option.some_inj.mp hw
    exact ⟨hc, (h u rfl).not_selfdestructed hc, fun slot => id⟩

theorem Masks.absorb {w o : Option AccountUpdate} {u : AccountUpdate} (h : Masks w o)
    (hu : u.CancunFlags) : Masks w (some (absorb o u)) := by
  intro hc x hx
  cases o with
  | none =>
    rw [show w = none from h] at hx
    exact absurd hx (by simp)
  | some e =>
    -- the merge creates the account if one of the two does, so neither does here
    rw [ChangeSet.absorb, AccountUpdate.merge_created, Bool.or_eq_false_iff] at hc
    obtain ⟨hxc, hxs, hsl⟩ := h hc.2 x hx
    refine ⟨hxc, hxs, fun slot hs => hsl slot ?_⟩
    rw [ChangeSet.absorb, AccountUpdate.getElem?_merge_storage, hu.not_selfdestructed hc.1,
      hc.1] at hs
    cases huv : u.storage[slot]? with
    | none => simpa [huv] using hs
    | some v => simp [huv] at hs

theorem masks_mergeAll {cs ds : List ChangeSet} (h : ∀ ch ∈ cs ++ ds, ch.CancunFlags)
    (address : Address) : Masks (mergeAll cs)[address]? (mergeAll (cs ++ ds))[address]? := by
  induction ds using List.reverseRecOn with
  | nil =>
    rw [List.append_nil] at h ⊢
    exact Masks.refl (CancunFlags.mergeAll h address)
  | append_singleton ds d ih =>
    rw [← List.append_assoc] at h ⊢
    have hm := ih (fun ch hc => h ch (List.mem_append_left [d] hc))
    have hd : d.CancunFlags := h d (List.mem_append_right _ List.mem_cons_self)
    rw [mergeAll_concat, getElem?_merge]
    cases hu : d[address]? with
    | none => exact hm
    | some u => exact hm.absorb (hd address u hu)

/-! ### Commits below an overlay -/

theorem AccountState.reads_commit_storage {s : AccountState} (hs : s.NoOrphans)
    {w : AccountUpdate} (hc : w.created = false) (hsd : w.selfdestructed = false)
    {address : Address} {slot : U256} (hsl : w.storage[slot]? = none) :
    ((s.commit w).reads address).storage slot = (s.reads address).storage slot := by
  have hgen := newGeneration_of_plain hc hsd s.generation
  rw [reads_storage, reads_storage, commit_slot hsd, hsl, hgen, Option.getD_none]
  cases hr : s.record with
  | none =>
    -- the account gets its first record, under generation zero
    have hzero : s.generation = 0 := by simp [generation, hr]
    rw [hzero, hs hr slot, slot_of_record_none hr]
  | some r => rw [slot_of_record hr]

variable {q : QmdbStore}

theorem reads_overlay_commitChanges (hq : q.NoOrphans) {ch d : ChangeSet} {address : Address}
    (ha : address ≠ COMMIT_SEQ_ACCOUNT_KEY) (hm : Masks ch[address]? d[address]?) :
    reads (OverlayState.new (q.commitChanges ch) d) address =
      reads (OverlayState.new q d) address := by
  rw [reads_overlay, reads_overlay, reads_qmdb, reads_qmdb, account_commitChanges q ch ha]
  cases hd : d[address]? with
  | none =>
    rw [hd] at hm
    rw [show ch[address]? = none from hm]
    rfl
  | some u =>
    rw [hd] at hm
    cases hw : ch[address]? with
    | none => rfl
    | some w =>
      -- the overlay has the record fields of its own, so only slots can be read through
      simp only [Option.elim_some, AccountUpdate.over]
      congr 1
      funext slot
      cases huc : u.created
      case true => simp
      obtain ⟨hwc, hwsd, hs⟩ := hm huc w hw
      cases huv : u.storage[slot]? with
      | some v => rfl
      | none =>
        rw [AccountState.reads_commit_storage (hq address ha) hwc hwsd (hs slot huv)]

/-- **Persisting does not disturb descendants.** On a database without orphaned cells, committing
the first `k` change sets of a chain leaves every read through the overlay of a longer prefix
unchanged, away from the sentinel. -/
theorem persist_preserves_descendants {q : QmdbStore} (hq : q.NoOrphans) {cs : List ChangeSet}
    (hcs : ∀ ch ∈ cs, ch.CancunFlags) {k j : ℕ} (hkj : k ≤ j) {address : Address}
    (ha : address ≠ COMMIT_SEQ_ACCOUNT_KEY) :
    reads (OverlayState.new (q.commitChanges (mergeAll (cs.take k))) (mergeAll (cs.take j)))
        address =
      reads (OverlayState.new q (mergeAll (cs.take j))) address := by
  have hs : cs.take k ++ (cs.take j).drop k = cs.take j := by
    have h := List.take_append_drop k (cs.take j)
    rwa [List.take_take, Nat.min_eq_left hkj] at h
  refine reads_overlay_commitChanges hq ha ?_
  rw [← hs]
  exact masks_mergeAll (fun ch hc => hcs ch (List.mem_of_mem_take (hs ▸ hc))) address

theorem persist_preserves_descendants_transfer :
    reads (OverlayState.new (QmdbStore.new.commitChanges
        (mergeAll ([createWriteDestroy, plainTransfer].take 1)))
        (mergeAll ([createWriteDestroy, plainTransfer].take 2))) 0xA =
      reads (OverlayState.new QmdbStore.new
        (mergeAll ([createWriteDestroy, plainTransfer].take 2))) 0xA := by
  refine persist_preserves_descendants (fun _ _ _ _ => rfl) ?_ (by decide) (by decide)
  intro ch hc
  rw [List.mem_cons, List.mem_singleton] at hc
  rcases hc with rfl | rfl
  · exact createWriteDestroy_reported.cancunFlags
  · exact plainTransfer_reported.cancunFlags

/-! ### Where orphaned cells come from -/

/-- No address but the sentinel has a non-zero cell under generation zero. -/
def QmdbStore.ZeroClean (q : QmdbStore) : Prop :=
  ∀ address, address ≠ COMMIT_SEQ_ACCOUNT_KEY → ∀ slot, (q.account address).cell 0 slot = 0

/-- An account never created writes no storage: under generation zero only a creation stores. -/
def WritesOnlyCreated (q : QmdbStore) (ch : ChangeSet) : Prop :=
  ∀ (address : Address) u, ch[address]? = some u → (q.account address).generation = 0 →
    u.created = false → ∀ slot v : U256, u.storage[slot]? = some v → v = 0

theorem QmdbStore.ZeroClean.noOrphans (h : q.ZeroClean) : q.NoOrphans :=
  fun address ha _ => h address ha

theorem newGeneration_ne_zero {g : U64} {u : AccountUpdate} (h : newGeneration g u = 0) :
    u.created = false ∧ u.selfdestructed = false ∧ g = 0 := by
  rw [newGeneration] at h
  split at h
  · exact absurd h (saturatingAdd_one_ne_zero g)
  · next hf =>
    rw [Bool.or_eq_true, not_or, Bool.not_eq_true, Bool.not_eq_true] at hf
    exact ⟨hf.1, hf.2, h⟩

theorem QmdbStore.ZeroClean.commitChanges (hq : q.ZeroClean) {ch : ChangeSet}
    (hc : WritesOnlyCreated q ch) : (q.commitChanges ch).ZeroClean := by
  intro address ha slot
  rw [account_commitChanges q ch ha]
  cases hu : ch[address]? with
  | none => exact hq address ha slot
  | some u =>
    rw [Option.elim_some, AccountState.commit_cell]
    split
    · next hgen =>
      obtain ⟨hcr, -, hzero⟩ := newGeneration_ne_zero hgen.symm
      cases hv : u.storage[slot]? with
      | none => exact hq address ha slot
      | some v => exact hc address u hu hzero hcr slot v hv
    · exact hq address ha slot

def QmdbStore.commitAll (q : QmdbStore) (cs : List ChangeSet) : QmdbStore :=
  cs.foldl QmdbStore.commitChanges q

/-- **A database filled by the EVM has no orphaned cells.** -/
theorem noOrphans_commitAll {cs : List ChangeSet}
    (h : Run.Along QmdbStore.commitChanges WritesOnlyCreated QmdbStore.new cs) :
    (QmdbStore.new.commitAll cs).NoOrphans := by
  have hcl : (QmdbStore.new.commitAll cs).ZeroClean :=
    h.invariant (fun _ _ _ => rfl) (fun _ _ hq hc => hq.commitChanges hc)
  exact hcl.noOrphans

/-- An account that is created, destroyed and created again. -/
theorem noOrphans_commitAll_recreate :
    (QmdbStore.new.commitAll [createWriteDestroy, recreate]).NoOrphans := by
  have hcreated : ∀ {value : U256} {destroyed : Bool} (q : QmdbStore),
      WritesOnlyCreated q (extractChanges (evmAccountA true destroyed value)) :=
    fun _ _ _ hu _ hc => Bool.noConfusion ((evmAccountA_update hu).2.1.symm.trans hc)
  exact noOrphans_commitAll ⟨hcreated _, hcreated _, trivial⟩

/-! ### Orphaned cells -/

/-- `0xA` written, created and destroyed: the record is gone, the first slot is not. -/
def orphanedA : QmdbStore :=
  (QmdbStore.new.commitChanges (extractChanges (evmAccountA false false 5))).commitChanges
    (extractChanges (evmAccountA true true 0))

/-- Persisting a plain transfer makes the stale slot readable under the block's snapshot. -/
theorem persist_disturbs_orphan :
    ¬ ∀ (q : QmdbStore) (cs : List ChangeSet), (∀ ch ∈ cs, ch.CancunFlags) → ∀ k j, k ≤ j →
      j ≤ cs.length → ∀ address, address ≠ COMMIT_SEQ_ACCOUNT_KEY →
        reads (OverlayState.new (q.commitChanges (mergeAll (cs.take k))) (mergeAll (cs.take j)))
            address =
          reads (OverlayState.new q (mergeAll (cs.take j))) address := by
  intro h
  have hf : ∀ ch ∈ [plainTransfer], ch.CancunFlags := by
    intro ch hc
    obtain rfl := List.mem_singleton.mp hc
    exact plainTransfer_reported.cancunFlags
  have hr := h orphanedA [plainTransfer] hf 1 1 le_rfl le_rfl 0xA (by decide)
  have hs := congrFun (congrArg AccountReads.storage hr) 1
  exact absurd hs (by decide)

end Kora
