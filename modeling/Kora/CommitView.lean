/-
An overlay against the commit it stands for.

Depending on checkpoint timing the same block is executed over an overlay on one node and
over QMDB on another, so an overlay has to show what a commit of its change set would
store.

* `overlay_shows_commit_iff` — the two agree at an address exactly when `ShowsCommit`
  holds: the account is not selfdestructed, and the generation it moves to holds no stale
  slot.
-/
import Kora.Frame

open Std

namespace Kora

open QmdbStore ChangeSet

/-- The databases that commits of reported change sets reach from a fresh one. -/
inductive QmdbStore.Reachable : QmdbStore → Prop
  | new : Reachable QmdbStore.new
  | commit {q : QmdbStore} {ch : ChangeSet} : Reachable q → ch.CancunFlags →
      Reachable (q.commitChanges ch)

/-! ### The sentinel -/

theorem sentinel_key_ne (slot : U256) :
    (⟨COMMIT_SEQ_ACCOUNT_KEY, 0, slot⟩ : StorageKey) ≠ COMMIT_SEQ_STORAGE_KEY := by
  intro h
  have hgen : (0 : U64) = BitVec.allOnes 64 := congrArg StorageKey.generation h
  exact absurd hgen (by decide)

def SentinelState (q : QmdbStore) : Prop :=
  (q.record COMMIT_SEQ_ACCOUNT_KEY = none ∧ q.commitSeq = 0 ∧
    ∀ slot, (q.account COMMIT_SEQ_ACCOUNT_KEY).cell 0 slot = 0) ∨
  q.record COMMIT_SEQ_ACCOUNT_KEY = some ⟨q.commitSeq, 0, 0, 0⟩

variable {q : QmdbStore} {ch : ChangeSet}

theorem record_sentinel_commitChanges (hc : ch ≠ ChangeSet.new) :
    (q.commitChanges ch).record COMMIT_SEQ_ACCOUNT_KEY =
      some ⟨q.commitSeq.saturatingAdd 1, 0, 0, 0⟩ := by
  rw [record_commitChanges hc, if_pos rfl]

theorem commitSeq_commitChanges (hc : ch ≠ ChangeSet.new) :
    (q.commitChanges ch).commitSeq = q.commitSeq.saturatingAdd 1 := by
  rw [commitChanges_of_ne_new hc]
  rfl

theorem SentinelState.commitChanges (h : SentinelState q) (ch : ChangeSet) :
    SentinelState (q.commitChanges ch) := by
  by_cases hc : ch = ChangeSet.new
  · rwa [hc, commitChanges_new]
  · right
    rw [record_sentinel_commitChanges hc, commitSeq_commitChanges hc]

theorem QmdbStore.Reachable.sentinelState (h : q.Reachable) : SentinelState q := by
  induction h with
  | new => exact .inl ⟨rfl, rfl, fun _ => rfl⟩
  | commit _ _ ih => exact ih.commitChanges _

theorem SentinelState.generation (h : SentinelState q) :
    (q.account COMMIT_SEQ_ACCOUNT_KEY).generation = 0 := by
  rcases h with ⟨hnone, -, -⟩ | hsome
  · simp [AccountState.generation, hnone]
  · simp [AccountState.generation, hsome]

theorem SentinelState.slot (h : SentinelState q) (slot : U256) :
    (q.account COMMIT_SEQ_ACCOUNT_KEY).slot slot =
      (q.account COMMIT_SEQ_ACCOUNT_KEY).cell 0 slot := by
  have hgen := h.generation
  rcases h with ⟨hnone, -, hzero⟩ | hsome
  · rw [AccountState.slot_of_record_none hnone, hzero]
  · rw [AccountState.slot_of_record hsome, hgen]

/-! ### Where the two read paths agree -/

/-- The update does not selfdestruct the account, and where a lifetime starts (a creation, or no
record) the generation it moves to holds nothing but what the update writes. -/
def AccountState.Shows (s : AccountState) (u : AccountUpdate) : Prop :=
  u.selfdestructed = false ∧
    (u.created = true ∨ s.record = none → ∀ slot : U256, u.storage[slot]? = none →
      s.cell (newGeneration s.generation u) slot = 0)

/-- An untouched marker is at its last value; an update of it is the next marker itself. -/
def ShowsMarker (q : QmdbStore) : Option AccountUpdate → Prop
  | none => q.commitSeq.saturatingAdd 1 = q.commitSeq
  | some u => u.nonce = q.commitSeq.saturatingAdd 1 ∧ u.balance = 0 ∧ u.codeHash = 0 ∧
      (u.created = true → ∀ slot : U256,
        (if u.selfdestructed then 0 else (u.storage[slot]?).getD 0) =
          (q.account COMMIT_SEQ_ACCOUNT_KEY).cell 0 slot)

def ShowsCommit (q : QmdbStore) (ch : ChangeSet) (address : Address) : Prop :=
  ch = ChangeSet.new ∨
    if address = COMMIT_SEQ_ACCOUNT_KEY then ShowsMarker q ch[address]?
    else ∀ u, ch[address]? = some u → (q.account address).Shows u

variable {u : AccountUpdate}

theorem AccountState.over_storage_iff {s : AccountState} (hsd : u.selfdestructed = false)
    (address : Address) (slot : U256) :
    (u.over (s.reads address)).storage slot = .ok ((s.commit u).slot slot) ↔
      (u.created = true ∨ s.record = none → u.storage[slot]? = none →
        s.cell (newGeneration s.generation u) slot = 0) := by
  rw [commit_slot hsd]
  simp only [AccountUpdate.over, hsd, reads_storage]
  cases hv : u.storage[slot]?
  case some => simp
  cases hc : u.created
  case true => simp [eq_comm]
  -- the read falls through to the base, where only an absent account reads differently
  have hgen := newGeneration_of_plain hc hsd s.generation
  cases hr : s.record with
  | none => simp [slot_of_record_none hr, hgen, eq_comm]
  | some r => simp [slot_of_record hr, hgen]

theorem AccountState.over_reads_iff (s : AccountState) (u : AccountUpdate) (address : Address) :
    u.over (s.reads address) = (s.commit u).reads address ↔ s.Shows u := by
  cases hsd : u.selfdestructed with
  | true =>
    constructor
    · intro h
      have hn := congrArg AccountReads.nonce h
      simp [AccountUpdate.over, reads, commit, hsd] at hn
    · intro h
      exact absurd h.1 (by simp [hsd])
  | false =>
    rw [commit_reads hsd]
    constructor
    · intro h
      refine ⟨hsd, fun hs slot hsl => ?_⟩
      have hr := congrFun (congrArg AccountReads.storage h) slot
      exact (over_storage_iff hsd address slot).mp hr hs hsl
    · intro h
      ext1
      · rfl
      · rfl
      · rfl
      · funext slot
        exact (over_storage_iff hsd address slot).mpr (fun hs hsl => h.2 hs slot hsl)

/-! ### The sentinel address, read both ways -/

theorem reads_sentinel_commitChanges (hc : ch ≠ ChangeSet.new) :
    reads (q.commitChanges ch) COMMIT_SEQ_ACCOUNT_KEY =
      ⟨.ok (q.commitSeq.saturatingAdd 1), .ok 0, .ok 0, fun slot => .ok
        ((ch[COMMIT_SEQ_ACCOUNT_KEY]?).elim ((q.account COMMIT_SEQ_ACCOUNT_KEY).cell 0 slot)
          (fun u => ((q.account COMMIT_SEQ_ACCOUNT_KEY).commit u).cell 0 slot))⟩ := by
  rw [reads_qmdb, AccountState.reads, account_record, record_sentinel_commitChanges hc]
  simp only [cell_commitChanges hc (sentinel_key_ne _)]

theorem SentinelState.reads {r : AccountRecord} (h : SentinelState q)
    (hr : q.record COMMIT_SEQ_ACCOUNT_KEY = some r) :
    Kora.reads q COMMIT_SEQ_ACCOUNT_KEY =
      ⟨.ok q.commitSeq, .ok 0, .ok 0,
        fun slot => .ok ((q.account COMMIT_SEQ_ACCOUNT_KEY).cell 0 slot)⟩ := by
  rcases h with ⟨hnone, -, -⟩ | hsome
  · rw [hnone] at hr
    exact absurd hr (by simp)
  · rw [reads_qmdb, AccountState.reads, account_record, hsome]

theorem sentinel_untouched_iff (hq : SentinelState q) (hc : ch ≠ ChangeSet.new)
    (hu : ch[COMMIT_SEQ_ACCOUNT_KEY]? = none) :
    reads q COMMIT_SEQ_ACCOUNT_KEY = reads (q.commitChanges ch) COMMIT_SEQ_ACCOUNT_KEY ↔
      q.commitSeq.saturatingAdd 1 = q.commitSeq := by
  rw [reads_sentinel_commitChanges hc, hu]
  cases hr : q.record COMMIT_SEQ_ACCOUNT_KEY with
  | none =>
    -- before the first commit there is no marker, and the sequence cannot stand still at zero
    have hseq : q.commitSeq = 0 := by
      rcases hq with ⟨-, hzero, -⟩ | hsome
      · exact hzero
      · rw [hr] at hsome
        exact absurd hsome (by simp)
    constructor
    · intro h
      have hn := congrArg AccountReads.nonce h
      rw [reads_qmdb, AccountState.reads, account_record, hr] at hn
      exact absurd hn (by simp)
    · intro h
      rw [hseq] at h
      exact absurd h (by decide)
  | some r =>
    rw [hq.reads hr]
    constructor
    · intro h
      exact (Except.ok.inj (congrArg AccountReads.nonce h)).symm
    · intro h
      rw [h]
      rfl

/-- A slot of an update of the sentinel. The marker brings back generation zero, so what the update
created is not read. -/
theorem sentinel_slot_iff (hq : SentinelState q) (hf : u.CancunFlags) (slot : U256) :
    (u.over (reads q COMMIT_SEQ_ACCOUNT_KEY)).storage slot =
        .ok (((q.account COMMIT_SEQ_ACCOUNT_KEY).commit u).cell 0 slot) ↔
      (u.created = true → (if u.selfdestructed then 0 else (u.storage[slot]?).getD 0) =
        (q.account COMMIT_SEQ_ACCOUNT_KEY).cell 0 slot) := by
  rw [AccountState.commit_cell, hq.generation]
  simp only [AccountUpdate.over, reads_qmdb, AccountState.reads_storage, hq.slot]
  cases hcr : u.created with
  | true =>
    have hne : (0 : U64) ≠ (0 : U64).saturatingAdd 1 := by decide
    rw [newGeneration_of_created hcr, if_neg hne]
    cases u.selfdestructed <;> cases u.storage[slot]? <;> simp
  | false =>
    have hsd := hf.not_selfdestructed hcr
    rw [newGeneration_of_plain hcr hsd, hsd]
    cases u.storage[slot]? <;> simp

theorem sentinel_touched_iff (hq : SentinelState q) (hc : ch ≠ ChangeSet.new)
    (hu : ch[COMMIT_SEQ_ACCOUNT_KEY]? = some u) (hf : u.CancunFlags) :
    u.over (reads q COMMIT_SEQ_ACCOUNT_KEY) =
        reads (q.commitChanges ch) COMMIT_SEQ_ACCOUNT_KEY ↔ ShowsMarker q (some u) := by
  rw [reads_sentinel_commitChanges hc, hu]
  constructor
  · intro h
    refine ⟨Except.ok.inj (congrArg AccountReads.nonce h),
      Except.ok.inj (congrArg AccountReads.balance h),
      Except.ok.inj (congrArg AccountReads.codeHash h), fun hcr slot => ?_⟩
    have hr := congrFun (congrArg AccountReads.storage h) slot
    exact (sentinel_slot_iff hq hf slot).mp hr hcr
  · rintro ⟨hn, hb, hcd, hs⟩
    ext1
    · exact congrArg Except.ok hn
    · exact congrArg Except.ok hb
    · exact congrArg Except.ok hcd
    · funext slot
      exact (sentinel_slot_iff hq hf slot).mpr (fun hcr => hs hcr slot)

/-- **An overlay shows what a commit would store iff `ShowsCommit`**, for reachable databases and
reported changes. -/
theorem overlay_shows_commit_iff {q : QmdbStore} (hq : q.Reachable) {ch : ChangeSet}
    (hc : ch.CancunFlags) (address : Address) :
    reads (OverlayState.new q ch) address = reads (q.commitChanges ch) address ↔
      ShowsCommit q ch address := by
  rw [ShowsCommit, reads_overlay]
  by_cases hne : ch = ChangeSet.new
  · simp [hne]
  rw [or_iff_right hne]
  split
  · next hs =>
    subst hs
    cases hu : ch[COMMIT_SEQ_ACCOUNT_KEY]? with
    | none => exact sentinel_untouched_iff hq.sentinelState hne hu
    | some u => exact sentinel_touched_iff hq.sentinelState hne hu (hc _ u hu)
  · next hs =>
    rw [reads_qmdb, reads_qmdb, account_commitChanges q ch hs]
    cases hu : ch[address]? with
    | none => simp
    | some u => simpa using (q.account address).over_reads_iff u address

theorem overlay_shows_commit_iff_recreate :
    reads (OverlayState.new QmdbStore.new recreate) 0xA =
      reads (QmdbStore.new.commitChanges recreate) 0xA := by
  refine (overlay_shows_commit_iff .new recreate_reported.cancunFlags 0xA).mpr (.inr ?_)
  rw [if_neg (by decide)]
  intro u hu
  obtain ⟨-, -, hsd⟩ := evmAccountA_update hu
  exact ⟨hsd, fun _ _ _ => rfl⟩

/-- After the creation and selfdestruct of `0xA`, only the overlay still has the account. -/
theorem overlay_hides_selfdestruct :
    ¬ ∀ (q : QmdbStore) (ch : ChangeSet), q.Reachable → ch.CancunFlags → ∀ address,
      reads (OverlayState.new q ch) address = reads (q.commitChanges ch) address := by
  intro h
  have hr := h QmdbStore.new createWriteDestroy .new
    createWriteDestroy_reported.cancunFlags 0xA
  exact absurd (congrArg AccountReads.nonce hr) (by decide)

end Kora
