/-
Storage across account lifetimes (`build_batches` in `storage/qmdb/src/store.rs`).

"Increment generation on recreate or selfdestruct to invalidate old storage": a slot
should read as what was last written since the account was last created or selfdestructed
(`lastWritten`). But a selfdestruct deletes the record with the generation, so the next
creation counts from zero again and meets old cells.

* `storage_isolation` — a run of commits that meet no old cells (`Isolated`) reads as
  promised;
* `Clean`, `Clean.commit` — without selfdestructs they never do.
-/
import Kora.CommitView

open Std

namespace Kora

open QmdbStore ChangeSet AccountUpdate AccountState

/-! ### The promised value -/

/-- The value last written since the last creation or selfdestruct, or zero; newest update first. -/
def lastWritten (slot : U256) : List AccountUpdate → U256
  | [] => 0
  | u :: older =>
    if u.selfdestructed then 0
    else match u.storage[slot]? with
      | some value => value
      | none => if u.created then 0 else lastWritten slot older

/-- The promised value of a slot after a history of commits, oldest first. -/
def promised (history : List ChangeSet) (address : Address) (slot : U256) : U256 :=
  lastWritten slot (updatesOf address history).reverse

/-- What one update makes of a slot that held `v`, when a new lifetime starts out with `z`. -/
def AccountUpdate.slotAfter (u : AccountUpdate) (slot z v : U256) : U256 :=
  if u.selfdestructed then 0 else (u.storage[slot]?).getD (if u.created then z else v)

theorem lastWritten_cons (slot : U256) (u : AccountUpdate) (older : List AccountUpdate) :
    lastWritten slot (u :: older) = u.slotAfter slot 0 (lastWritten slot older) := by
  rw [lastWritten, slotAfter]
  cases u.storage[slot]? <;> rfl

theorem promised_concat (history : List ChangeSet) (ch : ChangeSet) (address : Address)
    (slot : U256) :
    promised (history ++ [ch]) address slot =
      (ch[address]?).elim (promised history address slot)
        (fun u => u.slotAfter slot 0 (promised history address slot)) := by
  rw [promised, updatesOf_append]
  cases h : ch[address]? with
  | none => simp [updatesOf, h, promised]
  | some u =>
    have hl : updatesOf address [ch] = [u] := by simp [updatesOf, h]
    rw [hl, List.reverse_concat, lastWritten_cons]
    rfl

/-! ### One commit -/

theorem AccountUpdate.over_storage (u : AccountUpdate) {r : AccountReads} {slot v : U256}
    (h : r.storage slot = .ok v) : (u.over r).storage slot = .ok (u.slotAfter slot 0 v) := by
  simp only [AccountUpdate.over, slotAfter, h]
  cases u.storage[slot]? <;> cases u.selfdestructed <;> cases u.created <;> rfl

theorem AccountState.commit_slot_iff (s : AccountState) (u : AccountUpdate) :
    (∀ slot, (s.commit u).slot slot = u.slotAfter slot 0 (s.slot slot)) ↔
      u.selfdestructed = true ∨ s.Shows u := by
  cases hsd : u.selfdestructed with
  | true => simp [commit_slot_of_selfdestructed hsd, slotAfter, hsd]
  | false =>
    have hsl : ∀ slot, (s.commit u).slot slot = u.slotAfter slot 0 (s.slot slot) ↔
        (u.over (s.reads 0)).storage slot = .ok ((s.commit u).slot slot) := by
      intro slot
      rw [u.over_storage (s.reads_storage 0 slot), Except.ok.injEq, eq_comm]
    simp only [hsl, over_storage_iff hsd, Bool.false_eq_true, false_or, Shows, hsd, true_and]
    exact ⟨fun h hs slot => h slot hs, fun h slot hs => h hs slot⟩

/-- The condition on a commit: every account that it leaves alive in a new lifetime moves to a
generation that holds nothing but what the update writes, and the sentinel is not created. -/
structure Isolated (q : QmdbStore) (ch : ChangeSet) : Prop where
  accounts : ∀ (address : Address) u, address ≠ COMMIT_SEQ_ACCOUNT_KEY → ch[address]? = some u →
    u.selfdestructed = true ∨ (q.account address).Shows u
  sentinel : ∀ u, ch[COMMIT_SEQ_ACCOUNT_KEY]? = some u → u.created = false

/-! ### Without selfdestructs -/

/-- Nothing is stored ahead of the generation, nor under generation zero for an absent account. -/
structure AccountState.Clean (s : AccountState) : Prop where
  ahead : ∀ g slot, s.generation.toNat < g.toNat → s.cell g slot = 0
  absent : s.record = none → ∀ slot, s.cell 0 slot = 0

theorem generation_le_newGeneration (g : U64) (u : AccountUpdate) :
    g.toNat ≤ (newGeneration g u).toNat := by
  have hlt := g.isLt
  rw [newGeneration]
  split
  · rw [saturatingAdd_one_toNat]
    omega
  · exact le_rfl

theorem AccountState.commit_generation {u : AccountUpdate} (h : u.selfdestructed = false)
    (s : AccountState) : (s.commit u).generation = newGeneration s.generation u := by
  simp [generation, commit, h]

namespace AccountState.Clean

variable {s : AccountState} {u : AccountUpdate}

theorem shows (h : s.Clean) (hsd : u.selfdestructed = false)
    (hmax : u.created = true → s.generation.toNat < 2 ^ 64 - 1) : s.Shows u := by
  refine ⟨hsd, fun hs slot _ => ?_⟩
  cases hc : u.created with
  | true =>
    refine h.ahead _ slot ?_
    have hlt := hmax hc
    rw [newGeneration_of_created hc, saturatingAdd_one_toNat]
    omega
  | false =>
    have hr : s.record = none := hs.resolve_left (by simp [hc])
    have hzero : s.generation = 0 := by simp [generation, hr]
    rw [newGeneration_of_plain hc hsd, hzero, h.absent hr slot]

theorem commit (h : s.Clean) (hsd : u.selfdestructed = false) : (s.commit u).Clean where
  ahead g slot hg := by
    rw [commit_generation hsd] at hg
    have hle := generation_le_newGeneration s.generation u
    have hne : g ≠ newGeneration s.generation u := by
      rintro rfl
      exact lt_irrefl _ hg
    rw [commit_cell, if_neg hne]
    exact h.ahead g slot (hle.trans_lt hg)
  absent hr := by
    simp [AccountState.commit, hsd] at hr

end AccountState.Clean

/-- Every address but the sentinel is clean. -/
def QmdbStore.Clean (q : QmdbStore) : Prop :=
  ∀ address, address ≠ COMMIT_SEQ_ACCOUNT_KEY → (q.account address).Clean

/-- No account of the change set is selfdestructed. -/
def ChangeSet.Undestroyed (ch : ChangeSet) : Prop :=
  ∀ (address : Address) u, ch[address]? = some u → u.selfdestructed = false

structure ChangeSet.Lasting (ch : ChangeSet) : Prop where
  undestroyed : ch.Undestroyed
  sentinel : ∀ u, ch[COMMIT_SEQ_ACCOUNT_KEY]? = some u → u.created = false

theorem QmdbStore.Clean.new : QmdbStore.new.Clean :=
  fun _ _ => ⟨fun _ _ _ => rfl, fun _ _ => rfl⟩

variable {q : QmdbStore} {ch : ChangeSet}

theorem QmdbStore.Clean.commitChanges (hq : q.Clean) (hc : ch.Undestroyed) :
    (q.commitChanges ch).Clean := by
  intro address ha
  rw [account_commitChanges q ch ha]
  cases hu : ch[address]? with
  | none => exact hq address ha
  | some u => exact (hq address ha).commit (hc address u hu)

theorem generation_commitChanges_le (q : QmdbStore) (ch : ChangeSet) {address : Address}
    (ha : address ≠ COMMIT_SEQ_ACCOUNT_KEY) :
    ((q.commitChanges ch).account address).generation.toNat ≤
      (q.account address).generation.toNat + 1 := by
  rw [account_commitChanges q ch ha]
  cases hu : ch[address]? with
  | none => exact Nat.le_succ _
  | some u =>
    rw [Option.elim_some]
    cases hsd : u.selfdestructed with
    | true => simp [commit, generation, hsd]
    | false =>
      rw [commit_generation hsd, newGeneration]
      split
      · rw [saturatingAdd_one_toNat]
        omega
      · exact Nat.le_succ _

theorem isolated_of_lasting {cs : List ChangeSet} (hcs : ∀ ch ∈ cs, ch.Lasting)
    (hlen : cs.length < 2 ^ 64) :
    Run.Along QmdbStore.commitChanges Isolated QmdbStore.new cs := by
  -- the generations of a clean database move by one per commit, and are below `2 ^ 64` to the end
  suffices h : ∀ q : QmdbStore, q.Clean → ∀ n, n + cs.length < 2 ^ 64 →
      (∀ address, address ≠ COMMIT_SEQ_ACCOUNT_KEY →
        (q.account address).generation.toNat ≤ n) →
      Run.Along commitChanges Isolated q cs by
    exact h new .new 0 (by omega) (fun _ _ => le_rfl)
  clear hlen
  induction cs with
  | nil => exact fun _ _ _ _ _ => trivial
  | cons ch cs ih =>
    intro q hq n hn hgen
    rw [List.length_cons] at hn
    have hc := hcs ch List.mem_cons_self
    refine ⟨⟨fun address u ha hu => .inr ?_, hc.sentinel⟩, ?_⟩
    · refine (hq address ha).shows (hc.undestroyed address u hu) (fun _ => ?_)
      have hle := hgen address ha
      omega
    · refine ih (fun d hd => hcs d (List.mem_cons_of_mem ch hd)) _
        (hq.commitChanges hc.undestroyed) (n + 1) (by omega) (fun address ha => ?_)
      exact (generation_commitChanges_le q ch ha).trans (Nat.succ_le_succ (hgen address ha))

/-! ### Runs of commits -/

/-- Every slot of every address reads as promised after a history of commits. -/
def ReadsPromised (history : List ChangeSet) (q : QmdbStore) : Prop :=
  ∀ address slot, (q.account address).slot slot = promised history address slot

theorem slot_sentinel_commitChanges (hq : SentinelState q) (hf : ch.CancunFlags)
    (hc : ∀ u, ch[COMMIT_SEQ_ACCOUNT_KEY]? = some u → u.created = false) (slot : U256) :
    ((q.commitChanges ch).account COMMIT_SEQ_ACCOUNT_KEY).slot slot =
      (ch[COMMIT_SEQ_ACCOUNT_KEY]?).elim ((q.account COMMIT_SEQ_ACCOUNT_KEY).slot slot)
        (fun u => u.slotAfter slot 0 ((q.account COMMIT_SEQ_ACCOUNT_KEY).slot slot)) := by
  by_cases hne : ch = ChangeSet.new
  · simp [hne]
  rw [(hq.commitChanges ch).slot, cell_commitChanges hne (sentinel_key_ne slot), hq.slot]
  cases hu : ch[COMMIT_SEQ_ACCOUNT_KEY]? with
  | none => rfl
  | some u =>
    -- not created, hence not selfdestructed either: the update stays in generation zero
    have hcr := hc u hu
    have hsd := (hf _ u hu).not_selfdestructed hcr
    rw [Option.elim_some, Option.elim_some, commit_cell,
      newGeneration_of_plain hcr hsd, hq.generation, if_pos rfl]
    simp [slotAfter, hsd, hcr]

theorem ReadsPromised.commitChanges {history : List ChangeSet} (h : ReadsPromised history q)
    (hq : SentinelState q) (hf : ch.CancunFlags) (hc : Isolated q ch) :
    ReadsPromised (history ++ [ch]) (q.commitChanges ch) := by
  intro address slot
  rw [promised_concat, ← h address slot]
  by_cases hs : address = COMMIT_SEQ_ACCOUNT_KEY
  · subst hs
    exact slot_sentinel_commitChanges hq hf hc.sentinel slot
  · rw [account_commitChanges q ch hs]
    cases hu : ch[address]? with
    | none => rfl
    | some u =>
      exact ((q.account address).commit_slot_iff u).mpr (hc.accounts address u hs hu) slot

/-- **Storage isolation.** In every run of `Isolated` commits from a fresh database slots read as
promised. -/
theorem storage_isolation {cs : List ChangeSet} (hflags : ∀ ch ∈ cs, ch.CancunFlags)
    (hrun : Run.Along QmdbStore.commitChanges Isolated QmdbStore.new cs) (k : ℕ)
    (address : Address) (slot : U256) :
    StateDbRead.storage (QmdbStore.new.commitAll (cs.take k)) address slot =
      .ok (promised (cs.take k) address slot) := by
  have hs := (hrun.take k).and_forall (fun ch hc => hflags ch (List.mem_of_mem_take hc))
  have hinv : ReadsPromised (cs.take k) (new.commitAll (cs.take k)) ∧
      SentinelState (new.commitAll (cs.take k)) := by
    -- the sentinel's own invariant is carried along, because its record is not moved by updates
    refine hs.history (fun past q => ReadsPromised past q ∧ SentinelState q)
      ⟨fun _ _ => rfl, QmdbStore.Reachable.new.sentinelState⟩ ?_
    intro past q ch hq hc
    exact ⟨hq.1.commitChanges hq.2 hc.1 hc.2, hq.2.commitChanges ch⟩
  have hr := congrFun (congrArg AccountReads.storage
    (reads_qmdb (new.commitAll (cs.take k)) address)) slot
  rw [reads_storage, hinv.1] at hr
  exact hr

theorem storage_isolation_transfer :
    StateDbRead.storage (QmdbStore.new.commitAll ([recreate, plainTransfer].take 2)) 0xA 1 =
      .ok (promised ([recreate, plainTransfer].take 2) 0xA 1) := by
  refine storage_isolation ?_ (isolated_of_lasting ?_ (by decide)) 2 0xA 1
  · intro ch hc
    rw [List.mem_cons, List.mem_singleton] at hc
    rcases hc with rfl | rfl
    · exact recreate_reported.cancunFlags
    · exact plainTransfer_reported.cancunFlags
  · intro ch hc
    rw [List.mem_cons, List.mem_singleton] at hc
    rcases hc with rfl | rfl
    · exact ⟨fun _ _ hu => (evmAccountA_update hu).2.2,
        fun _ hu => absurd (evmAccountA_update hu).1 (by decide)⟩
    · exact ⟨fun _ _ hu => (evmAccountA_update hu).2.2,
        fun _ hu => absurd (evmAccountA_update hu).1 (by decide)⟩

/-- Created, written and destroyed, then created plainly: slot `1` was not written since, and reads
`5`. -/
theorem storage_isolation_broken :
    ¬ ∀ cs : List ChangeSet, (∀ ch ∈ cs, ch.CancunFlags) → ∀ address slot,
      StateDbRead.storage (QmdbStore.new.commitAll cs) address slot =
        .ok (promised cs address slot) := by
  intro h
  have hr := h [createWriteDestroy, createEmpty] ?_ 0xA 1
  · exact absurd hr (by decide)
  · intro ch hc
    rw [List.mem_cons, List.mem_singleton] at hc
    rcases hc with rfl | rfl
    · exact createWriteDestroy_reported.cancunFlags
    · exact createEmpty_reported.cancunFlags

end Kora
