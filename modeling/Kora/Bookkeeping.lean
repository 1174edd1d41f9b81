/-
The commit markers against what the EVM reads.

Every commit writes its sequence number under a sentinel key of each partition, in the
same key space as accounts, storage and code. The markers are invisible when no read tells
the commit from one without them (`commitUnmarked`).

* `AgreesOff.run` — away from the sentinel address and the marker's code hash they always
  are;
* `bookkeeping_invisible_iff` — when they are invisible altogether.
-/
import Kora.CommitView
import Kora.Run

open Std

namespace Kora

open QmdbStore ChangeSet KeyValueStore QmdbHandle

/-- A commit as it would be without the markers. -/
def QmdbStore.commitUnmarked (self : QmdbStore) (changes : ChangeSet) : QmdbStore :=
  let batches := self.buildBatches changes
  { self with
    stores :=
      { accounts := self.stores.accounts.writeBatch batches.accounts
        storage := self.stores.storage.writeBatch batches.storage
        code := self.stores.code.writeBatch batches.code } }

theorem account_commitUnmarked (q : QmdbStore) (ch : ChangeSet) (address : Address) :
    (q.commitUnmarked ch).account address =
      (ch[address]?).elim (q.account address) (q.account address).commit := by
  ext1
  · show (q.stores.accounts.writeBatch (q.buildBatches ch).accounts address).bind
      (fun bytes => AccountEncoding.decode bytes.1) = _
    rw [record_writeBatch]
    cases ch[address]? <;> rfl
  · funext g slot
    show (q.stores.storage.writeBatch (q.buildBatches ch).storage ⟨address, g, slot⟩).getD 0 = _
    rw [cell_writeBatch]
    cases ch[address]? <;> rfl

@[simp] theorem commitUnmarked_new (q : QmdbStore) : q.commitUnmarked ChangeSet.new = q := by
  have he : q.buildBatches ChangeSet.new = StoreBatches.new := by
    rw [buildBatches]
    rfl
  rw [commitUnmarked, he]
  rfl

theorem code_buildBatches (q q' : QmdbStore) (ch : ChangeSet) :
    (q.buildBatches ch).code = (q'.buildBatches ch).code := by
  rw [buildBatches_eq, buildBatches_eq]

variable {q : QmdbStore}

theorem code_commitChanges_of_ne {ch : ChangeSet} {hash : B256} (hne : hash ≠ COMMIT_SEQ_CODE_KEY) :
    (q.commitChanges ch).stores.code hash = (q.commitUnmarked ch).stores.code hash := by
  by_cases hc : ch = ChangeSet.new
  · rw [hc, commitChanges_new, commitUnmarked_new]
  · rw [commitChanges_of_ne_new hc, applyBatches]
    dsimp only
    rw [writeBatch_concat, write_of_ne _ hne.symm]
    rfl

theorem code_marker {ch : ChangeSet} (hc : ch ≠ ChangeSet.new) :
    (q.commitChanges ch).stores.code COMMIT_SEQ_CODE_KEY =
      some (encodeCommitSeqCode (q.commitSeq.saturatingAdd 1)) := by
  rw [commitChanges_of_ne_new hc, applyBatches]
  dsimp only
  rw [writeBatch_concat, write_self]

/-! ### Away from the markers -/

/-- Two databases agree off the sentinel address and the marker's code hash. -/
structure AgreesOff (q q' : QmdbStore) : Prop where
  account : ∀ address, address ≠ COMMIT_SEQ_ACCOUNT_KEY → q.account address = q'.account address
  code : ∀ hash, hash ≠ COMMIT_SEQ_CODE_KEY → q.stores.code hash = q'.stores.code hash

variable {q' : QmdbStore}

theorem AgreesOff.commit (h : AgreesOff q q') (ch : ChangeSet) :
    AgreesOff (q.commitChanges ch) (q'.commitUnmarked ch) where
  account address hne := by
    rw [account_commitChanges q ch hne, account_commitUnmarked, h.account address hne]
  code hash hne := by
    rw [code_commitChanges_of_ne hne]
    show q.stores.code.writeBatch (q.buildBatches ch).code hash =
      q'.stores.code.writeBatch (q'.buildBatches ch).code hash
    rw [code_buildBatches q q' ch]
    exact writeBatch_congr (h.code hash hne) _

theorem AgreesOff.run (q : QmdbStore) (chs : List ChangeSet) :
    AgreesOff (chs.foldl commitChanges q) (chs.foldl commitUnmarked q) := by
  suffices h : ∀ q', AgreesOff q q' →
      AgreesOff (chs.foldl commitChanges q) (chs.foldl commitUnmarked q') from
    h q ⟨fun _ _ => rfl, fun _ _ => rfl⟩
  induction chs generalizing q with
  | nil => exact fun q' h => h
  | cons ch chs ih => exact fun q' h => ih (q.commitChanges ch) (q'.commitUnmarked ch) (h.commit ch)

/-! ### When the markers are invisible -/

/-- No account, storage or code read tells the two databases apart. -/
def Invisible (marked unmarked : QmdbStore) : Prop :=
  (∀ address, reads marked address = reads unmarked address) ∧
    ∀ hash, StateDbRead.code marked hash = StateDbRead.code unmarked hash

theorem code_read_marker_iff :
    StateDbRead.code q COMMIT_SEQ_CODE_KEY = StateDbRead.code q' COMMIT_SEQ_CODE_KEY ↔
      q.stores.code COMMIT_SEQ_CODE_KEY = q'.stores.code COMMIT_SEQ_CODE_KEY := by
  have hr : ∀ q : QmdbStore, StateDbRead.code q COMMIT_SEQ_CODE_KEY =
      (q.stores.code COMMIT_SEQ_CODE_KEY).elim
        (.error (.codeNotFound COMMIT_SEQ_CODE_KEY)) Except.ok := by
    intro q
    show code q COMMIT_SEQ_CODE_KEY = _
    rw [code, if_neg (by decide), getCode]
    cases q.stores.code COMMIT_SEQ_CODE_KEY <;> rfl
  rw [hr, hr]
  cases q.stores.code COMMIT_SEQ_CODE_KEY <;> cases q'.stores.code COMMIT_SEQ_CODE_KEY <;> simp

theorem code_read_congr {hash : B256} (h : q.stores.code hash = q'.stores.code hash) :
    StateDbRead.code q hash = StateDbRead.code q' hash := by
  show code q hash = code q' hash
  rw [code, code, getCode, getCode, h]

theorem AgreesOff.invisible_iff (h : AgreesOff q q') :
    Invisible q q' ↔
      reads q COMMIT_SEQ_ACCOUNT_KEY = reads q' COMMIT_SEQ_ACCOUNT_KEY ∧
        q.stores.code COMMIT_SEQ_CODE_KEY = q'.stores.code COMMIT_SEQ_CODE_KEY := by
  constructor
  · rintro ⟨hr, hc⟩
    exact ⟨hr COMMIT_SEQ_ACCOUNT_KEY, code_read_marker_iff.1 (hc COMMIT_SEQ_CODE_KEY)⟩
  · rintro ⟨hr, hc⟩
    refine ⟨fun address => ?_, fun hash => ?_⟩
    · by_cases ha : address = COMMIT_SEQ_ACCOUNT_KEY
      · rw [ha]
        exact hr
      · rw [reads_qmdb, reads_qmdb, h.account address ha]
    · by_cases hh : hash = COMMIT_SEQ_CODE_KEY
      · rw [hh]
        exact code_read_marker_iff.2 hc
      · exact code_read_congr (h.code hash hh)

/-- What the next marker will show at the sentinel: its number as nonce, and the slots of generation
zero. -/
def markerReads (q : QmdbStore) (ch : ChangeSet) : AccountReads :=
  ⟨.ok (q.commitSeq.saturatingAdd 1), .ok 0, .ok 0, fun slot => .ok
    ((ch[COMMIT_SEQ_ACCOUNT_KEY]?).elim ((q.account COMMIT_SEQ_ACCOUNT_KEY).cell 0 slot)
      (fun u => ((q.account COMMIT_SEQ_ACCOUNT_KEY).commit u).cell 0 slot))⟩

/-- The change set is empty, or by itself leaves at the sentinel exactly what the marker says. -/
def Mirrors (dbs : QmdbStore × QmdbStore) (ch : ChangeSet) : Prop :=
  ch = ChangeSet.new ∨
    reads (dbs.2.commitUnmarked ch) COMMIT_SEQ_ACCOUNT_KEY = markerReads dbs.1 ch ∧
      (dbs.2.commitUnmarked ch).stores.code COMMIT_SEQ_CODE_KEY =
        some (encodeCommitSeqCode (dbs.1.commitSeq.saturatingAdd 1))

def commitBoth (dbs : QmdbStore × QmdbStore) (ch : ChangeSet) : QmdbStore × QmdbStore :=
  (dbs.1.commitChanges ch, dbs.2.commitUnmarked ch)

theorem invisible_step_iff {dbs : QmdbStore × QmdbStore} (ha : AgreesOff dbs.1 dbs.2)
    (h : Invisible dbs.1 dbs.2) (ch : ChangeSet) :
    Invisible (commitBoth dbs ch).1 (commitBoth dbs ch).2 ↔ Mirrors dbs ch := by
  by_cases hc : ch = ChangeSet.new
  · have hs : commitBoth dbs ch = dbs := by
      rw [commitBoth, hc, commitChanges_new, commitUnmarked_new]
    rw [hs]
    exact iff_of_true h (.inl hc)
  · show Invisible (dbs.1.commitChanges ch) (dbs.2.commitUnmarked ch) ↔ _
    rw [(ha.commit ch).invisible_iff, Mirrors, or_iff_right hc]
    rw [reads_sentinel_commitChanges hc, code_marker hc]
    exact and_congr eq_comm eq_comm

theorem foldl_commitBoth (chs : List ChangeSet) (q q' : QmdbStore) :
    chs.foldl commitBoth (q, q') = (chs.foldl commitChanges q, chs.foldl commitUnmarked q') := by
  induction chs generalizing q q' with
  | nil => rfl
  | cons ch chs ih => exact ih (q.commitChanges ch) (q'.commitUnmarked ch)

/-- **When commit bookkeeping is invisible.** Away from the sentinel address and the marker's code
hash always; everywhere, after each commit, exactly if every change set that is not empty leaves
under these two what its marker says. -/
theorem bookkeeping_invisible_iff (q : QmdbStore) (chs : List ChangeSet) :
    ((∀ address, address ≠ COMMIT_SEQ_ACCOUNT_KEY →
        reads (chs.foldl commitChanges q) address = reads (chs.foldl commitUnmarked q) address) ∧
      ∀ hash, hash ≠ COMMIT_SEQ_CODE_KEY →
        StateDbRead.code (chs.foldl commitChanges q) hash =
          StateDbRead.code (chs.foldl commitUnmarked q) hash) ∧
    ((∀ k, Invisible ((chs.take k).foldl commitChanges q) ((chs.take k).foldl commitUnmarked q)) ↔
      Run.Along commitBoth Mirrors (q, q) chs) := by
  have ha := AgreesOff.run q chs
  refine ⟨⟨fun address hne => ?_, fun hash hne => code_read_congr (ha.code hash hne)⟩, ?_⟩
  · rw [reads_qmdb, reads_qmdb, ha.account address hne]
  · have hk : ∀ (dbs : QmdbStore × QmdbStore) (ch : ChangeSet), AgreesOff dbs.1 dbs.2 →
        AgreesOff (commitBoth dbs ch).1 (commitBoth dbs ch).2 := fun _ ch h => h.commit ch
    have hs : ∀ (dbs : QmdbStore × QmdbStore) (ch : ChangeSet), AgreesOff dbs.1 dbs.2 →
        Invisible dbs.1 dbs.2 →
        (Invisible (commitBoth dbs ch).1 (commitBoth dbs ch).2 ↔ Mirrors dbs ch) :=
      fun _ ch hoff h => invisible_step_iff hoff h ch
    have hrun := Run.forall_take_iff (Q := fun dbs : QmdbStore × QmdbStore =>
      Invisible dbs.1 dbs.2) hk hs (s := (q, q)) ⟨fun _ _ => rfl, fun _ _ => rfl⟩
      ⟨fun _ => rfl, fun _ => rfl⟩ chs
    rw [← hrun]
    simp only [foldl_commitBoth]

/-- A change set that credits 5 to the sentinel address. -/
def creditSentinel : ChangeSet :=
  ChangeSet.new.insert COMMIT_SEQ_ACCOUNT_KEY ⟨false, false, 0, 5, KECCAK256_EMPTY, none, ∅⟩

/-- A transfer of 5 to the sentinel: the balance is 5 without markers, and 0 with them. -/
theorem transfer_to_sentinel_lost :
    ¬ ∀ (q : QmdbStore) (chs : List ChangeSet),
      Invisible (chs.foldl commitChanges q) (chs.foldl commitUnmarked q) := by
  intro h
  have hr := (h QmdbStore.new [creditSentinel]).1 COMMIT_SEQ_ACCOUNT_KEY
  exact absurd (congrArg AccountReads.balance hr) (by decide +kernel)

end Kora
