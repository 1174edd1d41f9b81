/-
Torn commits (`apply_batches`, `read_partition_commit_seqs` and `is_consistent` of
`storage/qmdb/src/store.rs`, `QmdbLedger::init_with_genesis`).

A commit writes its three partitions one after the other, each with the commit number
last. A crash in between leaves partitions of two commits, and the next start compares
their numbers.

* `Tracks.run` — the disk holds all commits, or all but the torn last one;
* `torn_commit_detected` — the check accepts exactly the databases that are not torn.
-/
import Kora.Genesis
import Kora.Cadence

open Std List

namespace Kora

open QmdbStore

/-- The database after some commits to a fresh one. -/
def committed (commits : List ChangeSet) : QmdbStore := QmdbStore.new.commitAll commits

theorem committed_concat (commits : List ChangeSet) (ch : ChangeSet) :
    committed (commits ++ [ch]) = (committed commits).commitChanges ch := by
  rw [committed, commitAll, foldl_append]
  rfl

/-- A change set as a commit; an empty one is none. -/
def asCommit (changes : ChangeSet) : List ChangeSet :=
  if changes = ChangeSet.new then [] else [changes]

theorem committed_append_asCommit (commits : List ChangeSet) (ch : ChangeSet) :
    committed (commits ++ asCommit ch) = (committed commits).commitChanges ch := by
  rw [asCommit]
  split_ifs with he
  · rw [he, commitChanges_new, append_nil]
  · exact committed_concat commits ch

/-! ### The markers of a committed database -/

theorem memory_committed (commits : List ChangeSet) :
    (committed commits).stores.commitSeqs.isConsistent = true ∧
      (committed commits).commitSeq = (committed commits).stores.commitSeq := by
  induction commits using List.reverseRecOn with
  | nil => exact ⟨rfl, rfl⟩
  | append_singleton commits ch ih =>
    rw [committed_concat]
    exact commitChanges_memory ih.1 ih.2 ch

theorem openStores_committed (commits : List ChangeSet) :
    openStores (committed commits).stores = .ok (committed commits) := by
  obtain ⟨hok, hseq⟩ := memory_committed commits
  rw [openStores, if_pos hok, ← hseq]

variable {commits : List ChangeSet}

theorem commitSeq_committed (hne : ∀ ch ∈ commits, ch ≠ ChangeSet.new)
    (hb : commits.length < 2 ^ 64 - 1) :
    (committed commits).commitSeq.toNat = commits.length := by
  have hc : commits.countP (fun ch => decide (ch ≠ ChangeSet.new)) = commits.length := by
    rw [countP_eq_length]
    exact fun ch hch => decide_eq_true (hne ch hch)
  rw [committed, commitSeq_commitAll, hc]
  show min (0 + commits.length) (2 ^ 64 - 1) = _
  omega

theorem code_marker_committed (hne : ∀ ch ∈ commits, ch ≠ ChangeSet.new) :
    (committed commits).stores.commitSeqs.code = none ∨
      (committed commits).stores.commitSeqs.code = some (committed commits).commitSeq := by
  rcases eq_nil_or_concat commits with rfl | ⟨earlier, ch, rfl⟩
  · exact .inl rfl
  · have hch : ch ≠ ChangeSet.new := hne ch (by simp)
    rw [concat_eq_append, committed_concat, (commitSeqs_commitChanges hch).1,
      (commitSeqs_commitChanges hch).2]
    exact .inr rfl

/-- **The check refuses a torn database**: the accounts carry the new number and the code does
not. -/
theorem isConsistent_crashDuring {ch : ChangeSet} {written : ℕ}
    (hne : ∀ ch' ∈ commits ++ [ch], ch' ≠ ChangeSet.new)
    (hb : (commits ++ [ch]).length < 2 ^ 64 - 1) (hlow : 1 ≤ written) (hh : written < 3) :
    ((committed commits).crashDuring ch written).commitSeqs.isConsistent = false := by
  have hch : ch ≠ ChangeSet.new := hne ch (mem_append_right _ mem_cons_self)
  have he : ∀ ch' ∈ commits, ch' ≠ ChangeSet.new :=
    fun ch' hch' => hne ch' (mem_append_left _ hch')
  rw [length_append, length_singleton] at hb
  rw [← Bool.not_eq_true, PartitionCommitSeqs.isConsistent_iff]
  rintro ⟨o, ho⟩
  rw [commitSeqs_crashDuring hch, if_pos hlow, if_neg (by omega : ¬ 3 ≤ written)] at ho
  obtain ⟨ha, -, hc⟩ := PartitionCommitSeqs.mk.inj ho
  have hs := hc.trans ha.symm
  rcases code_marker_committed he with hnone | hsome
  · rw [hnone] at hs
    cases hs
  · rw [hsome] at hs
    have hnat := congrArg BitVec.toNat (Option.some.inj hs)
    rw [saturatingAdd_one_toNat, commitSeq_committed he (by omega)] at hnat
    omega

/-! ### Following the commits of a machine -/

namespace Machine

variable (allocs : List (Address × U256))

/-- The commit that an event begins to write. -/
def begun (self : Machine) : Event → List ChangeSet
  | .start =>
    match self.running, openStores self.stores with
    | none, .ok _ => if self.archived then [] else asCommit (genesisChanges allocs)
    | _, _ => []
  | .startCrash written =>
    match self.running, openStores self.stores with
    | none, .ok _ =>
      if self.archived ∨ written = 0 then [] else asCommit (genesisChanges allocs)
    | _, _ => []
  | .commit changes => if self.running.isSome then asCommit changes else []
  | .commitCrash changes written =>
    if self.running.isSome ∧ written ≠ 0 then asCommit changes else []
  | .archive => []
  | .stop => []

/-- The commits that the events of a machine have begun to write. -/
def commitsOf : Machine → List Event → List ChangeSet
  | _, [] => []
  | self, event :: events =>
    self.begun allocs event ++ commitsOf (self.step allocs event) events

/-- The disk holds all commits, and a running process has the number of the last. -/
def Whole (commits : List ChangeSet) (m : Machine) : Prop :=
  m.stores = (committed commits).stores ∧
    ∀ seq, m.running = some seq → seq = (committed commits).commitSeq

/-- The process has died in the middle of the last commit. -/
def Torn (commits : List ChangeSet) (m : Machine) : Prop :=
  m.running = none ∧ ∃ earlier ch written, commits = earlier ++ [ch] ∧ 1 ≤ written ∧ written < 3 ∧
    m.stores = (committed earlier).crashDuring ch written

/-- What the commits begun so far say about the machine. -/
structure Tracks (commits : List ChangeSet) (m : Machine) : Prop where
  nonempty : ∀ ch ∈ commits, ch ≠ ChangeSet.new
  disk : Whole commits m ∨ Torn commits m

namespace Tracks

variable {allocs} {m : Machine} {commits : List ChangeSet}

section

variable (hne : ∀ ch ∈ commits, ch ≠ ChangeSet.new)
include hne

theorem nonempty_append (ch : ChangeSet) : ∀ ch' ∈ commits ++ asCommit ch, ch' ≠ ChangeSet.new := by
  intro ch' hch'
  rcases mem_append.1 hch' with he | hl
  · exact hne ch' he
  · rw [asCommit] at hl
    split_ifs at hl with hem
    · cases hl
    · rw [mem_singleton.1 hl]
      exact hem

theorem commit (archived : Bool) (ch : ChangeSet) :
    Tracks (commits ++ asCommit ch)
      ⟨((committed commits).commitChanges ch).stores, archived,
        some ((committed commits).commitChanges ch).commitSeq⟩ := by
  refine ⟨nonempty_append hne ch, .inl ⟨?_, fun seq hseq => ?_⟩⟩
  · rw [committed_append_asCommit]
  · rw [committed_append_asCommit]
    exact (Option.some.inj hseq).symm

omit hne in
theorem down (number : U64) (seq : U64) (h : (none : Option U64) = some seq) : seq = number := by
  cases h

theorem crash (archived : Bool) (ch : ChangeSet) (written : ℕ) :
    Tracks (commits ++ if written = 0 then [] else asCommit ch)
      ⟨(committed commits).crashDuring ch written, archived, none⟩ := by
  by_cases he : ch = ChangeSet.new
  · have hnone : (if written = 0 then [] else asCommit ch) = [] := by simp [asCommit, he]
    rw [hnone, append_nil, he, crashDuring_new]
    exact ⟨hne, .inl ⟨rfl, down _⟩⟩
  have hc : asCommit ch = [ch] := if_neg he
  rcases Nat.eq_zero_or_pos written with rfl | hpos
  · rw [if_pos rfl, append_nil]
    exact ⟨hne, .inl ⟨rfl, down _⟩⟩
  rw [if_neg (by omega)]
  refine ⟨nonempty_append hne ch, ?_⟩
  rcases Nat.lt_or_ge written 3 with hlt | hge
  · exact .inr ⟨rfl, commits, ch, written, by rw [hc], hpos, hlt, rfl⟩
  · -- all three partitions are written
    refine .inl ⟨?_, down _⟩
    rw [committed_append_asCommit]
    show (committed commits).crashDuring ch written = _
    rw [crashDuring, if_pos (by omega), if_pos (by omega), if_pos hge]

theorem openStores_torn (hb : commits.length < 2 ^ 64 - 1) (h : Torn commits m) :
    openStores m.stores = .error m.stores.commitSeqs := by
  obtain ⟨-, earlier, ch, written, rfl, hlow, hh, hs⟩ := h
  have hr := isConsistent_crashDuring hne hb hlow hh
  rw [openStores, hs, if_neg (by rw [hr]; exact Bool.false_ne_true)]

theorem step_whole (h : Whole commits m) (event : Event) :
    Tracks (commits ++ m.begun allocs event) (m.step allocs event) := by
  obtain ⟨stores, archived, running⟩ := m
  obtain ⟨hst, hm⟩ := h
  obtain rfl : stores = (committed commits).stores := hst
  have ho := openStores_committed commits
  have hs : ∀ running', (∀ seq, running' = some seq → seq = (committed commits).commitSeq) →
      ∀ archived', Tracks (commits ++ []) ⟨(committed commits).stores, archived', running'⟩ := by
    intro running' hr' archived'
    rw [append_nil]
    exact ⟨hne, .inl ⟨rfl, hr'⟩⟩
  have hd := hs none (down _)
  cases running with
  | none =>
    cases event with
    | start =>
      rw [begun, Machine.step, startStore, initWithGenesis]
      dsimp only
      rw [ho]
      cases archived with
      | true =>
        refine hs _ (fun seq hseq => ?_) true
        exact (Option.some.inj hseq).symm
      | false => exact commit hne false (genesisChanges allocs)
    | startCrash written =>
      rw [begun, Machine.step]
      dsimp only
      rw [ho]
      cases archived with
      | true => simpa using hd true
      | false => simpa using crash hne false (genesisChanges allocs) written
    | commit changes => exact hd archived
    | commitCrash changes written => simpa [begun, Machine.step] using hd archived
    | archive | stop => exact hd archived
  | some seq =>
    obtain rfl : seq = (committed commits).commitSeq := hm seq rfl
    cases event with
    | start | startCrash written => exact hs _ hm archived
    | commit changes => exact commit hne archived changes
    | commitCrash changes written =>
      have hc := crash hne archived changes written
      by_cases hzero : written = 0
      · simpa [begun, Machine.step, hzero] using hc
      · simpa [begun, Machine.step, hzero] using hc
    | archive => exact hs _ hm true
    | stop => exact hd archived

theorem step_torn (hb : commits.length < 2 ^ 64 - 1) (h : Torn commits m) (event : Event) :
    Tracks (commits ++ m.begun allocs event) (m.step allocs event) := by
  have hr := h.1
  have ho := openStores_torn hne hb h
  have hi : m.begun allocs event = [] ∧ (m.step allocs event).stores = m.stores ∧
      (m.step allocs event).running = none := by
    cases event with
    | start =>
      simp [begun, Machine.step, startStore, initWithGenesis, hr, ho, Except.map]
    | startCrash written => simp [begun, Machine.step, hr, ho]
    | commit changes | commitCrash changes written | archive => simp [begun, Machine.step, hr]
    | stop => simp [begun, Machine.step]
  obtain ⟨hnone, hd, hdw⟩ := hi
  obtain ⟨-, earlier, ch, written, heq, hlow, hh, hcut⟩ := h
  rw [hnone, append_nil]
  exact ⟨hne, .inr ⟨hdw, earlier, ch, written, heq, hlow, hh, hd.trans hcut⟩⟩

end

theorem step (h : Tracks commits m) (event : Event)
    (hb : (commits ++ m.begun allocs event).length < 2 ^ 64 - 1) :
    Tracks (commits ++ m.begun allocs event) (m.step allocs event) := by
  rcases h.disk with hw | ht
  · exact step_whole h.nonempty hw event
  · rw [length_append] at hb
    exact step_torn h.nonempty (by omega) ht event

theorem run (h : Tracks commits m) (events : List Event)
    (hb : (commits ++ commitsOf allocs m events).length < 2 ^ 64 - 1) :
    Tracks (commits ++ commitsOf allocs m events) (events.foldl (Machine.step allocs) m) := by
  induction events generalizing m commits with
  | nil =>
    rw [commitsOf, append_nil]
    exact h
  | cons event events ih =>
    rw [commitsOf, ← append_assoc] at hb ⊢
    refine ih (h.step event ?_) hb
    rw [length_append] at hb
    omega

theorem start : Tracks [] Machine.new :=
  ⟨fun _ hch => absurd hch not_mem_nil, .inl ⟨rfl, down _⟩⟩

theorem running_toNat (h : Tracks commits m) (hb : commits.length < 2 ^ 64 - 1) {seq : U64}
    (hseq : m.running = some seq) : seq.toNat = commits.length := by
  rcases h.disk with ⟨-, hm⟩ | ⟨hd, -⟩
  · rw [hm seq hseq]
    exact commitSeq_committed h.nonempty hb
  · rw [hd] at hseq
    cases hseq

theorem opens_iff (h : Tracks commits m) (hb : commits.length < 2 ^ 64 - 1) :
    (∃ q, openStores m.stores = .ok q) ↔
      ∃ n ≤ commits.length, m.stores = (committed (commits.take n)).stores := by
  constructor
  · rintro ⟨q, ho⟩
    rcases h.disk with ⟨hs, -⟩ | ht
    · exact ⟨commits.length, le_rfl, by rw [take_length, hs]⟩
    · rw [openStores_torn h.nonempty hb ht] at ho
      cases ho
  · rintro ⟨n, -, hs⟩
    rw [hs]
    exact ⟨_, openStores_committed _⟩

end Tracks

theorem commitsOf_append (m : Machine) (events later : List Event) :
    commitsOf allocs m (events ++ later) =
      commitsOf allocs m events ++ commitsOf allocs (events.foldl (step allocs) m) later := by
  induction events generalizing m with
  | nil => rfl
  | cons event events ih =>
    rw [cons_append, commitsOf, commitsOf, ih, append_assoc]
    rfl

/-- **Torn commits are detected.** Whatever a machine has been through, in fewer than 2^64 - 1
commits, the next start accepts its partitions exactly when they reflect the same commits, resumes
at the number of those, and between two moments at which a process runs the number has grown by the
commits made. -/
theorem torn_commit_detected (events : List Event)
    (hbound : (commitsOf allocs Machine.new events).length < 2 ^ 64 - 1) :
    let m := events.foldl (step allocs) Machine.new
    let commits := commitsOf allocs Machine.new events
    ((∃ q, openStores m.stores = .ok q) ↔
      ∃ n ≤ commits.length, m.stores = (committed (commits.take n)).stores) ∧
    (∀ q n, openStores m.stores = .ok q → n ≤ commits.length →
      m.stores = (committed (commits.take n)).stores → q.commitSeq.toNat = n) ∧
    ∀ k seq seq', ((events.take k).foldl (step allocs) Machine.new).running = some seq →
      m.running = some seq' →
      seq'.toNat = seq.toNat + (commitsOf allocs ((events.take k).foldl (step allocs) Machine.new)
        (events.drop k)).length := by
  have ht := Tracks.start.run events hbound
  rw [nil_append] at ht
  refine ⟨ht.opens_iff hbound, fun q n ho hn hst => ?_, fun k seq seq' hseq hseq' => ?_⟩
  · rw [hst, openStores_committed] at ho
    obtain rfl := Except.ok.inj ho
    have hne : ∀ ch ∈ (commitsOf allocs Machine.new events).take n, ch ≠ ChangeSet.new :=
      fun ch hch => ht.nonempty ch (mem_of_mem_take hch)
    have hlen : ((commitsOf allocs Machine.new events).take n).length = n :=
      length_take_of_le hn
    rw [commitSeq_committed hne (by omega), hlen]
  · -- both numbers count the commits made up to their moment
    have hs := commitsOf_append allocs Machine.new (events.take k) (events.drop k)
    rw [take_append_drop] at hs
    have hlen := congrArg List.length hs
    rw [length_append] at hlen
    have he : Tracks ([] ++ commitsOf allocs Machine.new (events.take k))
        ((events.take k).foldl (step allocs) Machine.new) := by
      refine Tracks.start.run (events.take k) ?_
      rw [nil_append]
      omega
    rw [nil_append] at he
    rw [ht.running_toNat hbound hseq', he.running_toNat (by omega) hseq, hlen]

namespace TornSecond

/-- The first transfer of a node, and a second one. -/
def transfer (balance : U256) : ChangeSet :=
  ChangeSet.new.insert 0xB ⟨true, false, 0, balance, KECCAK256_EMPTY, none, ∅⟩

def events : List Event :=
  [.start, .commit (transfer 1), .stop, .start, .commitCrash (transfer 2) 2]

end TornSecond

section

open TornSecond

theorem length_commitsOf_events : (commitsOf [] Machine.new events).length = 2 := by
  decide +kernel

/-- A crash in the second commit: the partitions differ in their commits, and the check refuses. -/
theorem torn_commit_detected_second :
    (events.foldl (step []) Machine.new).stores.commitSeqs.isConsistent = false ∧
      ((∃ q, openStores (events.foldl (step []) Machine.new).stores = .ok q) ↔
        ∃ n ≤ (commitsOf [] Machine.new events).length,
          (events.foldl (step []) Machine.new).stores =
            (committed ((commitsOf [] Machine.new events).take n)).stores) := by
  refine ⟨by decide +kernel, (torn_commit_detected [] events ?_).1⟩
  rw [length_commitsOf_events]
  omega

end

end Machine

end Kora
