/-
Acknowledgements to the marshal (`report`, `acknowledge_checkpoint` of
`node/reporters/src/lib.rs`).

One task for each finalized block handles it under a lock, in whatever order. Between
checkpoints acknowledgements are parked; a checkpoint sends them, and then its own.

* `acknowledgements_safe` — an acknowledgement is sent once, when the database holds the
  block and all lower ones, if at every checkpoint the blocks handled before it are those
  below it.
-/
import Kora.Durability

open Std List

namespace Kora

open FinalizedReporter

variable {P : Platform}

/-! ### The tasks -/

/-- The reporter with its node. The last two lists record what was sent and which tasks are done. -/
structure ReporterState where
  node : Node
  pendingAcks : List ℕ
  acknowledged : List ℕ
  handled : List ℕ
  /-- False once a finalization has failed and the process is aborted. -/
  running : Bool

namespace ReporterState

/-- Send what is parked and the acknowledgement at a checkpoint; park it otherwise. -/
def acknowledgeCheckpoint (self : ReporterState) (height checkpointInterval ack : ℕ) :
    ReporterState :=
  if persistsCheckpoint checkpointInterval height then
    { self with
      pendingAcks := []
      acknowledged := self.acknowledged ++ self.pendingAcks ++ [ack] }
  else { self with pendingAcks := self.pendingAcks ++ [ack] }

/-- The task of a finalized block, once it has the lock. -/
def task (P : Platform) (checkpointInterval : ℕ) (self : ReporterState) (number : ℕ)
    (block : Block) : ReporterState :=
  let checkpoint := persistsCheckpoint checkpointInterval block.height
  let result := handleFinalizedUpdate P self.node.ledger self.node.index self.node.provider block
    checkpoint
  let node := { self.node with ledger := result.1, index := result.2.1 }
  if result.2.2 then
    { (({ self with node } : ReporterState).acknowledgeCheckpoint block.height checkpointInterval
        number) with
      handled := self.handled ++ [number] }
  else { self with node, running := false }

end ReporterState

inductive ReportEvent where
  /-- The application builds or verifies a block. -/
  | app (op : Node.Op)
  /-- The task of the block with the number gets the lock. -/
  | task (number : ℕ)

/-- One event. An aborted process does nothing. -/
def ReporterState.step (chain : Chain P) (checkpointInterval : ℕ) (self : ReporterState) :
    ReportEvent → ReporterState
  | .app op => if self.running then { self with node := self.node.step P op } else self
  | .task number =>
    if self.running then self.task P checkpointInterval number (chain.block number) else self

namespace ReportEvent

def tasks (events : List ReportEvent) : List ℕ :=
  events.filterMap fun
    | app _ => none
    | task number => some number

def OnChain (chain : Chain P) : ReportEvent → Prop
  | app (.build ..) => True
  | app (.verify ..) => True
  | app _ => False
  | task number => 1 ≤ number ∧ number ≤ chain.length

theorem tasks_concat (events : List ReportEvent) (event : ReportEvent) :
    tasks (events ++ [event]) = tasks events ++ tasks [event] :=
  filterMap_append ..

end ReportEvent

/-! ### Safety -/

/-- The database holds at least the first `i` blocks over genesis. -/
def Chain.Durable (chain : Chain P) (q₀ : QmdbStore) (i : ℕ) (q : QmdbStore) : Prop :=
  ∃ k, i ≤ k ∧ k ≤ chain.length ∧ ∃ groups, groups.flatten = changesUpTo chain.outcome k ∧
    groups.length ≤ k ∧ q = q₀.commitGroups groups

/-- Acknowledgements are sent once, for blocks that the database holds with all lower ones; up to a
checkpoint all are sent. -/
structure AckSafe (chain : Chain P) (q₀ : QmdbStore) (checkpointInterval : ℕ)
    (s : ReporterState) : Prop where
  once : s.acknowledged.Nodup
  durable : ∀ i ∈ s.acknowledged, chain.Durable q₀ i s.node.ledger.qmdb
  complete : ∀ b ∈ s.handled, persistsCheckpoint checkpointInterval b → ∀ i, 1 ≤ i → i ≤ b →
    i ∈ s.acknowledged

/-- No block is let in unexecuted, and at a checkpoint exactly the blocks below it are done. -/
def ReportEvent.Ordered (chain : Chain P) (checkpointInterval : ℕ) (s : ReporterState) :
    ReportEvent → Prop
  | .app op => op.Executes P s.node
  | .task number => ¬ Restores P s.node.ledger (chain.block number) ∧
      (persistsCheckpoint checkpointInterval number → ∀ i, 1 ≤ i → (i ∈ s.handled ↔ i < number))

/-! ### What a task does -/

namespace LedgerState

theorem persisting_ensureSnapshot {l : LedgerState} (hi : l.snapshots.persisting = ∅)
    (index : BlockIndex) (provider : RevmContextProvider) (block : Block) :
    (ensureSnapshot P l index provider true block).1.snapshots.persisting = ∅ := by
  rcases ensureSnapshot_cases P l index provider true block with ⟨hs, -⟩ | ⟨-, hres⟩ |
    ⟨parent, outcome, -, hres⟩
  · rw [hs, hi]
  · rw [hres]
    show (InMemorySnapshotStore.markPersisted _ _).persisting = ∅
    rw [InMemorySnapshotStore.persisting_markPersisted, InMemorySnapshotStore.persisting_insert,
      hi]
  · rw [hres]
    exact hi

end LedgerState

namespace Node

variable {node : Node}

theorem persisting_step (hi : node.ledger.snapshots.persisting = ∅) (op : Op) :
    (node.step P op).ledger.snapshots.persisting = ∅ := by
  cases op with
  | build mempool seeds parent timestamp => exact hi
  | verify block parentTimestamp nowSecs =>
    rcases node.app.verifyBlock_cases P node.ledger block parentTimestamp nowSecs
      with ⟨height, ok, hres⟩ | ⟨-, hres⟩ | ⟨parent, outcome, -, -, hres⟩
    · rw [step, hres]
      exact hi
    · rw [step, hres]
      show (InMemorySnapshotStore.markPersisted _ _).persisting = ∅
      rw [InMemorySnapshotStore.persisting_markPersisted, InMemorySnapshotStore.persisting_insert,
        hi]
    · rw [step, hres]
      exact hi
  | finalize block persistCheckpoint =>
    have he := LedgerState.persisting_ensureSnapshot (P := P) hi node.index node.provider
      block
    rw [step, handleFinalizedUpdate_ledger]
    rcases finalizeBlock_ledger P node.ledger node.index node.provider true block
      persistCheckpoint with hres | hres
    · rw [hres, he]
    · rw [hres]
      exact LedgerState.persisting_persistSnapshot he _
  | persist digest => exact LedgerState.persisting_persistSnapshot hi digest

theorem marked_of_handled (hi : node.ledger.snapshots.persisting = ∅) {block : Block}
    (hok : (handleFinalizedUpdate P node.ledger node.index node.provider block true).2.2 = true) :
    P.commitment block ∈ (node.step P (.finalize block true)).ledger.snapshots.persisted := by
  have he := LedgerState.persisting_ensureSnapshot (P := P) hi node.index node.provider
    block
  obtain ⟨execution, hf⟩ := handleFinalizedUpdate_ok P hok
  obtain ⟨persisted, hp, hl⟩ := finalizeBlock_checkpoint P hf
  rw [step, handleFinalizedUpdate_ledger, hl]
  exact LedgerState.marked_of_persistSnapshot he hp

end Node

namespace ReporterState

/-- **Everything a task can do**: abort the process, or send its acknowledgement after all parked
ones, or park it. -/
theorem task_cases (s : ReporterState) (checkpointInterval number : ℕ) (block : Block) :
    (s.task P checkpointInterval number block).node =
        s.node.step P (.finalize block (persistsCheckpoint checkpointInterval block.height)) ∧
      let s' := s.task P checkpointInterval number block
      (s'.pendingAcks = s.pendingAcks ∧ s'.acknowledged = s.acknowledged ∧
          s'.handled = s.handled) ∨
        (s'.handled = s.handled ++ [number] ∧
          ((persistsCheckpoint checkpointInterval block.height = true ∧
              (handleFinalizedUpdate P s.node.ledger s.node.index s.node.provider block true).2.2 =
                true ∧
              s'.pendingAcks = [] ∧
              s'.acknowledged = s.acknowledged ++ s.pendingAcks ++ [number]) ∨
            (persistsCheckpoint checkpointInterval block.height = false ∧
              s'.pendingAcks = s.pendingAcks ++ [number] ∧ s'.acknowledged = s.acknowledged))) := by
  rw [task]
  dsimp only
  split
  · next hok =>
    cases hc : persistsCheckpoint checkpointInterval block.height with
    | true =>
      rw [hc] at hok
      rw [acknowledgeCheckpoint, if_pos hc]
      exact ⟨rfl, .inr ⟨rfl, .inl ⟨rfl, hok, rfl, rfl⟩⟩⟩
    | false =>
      rw [acknowledgeCheckpoint, if_neg (by rw [hc]; exact Bool.false_ne_true)]
      exact ⟨rfl, .inr ⟨rfl, .inr ⟨rfl, rfl, rfl⟩⟩⟩
  · exact ⟨rfl, .inl ⟨rfl, rfl, rfl⟩⟩

end ReporterState

/-! ### Whole runs -/

/-- A task that is done has its acknowledgement sent or parked; what was sent is in the database. -/
structure Tracked (chain : Chain P) (q₀ : QmdbStore) (checkpointInterval : ℕ)
    (past : List ReportEvent) (s : ReporterState) : Prop where
  holds : ∃ k, HoldsPrefix chain q₀ k s.node.ledger ∧ ∀ i ∈ s.acknowledged, i ≤ k
  idle : s.node.ledger.snapshots.persisting = ∅
  parked : (s.acknowledged ++ s.pendingAcks).Perm s.handled
  done : s.handled.Sublist (ReportEvent.tasks past)
  complete : ∀ b ∈ s.handled, persistsCheckpoint checkpointInterval b → ∀ i, 1 ≤ i → i ≤ b →
    i ∈ s.acknowledged

namespace Tracked

variable {chain : Chain P} {q₀ : QmdbStore} {checkpointInterval : ℕ} {past : List ReportEvent}
  {s : ReporterState}

variable (h : Tracked chain q₀ checkpointInterval past s)
include h

theorem ackSafe (hn : (ReportEvent.tasks past).Nodup) :
    AckSafe chain q₀ checkpointInterval s where
  once := by
    have hb : (s.acknowledged ++ s.pendingAcks).Nodup :=
      h.parked.nodup_iff.2 (hn.sublist h.done)
    exact hb.of_append_left
  durable i hi := by
    obtain ⟨k, hh, hle⟩ := h.holds
    obtain ⟨groups, hg⟩ := hh.committed
    exact ⟨k, hle i hi, hh.le, groups, hg⟩
  complete := h.complete

theorem finalize {number : ℕ} (hch : (ReportEvent.task number).OnChain chain)
    (ho : (ReportEvent.task number).Ordered chain checkpointInterval s) :
    let node := s.node.step P
      (.finalize (chain.block number) (persistsCheckpoint checkpointInterval number))
    ∃ k, HoldsPrefix chain q₀ k node.ledger ∧ (∀ i ∈ s.acknowledged, i ≤ k) ∧
      node.ledger.snapshots.persisting = ∅ ∧
      (persistsCheckpoint checkpointInterval number = true →
        (handleFinalizedUpdate P s.node.ledger s.node.index s.node.provider (chain.block number)
          true).2.2 = true → number ≤ k) := by
  obtain ⟨hpos, hlen⟩ := hch
  obtain ⟨k, hh, hs⟩ := h.holds
  have hon : (Node.Op.finalize (chain.block number)
      (persistsCheckpoint checkpointInterval number)).OnChain chain :=
    ⟨number - 1, by omega, by rw [Nat.sub_add_cancel hpos]⟩
  have he : (Node.Op.finalize (chain.block number)
      (persistsCheckpoint checkpointInterval number)).Executes P s.node := ho.1
  obtain ⟨k', hk', hh'⟩ := hh.step hon he
  refine ⟨k', hh', fun i hi => (hs i hi).trans hk', Node.persisting_step h.idle _,
    fun hc hok => ?_⟩
  have hm := Node.marked_of_handled (P := P) h.idle hok
  rw [hc] at hh'
  obtain ⟨i, hi, heq⟩ := (hh'.persisted _).1 hm
  rw [chain.digest_inj hlen (hi.trans hh'.le) heq]
  exact hi

theorem task {number : ℕ} (hch : (ReportEvent.task number).OnChain chain)
    (ho : (ReportEvent.task number).Ordered chain checkpointInterval s) :
    Tracked chain q₀ checkpointInterval (past ++ [.task number])
      (s.task P checkpointInterval number (chain.block number)) := by
  obtain ⟨k, hhl, hs, hid, hn⟩ := h.finalize hch ho
  obtain ⟨hnd, hcs⟩ := s.task_cases (P := P) checkpointInterval number (chain.block number)
  rw [chain.height number hch.2] at hnd hcs
  have ht : ReportEvent.tasks (past ++ [.task number]) = ReportEvent.tasks past ++ [number] :=
    ReportEvent.tasks_concat past (.task number)
  rw [← hnd] at hhl hid
  rcases hcs with ⟨hp, ha, hh⟩ |
    ⟨hh, ⟨hc, hok, hp, ha⟩ | ⟨hc, hp, ha⟩⟩
  · -- the process is aborted, and nothing was sent
    refine ⟨⟨k, hhl, fun i hi => ?_⟩, hid, ?_, ?_, ?_⟩
    · rw [ha] at hi
      exact hs i hi
    · rw [hp, ha, hh]
      exact h.parked
    · rw [hh, ht]
      exact h.done.trans (sublist_append_left _ _)
    · rw [hh, ha]
      exact h.complete
  · -- a checkpoint: the blocks that are done are those below it, and it is committed
    have hmem : ∀ i, i ∈ s.handled ↔ i ∈ s.acknowledged ∨ i ∈ s.pendingAcks := fun i => by
      rw [← h.parked.mem_iff, mem_append]
    have hn : number ≤ k := hn hc hok
    refine ⟨⟨k, hhl, fun i hi => ?_⟩, hid, ?_, ?_, ?_⟩
    · rw [ha, mem_append, mem_append, mem_singleton] at hi
      rcases hi with (hold | hpr) | rfl
      · exact hs i hold
      · rcases Nat.eq_zero_or_pos i with rfl | hi
        · exact Nat.zero_le _
        · have hlt := (ho.2 hc i hi).1 ((hmem i).2 (.inr hpr))
          omega
      · exact hn
    · rw [hp, ha, hh, append_nil]
      exact h.parked.append_right [number]
    · rw [hh, ht]
      exact h.done.append (List.Sublist.refl _)
    · intro b hb hbn i hi hib
      rw [hh, mem_append, mem_singleton] at hb
      rw [ha, mem_append, mem_append, mem_singleton]
      rcases hb with hold | rfl
      · exact .inl (.inl (h.complete b hold hbn i hi hib))
      · rcases Nat.lt_or_eq_of_le hib with hlt | heq
        · exact .inl ((hmem i).1 ((ho.2 hbn i hi).2 hlt))
        · exact .inr heq
  · refine ⟨⟨k, hhl, fun i hi => ?_⟩, hid, ?_, ?_, ?_⟩
    · rw [ha] at hi
      exact hs i hi
    · rw [hp, ha, hh, ← append_assoc]
      exact h.parked.append_right [number]
    · rw [hh, ht]
      exact h.done.append (List.Sublist.refl _)
    · intro b hb hbn
      rw [hh, mem_append, mem_singleton] at hb
      rw [ha]
      rcases hb with hold | rfl
      · exact h.complete b hold hbn
      · rw [hc] at hbn
        cases hbn

theorem step {event : ReportEvent} (hc : event.OnChain chain)
    (ho : event.Ordered chain checkpointInterval s) :
    Tracked chain q₀ checkpointInterval (past ++ [event])
      (s.step chain checkpointInterval event) := by
  have hl : ∀ s' : ReporterState, Tracked chain q₀ checkpointInterval past s' →
      Tracked chain q₀ checkpointInterval (past ++ [event]) s' := by
    intro s' h'
    refine { h' with done := h'.done.trans ?_ }
    rw [ReportEvent.tasks_concat]
    exact sublist_append_left _ _
  cases event with
  | app op =>
    rw [ReporterState.step]
    split
    · have hon : op.OnChain chain := by
        cases op with
        | build mempool seeds parent timestamp | verify block parentTimestamp nowSecs => trivial
        | finalize block persistCheckpoint | persist digest => exact hc.elim
      obtain ⟨k, hh, hs⟩ := h.holds
      obtain ⟨k', hk', hh'⟩ := hh.step hon ho
      refine hl _ { h with holds := ⟨k', hh', fun i hi => ?_⟩, idle := ?_ }
      · exact (hs i hi).trans hk'
      · exact Node.persisting_step h.idle op
    · exact hl s h
  | task number =>
    rw [ReporterState.step]
    split
    · exact h.task hc ho
    · exact hl s h

end Tracked

def ReporterState.start (chain : Chain P) (q₀ : QmdbStore) (maxTxs recoveredHeight : ℕ) :
    ReporterState where
  node := Node.start P q₀ (chain.block 0) maxTxs chain.gasLimit chain.feeRecipient recoveredHeight
  pendingAcks := []
  acknowledged := []
  handled := []
  running := true

/-- **Acknowledgements are safe** along every run in which no block is let in unexecuted and every
checkpoint finds exactly the blocks below it done. -/
theorem acknowledgements_safe {chain : Chain P} {q₀ : QmdbStore}
    {maxTxs recoveredHeight checkpointInterval : ℕ} {events : List ReportEvent}
    (hchain : ∀ event ∈ events, event.OnChain chain) (hnodup : (ReportEvent.tasks events).Nodup)
    (hrun : Run.Along (ReporterState.step chain checkpointInterval)
      (fun s event => event.Ordered chain checkpointInterval s)
      (ReporterState.start chain q₀ maxTxs recoveredHeight) events) (t : ℕ) :
    AckSafe chain q₀ checkpointInterval ((events.take t).foldl
      (ReporterState.step chain checkpointInterval)
      (ReporterState.start chain q₀ maxTxs recoveredHeight)) := by
  have hs := (hrun.take t).and_forall (fun event he =>
    hchain event (mem_of_mem_take he))
  have hin : Tracked chain q₀ checkpointInterval []
      (ReporterState.start chain q₀ maxTxs recoveredHeight) :=
    ⟨⟨0, HoldsPrefix.init chain q₀, fun i hi => by cases hi⟩, rfl, List.Perm.refl [],
      List.Sublist.refl [], fun b hb => by cases hb⟩
  have ht := hs.history (Tracked chain q₀ checkpointInterval) hin
    (fun _ _ _ h he => h.step he.1 he.2)
  refine ht.ackSafe (hnodup.sublist ?_)
  exact (take_sublist t events).filterMap _

section

open ThreeBlocks

theorem acknowledgements_safe_two :
    AckSafe (chain 2 (by decide)) QmdbStore.new 2 ((([.task 1, .task 2] : List ReportEvent).take
      2).foldl (ReporterState.step (chain 2 (by decide)) 2)
      (ReporterState.start (chain 2 (by decide)) QmdbStore.new 10 0)) := by
  have hc : ∀ event ∈ ([.task 1, .task 2] : List ReportEvent),
      event.OnChain (chain 2 (by decide)) := by
    intro event he
    rw [mem_cons, mem_singleton] at he
    rcases he with rfl | rfl
    · exact ⟨by decide, by decide⟩
    · exact ⟨by decide, by decide⟩
  have hrun : Run.Along (ReporterState.step (chain 2 (by decide)) 2)
      (fun s event => event.Ordered (chain 2 (by decide)) 2 s)
      (ReporterState.start (chain 2 (by decide)) QmdbStore.new 10 0) [.task 1, .task 2] := by
    have hh : (ReporterState.step (chain 2 (by decide)) 2 (ReporterState.start
        (chain 2 (by decide)) QmdbStore.new 10 0) (.task 1)).handled = [1] := by
      decide +kernel
    refine ⟨⟨fun h => absurd h.2 (by decide +kernel), fun h => absurd h (by decide)⟩,
      ⟨fun h => absurd h.2 (by decide +kernel), fun _ i hi => ?_⟩, trivial⟩
    rw [hh, mem_singleton]
    omega
  exact acknowledgements_safe hc (by decide) hrun 2

/-- The tasks get the lock in the order 3, 1, 2, with checkpoints at even numbers: the one at 2
sends the acknowledgement of block 3, which is not in the database. -/
theorem early_acknowledgement :
    ¬ ∀ (P : Platform) (chain : Chain P) (q₀ : QmdbStore), chain.StartsFrom q₀ →
      chain.Undestroyed → ∀ (maxTxs recoveredHeight checkpointInterval : ℕ)
        (events : List ReportEvent), (∀ event ∈ events, event.OnChain chain) →
      (ReportEvent.tasks events).Nodup → ∀ t, AckSafe chain q₀ checkpointInterval
        ((events.take t).foldl (ReporterState.step chain checkpointInterval)
          (ReporterState.start chain q₀ maxTxs recoveredHeight)) := by
  intro h
  let events : List ReportEvent := [.app (.verify (block 1) none 0),
    .app (.verify (block 2) none 0), .app (.verify (block 3) none 0), .task 3, .task 1, .task 2]
  have hc : ∀ event ∈ events, event.OnChain (chain 3 le_rfl) := by
    intro event he
    simp only [events, mem_cons, not_mem_nil, or_false] at he
    rcases he with rfl | rfl | rfl | rfl | rfl | rfl
    · trivial
    · trivial
    · trivial
    · exact ⟨by decide, le_rfl⟩
    · exact ⟨by decide, by decide⟩
    · exact ⟨by decide, by decide⟩
  have hsf := h platform (chain 3 le_rfl) QmdbStore.new (startsFrom _) (undestroyed _) 10 0 2
    events hc (by decide) 6
  -- the database would hold all three blocks, and so read as the state after the third
  obtain ⟨k, hk, hlen, groups, hf, hcn, hq⟩ := hsf.durable 3 (by decide +kernel)
  obtain rfl : k = 3 := Nat.le_antisymm hlen hk
  have hr := congrArg (fun q => (reads q 0xA).storage 1) hq
  have hs : reads (QmdbStore.new.commitGroups groups) 0xA = (chain 3 le_rfl).state 3 0xA := by
    have hf' : ∀ ch ∈ groups.flatten, ch.Undestroyed := by
      rw [hf]
      exact fun ch hch => (undestroyed le_rfl).upTo le_rfl hch
    rw [reads_commitGroups_eq .new hf' (by decide) ?_, hf]
    · rfl
    · show 0 + groups.length < 2 ^ 64
      omega
  rw [hs] at hr
  exact absurd hr (by decide +kernel)

end

end Kora
