/-
The walk over an ancestry (`verify` of `node/runner/src/app.rs`).

The walk collects blocks from the tip to the first that the ledger knows, and verifies
them from the oldest on, each against the timestamp of the one before, until one is
rejected.

* `verification_walk` — what `verify` does to a stream, and that it does nothing the next
  time;
* `Node.catch_up_ends` — when a restarted node is out of catch-up, and that it stays out.
-/
import Kora.Run
import Kora.Vote
import Mathlib.Data.List.TakeWhile

open List

namespace Kora

open LedgerState

variable {P : Platform}

/-- The ledger has a snapshot of the block. -/
def LedgerState.knows (P : Platform) (self : LedgerState) (block : Block) : Bool :=
  (self.queryStateRoot (P.commitment block)).isSome

theorem LedgerState.isSome_queryStateRoot_insertExecuted (l : LedgerState) (block : Block)
    (parent : Snapshot) (changes : ChangeSet) (digest : Digest) :
    ((l.insertExecuted P block parent changes).queryStateRoot digest).isSome = true ↔
      P.commitment block = digest ∨ (l.queryStateRoot digest).isSome = true := by
  rw [queryStateRoot, get_insertExecuted, queryStateRoot]
  split
  · next heq => exact ⟨fun _ => .inl heq, fun _ => rfl⟩
  · next hne => exact ⟨.inr, fun h => h.resolve_left hne⟩

/-- The second ledger has the snapshots of the first and those of the blocks. -/
def Gains (P : Platform) (l l' : LedgerState) (blocks : List Block) : Prop :=
  ∀ digest, (l'.queryStateRoot digest).isSome = true ↔
    (l.queryStateRoot digest).isSome = true ∨ ∃ block ∈ blocks, P.commitment block = digest

theorem gains_nil (l : LedgerState) : Gains P l l [] := by
  intro digest
  simp

theorem Gains.knows {l l' : LedgerState} {blocks : List Block} (h : Gains P l l' blocks)
    {block : Block} (hmem : block ∈ blocks) : l'.knows P block = true :=
  (h _).2 (.inr ⟨block, hmem, rfl⟩)

/-- The timestamps of the blocks, oldest first, do not fall, and none is too far ahead. -/
structure Timely (parentTimestamp : Option ℕ) (nowSecs : ℕ) (blocks : List Block) : Prop where
  nondecreasing : (parentTimestamp.toList ++ blocks.map (·.timestamp)).IsChain (· ≤ ·)
  notAhead : ∀ block ∈ blocks,
    block.timestamp ≤ nowSecs + RevmApplication.MAX_FUTURE_TIMESTAMP_DRIFT

theorem Timely.nil (parentTimestamp : Option ℕ) (nowSecs : ℕ) :
    Timely parentTimestamp nowSecs [] := by
  refine ⟨?_, fun block hmem => absurd hmem not_mem_nil⟩
  cases parentTimestamp with
  | none => exact .nil
  | some parentTs => exact .singleton parentTs

theorem Timely.cons {block : Block} {blocks : List Block} {parentTimestamp : Option ℕ}
    {nowSecs : ℕ} (h : Timely (some block.timestamp) nowSecs blocks)
    (hc : RevmApplication.timestampRejected block parentTimestamp nowSecs = false) :
    Timely parentTimestamp nowSecs (block :: blocks) := by
  obtain ⟨hb, ha⟩ := Bool.or_eq_false_iff.1 hc
  refine ⟨?_, ?_⟩
  · cases parentTimestamp with
    | none => exact h.nondecreasing
    | some parentTs =>
      exact isChain_cons_cons.2 ⟨Nat.not_lt.1 (of_decide_eq_false hb), h.nondecreasing⟩
  · intro block' hmem
    rcases mem_cons.1 hmem with rfl | hmem
    · exact (Nat.not_lt.1 (of_decide_eq_false ha)).trans (min_le_left _ _)
    · exact h.notAhead block' hmem

namespace RevmApplication

theorem collectUnverified_eq (l : LedgerState) (ancestry : List Block) :
    collectUnverified P l ancestry = (ancestry.takeWhile fun block => !l.knows P block,
      (ancestry.find? (l.knows P)).map (·.timestamp)) := by
  induction ancestry with
  | nil => rfl
  | cons block ancestry ih =>
    rw [collectUnverified, takeWhile_cons, find?_cons, knows]
    cases (l.queryStateRoot (P.commitment block)).isSome with
    | true => rfl
    | false =>
      rw [ih]
      rfl

variable {app : RevmApplication}

theorem isCatchingUp_eq_false_iff {height : ℕ} :
    app.isCatchingUp height = false ↔ app.recoveredHeight = 0 ∨ height ≤ app.recoveredHeight ∨
      min (app.recoveredHeight + CATCH_UP_THRESHOLD) U64_MAX ≤ app.lastVerifiedHeight := by
  rw [isCatchingUp]
  by_cases hf : app.recoveredHeight = 0
  · simp [hf]
  by_cases hold : height ≤ app.recoveredHeight
  · simp [hold]
  rw [if_neg hf, if_neg hold, decide_eq_false_iff_not, Nat.not_lt]
  exact ⟨fun h => .inr (.inr h), fun h => (h.resolve_left hf).resolve_left hold⟩

theorem verifyBlock_new {l : LedgerState} {block : Block}
    (hq : app.isCatchingUp block.height = false) (hnew : l.knows P block = false)
    (parentTimestamp : Option ℕ) (nowSecs : ℕ) :
    app.verifyBlock P l block parentTimestamp nowSecs = (app, l, false) ∨
      timestampRejected block parentTimestamp nowSecs = false ∧
        ∃ app' parent changes, app.verifyBlock P l block parentTimestamp nowSecs =
            (app', l.insertExecuted P block parent changes, true) ∧
          ∀ height, app.isCatchingUp height = false → app'.isCatchingUp height = false := by
  rw [knows] at hnew
  rw [verifyBlock, hnew, hq]
  cases hc : timestampRejected block parentTimestamp nowSecs with
  | true => exact .inl rfl
  | false =>
    cases he : l.executeOnParent P (app.verifyContext P block) block with
    | error e => exact .inl rfl
    | ok result =>
      refine .inr ⟨rfl, _, result.1, result.2.changes, rfl, fun height h => ?_⟩
      rw [isCatchingUp_eq_false_iff] at h ⊢
      exact h.imp_right (Or.imp_right fun hle => hle.trans (le_max_left _ _))

/-- **New blocks, oldest first.** Those before the first rejected one are inserted, and have their
timestamps in order. -/
theorem verifyBlocks_walk {l : LedgerState} {blocks : List Block}
    (hq : ∀ block ∈ blocks, app.isCatchingUp block.height = false)
    (hnew : ∀ block ∈ blocks, l.knows P block = false) (hd : (blocks.map P.commitment).Nodup)
    (parentTimestamp : Option ℕ) (nowSecs : ℕ) :
    ∃ older, Gains P l (app.verifyBlocks P l parentTimestamp nowSecs blocks).2.1 older ∧
      Timely parentTimestamp nowSecs older ∧
      (app.verifyBlocks P l parentTimestamp nowSecs older).2.2 = true ∧
      ((app.verifyBlocks P l parentTimestamp nowSecs blocks).2.2 = true ∧ older = blocks ∨
        (app.verifyBlocks P l parentTimestamp nowSecs blocks).2.2 = false ∧
          ∃ rejected newer, blocks = older ++ rejected :: newer ∧
            (app.verifyBlocks P l parentTimestamp nowSecs (older ++ [rejected])).2.2 = false) := by
  induction blocks generalizing app l parentTimestamp with
  | nil => exact ⟨[], gains_nil l, .nil _ _, rfl, .inl ⟨rfl, rfl⟩⟩
  | cons block blocks ih =>
    obtain ⟨hq₀, hq'⟩ := forall_mem_cons.1 hq
    obtain ⟨hnew₀, hnew'⟩ := forall_mem_cons.1 hnew
    rw [map_cons, nodup_cons] at hd
    rcases verifyBlock_new hq₀ hnew₀ parentTimestamp nowSecs with
      hr | ⟨hcl, app', parent, changes, ha, hk⟩
    · -- nothing is inserted, and the first block is the rejected one
      refine ⟨[], ?_, .nil _ _, rfl, .inr ⟨?_, block, blocks, rfl, ?_⟩⟩
      · rw [verifyBlocks, hr]
        exact gains_nil l
      · rw [verifyBlocks, hr]
      · rw [nil_append, verifyBlocks, hr]
    · -- the others are still new, since their digests are different
      have hnew'' : ∀ b ∈ blocks,
          (l.insertExecuted P block parent changes).knows P b = false := by
        intro b hmem
        rw [← Bool.not_eq_true, knows, isSome_queryStateRoot_insertExecuted]
        rintro (heq | hold)
        · exact hd.1 (heq ▸ mem_map_of_mem hmem)
        · exact Bool.eq_false_iff.1 (hnew' b hmem) hold
      obtain ⟨older, hg, ht, hall, hend⟩ :=
        ih (fun b hmem => hk _ (hq' b hmem)) hnew'' hd.2 (some block.timestamp)
      -- what the others come to is what all of them come to
      have hc : ∀ blocks, app.verifyBlocks P l parentTimestamp nowSecs (block :: blocks) =
          app'.verifyBlocks P (l.insertExecuted P block parent changes) (some block.timestamp)
            nowSecs blocks := by
        intro blocks
        rw [verifyBlocks, ha]
      refine ⟨block :: older, fun digest => ?_, ht.cons hcl, by rw [hc, hall], ?_⟩
      · rw [hc, hg, isSome_queryStateRoot_insertExecuted]
        simp only [exists_mem_cons_iff, or_assoc, or_left_comm]
      · rw [hc]
        rcases hend with ⟨hok, rfl⟩ | ⟨hfl, rejected, newer, rfl, hf⟩
        · exact .inl ⟨hok, rfl⟩
        · refine .inr ⟨hfl, rejected, newer, rfl, ?_⟩
          rw [cons_append, hc, hf]

/-- **The walk over an ancestry**, outside catch-up. If it is accepted, the blocks above the first
known one have snapshots, with their timestamps in order. If not, the new snapshots are those of the
blocks older than the first rejected one. -/
theorem verification_walk (app : RevmApplication) (l : LedgerState) (ancestry : List Block)
    (nowSecs : ℕ) (hquiet : ∀ block ∈ ancestry, app.isCatchingUp block.height = false)
    (hdistinct : (ancestry.map P.commitment).Nodup) {app' : RevmApplication} {l' : LedgerState}
    {ok : Bool} (hverify : app.verify P l ancestry nowSecs = (app', l', ok))
    {unknown : List Block} {knownTimestamp : Option ℕ}
    (hunknown : unknown = (ancestry.takeWhile fun block => !l.knows P block).reverse)
    (hknown : knownTimestamp = (ancestry.find? (l.knows P)).map (·.timestamp)) :
    (ok = true → (∀ block ∈ unknown, l'.knows P block = true) ∧
        Timely knownTimestamp nowSecs unknown ∧
        ∀ later, (collectUnverified P l' ancestry).1 = [] ∧
          app'.verify P l' ancestry later = (app', l', true)) ∧
      (ok = false → ∃ older rejected newer, unknown = older ++ rejected :: newer ∧
        (app.verifyBlocks P l knownTimestamp nowSecs older).2.2 = true ∧
        (app.verifyBlocks P l knownTimestamp nowSecs (older ++ [rejected])).2.2 = false ∧
        Gains P l l' older) := by
  subst hunknown hknown
  rw [verify, collectUnverified_eq] at hverify
  dsimp only at hverify
  have hsub := takeWhile_sublist (fun block => !l.knows P block) (l := ancestry)
  have hmem := fun block (h : block ∈ (ancestry.takeWhile fun b => !l.knows P b).reverse) =>
    mem_reverse.1 h
  obtain ⟨older, hg, ht, hall, hend⟩ := verifyBlocks_walk
    (fun block h => hquiet block (hsub.subset (hmem block h)))
    (fun block h => by simpa using mem_takeWhile_imp (hmem block h))
    (by rw [map_reverse, nodup_reverse]; exact hdistinct.sublist (hsub.map _))
    ((ancestry.find? (l.knows P)).map (·.timestamp)) nowSecs
  rw [hverify] at hg hend
  refine ⟨?_, ?_⟩
  · rintro rfl
    obtain ⟨-, rfl⟩ := hend.resolve_right fun h => Bool.noConfusion h.1
    refine ⟨fun block => hg.knows, ht, fun later => ?_⟩
    -- the tip was known before, or is one of the blocks
    have hn : ancestry.takeWhile (fun block => !l'.knows P block) = [] := by
      cases ancestry with
      | nil => rfl
      | cons tip older =>
        have htip : l'.knows P tip = true := by
          cases hold : l.knows P tip with
          | true => exact (hg _).2 (.inl hold)
          | false => exact hg.knows (by simp [hold])
        simp [htip]
    rw [verify, collectUnverified_eq, hn]
    exact ⟨rfl, rfl⟩
  · rintro rfl
    obtain ⟨-, rejected, newer, hb, hf⟩ := hend.resolve_left fun h => Bool.noConfusion h.1
    exact ⟨older, rejected, newer, hb, hall, hf, hg⟩

end RevmApplication

/-! ### The end of catch-up -/

namespace Node

open RevmApplication

/-- The operation accepts a block of at least some height that executes, or that it has already. -/
def Op.Confirms (P : Platform) (height : ℕ) (node : Node) : Op → Prop
  | .verify block parentTimestamp nowSecs => height ≤ block.height ∧
      (node.app.verifyBlock P node.ledger block parentTimestamp nowSecs).2.2 = true ∧
      ¬ node.app.Trusts P node.ledger block
  | _ => False

variable (node : Node)

theorem verified_step (op : Op) (height : ℕ) :
    (node.step P op).app.recoveredHeight = node.app.recoveredHeight ∧
      (height ≤ (node.step P op).app.lastVerifiedHeight ↔
        height ≤ node.app.lastVerifiedHeight ∨ op.Confirms P height node) := by
  cases op with
  | build mempool seeds parent timestamp =>
    rcases node.app.buildBlock_cases P node.ledger mempool seeds parent timestamp
      with hres | ⟨_, _, _, -, -, -, -, hres⟩
    · simp [step, hres, Op.Confirms]
    · simp [step, hres, Op.Confirms, recordBlockFees]
  | verify block parentTimestamp nowSecs =>
    rw [step, Op.Confirms, Trusts, verifyBlock]
    split
    · next hk =>
      have hne : node.ledger.queryStateRoot (P.commitment block) ≠ none :=
        Option.isSome_iff_ne_none.1 hk
      simp [advanceVerified, hne]
    · next hk =>
      split
      · simp
      · cases he : node.ledger.executeOnParent P (node.app.verifyContext P block) block with
        | error e =>
          -- whether or not the block is taken on its certificate, the height stays
          have hnone : node.ledger.queryStateRoot (P.commitment block) = none := by simpa using hk
          dsimp only
          split
          · next hc => simp [hc, hnone]
          · simp
        | ok result => simp [advanceVerified, recordBlockFees]
  | finalize block persistCheckpoint | persist digest => simp [step, Op.Confirms]

theorem le_lastVerifiedHeight_run (ops : List Op) {height : ℕ} :
    height ≤ (ops.foldl (step P) node).app.lastVerifiedHeight ↔
      height ≤ node.app.lastVerifiedHeight ∨
        ¬ Run.Along (step P) (fun node op => ¬ op.Confirms P height node) node ops := by
  induction ops generalizing node with
  | nil => simp [Run.Along]
  | cons op ops ih =>
    rw [foldl_cons, ih, (node.verified_step op height).2, Run.Along, not_and_or, not_not, or_assoc]

/-- **Catch-up ends once and for all**, exactly if a block of the height where it ends was accepted,
but not at once on its certificate. From then on no block is taken on its certificate. -/
theorem catch_up_ends (hr : node.app.recoveredHeight ≠ 0) (ops : List Op) {bound : ℕ}
    (hb : bound = min (node.app.recoveredHeight + CATCH_UP_THRESHOLD) U64_MAX) :
    ((∀ height, (ops.foldl (step P) node).app.isCatchingUp height = false) ↔
      bound ≤ node.app.lastVerifiedHeight ∨
        ¬ Run.Along (step P) (fun node op => ¬ op.Confirms P bound node) node ops) ∧
    ((∀ height, (ops.foldl (step P) node).app.isCatchingUp height = false) →
      ∀ later block, ¬ ((ops ++ later).foldl (step P) node).app.Trusts P
        ((ops ++ later).foldl (step P) node).ledger block) := by
  have hover : ∀ ops : List Op,
      (∀ height, (ops.foldl (step P) node).app.isCatchingUp height = false) ↔
        bound ≤ (ops.foldl (step P) node).app.lastVerifiedHeight := by
    intro ops
    have hrec : (ops.foldl (step P) node).app.recoveredHeight = node.app.recoveredHeight :=
      (Run.along_true node ops).history
        (fun _ n => n.app.recoveredHeight = node.app.recoveredHeight) rfl
        fun _ n op hn _ => (n.verified_step op 0).1.trans hn
    simp only [isCatchingUp_eq_false_iff, hrec, ← hb, hr, false_or]
    refine ⟨fun h => (h (node.app.recoveredHeight + 1)).resolve_left (by omega), fun h _ => .inr h⟩
  refine ⟨by rw [hover, le_lastVerifiedHeight_run], fun h later block ht => ?_⟩
  have hlater : bound ≤ ((ops ++ later).foldl (step P) node).app.lastVerifiedHeight := by
    rw [foldl_append, le_lastVerifiedHeight_run]
    exact .inl ((hover ops).1 h)
  exact Bool.noConfusion (((hover _).2 hlater block.height).symm.trans ht.1)

end Node

section Example

open Tips RevmApplication

/-- A block on the genesis block, before a fresh validator. -/
theorem verification_walk_genesis :
    (((validator 0 1).app.verify platform (validator 0 1).ledger [block, genesis] 0).2.1.knows
      platform block) = true := by
  obtain ⟨⟨app', l', ok⟩, hv⟩ : ∃ result, (validator 0 1).app.verify platform
      (validator 0 1).ledger [block, genesis] 0 = result := ⟨_, rfl⟩
  have hw := verification_walk _ _ [block, genesis] 0 (fun _ _ => rfl) (by decide +kernel)
    hv rfl rfl
  have hok : ((validator 0 1).app.verify platform (validator 0 1).ledger [block, genesis]
      0).2.2 = true := by
    decide +kernel
  rw [hv] at hok ⊢
  exact (hw.1 hok).1 block (by decide +kernel)

/-- A node restarted at height `1`. -/
private def restarted : Node := Node.start platform QmdbStore.new genesis 10 30000000 0 1

private def distant : Block := { block with height := 65 }

/-- Its catch-up ends with a block of height `65` that executes. -/
theorem Node.catch_up_ends_executed :
    restarted.app.isCatchingUp 66 = true ∧ (([.verify distant (some 0) 0] : List Node.Op).foldl
      (Node.step platform) restarted).app.isCatchingUp 66 = false := by
  refine ⟨rfl, (restarted.catch_up_ends (by decide) [.verify distant (some 0) 0] rfl).1.2
    (.inr fun h => h.1 ⟨by decide, by decide +kernel, ?_⟩) 66⟩
  rintro ⟨-, -, e, he⟩
  have hok : (restarted.ledger.executeOnParent platform
      (restarted.app.verifyContext platform distant) distant).isOk = true := by decide +kernel
  rw [he] at hok
  cases hok

end Example

end Kora
