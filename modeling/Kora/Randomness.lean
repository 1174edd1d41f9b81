/-
The randomness of a block (`get_prevrandao` and `verify_block` of
`node/runner/src/app.rs`, `node/consensus/src/components/seed.rs`, the seed reporter of
`node/reporters/src/lib.rs`).

The hash of a seed that consensus reports is recorded under the block, and the builder of
a child takes it as the child's prevrandao. A verifier executes a block under the
prevrandao that the block itself carries.

* `prevrandao_of_reports` — a built block carries the last seed reported for its parent;
* `Validator.prevrandao_bound_iff` — when acceptance binds the blocks on a parent to it.
-/
import Kora.Executor
import Kora.Vote

open Std

namespace Kora

/-! ### Seeds -/

/-- The hashes of the seeds, by block digest. -/
structure InMemorySeedTracker where
  inner : ExtTreeMap Digest B256

namespace InMemorySeedTracker

def new (genesisDigest : Digest) : InMemorySeedTracker :=
  ⟨(∅ : ExtTreeMap Digest B256).insert genesisDigest 0⟩

def get (self : InMemorySeedTracker) (digest : Digest) : Option B256 := self.inner[digest]?

def insert (self : InMemorySeedTracker) (digest : Digest) (seed : B256) : InMemorySeedTracker :=
  ⟨self.inner.insert digest seed⟩

/-- The prevrandao of a child of a block. -/
def getPrevrandao (self : InMemorySeedTracker) (parentDigest : Digest) : B256 :=
  (self.get parentDigest).getD 0

end InMemorySeedTracker

/-- The engine's reports. Votes, certifications, nullifications and equivocations touch no seeds. -/
inductive Activity where
  | notarization (payload : Digest) (seed : Bytes)
  | finalization (payload : Digest) (seed : Bytes)
  | other

def seedReport (keccak256 : Bytes → B256) (seeds : InMemorySeedTracker) :
    Activity → InMemorySeedTracker
  | .notarization payload seed => seeds.insert payload (keccak256 seed)
  | .finalization payload seed => seeds.insert payload (keccak256 seed)
  | .other => seeds

/-- The seed that a report has for a block. -/
def Activity.seedFor (digest : Digest) : Activity → Option Bytes
  | .notarization payload seed | .finalization payload seed =>
    if payload = digest then some seed else none
  | .other => none

theorem getPrevrandao_seedReports (keccak256 : Bytes → B256) (genesisDigest digest : Digest)
    (reports : List Activity) :
    (reports.foldl (seedReport keccak256) (.new genesisDigest)).getPrevrandao digest =
      ((reports.reverse.findSome? (·.seedFor digest)).map keccak256).getD 0 := by
  simp only [InMemorySeedTracker.getPrevrandao, InMemorySeedTracker.get]
  induction reports using List.reverseRecOn with
  | nil =>
    show ((ExtTreeMap.insert _ genesisDigest 0)[digest]?).getD 0 = 0
    rw [ExtTreeMap.getElem?_insert]
    split <;> simp
  | append_singleton reports report ih =>
    rw [List.foldl_concat, List.reverse_concat, List.findSome?_cons]
    cases report with
    | notarization payload seed | finalization payload seed =>
      rw [seedReport, InMemorySeedTracker.insert, ExtTreeMap.getElem?_insert, Activity.seedFor]
      by_cases heq : payload = digest
      · simp [heq]
      · simpa [heq] using ih
    | other => exact ih

/-- **A built block carries the seed** that the builder has for the parent, or zero. -/
theorem prevrandao_buildBlock {P : Platform} {app : RevmApplication} {l : LedgerState}
    {mempool : ℕ → List B256 → List Tx} {seeds : InMemorySeedTracker} {parent block : Block}
    {timestamp : ℕ} (h : (app.buildBlock P l mempool seeds.get parent timestamp).2 = some block) :
    block.prevrandao = seeds.getPrevrandao (P.commitment parent) :=
  (RevmApplication.buildBlock_some P h).2

/-- **From the reports to the block**: the hash of the last seed handled for the parent, or zero. -/
theorem prevrandao_of_reports {P : Platform} {app : RevmApplication} {l : LedgerState}
    {mempool : ℕ → List B256 → List Tx} {genesisDigest : Digest} {reports : List Activity}
    {parent block : Block} {timestamp : ℕ} (h : (app.buildBlock P l mempool
      (reports.foldl (seedReport P.keccak256) (.new genesisDigest)).get parent timestamp).2 =
        some block) :
    block.prevrandao =
      ((reports.reverse.findSome? (·.seedFor (P.commitment parent))).map P.keccak256).getD 0 :=
  (prevrandao_buildBlock h).trans (getPrevrandao_seedReports ..)

section Example

open Tips

private def seedReports : List Activity :=
  [.notarization 1 [5], .finalization 1 [7], .notarization 2 [9]]

theorem prevrandao_of_reports_last : ∃ child, ((validator 0 1).app.buildBlock platform
      (validator 0 1).ledger (fun _ _ => []) (seedReports.foldl (seedReport keccak256) (.new 1)).get
      genesis 0).2 = some child ∧ child.prevrandao = 7 := by
  obtain ⟨child, hc⟩ := Option.isSome_iff_exists.1 (show ((validator 0 1).app.buildBlock platform
    (validator 0 1).ledger (fun _ _ => []) (seedReports.foldl (seedReport keccak256) (.new 1)).get
      genesis 0).2.isSome = true by decide +kernel)
  exact ⟨child, hc, prevrandao_of_reports hc⟩

end Example

/-! ### The verifier -/

namespace Validator

variable {P : Platform} {v : Validator} {block : Block}

/-- The timestamps that a verifier takes for a block, from its clock and the parent's timestamp, are
none at all. -/
def NoTimestamp (parentTimestamp : Option ℕ) (nowSecs : ℕ) : Prop :=
  min (nowSecs + RevmApplication.MAX_FUTURE_TIMESTAMP_DRIFT) U64_MAX < parentTimestamp.getD 0

instance (parentTimestamp : Option ℕ) (nowSecs : ℕ) :
    Decidable (NoTimestamp parentTimestamp nowSecs) :=
  inferInstanceAs (Decidable (_ < _))

theorem timestampRejected_of_noTimestamp {parentTimestamp : Option ℕ} {nowSecs : ℕ}
    (h : NoTimestamp parentTimestamp nowSecs) :
    RevmApplication.timestampRejected block parentTimestamp nowSecs = true := by
  cases parentTimestamp with
  | none => exact absurd h (Nat.not_lt_zero _)
  | some parentTs =>
    have hlt : min (nowSecs + RevmApplication.MAX_FUTURE_TIMESTAMP_DRIFT) U64_MAX < parentTs := h
    simp only [RevmApplication.timestampRejected, Bool.or_eq_true, decide_eq_true_eq]
    omega

/-- An empty block on a parent, with the parent's own root and timestamp. -/
def emptyBlock (parentId stateRoot prevrandao : B256) (height timestamp : ℕ) : Block :=
  { parentId, height, timestamp, prevrandao, stateRoot, txs := [] }

theorem timestampRejected_emptyBlock {parentTimestamp : Option ℕ} {nowSecs : ℕ}
    (h : ¬ NoTimestamp parentTimestamp nowSecs) (parentId stateRoot prevrandao : B256)
    (height : ℕ) :
    RevmApplication.timestampRejected
      (emptyBlock parentId stateRoot prevrandao height (parentTimestamp.getD 0))
      parentTimestamp nowSecs = false := by
  have hle := Nat.not_lt.1 h
  cases parentTimestamp with
  | none => simp [RevmApplication.timestampRejected, emptyBlock]
  | some parentTs => simpa [RevmApplication.timestampRejected, emptyBlock] using hle

/-- **The proposer's choice**: on a held parent an empty block is accepted with every prevrandao. -/
theorem emptyBlock_accepted (R : Revm) {parentId : B256} {parent : Snapshot} {height : ℕ}
    (hs : v.app.isCatchingUp height = false)
    (hparent : v.ledger.snapshots.get (P.sha256 parentId) = some parent)
    {parentTimestamp : Option ℕ} {nowSecs : ℕ} (ht : ¬ NoTimestamp parentTimestamp nowSecs)
    (prevrandao : B256) :
    v.verdict (R.platform P) (emptyBlock parentId
        (StateRoot.transition P.keccak256 parent.stateRoot ChangeSet.new) prevrandao height
        (parentTimestamp.getD 0)) parentTimestamp nowSecs = true := by
  have hget : v.ledger.snapshots.get ((R.platform P).parent (emptyBlock parentId
      (StateRoot.transition P.keccak256 parent.stateRoot ChangeSet.new) prevrandao height
        (parentTimestamp.getD 0))) = some parent := hparent
  refine (verdict_iff (by exact hs) parentTimestamp nowSecs).2
    (.inr ⟨timestampRejected_emptyBlock ht .., ?_⟩)
  rw [rootWith, parentState, LedgerState.parentSnapshot, hget]
  rfl

/-- **When acceptance binds the blocks on a parent to the recorded seed.** All blocks that a
validator outside catch-up accepts on the parent carry that seed exactly if those it already has do,
and it can accept no other one, for want of the parent's snapshot or of an admissible timestamp. -/
theorem prevrandao_bound_iff (R : Revm) {seeds : InMemorySeedTracker} {parentId seed : B256}
    (hseed : seeds.get (P.sha256 parentId) = some seed) {height : ℕ}
    (hsettled : v.app.isCatchingUp height = false) (parentTimestamp : Option ℕ) (nowSecs : ℕ) :
    ((∀ block, block.parentId = parentId → block.height = height →
          v.verdict (R.platform P) block parentTimestamp nowSecs = true →
          block.prevrandao = seeds.getPrevrandao (P.parent block)) ∧
        ∀ block block', block.parentId = parentId → block.height = height →
          block'.parentId = parentId → block'.height = height →
          v.verdict (R.platform P) block parentTimestamp nowSecs = true →
          v.verdict (R.platform P) block' parentTimestamp nowSecs = true →
          block.prevrandao = block'.prevrandao) ↔
      (∀ block, block.parentId = parentId → block.height = height →
          (v.ledger.queryStateRoot (P.commitment block)).isSome = true →
          block.prevrandao = seed) ∧
        (v.ledger.snapshots.get (P.sha256 parentId) = none ∨
          NoTimestamp parentTimestamp nowSecs) := by
  have hp : ∀ block : Block, block.parentId = parentId →
      seeds.getPrevrandao (P.parent block) = seed := fun block hb => by
    rw [Platform.parent, hb, InMemorySeedTracker.getPrevrandao, hseed, Option.getD_some]
  constructor
  · rintro ⟨hall, -⟩
    refine ⟨fun block hb hh hk => ?_, ?_⟩
    · have hv := (verdict_iff (P := R.platform P) (hh ▸ hsettled) parentTimestamp nowSecs).2
        (.inl hk)
      exact (hall block hb hh hv).trans (hp block hb)
    · -- otherwise the empty block with another value than the seed is accepted
      by_contra hc
      obtain ⟨hsome, ht⟩ := not_or.1 hc
      obtain ⟨parent, hparent⟩ := Option.ne_none_iff_exists'.1 hsome
      have hv := emptyBlock_accepted R hsettled hparent ht (seed + 1)
      have heq : seed + 1 = seed := (hall _ rfl rfl hv).trans (hp _ rfl)
      exact absurd heq (by bv_omega)
  · rintro ⟨hknown, hnone⟩
    have hall : ∀ block : Block, block.parentId = parentId → block.height = height →
        v.verdict (R.platform P) block parentTimestamp nowSecs = true →
        block.prevrandao = seed := by
      intro block hb hh hv
      obtain hk | ⟨ht, hroot⟩ :=
        (verdict_iff (P := R.platform P) (hh ▸ hsettled) parentTimestamp nowSecs).1 hv
      · exact hknown block hb hh hk
      · exfalso
        obtain hnone | hno := hnone
        · have hget : v.ledger.snapshots.get ((R.platform P).parent block) = none := by
            rw [← hnone, ← hb]
            rfl
          rw [rootWith, parentState, LedgerState.parentSnapshot, hget] at hroot
          cases hroot
        · rw [timestampRejected_of_noTimestamp hno] at ht
          cases ht
    exact ⟨fun block hb hh hv => (hall block hb hh hv).trans (hp block hb).symm,
      fun block block' hb hh hb' hh' hv hv' =>
        (hall block hb hh hv).trans (hall block' hb' hh' hv').symm⟩

end Validator

/-! ### A block with a chosen value -/

namespace FreeChoice

def genesis : Block := LedgerState.genesisBlock 0 0

/-- An empty block on genesis with a chosen prevrandao. -/
def block (prevrandao : B256) : Block :=
  { parentId := 1, height := 1, timestamp := 0, prevrandao, stateRoot := 0, txs := [] }

/-- An executor that finds no transaction in any bytes. -/
def revm : Revm where
  Db := Unit
  load _ _ := ()
  decodeTxEnv _ := none
  replay _ _ := none
  commit db _ := db
  nonce _ _ := 0

def platform : Platform := revm.platform
  { keccak256 := fun _ => 0
    sha256 := id
    blockId := fun b => if b = genesis then 1 else 2
    txId := fun _ => 0
    consensus := default
    execute := fun _ _ _ => .error "" }

def node : Node := Node.start platform QmdbStore.new genesis 10 30000000 0 0

def validator : Validator := ⟨node.app, node.ledger⟩

theorem eq_genesis_of_known {block : Block}
    (h : (validator.ledger.queryStateRoot (platform.commitment block)).isSome = true) :
    block = genesis := by
  by_contra hb
  have hid : platform.commitment block = 2 := if_neg hb
  rw [hid] at h
  exact absurd h (by decide +kernel)

end FreeChoice

section

open FreeChoice

/-- A fresh node is bound to genesis' seed only while its clock is too far behind genesis. -/
theorem Validator.prevrandao_bound_iff_genesis :
    (∀ block, block.parentId = 1 → block.height = 1 →
        validator.verdict platform block (some 16) 0 = true →
        block.prevrandao = (InMemorySeedTracker.new 1).getPrevrandao (platform.parent block)) ∧
      ¬ ((∀ block, block.parentId = 1 → block.height = 1 →
          validator.verdict platform block (some 16) 1 = true →
          block.prevrandao = (InMemorySeedTracker.new 1).getPrevrandao (platform.parent block)) ∧
        ∀ block block', block.parentId = 1 → block.height = 1 →
          block'.parentId = 1 → block'.height = 1 →
          validator.verdict platform block (some 16) 1 = true →
          validator.verdict platform block' (some 16) 1 = true →
          block.prevrandao = block'.prevrandao) := by
  have hseed : (InMemorySeedTracker.new 1).get (platform.sha256 1) = some 0 := by decide +kernel
  have hs : validator.app.isCatchingUp 1 = false := by decide +kernel
  have hk : ∀ block : Block, block.parentId = 1 → block.height = 1 →
      (validator.ledger.queryStateRoot (platform.commitment block)).isSome = true →
      block.prevrandao = 0 := fun block hb _ h => by
    rw [eq_genesis_of_known h] at hb
    exact absurd hb (by decide)
  refine ⟨((Validator.prevrandao_bound_iff revm hseed hs (some 16) 0).2
    ⟨hk, .inr (by decide)⟩).1, fun h => ?_⟩
  obtain ⟨-, hnone | hno⟩ := (Validator.prevrandao_bound_iff revm hseed hs (some 16) 1).1 h
  · exact absurd hnone (by decide +kernel)
  · exact absurd hno (by decide)

/-- A fresh node has the seed zero for genesis, and accepts an empty block with 1 as with 0. -/
theorem chosen_prevrandao :
    ¬ ∀ (P : Platform) (node : Node) (seeds : InMemorySeedTracker) (block : Block)
        (older : List Block) (nowSecs : ℕ) (seed : B256),
      seeds.get (P.parent block) = some seed →
      node.app.isCatchingUp block.height = false →
      (node.app.verify P node.ledger (block :: older) nowSecs).2.2 = true →
      block.prevrandao = seed := by
  intro h
  have hs := h platform node (InMemorySeedTracker.new 1) (block 1) [genesis] 0 0
    (by decide +kernel) (by decide +kernel) (by decide +kernel)
  exact absurd hs (by decide)

end

end Kora
