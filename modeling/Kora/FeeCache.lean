/-
The size of the application's fee cache (`block_fees` in `node/runner/src/app.rs`).

A block is entered when it is built and when it is verified, and nothing ever leaves the
cache. So it is bounded by the unfinalized blocks only as long as none of its blocks is
finalized (`fee_cache_bounded`).
-/
import Kora.Node
import Kora.OrderedMap
import Kora.Run
import Mathlib.Data.Finset.Card

open Std

namespace Kora

variable (P : Platform)

/-- The block that an operation is about, if there is one. -/
def Node.Op.block (node : Node) : Node.Op → Option Block
  | .build mempool seeds parent timestamp =>
    (node.app.buildBlock P node.ledger mempool seeds parent timestamp).2
  | .verify block _ _ | .finalize block _ => some block
  | .persist _ => none

/-- The block that an operation finalizes. -/
def Node.Op.final : Node.Op → Option Block
  | .finalize block _ => some block
  | .build .. | .verify .. | .persist _ => none

structure KnownBlocks where
  node : Node
  known : Finset Digest
  finalized : Finset Digest

namespace KnownBlocks

def start (node : Node) : KnownBlocks := ⟨node, ∅, ∅⟩

def step (self : KnownBlocks) (op : Node.Op) : KnownBlocks where
  node := self.node.step P op
  known := (op.block P self.node).elim self.known fun block =>
    insert (P.commitment block) self.known
  finalized := op.final.elim self.finalized fun block =>
    insert (P.commitment block) self.finalized

/-- The unfinalized blocks that the node knows. -/
def unfinalized (self : KnownBlocks) : Finset Digest := self.known \ self.finalized

/-- No block cached since the start is finalized, and no finalized one is built or verified. -/
def Separate (seeds : ExtTreeMap Digest (ℕ × ℕ)) (self : KnownBlocks) (op : Node.Op) : Prop :=
  (∀ block, op.final = some block → P.commitment block ∈ self.node.app.blockFees →
    P.commitment block ∈ seeds) ∧
  ∀ block, op.block P self.node = some block → op.final = none →
    P.commitment block ∉ self.finalized

variable {P} {seeds : ExtTreeMap Digest (ℕ × ℕ)} {self : KnownBlocks}

/-- What is cached was seeded, or is an unfinalized block. -/
def Covered (seeds : ExtTreeMap Digest (ℕ × ℕ)) (self : KnownBlocks) : Prop :=
  ∀ digest ∈ self.node.app.blockFees, digest ∈ seeds ∨ digest ∈ self.unfinalized

theorem blockFees_step (node : Node) (op : Node.Op) :
    (node.step P op).app.blockFees = node.app.blockFees ∨
      ∃ block entry, op.block P node = some block ∧ op.final = none ∧
        (node.step P op).app.blockFees = node.app.blockFees.insert (P.commitment block) entry := by
  cases op with
  | build mempool seeds parent timestamp =>
    rw [Node.step, Node.Op.block]
    rcases node.app.buildBlock_cases P node.ledger mempool seeds parent timestamp
      with hres | ⟨block, snapshot, outcome, -, -, -, -, hres⟩
    · rw [hres]
      exact .inl rfl
    · rw [hres]
      exact .inr ⟨block, _, rfl, rfl, rfl⟩
  | verify block parentTimestamp nowSecs =>
    rw [Node.step]
    rcases node.app.verifyBlock_cases P node.ledger block parentTimestamp nowSecs
      with ⟨height, ok, hres⟩ | ⟨-, hres⟩ | ⟨parent, outcome, -, -, hres⟩
    · rw [hres]
      exact .inl rfl
    · rw [hres]
      exact .inl rfl
    · rw [hres]
      exact .inr ⟨block, _, rfl, rfl, rfl⟩
  | finalize block persistCheckpoint | persist digest => exact .inl rfl

theorem Covered.step (h : Covered seeds self) {op : Node.Op} (hop : self.Separate P seeds op) :
    Covered seeds (self.step P op) := by
  have hknown : self.known ⊆ (self.step P op).known := by
    rw [KnownBlocks.step]
    cases op.block P self.node with
    | none => exact subset_rfl
    | some block => exact Finset.subset_insert _ _
  -- what was cached before stays covered
  have hold : ∀ digest ∈ self.node.app.blockFees,
      digest ∈ seeds ∨ digest ∈ (self.step P op).unfinalized := by
    intro digest hd
    refine (Decidable.em (digest ∈ seeds)).imp_right fun hs => ?_
    obtain ⟨hk, hf⟩ := Finset.mem_sdiff.1 ((h digest hd).resolve_left hs)
    refine Finset.mem_sdiff.2 ⟨hknown hk, ?_⟩
    rw [KnownBlocks.step]
    cases hfinal : op.final with
    | none => exact hf
    | some block =>
      refine fun hmem => (Finset.mem_insert.1 hmem).elim (fun heq => hs ?_) hf
      subst heq
      exact hop.1 block hfinal hd
  rcases blockFees_step self.node op with heq | ⟨block, entry, hb, hfinal, heq⟩
  · rw [Covered, KnownBlocks.step, heq]
    exact hold
  · intro digest hd
    rw [KnownBlocks.step, heq, ExtTreeMap.mem_insert] at hd
    rcases hd with hnew | hd
    · obtain rfl := LawfulEqCmp.compare_eq_iff_eq.1 hnew
      refine .inr (Finset.mem_sdiff.2 ?_)
      rw [KnownBlocks.step, hb, hfinal]
      exact ⟨Finset.mem_insert_self _ _, hop.2 block hb hfinal⟩
    · exact hold digest hd

theorem Covered.size_le (h : Covered seeds self) :
    self.node.app.blockFees.size ≤ self.unfinalized.card + seeds.size := by
  have hsize : self.node.app.blockFees.size ≤ (self.unfinalized.toList ++ seeds.keys).length := by
    refine OrderedMap.size_le_length fun digest hd => List.mem_append.2 ?_
    exact (h digest hd).symm.imp Finset.mem_toList.2 ExtTreeMap.mem_keys.2
  rwa [List.length_append, Finset.length_toList, ExtTreeMap.length_keys] at hsize

end KnownBlocks

open KnownBlocks

/-- **The cache is bounded** by the unfinalized blocks and the entries of the start, in every run in
which no block that was cached since the start is or becomes final. -/
theorem fee_cache_bounded (node : Node) (ops : List Node.Op)
    (hrun : Run.Along (KnownBlocks.step P) (Separate P node.app.blockFees) (.start node) ops)
    (k : ℕ) :
    ((ops.take k).foldl (KnownBlocks.step P) (.start node)).node.app.blockFees.size ≤
      ((ops.take k).foldl (KnownBlocks.step P) (.start node)).unfinalized.card +
        node.app.blockFees.size :=
  Covered.size_le ((hrun.take k).invariant (fun _ hd => .inl hd) fun _ _ h hop => h.step hop)

section Example

open ThreeBlocks

/-- A fresh node. -/
private def freshNode : Node := Node.start platform QmdbStore.new (block 0) 10 30000000 0 0

theorem fee_cache_bounded_verify :
    ([Node.Op.verify (block 1) none 0].foldl (KnownBlocks.step platform)
        (.start freshNode)).node.app.blockFees.size ≤
      ([Node.Op.verify (block 1) none 0].foldl (KnownBlocks.step platform)
        (.start freshNode)).unfinalized.card + freshNode.app.blockFees.size :=
  fee_cache_bounded platform freshNode [.verify (block 1) none 0]
    ⟨⟨nofun, fun _ _ _ => Finset.notMem_empty _⟩, trivial⟩ 1

/-- A block verified and finalized: none is unfinalized, and there is one entry more. -/
theorem fee_cache_outgrows :
    ¬ ∀ (P : Platform) (node : Node) (ops : List Node.Op),
      (ops.foldl (KnownBlocks.step P) (.start node)).node.app.blockFees.size ≤
        (ops.foldl (KnownBlocks.step P) (.start node)).unfinalized.card +
          node.app.blockFees.size := by
  intro h
  have hle := h platform freshNode [.verify (block 1) none 0, .finalize (block 1) false]
  exact absurd hle (by decide +kernel)

end Example

end Kora
