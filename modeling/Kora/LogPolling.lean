/-
Polling a log filter (`new_filter` and `get_filter_changes` in `node/rpc/src/eth.rs`,
`get_logs` in `node/rpc/src/indexed_provider.rs`).

A poll asks for the logs of the blocks behind the cursor, up to the head and the filter's
own end, and moves the cursor to the head. The provider refuses a range that is empty or
longer than 10000 blocks, and then the cursor stays.

* `InLimits` — no poll asks for a range that is refused, or for a block that is pruned;
* `polls_deliver_once` — such polls deliver each log once, in order.
-/
import Kora.LiveState
import Kora.LogQuery

open List

namespace Kora

/-! ### The queries of a provider -/

/-- One value to filter by, or several. -/
inductive ValueFilter (α : Type) where
  | single (value : α)
  | multiple (values : List α)

def ValueFilter.intoVec {α : Type} : ValueFilter α → List α
  | single value => [value]
  | multiple values => values

/-- Log filter for `eth_getLogs` queries. -/
structure RpcLogFilter where
  fromBlock : Option BlockNumberOrTag
  toBlock : Option BlockNumberOrTag
  address : Option (ValueFilter Address)
  topics : Option (List (Option (ValueFilter B256)))
  blockHash : Option B256

namespace RpcLogFilter

/-- The filter of the index, for a range of blocks. Topics behind the fourth are ignored. -/
def logFilter (self : RpcLogFilter) (fromBlock toBlock : ℕ) : LogFilter where
  fromBlock := some fromBlock
  toBlock := some toBlock
  address := self.address.map (·.intoVec)
  topics i := ((self.topics.getD [])[i.val]?).join.map (·.intoVec)

def Matches (self : RpcLogFilter) (log : IndexedLog) : Prop := (self.logFilter 0 0).Matches log

end RpcLogFilter

structure RpcLog extends IndexedLog where
  removed : Bool
deriving DecidableEq

def RpcLog.ofIndexedLog (log : IndexedLog) : RpcLog := { log with removed := false }

def MAX_LOG_BLOCK_RANGE : ℕ := 10000

namespace BlockIndex

def resolveTag (self : BlockIndex) : BlockTag → ℕ
  | .latest | .safe | .finalized | .pending => self.headBlock
  | .earliest => 0

def resolveBlockNumber (self : BlockIndex) : BlockNumberOrTag → ℕ
  | .number number => number.toNat
  | .tag tag => self.resolveTag tag
  | .latest => self.headBlock

/-- The logs that a filter of the index finds, as they are sent. -/
def rpcLogs (self : BlockIndex) (filter : LogFilter) : List RpcLog :=
  (self.getLogs filter).map .ofIndexedLog

def providerGetLogs (self : BlockIndex) (filter : RpcLogFilter) :
    Except RpcError (List RpcLog) :=
  if filter.blockHash.isSome && (filter.fromBlock.isSome || filter.toBlock.isSome) then
    .error (.invalidParams "blockHash is mutually exclusive with fromBlock/toBlock")
  else
    match filter.blockHash with
    | some blockHash =>
      match self.getBlockByHash blockHash with
      | none => .error (.invalidParams "block not found")
      | some block => .ok (self.rpcLogs (filter.logFilter block.number block.number))
    | none =>
      let head := self.headBlock
      let fromBlock := (filter.fromBlock.map self.resolveBlockNumber).getD 0
      let toBlock := min ((filter.toBlock.map self.resolveBlockNumber).getD head) head
      if fromBlock > toBlock then
        .error (.invalidParams "fromBlock must not be greater than toBlock")
      else if toBlock - fromBlock > MAX_LOG_BLOCK_RANGE then
        .error (.invalidParams s!"block range exceeds maximum of {MAX_LOG_BLOCK_RANGE}")
      else .ok (self.rpcLogs (filter.logFilter fromBlock toBlock))

end BlockIndex

/-! ### The cursor of a filter -/

/-- A log filter with its cursor, the last block included by a poll. -/
structure LogCursor where
  criteria : RpcLogFilter
  lastPollBlock : Option ℕ

/-- Create a log filter while the index has a head. -/
def newFilter (head : ℕ) (filter : RpcLogFilter) : LogCursor where
  criteria := filter
  lastPollBlock :=
    if filter.blockHash.isSome then none
    else
      match filter.fromBlock with
      -- The cursor is the last block included, so the first poll begins at the bound.
      | some (.number number) => if number.toNat = 0 then none else some (number.toNat - 1)
      | some (.tag .earliest) => none
      | _ => some head

namespace LogCursor

/-- The block behind the cursor. -/
def next (self : LogCursor) : ℕ := self.lastPollBlock.elim 0 (· + 1)

/-- Ask the provider for logs. Only if it answers, the cursor moves to the head. -/
def advance (self : LogCursor) (index : BlockIndex) (changesFilter : RpcLogFilter) :
    LogCursor × Except RpcError (List RpcLog) :=
  match index.providerGetLogs changesFilter with
  | .error e => (self, .error e)
  | .ok logs => ({ self with lastPollBlock := some index.headBlock }, .ok logs)

/-- The filter for the blocks behind the cursor. -/
def changesFilter (self : LogCursor) (head : ℕ) : RpcLogFilter :=
  let fromBlock := self.lastPollBlock.elim 0 fun lpb => min (lpb + 1) U64_MAX
  let toBlock :=
    match self.criteria.toBlock with
    | some (.number number) => min number.toNat head
    | _ => head
  { self.criteria with
    fromBlock := some (.number (BitVec.ofNat 64 fromBlock))
    toBlock := some (.number (BitVec.ofNat 64 toBlock))
    blockHash := none }

def getFilterChanges (self : LogCursor) (index : BlockIndex) :
    LogCursor × Except RpcError (List RpcLog) :=
  if self.lastPollBlock.any (index.headBlock ≤ ·) then (self, .ok [])
  else if self.criteria.blockHash.isSome then
    if self.lastPollBlock.isSome then (self, .ok []) else self.advance index self.criteria
  else self.advance index (self.changesFilter index.headBlock)

end LogCursor

/-- A filter whose bounds are numbers. -/
structure RpcLogFilter.Bounded (filter : RpcLogFilter) (first last : U64) : Prop where
  fromBlock : filter.fromBlock = some (.number first)
  toBlock : filter.toBlock = some (.number last)
  blockHash : filter.blockHash = none

theorem RpcLogFilter.Bounded.providerGetLogs {filter : RpcLogFilter} {first last : U64}
    (h : filter.Bounded first last) (index : BlockIndex) :
    index.providerGetLogs filter =
      if first.toNat > min last.toNat index.headBlock then
        .error (.invalidParams "fromBlock must not be greater than toBlock")
      else if min last.toNat index.headBlock - first.toNat > MAX_LOG_BLOCK_RANGE then
        .error (.invalidParams s!"block range exceeds maximum of {MAX_LOG_BLOCK_RANGE}")
      else
        .ok (index.rpcLogs (filter.logFilter first.toNat (min last.toNat index.headBlock))) := by
  rw [BlockIndex.providerGetLogs, h.blockHash, h.fromBlock, h.toBlock]
  rfl

namespace LogCursor

variable {cursor : LogCursor} {first last : U64} {index : BlockIndex}

theorem next_newFilter {filter : RpcLogFilter} (h : filter.Bounded first last) (head : ℕ) :
    (newFilter head filter).next = first.toNat := by
  rw [next, newFilter, h.blockHash, h.fromBlock]
  dsimp only
  rw [if_neg (by simp)]
  split
  · next hzero => exact hzero.symm
  · next hne => exact Nat.sub_add_cancel (Nat.pos_of_ne_zero hne)

theorem getFilterChanges_of_lt (hlt : index.headBlock < cursor.next) :
    cursor.getFilterChanges index = (cursor, .ok []) := by
  have hany : cursor.lastPollBlock.any (index.headBlock ≤ ·) = true := by
    rw [next] at hlt
    cases hl : cursor.lastPollBlock with
    | none =>
      rw [hl] at hlt
      exact absurd hlt (Nat.not_lt_zero _)
    | some lpb =>
      rw [hl] at hlt
      exact decide_eq_true (Nat.le_of_lt_succ hlt)
  rw [getFilterChanges, if_pos hany]

theorem bounded_changesFilter (h : cursor.criteria.Bounded first last) {head : ℕ}
    (hh : head < 2 ^ 64) (hle : cursor.next ≤ head) :
    (cursor.changesFilter head).Bounded (BitVec.ofNat 64 cursor.next)
      (BitVec.ofNat 64 (min last.toNat head)) where
  fromBlock := by
    have hn : (cursor.lastPollBlock.elim 0 fun lpb => min (lpb + 1) U64_MAX) =
        cursor.next := by
      rw [next] at hle ⊢
      cases hl : cursor.lastPollBlock with
      | none => rfl
      | some lpb =>
        rw [hl] at hle
        exact Nat.min_eq_left (hle.trans (Nat.le_of_lt_succ hh))
    rw [← hn]
    rfl
  toBlock := by
    rw [changesFilter, h.toBlock]
  blockHash := rfl

theorem any_lastPollBlock (hle : cursor.next ≤ index.headBlock) :
    cursor.lastPollBlock.any (index.headBlock ≤ ·) = false := by
  rw [next] at hle
  cases hl : cursor.lastPollBlock with
  | none => rfl
  | some lpb =>
    rw [hl] at hle
    exact decide_eq_false (Nat.not_le.2 hle)

theorem getFilterChanges_of_le (h : cursor.criteria.Bounded first last)
    (hh : index.headBlock < 2 ^ 64) (hle : cursor.next ≤ index.headBlock) :
    cursor.getFilterChanges index =
      if cursor.next > min last.toNat index.headBlock then
        (cursor, .error (.invalidParams "fromBlock must not be greater than toBlock"))
      else if min last.toNat index.headBlock - cursor.next > MAX_LOG_BLOCK_RANGE then
        (cursor, .error (.invalidParams
          s!"block range exceeds maximum of {MAX_LOG_BLOCK_RANGE}"))
      else
        ({ cursor with lastPollBlock := some index.headBlock }, .ok (index.rpcLogs
          (cursor.criteria.logFilter cursor.next (min last.toNat index.headBlock)))) := by
  have hf : (BitVec.ofNat 64 cursor.next).toNat = cursor.next := by
    rw [BitVec.toNat_ofNat, Nat.mod_eq_of_lt (hle.trans_lt hh)]
  have hl : (BitVec.ofNat 64 (min last.toNat index.headBlock)).toNat =
      min last.toNat index.headBlock := by
    rw [BitVec.toNat_ofNat, Nat.mod_eq_of_lt ((min_le_right _ _).trans_lt hh)]
  rw [getFilterChanges, any_lastPollBlock hle, h.blockHash, Option.isSome_none,
    if_neg Bool.false_ne_true, if_neg Bool.false_ne_true, advance,
    (bounded_changesFilter h hh hle).providerGetLogs, hf, hl, min_assoc, min_self]
  split_ifs
  · rfl
  · rfl
  · rfl

end LogCursor

/-! ### Polls while the index grows -/

variable {P : Platform}

variable (P) in
structure Polling where
  ops : List (IndexerOp P)
  cursor : LogCursor
  results : List (Except RpcError (List RpcLog))

namespace Polling

def start (ops : List (IndexerOp P)) (criteria : RpcLogFilter) : Polling P :=
  ⟨ops, newFilter (IndexerOp.filled ops).headBlock criteria, []⟩

/-- The finalizer goes on, and then the filter is polled. -/
def poll (self : Polling P) (batch : List (IndexerOp P)) : Polling P :=
  let changes := self.cursor.getFilterChanges (IndexerOp.filled (self.ops ++ batch))
  ⟨self.ops ++ batch, changes.1, self.results ++ [changes.2]⟩

def polls (self : Polling P) (batches : List (List (IndexerOp P))) :
    Polling P :=
  batches.foldl poll self

def answered : Except RpcError (List RpcLog) → List RpcLog
  | .ok logs => logs
  | .error _ => []

def delivered (self : Polling P) : List RpcLog := self.results.flatMap answered

/-- The head at the last poll. -/
def head (self : Polling P) : ℕ := (IndexerOp.filled self.ops).headBlock

end Polling

/-- No poll fails; together they deliver the matching logs from the start to the end or the last
head, once and in order. -/
structure DeliversOnce (state : Polling P) (criteria : RpcLogFilter) (first last : U64) :
    Prop where
  noFailure : ∀ result ∈ state.results, ∃ logs, result = .ok logs
  exact : ∃ logs : List IndexedLog, state.delivered = logs.map .ofIndexedLog ∧
    (∀ log, log ∈ logs ↔ ∃ finalized ∈ IndexerOp.indexed state.ops,
      first.toNat ≤ finalized.block.height ∧
        finalized.block.height ≤ min last.toNat state.head ∧
          log ∈ finalized.entry.logs ∧ criteria.Matches log) ∧
    logs.Pairwise IndexedLog.Before

/-- Each block is indexed above the head, and heights are machine words. -/
def Ascending (ops : List (IndexerOp P)) : Prop :=
  ∀ past finalized, past ++ [.indexFinalizedBlock finalized] <+: ops →
    (IndexerOp.filled past).headBlock < finalized.block.height ∧
      finalized.block.height < 2 ^ 64

/-- A poll from `next` on is in limits: it has no blocks, or few enough and none of them pruned. -/
def Pollable (last next : ℕ) (ops : List (IndexerOp P)) : Prop :=
  (IndexerOp.filled ops).headBlock < next ∨
    next ≤ last ∧ min last (IndexerOp.filled ops).headBlock - next ≤ MAX_LOG_BLOCK_RANGE ∧
      ∀ minBlockNumber, .pruneBefore minBlockNumber ∈ ops → minBlockNumber ≤ next

/-- All polls are, where each of them leaves the head behind. -/
def InLimits (last : ℕ) : ℕ → List (IndexerOp P) → List (List (IndexerOp P)) → Prop
  | _, _, [] => True
  | next, ops, batch :: batches =>
    Pollable last next (ops ++ batch) ∧
      InLimits last (max next ((IndexerOp.filled (ops ++ batch)).headBlock + 1)) (ops ++ batch)
        batches

/-! ### The index as it grows -/

namespace IndexerOp

variable {ops batch : List (IndexerOp P)} {finalized : FinalizedBlock P}

theorem headBlock_indexFinalizedBlock :
    (filled (ops ++ [indexFinalizedBlock finalized])).headBlock =
      max (filled ops).headBlock finalized.block.height := by
  rw [filled, foldl_append]
  rfl

theorem headBlock_pruneBefore {minBlockNumber : ℕ} :
    (filled (ops ++ [pruneBefore minBlockNumber])).headBlock = (filled ops).headBlock := by
  rw [filled, foldl_append]
  rfl

theorem headBlock_le_append : (filled ops).headBlock ≤ (filled (ops ++ batch)).headBlock := by
  induction batch using List.reverseRecOn with
  | nil => rw [append_nil]
  | append_singleton batch self ih =>
    rw [← append_assoc]
    cases self with
    | indexFinalizedBlock finalized =>
      rw [headBlock_indexFinalizedBlock]
      exact ih.trans (le_max_left _ _)
    | pruneBefore minBlockNumber =>
      rw [headBlock_pruneBefore]
      exact ih

theorem height_le_headBlock (h : finalized ∈ indexed ops) :
    finalized.block.height ≤ (filled ops).headBlock := by
  obtain ⟨past, later, rfl⟩ := List.append_of_mem h
  rw [append_cons]
  refine le_trans ?_ headBlock_le_append
  rw [headBlock_indexFinalizedBlock]
  exact le_max_right _ _

theorem retained_subset_indexed : retained ops ⊆ indexed ops := by
  induction ops using List.reverseRecOn with
  | nil => exact Set.empty_subset _
  | append_singleton ops self ih =>
    rw [retained_concat]
    intro finalized hmem
    cases self with
    | indexFinalizedBlock finalized' =>
      rcases hmem with rfl | hmem
      · exact mem_append_right _ mem_cons_self
      · exact mem_append_left _ (ih hmem)
    | pruneBefore minBlockNumber => exact mem_append_left _ (ih hmem.1)

theorem mem_retained (h : finalized ∈ indexed ops)
    (hp : ∀ minBlockNumber, pruneBefore minBlockNumber ∈ ops →
      minBlockNumber ≤ finalized.block.height) : finalized ∈ retained ops := by
  induction ops using List.reverseRecOn with
  | nil => cases h
  | append_singleton ops self ih =>
    have ih' := fun h => ih h fun n hn => hp n (mem_append_left _ hn)
    rw [retained_concat]
    rcases mem_append.1 h with hold | hnew
    · cases self with
      | indexFinalizedBlock finalized' => exact .inr (ih' hold)
      | pruneBefore minBlockNumber =>
        exact ⟨ih' hold, hp _ (mem_append_right _ mem_cons_self)⟩
    · rw [← mem_singleton.1 hnew]
      exact .inl rfl

end IndexerOp

namespace Ascending

variable {ops batch : List (IndexerOp P)} {finalized : FinalizedBlock P}

theorem nil : Ascending ([] : List (IndexerOp P)) := by
  intro past finalized hp
  exact absurd (prefix_nil.1 hp) (append_ne_nil_of_right_ne_nil _ (by simp))

theorem indexFinalizedBlock (h : Ascending ops)
    (hlt : (IndexerOp.filled ops).headBlock < finalized.block.height)
    (hb : finalized.block.height < 2 ^ 64) :
    Ascending (ops ++ [.indexFinalizedBlock finalized]) := by
  intro past finalized' hp
  rcases prefix_concat_iff.1 hp with heq | he
  · obtain ⟨rfl, hl⟩ := append_inj' heq rfl
    obtain rfl := IndexerOp.indexFinalizedBlock.inj (singleton_inj.1 hl)
    exact ⟨hlt, hb⟩
  · exact h past finalized' he

theorem of_append (h : Ascending (ops ++ batch)) : Ascending ops :=
  fun past finalized hp => h past finalized (hp.trans (prefix_append ops batch))

theorem headBlock_lt_height (h : Ascending (ops ++ batch))
    (hmem : IndexerOp.indexFinalizedBlock finalized ∈ batch) :
    (IndexerOp.filled ops).headBlock < finalized.block.height := by
  obtain ⟨past, later, rfl⟩ := List.append_of_mem hmem
  refine IndexerOp.headBlock_le_append.trans_lt (h (ops ++ past) finalized ?_).1
  refine ⟨later, ?_⟩
  rw [append_assoc, append_assoc, singleton_append]

theorem headBlock_lt (h : Ascending ops) : (IndexerOp.filled ops).headBlock < 2 ^ 64 := by
  induction ops using List.reverseRecOn with
  | nil => exact Nat.two_pow_pos 64
  | append_singleton ops self ih =>
    cases self with
    | indexFinalizedBlock finalized =>
      rw [IndexerOp.headBlock_indexFinalizedBlock]
      exact max_lt (ih h.of_append) (h ops finalized prefix_rfl).2
    | pruneBefore minBlockNumber =>
      rw [IndexerOp.headBlock_pruneBefore]
      exact ih h.of_append

end Ascending

/-! ### What the polls deliver -/

/-- The logs are the matching ones of the indexed blocks in `[first, next)`, up to the end of the
filter. -/
structure Covers (logs : List IndexedLog) (ops : List (IndexerOp P))
    (criteria : RpcLogFilter) (first last next : ℕ) : Prop where
  mem_iff : ∀ log, log ∈ logs ↔ ∃ finalized ∈ IndexerOp.indexed ops,
    (first ≤ finalized.block.height ∧ finalized.block.height < next ∧
      finalized.block.height ≤ last) ∧ log ∈ finalized.entry.logs ∧ criteria.Matches log
  ordered : logs.Pairwise IndexedLog.Before

namespace Covers

variable {logs logs' : List IndexedLog} {ops batch : List (IndexerOp P)}
  {criteria : RpcLogFilter} {first last next next' : ℕ}

theorem append (h : Covers logs ops criteria first last next)
    (ha : Ascending (ops ++ batch))
    (hn : next ≤ max first ((IndexerOp.filled ops).headBlock + 1)) :
    Covers logs (ops ++ batch) criteria first last next := by
  refine ⟨fun log => ?_, h.ordered⟩
  rw [h.mem_iff]
  constructor
  · rintro ⟨finalized, hmem, hlog⟩
    exact ⟨finalized, mem_append_left _ hmem, hlog⟩
  · rintro ⟨finalized, hmem, hr, hlog⟩
    rcases mem_append.1 hmem with hold | hnew
    · exact ⟨finalized, hold, hr, hlog⟩
    · have hlt := ha.headBlock_lt_height hnew
      omega

theorem concat (h : Covers logs ops criteria first last next)
    (h' : Covers logs' ops criteria next last next') (hf : first ≤ next)
    (hnx : next ≤ next') : Covers (logs ++ logs') ops criteria first last next' := by
  refine ⟨fun log => ?_, ?_⟩
  · rw [mem_append, h.mem_iff, h'.mem_iff]
    constructor
    · rintro (⟨finalized, hmem, hr, hlog⟩ | ⟨finalized, hmem, hr, hlog⟩)
      · exact ⟨finalized, hmem, by omega, hlog⟩
      · exact ⟨finalized, hmem, by omega, hlog⟩
    · rintro ⟨finalized, hmem, hr, hlog⟩
      rcases Nat.lt_or_ge finalized.block.height next with hlt | hge
      · exact .inl ⟨finalized, hmem, by omega, hlog⟩
      · exact .inr ⟨finalized, hmem, by omega, hlog⟩
  · refine pairwise_append.2 ⟨h.ordered, h'.ordered, fun log hlog log' hlog' => .inl ?_⟩
    obtain ⟨finalized, -, hr, hmem, -⟩ := (h.mem_iff log).1 hlog
    obtain ⟨finalized', -, hr', hmem', -⟩ := (h'.mem_iff log').1 hlog'
    have hn : log.blockNumber = finalized.block.height :=
      finalized.ordered_entry.ofBlock log hmem
    have hn' : log'.blockNumber = finalized'.block.height :=
      finalized'.ordered_entry.ofBlock log' hmem'
    omega

theorem getLogs
    (hone : OneBlockPerNumber (Set.image FinalizedBlock.entry (IndexerOp.indexed ops)))
    (hp : ∀ minBlockNumber, .pruneBefore minBlockNumber ∈ ops → minBlockNumber ≤ next) :
    Covers ((IndexerOp.filled ops).getLogs
        (criteria.logFilter next (min last (IndexerOp.filled ops).headBlock)))
      ops criteria next last ((IndexerOp.filled ops).headBlock + 1) := by
  have hh := IndexerOp.holdsBlocks_filled hone
  refine ⟨fun log => ?_, hh.pairwise_getLogs ?_ _⟩
  · rw [hh.mem_getLogs]
    constructor
    · rintro ⟨-, ⟨finalized, hmem, rfl⟩, hr, hlog⟩
      have hf : next ≤ finalized.block.height := hr.1 next rfl
      have hto : finalized.block.height ≤ min last (IndexerOp.filled ops).headBlock :=
        hr.2 _ rfl
      exact ⟨finalized, IndexerOp.retained_subset_indexed hmem, by omega, hlog⟩
    · rintro ⟨finalized, hmem, hr, hlog⟩
      have hrt := IndexerOp.mem_retained hmem fun n hn => (hp n hn).trans hr.1
      refine ⟨finalized.entry, ⟨finalized, hrt, rfl⟩, ⟨?_, ?_⟩, hlog⟩
      · intro bound hb
        rw [← Option.some.inj hb]
        exact hr.1
      · intro bound hb
        rw [← Option.some.inj hb]
        exact le_min hr.2.2 (Nat.le_of_lt_succ hr.2.1)
  · rintro - ⟨finalized, -, rfl⟩
    exact finalized.ordered_entry

end Covers

/-- What holds between polls: all logs before `next` have been delivered. -/
structure Delivering (state : Polling P) (criteria : RpcLogFilter) (first last : U64)
    (next : ℕ) : Prop where
  criteria_eq : state.cursor.criteria = criteria
  next_eq : state.cursor.next = next
  first_le : first.toNat ≤ next
  next_le : next ≤ max first.toNat (state.head + 1)
  noFailure : ∀ result ∈ state.results, ∃ logs, result = .ok logs
  covers : ∃ logs : List IndexedLog, state.delivered = logs.map .ofIndexedLog ∧
    Covers logs state.ops criteria first.toNat last.toNat next

namespace Delivering

variable {state : Polling P} {criteria : RpcLogFilter} {first last : U64} {next : ℕ}
  {ops batch : List (IndexerOp P)}

theorem start (h : criteria.Bounded first last) (ops : List (IndexerOp P)) :
    Delivering (Polling.start ops criteria) criteria first last first.toNat where
  criteria_eq := rfl
  next_eq := LogCursor.next_newFilter h _
  first_le := le_rfl
  next_le := le_max_left _ _
  noFailure _ hr := absurd hr not_mem_nil
  covers := by
    refine ⟨[], rfl, fun log => ⟨fun hlog => absurd hlog not_mem_nil, ?_⟩, .nil⟩
    rintro ⟨finalized, -, hrn, -⟩
    omega

variable (h : Delivering state criteria first last next)
include h

theorem answer {cursor : LogCursor} {next' : ℕ} (logs' : List IndexedLog)
    (hc : cursor.criteria = criteria) (hcr : cursor.next = next') (hn : next ≤ next')
    (hle : next' ≤ max first.toNat ((IndexerOp.filled ops).headBlock + 1))
    (hcv : ∀ logs, Covers logs state.ops criteria first.toNat last.toNat next →
      Covers (logs ++ logs') ops criteria first.toNat last.toNat next') :
    Delivering ⟨ops, cursor, state.results ++ [.ok (logs'.map .ofIndexedLog)]⟩ criteria first last
      next' where
  criteria_eq := hc
  next_eq := hcr
  first_le := h.first_le.trans hn
  next_le := hle
  noFailure := by
    intro result hr
    rcases mem_append.1 hr with hold | hnew
    · exact h.noFailure result hold
    · exact ⟨_, mem_singleton.1 hnew⟩
  covers := by
    obtain ⟨logs, hd, hl⟩ := h.covers
    refine ⟨logs ++ logs', ?_, hcv logs hl⟩
    rw [map_append, ← hd]
    simp [Polling.delivered, Polling.answered]

theorem poll (hb : criteria.Bounded first last)
    (hone : OneBlockPerNumber (Set.image FinalizedBlock.entry
      (IndexerOp.indexed (state.ops ++ batch)))) (ha : Ascending (state.ops ++ batch))
    (hlm : Pollable last.toNat next (state.ops ++ batch)) :
    Delivering (state.poll batch) criteria first last
      (max next ((IndexerOp.filled (state.ops ++ batch)).headBlock + 1)) := by
  have hn := h.next_le
  have hh : state.head ≤ (IndexerOp.filled (state.ops ++ batch)).headBlock :=
    IndexerOp.headBlock_le_append
  rw [Polling.poll]
  rcases Nat.lt_or_ge (IndexerOp.filled (state.ops ++ batch)).headBlock next with hlt | hge
  · -- nothing new, and an empty answer
    rw [LogCursor.getFilterChanges_of_lt (by rwa [h.next_eq]), max_eq_left hlt]
    refine h.answer [] h.criteria_eq h.next_eq le_rfl (by omega) fun logs hl => ?_
    rw [append_nil]
    exact hl.append ha hn
  · -- the blocks from the cursor to the head, or to the end of the filter
    obtain ⟨hls, hr, hp⟩ := hlm.resolve_left (Nat.not_lt.2 hge)
    have hb' : state.cursor.criteria.Bounded first last := by rwa [h.criteria_eq]
    rw [LogCursor.getFilterChanges_of_le hb' ha.headBlock_lt (by rwa [h.next_eq]),
      h.next_eq, if_neg (Nat.not_lt.2 (le_min hls hge)), if_neg (Nat.not_lt.2 hr),
      max_eq_right (hge.trans (Nat.le_succ _))]
    refine h.answer _ h.criteria_eq rfl (hge.trans (Nat.le_succ _)) (le_max_right _ _)
      fun logs hl => ?_
    rw [h.criteria_eq]
    exact (hl.append ha hn).concat (Covers.getLogs hone hp) h.first_le
      (hge.trans (Nat.le_succ _))

theorem polls (hb : criteria.Bounded first last) {batches : List (List (IndexerOp P))}
    (hone : OneBlockPerNumber (Set.image FinalizedBlock.entry
      (IndexerOp.indexed (state.ops ++ batches.flatten))))
    (ha : Ascending (state.ops ++ batches.flatten))
    (hl : InLimits last.toNat next state.ops batches) :
    ∃ next', Delivering (state.polls batches) criteria first last next' ∧
      (batches ≠ [] ∨ state.head < next → (state.polls batches).head < next') := by
  induction batches generalizing state next with
  | nil => exact ⟨next, h, fun hor => hor.resolve_left fun hne => hne rfl⟩
  | cons batch batches ih =>
    rw [flatten_cons, ← append_assoc] at hone ha
    have hone' : OneBlockPerNumber (Set.image FinalizedBlock.entry
        (IndexerOp.indexed (state.ops ++ batch))) :=
      hone.mono (Set.image_mono fun finalized hmem => mem_append_left _ hmem)
    have hpl := h.poll hb hone' ha.of_append hl.1
    obtain ⟨next', hp, hh⟩ := ih hpl hone ha hl.2
    exact ⟨next', hp, fun _ => hh (.inr (Nat.lt_of_succ_le (le_max_right _ _)))⟩

end Delivering

/-- **Polls deliver each log once**, as long as each is made in limits. -/
theorem polls_deliver_once (criteria : RpcLogFilter) (first last : U64)
    (hbounded : criteria.Bounded first last) (ops : List (IndexerOp P))
    (batches : List (List (IndexerOp P))) (hne : batches ≠ [])
    (hone : OneBlockPerNumber (Set.image FinalizedBlock.entry
      (IndexerOp.indexed (ops ++ batches.flatten))))
    (hascending : Ascending (ops ++ batches.flatten))
    (hlimits : InLimits last.toNat first.toNat ops batches) :
    DeliversOnce ((Polling.start ops criteria).polls batches) criteria first last := by
  obtain ⟨next, hp, hh⟩ :=
    (Delivering.start hbounded ops).polls hbounded hone hascending hlimits
  obtain ⟨logs, hd, hc⟩ := hp.covers
  have hlt := hh (.inl hne)
  refine ⟨hp.noFailure, logs, hd, fun log => ?_, hc.ordered⟩
  rw [hc.mem_iff]
  constructor
  · rintro ⟨finalized, hmem, hr, hlog⟩
    have hle := IndexerOp.height_le_headBlock hmem
    exact ⟨finalized, hmem, hr.1, le_min hr.2.2 hle, hlog⟩
  · rintro ⟨finalized, hmem, hf, hle, hlog⟩
    exact ⟨finalized, hmem, ⟨hf, (le_min_iff.1 hle).2.trans_lt hlt, (le_min_iff.1 hle).1⟩, hlog⟩

section Example

open LogExample

/-- All logs from one block to another. -/
private def between (first last : U64) : RpcLogFilter :=
  ⟨some (.number first), some (.number last), none, none, none⟩

private theorem twoBlocks_one : OneBlockPerNumber (Set.image FinalizedBlock.entry
    (IndexerOp.indexed [.indexFinalizedBlock (finalizedTransfer 1),
      .indexFinalizedBlock (finalizedTransfer 2)])) := by
  refine (OneBlockPerNumber.pair (finalizedTransfer 1).entry (finalizedTransfer 2).entry (by decide)
    (by decide)).mono ?_
  rintro - ⟨finalized, hmem, rfl⟩
  rcases mem_cons.1 hmem with hf | hs
  · rw [IndexerOp.indexFinalizedBlock.inj hf]
    exact .inl rfl
  · rw [IndexerOp.indexFinalizedBlock.inj (mem_singleton.1 hs)]
    exact .inr rfl

private theorem twoBlocks_ascending : Ascending [.indexFinalizedBlock (finalizedTransfer 1),
    .indexFinalizedBlock (finalizedTransfer 2)] :=
  (Ascending.nil.indexFinalizedBlock (by decide) (by decide)).indexFinalizedBlock
    (by decide +kernel) (by decide)

/-- Two blocks and a poll after each, with a filter up to the second. -/
theorem polls_deliver_once_two : DeliversOnce
    ((Polling.start [] (between 1 2)).polls
      [[.indexFinalizedBlock (finalizedTransfer 1)], [.indexFinalizedBlock (finalizedTransfer 2)]])
    (between 1 2) 1 2 := by
  refine polls_deliver_once (between 1 2) 1 2 ⟨rfl, rfl, rfl⟩ [] _ (cons_ne_nil _ _)
    twoBlocks_one twoBlocks_ascending ⟨.inr ⟨by decide, by decide +kernel, ?_⟩,
      .inr ⟨by decide +kernel, by decide +kernel, ?_⟩, trivial⟩
  · simp
  · simp

/-- A filter for the first block alone, polled again after the second. -/
theorem poll_past_end_refused :
    ¬ ∀ (P : Platform) (criteria : RpcLogFilter) (first last : U64)
      (ops : List (IndexerOp P)) (batches : List (List (IndexerOp P))),
      criteria.Bounded first last → batches ≠ [] →
      OneBlockPerNumber (Set.image FinalizedBlock.entry
        (IndexerOp.indexed (ops ++ batches.flatten))) →
      Ascending (ops ++ batches.flatten) →
      DeliversOnce ((Polling.start ops criteria).polls batches) criteria first last := by
  intro h
  have hd := h platform (between 1 1) 1 1 []
    [[.indexFinalizedBlock (finalizedTransfer 1)], [.indexFinalizedBlock (finalizedTransfer 2)]]
    ⟨rfl, rfl, rfl⟩ (cons_ne_nil _ _) twoBlocks_one twoBlocks_ascending
  have hrs : (((Polling.start [] (between 1 1)).polls
      [[.indexFinalizedBlock (finalizedTransfer 1)],
        [.indexFinalizedBlock (finalizedTransfer 2)]]).results)[1]? =
        some (.error (.invalidParams "fromBlock must not be greater than toBlock")) := by
    rfl
  obtain ⟨logs, hok⟩ := hd.noFailure _ (mem_of_getElem? hrs)
  cases hok

end Example

end Kora
