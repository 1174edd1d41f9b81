/-
The checkpointed archive (`network/marshal/src/archive.rs`).

Writes go to memory first. A sync is forwarded to the disk only when the archive is
contiguous through the checkpoint boundary at or below the highest height put since the
last flush.

* `contiguous_through_iff` — what the scan of the ranges decides;
* `boundaries_durable_iff` — the runs after which every reached boundary is on the disk:
  those in which each put is timely, for instance in increasing order
  (`along_timely_of_increasing`).
-/
import Kora.Block
import Kora.Intervals
import Kora.Run
import Mathlib.Order.Bounds.Basic
import Mathlib.Order.Fin.Basic

open Std ExtTreeMap

namespace Kora

/-- A height of the archive, a `u64`. -/
abbrev Height := Fin (U64_MAX + 1)

/-! ### The archive underneath -/

/-- An archive: what it holds in memory, and what of it is on the disk. -/
structure InnerArchive (K V : Type*) where
  items : ExtTreeMap Height (K × V)
  disk : ExtTreeMap Height (K × V)

namespace InnerArchive

variable {K V : Type*}

def empty : InnerArchive K V := ⟨∅, ∅⟩

/-- Store an item under a height. A height that is taken keeps its item. -/
def put (self : InnerArchive K V) (index : Height) (key : K) (value : V) : InnerArchive K V :=
  { self with items := self.items.insertIfNew index (key, value) }

def sync (self : InnerArchive K V) : InnerArchive K V := { self with disk := self.items }

/-- The maximal ranges of the heights that are held, in increasing order. -/
def ranges (self : InnerArchive K V) : List (ℕ × ℕ) :=
  Intervals.intervals (self.items.keys.map Fin.val)

end InnerArchive

/-! ### The wrapper -/

structure CheckpointedArchive (K V : Type*) where
  inner : InnerArchive K V
  checkpointInterval : ℕ
  highestDirty : Option Height

/-- `u64::checked_add`. -/
def checkedAdd (n m : ℕ) : Option ℕ := if n + m ≤ U64_MAX then some (n + m) else none

namespace CheckpointedArchive

variable {K V : Type*}

def new (inner : InnerArchive K V) (checkpointInterval : ℕ) : CheckpointedArchive K V :=
  let interval := if checkpointInterval = 0 then 1 else checkpointInterval
  ⟨inner, interval, none⟩

def markDirty (self : CheckpointedArchive K V) (height : Height) : CheckpointedArchive K V :=
  { self with
    highestDirty := some (self.highestDirty.elim height (fun existing => max existing height)) }

/-- The scan of `is_contiguous_through`, with the start that is expected next. -/
def contiguousLoop (target : ℕ) : Option ℕ → List (ℕ × ℕ) → Bool
  | _, [] => false
  | none, (start, stop) :: rest =>
    if start > target then false
    else if stop ≥ target then true
    else contiguousLoop target (checkedAdd stop 1) rest
  | some expected, (start, stop) :: rest =>
    if start > expected then false
    else if stop ≥ target then true
    else contiguousLoop target (checkedAdd stop 1) rest

def isContiguousThrough (self : CheckpointedArchive K V) (target : ℕ) : Bool :=
  contiguousLoop target none self.inner.ranges

def shouldSync (self : CheckpointedArchive K V) : Bool :=
  match self.highestDirty with
  | some height =>
    if self.checkpointInterval ≤ 1 then self.isContiguousThrough height
    else
      let boundary := height.val / self.checkpointInterval * self.checkpointInterval
      decide (boundary > 0) && self.isContiguousThrough boundary
  | none => false

def put (self : CheckpointedArchive K V) (index : Height) (key : K) (value : V) :
    CheckpointedArchive K V :=
  markDirty { self with inner := self.inner.put index key value } index

def sync (self : CheckpointedArchive K V) : CheckpointedArchive K V :=
  if self.shouldSync then { self with inner := self.inner.sync, highestDirty := none } else self

def putSync (self : CheckpointedArchive K V) (item : Height × K × V) : CheckpointedArchive K V :=
  (self.put item.1 item.2.1 item.2.2).sync

end CheckpointedArchive

/-! ### Contiguity -/

/-- Every height from the first one held through `b` is held. -/
def Reaches {K V : Type*} (items : ExtTreeMap Height (K × V)) (b : ℕ) : Prop :=
  ∃ first ∈ items, (∀ h ∈ items, first ≤ h) ∧ first.val ≤ b ∧
    ∀ h : Height, first ≤ h → h.val ≤ b → h ∈ items

section Scan

variable {K V : Type*}

theorem pairwise_keys (items : ExtTreeMap Height (K × V)) :
    (items.keys.map Fin.val).Pairwise (· < ·) := by
  rw [List.pairwise_map]
  exact items.ordered_keys.imp fun h => compare_lt_iff_lt.1 h

theorem mem_map_keys {items : ExtTreeMap Height (K × V)} {h : Height} :
    h.val ∈ items.keys.map Fin.val ↔ h ∈ items := by
  rw [← mem_keys, List.mem_map]
  constructor
  · rintro ⟨h', hmem, heq⟩
    exact Fin.ext heq ▸ hmem
  · exact fun hmem => ⟨h, hmem, rfl⟩

open CheckpointedArchive (contiguousLoop)

/-- The scan once everything below `expected` was seen. The ranges increase, and may touch. -/
theorem contiguousLoop_some_iff {target expected : ℕ} (ht : target ≤ U64_MAX)
    (he : expected ≤ target) {ranges : List (ℕ × ℕ)} (hlo : ∀ r ∈ ranges, r.1 ≤ r.2)
    (hs : ranges.Pairwise fun r r' => r.2 < r'.1) (hb : ∀ r ∈ ranges, expected ≤ r.1) :
    contiguousLoop target (some expected) ranges = true ↔
      ∀ n, expected ≤ n → n ≤ target → Intervals.Covers ranges n := by
  induction ranges generalizing expected with
  | nil =>
    refine iff_of_false (by simp [contiguousLoop]) ?_
    intro h
    simpa [Intervals.Covers] using h expected le_rfl he
  | cons r rest ih =>
    obtain ⟨start, stop⟩ := r
    obtain ⟨hfirst, hrest⟩ := List.pairwise_cons.1 hs
    have hstart : expected ≤ start := hb (start, stop) List.mem_cons_self
    have hle : start ≤ stop := hlo (start, stop) List.mem_cons_self
    have hrange : ∀ r ∈ rest, stop < r.1 := fun r hr => hfirst r hr
    rw [contiguousLoop]
    split_ifs with hgap hend
    · -- the expected height is below this range, and so below all later ones
      refine iff_of_false (by simp) ?_
      intro h
      rcases Intervals.covers_cons.1 (h expected le_rfl he) with hin | ⟨r, hr, hin, -⟩
      · omega
      · have := hrange r hr
        omega
    · refine iff_of_true rfl ?_
      intro n hlo' hhi
      exact Intervals.covers_cons.2 (.inl (by omega))
    · -- this range ends below the target, so the height after it does not overflow
      have hadd : checkedAdd stop 1 = some (stop + 1) := by
        rw [checkedAdd, if_pos (by omega)]
      rw [hadd, ih (by omega) (fun r hr => hlo r (List.mem_cons_of_mem _ hr)) hrest
        (fun r hr => hrange r hr)]
      constructor
      · intro h n hlo' hhi
        by_cases hn : n ≤ stop
        · exact Intervals.covers_cons.2 (.inl (by omega))
        · exact Intervals.covers_cons.2 (.inr (h n (by omega) hhi))
      · intro h n hlo' hhi
        rcases Intervals.covers_cons.1 (h n (by omega) hhi) with hin | hin
        · omega
        · exact hin

theorem covers_first {start stop : ℕ} {rest : List (ℕ × ℕ)}
    (hlo : ∀ r ∈ (start, stop) :: rest, r.1 ≤ r.2)
    (hs : ((start, stop) :: rest).Pairwise fun r r' => r.2 < r'.1) :
    IsLeast {n | Intervals.Covers ((start, stop) :: rest) n} start := by
  have hle : start ≤ stop := hlo (start, stop) List.mem_cons_self
  refine ⟨Intervals.covers_cons.2 (.inl ⟨le_rfl, hle⟩), ?_⟩
  intro n hn
  rcases Intervals.covers_cons.1 hn with hin | ⟨r, hr, hin, -⟩
  · exact hin.1
  · have : stop < r.1 := (List.pairwise_cons.1 hs).1 r hr
    omega

/-- **The scan** of increasing, disjoint ranges succeeds when everything from the first number,
which is at most the target, through the target is covered. -/
theorem contiguousLoop_none_iff {target : ℕ} (ht : target ≤ U64_MAX) {ranges : List (ℕ × ℕ)}
    (hlo : ∀ r ∈ ranges, r.1 ≤ r.2) (hs : ranges.Pairwise fun r r' => r.2 < r'.1) :
    contiguousLoop target none ranges = true ↔
      ∃ first, IsLeast {n | Intervals.Covers ranges n} first ∧ first ≤ target ∧
        ∀ n, first ≤ n → n ≤ target → Intervals.Covers ranges n := by
  rcases ranges with _ | ⟨⟨start, stop⟩, rest⟩
  · refine iff_of_false (by simp [contiguousLoop]) ?_
    rintro ⟨first, ⟨hc, -⟩, -⟩
    simp [Intervals.Covers] at hc
  · have hfirst := covers_first hlo hs
    have hle : start ≤ stop := hlo (start, stop) List.mem_cons_self
    rw [contiguousLoop]
    split_ifs with hgt hend
    · -- the first number is above the target
      refine iff_of_false (by simp) ?_
      rintro ⟨first, hl, hft, -⟩
      have := hl.unique hfirst
      omega
    · refine iff_of_true rfl ⟨start, hfirst, by omega, ?_⟩
      intro n hlo' hhi
      exact Intervals.covers_cons.2 (.inl (by omega))
    · -- from here on the scan carries the height after the first range
      have hstep := contiguousLoop_some_iff ht (show start ≤ target by omega) hlo hs (by
        intro r hr
        exact hfirst.2 ⟨r, hr, le_rfl, hlo r hr⟩)
      rw [contiguousLoop, if_neg (lt_irrefl start), if_neg hend] at hstep
      rw [hstep]
      constructor
      · intro h
        exact ⟨start, hfirst, by omega, h⟩
      · rintro ⟨first, hl, -, h⟩
        rw [hl.unique hfirst] at h
        exact h

end Scan

/-! ### Ranges of heights -/

/-- Increasing, disjoint ranges, no two adjacent: what `ranges` of an archive yields. -/
structure HeightRanges where
  ranges : List (ℕ × ℕ)
  apart : Intervals.Apart ranges
  bounded : ∀ r ∈ ranges, r.2 ≤ U64_MAX

def HeightRanges.Stored (self : HeightRanges) (h : Height) : Prop :=
  Intervals.Covers self.ranges h

theorem exists_first_iff {P : ℕ → Prop} (hP : ∀ n, P n → n ≤ U64_MAX) (target : Height) :
    (∃ first, IsLeast {n | P n} first ∧ first ≤ target.val ∧
        ∀ n, first ≤ n → n ≤ target.val → P n) ↔
      ∃ first : Height, IsLeast {h : Height | P h} first ∧ first ≤ target ∧
        ∀ h : Height, first ≤ h → h ≤ target → P h := by
  constructor
  · rintro ⟨first, ⟨hc, hl⟩, hle, hall⟩
    refine ⟨⟨first, Nat.lt_succ_of_le (hP first hc)⟩, ⟨hc, fun h hh => hl hh⟩, hle, ?_⟩
    intro h hlo hhi
    exact hall h.val hlo hhi
  · rintro ⟨first, ⟨hc, hl⟩, hle, hall⟩
    refine ⟨first.val, ⟨hc, fun n hn => ?_⟩, hle, ?_⟩
    · have hmem : (⟨n, Nat.lt_succ_of_le (hP n hn)⟩ : Height) ∈ {h : Height | P h} := hn
      exact hl hmem
    · intro n hlo hhi
      exact hall ⟨n, by omega⟩ hlo hhi

theorem HeightRanges.contiguousLoop_iff (self : HeightRanges) {stored : Height → Prop}
    (hst : ∀ h, self.Stored h ↔ stored h) (target : Height) :
    CheckpointedArchive.contiguousLoop target none self.ranges = true ↔
      ∃ first : Height, IsLeast {h | stored h} first ∧ first ≤ target ∧
        ∀ h : Height, first ≤ h → h ≤ target → stored h := by
  have ht : target.val ≤ U64_MAX := Nat.le_of_lt_succ target.isLt
  have hs : self.ranges.Pairwise fun r r' => r.2 < r'.1 :=
    self.apart.gap.imp fun h => by omega
  rw [contiguousLoop_none_iff ht self.apart.ordered hs, exists_first_iff ?_ target]
  · simp only [← hst]
    rfl
  · rintro n ⟨r, hr, -, hle⟩
    exact hle.trans (self.bounded r hr)

/-- The ranges of the heights that an archive holds. -/
def InnerArchive.heightRanges {K V : Type*} (self : InnerArchive K V) : HeightRanges where
  ranges := self.ranges
  apart := (Intervals.intervals_spec (pairwise_keys self.items)).1
  bounded r hr := by
    obtain ⟨hap, hcov⟩ := Intervals.intervals_spec (pairwise_keys self.items)
    obtain ⟨h, -, hh⟩ := List.mem_map.1 ((hcov r.2).1 ⟨r, hr, hap.ordered r hr, le_rfl⟩)
    exact hh ▸ Nat.le_of_lt_succ h.isLt

/-- **What the scan decides**: every height from the first stored one, at most the target, through
the target is stored. -/
theorem contiguous_through_iff (self : HeightRanges) (target : Height) :
    CheckpointedArchive.contiguousLoop target none self.ranges = true ↔
      ∃ first : Height, IsLeast {h | self.Stored h} first ∧ first ≤ target ∧
        ∀ h : Height, first ≤ h → h ≤ target → self.Stored h :=
  self.contiguousLoop_iff (fun _ => Iff.rfl) target

def heldThree : InnerArchive Unit Unit :=
  ⟨(((∅ : ExtTreeMap Height (Unit × Unit)).insert 3 ((), ())).insert 4 ((), ())).insert 5 ((), ()),
    ∅⟩

theorem contiguous_through_iff_held :
    ∃ first : Height, IsLeast {h | heldThree.heightRanges.Stored h} first ∧ first ≤ 5 ∧
      ∀ h : Height, first ≤ h → h ≤ 5 → heldThree.heightRanges.Stored h :=
  (contiguous_through_iff heldThree.heightRanges 5).1 (by decide +kernel)

-- a range that ends at the largest height ends the scan before the next start is computed
example : CheckpointedArchive.contiguousLoop U64_MAX none [(U64_MAX - 1, U64_MAX)] = true := by
  decide

theorem isContiguousThrough_iff {K V : Type*} (self : CheckpointedArchive K V) {target : ℕ}
    (ht : target ≤ U64_MAX) :
    self.isContiguousThrough target = true ↔ Reaches self.inner.items target := by
  have hst : ∀ h : Height, self.inner.heightRanges.Stored h ↔ h ∈ self.inner.items := fun h =>
    ((Intervals.intervals_spec (pairwise_keys self.inner.items)).2 h.val).trans mem_map_keys
  have hloop := self.inner.heightRanges.contiguousLoop_iff hst ⟨target, Nat.lt_succ_of_le ht⟩
  simp only [IsLeast, lowerBounds, Set.mem_ofPred_eq, and_assoc] at hloop
  exact hloop

/-! ### What a put with its sync does -/

section Durability

open CheckpointedArchive

variable {K V : Type*}

/-- Everything through each positive checkpoint boundary that is reached is on the disk. -/
def CheckpointedArchive.Durable (self : CheckpointedArchive K V) : Prop :=
  ∀ b : Height, 0 < b.val → self.checkpointInterval ∣ b.val → Reaches self.inner.items b.val →
    ∀ h ∈ self.inner.items, h ≤ b → self.inner.disk[h]? = self.inner.items[h]?

/-- The boundary at or below a height is reached. Below the interval there is none; with an interval
of one zero counts. -/
def BoundaryReached (interval : ℕ) (items : ExtTreeMap Height (K × V)) (height : Height) : Prop :=
  (interval = 1 ∨ interval ≤ height.val) ∧ Reaches items (height.val / interval * interval)

/-- The highest height put since the last flush, once `height` is put as well. -/
def CheckpointedArchive.highestWith (self : CheckpointedArchive K V) (height : Height) : Height :=
  self.highestDirty.elim height (fun existing => max existing height)

/-- A new height completes no boundary at or above it, or that of the highest unflushed height. -/
def CheckpointedArchive.Timely (self : CheckpointedArchive K V) (item : Height × K × V) : Prop :=
  item.1 ∈ self.inner.items ∨
    ((∃ b : Height, item.1 ≤ b ∧ 0 < b.val ∧ self.checkpointInterval ∣ b.val ∧
        Reaches (self.inner.items.insertIfNew item.1 item.2) b.val) →
      BoundaryReached self.checkpointInterval (self.inner.items.insertIfNew item.1 item.2)
        (self.highestWith item.1))

/-- What the archive below holds on the disk is also in memory. -/
def InnerArchive.Backed (self : InnerArchive K V) : Prop :=
  ∀ {h : Height} {item : K × V}, self.disk[h]? = some item → self.items[h]? = some item

variable {self : CheckpointedArchive K V}

theorem shouldSync_put_iff (hi : 0 < self.checkpointInterval) (item : Height × K × V) :
    (self.put item.1 item.2.1 item.2.2).shouldSync = true ↔
      BoundaryReached self.checkpointInterval (self.inner.items.insertIfNew item.1 item.2)
        (self.highestWith item.1) := by
  set height := self.highestWith item.1 with hh
  set interval := self.checkpointInterval
  have hs : ∀ target ≤ U64_MAX,
      ((self.put item.1 item.2.1 item.2.2).isContiguousThrough target = true ↔
        Reaches (self.inner.items.insertIfNew item.1 item.2) target) :=
    fun _ ht => isContiguousThrough_iff (self.put item.1 item.2.1 item.2.2) ht
  have hle : height.val ≤ U64_MAX := Nat.le_of_lt_succ height.isLt
  have hsh : (self.put item.1 item.2.1 item.2.2).shouldSync =
      if interval ≤ 1 then (self.put item.1 item.2.1 item.2.2).isContiguousThrough height
      else decide (height.val / interval * interval > 0) &&
        (self.put item.1 item.2.1 item.2.2).isContiguousThrough
          (height.val / interval * interval) := rfl
  rw [hsh]
  split_ifs with hone
  · -- every height is a boundary
    have hone : interval = 1 := by omega
    rw [hs height.val hle]
    simp [BoundaryReached, hone]
  · have hdiv : height.val / interval * interval ≤ height.val := Nat.div_mul_le_self _ _
    have hpos : height.val / interval * interval > 0 ↔ interval ≤ height.val := by
      rw [gt_iff_lt, Nat.mul_pos_iff_of_pos_right hi, Nat.div_pos_iff]
      omega
    rw [Bool.and_eq_true, decide_eq_true_iff, hpos, hs _ (hdiv.trans hle)]
    have hne : interval ≠ 1 := by omega
    simp [BoundaryReached, hne]

theorem mem_insertIfNew_iff {items : ExtTreeMap Height (K × V)} {index h : Height}
    {item : K × V} : h ∈ items.insertIfNew index item ↔ index = h ∨ h ∈ items := by
  rw [mem_insertIfNew, LawfulEqCmp.compare_eq_iff_eq]

theorem reaches_insertIfNew {items : ExtTreeMap Height (K × V)} {index : Height} {item : K × V}
    {b : ℕ} (hlt : b < index.val) : Reaches (items.insertIfNew index item) b ↔ Reaches items b := by
  constructor
  · rintro ⟨first, hf, hl, hle, hall⟩
    refine ⟨first, ?_, fun h hh => hl h (mem_insertIfNew_iff.2 (.inr hh)), hle, ?_⟩
    · rcases mem_insertIfNew_iff.1 hf with rfl | hhl
      · omega
      · exact hhl
    · intro h hlo hhi
      rcases mem_insertIfNew_iff.1 (hall h hlo hhi) with rfl | hhl
      · omega
      · exact hhl
  · rintro ⟨first, hf, hl, hle, hall⟩
    refine ⟨first, mem_insertIfNew_iff.2 (.inr hf), ?_, hle, ?_⟩
    · intro h hh
      rcases mem_insertIfNew_iff.1 hh with rfl | hhl
      · exact Fin.le_def.2 (by omega)
      · exact hl h hhl
    · exact fun h hlo hhi => mem_insertIfNew_iff.2 (.inr (hall h hlo hhi))

/-- **One put with its sync.** It keeps every reached boundary on the disk exactly when the put is
timely. -/
theorem durable_putSync_iff (hi : 0 < self.checkpointInterval) (hb : self.inner.Backed)
    (hd : self.Durable) (item : Height × K × V) :
    (self.putSync item).Durable ↔ self.Timely item := by
  by_cases hs : (self.put item.1 item.2.1 item.2.2).shouldSync = true
  · -- everything is flushed, and the boundary of the highest height is reached
    have hf : self.putSync item =
        { self with
          inner := (self.inner.put item.1 item.2.1 item.2.2).sync, highestDirty := none } := by
      rw [putSync, sync, if_pos hs]
      rfl
    refine iff_of_true ?_ (.inr fun _ => (shouldSync_put_iff hi item).1 hs)
    rw [hf]
    intro b _ _ _ h _ _
    rfl
  · have hm : ¬ BoundaryReached self.checkpointInterval
        (self.inner.items.insertIfNew item.1 item.2) (self.highestWith item.1) :=
      fun h => hs ((shouldSync_put_iff hi item).2 h)
    rw [putSync, sync, if_neg hs]
    -- nothing is flushed: the heights on the disk are those from before
    show (∀ b : Height, 0 < b.val → self.checkpointInterval ∣ b.val →
      Reaches (self.inner.items.insertIfNew item.1 item.2) b.val →
        ∀ h ∈ self.inner.items.insertIfNew item.1 item.2, h ≤ b →
          self.inner.disk[h]? = (self.inner.items.insertIfNew item.1 item.2)[h]?) ↔ _
    by_cases hhl : item.1 ∈ self.inner.items
    · -- the height was there already, so nothing changes
      have hsm : self.inner.items.insertIfNew item.1 item.2 = self.inner.items := by
        refine ext_getElem? fun h => ?_
        rw [getElem?_insertIfNew, if_neg (fun hnew => hnew.2 hhl)]
      rw [hsm]
      exact iff_of_true hd (.inl hhl)
    · constructor
      · -- the new height itself is below the boundary and not on the disk
        intro ha
        refine .inr fun ⟨b, hle, hpos, hdvd, hr⟩ => ?_
        have hnew := ha b hpos hdvd hr item.1 (mem_insertIfNew_iff.2 (.inl rfl)) hle
        rw [getElem?_insertIfNew, if_pos ⟨LawfulEqCmp.compare_eq_iff_eq.2 rfl, hhl⟩] at hnew
        refine absurd ?_ hhl
        exact mem_iff_isSome_getElem?.2 (by rw [hb hnew]; rfl)
      · -- no boundary at or above the new height is reached, so those reached were before
        intro ht b hpos hdvd hr h hh hle
        have hlt : b < item.1 := by
          by_contra hge
          have hrc := ht.resolve_left hhl ⟨b, le_of_not_gt hge, hpos, hdvd, hr⟩
          exact hm hrc
        have hne : item.1 ≠ h := fun heq => hle.not_gt (heq ▸ hlt)
        have hh : h ∈ self.inner.items := (mem_insertIfNew_iff.1 hh).resolve_left hne
        rw [getElem?_insertIfNew, if_neg (fun hnew => hne (LawfulEqCmp.compare_eq_iff_eq.1 hnew.1))]
        exact hd b hpos hdvd ((reaches_insertIfNew hlt).1 hr) h hh hle

def CheckpointedArchive.Sound (self : CheckpointedArchive K V) : Prop :=
  0 < self.checkpointInterval ∧ self.inner.Backed

theorem CheckpointedArchive.Sound.putSync (h : self.Sound) (item : Height × K × V) :
    (self.putSync item).Sound := by
  obtain ⟨hi, hb⟩ := h
  by_cases hs : (self.put item.1 item.2.1 item.2.2).shouldSync = true
  · rw [CheckpointedArchive.putSync, sync, if_pos hs]
    exact ⟨hi, id⟩
  · rw [CheckpointedArchive.putSync, sync, if_neg hs]
    refine ⟨hi, fun {h item'} hd => ?_⟩
    have hh := hb hd
    show (self.inner.items.insertIfNew item.1 item.2)[h]? = some item'
    rw [getElem?_insertIfNew, if_neg, hh]
    rintro ⟨heq, hnew⟩
    rw [LawfulEqCmp.compare_eq_iff_eq.1 heq] at hnew
    exact hnew (mem_iff_isSome_getElem?.2 (by rw [hh]; rfl))

theorem CheckpointedArchive.Sound.new (interval : ℕ) :
    (new (InnerArchive.empty : InnerArchive K V) interval).Sound := by
  refine ⟨?_, fun {h item} hd => by simp [CheckpointedArchive.new, InnerArchive.empty] at hd⟩
  show 0 < if interval = 0 then 1 else interval
  split_ifs <;> omega

/-- **Durability at the boundaries.** In every state of a run all heights through every reached
boundary are on the disk, exactly when every put of the run is timely. -/
theorem boundaries_durable_iff (interval : ℕ) (items : List (Height × K × V)) :
    (∀ k, ((items.take k).foldl putSync (new InnerArchive.empty interval)).Durable) ↔
      Run.Along putSync Timely (new InnerArchive.empty interval) items := by
  have hk : ∀ (s : CheckpointedArchive K V) (item : Height × K × V),
      s.Sound → (putSync s item).Sound := fun _ item hs => hs.putSync item
  have hst : ∀ (s : CheckpointedArchive K V) (item : Height × K × V),
      s.Sound → s.Durable → ((putSync s item).Durable ↔ s.Timely item) :=
    fun _ item hs hd => durable_putSync_iff hs.1 hs.2 hd item
  refine Run.forall_take_iff hk hst (Sound.new interval) ?_ items
  intro b _ _ _ h hh _
  exact absurd hh not_mem_empty

/-- Blocks 1, 5 and 2 with an interval of 2: the boundary at 2 is reached, but the sync looks for
the boundary at 4. -/
theorem later_height_blocks_flush :
    ¬ ∀ (interval : ℕ) (items : List (Height × Unit × Unit)), 1 ≤ interval →
      ∀ k, ((items.take k).foldl putSync (new InnerArchive.empty interval)).Durable := by
  intro h
  have hd := h 2 [(1, (), ()), (5, (), ()), (2, (), ())] (by omega) 3
  have hr := (isContiguousThrough_iff (List.foldl putSync (new InnerArchive.empty 2)
    [(1, (), ()), (5, (), ()), (2, (), ())]) (show 2 ≤ U64_MAX by decide)).1 (by decide +kernel)
  have hf := hd 2 (by decide) (by decide) hr 2 (by decide +kernel) le_rfl
  exact absurd hf (by decide +kernel)

/-! ### Arrival in increasing order -/

def CheckpointedArchive.Below (self : CheckpointedArchive K V) (height : Height) : Prop :=
  (∀ h ∈ self.inner.items, h < height) ∧ ∀ h, self.highestDirty = some h → h < height

theorem timely_of_below {item : Height × K × V} (h : self.Below item.1) : self.Timely item := by
  obtain ⟨hhl, hd⟩ := h
  refine .inr fun ⟨b, hle, hpos, hdvd, hr⟩ => ?_
  have hb : b = item.1 := by
    obtain ⟨first, hf, -, hfirst_le, hall⟩ := hr
    rcases mem_insertIfNew_iff.1 (hall b hfirst_le le_rfl) with heq | hmem
    · exact heq.symm
    · exact absurd (hhl b hmem) hle.not_gt
  have hh : self.highestWith item.1 = item.1 := by
    rw [highestWith]
    cases hold : self.highestDirty with
    | none => rfl
    | some existing => exact max_eq_right (hd existing hold).le
  rw [hb] at hdvd hr hpos
  rw [hh, BoundaryReached, Nat.div_mul_cancel hdvd]
  exact ⟨.inr (Nat.le_of_dvd hpos hdvd), hr⟩

theorem CheckpointedArchive.Below.putSync {item : Height × K × V} {height : Height}
    (h : self.Below height) (hlt : item.1 < height) : (self.putSync item).Below height := by
  have hh : ∀ h ∈ self.inner.items.insertIfNew item.1 item.2, h < height := by
    intro h' hmem
    rcases mem_insertIfNew_iff.1 hmem with rfl | hmem
    · exact hlt
    · exact h.1 h' hmem
  rw [CheckpointedArchive.putSync, sync]
  split_ifs
  · exact ⟨hh, by simp⟩
  · refine ⟨hh, fun h' hd => ?_⟩
    have hmax : self.highestWith item.1 = h' := Option.some.inj hd
    rw [← hmax, highestWith]
    cases hold : self.highestDirty with
    | none => exact hlt
    | some existing => exact max_lt (h.2 existing hold) hlt

theorem along_timely_of_increasing {items : List (Height × K × V)}
    (ho : items.Pairwise fun item item' => item.1 < item'.1)
    (hb : ∀ item ∈ items, self.Below item.1) : Run.Along putSync Timely self items := by
  induction items generalizing self with
  | nil => trivial
  | cons item items ih =>
    obtain ⟨hf, hr⟩ := List.pairwise_cons.1 ho
    refine ⟨timely_of_below (hb item List.mem_cons_self), ih hr fun item' hi' => ?_⟩
    exact (hb item' (List.mem_cons_of_mem item hi')).putSync (hf item' hi')

/-- **Heights in increasing order**: all heights through every reached boundary are on the disk. -/
theorem increasing_boundaries_durable (interval : ℕ) {items : List (Height × K × V)}
    (ho : items.Pairwise fun item item' => item.1 < item'.1) (k : ℕ) :
    ((items.take k).foldl putSync (new InnerArchive.empty interval)).Durable := by
  have hb : ∀ item ∈ items,
      (new InnerArchive.empty interval : CheckpointedArchive K V).Below item.1 :=
    fun _ _ => ⟨fun _ hmem => absurd hmem not_mem_empty, fun _ hd => by cases hd⟩
  have hrun := (along_timely_of_increasing ho hb).take k
  refine (hrun.history (fun _ s => s.Sound ∧ s.Durable) ⟨Sound.new interval, ?_⟩ ?_).2
  · exact fun _ _ _ _ h hmem _ => absurd hmem not_mem_empty
  · exact fun _ _ item hs ht =>
      ⟨hs.1.putSync item, (durable_putSync_iff hs.1.1 hs.1.2 hs.2 item).2 ht⟩

/-- The blocks 1, 2 and 5 in order, with an interval of 2. -/
theorem increasing_boundaries_durable_five :
    ((([(1, (), ()), (2, (), ()), (5, (), ())] : List (Height × Unit × Unit)).take 3).foldl putSync
      (new InnerArchive.empty 2)).Durable :=
  increasing_boundaries_durable 2 (by decide) 3

end Durability

end Kora
