/-
Transaction gossip (`node/runner/src/runner.rs`).

Three tasks share a bounded set of seen hashes. The RPC callback submits a transaction,
marks its hash and puts its bytes on a channel. The outbound task hands those to the peers
whose hash it is the first to mark. The inbound task marks and submits what peers send. A
run is an interleaving of their steps.

* `gossiped_iff` — what the outbound task is done with was handed to the peers or arrived
  from one, exactly when it finds each hash unmarked;
* `sent_eq_nil` — as long as the set has not filled up it never does.
-/
import Kora.Block
import Kora.Run

open Std List

namespace Kora

def TX_GOSSIP_SEEN_SET_CAPACITY : ℕ := 65536
def TX_GOSSIP_OUTBOUND_BUFFER : ℕ := 4096

/-! ### The seen set -/

/-- Mark a hash, and tell whether it is new. A full set is cleared first. -/
def markSeen (seen : ExtTreeSet B256) (hash : B256) : ExtTreeSet B256 × Bool :=
  let set := if seen.size ≥ TX_GOSSIP_SEEN_SET_CAPACITY then ∅ else seen
  (set.insert hash, !set.contains hash)

theorem markSeen_new_iff (seen : ExtTreeSet B256) (hash : B256) :
    (markSeen seen hash).2 = true ↔ TX_GOSSIP_SEEN_SET_CAPACITY ≤ seen.size ∨ hash ∉ seen := by
  show (!(if seen.size ≥ TX_GOSSIP_SEEN_SET_CAPACITY then (∅ : ExtTreeSet B256)
    else seen).contains hash) = true ↔ _
  split_ifs with hf
  · simp [hf]
  · rw [Bool.not_eq_true', ← Bool.not_eq_true, ExtTreeSet.contains_iff_mem]
    simp [hf]

theorem mem_markSeen {seen : ExtTreeSet B256} {hash hash' : B256}
    (hr : seen.size < TX_GOSSIP_SEEN_SET_CAPACITY) :
    hash' ∈ (markSeen seen hash).1 ↔ hash = hash' ∨ hash' ∈ seen := by
  rw [markSeen, if_neg (by omega), ExtTreeSet.mem_insert, LawfulEqCmp.compare_eq_iff_eq]

/-! ### The tasks -/

/-- What the tasks ask of the validator and of the ledger. -/
structure Intake (σ : Type*) where
  validate : σ → Tx → Bool
  submitTx : σ → Tx → σ × Bool

/-- How far a call of the RPC callback has come. -/
inductive Stage where
  | received
  | validated
  | accepted
  | marked
  | finished (ok : Bool)
deriving DecidableEq

/-- The outbound channel and what went through it. -/
structure Traffic where
  channel : List Bytes
  /-- What the outbound task has in hand. -/
  outbound : Option Bytes
  /-- Everything that was placed on the channel. -/
  placed : List Bytes
  /-- Everything the outbound task is done with. -/
  handled : List Bytes
  /-- Everything that was handed to the peers. -/
  sent : List Bytes
  /-- Everything that arrived from a peer. -/
  arrived : List Bytes

namespace Traffic

def place (self : Traffic) (data : Bytes) : Traffic :=
  { self with channel := self.channel ++ [data], placed := self.placed ++ [data] }

def take (self : Traffic) (raw : Bytes) (channel : List Bytes) : Traffic :=
  { self with channel, outbound := some raw }

def finish (self : Traffic) (raw : Bytes) (new : Bool) : Traffic :=
  { self with
    outbound := none
    handled := self.handled ++ [raw]
    sent := if new then self.sent ++ [raw] else self.sent }

def arrive (self : Traffic) (raw : Bytes) : Traffic :=
  { self with arrived := self.arrived ++ [raw] }

end Traffic

structure GossipNode (σ : Type*) where
  ledger : σ
  seen : ExtTreeSet B256
  /-- The calls of the RPC callback. -/
  calls : List (Bytes × Stage)
  /-- What the inbound task has in hand, and whether it is validated. -/
  inbound : Option (Bytes × Bool)
  traffic : Traffic

namespace GossipNode

variable {σ : Type*} (keccak256 : Bytes → B256) (I : Intake σ)

def new (ledger : σ) : GossipNode σ := ⟨ledger, ∅, [], none, ⟨[], none, [], [], [], []⟩⟩

/-- One step of a call of the RPC callback, `tx_submit`. -/
def rpcStep (self : GossipNode σ) (i : ℕ) : GossipNode σ :=
  match self.calls[i]? with
  | some (data, .received) =>
    let next := if I.validate self.ledger ⟨data⟩ then .validated else .finished false
    { self with calls := self.calls.set i (data, next) }
  | some (data, .validated) =>
    let (ledger, ok) := I.submitTx self.ledger ⟨data⟩
    let next := if ok then .accepted else .finished false
    { self with ledger, calls := self.calls.set i (data, next) }
  | some (data, .accepted) =>
    { self with
      seen := (markSeen self.seen (keccak256 data)).1
      calls := self.calls.set i (data, .marked) }
  | some (data, .marked) =>
    -- `try_send`: with the channel full the bytes are dropped, and the call succeeds all the same
    { self with
      calls := self.calls.set i (data, .finished true)
      traffic :=
        if self.traffic.channel.length < TX_GOSSIP_OUTBOUND_BUFFER then self.traffic.place data
        else self.traffic }
  | some (_, .finished _) => self
  | none => self

/-- One step of the outbound task, `tx_gossip_out`. -/
def outboundStep (self : GossipNode σ) : GossipNode σ :=
  match self.traffic.outbound with
  | none =>
    match self.traffic.channel with
    | [] => self
    | raw :: channel => { self with traffic := self.traffic.take raw channel }
  | some raw =>
    let (seen, new) := markSeen self.seen (keccak256 raw)
    { self with seen, traffic := self.traffic.finish raw new }

def receive (self : GossipNode σ) (raw : Bytes) : GossipNode σ :=
  match self.inbound with
  | some _ => self
  | none =>
    let (seen, new) := markSeen self.seen (keccak256 raw)
    { self with
      seen
      inbound := if new then some (raw, false) else none
      traffic := self.traffic.arrive raw }

/-- The inbound task validates and submits what it has in hand. -/
def inboundStep (self : GossipNode σ) : GossipNode σ :=
  match self.inbound with
  | none => self
  | some (raw, false) =>
    { self with inbound := if I.validate self.ledger ⟨raw⟩ then some (raw, true) else none }
  | some (raw, true) =>
    { self with ledger := (I.submitTx self.ledger ⟨raw⟩).1, inbound := none }

inductive Op (σ : Type*) where
  /-- A transaction is handed to the RPC callback. -/
  | call (data : Bytes)
  | rpc (i : ℕ)
  | outbound
  | receive (raw : Bytes)
  | inbound
  /-- Another task changes the ledger. -/
  | ledger (next : σ)

def step (self : GossipNode σ) : Op σ → GossipNode σ
  | .call data => { self with calls := self.calls ++ [(data, .received)] }
  | .rpc i => self.rpcStep keccak256 I i
  | .outbound => self.outboundStep keccak256
  | .receive raw => self.receive keccak256 raw
  | .inbound => self.inboundStep I
  | .ledger next => { self with ledger := next }

def run (ledger : σ) (ops : List (Op σ)) : GossipNode σ :=
  ops.foldl (step keccak256 I) (new ledger)

def Gossiped (self : GossipNode σ) : Prop :=
  ∀ raw ∈ self.traffic.handled, raw ∈ self.traffic.sent ∨ raw ∈ self.traffic.arrived

/-- When the outbound task looks up the bytes in hand, the set is full or does not have their hash,
unless they were handed to the peers or arrived from one. -/
def Unmarked (self : GossipNode σ) (op : Op σ) : Prop :=
  op = .outbound → ∀ raw, self.traffic.outbound = some raw →
    (TX_GOSSIP_SEEN_SET_CAPACITY ≤ self.seen.size ∨ keccak256 raw ∉ self.seen) ∨
      raw ∈ self.traffic.sent ∨ raw ∈ self.traffic.arrived

/-! ### What a step does to the traffic -/

variable {keccak256 I}

theorem traffic_rpcStep (self : GossipNode σ) (i : ℕ) :
    (self.rpcStep keccak256 I i).traffic = self.traffic ∨
      ∃ data, (data, Stage.marked) ∈ self.calls ∧
        (self.rpcStep keccak256 I i).traffic = self.traffic.place data := by
  rw [rpcStep]
  split
  · exact .inl rfl
  · exact .inl rfl
  · exact .inl rfl
  · next data hc =>
    by_cases hr : self.traffic.channel.length < TX_GOSSIP_OUTBOUND_BUFFER
    · exact .inr ⟨data, mem_of_getElem? hc, if_pos hr⟩
    · exact .inl (if_neg hr)
  · exact .inl rfl
  · exact .inl rfl

/-- **What one step does to the traffic**: it places bytes, takes the first ones off the channel,
finishes with those in hand, notes an arrival, or leaves it alone. -/
theorem step_cases (self : GossipNode σ) (op : Op σ) :
    (op = .outbound ∧ ∃ raw, self.traffic.outbound = some raw ∧
      (self.step keccak256 I op).traffic =
        self.traffic.finish raw (markSeen self.seen (keccak256 raw)).2) ∨
    ((op = .outbound → self.traffic.outbound = none) ∧
      ((self.step keccak256 I op).traffic = self.traffic ∨
        (∃ data, (data, Stage.marked) ∈ self.calls ∧
          (self.step keccak256 I op).traffic = self.traffic.place data) ∨
        (∃ raw channel, self.traffic.outbound = none ∧ self.traffic.channel = raw :: channel ∧
          (self.step keccak256 I op).traffic = self.traffic.take raw channel) ∨
        ∃ raw, (self.step keccak256 I op).traffic = self.traffic.arrive raw)) := by
  cases op with
  | call data => exact .inr ⟨nofun, .inl rfl⟩
  | rpc i =>
    have hrpc : (self.rpcStep keccak256 I i).traffic = self.traffic ∨ _ := self.traffic_rpcStep i
    exact .inr ⟨nofun, hrpc.imp id .inl⟩
  | outbound =>
    show (_ ∧ ∃ raw, _ ∧ (self.outboundStep keccak256).traffic = _) ∨
      (_ ∧ ((self.outboundStep keccak256).traffic = _ ∨ (∃ data, _ ∧
        (self.outboundStep keccak256).traffic = _) ∨ (∃ raw channel, _ ∧ _ ∧
        (self.outboundStep keccak256).traffic = _) ∨
        ∃ raw, (self.outboundStep keccak256).traffic = _))
    cases hh : self.traffic.outbound with
    | some raw =>
      refine .inl ⟨rfl, raw, rfl, ?_⟩
      rw [outboundStep, hh]
    | none =>
      refine .inr ⟨fun _ => rfl, ?_⟩
      rw [outboundStep, hh]
      dsimp only
      split
      · exact .inl rfl
      · next raw channel hc => exact .inr (.inr (.inl ⟨raw, channel, rfl, hc, rfl⟩))
  | receive raw =>
    refine .inr ⟨nofun, ?_⟩
    cases hh : self.inbound with
    | some held =>
      refine .inl ?_
      show (self.receive keccak256 raw).traffic = _
      rw [receive, hh]
    | none =>
      refine .inr (.inr (.inr ⟨raw, ?_⟩))
      show (self.receive keccak256 raw).traffic = _
      rw [receive, hh]
  | inbound =>
    refine .inr ⟨nofun, .inl ?_⟩
    show (self.inboundStep I).traffic = _
    rw [inboundStep]
    split <;> rfl
  | ledger next => exact .inr ⟨nofun, .inl rfl⟩

/-! ### First in, first out -/

/-- What was placed is what the outbound task has done, has in hand and has on the channel, in
order. -/
def Ordered (self : GossipNode σ) : Prop :=
  self.traffic.placed =
    self.traffic.handled ++ self.traffic.outbound.toList ++ self.traffic.channel

variable {self : GossipNode σ}

theorem Ordered.step (h : self.Ordered) (op : Op σ) : (self.step keccak256 I op).Ordered := by
  have hp : self.traffic.placed = _ := h
  rw [Ordered]
  rcases self.step_cases (I := I) op with ⟨-, raw, hh, heq⟩ | ⟨-, hs | ⟨data, -, heq⟩ |
    ⟨raw, channel, hh, hc, heq⟩ | ⟨raw, heq⟩⟩
  · rw [heq]
    simp [Traffic.finish, hp, hh]
  · rw [hs]
    exact h
  · rw [heq]
    simp [Traffic.place, hp]
  · rw [heq]
    simp [Traffic.take, hp, hh, hc]
  · rw [heq]
    simp [Traffic.arrive, hp]

theorem Ordered.run (ledger : σ) (ops : List (Op σ)) : (run keccak256 I ledger ops).Ordered := by
  refine List.foldlRecOn ops (GossipNode.step keccak256 I) (motive := Ordered) ?_ ?_
  · rfl
  · intro self h op _
    exact h.step op

/-! ### When the outbound task hands on what it takes -/

theorem gossiped_step_iff (h : self.Gossiped) (op : Op σ) :
    (self.step keccak256 I op).Gossiped ↔ self.Unmarked keccak256 op := by
  rcases self.step_cases (I := I) op with ⟨rfl, raw, hh, heq⟩ | ⟨hi, hc⟩
  · -- the bytes in hand are done with
    rw [Gossiped, heq, Traffic.finish]
    constructor
    · intro hn _ raw' hraw'
      obtain rfl : raw = raw' := Option.some.inj (hh.symm.trans hraw')
      by_cases hnew : (markSeen self.seen (keccak256 raw)).2 = true
      · exact .inl ((markSeen_new_iff _ _).1 hnew)
      · rw [if_neg hnew] at hn
        exact .inr (hn raw (mem_append_right _ mem_cons_self))
    · intro hu raw' hraw'
      rcases mem_append.1 hraw' with hb | hl
      · refine (h raw' hb).imp (fun hs => ?_) id
        dsimp only
        split_ifs
        · exact mem_append_left _ hs
        · exact hs
      · obtain rfl : raw' = raw := mem_singleton.1 hl
        rcases hu rfl raw' hh with hnew | hs | ha
        · rw [if_pos ((markSeen_new_iff _ _).2 hnew)]
          exact .inl (mem_append_right _ mem_cons_self)
        · refine .inl ?_
          dsimp only
          split_ifs
          · exact mem_append_left _ hs
          · exact hs
        · exact .inr ha
  · -- nothing else finishes anything
    refine iff_of_true ?_ (fun hop raw hh => ?_)
    · rw [Gossiped]
      rcases hc with hsm | ⟨data, -, heq⟩ | ⟨raw, channel, -, -, heq⟩ | ⟨raw, heq⟩
      · rw [hsm]
        exact h
      · rw [heq]
        exact h
      · rw [heq]
        exact h
      · rw [heq]
        intro raw' hraw'
        exact (h raw' hraw').imp id fun ha => mem_append_left _ ha
    · rw [hi hop] at hh
      cases hh

/-! ### As long as the set has not filled up -/

/-- The hashes of marked calls, on the channel and in hand are in the set; nothing was sent. -/
structure Silent (keccak256 : Bytes → B256) (node : GossipNode σ) : Prop where
  calls : ∀ data, (data, Stage.marked) ∈ node.calls → keccak256 data ∈ node.seen
  channel : ∀ raw ∈ node.traffic.channel, keccak256 raw ∈ node.seen
  outbound : ∀ raw, node.traffic.outbound = some raw → keccak256 raw ∈ node.seen
  sent : node.traffic.sent = []

/-- While the set is not full it only grows, and a call is marked when its step puts its hash in. -/
theorem marks_step (hr : self.seen.size < TX_GOSSIP_SEEN_SET_CAPACITY) (op : Op σ) :
    (∀ hash ∈ self.seen, hash ∈ (self.step keccak256 I op).seen) ∧
      ∀ data, (data, Stage.marked) ∈ (self.step keccak256 I op).calls →
        (data, Stage.marked) ∈ self.calls ∨ keccak256 data ∈ (self.step keccak256 I op).seen := by
  have hm : ∀ {hash'}, ∀ hash ∈ self.seen, hash ∈ (markSeen self.seen hash').1 :=
    fun _ h => (mem_markSeen hr).2 (.inr h)
  cases op with
  | call data =>
    refine ⟨fun _ h => h, fun data h => .inl ?_⟩
    rcases mem_append.1 h with hb | hnew
    · exact hb
    · simp at hnew
  | rpc i =>
    have hset : ∀ {data data' : Bytes} {stage : Stage}, stage ≠ .marked →
        (data, Stage.marked) ∈ self.calls.set i (data', stage) →
          (data, Stage.marked) ∈ self.calls := by
      intro data data' stage hne hmem
      rcases mem_or_eq_of_mem_set hmem with hb | heq
      · exact hb
      · exact absurd (Prod.mk.inj heq).2.symm hne
    rw [step, rpcStep]
    split
    · exact ⟨fun _ h => h, fun _ h => .inl (hset (by split_ifs <;> simp) h)⟩
    · exact ⟨fun _ h => h, fun _ h => .inl (hset (by split_ifs <;> simp) h)⟩
    · refine ⟨hm, fun data h => ?_⟩
      rcases mem_or_eq_of_mem_set h with hb | heq
      · exact .inl hb
      · refine .inr ((mem_markSeen hr).2 (.inl ?_))
        rw [(Prod.mk.inj heq).1]
    · exact ⟨fun _ h => h, fun _ h => .inl (hset (by simp) h)⟩
    · exact ⟨fun _ h => h, fun _ h => .inl h⟩
    · exact ⟨fun _ h => h, fun _ h => .inl h⟩
  | outbound =>
    rw [step, outboundStep]
    split
    · split <;> exact ⟨fun _ h => h, fun _ h => .inl h⟩
    · exact ⟨hm, fun _ h => .inl h⟩
  | receive raw =>
    rw [step, receive]
    split
    · exact ⟨fun _ h => h, fun _ h => .inl h⟩
    · exact ⟨hm, fun _ h => .inl h⟩
  | inbound =>
    rw [step, inboundStep]
    split <;> exact ⟨fun _ h => h, fun _ h => .inl h⟩
  | ledger next => exact ⟨fun _ h => h, fun _ h => .inl h⟩

theorem Silent.step (h : self.Silent keccak256)
    (hr : self.seen.size < TX_GOSSIP_SEEN_SET_CAPACITY) (op : Op σ) :
    (self.step keccak256 I op).Silent keccak256 := by
  have hk : ∀ {hash}, hash ∈ self.seen → hash ∈ (self.step keccak256 I op).seen :=
    fun hmem => (marks_step hr op).1 _ hmem
  have hc : ∀ data, (data, Stage.marked) ∈ (self.step keccak256 I op).calls →
      keccak256 data ∈ (self.step keccak256 I op).seen := by
    intro data hd
    rcases (marks_step hr op).2 data hd with hb | hnow
    · exact hk (h.calls data hb)
    · exact hnow
  rcases self.step_cases (I := I) op with ⟨-, raw, hh, heq⟩ | ⟨-, hs | ⟨data, hd, heq⟩ |
    ⟨raw, channel, -, hch, heq⟩ | ⟨raw, heq⟩⟩
  · -- the hash of the bytes in hand is in the set, so they are dropped
    have hold : (markSeen self.seen (keccak256 raw)).2 = false := by
      rw [← Bool.not_eq_true, markSeen_new_iff]
      rintro (hf | hnew)
      · omega
      · exact hnew (h.outbound raw hh)
    rw [hold] at heq
    refine ⟨hc, ?_, ?_, ?_⟩ <;> rw [heq]
    · exact fun raw' hraw' => hk (h.channel raw' hraw')
    · intro raw' hraw'
      cases hraw'
    · exact h.sent
  · refine ⟨hc, ?_, ?_, ?_⟩ <;> rw [hs]
    · exact fun raw' hraw' => hk (h.channel raw' hraw')
    · exact fun raw' hraw' => hk (h.outbound raw' hraw')
    · exact h.sent
  · refine ⟨hc, ?_, ?_, ?_⟩ <;> rw [heq]
    · intro raw' hraw'
      rcases mem_append.1 hraw' with hb | hnew
      · exact hk (h.channel raw' hb)
      · obtain rfl := mem_singleton.1 hnew
        exact hk (h.calls raw' hd)
    · exact fun raw' hraw' => hk (h.outbound raw' hraw')
    · exact h.sent
  · refine ⟨hc, ?_, ?_, ?_⟩ <;> rw [heq]
    · intro raw' hraw'
      refine hk (h.channel raw' ?_)
      rw [hch]
      exact mem_cons_of_mem raw hraw'
    · intro raw' hraw'
      obtain rfl : raw = raw' := Option.some.inj hraw'
      refine hk (h.channel raw ?_)
      rw [hch]
      exact mem_cons_self
    · exact h.sent
  · refine ⟨hc, ?_, ?_, ?_⟩ <;> rw [heq]
    · exact fun raw' hraw' => hk (h.channel raw' hraw')
    · exact fun raw' hraw' => hk (h.outbound raw' hraw')
    · exact h.sent

/-- **Nothing is gossiped** in a run during which the set of seen hashes has not filled up. -/
theorem sent_eq_nil {ledger : σ} {ops : List (Op σ)}
    (hrun : Run.Along (GossipNode.step keccak256 I)
      (fun self _ => self.seen.size < TX_GOSSIP_SEEN_SET_CAPACITY) (new ledger) ops) :
    (run keccak256 I ledger ops).traffic.sent = [] := by
  have hs : (new ledger : GossipNode σ).Silent keccak256 := by
    constructor <;> simp [new]
  exact (hrun.invariant hs fun _ op h hr => h.step hr op).sent

/-! ### Gossip of local transactions -/

/-- **When local transactions are gossiped.** In every state of a run everything that the outbound
task is done with was handed to the peers or arrived from one, exactly when it finds the hash of
each of them unmarked. -/
theorem gossiped_iff (keccak256 : Bytes → B256) (I : Intake σ) (ledger : σ) (ops : List (Op σ)) :
    (run keccak256 I ledger ops).Ordered ∧
      ((∀ k, (run keccak256 I ledger (ops.take k)).Gossiped) ↔
        Run.Along (GossipNode.step keccak256 I) (Unmarked keccak256) (new ledger) ops) := by
  refine ⟨Ordered.run ledger ops, ?_⟩
  have hs : (new ledger : GossipNode σ).Gossiped := fun raw hraw => by cases hraw
  have hst : ∀ (s : GossipNode σ) (op : Op σ), True → s.Gossiped →
      ((s.step keccak256 I op).Gossiped ↔ s.Unmarked keccak256 op) :=
    fun _ op _ h => gossiped_step_iff h op
  exact Run.forall_take_iff (fun _ _ _ => trivial) hst trivial hs ops

/-- A validator and a ledger that take everything. -/
def openIntake : Intake Unit := ⟨fun _ _ => true, fun ledger _ => (ledger, true)⟩

theorem sent_eq_nil_drained :
    (run (fun bytes => BitVec.ofNat 256 bytes.length) openIntake () [.call [1], .call [2, 3],
      .rpc 0, .rpc 1, .rpc 0, .rpc 1, .rpc 0, .rpc 1, .rpc 0, .rpc 1, .outbound, .outbound,
      .outbound, .outbound]).traffic.sent = [] :=
  sent_eq_nil (by decide +kernel)

/-- The callback marks the hash before it places the bytes, so the task drops them as old. -/
theorem submitted_not_gossiped :
    ¬ ∀ (keccak256 : Bytes → B256) (I : Intake Unit) (ops : List (Op Unit)),
      let traffic := (run keccak256 I () ops).traffic
      traffic.channel = [] → traffic.outbound = none →
        ∀ raw ∈ traffic.placed, raw ∈ traffic.sent ∨ raw ∈ traffic.arrived := by
  intro h
  have hd := h (fun bytes => BitVec.ofNat 256 bytes.length) openIntake
    [.call [1], .rpc 0, .rpc 0, .rpc 0, .rpc 0, .outbound, .outbound] (by decide +kernel)
    (by decide +kernel) [1] (by decide +kernel)
  exact absurd hd (by decide +kernel)

end GossipNode

end Kora
