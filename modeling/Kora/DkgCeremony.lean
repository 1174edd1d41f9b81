/-
The key generation ceremony (`node/dkg/src/ceremony.rs`).

A participant starts its dealer (phase 1), collects and acknowledges the messages of all
dealers (2), waits until everybody is ready (2.5), publishes the log of its dealer (3),
collects the logs (4) and finalizes (5). Each loop receives, sends and then tests whether
it is done.

* `CeremonyNode.step` — the program of one participant, one instruction at a time;
* `Ceremony.step` — all participants, with a reliable channel from each to each.
-/
import Kora.DkgNetwork

open Std

namespace Kora

open DkgParticipant

inductive Loop where
  | phase2
  /-- Phase 2.5. -/
  | ready
  | phase4
deriving DecidableEq

/-- The instruction that a participant is at. -/
inductive Pc where
  /-- Phase 1. -/
  | start
  /-- Send what was taken from the queue. -/
  | send (next : Pc)
  | enter (loop : Loop)
  /-- The look at the clock at the beginning of each turn. -/
  | head (loop : Loop)
  | receive (loop : Loop)
  /-- The test at the end of each turn. -/
  | test (loop : Loop)
  /-- Phase 3. -/
  | finalizeDealer
  | dealerFinalized
  /-- Phase 5. -/
  | finalize
  | finished
  | failed (error : DkgError)
deriving DecidableEq

/-- What an instruction gets from outside. -/
inductive NodeInput (F : Feldman) where
  | proceed
  /-- Start the dealer with this randomness. -/
  | seed (seed : F.Seed)
  /-- The deadline of the loop has passed. -/
  | timeout
  /-- It is time to ask the leader for the logs. -/
  | request

/-- A participant in its run of the ceremony. -/
structure CeremonyNode (F : Feldman) where
  participant : DkgParticipant F
  pc : Pc
  /-- What was taken from the queue and is not sent yet. -/
  sending : List (PublicKey × ProtocolMessage F)
  skipPhase3 : Bool

/-- The phases after which phase 1 is not run again. -/
def DkgPhase.skipsPhase1 : DkgPhase → Bool
  | .dealerStarted | .collectingMessages | .dealerFinalized | .collectingLogs => true
  | .awaitingStart | .completed | .failed => false

/-- The phases after which phases 2.5 and 3 are not run again. -/
def DkgPhase.skipsPhase3 : DkgPhase → Bool
  | .dealerFinalized | .collectingLogs => true
  | .awaitingStart | .dealerStarted | .collectingMessages | .completed | .failed => false

namespace CeremonyNode

variable {F : Feldman}

def begin (participant : DkgParticipant F) (restoredPhase : Option DkgPhase) : CeremonyNode F where
  participant
  pc := if restoredPhase.any (·.skipsPhase1) then .enter .phase2 else .start
  sending := []
  skipPhase3 := restoredPhase.any (·.skipsPhase3)

def takeOutgoing (self : CeremonyNode F) (next : Pc) : CeremonyNode F :=
  { self with
    participant := self.participant.takeOutgoing.1
    sending := self.sending ++
      self.participant.takeOutgoing.2.flatMap self.participant.config.connections
    pc := .send next }

def isDone (self : CeremonyNode F) : Loop → Bool
  | .phase2 =>
    self.participant.receivedDealerCount ≥ self.participant.requiredDealerLogs ∧
      self.participant.acksSent.card ≥ self.participant.requiredDealerLogs
  | .ready => self.participant.allReady
  | .phase4 => self.participant.canFinalize

def next (self : CeremonyNode F) : Loop → Pc
  | .phase2 => if self.skipPhase3 then .enter .phase4 else .enter .ready
  | .ready => .finalizeDealer
  | .phase4 => .finalize

def timeoutError (self : CeremonyNode F) : Loop → DkgError
  | .phase2 => .timeout
  | .ready =>
    let ready := self.participant.readyPlayers.card
    let total := self.participant.config.n
    .ceremonyFailed s!"Phase 2.5 timeout: only {ready}/{total} participants ready"
  | .phase4 =>
    let logs := self.participant.dealerLogs.size
    let required := self.participant.requiredDealerLogs
    .ceremonyFailed s!"Phase 4 timeout: only collected {logs}/{required} dealer logs"

def enterLoop (self : CeremonyNode F) : Loop → CeremonyNode F
  | .phase2 =>
    { self with
      participant := self.participant.setPhase .collectingMessages
      pc := .head .phase2 }
  | .ready =>
    { self with participant := self.participant.broadcastReady }.takeOutgoing (.head .ready)
  | .phase4 =>
    { self with
      participant := self.participant.setPhase .collectingLogs
      pc := .head .phase4 }

/-- Ask the leader for the logs. The request does not go through the queue. -/
def requestLogs (self : CeremonyNode F) : CeremonyNode F :=
  { self with
    sending := self.sending ++ match self.participant.leader with
      | some leader => self.participant.config.connections
          (some leader, .new self.participant.session.ceremonyId .requestLogs)
      | none => []
    pc := .send (.head .phase4) }

/-- One instruction, and what it sends. -/
def step (self : CeremonyNode F) (input : NodeInput F) :
    CeremonyNode F × Option (PublicKey × ProtocolMessage F) :=
  match self.pc, input with
  | .start, .seed seed =>
    ({ self with
        participant := (self.participant.startDealer seed).setPhase .dealerStarted
      }.takeOutgoing (.enter .phase2), none)
  | .send next, .proceed =>
    match self.sending with
    | [] => ({ self with pc := next }, none)
    | entry :: rest => ({ self with sending := rest }, some entry)
  | .enter loop, .proceed => (self.enterLoop loop, none)
  | .head loop, .proceed => ({ self with pc := .receive loop }, none)
  | .head loop, .timeout => ({ self with pc := .failed (self.timeoutError loop) }, none)
  | .receive loop, .proceed => (self.takeOutgoing (.test loop), none)
  | .test loop, .proceed =>
    ({ self with pc := if self.isDone loop then self.next loop else .head loop }, none)
  | .test .phase4, .request =>
    -- only the others ask the leader, and only for logs that are missing
    if self.isDone .phase4 ∨ self.participant.config.validatorIndex = 0 then (self, none)
    else (self.requestLogs, none)
  | .finalizeDealer, .proceed =>
    match self.participant.finalizeDealer with
    | (participant, .ok _) => ({ self with participant }.takeOutgoing .dealerFinalized, none)
    | (participant, .error e) => ({ self with participant, pc := .failed e }, none)
  | .dealerFinalized, .proceed =>
    ({ self with
      participant := self.participant.setPhase .dealerFinalized
      pc := .enter .phase4 }, none)
  | .finalize, .proceed =>
    match self.participant.finalize with
    | (participant, .ok _) =>
      ({ self with participant := participant.setPhase .completed, pc := .finished }, none)
    | (participant, .error e) =>
      ({ self with participant := participant.setPhase .failed, pc := .failed e }, none)
  | _, _ => (self, none)

/-- A message arrives in the receiving part of a turn. -/
def deliver (self : CeremonyNode F) (sender : PublicKey) (bytes : Bytes) :
    Option (CeremonyNode F) :=
  match self.pc with
  | .receive _ =>
    some { self with participant := (self.participant.handleMessageBytes sender bytes).1 }
  | _ => none

end CeremonyNode

/-- What happens at one participant. -/
inductive NodeEvent (F : Feldman) where
  | act (input : NodeInput F)
  | deliver (sender : PublicKey) (bytes : Bytes)

def CeremonyNode.handle {F : Feldman} (self : CeremonyNode F) : NodeEvent F → CeremonyNode F
  | .act input => (self.step input).1
  | .deliver sender bytes => (self.deliver sender bytes).getD self

/-- All participants, and the messages under way from each to each. -/
structure Ceremony (F : Feldman) where
  node : PublicKey → CeremonyNode F
  channel : PublicKey → PublicKey → List (ProtocolMessage F)

inductive CeremonyEvent (F : Feldman) where
  | act (key : PublicKey) (input : NodeInput F)
  /-- The first message in a channel arrives. -/
  | deliver (sender receiver : PublicKey)

namespace Ceremony

variable {F : Feldman}

/-- The channels with one of them replaced. -/
def setChannel (channel : PublicKey → PublicKey → List (ProtocolMessage F))
    (sender receiver : PublicKey) (msgs : List (ProtocolMessage F)) :
    PublicKey → PublicKey → List (ProtocolMessage F) :=
  fun q r => if q = sender ∧ r = receiver then msgs else channel q r

def step (self : Ceremony F) : CeremonyEvent F → Ceremony F
  | .act key input =>
    let (node, sent) := (self.node key).step input
    { node := Function.update self.node key node
      channel := match sent with
        | none => self.channel
        | some (target, msg) =>
          setChannel self.channel key target (self.channel key target ++ [msg]) }
  | .deliver sender receiver =>
    match self.channel sender receiver with
    | [] => self
    | msg :: rest =>
      match (self.node receiver).deliver sender msg.toBytes with
      | none => self
      | some node =>
        { node := Function.update self.node receiver node
          channel := setChannel self.channel sender receiver rest }

end Ceremony

end Kora
