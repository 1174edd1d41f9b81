/-
A participant of the key generation ceremony (`node/dkg/src/protocol.rs`).

Every participant is a dealer, which hands out shares and collects acknowledgements, and a
player, which takes shares and acknowledges them. Messages arrive as bytes under the key
of a sender.

* `DkgParticipant.handleMessageBytes` — the duplicate filter, the check of the session and
  the handlers;
* `handleMessageBytes_cases` — a rejected message changes the duplicate filter at most.
-/
import Kora.DkgMessage
import Mathlib.Data.Finset.Card

open Std ExtTreeMap

namespace Kora

open Wire

inductive DkgPhase where
  | awaitingStart
  | dealerStarted
  | collectingMessages
  | dealerFinalized
  | collectingLogs
  | completed
  | failed
deriving DecidableEq

inductive DkgError where
  | ceremonyFailed (reason : String)
  | crypto (reason : String)
  | unknownSender (sender : PublicKey)
  | senderMismatch (expected actual : PublicKey)
  /-- Only the leader can send all logs. -/
  | unauthorizedSender
  | duplicateDealer (dealer : PublicKey)
  | tooManyDealers (count max : ℕ)
  | invalidDealerLog (dealer : PublicKey)
  | sessionMismatch (expected received : B256)
  /-- The bytes could not be decoded. -/
  | invalidMessage (error : CodecError)
  | timeout
deriving DecidableEq

structure DkgConfig where
  publicKey : PublicKey
  validatorIndex : ℕ
  participants : List PublicKey
  chainId : ℕ
  /-- The peers whose address is known. -/
  bootstrapPeers : List PublicKey

namespace DkgConfig

def n (self : DkgConfig) : ℕ := self.participants.length

/-- The quorum, all but the largest minority that can be tolerated. -/
def t (self : DkgConfig) : ℕ := self.n - (self.n - 1) / 3

/-- The library keeps the participants as an ordered set. -/
def info (self : DkgConfig) : DkgInfo := ⟨self.chainId, self.participants.insertionSort (· ≤ ·)⟩

end DkgConfig

/-- A dealer, with the acknowledgements it has taken. -/
structure Dealer (F : Feldman) where
  secret : F.Secret
  acks : ExtTreeMap PublicKey F.Ack

namespace Dealer

variable {F : Feldman}

/-- Take an acknowledgement, if it is valid. -/
def receivePlayerAck (self : Dealer F) (player : PublicKey) (ack : F.Ack) : Dealer F :=
  if F.verifyAck self.secret player ack then { self with acks := self.acks.insert player ack }
  else self

def finalize (self : Dealer F) : F.SignedLog := F.finalizeDealer self.secret self.acks.toList

end Dealer

structure DkgParticipant (F : Feldman) where
  config : DkgConfig
  player : Option F.Player
  dealer : Option (Dealer F)
  session : CeremonySession
  /-- The hashes of the messages that were handled. -/
  seenMessages : Finset B256
  /-- Messages to send, each to one participant or to all. -/
  outgoing : List (Option PublicKey × ProtocolMessage F)
  dealerPubMsgs : ExtTreeMap PublicKey F.PubMsg
  dealerPrivMsgs : ExtTreeMap PublicKey F.PrivMsg
  dealerLogs : ExtTreeMap PublicKey F.Log
  signedLogs : ExtTreeMap PublicKey F.SignedLog
  ourSignedLog : Option F.SignedLog
  finalized : Bool
  /-- The dealers that were sent an acknowledgement. -/
  acksSent : Finset PublicKey
  readyPlayers : Finset PublicKey
  sentReady : Bool
  currentPhase : DkgPhase
  timestampNanos : ℕ

namespace DkgParticipant

variable {F : Feldman}

def init (F : Feldman) (config : DkgConfig) (timestampNanos : ℕ) : DkgParticipant F where
  config
  player := some (F.newPlayer config.info config.publicKey)
  dealer := none
  session := CeremonySession.new F.sha256 config.chainId config.participants timestampNanos
  seenMessages := ∅
  outgoing := []
  dealerPubMsgs := ∅
  dealerPrivMsgs := ∅
  dealerLogs := ∅
  signedLogs := ∅
  ourSignedLog := none
  finalized := false
  acksSent := ∅
  readyPlayers := ∅
  sentReady := false
  currentPhase := .awaitingStart
  timestampNanos

/-- A new participant. The participants have to be different, and to include this one. -/
def new (F : Feldman) (config : DkgConfig) (timestampNanos : ℕ) :
    Except DkgError (DkgParticipant F) :=
  if ¬ config.participants.Nodup then .error (.ceremonyFailed "duplicate participants")
  else if config.publicKey ∉ config.participants then .error (.crypto "Failed to create player")
  else .ok (init F config timestampNanos)

variable {s : DkgParticipant F}

theorem new_eq_ok {config : DkgConfig} {timestampNanos : ℕ}
    (h : new F config timestampNanos = .ok s) :
    config.participants.Nodup ∧ config.publicKey ∈ config.participants ∧
      s = init F config timestampNanos := by
  rw [new] at h
  split_ifs at h with hn hmem
  · cases h
    exact ⟨hn, hmem, rfl⟩

def isParticipant (self : DkgParticipant F) (key : PublicKey) : Bool :=
  self.config.participants.contains key

/-- The leader is the first participant. -/
def leader (self : DkgParticipant F) : Option PublicKey := self.config.participants.head?

/-- Queue a message of this ceremony. -/
def push (self : DkgParticipant F) (target : Option PublicKey) (kind : ProtocolMessageKind F) :
    DkgParticipant F :=
  { self with outgoing := self.outgoing ++ [(target, .new self.session.ceremonyId kind)] }

/-! ### Messages of dealers -/

def tryProcessDealerMessages (self : DkgParticipant F) (dealer : PublicKey) : DkgParticipant F :=
  match self.dealerPubMsgs[dealer]?, self.dealerPrivMsgs[dealer]?, self.player with
  | some pubMsg, some privMsg, some player =>
    match F.dealerMessage player dealer pubMsg privMsg with
    | (player, some ack) =>
      { self.push (some dealer) (.playerAck self.config.publicKey dealer ack) with
        player := some player
        acksSent := insert dealer self.acksSent }
    | (player, none) => { self with player := some player }
  | _, _, _ => self

/-- Queue the share of a player, or keep it if it is for this participant. -/
def queuePrivMsg (self : DkgParticipant F) (entry : PublicKey × F.PrivMsg) : DkgParticipant F :=
  if entry.1 = self.config.publicKey then
    { self with dealerPrivMsgs := self.dealerPrivMsgs.insert self.config.publicKey entry.2 }
  else self.push (some entry.1) (.dealerPrivate self.config.publicKey entry.2)

def startDealer (self : DkgParticipant F) (seed : F.Seed) : DkgParticipant F :=
  let key := self.config.publicKey
  let (secret, pubMsg, privMsgs) := F.start self.config.info key seed
  let queued := privMsgs.foldl queuePrivMsg (self.push none (.dealerPublic key pubMsg))
  tryProcessDealerMessages
    { queued with
      dealerPubMsgs := queued.dealerPubMsgs.insert key pubMsg
      dealer := some ⟨secret, ∅⟩ } key

/-! ### Incoming messages -/

def handleDealerPublic (self : DkgParticipant F) (sender dealer : PublicKey) (msg : F.PubMsg) :
    DkgParticipant F × Except DkgError Unit :=
  if sender ≠ dealer then (self, .error (.senderMismatch dealer sender))
  else if self.dealerPubMsgs.size ≥ self.config.n then
    (self, .error (.tooManyDealers (self.dealerPubMsgs.size + 1) self.config.n))
  else if self.dealerPubMsgs.contains dealer then (self, .error (.duplicateDealer dealer))
  else
    (tryProcessDealerMessages
      { self with dealerPubMsgs := self.dealerPubMsgs.insert dealer msg } dealer, .ok ())

def handleDealerPrivate (self : DkgParticipant F) (sender dealer : PublicKey) (msg : F.PrivMsg) :
    DkgParticipant F × Except DkgError Unit :=
  if sender ≠ dealer then (self, .error (.senderMismatch dealer sender))
  else if self.dealerPrivMsgs.size ≥ self.config.n then
    (self, .error (.tooManyDealers (self.dealerPrivMsgs.size + 1) self.config.n))
  else if self.dealerPrivMsgs.contains dealer then (self, .error (.duplicateDealer dealer))
  else
    (tryProcessDealerMessages
      { self with dealerPrivMsgs := self.dealerPrivMsgs.insert dealer msg } dealer, .ok ())

/-- An acknowledgement for this participant's dealer; it is no error if it is not taken. -/
def handlePlayerAck (self : DkgParticipant F) (sender player dealer : PublicKey) (ack : F.Ack) :
    DkgParticipant F × Except DkgError Unit :=
  if sender ≠ player then (self, .error (.senderMismatch player sender))
  else if dealer = self.config.publicKey then
    ({ self with dealer := self.dealer.map (·.receivePlayerAck player ack) }, .ok ())
  else (self, .ok ())

/-- Record a checked log. -/
def recordLog (self : DkgParticipant F) (dealer : PublicKey) (log : F.Log)
    (signed : F.SignedLog) : DkgParticipant F :=
  { self with
    dealerLogs := self.dealerLogs.insert dealer log
    signedLogs := self.signedLogs.insert dealer signed }

def handleDealerLog (self : DkgParticipant F) (sender : PublicKey) (signed : F.SignedLog) :
    DkgParticipant F × Except DkgError Unit :=
  match F.check self.config.info signed with
  | some (dealer, log) =>
    if ¬ self.isParticipant dealer then (self, .error (.unknownSender dealer))
    else if self.dealerLogs.size ≥ self.config.n then
      (self, .error (.tooManyDealers (self.dealerLogs.size + 1) self.config.n))
    else if self.dealerLogs.contains dealer then (self, .error (.duplicateDealer dealer))
    else (self.recordLog dealer log signed, .ok ())
  | none => (self, .error (.invalidDealerLog sender))

/-- Answer with all signed logs. -/
def handleRequestLogs (self : DkgParticipant F) (sender : PublicKey) : DkgParticipant F :=
  self.push (some sender) (.allLogs self.signedLogs.toList)

/-- The loop over the logs of the leader, which ends early when there is a log for each dealer. -/
def recordLogs : DkgParticipant F → List (PublicKey × F.SignedLog) → DkgParticipant F
  | self, [] => self
  | self, (_, signed) :: logs =>
    match F.check self.config.info signed with
    | none => recordLogs self logs
    | some (dealer, log) =>
      if ¬ self.isParticipant dealer then recordLogs self logs
      else if self.dealerLogs.size ≥ self.config.n then self
      else if self.dealerLogs.contains dealer then recordLogs self logs
      else recordLogs (self.recordLog dealer log signed) logs

def handleAllLogs (self : DkgParticipant F) (sender : PublicKey)
    (logs : List (PublicKey × F.SignedLog)) : DkgParticipant F × Except DkgError Unit :=
  if some sender ≠ self.leader then (self, .error .unauthorizedSender)
  else (self.recordLogs logs, .ok ())

def handleReady (self : DkgParticipant F) (sender player : PublicKey) :
    DkgParticipant F × Except DkgError Unit :=
  if sender ≠ player then (self, .error (.senderMismatch player sender))
  else ({ self with readyPlayers := insert player self.readyPlayers }, .ok ())

def handleMessage (self : DkgParticipant F) (sender : PublicKey) (msg : ProtocolMessage F) :
    DkgParticipant F × Except DkgError Unit :=
  if ¬ self.isParticipant sender then (self, .error (.unknownSender sender))
  else match msg.kind with
    | .dealerPublic dealer msg => self.handleDealerPublic sender dealer msg
    | .dealerPrivate dealer msg => self.handleDealerPrivate sender dealer msg
    | .playerAck player dealer ack => self.handlePlayerAck sender player dealer ack
    | .dealerLog log => self.handleDealerLog sender log
    | .requestLogs => (self.handleRequestLogs sender, .ok ())
    | .allLogs logs => self.handleAllLogs sender logs
    | .ready player => self.handleReady sender player

/-- The message in some bytes, if they can be read and do not name another ceremony. -/
def admission (self : DkgParticipant F) (bytes : Bytes) : Except DkgError (ProtocolMessage F) :=
  match ProtocolMessage.fromBytes F bytes self.config.n with
  | .error e => .error (.invalidMessage e)
  | .ok msg =>
    match msg.sessionId with
    | some sessionId =>
      if sessionId ≠ self.session.ceremonyId then
        .error (.sessionMismatch self.session.ceremonyId sessionId)
      else .ok msg
    -- a legacy message is taken with a warning
    | none => .ok msg

variable {self : DkgParticipant F} {msg : ProtocolMessage F}

theorem fromBytes_of_admission {bytes : Bytes} (h : self.admission bytes = .ok msg) :
    ProtocolMessage.fromBytes F bytes self.config.n = .ok msg := by
  rw [admission] at h
  split at h
  · cases h
  · next msg' hr =>
    rw [hr]
    split at h
    · split_ifs at h
      · rw [Except.ok.inj h]
    · rw [Except.ok.inj h]

theorem admission_toBytes (hn : 0 < s.config.n)
    (hf : ProtocolMessage.KindFits s.config.n msg.kind) :
    s.admission msg.toBytes = match msg.sessionId with
      | some sessionId => if sessionId ≠ s.session.ceremonyId then
          .error (.sessionMismatch s.session.ceremonyId sessionId) else .ok msg
      | none => .ok msg := by
  have hr := ProtocolMessage.fromBytes_toBytes hn hf []
  rw [List.append_nil] at hr
  rw [admission, hr]

/-- Process an incoming message. A duplicate is dropped silently. -/
def handleMessageBytes (self : DkgParticipant F) (sender : PublicKey) (bytes : Bytes) :
    DkgParticipant F × Except DkgError Unit :=
  if F.sha256 bytes ∈ self.seenMessages then (self, .ok ())
  else match self.admission bytes with
    | .error e => (self, .error e)
    | .ok msg =>
      { self with seenMessages := insert (F.sha256 bytes) self.seenMessages }.handleMessage sender
        msg

/-! ### Own steps -/

/-- Finalize the dealer and queue its signed log. -/
def finalizeDealer (self : DkgParticipant F) : DkgParticipant F × Except DkgError Unit :=
  match self.dealer with
  | none => (self, .ok ())
  | some dealer =>
    let signed := dealer.finalize
    match F.check self.config.info signed with
    | some (key, log) =>
      ({ (self.recordLog key log signed).push none (.dealerLog signed) with
          dealer := none
          ourSignedLog := some signed }, .ok ())
    | none =>
      ({ self with dealer := none }, .error (.ceremonyFailed "Our own dealer log is invalid"))

/-- Tell the others that all acknowledgements were sent. -/
def broadcastReady (self : DkgParticipant F) : DkgParticipant F :=
  if self.sentReady then self
  else
    { self.push none (.ready self.config.publicKey) with
      readyPlayers := insert self.config.publicKey self.readyPlayers
      sentReady := true }

def allReady (self : DkgParticipant F) : Bool := self.readyPlayers.card ≥ self.config.n

/-- A log of every participant is required. -/
def requiredDealerLogs (self : DkgParticipant F) : ℕ := self.config.n

def canFinalize (self : DkgParticipant F) : Bool :=
  self.dealerLogs.size ≥ self.requiredDealerLogs

def receivedDealerCount (self : DkgParticipant F) : ℕ :=
  (self.dealerPubMsgs.keys.filter (self.dealerPrivMsgs.contains ·)).length

structure Output (F : Feldman) where
  /-- The group key with its polynomial. -/
  group : F.Public
  threshold : ℕ
  participants : ℕ
  share : F.Share
  participantKeys : List PublicKey

/-- Compute the output from the logs. The player is used up. -/
def finalize (self : DkgParticipant F) : DkgParticipant F × Except DkgError (Output F) :=
  let count := self.dealerLogs.size
  let required := self.requiredDealerLogs
  if self.finalized then (self, .error (.ceremonyFailed "Already finalized"))
  else if ¬ self.canFinalize then
    (self, .error (.ceremonyFailed s!"Not enough dealer logs: {count} < {required}"))
  else match self.player with
    | none => (self, .error (.ceremonyFailed "Player already consumed"))
    | some player =>
      let logs := self.dealerLogs.toList
      match F.observe self.config.info logs, F.share player self.config.info logs with
      | some group, some share =>
        ({ self with player := none, finalized := true },
          .ok ⟨group, self.config.t, self.config.n, share, self.config.participants⟩)
      | _, _ => ({ self with player := none }, .error (.crypto "Failed to finalize"))

def takeOutgoing (self : DkgParticipant F) :
    DkgParticipant F × List (Option PublicKey × ProtocolMessage F) :=
  ({ self with outgoing := [] }, self.outgoing)

def setPhase (self : DkgParticipant F) (phase : DkgPhase) : DkgParticipant F :=
  { self with currentPhase := phase }

/-- What a participant does on its own, with the randomness it gets. -/
inductive Call (F : Feldman) where
  | startDealer (seed : F.Seed)
  | finalizeDealer
  | broadcastReady
  | finalize
  | takeOutgoing
  | setPhase (phase : DkgPhase)

def act (self : DkgParticipant F) : Call F → DkgParticipant F
  | .startDealer seed => self.startDealer seed
  | .finalizeDealer => self.finalizeDealer.1
  | .broadcastReady => self.broadcastReady
  | .finalize => self.finalize.1
  | .takeOutgoing => self.takeOutgoing.1
  | .setPhase phase => self.setPhase phase

inductive Op (F : Feldman) where
  | receive (sender : PublicKey) (bytes : Bytes)
  | call (call : Call F)

def step (self : DkgParticipant F) : Op F → DkgParticipant F
  | .receive sender bytes => (self.handleMessageBytes sender bytes).1
  | .call call => self.act call

/-! ### What a message changes -/

structure Records (F : Feldman) where
  pubMsgs : ExtTreeMap PublicKey F.PubMsg
  privMsgs : ExtTreeMap PublicKey F.PrivMsg
  logs : ExtTreeMap PublicKey F.Log
  acks : Option (ExtTreeMap PublicKey F.Ack)
  ready : Finset PublicKey

def records (self : DkgParticipant F) : Records F where
  pubMsgs := self.dealerPubMsgs
  privMsgs := self.dealerPrivMsgs
  logs := self.dealerLogs
  acks := self.dealer.map (·.acks)
  ready := self.readyPlayers

/-- The signed log is of a participant whose log is missing. -/
def Misses (self : DkgParticipant F) (signed : F.SignedLog) : Prop :=
  ∃ dealer log, F.check self.config.info signed = some (dealer, log) ∧
    self.isParticipant dealer = true ∧ self.dealerLogs.size < self.config.n ∧
    dealer ∉ self.dealerLogs

def Changes (self : DkgParticipant F) (sender : PublicKey) (kind : ProtocolMessageKind F) : Prop :=
  self.isParticipant sender = true ∧
    match kind with
    | .dealerPublic dealer _ => sender = dealer ∧ self.dealerPubMsgs.size < self.config.n ∧
        dealer ∉ self.dealerPubMsgs
    | .dealerPrivate dealer _ => sender = dealer ∧ self.dealerPrivMsgs.size < self.config.n ∧
        dealer ∉ self.dealerPrivMsgs
    | .playerAck player dealer ack => sender = player ∧ dealer = self.config.publicKey ∧
        ∃ own, self.dealer = some own ∧ F.verifyAck own.secret player ack = true ∧
          own.acks[player]? ≠ some ack
    | .dealerLog signed => self.Misses signed
    | .requestLogs => False
    | .allLogs logs => some sender = self.leader ∧ ∃ entry ∈ logs, self.Misses entry.2
    | .ready player => sender = player ∧ player ∉ self.readyPlayers

theorem tryProcessDealerMessages_eq (self : DkgParticipant F) (dealer : PublicKey) :
    ∃ player outgoing acksSent,
      self.tryProcessDealerMessages dealer = { self with player, outgoing, acksSent } := by
  rw [tryProcessDealerMessages]
  split
  · split
    · exact ⟨_, _, _, rfl⟩
    · exact ⟨_, _, _, rfl⟩
  · exact ⟨_, _, _, rfl⟩

theorem size_insert_of_notMem {V : Type} {m : ExtTreeMap PublicKey V} {key : PublicKey} {v : V}
    (h : key ∉ m) : (m.insert key v).size = m.size + 1 := by
  rw [size_insert, if_neg (mt contains_iff_mem.1 h)]

/-! ### The logs of the leader -/

theorem recordLogs_of_full (h : self.config.n ≤ self.dealerLogs.size)
    (logs : List (PublicKey × F.SignedLog)) : self.recordLogs logs = self := by
  induction logs with
  | nil => rfl
  | cons entry logs ih =>
    rw [recordLogs]
    split
    · exact ih
    · split_ifs
      · rfl
      · exact ih

theorem recordLogs_cons_of_not {entry : PublicKey × F.SignedLog} (h : ¬ self.Misses entry.2)
    (logs : List (PublicKey × F.SignedLog)) :
    self.recordLogs (entry :: logs) = self.recordLogs logs := by
  rw [recordLogs]
  split
  · rfl
  · next dealer log hc =>
    split_ifs with hp hs hmem
    · exact (recordLogs_of_full hs logs).symm
    · rfl
    · refine absurd ⟨dealer, log, hc, hp, Nat.lt_of_not_le hs, ?_⟩ h
      exact mt contains_iff_mem.2 hmem
    · rfl

theorem recordLogs_cons_of_misses {entry : PublicKey × F.SignedLog} (h : self.Misses entry.2)
    (logs : List (PublicKey × F.SignedLog)) :
    ∃ dealer log, F.check self.config.info entry.2 = some (dealer, log) ∧
      self.isParticipant dealer = true ∧ dealer ∉ self.dealerLogs ∧
      self.recordLogs (entry :: logs) = (self.recordLog dealer log entry.2).recordLogs logs := by
  obtain ⟨dealer, log, hc, hp, hs, hmem⟩ := h
  refine ⟨dealer, log, hc, hp, hmem, ?_⟩
  rw [recordLogs, hc]
  dsimp only
  rw [if_neg (not_not.2 hp), if_neg (Nat.not_le.2 hs),
    if_neg (mt contains_iff_mem.1 hmem)]

variable {logs : List (PublicKey × F.SignedLog)}

/-- **The run rule of the loop**: what each recording of a missing log keeps, the loop keeps. -/
theorem recordLogs_invariant (Inv : DkgParticipant F → Prop) (hself : Inv self)
    (hst : ∀ (s : DkgParticipant F) (dealer : PublicKey) (log : F.Log) (signed : F.SignedLog),
      Inv s → signed ∈ logs.map (·.2) → F.check s.config.info signed = some (dealer, log) →
      s.isParticipant dealer = true → dealer ∉ s.dealerLogs → Inv (s.recordLog dealer log signed)) :
    Inv (self.recordLogs logs) := by
  induction logs generalizing self with
  | nil => exact hself
  | cons entry logs ih =>
    have hl : Inv (self.recordLogs logs) := ih hself fun s dealer log signed hs hmem =>
      hst s dealer log signed hs (List.mem_cons_of_mem _ hmem)
    by_cases hm : self.Misses entry.2
    · obtain ⟨dealer, log, hc, hp, hnew, heq⟩ :=
        recordLogs_cons_of_misses hm logs
      rw [heq]
      refine ih (hst self dealer log entry.2 hself List.mem_cons_self hc hp hnew) ?_
      intro s dealer log signed hs hmem
      exact hst s dealer log signed hs (List.mem_cons_of_mem _ hmem)
    · rw [recordLogs_cons_of_not hm]
      exact hl

theorem recordLogs_eq (self : DkgParticipant F) (logs : List (PublicKey × F.SignedLog)) :
    ∃ dealerLogs signedLogs, self.recordLogs logs = { self with dealerLogs, signedLogs } := by
  refine recordLogs_invariant (fun s => ∃ dealerLogs signedLogs,
    s = { self with dealerLogs, signedLogs }) ⟨_, _, rfl⟩ ?_
  rintro s dealer log signed ⟨dealerLogs, signedLogs, rfl⟩ - - - -
  exact ⟨_, _, rfl⟩

theorem recordLogs_eq_self (h : ∀ entry ∈ logs, ¬ self.Misses entry.2) :
    self.recordLogs logs = self := by
  induction logs with
  | nil => rfl
  | cons entry logs ih =>
    obtain ⟨he, hl⟩ := List.forall_mem_cons.1 h
    rw [recordLogs_cons_of_not he]
    exact ih hl

theorem size_le_recordLogs (self : DkgParticipant F) (logs : List (PublicKey × F.SignedLog)) :
    self.dealerLogs.size ≤ (self.recordLogs logs).dealerLogs.size := by
  refine recordLogs_invariant (fun s => self.dealerLogs.size ≤ s.dealerLogs.size) le_rfl ?_
  intro s dealer log signed hs _ _ _ hnew
  show self.dealerLogs.size ≤ (s.dealerLogs.insert dealer log).size
  rw [size_insert_of_notMem hnew]
  omega

theorem size_lt_recordLogs (h : ∃ entry ∈ logs, self.Misses entry.2) :
    self.dealerLogs.size < (self.recordLogs logs).dealerLogs.size := by
  induction logs with
  | nil =>
    obtain ⟨entry, he, -⟩ := h
    cases he
  | cons entry logs ih =>
    by_cases hm : self.Misses entry.2
    · obtain ⟨dealer, log, -, -, hnew, heq⟩ := recordLogs_cons_of_misses hm logs
      have hg := size_le_recordLogs (self.recordLog dealer log entry.2) logs
      have hone : (self.recordLog dealer log entry.2).dealerLogs.size = self.dealerLogs.size + 1 :=
        size_insert_of_notMem hnew
      rw [heq]
      omega
    · obtain ⟨entry', he', hm'⟩ := h
      rw [recordLogs_cons_of_not hm]
      rcases List.mem_cons.1 he' with rfl | hmem
      · exact absurd hm' hm
      · exact ih ⟨entry', hmem, hm'⟩

/-! ### One message -/

/-- What a message that is taken does, by its kind. -/
inductive Taken (s : DkgParticipant F) (sender : PublicKey) :
    ProtocolMessageKind F → DkgParticipant F → Prop where
  | dealerPublic (msg : F.PubMsg) (hsize : s.dealerPubMsgs.size < s.config.n)
      (hnew : sender ∉ s.dealerPubMsgs) :
      Taken s sender (.dealerPublic sender msg) (tryProcessDealerMessages
        { s with dealerPubMsgs := s.dealerPubMsgs.insert sender msg } sender)
  | dealerPrivate (msg : F.PrivMsg) (hsize : s.dealerPrivMsgs.size < s.config.n)
      (hnew : sender ∉ s.dealerPrivMsgs) :
      Taken s sender (.dealerPrivate sender msg) (tryProcessDealerMessages
        { s with dealerPrivMsgs := s.dealerPrivMsgs.insert sender msg } sender)
  | playerAck (ack : F.Ack) :
      Taken s sender (.playerAck sender s.config.publicKey ack)
        { s with dealer := s.dealer.map (·.receivePlayerAck sender ack) }
  | dealerLog (signed : F.SignedLog) (dealer : PublicKey) (log : F.Log)
      (hcheck : F.check s.config.info signed = some (dealer, log))
      (hdealer : s.isParticipant dealer = true) (hsize : s.dealerLogs.size < s.config.n)
      (hnew : dealer ∉ s.dealerLogs) :
      Taken s sender (.dealerLog signed) (s.recordLog dealer log signed)
  | requestLogs : Taken s sender .requestLogs (s.handleRequestLogs sender)
  | allLogs (logs : List (PublicKey × F.SignedLog)) (hleader : some sender = s.leader) :
      Taken s sender (.allLogs logs) (s.recordLogs logs)
  | ready : Taken s sender (.ready sender)
      { s with readyPlayers := insert sender s.readyPlayers }

theorem handleMessage_cases (s : DkgParticipant F) (sender : PublicKey) (msg : ProtocolMessage F) :
    (s.handleMessage sender msg).1 = s ∨ s.isParticipant sender = true ∧
      (s.handleMessage sender msg).2 = .ok () ∧
      Taken s sender msg.kind (s.handleMessage sender msg).1 := by
  rw [handleMessage]
  by_cases hs : s.isParticipant sender = true
  swap
  · rw [if_pos hs]
    exact .inl rfl
  rw [if_neg (not_not.2 hs)]
  rcases msg with ⟨sessionId, kind⟩
  cases kind with
  | dealerPublic dealer msg =>
    simp only [handleDealerPublic]
    split_ifs with hne hsz hmem
    · exact .inl rfl
    · exact .inl rfl
    · exact .inl rfl
    · obtain rfl := not_not.1 hne
      exact .inr ⟨hs, rfl,
        .dealerPublic msg (Nat.lt_of_not_le hsz) (mt contains_iff_mem.2 hmem)⟩
  | dealerPrivate dealer msg =>
    simp only [handleDealerPrivate]
    split_ifs with hne hsz hmem
    · exact .inl rfl
    · exact .inl rfl
    · exact .inl rfl
    · obtain rfl := not_not.1 hne
      exact .inr ⟨hs, rfl,
        .dealerPrivate msg (Nat.lt_of_not_le hsz) (mt contains_iff_mem.2 hmem)⟩
  | playerAck player dealer ack =>
    simp only [handlePlayerAck]
    split_ifs with hne hown
    · exact .inl rfl
    · obtain rfl := not_not.1 hne
      subst hown
      exact .inr ⟨hs, rfl, .playerAck ack⟩
    · exact .inl rfl
  | dealerLog signed =>
    simp only [handleDealerLog]
    split
    · next dealer log hc =>
      split_ifs with hd hsz hmem
      · exact .inl rfl
      · exact .inl rfl
      · exact .inr ⟨hs, rfl, .dealerLog signed dealer log hc hd
          (Nat.lt_of_not_le hsz) (mt contains_iff_mem.2 hmem)⟩
      · exact .inl rfl
    · exact .inl rfl
  | requestLogs => exact .inr ⟨hs, rfl, .requestLogs⟩
  | allLogs logs =>
    simp only [handleAllLogs]
    split_ifs with hne
    · exact .inl rfl
    · exact .inr ⟨hs, rfl, .allLogs logs (not_not.1 hne)⟩
  | ready player =>
    simp only [handleReady]
    split_ifs with hne
    · exact .inl rfl
    · obtain rfl := not_not.1 hne
      exact .inr ⟨hs, rfl, .ready⟩

variable {sender : PublicKey}

theorem handleMessage_of_error {e : DkgError} (h : (s.handleMessage sender msg).2 = .error e) :
    (s.handleMessage sender msg).1 = s := by
  rcases handleMessage_cases s sender msg with heq | ⟨-, hok, -⟩
  · exact heq
  · rw [hok] at h
    cases h

variable {s' : DkgParticipant F}

theorem handleMessage_of_taken (hsn : s.isParticipant sender = true)
    (h : Taken s sender msg.kind s') : (s.handleMessage sender msg).1 = s' := by
  rw [handleMessage, if_neg (not_not.2 hsn)]
  generalize msg.kind = kind at h
  cases h with
  | dealerPublic msg hs hnew =>
    simp only [handleDealerPublic]
    rw [if_neg (not_not.2 rfl), if_neg (Nat.not_le.2 hs), if_neg (mt contains_iff_mem.1 hnew)]
  | dealerPrivate msg hs hnew =>
    simp only [handleDealerPrivate]
    rw [if_neg (not_not.2 rfl), if_neg (Nat.not_le.2 hs), if_neg (mt contains_iff_mem.1 hnew)]
  | playerAck ack =>
    simp only [handlePlayerAck, if_true]
    rw [if_neg (not_not.2 rfl)]
  | dealerLog signed dealer log hc hd hs hnew =>
    simp only [handleDealerLog, hc]
    rw [if_neg (not_not.2 hd), if_neg (Nat.not_le.2 hs),
      if_neg (mt contains_iff_mem.1 hnew)]
  | requestLogs => rfl
  | allLogs logs hl =>
    simp only [handleAllLogs]
    rw [if_neg (not_not.2 hl)]
  | ready =>
    simp only [handleReady]
    rw [if_neg (not_not.2 rfl)]

variable {kind : ProtocolMessageKind F}

theorem Changes.taken (h : s.Changes sender kind) (sessionId : Option B256) :
    Taken s sender kind (s.handleMessage sender ⟨sessionId, kind⟩).1 := by
  obtain ⟨hsn, hk⟩ := h
  suffices h : ∃ s', Taken s sender kind s' by
    obtain ⟨s', hs'⟩ := h
    have heq : (s.handleMessage sender ⟨sessionId, kind⟩).1 = s' :=
      handleMessage_of_taken hsn hs'
    rwa [heq]
  cases kind with
  | dealerPublic dealer msg =>
    obtain ⟨rfl, hs, hnew⟩ := hk
    exact ⟨_, .dealerPublic msg hs hnew⟩
  | dealerPrivate dealer msg =>
    obtain ⟨rfl, hs, hnew⟩ := hk
    exact ⟨_, .dealerPrivate msg hs hnew⟩
  | playerAck player dealer ack =>
    obtain ⟨rfl, rfl, -⟩ := hk
    exact ⟨_, .playerAck ack⟩
  | dealerLog signed =>
    obtain ⟨dealer, log, hc, hd, hs, hnew⟩ := hk
    exact ⟨_, .dealerLog signed dealer log hc hd hs hnew⟩
  | requestLogs => exact hk.elim
  | allLogs logs => exact ⟨_, .allLogs logs hk.1⟩
  | ready player =>
    obtain ⟨rfl, -⟩ := hk
    exact ⟨_, .ready⟩

/-- The message adds to what is recorded, or asks for an answer. -/
def Alters (self : DkgParticipant F) (sender : PublicKey) (kind : ProtocolMessageKind F) : Prop :=
  self.Changes sender kind ∨
    self.isParticipant sender = true ∧ kind = .requestLogs

theorem receivePlayerAck_eq_self {own : Dealer F} {player : PublicKey} {ack : F.Ack}
    (h : ¬ (F.verifyAck own.secret player ack = true ∧ own.acks[player]? ≠ some ack)) :
    own.receivePlayerAck player ack = own := by
  rw [Dealer.receivePlayerAck]
  split_ifs with hv
  · have hold : own.acks[player]? = some ack := by
      by_contra hne
      exact h ⟨hv, hne⟩
    have hs : own.acks.insert player ack = own.acks := by
      refine ext_getElem? fun key => ?_
      rw [ExtTreeMap.getElem?_insert]
      split_ifs with hkey
      · rw [← LawfulEqCmp.compare_eq_iff_eq.1 hkey, hold]
      · rfl
    rw [hs]
  · rfl

theorem handleMessage_eq_self (h : ¬ s.Alters sender msg.kind) :
    (s.handleMessage sender msg).1 = s := by
  rcases handleMessage_cases s sender msg with heq | ⟨hs, -, ht⟩
  · exact heq
  generalize (s.handleMessage sender msg).1 = s' at ht
  have hc : ¬ s.Changes sender msg.kind := mt .inl h
  generalize msg.kind = kind at ht h hc
  cases ht with
  | dealerPublic msg hsz hnew | dealerPrivate msg hsz hnew =>
    exact absurd ⟨hs, rfl, hsz, hnew⟩ hc
  | playerAck ack =>
    cases hd : s.dealer with
    | none =>
      rcases s
      simp only at hd
      simp [hd]
    | some own =>
      have hsm : own.receivePlayerAck sender ack = own := by
        refine receivePlayerAck_eq_self fun hown => hc ?_
        exact ⟨hs, rfl, rfl, own, hd, hown.1, hown.2⟩
      rcases s
      simp only at hd
      simp [hd, hsm]
  | dealerLog signed dealer log hch hd hsz hnew =>
    exact absurd ⟨hs, dealer, log, hch, hd, hsz, hnew⟩ hc
  | requestLogs => exact absurd (.inr ⟨hs, rfl⟩) h
  | allLogs logs hl =>
    refine recordLogs_eq_self fun entry he hm => hc ?_
    exact ⟨hs, hl, entry, he, hm⟩
  | ready =>
    have hmem : sender ∈ s.readyPlayers := by
      by_contra hnew
      exact hc ⟨hs, rfl, hnew⟩
    rw [Finset.insert_eq_of_mem hmem]

theorem Changes.records_ne (h : s.Changes sender kind) (sessionId : Option B256) :
    (s.handleMessage sender ⟨sessionId, kind⟩).1.records ≠ s.records := by
  have ht := h.taken sessionId
  generalize (s.handleMessage sender ⟨sessionId, kind⟩).1 = s' at ht
  intro hr
  cases ht with
  | dealerPublic msg hsz hnew =>
    obtain ⟨player, outgoing, acksSent, heq⟩ := tryProcessDealerMessages_eq _ sender
    rw [heq] at hr
    have hs : s.dealerPubMsgs.insert sender msg = s.dealerPubMsgs :=
      congrArg Records.pubMsgs hr
    exact hnew (hs ▸ mem_insert_self)
  | dealerPrivate msg hsz hnew =>
    obtain ⟨player, outgoing, acksSent, heq⟩ := tryProcessDealerMessages_eq _ sender
    rw [heq] at hr
    have hs : s.dealerPrivMsgs.insert sender msg = s.dealerPrivMsgs :=
      congrArg Records.privMsgs hr
    exact hnew (hs ▸ mem_insert_self)
  | playerAck ack =>
    obtain ⟨-, -, -, own, hown, hv, hnew⟩ := h
    have hs : (s.dealer.map (·.receivePlayerAck sender ack)).map (·.acks) =
        s.dealer.map (·.acks) := congrArg Records.acks hr
    rw [hown, Option.map_some, Option.map_some, Option.map_some, Dealer.receivePlayerAck,
      if_pos hv, Option.some_inj] at hs
    refine hnew ?_
    rw [← hs, getElem?_insert_self]
  | dealerLog signed dealer log hc hd hsz hnew =>
    have hs : s.dealerLogs.insert dealer log = s.dealerLogs := congrArg Records.logs hr
    exact hnew (hs ▸ mem_insert_self)
  | requestLogs => exact h.2
  | allLogs logs hl =>
    have hg := size_lt_recordLogs h.2.2
    have hs : (s.recordLogs logs).dealerLogs = s.dealerLogs := congrArg Records.logs hr
    rw [hs] at hg
    exact lt_irrefl _ hg
  | ready =>
    have hs : insert sender s.readyPlayers = s.readyPlayers := congrArg Records.ready hr
    exact h.2.2 (hs ▸ Finset.mem_insert_self sender s.readyPlayers)

theorem records_handleMessage_iff (s : DkgParticipant F) (sender : PublicKey)
    (msg : ProtocolMessage F) :
    (s.handleMessage sender msg).1.records = s.records ↔ ¬ s.Changes sender msg.kind := by
  refine ⟨fun h hc => hc.records_ne msg.sessionId h, fun h => ?_⟩
  by_cases ha : s.Alters sender msg.kind
  · -- what is left is a request, whose answer is not recorded
    rcases ha with hc | ⟨hs, hk⟩
    · exact absurd hc h
    · rw [handleMessage, if_neg (not_not.2 hs), hk]
      rfl
  · rw [handleMessage_eq_self ha]

/-! ### The bytes of a message -/

/-- The participant with one more hash in the duplicate filter. -/
def mark (self : DkgParticipant F) (hash : B256) : DkgParticipant F :=
  { self with seenMessages := insert hash self.seenMessages }

/-- **What some bytes do**: dropped as a duplicate, turned away unmarked, or marked and handled. -/
theorem handleMessageBytes_cases (s : DkgParticipant F) (sender : PublicKey) (bytes : Bytes) :
    (F.sha256 bytes ∈ s.seenMessages ∧ s.handleMessageBytes sender bytes = (s, .ok ())) ∨
    (∃ e, F.sha256 bytes ∉ s.seenMessages ∧ s.admission bytes = .error e ∧
      s.handleMessageBytes sender bytes = (s, .error e)) ∨
    (∃ msg, F.sha256 bytes ∉ s.seenMessages ∧ s.admission bytes = .ok msg ∧
      s.handleMessageBytes sender bytes = (s.mark (F.sha256 bytes)).handleMessage sender msg) := by
  rw [handleMessageBytes]
  split_ifs with hs
  · exact .inl ⟨hs, rfl⟩
  · cases ha : s.admission bytes with
    | error e => exact .inr (.inl ⟨e, hs, rfl, rfl⟩)
    | ok msg => exact .inr (.inr ⟨msg, hs, rfl, rfl⟩)

/-- **The rule for some bytes**: what marking a hash keeps, and every message taken then. -/
theorem handleMessageBytes_invariant {sender : PublicKey} {bytes : Bytes}
    (Inv : DkgParticipant F → Prop) (h : Inv s) (hmark : Inv (s.mark (F.sha256 bytes)))
    (htaken : ∀ msg s', s.admission bytes = .ok msg → s.isParticipant sender = true →
      Taken (s.mark (F.sha256 bytes)) sender msg.kind s' → Inv s') :
    Inv (s.handleMessageBytes sender bytes).1 := by
  rcases handleMessageBytes_cases s sender bytes with
    ⟨-, heq⟩ | ⟨e, -, -, heq⟩ | ⟨msg, -, ha, heq⟩
  · rwa [heq]
  · rwa [heq]
  · rw [heq]
    rcases handleMessage_cases (s.mark (F.sha256 bytes)) sender msg with hself | ⟨hs, -, ht⟩
    · rwa [hself]
    · exact htaken msg _ ha hs ht

/-! ### What no call touches -/

theorem foldl_queuePrivMsg_eq (self : DkgParticipant F) (privMsgs : List (PublicKey × F.PrivMsg)) :
    ∃ dealerPrivMsgs outgoing,
      privMsgs.foldl queuePrivMsg self = { self with dealerPrivMsgs, outgoing } := by
  induction privMsgs generalizing self with
  | nil => exact ⟨_, _, rfl⟩
  | cons entry privMsgs ih =>
    obtain ⟨dealerPrivMsgs, outgoing, heq⟩ := ih (self.queuePrivMsg entry)
    rw [List.foldl_cons, heq, queuePrivMsg]
    split_ifs
    · exact ⟨_, _, rfl⟩
    · exact ⟨_, _, rfl⟩

/-- The participant with the messages of its dealer in the queue. -/
def queueDealer (self : DkgParticipant F) (seed : F.Seed) : DkgParticipant F :=
  (F.start self.config.info self.config.publicKey seed).2.2.foldl queuePrivMsg
    (self.push none (.dealerPublic self.config.publicKey
      (F.start self.config.info self.config.publicKey seed).2.1))

theorem startDealer_eq (self : DkgParticipant F) (seed : F.Seed) :
    ∃ player outgoing acksSent, self.startDealer seed =
      { self with player, outgoing, acksSent,
                  dealerPubMsgs := self.dealerPubMsgs.insert self.config.publicKey
                    (F.start self.config.info self.config.publicKey seed).2.1
                  dealerPrivMsgs := (self.queueDealer seed).dealerPrivMsgs
                  dealer :=
                    some ⟨(F.start self.config.info self.config.publicKey seed).1, ∅⟩ } := by
  obtain ⟨dealerPrivMsgs, outgoing, heq⟩ := foldl_queuePrivMsg_eq
    (self.push none (.dealerPublic self.config.publicKey
      (F.start self.config.info self.config.publicKey seed).2.1))
    (F.start self.config.info self.config.publicKey seed).2.2
  obtain ⟨player, outgoing', acksSent, hp⟩ := tryProcessDealerMessages_eq _ _
  rw [startDealer]
  dsimp only
  rw [hp, queueDealer, heq]
  exact ⟨_, _, _, rfl⟩

theorem Taken.frame (h : Taken s sender kind s') :
    s'.config = s.config ∧ s'.session = s.session ∧ s'.seenMessages = s.seenMessages ∧
      s'.currentPhase = s.currentPhase := by
  cases h with
  | dealerPublic msg hs hnew | dealerPrivate msg hs hnew =>
    obtain ⟨player, outgoing, acksSent, heq⟩ := tryProcessDealerMessages_eq _ sender
    rw [heq]
    exact ⟨rfl, rfl, rfl, rfl⟩
  | playerAck ack | dealerLog signed dealer log hc hd hs hnew | requestLogs =>
    exact ⟨rfl, rfl, rfl, rfl⟩
  | allLogs logs hl =>
    obtain ⟨dealerLogs, signedLogs, heq⟩ := recordLogs_eq s logs
    rw [heq]
    exact ⟨rfl, rfl, rfl, rfl⟩
  | ready => exact ⟨rfl, rfl, rfl, rfl⟩

theorem handleMessage_frame (s : DkgParticipant F) (sender : PublicKey) (msg : ProtocolMessage F) :
    (s.handleMessage sender msg).1.config = s.config ∧
      (s.handleMessage sender msg).1.session = s.session ∧
      (s.handleMessage sender msg).1.seenMessages = s.seenMessages ∧
      (s.handleMessage sender msg).1.currentPhase = s.currentPhase := by
  rcases handleMessage_cases s sender msg with heq | ⟨-, -, ht⟩
  · rw [heq]
    exact ⟨rfl, rfl, rfl, rfl⟩
  · exact ht.frame

theorem finalize_fst (s : DkgParticipant F) : s.finalize.1 =
    if s.finalized = true ∨ ¬ s.canFinalize = true ∨ s.player = none then s
    else { s with
      player := none
      finalized := (F.observe s.config.info s.dealerLogs.toList).isSome &&
        (s.player.bind fun player =>
          F.share player s.config.info s.dealerLogs.toList).isSome } := by
  rw [finalize]
  by_cases hf : s.finalized = true
  · rw [if_pos hf, if_pos (.inl hf)]
  by_cases hl : s.canFinalize = true
  swap
  · rw [if_neg hf, if_pos hl, if_pos (.inr (.inl hl))]
  rw [if_neg hf, if_neg (not_not.2 hl)]
  cases hp : s.player with
  | none => rw [if_pos (.inr (.inr rfl))]
  | some player =>
    rw [if_neg (by simp [hf, hl])]
    have hfl : s.finalized = false := by simpa using hf
    simp only [Option.bind_some]
    cases F.observe s.config.info s.dealerLogs.toList with
    | none => simp [hfl]
    | some group =>
      cases F.share player s.config.info s.dealerLogs.toList with
      | none => simp [hfl]
      | some share => simp

theorem act_frame (s : DkgParticipant F) (call : Call F) :
    (s.act call).config = s.config ∧ (s.act call).session = s.session ∧
      (s.act call).seenMessages = s.seenMessages := by
  cases call with
  | startDealer seed =>
    obtain ⟨player, outgoing, acksSent, heq⟩ := startDealer_eq s seed
    simp only [act, heq, and_self]
  | finalizeDealer =>
    simp only [act, finalizeDealer]
    split
    · exact ⟨rfl, rfl, rfl⟩
    · split <;> exact ⟨rfl, rfl, rfl⟩
  | broadcastReady =>
    simp only [act, broadcastReady]
    split <;> exact ⟨rfl, rfl, rfl⟩
  | finalize =>
    simp only [act, finalize_fst]
    split_ifs <;> exact ⟨rfl, rfl, rfl⟩
  | takeOutgoing | setPhase phase => exact ⟨rfl, rfl, rfl⟩

theorem step_frame (s : DkgParticipant F) (op : Op F) :
    (s.step op).config = s.config ∧ (s.step op).session = s.session := by
  cases op with
  | receive sender bytes =>
    rw [step]
    refine handleMessageBytes_invariant (fun s' => s'.config = s.config ∧ s'.session = s.session)
      ⟨rfl, rfl⟩ ⟨rfl, rfl⟩ ?_
    intro msg s' _ _ ht
    exact ⟨ht.frame.1, ht.frame.2.1⟩
  | call call => exact ⟨(act_frame s call).1, (act_frame s call).2.1⟩

theorem foldl_step_frame (s : DkgParticipant F) (ops : List (Op F)) :
    (ops.foldl step s).config = s.config ∧ (ops.foldl step s).session = s.session := by
  induction ops generalizing s with
  | nil => exact ⟨rfl, rfl⟩
  | cons op ops ih =>
    obtain ⟨hc, hs⟩ := step_frame s op
    obtain ⟨hc', hs'⟩ := ih (s.step op)
    exact ⟨hc'.trans hc, hs'.trans hs⟩

theorem admission_congr (hc : s'.config = s.config) (hs : s'.session = s.session)
    (bytes : Bytes) : s'.admission bytes = s.admission bytes := by
  simp only [admission, hc, hs]

theorem foldl_step_admission (s : DkgParticipant F) (ops : List (Op F)) (bytes : Bytes) :
    (ops.foldl step s).admission bytes = s.admission bytes :=
  admission_congr (foldl_step_frame s ops).1 (foldl_step_frame s ops).2 bytes

end DkgParticipant

/-! ### Three participants -/

/-- Three participants with the keys 1, 2 and 3, of which this is one. -/
def triple (key : PublicKey) : DkgConfig where
  publicKey := key
  validatorIndex := key.toNat - 1
  participants := [1, 2, 3]
  chainId := 7
  bootstrapPeers := [1, 2, 3].erase key

def tripleParticipant (key : PublicKey) (timestampNanos : ℕ) : DkgParticipant .small :=
  .init .small (triple key) timestampNanos

end Kora
