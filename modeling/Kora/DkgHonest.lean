/-
Honest participants of the key generation ceremony (`node/dkg/src/protocol.rs`).

* `Extends` — a participant never forgets what it has recorded;
* `DkgSound` — what holds of a participant whose messages all come from honest ones;
* `AckIn`, `Waiting` — a dealer has the acknowledgement of a player, or it is still ahead
  of the ready signal of the player.
-/
import Kora.DkgAgreement

open Std List Option

namespace Kora

open DkgParticipant

/-! ### Order in a queue -/

section Precedes

variable {α : Type} {A R : α → Prop} {x : α} {l r new : List α}

/-- Before the first element with `R` there is one with `A`. -/
def Precedes (A R : α → Prop) : List α → Prop
  | [] => True
  | x :: l => ¬ R x ∧ (A x ∨ Precedes A R l)

theorem Precedes.tail (h : Precedes A R (x :: l)) (hx : ¬ A x) : Precedes A R l :=
  h.2.resolve_left hx

theorem Precedes.insert (h : Precedes A R (l ++ r)) (hnew : ∀ x ∈ new, ¬ R x) :
    Precedes A R (l ++ new ++ r) := by
  induction l with
  | nil =>
    induction new with
    | nil => exact h
    | cons y new ih =>
      refine ⟨hnew y mem_cons_self, .inr (ih fun x hx => hnew x ?_)⟩
      exact mem_cons_of_mem _ hx
  | cons y l ih => exact ⟨h.1, h.2.imp id ih⟩

theorem Precedes.append_of_mem (h : Precedes A R l) (hmem : ∃ x ∈ l, A x) (new : List α) :
    Precedes A R (l ++ new) := by
  induction l with
  | nil =>
    obtain ⟨x, hx, -⟩ := hmem
    cases hx
  | cons y l ih =>
    refine ⟨h.1, ?_⟩
    rcases h.2 with hy | hl
    · exact .inl hy
    · obtain ⟨x, hx, hxA⟩ := hmem
      rcases mem_cons.1 hx with rfl | hx
      · exact .inl hxA
      · exact .inr (ih hl ⟨x, hx, hxA⟩)

end Precedes

variable {F : Feldman}

/-! ### Honest messages -/

def ProtocolMessage.IsAck (msg : ProtocolMessage F) : Prop :=
  ∃ player dealer ack, msg.kind = .playerAck player dealer ack

def ProtocolMessage.IsReady (msg : ProtocolMessage F) : Prop :=
  ∃ player, msg.kind = .ready player

/-- The states of the player of a participant. -/
inductive PlayerOf (info : DkgInfo) (key : PublicKey) : F.Player → Prop where
  | new : PlayerOf info key (F.newPlayer info key)
  | dealerMessage {player : F.Player} (h : PlayerOf info key player) (dealer : PublicKey)
      (pubMsg : F.PubMsg) (privMsg : F.PrivMsg) :
      PlayerOf info key (F.dealerMessage player dealer pubMsg privMsg).1

/-- What an honest message says, where `seed` gives the randomness of the started dealers. -/
def Genuine (info : DkgInfo) (seed : PublicKey → Option F.Seed) (sender receiver : PublicKey) :
    ProtocolMessageKind F → Prop
  | .dealerPublic dealer msg => dealer = sender ∧
      ∃ s, seed sender = some s ∧ msg = (F.start info sender s).2.1
  | .dealerPrivate dealer msg => dealer = sender ∧
      ∃ s, seed sender = some s ∧ (receiver, msg) ∈ (F.start info sender s).2.2
  | .playerAck player dealer ack => player = sender ∧ dealer = receiver ∧
      ∃ s, seed receiver = some s ∧ F.verifyAck (F.start info receiver s).1 sender ack = true
  | .ready player => player = sender
  | .dealerLog _ => True
  | .requestLogs => True
  | .allLogs _ => True

/-- A message of the ceremony from an honest participant to another. -/
def Sent (info : DkgInfo) (ceremonyId : B256) (seed : PublicKey → Option F.Seed)
    (sender receiver : PublicKey) (msg : ProtocolMessage F) : Prop :=
  msg.sessionId = some ceremonyId ∧ Genuine info seed sender receiver msg.kind

theorem Genuine.mono {info : DkgInfo} {seed seed' : PublicKey → Option F.Seed}
    (hold : ∀ q t, seed q = some t → seed' q = some t) {sender receiver : PublicKey}
    {kind : ProtocolMessageKind F} (h : Genuine info seed sender receiver kind) :
    Genuine info seed' sender receiver kind := by
  cases kind with
  | dealerPublic dealer msg | dealerPrivate dealer msg =>
    obtain ⟨hd, t, ht, hmsg⟩ := h
    exact ⟨hd, t, hold _ t ht, hmsg⟩
  | playerAck player dealer ack =>
    obtain ⟨hp, hd, t, ht, hack⟩ := h
    exact ⟨hp, hd, t, hold _ t ht, hack⟩
  | ready player => exact h
  | dealerLog log | requestLogs | allLogs logs => trivial

/-! ### One participant -/

theorem mem_of_length_le_card {participants : List PublicKey} (hn : participants.Nodup)
    {keys : Finset PublicKey} (hsub : ∀ q ∈ keys, q ∈ participants)
    (hc : participants.length ≤ keys.card) {q : PublicKey} (hq : q ∈ participants) :
    q ∈ keys := by
  have hall : keys = participants.toFinset := by
    refine Finset.eq_of_subset_of_card_le (fun r hr => List.mem_toFinset.2 (hsub r hr)) ?_
    rwa [toFinset_card_of_nodup hn]
  rw [hall]
  exact List.mem_toFinset.2 hq

theorem DkgParticipant.tryProcessDealerMessages_cases (s : DkgParticipant F) (dealer : PublicKey) :
    (∃ player, s.tryProcessDealerMessages dealer = { s with player } ∧
      (player = s.player ∨ ∃ old pubMsg privMsg, s.player = some old ∧
        player = some (F.dealerMessage old dealer pubMsg privMsg).1)) ∨
    ∃ old pubMsg privMsg player ack, s.player = some old ∧
      s.dealerPubMsgs[dealer]? = some pubMsg ∧ s.dealerPrivMsgs[dealer]? = some privMsg ∧
      F.dealerMessage old dealer pubMsg privMsg = (player, some ack) ∧
      s.tryProcessDealerMessages dealer =
        { s.push (some dealer) (.playerAck s.config.publicKey dealer ack) with
          player := some player
          acksSent := insert dealer s.acksSent } := by
  rw [tryProcessDealerMessages]
  split
  · next pubMsg privMsg old hpub hpr hp =>
    split
    · next player ack heq =>
      exact .inr ⟨old, pubMsg, privMsg, player, ack, hp, hpub, hpr, heq, rfl⟩
    · next player heq =>
      refine .inl ⟨some player, rfl, .inr ⟨old, pubMsg, privMsg, hp, ?_⟩⟩
      rw [heq]
  · exact .inl ⟨s.player, rfl, .inl rfl⟩

/-- Nothing that was recorded is forgotten. -/
structure DkgParticipant.Includes (s s' : DkgParticipant F) : Prop where
  config : s'.config = s.config
  pubMsgs : ∀ q ∈ s.dealerPubMsgs, q ∈ s'.dealerPubMsgs
  privMsgs : ∀ q ∈ s.dealerPrivMsgs, q ∈ s'.dealerPrivMsgs
  logs : ∀ q ∈ s.dealerLogs, q ∈ s'.dealerLogs
  readyPlayers : s.readyPlayers ⊆ s'.readyPlayers

/-- What a message can do: more is recorded and acknowledged, and the dealer goes on. -/
structure DkgParticipant.Extends (s s' : DkgParticipant F) : Prop extends Includes s s' where
  acksSent : s.acksSent ⊆ s'.acksSent
  dealer : s.dealer.isSome = true → s'.dealer.isSome = true
  ourSignedLog : s'.ourSignedLog = s.ourSignedLog

section Extends

variable {s s' s'' : DkgParticipant F}

theorem DkgParticipant.Includes.refl (s : DkgParticipant F) : Includes s s :=
  ⟨rfl, fun _ => id, fun _ => id, fun _ => id, subset_rfl⟩

theorem DkgParticipant.Extends.refl (s : DkgParticipant F) : Extends s s :=
  { Includes.refl s with acksSent := subset_rfl, dealer := id, ourSignedLog := rfl }

theorem DkgParticipant.Extends.trans (h : Extends s s') (h' : Extends s' s'') : Extends s s'' where
  config := h'.config.trans h.config
  pubMsgs q hq := h'.pubMsgs q (h.pubMsgs q hq)
  privMsgs q hq := h'.privMsgs q (h.privMsgs q hq)
  logs q hq := h'.logs q (h.logs q hq)
  acksSent := h.acksSent.trans h'.acksSent
  readyPlayers := h.readyPlayers.trans h'.readyPlayers
  dealer hd := h'.dealer (h.dealer hd)
  ourSignedLog := h'.ourSignedLog.trans h.ourSignedLog

theorem DkgParticipant.Extends.tryProcessDealerMessages (s : DkgParticipant F)
    (dealer : PublicKey) : Extends s (s.tryProcessDealerMessages dealer) := by
  rcases tryProcessDealerMessages_cases s dealer with
    ⟨player, heq, -⟩ | ⟨old, pubMsg, privMsg, player, ack, -, -, -, -, heq⟩
  · rw [heq]
    exact { Extends.refl s with }
  · rw [heq]
    exact { Extends.refl s with acksSent := Finset.subset_insert _ _ }

theorem DkgParticipant.Taken.extends {sender : PublicKey} {kind : ProtocolMessageKind F}
    (h : Taken s sender kind s') : Extends s s' := by
  cases h with
  | dealerPublic msg hs hnew =>
    refine Extends.trans ?_ (Extends.tryProcessDealerMessages _ sender)
    exact { Extends.refl s with pubMsgs := fun q hq => ExtTreeMap.mem_insert.2 (.inr hq) }
  | dealerPrivate msg hs hnew =>
    refine Extends.trans ?_ (Extends.tryProcessDealerMessages _ sender)
    exact { Extends.refl s with privMsgs := fun q hq => ExtTreeMap.mem_insert.2 (.inr hq) }
  | playerAck ack =>
    refine { Extends.refl s with dealer := fun hsome => ?_ }
    show (s.dealer.map _).isSome = true
    rwa [isSome_map]
  | dealerLog signed dealer log hc hd hs hnew =>
    exact { Extends.refl s with logs := fun q hq => ExtTreeMap.mem_insert.2 (.inr hq) }
  | requestLogs => exact { Extends.refl s with }
  | allLogs logs hl =>
    refine recordLogs_invariant (Extends s) (Extends.refl s) ?_
    intro t dealer log signed ht _ _ _ _
    exact { ht with logs := fun q hq => ExtTreeMap.mem_insert.2 (.inr (ht.logs q hq)) }
  | ready => exact { Extends.refl s with readyPlayers := Finset.subset_insert _ _ }

theorem DkgParticipant.Extends.handleMessageBytes (s : DkgParticipant F) (sender : PublicKey)
    (bytes : Bytes) : Extends s (s.handleMessageBytes sender bytes).1 := by
  refine handleMessageBytes_invariant (Extends s) (Extends.refl s) { Extends.refl s with } ?_
  intro msg s' _ _ ht
  exact { ht.extends with }

end Extends

/-- The messages that the queue stands for, each with its receiver. -/
def DkgParticipant.pending (self : DkgParticipant F) : List (PublicKey × ProtocolMessage F) :=
  self.outgoing.flatMap self.config.connections

theorem DkgParticipant.pending_push (s : DkgParticipant F) (target : Option PublicKey)
    (kind : ProtocolMessageKind F) : (s.push target kind).pending =
      s.pending ++ s.config.connections (target, .new s.session.ceremonyId kind) := by
  show (s.outgoing ++ [_]).flatMap s.config.connections = _
  rw [flatMap_append, flatMap_singleton]
  rfl

theorem DkgParticipant.startDealer_isSome (s : DkgParticipant F) (t : F.Seed) :
    (s.startDealer t).dealer.isSome = true := by
  obtain ⟨player, outgoing, acksSent, heq⟩ := startDealer_eq s t
  rw [heq]
  rfl

theorem DkgParticipant.broadcastReady_cases (s : DkgParticipant F) :
    s.broadcastReady = s ∨ s.broadcastReady =
      { s.push none (.ready s.config.publicKey) with
        readyPlayers := insert s.config.publicKey s.readyPlayers
        sentReady := true } := by
  rw [broadcastReady]
  split_ifs
  · exact .inl rfl
  · exact .inr rfl

def DkgInfo.ceremonyId (F : Feldman) (info : DkgInfo) (timestampNanos : ℕ) : B256 :=
  F.sha256 (CEREMONY_NAMESPACE ++ leBytes 8 info.chainId ++ leBytes 8 info.participants.length ++
    info.participants.flatMap (BigEndian.toBytes 32) ++ leBytes 8 timestampNanos)

/-- What holds of a participant whose messages all come from honest ones. -/
structure DkgSound (info : DkgInfo) (ceremonyId : B256) (seed : PublicKey → Option F.Seed)
    (key : PublicKey) (s : DkgParticipant F) : Prop where
  publicKey : s.config.publicKey = key
  info_eq : s.config.info = info
  session : s.session.ceremonyId = ceremonyId
  peers : ∀ q ∈ info.participants, q ≠ key → q ∈ s.config.bootstrapPeers
  player : ∀ player, s.player = some player → PlayerOf info key player
  secret : ∀ own, s.dealer = some own →
    ∃ t, seed key = some t ∧ own.secret = (F.start info key t).1
  records : ∀ q content, s.records.Holds key q content → Genuine info seed q key content
  acksSent : ∀ q ∈ s.acksSent, q ∈ info.participants
  ready : ∀ q ∈ s.readyPlayers, q ∈ info.participants
  pending : ∀ c ∈ s.pending, Sent info ceremonyId seed key c.1 c.2

/-- The dealers of the library accept the acknowledgements of honest players. -/
def AcceptsHonestAcks (F : Feldman) : Prop :=
  ∀ (info : DkgInfo) (dealer player : PublicKey) (t : F.Seed) (state state' : F.Player)
    (privMsg : F.PrivMsg) (ack : F.Ack), PlayerOf info player state →
    (player, privMsg) ∈ (F.start info dealer t).2.2 →
    F.dealerMessage state dealer (F.start info dealer t).2.1 privMsg = (state', some ack) →
    F.verifyAck (F.start info dealer t).1 player ack = true

section DkgSound

variable {info : DkgInfo} {ceremonyId : B256} {seed : PublicKey → Option F.Seed} {key : PublicKey}
  {s s' : DkgParticipant F}

theorem ceremonyId_init {config : DkgConfig} (h : config.info = info) (timestampNanos : ℕ) :
    (init F config timestampNanos).session.ceremonyId = info.ceremonyId F timestampNanos := by
  rw [DkgInfo.ceremonyId, length_info_participants h, ← h]
  rfl

theorem DkgSound.init {config : DkgConfig} (hi : config.info = info)
    (hpr : ∀ q ∈ info.participants, q ≠ config.publicKey → q ∈ config.bootstrapPeers)
    (timestampNanos : ℕ) :
    DkgSound info (info.ceremonyId F timestampNanos) (fun _ => none) config.publicKey
      (DkgParticipant.init F config timestampNanos) where
  publicKey := rfl
  info_eq := hi
  session := ceremonyId_init hi timestampNanos
  peers := hpr
  player := by
    intro player hp
    obtain rfl := some_inj.1 hp
    rw [hi]
    exact .new
  secret own hown := by cases hown
  records q content hcn := absurd hcn (not_holds_init config timestampNanos _ q content)
  acksSent q hq := absurd hq (Finset.notMem_empty q)
  ready q hq := absurd hq (Finset.notMem_empty q)
  pending c hc := absurd hc not_mem_nil

theorem DkgSound.push (h : DkgSound info ceremonyId seed key s) {target : Option PublicKey}
    {kind : ProtocolMessageKind F} (hk : ∀ r, (∀ k, target = some k → r = k) →
      Genuine info seed key r kind) : DkgSound info ceremonyId seed key (s.push target kind) := by
  refine { h with pending := fun c hc => ?_ }
  rw [pending_push, h.session] at hc
  rcases mem_append.1 hc with hc | hc
  · exact h.pending c hc
  · obtain ⟨hmsg, ht⟩ := DkgConfig.of_mem_connections hc
    rw [hmsg]
    exact ⟨rfl, hk c.1 ht⟩

/-- Fields that are not mentioned may change. -/
structure DkgParticipant.Keeps (s s' : DkgParticipant F) : Prop where
  config : s'.config = s.config
  session : s'.session = s.session
  player : s'.player = s.player ∨ s'.player = none
  dealer : s'.dealer = s.dealer
  records : s'.records = s.records
  acksSent : s'.acksSent = s.acksSent
  seenMessages : s'.seenMessages = s.seenMessages

theorem DkgParticipant.Keeps.refl (s : DkgParticipant F) : Keeps s s :=
  ⟨rfl, rfl, .inl rfl, rfl, rfl, rfl, rfl⟩

theorem DkgParticipant.Keeps.setPhase (s : DkgParticipant F) (phase : DkgPhase) :
    Keeps s (s.setPhase phase) :=
  ⟨rfl, rfl, .inl rfl, rfl, rfl, rfl, rfl⟩

theorem DkgParticipant.Keeps.takeOutgoing (h : Keeps s s') : Keeps s s'.takeOutgoing.1 :=
  ⟨h.config, h.session, h.player, h.dealer, h.records, h.acksSent, h.seenMessages⟩

theorem DkgSound.keeps (h : DkgSound info ceremonyId seed key s) (hk : Keeps s s')
    (hpn : ∀ c ∈ s'.pending, Sent info ceremonyId seed key c.1 c.2) :
    DkgSound info ceremonyId seed key s' := by
  have hr : s'.readyPlayers = s.readyPlayers := congrArg Records.ready hk.records
  refine ⟨?_, ?_, ?_, ?_, ?_, ?_, ?_, ?_, ?_, ?_⟩
  · rw [hk.config]
    exact h.publicKey
  · rw [hk.config]
    exact h.info_eq
  · rw [hk.session]
    exact h.session
  · rw [hk.config]
    exact h.peers
  · intro player hp
    rcases hk.player with hs | hnone
    · exact h.player player (hs ▸ hp)
    · rw [hnone] at hp
      cases hp
  · rw [hk.dealer]
    exact h.secret
  · rw [hk.records]
    exact h.records
  · rw [hk.acksSent]
    exact h.acksSent
  · rw [hr]
    exact h.ready
  · exact hpn

theorem DkgSound.mono {seed' : PublicKey → Option F.Seed} (h : DkgSound info ceremonyId seed key s)
    (hold : ∀ q t, seed q = some t → seed' q = some t) : DkgSound info ceremonyId seed' key s := by
  refine { h with secret := ?_, records := ?_, pending := ?_ }
  · intro own hown
    obtain ⟨t, ht, hs⟩ := h.secret own hown
    exact ⟨t, hold key t ht, hs⟩
  · exact fun r content hcn => (h.records r content hcn).mono hold
  · exact fun c hc => ⟨(h.pending c hc).1, (h.pending c hc).2.mono hold⟩

variable {dealer : PublicKey}

section

variable (h : DkgSound info ceremonyId seed key s)
include h

theorem DkgSound.insertPubMsg {msg : F.PubMsg}
    (hmsg : Genuine info seed dealer key (.dealerPublic dealer msg)) :
    DkgSound info ceremonyId seed key
      { s with dealerPubMsgs := s.dealerPubMsgs.insert dealer msg } := by
  refine { h with records := fun q content hc => ?_ }
  cases content with
  | dealerPublic dealer' msg' =>
    obtain ⟨rfl, hget⟩ := hc
    rcases getElem?_insert_cases hget with hold | ⟨rfl, rfl⟩
    · exact h.records dealer' (.dealerPublic dealer' msg') ⟨rfl, hold⟩
    · exact hmsg
  | _ => exact h.records q _ hc

theorem DkgSound.insertPrivMsg {msg : F.PrivMsg}
    (hmsg : Genuine info seed dealer key (.dealerPrivate dealer msg)) :
    DkgSound info ceremonyId seed key
      { s with dealerPrivMsgs := s.dealerPrivMsgs.insert dealer msg } := by
  refine { h with records := fun q content hc => ?_ }
  cases content with
  | dealerPrivate dealer' msg' =>
    obtain ⟨rfl, hget⟩ := hc
    rcases getElem?_insert_cases hget with hold | ⟨rfl, rfl⟩
    · exact h.records dealer' (.dealerPrivate dealer' msg') ⟨rfl, hold⟩
    · exact hmsg
  | _ => exact h.records q _ hc

theorem DkgSound.tryProcessDealerMessages (ha : AcceptsHonestAcks F)
    (hd : dealer ∈ info.participants) :
    DkgSound info ceremonyId seed key (s.tryProcessDealerMessages dealer) := by
  rcases tryProcessDealerMessages_cases s dealer with
    ⟨player, heq, hp⟩ | ⟨old, pubMsg, privMsg, player, ack, hold, hpub, hpr, hm, heq⟩
  · rw [heq]
    refine { h with player := fun player' hp' => ?_ }
    rcases hp with rfl | ⟨old, pubMsg, privMsg, hold, rfl⟩
    · exact h.player player' hp'
    · obtain rfl := some_inj.1 hp'
      exact (h.player old hold).dealerMessage dealer pubMsg privMsg
  · obtain ⟨-, t, ht, rfl⟩ := h.records dealer (.dealerPublic dealer pubMsg) ⟨rfl, hpub⟩
    obtain ⟨-, t', ht', hmem⟩ := h.records dealer (.dealerPrivate dealer privMsg) ⟨rfl, hpr⟩
    obtain rfl := some_inj.1 (ht.symm.trans ht')
    have hv := ha info dealer key t old player privMsg ack (h.player old hold) hmem
      hm
    have hps : DkgSound info ceremonyId seed key
        (s.push (some dealer) (.playerAck s.config.publicKey dealer ack)) := by
      refine h.push fun r hr => ?_
      obtain rfl := hr dealer rfl
      exact ⟨h.publicKey, rfl, t, ht, hv⟩
    rw [heq]
    refine { hps with player := fun player' hp' => ?_, acksSent := fun q hq => ?_ }
    · obtain rfl := some_inj.1 hp'
      have hs := (h.player old hold).dealerMessage dealer (F.start info dealer t).2.1 privMsg
      rwa [hm] at hs
    · rcases Finset.mem_insert.1 hq with rfl | hq
      · exact hd
      · exact h.acksSent q hq

theorem DkgSound.taken (ha : AcceptsHonestAcks F) {sender : PublicKey}
    (hs : sender ∈ info.participants) {kind : ProtocolMessageKind F}
    (hk : Genuine info seed sender key kind) (htk : Taken s sender kind s') :
    DkgSound info ceremonyId seed key s' := by
  have hr : ∀ q content, s'.records.Holds key q content →
      Genuine info seed q key content := by
    intro q content hc
    rw [← h.publicKey] at hc
    rcases htk.holds hc with hold | ⟨rfl, rfl⟩
    · rw [h.publicKey] at hold
      exact h.records q content hold
    · exact hk
  cases htk with
  | dealerPublic msg hsz hnew =>
    exact (h.insertPubMsg hk).tryProcessDealerMessages ha hs
  | dealerPrivate msg hsz hnew =>
    exact (h.insertPrivMsg hk).tryProcessDealerMessages ha hs
  | playerAck ack =>
    refine { h with secret := fun own hown => ?_, records := hr }
    obtain ⟨old, hold, rfl⟩ := map_eq_some_iff.1 hown
    obtain ⟨t, ht, hsc⟩ := h.secret old hold
    refine ⟨t, ht, ?_⟩
    rw [← hsc, Dealer.receivePlayerAck]
    split_ifs <;> rfl
  | dealerLog signed dealer log hch hd hsz hnew => exact { h with }
  | requestLogs => exact h.push fun r _ => trivial
  | allLogs logs hl =>
    obtain ⟨dealerLogs, signedLogs, heq⟩ := recordLogs_eq s logs
    rw [heq]
    exact { h with }
  | ready =>
    refine { h with records := hr, ready := fun q hq => ?_ }
    rcases Finset.mem_insert.1 hq with rfl | hq
    · exact hs
    · exact h.ready q hq

end

variable {t : F.Seed}

variable (h : DkgSound info ceremonyId seed key s)
include h

theorem DkgSound.foldl_queuePrivMsg (ht : seed key = some t)
    {privMsgs : List (PublicKey × F.PrivMsg)}
    (hsub : ∀ entry ∈ privMsgs, entry ∈ (F.start info key t).2.2) :
    DkgSound info ceremonyId seed key (privMsgs.foldl queuePrivMsg s) := by
  induction privMsgs generalizing s with
  | nil => exact h
  | cons entry privMsgs ih =>
    obtain ⟨he, hrs⟩ := forall_mem_cons.1 hsub
    obtain ⟨r, privMsg⟩ := entry
    rw [foldl_cons]
    refine ih ?_ hrs
    rw [queuePrivMsg, h.publicKey]
    split_ifs with hown
    · obtain rfl : r = key := hown
      exact h.insertPrivMsg ⟨rfl, t, ht, he⟩
    · refine h.push fun r hr => ?_
      obtain rfl := hr _ rfl
      exact ⟨rfl, t, ht, he⟩

def DkgParticipant.dealing (self : DkgParticipant F) (t : F.Seed) : DkgParticipant F :=
  { self.queueDealer t with
    dealerPubMsgs := (self.queueDealer t).dealerPubMsgs.insert self.config.publicKey
      (F.start self.config.info self.config.publicKey t).2.1
    dealer := some ⟨(F.start self.config.info self.config.publicKey t).1, ∅⟩ }

omit h in
theorem DkgParticipant.startDealer_eq_dealing (s : DkgParticipant F) (t : F.Seed) :
    s.startDealer t = (s.dealing t).tryProcessDealerMessages s.config.publicKey := rfl

theorem DkgSound.dealing (ht : seed key = some t) :
    DkgSound info ceremonyId seed key (s.dealing t) := by
  have hq : DkgSound info ceremonyId seed key (s.queueDealer t) := by
    have hp : DkgSound info ceremonyId seed key
        (s.push none (.dealerPublic key (F.start info key t).2.1)) :=
      h.push fun r _ => ⟨rfl, t, ht, rfl⟩
    rw [queueDealer, h.publicKey, h.info_eq]
    exact hp.foldl_queuePrivMsg ht fun entry he => he
  have hi := hq.insertPubMsg ⟨rfl, t, ht, rfl⟩
  rw [DkgParticipant.dealing, h.publicKey, h.info_eq]
  refine { hi with secret := fun own hown => ?_, records := fun q content hc => ?_ }
  · obtain rfl := some_inj.1 hown
    exact ⟨t, ht, rfl⟩
  · cases content with
    | playerAck player dealer ack =>
      -- the new dealer has no acknowledgements
      obtain ⟨-, -, acks, ha, hget⟩ := hc
      obtain rfl := some_inj.1 ha
      rw [ExtTreeMap.getElem?_empty] at hget
      cases hget
    | _ => exact hi.records q _ hc

theorem DkgSound.startDealer (ha : AcceptsHonestAcks F) (hkey : key ∈ info.participants)
    (ht : seed key = some t) : DkgSound info ceremonyId seed key (s.startDealer t) := by
  rw [startDealer_eq_dealing, h.publicKey]
  exact (h.dealing ht).tryProcessDealerMessages ha hkey

theorem DkgSound.broadcastReady (hkey : key ∈ info.participants) :
    DkgSound info ceremonyId seed key s.broadcastReady := by
  rw [DkgParticipant.broadcastReady]
  split
  · exact h
  · have hp : DkgSound info ceremonyId seed key (s.push none (.ready s.config.publicKey)) :=
      h.push fun r _ => h.publicKey
    refine { hp with records := fun q content hc => ?_, ready := fun q hq => ?_ }
    · cases content with
      | ready player =>
        obtain ⟨rfl, -⟩ := hc
        rfl
      | _ => exact h.records q _ hc
    · rcases Finset.mem_insert.1 hq with rfl | hq
      · rwa [h.publicKey]
      · exact h.ready q hq

theorem DkgSound.finalizeDealer : DkgSound info ceremonyId seed key s.finalizeDealer.1 := by
  have hnone : DkgSound info ceremonyId seed key { s with dealer := none } := by
    refine { h with secret := fun own hown => ?_, records := fun q content hc => ?_ }
    · cases hown
    · cases content with
      | playerAck player dealer ack =>
        obtain ⟨-, -, acks, ha, -⟩ := hc
        cases ha
      | _ => exact h.records q _ hc
  rw [DkgParticipant.finalizeDealer]
  split
  · exact h
  · next own hown =>
    have hp : DkgSound info ceremonyId seed key
        ({ s with dealer := none }.push none (.dealerLog own.finalize)) :=
      hnone.push fun r _ => trivial
    dsimp only
    split
    · exact { hp with }
    · exact hnone

end DkgSound

/-! ### What a participant queues for another -/

/-- The messages for one receiver. -/
def toward (receiver : PublicKey) (entries : List (PublicKey × ProtocolMessage F)) :
    List (ProtocolMessage F) :=
  entries.filterMap fun entry => if entry.1 = receiver then some entry.2 else none

@[simp] theorem toward_append (receiver : PublicKey)
    (l m : List (PublicKey × ProtocolMessage F)) :
    toward receiver (l ++ m) = toward receiver l ++ toward receiver m :=
  filterMap_append

theorem mem_toward {receiver : PublicKey} {entries : List (PublicKey × ProtocolMessage F)}
    {msg : ProtocolMessage F} : msg ∈ toward receiver entries ↔ (receiver, msg) ∈ entries := by
  rw [toward, mem_filterMap]
  constructor
  · rintro ⟨⟨r, m⟩, hmem, heq⟩
    split_ifs at heq with hr
    · obtain rfl := some_inj.1 heq
      obtain rfl : r = receiver := hr
      exact hmem
  · intro hmem
    exact ⟨(receiver, msg), hmem, if_pos rfl⟩

/-- The queue for a receiver grows, by no ready signal; an acknowledgement counts only from the
queue. -/
def Grows (receiver : PublicKey) (s s' : DkgParticipant F) : Prop :=
  ∃ new, toward receiver s'.pending = toward receiver s.pending ++ new ∧
    (∀ msg ∈ new, ¬ msg.IsReady) ∧
    (receiver ∈ s'.acksSent → receiver ∈ s.acksSent ∨ ∃ msg ∈ new, msg.IsAck)

section Grows

variable {receiver : PublicKey} {s s' s'' : DkgParticipant F}

theorem Grows.of_eq (hp : s'.pending = s.pending) (ha : s'.acksSent = s.acksSent) :
    Grows receiver s s' := by
  refine ⟨[], ?_, fun msg hmsg => absurd hmsg not_mem_nil, fun h => .inl ?_⟩
  · rw [hp, append_nil]
  · rwa [ha] at h

theorem Grows.trans (h : Grows receiver s s') (h' : Grows receiver s' s'') :
    Grows receiver s s'' := by
  obtain ⟨new, hnew, hr, ha⟩ := h
  obtain ⟨new', hnew', hr', ha'⟩ := h'
  refine ⟨new ++ new', ?_, ?_, ?_⟩
  · rw [hnew', hnew, append_assoc]
  · intro msg hmsg
    rcases mem_append.1 hmsg with hmsg | hmsg
    · exact hr msg hmsg
    · exact hr' msg hmsg
  · intro hmem
    rcases ha' hmem with hmem | ⟨msg, hmsg, hack⟩
    · rcases ha hmem with hmem | ⟨msg, hmsg, hack⟩
      · exact .inl hmem
      · exact .inr ⟨msg, mem_append_left _ hmsg, hack⟩
    · exact .inr ⟨msg, mem_append_right _ hmsg, hack⟩

theorem Grows.push (s : DkgParticipant F) (target : Option PublicKey)
    {kind : ProtocolMessageKind F} (hk : ∀ player, kind ≠ .ready player) :
    Grows receiver s (s.push target kind) := by
  refine ⟨toward receiver (s.config.connections (target, .new s.session.ceremonyId kind)), ?_, ?_,
    .inl⟩
  · rw [pending_push, toward_append]
  · rintro msg hmsg ⟨player, hp⟩
    obtain rfl := (DkgConfig.of_mem_connections (mem_toward.1 hmsg)).1
    exact hk player hp

theorem Grows.tryProcessDealerMessages (hp : receiver ∈ s.config.bootstrapPeers)
    (dealer : PublicKey) : Grows receiver s (s.tryProcessDealerMessages dealer) := by
  rcases tryProcessDealerMessages_cases s dealer with
    ⟨player, heq, -⟩ | ⟨old, pubMsg, privMsg, player, ack, -, -, -, -, heq⟩
  · rw [heq]
    exact .of_eq rfl rfl
  · have hps : Grows receiver s
        (s.push (some dealer) (.playerAck s.config.publicKey dealer ack)) :=
      Grows.push s _ (by simp)
    obtain ⟨new, hnew, hr, -⟩ := hps
    rw [heq]
    refine ⟨new, hnew, hr, fun hmem => ?_⟩
    rcases Finset.mem_insert.1 hmem with rfl | hmem
    · -- the acknowledgement for the receiver is queued
      refine .inr ⟨.new s.session.ceremonyId (.playerAck s.config.publicKey receiver ack), ?_,
        _, _, _, rfl⟩
      rw [pending_push, toward_append, append_cancel_left_eq] at hnew
      rw [← hnew, mem_toward]
      exact DkgConfig.mem_connections_of_peer hp _
    · exact .inl hmem

theorem Grows.taken {sender : PublicKey} {kind : ProtocolMessageKind F}
    (hp : receiver ∈ s.config.bootstrapPeers) (h : Taken s sender kind s') :
    Grows receiver s s' := by
  cases h with
  | dealerPublic msg hs hnew =>
    exact Grows.tryProcessDealerMessages
      (s := { s with dealerPubMsgs := s.dealerPubMsgs.insert sender msg }) hp sender
  | dealerPrivate msg hs hnew =>
    exact Grows.tryProcessDealerMessages
      (s := { s with dealerPrivMsgs := s.dealerPrivMsgs.insert sender msg }) hp sender
  | playerAck ack | dealerLog signed dealer log hc hd hs hnew => exact .of_eq rfl rfl
  | requestLogs => exact Grows.push s _ (by simp)
  | allLogs logs hl =>
    obtain ⟨dealerLogs, signedLogs, heq⟩ := recordLogs_eq s logs
    rw [heq]
    exact .of_eq rfl rfl
  | ready => exact .of_eq rfl rfl

theorem Grows.foldl_queuePrivMsg (s : DkgParticipant F)
    (privMsgs : List (PublicKey × F.PrivMsg)) :
    Grows receiver s (privMsgs.foldl queuePrivMsg s) := by
  induction privMsgs generalizing s with
  | nil => exact .of_eq rfl rfl
  | cons entry privMsgs ih =>
    rw [foldl_cons]
    refine Grows.trans ?_ (ih (s.queuePrivMsg entry))
    rw [queuePrivMsg]
    split_ifs
    · exact .of_eq rfl rfl
    · exact Grows.push s _ (by simp)

theorem Grows.startDealer (hp : receiver ∈ s.config.bootstrapPeers) (t : F.Seed) :
    Grows receiver s (s.startDealer t) := by
  have hq : Grows receiver s (s.queueDealer t) :=
    Grows.trans (Grows.push s none (by simp)) (Grows.foldl_queuePrivMsg _ _)
  obtain ⟨dealerPrivMsgs, outgoing, heq⟩ := foldl_queuePrivMsg_eq
    (s.push none (.dealerPublic s.config.publicKey
      (F.start s.config.info s.config.publicKey t).2.1))
    (F.start s.config.info s.config.publicKey t).2.2
  have hc : (s.queueDealer t).config = s.config := by
    rw [queueDealer, heq]
    rfl
  refine Grows.trans hq ?_
  refine Grows.tryProcessDealerMessages (s := { s.queueDealer t with
    dealerPubMsgs := _, dealer := _ }) ?_ s.config.publicKey
  show receiver ∈ (s.queueDealer t).config.bootstrapPeers
  rwa [hc]

theorem Grows.finalizeDealer (s : DkgParticipant F) : Grows receiver s s.finalizeDealer.1 := by
  rw [DkgParticipant.finalizeDealer]
  split
  · exact .of_eq rfl rfl
  · dsimp only
    split
    · exact Grows.push (s.recordLog _ _ _) none (by simp)
    · exact .of_eq rfl rfl

end Grows

/-! ### What a participant has of another -/

/-- The dealer has the acknowledgement, or there is no dealer any more. -/
def AckIn (s : DkgParticipant F) (sender : PublicKey) : Prop :=
  ∀ own, s.dealer = some own → sender ∈ own.acks

structure Waiting (msgs : Set (ProtocolMessage F)) (s : DkgParticipant F)
    (sender receiver : PublicKey) (pipeline : List (ProtocolMessage F))
    (acksSent : Finset PublicKey) : Prop where
  notReady : sender ∉ s.readyPlayers
  ordered : Precedes ProtocolMessage.IsAck ProtocolMessage.IsReady pipeline
  ack : receiver ∈ acksSent → ∃ msg ∈ pipeline, msg.IsAck
  unseen : ∀ msg ∈ msgs, (∃ ack, msg.kind = .playerAck sender receiver ack) →
    F.sha256 msg.toBytes ∉ s.seenMessages

section Waiting

variable {msgs : Set (ProtocolMessage F)} {s s' : DkgParticipant F} {sender receiver : PublicKey}
  {pipeline l r new : List (ProtocolMessage F)} {acksSent acksSent' : Finset PublicKey}

theorem Waiting.insert (h : Waiting msgs s sender receiver (l ++ r) acksSent)
    (hr : ∀ msg ∈ new, ¬ msg.IsReady)
    (ha : receiver ∈ acksSent' → receiver ∈ acksSent ∨ ∃ msg ∈ new, msg.IsAck) :
    Waiting msgs s sender receiver (l ++ new ++ r) acksSent' := by
  refine ⟨h.notReady, h.ordered.insert hr, fun hmem => ?_, h.unseen⟩
  rcases ha hmem with hold | ⟨msg, hmsg, hack⟩
  · obtain ⟨msg, hmsg, hack⟩ := h.ack hold
    refine ⟨msg, ?_, hack⟩
    rcases mem_append.1 hmsg with hmsg | hmsg
    · exact mem_append_left _ (mem_append_left _ hmsg)
    · exact mem_append_right _ hmsg
  · exact ⟨msg, mem_append_left _ (mem_append_right _ hmsg), hack⟩

theorem Waiting.grows {t t' : DkgParticipant F} (hg : Grows receiver t t')
    (h : Waiting msgs s sender receiver (l ++ toward receiver t.pending) t.acksSent) :
    Waiting msgs s sender receiver (l ++ toward receiver t'.pending) t'.acksSent := by
  obtain ⟨new, hnew, hr, ha⟩ := hg
  rw [← append_nil (l ++ _)] at h
  have hi := h.insert hr ha
  rwa [append_nil, append_assoc, ← hnew] at hi

theorem Waiting.append (h : Waiting msgs s sender receiver pipeline acksSent)
    (hack : receiver ∈ acksSent) (new : List (ProtocolMessage F)) :
    Waiting msgs s sender receiver (pipeline ++ new) acksSent := by
  refine ⟨h.notReady, h.ordered.append_of_mem (h.ack hack) new, fun _ => ?_, h.unseen⟩
  obtain ⟨msg, hmsg, hm⟩ := h.ack hack
  exact ⟨msg, mem_append_left _ hmsg, hm⟩

theorem Waiting.of_eq (h : Waiting msgs s sender receiver pipeline acksSent)
    (hr : sender ∈ s'.readyPlayers → sender ∈ s.readyPlayers)
    (hs : s'.seenMessages = s.seenMessages) :
    Waiting msgs s' sender receiver pipeline acksSent := by
  refine ⟨mt hr h.notReady, h.ordered, h.ack, ?_⟩
  rw [hs]
  exact h.unseen

theorem DkgParticipant.Taken.readyPlayers {kind : ProtocolMessageKind F} {q : PublicKey}
    (h : Taken s sender kind s') (hq : q ∈ s'.readyPlayers) :
    q ∈ s.readyPlayers ∨ q = sender ∧ kind = .ready sender := by
  have hh : s'.records.Holds s.config.publicKey q (.ready q) := ⟨rfl, hq⟩
  rcases h.holds hh with hold | ⟨rfl, rfl⟩
  · exact .inl hold.2
  · exact .inr ⟨rfl, rfl⟩

theorem AckIn.taken {kind : ProtocolMessageKind F} {q : PublicKey} (hq : AckIn s q)
    (h : Taken s sender kind s') : AckIn s' q := by
  cases h with
  | dealerPublic msg hs hnew | dealerPrivate msg hs hnew =>
    obtain ⟨player, outgoing, acksSent, heq⟩ := tryProcessDealerMessages_eq _ sender
    rw [heq]
    exact hq
  | playerAck ack =>
    intro own hown
    obtain ⟨old, hold, rfl⟩ := map_eq_some_iff.1 hown
    have hmem := hq old hold
    rw [Dealer.receivePlayerAck]
    split_ifs
    · exact ExtTreeMap.mem_insert.2 (.inr hmem)
    · exact hmem
  | dealerLog signed dealer log hc hd hs hnew | requestLogs => exact hq
  | allLogs logs hl =>
    obtain ⟨dealerLogs, signedLogs, heq⟩ := recordLogs_eq s logs
    rw [heq]
    exact hq
  | ready => exact hq

theorem AckIn.of_ack {ack : F.Ack} {dealer : PublicKey}
    (h : Taken s sender (.playerAck sender dealer ack) s')
    (hv : ∀ own, s.dealer = some own → F.verifyAck own.secret sender ack = true) :
    AckIn s' sender := by
  cases h with
  | playerAck ack =>
    intro own hown
    obtain ⟨old, hold, rfl⟩ := map_eq_some_iff.1 hown
    rw [Dealer.receivePlayerAck, if_pos (hv old hold)]
    exact ExtTreeMap.mem_insert_self

end Waiting

/-! ### Messages of honest participants arrive -/

section Delivery

variable {info : DkgInfo} {ceremonyId : B256} {seed : PublicKey → Option F.Seed}
  {msgs : Set (ProtocolMessage F)} {s : DkgParticipant F} {key sender q : PublicKey}
  {msg : ProtocolMessage F}

theorem DkgSound.delivery (h : DkgSound info ceremonyId seed key s)
    (hr : ProtocolMessage.fromBytes F msg.toBytes s.config.n = .ok msg)
    (hmsg : Sent info ceremonyId seed sender key msg) :
    (F.sha256 msg.toBytes ∈ s.seenMessages ∧ (s.handleMessageBytes sender msg.toBytes).1 = s) ∨
    (F.sha256 msg.toBytes ∉ s.seenMessages ∧ (s.handleMessageBytes sender msg.toBytes).1 =
      ((s.mark (F.sha256 msg.toBytes)).handleMessage sender msg).1) := by
  have ha : s.admission msg.toBytes = .ok msg := by
    rw [admission, hr]
    dsimp only
    rw [hmsg.1]
    dsimp only
    rw [if_neg (not_not.2 h.session.symm)]
  rcases handleMessageBytes_cases s sender msg.toBytes with
    ⟨hold, heq⟩ | ⟨e, -, he, -⟩ | ⟨msg', hnew, hok, heq⟩
  · exact .inl ⟨hold, by rw [heq]⟩
  · rw [ha] at he
    cases he
  · rw [ha] at hok
    obtain rfl := Except.ok.inj hok
    exact .inr ⟨hnew, by rw [heq]⟩

theorem DkgSound.mark (h : DkgSound info ceremonyId seed key s) (hash : B256) :
    DkgSound info ceremonyId seed key (s.mark hash) := { h with }

theorem DkgSound.deliver (ha : AcceptsHonestAcks F) (h : DkgSound info ceremonyId seed key s)
    (hs : sender ∈ info.participants)
    (hr : ProtocolMessage.fromBytes F msg.toBytes s.config.n = .ok msg)
    (hmsg : Sent info ceremonyId seed sender key msg) :
    DkgSound info ceremonyId seed key (s.handleMessageBytes sender msg.toBytes).1 := by
  rcases h.delivery hr hmsg with ⟨-, heq⟩ | ⟨-, heq⟩
  · rwa [heq]
  · rw [heq]
    rcases handleMessage_cases (s.mark (F.sha256 msg.toBytes)) sender msg with
      hself | ⟨-, -, ht⟩
    · rw [hself]
      exact h.mark _
    · exact (h.mark _).taken ha hs hmsg.2 ht

theorem Grows.handleMessageBytes (hq : q ∈ s.config.bootstrapPeers) (sender : PublicKey)
    (bytes : Bytes) : Grows q s (s.handleMessageBytes sender bytes).1 := by
  refine handleMessageBytes_invariant (Grows q s) (.of_eq rfl rfl) (.of_eq rfl rfl) ?_
  intro msg s' _ _ ht
  exact Grows.taken (s := s.mark _) hq ht

theorem AckIn.handleMessageBytes (hq : AckIn s q) (sender : PublicKey) (bytes : Bytes) :
    AckIn (s.handleMessageBytes sender bytes).1 q := by
  refine handleMessageBytes_invariant (AckIn · q) hq hq ?_
  intro msg s' _ _ ht
  exact AckIn.taken (s := s.mark _) hq ht

theorem Waiting.deliver {pipeline : List (ProtocolMessage F)} {acksSent : Finset PublicKey}
    (hinj : msgs.InjOn fun msg => F.sha256 msg.toBytes)
    (h : DkgSound info ceremonyId seed key s)
    (hrd : ProtocolMessage.fromBytes F msg.toBytes s.config.n = .ok msg)
    (hmsg : Sent info ceremonyId seed sender key msg) (hmem : msg ∈ msgs)
    (hack : ∀ ack, msg.kind ≠ .playerAck q key ack) (hr : msg.kind ≠ .ready q)
    (hq : Waiting msgs s q key pipeline acksSent) :
    Waiting msgs (s.handleMessageBytes sender msg.toBytes).1 q key pipeline acksSent := by
  rcases h.delivery hrd hmsg with ⟨-, heq⟩ | ⟨-, heq⟩
  · rwa [heq]
  · have hm : Waiting msgs (s.mark (F.sha256 msg.toBytes)) q key pipeline acksSent := by
      refine ⟨hq.notReady, hq.ordered, hq.ack, ?_⟩
      rintro msg' hmem' ⟨ack, hk⟩ hs
      rcases Finset.mem_insert.1 hs with hsm | hold
      · -- no other message has this hash
        obtain rfl := hinj hmem' hmem hsm
        exact hack ack hk
      · exact hq.unseen msg' hmem' ⟨ack, hk⟩ hold
    rw [heq]
    rcases handleMessage_cases (s.mark (F.sha256 msg.toBytes)) sender msg with
      hself | ⟨-, -, ht⟩
    · rwa [hself]
    · refine hm.of_eq (fun hmem => ?_) ht.frame.2.2.1
      rcases ht.readyPlayers hmem with hold | ⟨rfl, hk⟩
      · exact hold
      · exact absurd hk hr

theorem Waiting.deliver_first {rest : List (ProtocolMessage F)} {acksSent : Finset PublicKey}
    (hinj : msgs.InjOn fun msg => F.sha256 msg.toBytes)
    (h : DkgSound info ceremonyId seed key s) (hs : s.isParticipant sender = true)
    (hr : ProtocolMessage.fromBytes F msg.toBytes s.config.n = .ok msg)
    (hmsg : Sent info ceremonyId seed sender key msg) (hmem : msg ∈ msgs)
    (hq : Waiting msgs s sender key (msg :: rest) acksSent) :
    AckIn (s.handleMessageBytes sender msg.toBytes).1 sender ∨
      Waiting msgs (s.handleMessageBytes sender msg.toBytes).1 sender key rest acksSent := by
  by_cases hack : msg.IsAck
  · obtain ⟨player, dealer, ack, hk⟩ := hack
    have hg := hmsg.2
    rw [hk] at hg
    obtain ⟨rfl, rfl, t, ht, hv⟩ := hg
    -- it was not seen, so the dealer gets it
    have hnew := hq.unseen msg hmem ⟨ack, hk⟩
    rcases h.delivery hr hmsg with ⟨hold, -⟩ | ⟨-, heq⟩
    · exact absurd hold hnew
    have hown : dealer = (s.mark (F.sha256 msg.toBytes)).config.publicKey := h.publicKey.symm
    obtain ⟨s', htk⟩ : ∃ s', Taken (s.mark (F.sha256 msg.toBytes)) player msg.kind s' := by
      rw [hk, hown]
      exact ⟨_, .playerAck ack⟩
    rw [handleMessage_of_taken (s := s.mark _) hs htk] at heq
    rw [heq]
    rw [hk] at htk
    refine .inl (AckIn.of_ack htk fun own hd => ?_)
    obtain ⟨t', ht', hsc⟩ := h.secret own hd
    obtain rfl := some_inj.1 (ht.symm.trans ht')
    rwa [hsc]
  · refine .inr ?_
    have hrd : ¬ msg.IsReady := hq.ordered.1
    have hrs : Waiting msgs s sender key rest acksSent := by
      refine ⟨hq.notReady, hq.ordered.tail hack, fun ha => ?_, hq.unseen⟩
      obtain ⟨msg', hmsg', hack'⟩ := hq.ack ha
      rcases mem_cons.1 hmsg' with rfl | hmsg'
      · exact absurd hack' hack
      · exact ⟨msg', hmsg', hack'⟩
    exact hrs.deliver hinj h hr hmsg hmem (fun ack hk => hack ⟨_, _, _, hk⟩)
      fun hk => hrd ⟨_, hk⟩

end Delivery

/-! ### Hashes of messages -/

theorem injOn_of_nodup {msgs : Set (ProtocolMessage F)} {n : ℕ} (hn : 0 < n) {l : List Bytes}
    (hnd : (l.map F.sha256).Nodup)
    (h : ∀ msg ∈ msgs, ProtocolMessage.KindFits n msg.kind ∧ msg.toBytes ∈ l) :
    msgs.InjOn fun msg => F.sha256 msg.toBytes := by
  intro msg hmsg msg' hmsg' hh
  obtain ⟨hf, hmem⟩ := h msg hmsg
  obtain ⟨hf', hmem'⟩ := h msg' hmsg'
  have hb := inj_on_of_nodup_map hnd hmem hmem' hh
  have hr := ProtocolMessage.fromBytes_toBytes hn hf []
  rw [hb, ProtocolMessage.fromBytes_toBytes hn hf' []] at hr
  exact (Except.ok.inj hr).symm

/-! ### The small library -/

theorem small_playerOf {info : DkgInfo} {key : PublicKey} {player : Feldman.small.Player}
    (h : PlayerOf (F := .small) info key player) : player = key := by
  induction h with
  | new => rfl
  | dealerMessage h dealer pubMsg privMsg ih => exact ih

theorem small_accepts : AcceptsHonestAcks .small := by
  intro info dealer player t state state' privMsg ack hs _ hm
  obtain rfl := small_playerOf hs
  have hack := (Prod.mk.inj hm).2
  split_ifs at hack
  · obtain rfl := some_inj.1 hack
    exact decide_eq_true rfl

end Kora
