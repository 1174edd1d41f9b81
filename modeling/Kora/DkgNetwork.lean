/-
The network of the key generation ceremony (`node/dkg/src/network.rs`).

A message is sent over a connection of its own: the key of the sender, the length of the
message, the message. Whoever makes the connection writes the key.

* `recorded_of_authentic` — what is recorded under the key of an honest participant was
  sent by it, if every connection that begins with such a key was made by its owner.
-/
import Kora.DkgParticipant
import Kora.Run

open Std List Option

namespace Kora

open Wire DkgParticipant ProtocolMessage

/-- A message with the key that its connection began with. -/
structure Envelope where
  sender : PublicKey
  payload : Bytes

def Envelope.toBytes (self : Envelope) : Bytes :=
  ProtocolMessage.keyBytes self.sender ++ (leBytes 4 self.payload.length ++ self.payload)

/-- Longer messages are not read. -/
def MAX_PAYLOAD : ℕ := 1024 * 1024

/-- Read a connection. What follows the message is not looked at. -/
def readEnvelope (F : Feldman) : Reader CodecError Envelope := do
  let sender ← ProtocolMessage.readKey F
  let lenBytes ← take .endOfBuffer 4
  let len := BigEndian.value lenBytes.reverse
  if len > MAX_PAYLOAD then throw (.invalidLength len)
  else do
    let payload ← take .endOfBuffer len
    return ⟨sender, payload⟩

/-- The messages of the accepted connections. A connection that cannot be read is skipped. -/
def pollIncoming (F : Feldman) (streams : List Bytes) : List Envelope :=
  streams.filterMap fun stream =>
    match readEnvelope F stream with
    | .ok (envelope, _) => some envelope
    | .error _ => none

namespace DkgConfig

/-- What is sent for a queued message: nothing without an address; one for all goes to each. -/
def connections {F : Feldman} (self : DkgConfig) :
    Option PublicKey × ProtocolMessage F → List (PublicKey × ProtocolMessage F)
  | (some target, msg) => if self.bootstrapPeers.contains target then [(target, msg)] else []
  | (none, msg) => self.participants.flatMap fun key =>
      if key ≠ self.publicKey ∧ self.bootstrapPeers.contains key then [(key, msg)] else []

theorem of_mem_connections {F : Feldman} {self : DkgConfig} {target : Option PublicKey}
    {msg : ProtocolMessage F} {entry : PublicKey × ProtocolMessage F}
    (h : entry ∈ self.connections (target, msg)) :
    entry.2 = msg ∧ ∀ key, target = some key → entry.1 = key := by
  cases target with
  | none =>
    obtain ⟨key, -, hkey⟩ := mem_flatMap.1 h
    split_ifs at hkey
    · rw [mem_singleton.1 hkey]
      exact ⟨rfl, fun _ ht => by cases ht⟩
    · cases hkey
  | some key =>
    rw [connections] at h
    split_ifs at h
    · rw [mem_singleton.1 h]
      exact ⟨rfl, fun _ ht => some_inj.1 ht⟩
    · cases h

theorem mem_connections_of_peer {F : Feldman} {self : DkgConfig} {target : PublicKey}
    (h : target ∈ self.bootstrapPeers) (msg : ProtocolMessage F) :
    (target, msg) ∈ self.connections (some target, msg) := by
  rw [connections, if_pos (contains_iff_mem.2 h)]
  exact mem_singleton.2 rfl

end DkgConfig

variable {F : Feldman}

def DkgParticipant.receiveAndProcess (self : DkgParticipant F) (streams : List Bytes) :
    DkgParticipant F :=
  (pollIncoming F streams).foldl
    (fun self envelope => (self.handleMessageBytes envelope.sender envelope.payload).1) self

theorem readEnvelope_toBytes {envelope : Envelope} (hkey : F.validKey envelope.sender = true)
    (hlen : envelope.payload.length ≤ MAX_PAYLOAD) (rest : Bytes) :
    readEnvelope F (envelope.toBytes ++ rest) = .ok (envelope, rest) := by
  have hv : BigEndian.value (leBytes 4 envelope.payload.length).reverse =
      envelope.payload.length := by
    rw [leBytes, reverse_reverse, BigEndian.value_digits]
    refine Nat.mod_eq_of_lt ?_
    rw [MAX_PAYLOAD] at hlen
    omega
  rw [Envelope.toBytes, append_assoc, append_assoc, readEnvelope]
  simp only [bind_eq_ok]
  refine ⟨_, _, readKey_keyBytes hkey _, leBytes 4 envelope.payload.length, _,
    (reads_take CodecError.endOfBuffer 4).read_write ?_ _, ?_⟩
  · show (leBytes 4 envelope.payload.length).length = 4
    rw [leBytes, length_reverse, BigEndian.digits_length]
  rw [hv, if_neg (Nat.not_lt.2 hlen)]
  simp only [bind_eq_ok, pure_eq_ok]
  exact ⟨envelope.payload, rest,
    (reads_take CodecError.endOfBuffer envelope.payload.length).read_write rfl rest, rfl, rfl⟩

theorem sender_of_readEnvelope {stream rest : Bytes} {envelope : Envelope}
    (h : readEnvelope F stream = .ok (envelope, rest)) :
    F.validKey envelope.sender = true ∧ ProtocolMessage.keyBytes envelope.sender <+: stream := by
  rw [readEnvelope] at h
  obtain ⟨sender, s₁, hs, h⟩ := bind_eq_ok.1 h
  obtain ⟨lenBytes, s₂, -, h⟩ := bind_eq_ok.1 h
  split at h
  · exact absurd h throw_ne_ok
  · obtain ⟨payload, s₃, -, h⟩ := bind_eq_ok.1 h
    obtain ⟨rfl, -⟩ := pure_eq_ok.1 h
    obtain ⟨hv, hst⟩ := (reads_readKey F stream sender s₁).1 hs
    exact ⟨hv.2, s₁, hst.symm⟩

/-! ### What is recorded under a key -/

/-- The content is recorded under a key at the participant `own`. -/
def DkgParticipant.Records.Holds (self : Records F) (own key : PublicKey) :
    ProtocolMessageKind F → Prop
  | .dealerPublic dealer msg => dealer = key ∧ self.pubMsgs[key]? = some msg
  | .dealerPrivate dealer msg => dealer = key ∧ self.privMsgs[key]? = some msg
  | .playerAck player dealer ack => player = key ∧ dealer = own ∧
      ∃ acks, self.acks = some acks ∧ acks[key]? = some ack
  | .ready player => player = key ∧ key ∈ self.ready
  | .dealerLog _ => False
  | .requestLogs => False
  | .allLogs _ => False

theorem not_holds_init (config : DkgConfig) (timestampNanos : ℕ) (own key : PublicKey)
    (content : ProtocolMessageKind F) :
    ¬ (init F config timestampNanos).records.Holds own key content := by
  intro hc
  cases content with
  | dealerPublic dealer msg | dealerPrivate dealer msg =>
    exact absurd hc.2 (by simp [records, init])
  | playerAck player dealer ack =>
    obtain ⟨-, -, acks, ha, -⟩ := hc
    cases ha
  | ready player => exact absurd hc.2 (by simp [records, init])
  | _ => exact hc.elim

variable {key : PublicKey}

theorem getElem?_insert_cases {V : Type} {m : ExtTreeMap PublicKey V} {k : PublicKey} {v w : V}
    (h : (m.insert k v)[key]? = some w) : m[key]? = some w ∨ k = key ∧ v = w := by
  rw [ExtTreeMap.getElem?_insert] at h
  split_ifs at h with hkey
  · exact .inr ⟨LawfulEqCmp.compare_eq_iff_eq.1 hkey, some_inj.1 h⟩
  · exact .inl h

theorem DkgParticipant.Taken.holds {s s' : DkgParticipant F} {sender : PublicKey}
    {kind : ProtocolMessageKind F} (h : Taken s sender kind s') {content : ProtocolMessageKind F}
    (hc : s'.records.Holds s.config.publicKey key content) :
    s.records.Holds s.config.publicKey key content ∨ sender = key ∧ kind = content := by
  cases h with
  | dealerPublic msg hs hnew =>
    obtain ⟨player, outgoing, acksSent, heq⟩ := tryProcessDealerMessages_eq _ sender
    rw [heq] at hc
    cases content with
    | dealerPublic dealer msg' =>
      obtain ⟨rfl, hget⟩ := hc
      rcases getElem?_insert_cases hget with hold | ⟨rfl, rfl⟩
      · exact .inl ⟨rfl, hold⟩
      · exact .inr ⟨rfl, rfl⟩
    | _ => exact .inl hc
  | dealerPrivate msg hs hnew =>
    obtain ⟨player, outgoing, acksSent, heq⟩ := tryProcessDealerMessages_eq _ sender
    rw [heq] at hc
    cases content with
    | dealerPrivate dealer msg' =>
      obtain ⟨rfl, hget⟩ := hc
      rcases getElem?_insert_cases hget with hold | ⟨rfl, rfl⟩
      · exact .inl ⟨rfl, hold⟩
      · exact .inr ⟨rfl, rfl⟩
    | _ => exact .inl hc
  | playerAck ack =>
    cases content with
    | playerAck player dealer ack' =>
      obtain ⟨rfl, rfl, acks, ha, hget⟩ := hc
      have ha : (s.dealer.map (·.receivePlayerAck sender ack)).map (·.acks) = some acks := ha
      cases hd : s.dealer with
      | none =>
        rw [hd] at ha
        cases ha
      | some own =>
        rw [hd, map_some, map_some, some_inj,
          Dealer.receivePlayerAck] at ha
        have hown : s.records.acks = some own.acks := by
          rw [records, hd]
          rfl
        split_ifs at ha
        · rw [← ha] at hget
          rcases getElem?_insert_cases hget with hold | ⟨rfl, rfl⟩
          · exact .inl ⟨rfl, rfl, own.acks, hown, hold⟩
          · exact .inr ⟨rfl, rfl⟩
        · exact .inl ⟨rfl, rfl, acks, hown.trans (congrArg some ha), hget⟩
    | _ => exact .inl hc
  | dealerLog signed dealer log hch hd hs hnew =>
    cases content <;> exact .inl hc
  | requestLogs => cases content <;> exact .inl hc
  | allLogs logs hl =>
    obtain ⟨dealerLogs, signedLogs, heq⟩ := recordLogs_eq s logs
    rw [heq] at hc
    cases content <;> exact .inl hc
  | ready =>
    cases content with
    | ready player =>
      obtain ⟨rfl, hmem⟩ := hc
      rcases Finset.mem_insert.1 hmem with rfl | hold
      · exact .inr ⟨rfl, rfl⟩
      · exact .inl ⟨rfl, hold⟩
    | _ => exact .inl hc

theorem DkgParticipant.getElem?_foldl_queuePrivMsg {s : DkgParticipant F}
    (hkey : key ≠ s.config.publicKey) (privMsgs : List (PublicKey × F.PrivMsg)) :
    (privMsgs.foldl queuePrivMsg s).dealerPrivMsgs[key]? = s.dealerPrivMsgs[key]? := by
  induction privMsgs generalizing s with
  | nil => rfl
  | cons entry privMsgs ih =>
    have he : (s.queuePrivMsg entry).config = s.config ∧
        (s.queuePrivMsg entry).dealerPrivMsgs[key]? = s.dealerPrivMsgs[key]? := by
      rw [queuePrivMsg]
      split_ifs with hown
      · refine ⟨rfl, ?_⟩
        rw [ExtTreeMap.getElem?_insert, if_neg]
        exact fun h => hkey (LawfulEqCmp.compare_eq_iff_eq.1 h).symm
      · exact ⟨rfl, rfl⟩
    rw [foldl_cons, ih (by rwa [he.1]), he.2]

theorem DkgParticipant.holds_of_act {s : DkgParticipant F} {call : Call F}
    (hkey : key ≠ s.config.publicKey) {content : ProtocolMessageKind F}
    (h : (s.act call).records.Holds s.config.publicKey key content) :
    s.records.Holds s.config.publicKey key content := by
  cases call with
  | startDealer seed =>
    obtain ⟨player, outgoing, acksSent, heq⟩ := startDealer_eq s seed
    rw [act, heq] at h
    cases content with
    | dealerPublic dealer msg =>
      obtain ⟨rfl, hget⟩ := h
      rcases getElem?_insert_cases hget with hold | ⟨hown, -⟩
      · exact ⟨rfl, hold⟩
      · exact absurd hown.symm hkey
    | dealerPrivate dealer msg =>
      obtain ⟨rfl, hget⟩ := h
      refine ⟨rfl, ?_⟩
      rw [← hget]
      exact (getElem?_foldl_queuePrivMsg (s := s.push none _) hkey _).symm
    | playerAck player dealer ack =>
      obtain ⟨-, -, acks, ha, hget⟩ := h
      -- the new dealer has no acknowledgements
      have he : (∅ : ExtTreeMap PublicKey F.Ack) = acks := some_inj.1 ha
      rw [← he, ExtTreeMap.getElem?_empty] at hget
      cases hget
    | _ => exact h
  | finalizeDealer =>
    cases hd : s.dealer with
    | none =>
      rw [act, finalizeDealer, hd] at h
      exact h
    | some own =>
      rw [act, finalizeDealer, hd] at h
      dsimp only at h
      split at h
      · cases content with
        | playerAck player dealer ack =>
          obtain ⟨-, -, acks, ha, -⟩ := h
          cases ha
        | _ => exact h
      · cases content with
        | playerAck player dealer ack =>
          obtain ⟨-, -, acks, ha, -⟩ := h
          cases ha
        | _ => exact h
  | broadcastReady =>
    simp only [act, broadcastReady] at h
    split at h
    · exact h
    · cases content with
      | ready player =>
        obtain ⟨rfl, hmem⟩ := h
        exact ⟨rfl, (Finset.mem_insert.1 hmem).resolve_left hkey⟩
      | _ => exact h
  | finalize =>
    simp only [act, finalize_fst] at h
    split_ifs at h
    · exact h
    · exact h
  | takeOutgoing | setPhase phase => exact h

/-! ### Who sent it -/

inductive NetworkEvent (F : Feldman) where
  | poll (streams : List Bytes)
  | call (call : Call F)

def DkgParticipant.networkStep (self : DkgParticipant F) : NetworkEvent F → DkgParticipant F
  | .poll streams => self.receiveAndProcess streams
  | .call call => self.act call

/-- A connection that begins with an honest key carries a readable message its owner sent. -/
def AuthenticStream (n : ℕ) (honest : Set PublicKey) (sent : PublicKey → Set (ProtocolMessage F))
    (stream : Bytes) : Prop :=
  ∀ key ∈ honest, ProtocolMessage.keyBytes key <+: stream →
    ∃ msg ∈ sent key, ProtocolMessage.KindFits n msg.kind ∧ msg.toBytes.length ≤ MAX_PAYLOAD ∧
      stream = Envelope.toBytes ⟨key, msg.toBytes⟩

/-- The connections of the event are authentic. -/
def NetworkEvent.Authentic (n : ℕ) (honest : Set PublicKey)
    (sent : PublicKey → Set (ProtocolMessage F)) : NetworkEvent F → Prop
  | .poll streams => ∀ stream ∈ streams, AuthenticStream n honest sent stream
  | .call _ => True

def DkgParticipant.OnlySent (honest : Set PublicKey) (sent : PublicKey → Set (ProtocolMessage F))
    (s : DkgParticipant F) : Prop :=
  ∀ key ∈ honest, key ≠ s.config.publicKey → ∀ content,
    s.records.Holds s.config.publicKey key content → ∃ msg ∈ sent key, msg.kind = content

section Authentic

variable {honest : Set PublicKey} {sent : PublicKey → Set (ProtocolMessage F)}
  {s : DkgParticipant F}

/-- **The step rule** for one message: it was sent by an honest participant, or comes under another
key. -/
theorem DkgParticipant.OnlySent.handleMessageBytes (h : s.OnlySent honest sent) {sender : PublicKey}
    {bytes : Bytes} (hb : sender ∈ honest → ∃ msg ∈ sent sender,
      ProtocolMessage.KindFits s.config.n msg.kind ∧ bytes = msg.toBytes) :
    (s.handleMessageBytes sender bytes).1.OnlySent honest sent := by
  refine handleMessageBytes_invariant (·.OnlySent honest sent) h h ?_
  intro msg s' ha hs ht key hkey hown content hc
  rw [ht.frame.1] at hown hc
  rcases ht.holds hc with hold | ⟨rfl, rfl⟩
  · exact h key hkey hown content hold
  · -- the bytes are read as the message that was sent
    obtain ⟨msg', hmsg', hf, rfl⟩ := hb hkey
    have hn : 0 < s.config.n := length_pos_of_mem (contains_iff_mem.1 hs)
    have hr := fromBytes_toBytes hn hf []
    rw [append_nil] at hr
    rw [fromBytes_of_admission ha] at hr
    exact ⟨msg', hmsg', congrArg kind (Except.ok.inj hr).symm⟩

theorem DkgParticipant.OnlySent.receiveAndProcess (h : s.OnlySent honest sent)
    {streams : List Bytes}
    (hs : ∀ stream ∈ streams, AuthenticStream s.config.n honest sent stream) :
    (s.receiveAndProcess streams).OnlySent honest sent := by
  have he : ∀ envelope ∈ pollIncoming F streams, envelope.sender ∈ honest →
      ∃ msg ∈ sent envelope.sender, ProtocolMessage.KindFits s.config.n msg.kind ∧
        envelope.payload = msg.toBytes := by
    intro envelope hen hh
    obtain ⟨stream, hst, hr⟩ := mem_filterMap.1 hen
    split at hr
    · next envelope' rest heq =>
      obtain rfl := some_inj.1 hr
      obtain ⟨hv, hb⟩ := sender_of_readEnvelope heq
      obtain ⟨msg, hmsg, hft, hlen, hby⟩ := hs stream hst _ hh hb
      refine ⟨msg, hmsg, hft, ?_⟩
      have hsn : readEnvelope F (Envelope.toBytes ⟨envelope'.sender, msg.toBytes⟩ ++ []) =
          .ok (⟨envelope'.sender, msg.toBytes⟩, []) := by
        refine readEnvelope_toBytes ?_ ?_ []
        · exact hv
        · exact hlen
      rw [append_nil, ← hby, heq] at hsn
      exact congrArg Envelope.payload (Prod.mk.inj (Except.ok.inj hsn)).1
    · cases hr
  rw [DkgParticipant.receiveAndProcess]
  generalize pollIncoming F streams = envelopes at he
  induction envelopes generalizing s with
  | nil => exact h
  | cons envelope envelopes ih =>
    obtain ⟨hf, hrs⟩ := forall_mem_cons.1 he
    have hc := (step_frame s (.receive envelope.sender envelope.payload)).1
    rw [step] at hc
    rw [foldl_cons]
    refine ih (h.handleMessageBytes hf) ?_ ?_
    · rwa [hc]
    · rwa [hc]

theorem DkgParticipant.receiveAndProcess_config (s : DkgParticipant F) (streams : List Bytes) :
    (s.receiveAndProcess streams).config = s.config := by
  rw [DkgParticipant.receiveAndProcess]
  induction pollIncoming F streams generalizing s with
  | nil => rfl
  | cons envelope envelopes ih =>
    rw [foldl_cons, ih]
    exact (step_frame s (.receive envelope.sender envelope.payload)).1

theorem DkgParticipant.networkStep_config (s : DkgParticipant F) (event : NetworkEvent F) :
    (s.networkStep event).config = s.config := by
  cases event with
  | poll streams => exact receiveAndProcess_config s streams
  | call call => exact (act_frame s call).1

theorem DkgParticipant.OnlySent.networkStep (h : s.OnlySent honest sent) {event : NetworkEvent F}
    (he : event.Authentic s.config.n honest sent) :
    (s.networkStep event).OnlySent honest sent := by
  cases event with
  | poll streams => exact h.receiveAndProcess he
  | call call =>
    intro key hkey hown content hc
    rw [networkStep_config] at hown hc
    exact h key hkey hown content (holds_of_act hown hc)

/-- **Authentic connections**: what is recorded under an honest key was sent by its owner. -/
theorem recorded_of_authentic {config : DkgConfig} {timestampNanos : ℕ}
    (hs : DkgParticipant.new F config timestampNanos = .ok s) {events : List (NetworkEvent F)}
    (hevents : ∀ event ∈ events, event.Authentic config.n honest sent) :
    (events.foldl networkStep s).OnlySent honest sent := by
  obtain ⟨-, -, rfl⟩ := new_eq_ok hs
  have hi : (init F config timestampNanos).OnlySent honest sent := by
    intro key _ _ content hc
    exact absurd hc (not_holds_init config timestampNanos _ key content)
  have hcn : config = (init F config timestampNanos).config := rfl
  rw [hcn] at hevents
  generalize init F config timestampNanos = s at hi hevents
  induction events generalizing s with
  | nil => exact hi
  | cons event events ih =>
    obtain ⟨hf, hr⟩ := forall_mem_cons.1 hevents
    rw [foldl_cons]
    refine ih _ (hi.networkStep hf) ?_
    rwa [networkStep_config]

end Authentic

/-- The ready signal of the first participant. -/
def firstReady : ProtocolMessage .small := .legacy (.ready 1)

/-- The connection that carries it, whoever makes it. -/
def firstReadyStream : Bytes := Envelope.toBytes ⟨1, firstReady.toBytes⟩

theorem recorded_of_authentic_ready :
    1 ∈ ((tripleParticipant 2 0).networkStep (.poll [firstReadyStream])).readyPlayers ∧
    ([.poll [firstReadyStream]].foldl networkStep (tripleParticipant 2 0)).OnlySent {1}
      (fun _ => {firstReady}) := by
  have hnew : DkgParticipant.new .small (triple 2) 0 = .ok (tripleParticipant 2 0) := rfl
  refine ⟨by decide +kernel, recorded_of_authentic hnew fun event he => ?_⟩
  obtain rfl := mem_singleton.1 he
  intro stream hs key hkey _
  obtain rfl := mem_singleton.1 hs
  obtain rfl : key = 1 := hkey
  exact ⟨firstReady, rfl, rfl, by decide +kernel, rfl⟩

/-- Anyone can make a participant record a ready signal of another that has sent nothing. -/
theorem ready_forged : ¬ ∀ (F : Feldman) (config : DkgConfig) (timestampNanos : ℕ)
    (s : DkgParticipant F), DkgParticipant.new F config timestampNanos = .ok s →
    ∀ (honest : Set PublicKey) (sent : PublicKey → Set (ProtocolMessage F))
      (events : List (NetworkEvent F)), (events.foldl networkStep s).OnlySent honest sent := by
  intro h
  have hs := h .small (triple 2) 0 (tripleParticipant 2 0) rfl {1} (fun _ => ∅)
    [.poll [firstReadyStream]]
  have hr :
      1 ∈ ((tripleParticipant 2 0).networkStep (.poll [firstReadyStream])).readyPlayers := by
    decide +kernel
  have hown : (1 : PublicKey) ≠
      ((tripleParticipant 2 0).networkStep (.poll [firstReadyStream])).config.publicKey := by
    decide +kernel
  obtain ⟨msg, hmsg, -⟩ := hs 1 rfl hown (.ready 1) ⟨rfl, hr⟩
  exact hmsg

end Kora
