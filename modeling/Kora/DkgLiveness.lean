/-
A participant of the key generation ceremony that gets the messages of the others
(`node/dkg/src/ceremony.rs`).

* `Works` — what is expected of the library when all participants are honest;
* `Going` — what holds of a participant among honest ones;
* `reaches_finished` — a participant that starts its dealer can finish.
-/
import Kora.DkgHonest
import Kora.DkgCeremony

open Std List ExtTreeMap

namespace Kora

open DkgParticipant ProtocolMessage

variable {F : Feldman}

/-! ### Messages of the others -/

/-- The states of a player that took its shares of honest dealers, each once. -/
inductive PlayerWith (info : DkgInfo) (key : PublicKey) : Finset PublicKey → F.Player → Prop where
  | new : PlayerWith info key ∅ (F.newPlayer info key)
  | take {dealers : Finset PublicKey} {state : F.Player} {dealer : PublicKey} {t : F.Seed}
      {privMsg : F.PrivMsg} (h : PlayerWith info key dealers state) (hnew : dealer ∉ dealers)
      (hmem : (key, privMsg) ∈ (F.start info dealer t).2.2) :
      PlayerWith info key (insert dealer dealers)
        (F.dealerMessage state dealer (F.start info dealer t).2.1 privMsg).1

theorem PlayerWith.playerOf {info : DkgInfo} {key : PublicKey} {dealers : Finset PublicKey}
    {state : F.Player} (h : PlayerWith info key dealers state) : PlayerOf info key state := by
  induction h with
  | new => exact .new
  | take _ _ _ ih => exact ih.dealerMessage _ _ _

/-- What is expected of the library when all participants are honest. -/
structure Works (F : Feldman) (info : DkgInfo) : Prop where
  accepts : AcceptsHonestAcks F
  /-- A dealer has a share for each participant. -/
  share : ∀ dealer t, ∀ player ∈ info.participants,
    ∃ privMsg, (player, privMsg) ∈ (F.start info dealer t).2.2
  /-- A player acknowledges its share of an honest dealer from which it has none yet. -/
  ack : ∀ dealer t player dealers state privMsg, PlayerWith info player dealers state →
    dealer ∉ dealers → (player, privMsg) ∈ (F.start info dealer t).2.2 →
    ∃ state' ack, F.dealerMessage state dealer (F.start info dealer t).2.1 privMsg =
      (state', some ack)
  /-- The log of an honest dealer is valid. -/
  log : ∀ dealer t acks, ∃ log,
    F.check info (F.finalizeDealer (F.start info dealer t).1 acks) = some (dealer, log)
  /-- With the shares and valid logs of all participants the output can be computed. -/
  finish : ∀ player dealers state logs, PlayerWith info player dealers state →
    (∀ q ∈ info.participants, q ∈ dealers) →
    (∀ entry ∈ logs, ∃ signed, F.check info signed = some entry) →
    (∀ q ∈ info.participants, ∃ log, (q, log) ∈ logs) →
    (F.observe info logs).isSome = true ∧ (F.share state info logs).isSome = true

/-- What the message says is recorded. -/
def DkgParticipant.Done (self : DkgParticipant F) : ProtocolMessageKind F → Prop
  | .dealerPublic dealer _ => dealer ∈ self.dealerPubMsgs
  | .dealerPrivate dealer _ => dealer ∈ self.dealerPrivMsgs
  | .ready player => player ∈ self.readyPlayers
  | .dealerLog signed =>
    ∃ dealer log, F.check self.config.info signed = some (dealer, log) ∧ dealer ∈ self.dealerLogs
  | _ => True

section Done

variable {s s' : DkgParticipant F}

theorem DkgParticipant.Done.extend (h : Includes s s') {kind : ProtocolMessageKind F}
    (hd : s.Done kind) : s'.Done kind := by
  cases kind with
  | dealerPublic dealer msg => exact h.pubMsgs dealer hd
  | dealerPrivate dealer msg => exact h.privMsgs dealer hd
  | ready player => exact h.readyPlayers hd
  | dealerLog signed =>
    obtain ⟨dealer, log, hc, hmem⟩ := hd
    exact ⟨dealer, log, by rwa [h.config], h.logs dealer hmem⟩
  | _ => trivial

theorem DkgParticipant.Taken.done {sender : PublicKey} {kind : ProtocolMessageKind F}
    (h : Taken s sender kind s') : s'.Done kind := by
  cases h with
  | dealerPublic msg hs hnew | dealerPrivate msg hs hnew =>
    obtain ⟨player, outgoing, acksSent, heq⟩ := tryProcessDealerMessages_eq _ sender
    rw [heq]
    exact mem_insert_self
  | dealerLog signed dealer log hc hd hs hnew =>
    exact ⟨dealer, log, hc, mem_insert_self⟩
  | ready => exact Finset.mem_insert_self _ _
  | _ => trivial

end Done

variable {participants : List PublicKey}

theorem size_lt_of_notMem {V : Type} {m : ExtTreeMap PublicKey V} (hsub : ∀ q ∈ m, q ∈ participants)
    {key : PublicKey} (hkey : key ∈ participants) (hnew : key ∉ m) :
    m.size < participants.length := by
  have ho : m.keys ⊆ participants.erase key := by
    intro q hq
    have hmem := mem_keys.1 hq
    refine (mem_erase_of_ne ?_).2 (hsub q hmem)
    rintro rfl
    exact hnew hmem
  have hle := (nodup_keys.subperm ho).length_le
  rw [length_keys, length_erase_of_mem hkey] at hle
  have hpos := length_pos_of_mem hkey
  omega

/-- A participant among honest ones acknowledges what it gets, and counts the participants only. -/
structure Going (info : DkgInfo) (ceremonyId : B256) (seed : PublicKey → Option F.Seed)
    (key : PublicKey) (s : DkgParticipant F) : Prop where
  sound : DkgSound info ceremonyId seed key s
  player : ∃ state, s.player = some state ∧ PlayerWith info key s.acksSent state
  acked : ∀ q, q ∈ s.acksSent ↔ q ∈ s.dealerPubMsgs ∧ q ∈ s.dealerPrivMsgs
  pubMsgs : ∀ q ∈ s.dealerPubMsgs, q ∈ info.participants
  privMsgs : ∀ q ∈ s.dealerPrivMsgs, q ∈ info.participants
  logs : ∀ q log, s.dealerLogs[q]? = some log →
    q ∈ info.participants ∧ ∃ signed, F.check info signed = some (q, log)
  notFinalized : s.finalized = false
  sentReady : s.sentReady = true → key ∈ s.readyPlayers

section Going

variable {info : DkgInfo} {ceremonyId : B256} {seed : PublicKey → Option F.Seed} {key : PublicKey}
  {msgs : Set (ProtocolMessage F)} {s s' : DkgParticipant F}

theorem DkgSound.acked_tryProcessDealerMessages (hworks : Works F info)
    (h : DkgSound info ceremonyId seed key s)
    (hp : ∃ state, s.player = some state ∧ PlayerWith info key s.acksSent state)
    {dealer : PublicKey} (hnew : dealer ∉ s.acksSent)
    (ho : ∀ q ≠ dealer, (q ∈ s.acksSent ↔ q ∈ s.dealerPubMsgs ∧ q ∈ s.dealerPrivMsgs)) :
    (∃ state, (s.tryProcessDealerMessages dealer).player = some state ∧
        PlayerWith info key (s.tryProcessDealerMessages dealer).acksSent state) ∧
      ∀ q, q ∈ (s.tryProcessDealerMessages dealer).acksSent ↔
        q ∈ s.dealerPubMsgs ∧ q ∈ s.dealerPrivMsgs := by
  by_cases hb : dealer ∈ s.dealerPubMsgs ∧ dealer ∈ s.dealerPrivMsgs
  · obtain ⟨player, hp', hpw⟩ := hp
    have hpub := getElem?_eq_some_getElem hb.1
    have hpr := getElem?_eq_some_getElem hb.2
    obtain ⟨-, t, ht, hmsg⟩ := h.records dealer (.dealerPublic dealer _) ⟨rfl, hpub⟩
    obtain ⟨-, t', ht', hmem⟩ := h.records dealer (.dealerPrivate dealer _) ⟨rfl, hpr⟩
    obtain rfl := Option.some_inj.1 (ht.symm.trans ht')
    obtain ⟨state', ack, hack⟩ := hworks.ack dealer t key _ player _ hpw hnew hmem
    have hpw' := hpw.take hnew hmem
    rw [hack] at hpw'
    rw [hmsg] at hpub
    rw [DkgParticipant.tryProcessDealerMessages, hpub, hpr, hp']
    dsimp only
    rw [hack]
    refine ⟨⟨state', rfl, hpw'⟩, fun q => ?_⟩
    by_cases hq : q = dealer
    · rw [hq]
      exact iff_of_true (Finset.mem_insert_self _ _) hb
    · rw [← ho q hq]
      exact Finset.mem_insert.trans (or_iff_right hq)
  · -- the dealer is not counted yet
    have heq : s.tryProcessDealerMessages dealer = s := by
      rw [DkgParticipant.tryProcessDealerMessages]
      split
      next hpub hpr _ =>
        exact absurd ⟨mem_iff_isSome_getElem?.2 (hpub ▸ rfl), mem_iff_isSome_getElem?.2 (hpr ▸ rfl)⟩
          hb
      next => rfl
    rw [heq]
    refine ⟨hp, fun q => ?_⟩
    by_cases hq : q = dealer
    · rw [hq]
      exact iff_of_false hnew hb
    · exact ho q hq

theorem DkgParticipant.mem_foldl_queuePrivMsg {privMsgs : List (PublicKey × F.PrivMsg)}
    (h : s.config.publicKey ∈ s.dealerPrivMsgs ∨
      ∃ privMsg, (s.config.publicKey, privMsg) ∈ privMsgs) :
    s.config.publicKey ∈ (privMsgs.foldl queuePrivMsg s).dealerPrivMsgs := by
  induction privMsgs generalizing s with
  | nil =>
    rcases h with hmem | ⟨privMsg, hmem⟩
    · exact hmem
    · cases hmem
  | cons entry privMsgs ih =>
    have hc : (s.queuePrivMsg entry).config = s.config := by
      rw [queuePrivMsg]
      split_ifs <;> rfl
    rw [foldl_cons, ← hc]
    refine ih ?_
    rw [hc]
    by_cases he : entry.1 = s.config.publicKey
    · rw [queuePrivMsg, if_pos he]
      exact .inl mem_insert_self
    · rw [queuePrivMsg, if_neg he]
      refine h.imp id ?_
      rintro ⟨privMsg, hmem⟩
      refine ⟨privMsg, (mem_cons.1 hmem).resolve_left ?_⟩
      rintro rfl
      exact he rfl

variable {sender : PublicKey} (h : Going info ceremonyId seed key s)
include h

theorem Going.taken (hworks : Works F info) (hsn : sender ∈ info.participants)
    {kind : ProtocolMessageKind F} (hk : Genuine info seed sender key kind)
    (ht : Taken s sender kind s') :
    Going info ceremonyId seed key s' := by
  have hne {V : Type} {m : ExtTreeMap PublicKey V} {v : V} {q : PublicKey} (hq : q ≠ sender)
      (hmem : q ∈ m.insert sender v) : q ∈ m :=
    (mem_insert.1 hmem).resolve_left fun heq => hq (LawfulEqCmp.compare_eq_iff_eq.1 heq).symm
  have hiff {V : Type} {m : ExtTreeMap PublicKey V} {v : V} {q : PublicKey} (hq : q ≠ sender) :
      q ∈ m.insert sender v ↔ q ∈ m := ⟨hne hq, fun hmem => mem_insert.2 (.inr hmem)⟩
  have hi {V : Type} {m : ExtTreeMap PublicKey V} {v : V}
      (hm : ∀ q ∈ m, q ∈ info.participants) : ∀ q ∈ m.insert sender v, q ∈ info.participants := by
    intro q hq
    rcases eq_or_ne q sender with rfl | hqs
    · exact hsn
    · exact hm q (hne hqs hq)
  have hs := h.sound.taken hworks.accepts hsn hk ht
  have hl : ∀ q log, s'.dealerLogs[q]? = some log →
      q ∈ info.participants ∧ ∃ signed, F.check info signed = some (q, log) := by
    intro q log hget
    rcases ht.dealerLogs hget with hold | ⟨hq, signed, -, hc⟩
    · exact h.logs q log hold
    · rw [h.sound.info_eq] at hc
      exact ⟨(mem_info_participants h.sound.info_eq).2 (List.contains_iff_mem.1 hq), signed, hc⟩
  cases ht with
  | dealerPublic msg hsz hnew =>
    obtain ⟨hp, ha⟩ := (h.sound.insertPubMsg hk).acked_tryProcessDealerMessages hworks
      h.player (fun hmem => hnew ((h.acked sender).1 hmem).1)
      fun q hq => (h.acked q).trans (and_congr_left' (hiff hq).symm)
    obtain ⟨player, outgoing, acksSent, heq⟩ := tryProcessDealerMessages_eq _ sender
    rw [heq] at hs hl hp ha ⊢
    exact { h with sound := hs, player := hp, acked := ha, logs := hl,
                   pubMsgs := hi h.pubMsgs }
  | dealerPrivate msg hsz hnew =>
    obtain ⟨hp, ha⟩ := (h.sound.insertPrivMsg hk).acked_tryProcessDealerMessages hworks
      h.player (fun hmem => hnew ((h.acked sender).1 hmem).2)
      fun q hq => (h.acked q).trans (and_congr_right' (hiff hq).symm)
    obtain ⟨player, outgoing, acksSent, heq⟩ := tryProcessDealerMessages_eq _ sender
    rw [heq] at hs hl hp ha ⊢
    exact { h with sound := hs, player := hp, acked := ha, logs := hl,
                   privMsgs := hi h.privMsgs }
  | playerAck ack => exact { h with sound := hs }
  | dealerLog signed dealer log hc hd hsz hnew =>
    exact { h with sound := hs, logs := hl }
  | requestLogs => exact { h with sound := hs }
  | allLogs logs hld =>
    obtain ⟨dealerLogs, signedLogs, heq⟩ := recordLogs_eq s logs
    rw [heq] at hs hl ⊢
    exact { h with sound := hs, logs := hl }
  | ready =>
    exact { h with sound := hs,
                   sentReady := fun hst => Finset.mem_insert_of_mem (h.sentReady hst) }

theorem Going.done_handleMessage (hs : sender ∈ info.participants) {msg : ProtocolMessage F}
    (hk : Genuine info seed sender key msg.kind) (hlog : ∀ signed, msg.kind = .dealerLog signed →
      ∃ log, F.check info signed = some (sender, log)) :
    (s.handleMessage sender msg).1.Done msg.kind := by
  rcases handleMessage_cases s sender msg with hself | ⟨-, -, ht⟩
  swap
  · exact ht.done
  rw [hself]
  by_contra hd
  have hl := length_info_participants h.sound.info_eq
  have hp : s.isParticipant sender = true :=
    List.contains_iff_mem.2 ((mem_info_participants h.sound.info_eq).1 hs)
  have hch : s.Changes sender msg.kind := by
    refine ⟨hp, ?_⟩
    rcases msg with ⟨sessionId, kind⟩
    cases kind with
    | dealerPublic dealer msg =>
      obtain rfl : dealer = sender := hk.1
      exact ⟨rfl, hl ▸ size_lt_of_notMem h.pubMsgs hs hd, hd⟩
    | dealerPrivate dealer msg =>
      obtain rfl : dealer = sender := hk.1
      exact ⟨rfl, hl ▸ size_lt_of_notMem h.privMsgs hs hd, hd⟩
    | ready player =>
      obtain rfl : player = sender := hk
      exact ⟨rfl, hd⟩
    | dealerLog signed =>
      obtain ⟨log, hc⟩ := hlog signed rfl
      rw [← h.sound.info_eq] at hc
      have hnew : sender ∉ s.dealerLogs := fun hmem => hd ⟨sender, log, hc, hmem⟩
      refine ⟨sender, log, hc, hp, ?_, hnew⟩
      rw [← hl]
      refine size_lt_of_notMem (fun q hq => ?_) hs hnew
      exact (h.logs q _ (getElem?_eq_some_getElem hq)).1
    | _ => exact absurd trivial hd
  exact hch.records_ne msg.sessionId (by rw [hself])

/-- The messages in the duplicate filter have been recorded. -/
def Recorded (msgs : Set (ProtocolMessage F)) (s : DkgParticipant F) : Prop :=
  ∀ msg ∈ msgs, F.sha256 msg.toBytes ∈ s.seenMessages → s.Done msg.kind

theorem Going.deliver (hworks : Works F info) (hinj : msgs.InjOn fun msg => F.sha256 msg.toBytes)
    (hr : Recorded msgs s)
    (hsn : sender ∈ info.participants) {msg : ProtocolMessage F}
    (hrd : ProtocolMessage.fromBytes F msg.toBytes s.config.n = .ok msg)
    (hmsg : Sent info ceremonyId seed sender key msg)
    (hlog : ∀ signed, msg.kind = .dealerLog signed →
      ∃ log, F.check info signed = some (sender, log)) (hmem : msg ∈ msgs) :
    Going info ceremonyId seed key (s.handleMessageBytes sender msg.toBytes).1 ∧
      Recorded msgs (s.handleMessageBytes sender msg.toBytes).1 ∧
      (s.handleMessageBytes sender msg.toBytes).1.Done msg.kind := by
  rcases h.sound.delivery hrd hmsg with ⟨hs, heq⟩ | ⟨-, heq⟩
  · rw [heq]
    exact ⟨h, hr, hr msg hmem hs⟩
  have hm : Going info ceremonyId seed key (s.mark (F.sha256 msg.toBytes)) :=
    { h with sound := h.sound.mark _ }
  have hd := hm.done_handleMessage hsn hmsg.2 hlog
  have he := Extends.handleMessageBytes s sender msg.toBytes
  rw [heq] at he ⊢
  refine ⟨?_, ?_, hd⟩
  · rcases handleMessage_cases (s.mark (F.sha256 msg.toBytes)) sender msg with
      hself | ⟨-, -, ht⟩
    · rwa [hself]
    · exact hm.taken hworks hsn hmsg.2 ht
  · intro msg' hmem' hs'
    rw [(handleMessage_frame _ sender msg).2.2.1] at hs'
    rcases Finset.mem_insert.1 hs' with hsm | hold
    · -- no other message has this hash
      obtain rfl := hinj hmem' hmem hsm
      exact hd
    · exact (hr msg' hmem' hold).extend he.toIncludes

/-! ### Own steps -/

theorem Going.keeps (hk : Keeps s s')
    (hpl : s'.player = s.player) (hf : s'.finalized = s.finalized)
    (hsentReady : s'.sentReady = s.sentReady)
    (hp : ∀ c ∈ s'.pending, c ∈ s.pending) : Going info ceremonyId seed key s' := by
  have hpub : s'.dealerPubMsgs = s.dealerPubMsgs := congrArg Records.pubMsgs hk.records
  have hpr : s'.dealerPrivMsgs = s.dealerPrivMsgs := congrArg Records.privMsgs hk.records
  have hl : s'.dealerLogs = s.dealerLogs := congrArg Records.logs hk.records
  have hr : s'.readyPlayers = s.readyPlayers := congrArg Records.ready hk.records
  refine ⟨h.sound.keeps hk fun c hc => h.sound.pending c (hp c hc),
    ?_, ?_, ?_, ?_, ?_, ?_, ?_⟩
  · rw [hpl, hk.acksSent]
    exact h.player
  · rw [hpub, hpr, hk.acksSent]
    exact h.acked
  · rw [hpub]
    exact h.pubMsgs
  · rw [hpr]
    exact h.privMsgs
  · rw [hl]
    exact h.logs
  · rw [hf]
    exact h.notFinalized
  · rw [hsentReady, hr]
    exact h.sentReady

theorem Going.setPhase (phase : DkgPhase) : Going info ceremonyId seed key (s.setPhase phase) :=
  h.keeps (Keeps.setPhase s phase) rfl rfl rfl fun _ => id

theorem Going.takeOutgoing : Going info ceremonyId seed key s.takeOutgoing.1 :=
  h.keeps (Keeps.refl s).takeOutgoing rfl rfl rfl fun _ hc => absurd hc not_mem_nil

theorem Going.startDealer (hworks : Works F info) (hkey : key ∈ info.participants) {t : F.Seed}
    (ht : seed key = some t) (hnew : key ∉ s.acksSent) :
    Going info ceremonyId seed key (s.startDealer t) ∧ Includes s (s.startDealer t) ∧
      key ∈ (s.startDealer t).dealerPubMsgs ∧ key ∈ (s.startDealer t).dealerPrivMsgs := by
  have hs := h.sound.startDealer hworks.accepts hkey ht
  have hown : key ∈ (s.queueDealer t).dealerPrivMsgs := by
    obtain ⟨privMsg, hprivMsg⟩ := hworks.share key t key hkey
    rw [← h.sound.publicKey, ← h.sound.info_eq] at hprivMsg
    have hmem : (s.push none (.dealerPublic s.config.publicKey
        (F.start s.config.info s.config.publicKey t).2.1)).config.publicKey ∈
        (s.queueDealer t).dealerPrivMsgs := mem_foldl_queuePrivMsg (.inr ⟨privMsg, hprivMsg⟩)
    rw [← h.sound.publicKey]
    exact hmem
  have ho : ∀ q ≠ key, (s.queueDealer t).dealerPrivMsgs[q]? = s.dealerPrivMsgs[q]? := by
    intro q hq
    rw [← h.sound.publicKey] at hq
    exact getElem?_foldl_queuePrivMsg (s := s.push none _) hq _
  have hpr : ∀ q, q ∈ (s.queueDealer t).dealerPrivMsgs → q = key ∨ q ∈ s.dealerPrivMsgs := by
    intro q hq
    by_cases hqk : q = key
    · exact .inl hqk
    · rw [mem_iff_isSome_getElem?, ho q hqk] at hq
      exact .inr (mem_iff_isSome_getElem?.2 hq)
  obtain ⟨dealerPrivMsgs, outgoing, hqu⟩ := foldl_queuePrivMsg_eq
    (s.push none (.dealerPublic s.config.publicKey
      (F.start s.config.info s.config.publicKey t).2.1))
    (F.start s.config.info s.config.publicKey t).2.2
  obtain ⟨hp, hac, hpb⟩ : (s.dealing t).player = s.player ∧
      (s.dealing t).acksSent = s.acksSent ∧ (s.dealing t).dealerPubMsgs =
        s.dealerPubMsgs.insert s.config.publicKey
          (F.start s.config.info s.config.publicKey t).2.1 := by
    rw [dealing, queueDealer, hqu]
    exact ⟨rfl, rfl, rfl⟩
  have hpub : ∀ q, q ∈ s.dealerPubMsgs.insert s.config.publicKey
      (F.start s.config.info s.config.publicKey t).2.1 → q = key ∨ q ∈ s.dealerPubMsgs := by
    intro q hq
    refine (mem_insert.1 hq).imp_left fun heq => ?_
    rw [← LawfulEqCmp.compare_eq_iff_eq.1 heq]
    exact h.sound.publicKey
  obtain ⟨hp', ha⟩ := (h.sound.dealing ht).acked_tryProcessDealerMessages hworks
    (by rw [hp, hac]; exact h.player)
    (show s.config.publicKey ∉ _ by rwa [hac, h.sound.publicKey]) (by
      intro q hq
      rw [h.sound.publicKey] at hq
      rw [hpb, hac, h.acked q]
      refine and_congr ⟨fun hm => mem_insert.2 (.inr hm), fun hm => (hpub q hm).resolve_left hq⟩ ?_
      rw [mem_iff_isSome_getElem?, ← ho q hq, ← mem_iff_isSome_getElem?]
      rfl)
  rw [← startDealer_eq_dealing] at hp' ha
  rw [hpb] at ha
  obtain ⟨player, outgoing', acksSent, heq⟩ := startDealer_eq s t
  rw [heq] at hs hp' ha ⊢
  refine ⟨{ h with sound := hs, player := hp', acked := ha, pubMsgs := ?_,
                   privMsgs := ?_ }, { Includes.refl s with pubMsgs := ?_, privMsgs := ?_ }, ?_,
    hown⟩
  · intro q hq
    rcases hpub q hq with rfl | hold
    · exact hkey
    · exact h.pubMsgs q hold
  · intro q hq
    rcases hpr q hq with rfl | hold
    · exact hkey
    · exact h.privMsgs q hold
  · exact fun q hq => mem_insert.2 (.inr hq)
  · intro q hq
    by_cases hqk : q = key
    · exact hqk ▸ hown
    · rw [mem_iff_isSome_getElem?] at hq ⊢
      rwa [ho q hqk]
  · rw [← h.sound.publicKey]
    exact mem_insert_self

theorem Going.broadcastReady (hkey : key ∈ info.participants) :
    Going info ceremonyId seed key s.broadcastReady ∧ Includes s s.broadcastReady ∧
      key ∈ s.broadcastReady.readyPlayers ∧ s.broadcastReady.dealer = s.dealer := by
  have hs := h.sound.broadcastReady hkey
  rw [DkgParticipant.broadcastReady] at hs ⊢
  split_ifs at hs ⊢ with hsn
  · exact ⟨h, Includes.refl s, h.sentReady hsn, rfl⟩
  · have hmem : key ∈ insert s.config.publicKey s.readyPlayers := by
      rw [h.sound.publicKey]
      exact Finset.mem_insert_self _ _
    exact ⟨{ h with sound := hs, sentReady := fun _ => hmem },
      { Includes.refl s with readyPlayers := Finset.subset_insert _ _ }, hmem, rfl⟩

theorem Going.finalizeDealer (hworks : Works F info) (hkey : key ∈ info.participants)
    (hd : s.dealer.isSome = true) :
    ∃ s', s.finalizeDealer = (s', .ok ()) ∧ Going info ceremonyId seed key s' ∧ Includes s s' ∧
      key ∈ s'.dealerLogs ∧ s'.ourSignedLog.isSome = true ∧ s'.acksSent = s.acksSent := by
  obtain ⟨own, hown⟩ := Option.isSome_iff_exists.1 hd
  obtain ⟨t, ht, hsc⟩ := h.sound.secret own hown
  have hs := h.sound.finalizeDealer
  obtain ⟨log, hc⟩ := hworks.log key t own.acks.toList
  rw [← hsc, ← h.sound.info_eq] at hc
  rw [DkgParticipant.finalizeDealer, hown] at hs ⊢
  dsimp only at hs ⊢
  rw [Dealer.finalize, hc] at hs ⊢
  refine ⟨_, rfl, { h with sound := hs, logs := ?_ },
    { Includes.refl s with logs := fun q hq => mem_insert.2 (.inr hq) },
    ExtTreeMap.mem_insert_self, rfl, rfl⟩
  intro q log' hget
  rcases getElem?_insert_cases hget with hold | ⟨rfl, rfl⟩
  · exact h.logs q log' hold
  · rw [h.sound.info_eq] at hc
    exact ⟨hkey, _, hc⟩

theorem Going.finalize (hworks : Works F info) (ha : ∀ q ∈ info.participants, q ∈ s.acksSent)
    (hl : ∀ q ∈ info.participants, q ∈ s.dealerLogs)
    (hf : s.canFinalize = true) :
    ∃ s' out, s.finalize = (s', .ok out) ∧ s'.ourSignedLog = s.ourSignedLog := by
  obtain ⟨player, hp, hpw⟩ := h.player
  have hch : ∀ entry ∈ s.dealerLogs.toList, ∃ signed, F.check info signed = some entry := by
    intro entry he
    exact (h.logs entry.1 entry.2 (mem_toList_iff_getElem?_eq_some.1 he)).2
  have hc : ∀ q ∈ info.participants, ∃ log, (q, log) ∈ s.dealerLogs.toList := by
    intro q hq
    exact ⟨_, mem_toList_iff_getElem?_eq_some.2
      (getElem?_eq_some_getElem (hl q hq))⟩
  obtain ⟨ho, hs⟩ := hworks.finish key _ player _ hpw ha hch hc
  obtain ⟨group, hg⟩ := Option.isSome_iff_exists.1 ho
  obtain ⟨share, hs⟩ := Option.isSome_iff_exists.1 hs
  rw [← h.sound.info_eq] at hg hs
  refine ⟨{ s with player := none, finalized := true },
    ⟨group, s.config.t, s.config.n, share, s.config.participants⟩, ?_, rfl⟩
  rw [DkgParticipant.finalize, h.notFinalized, hf, hp]
  simp [hg, hs]

end Going

/-! ### Where a participant can get to -/

/-- The node can get to another state with some events. -/
def NodeReaches (P : NodeEvent F → Prop) (node node' : CeremonyNode F) : Prop :=
  ∃ events : List (NodeEvent F), (∀ event ∈ events, P event) ∧
    events.foldl CeremonyNode.handle node = node'

section NodeReaches

variable {P : NodeEvent F → Prop} {node node' node'' : CeremonyNode F}

theorem NodeReaches.refl (node : CeremonyNode F) : NodeReaches P node node :=
  ⟨[], fun _ he => absurd he not_mem_nil, rfl⟩

theorem NodeReaches.trans (h : NodeReaches P node node') (h' : NodeReaches P node' node'') :
    NodeReaches P node node'' := by
  obtain ⟨events, hev, rfl⟩ := h
  obtain ⟨events', hev', rfl⟩ := h'
  refine ⟨events ++ events', ?_, foldl_append⟩
  intro event he
  rcases mem_append.1 he with he | he
  · exact hev event he
  · exact hev' event he

theorem NodeReaches.event {event : NodeEvent F} (he : P event) (h : node.handle event = node') :
    NodeReaches P node node' := by
  refine ⟨[event], fun _ hmem => ?_, h⟩
  rwa [mem_singleton.1 hmem]

variable (hP : ∀ input, P (.act input)) {s : DkgParticipant F} {skip : Bool}
include hP

theorem reaches_sent (next : Pc) (sending : List (PublicKey × ProtocolMessage F)) :
    NodeReaches P ⟨s, .send next, sending, skip⟩ ⟨s, next, [], skip⟩ := by
  induction sending with
  | nil => exact .event (hP .proceed) rfl
  | cons entry sending ih => exact .trans (.event (hP .proceed) rfl) ih

theorem reaches_receive (loop : Loop) :
    NodeReaches P ⟨s, .head loop, [], skip⟩ ⟨s, .receive loop, [], skip⟩ :=
  .event (hP .proceed) rfl

theorem reaches_next {loop : Loop}
    (hd : CeremonyNode.isDone ⟨s, .receive loop, [], skip⟩ loop = true) :
    NodeReaches P ⟨s, .receive loop, [], skip⟩ ⟨s.takeOutgoing.1,
      CeremonyNode.next ⟨s, .receive loop, [], skip⟩ loop, [], skip⟩ := by
  have ht : NodeReaches P ⟨s, .receive loop, [], skip⟩
      (CeremonyNode.takeOutgoing ⟨s, .receive loop, [], skip⟩ (.test loop)) :=
    .event (hP .proceed) rfl
  refine ht.trans (.trans (reaches_sent hP (.test loop) _) (.event (hP .proceed) ?_))
  have hd' : CeremonyNode.isDone ⟨s.takeOutgoing.1, .test loop, [], skip⟩ loop = true := by
    cases loop <;> exact hd
  show CeremonyNode.mk s.takeOutgoing.1 (if CeremonyNode.isDone ⟨s.takeOutgoing.1, .test loop, [],
    skip⟩ loop then _ else _) [] skip = _
  rw [if_pos hd']
  cases loop <;> rfl

end NodeReaches

/-- What another honest participant says, with the dealers' randomness and acknowledgements. -/
inductive Offered (info : DkgInfo) (seed : PublicKey → F.Seed)
    (acks : PublicKey → List (PublicKey × F.Ack)) (receiver sender : PublicKey) :
    ProtocolMessageKind F → Prop where
  | dealerPublic : Offered info seed acks receiver sender
      (.dealerPublic sender (F.start info sender (seed sender)).2.1)
  | dealerPrivate (msg : F.PrivMsg)
      (hmsg : (receiver, msg) ∈ (F.start info sender (seed sender)).2.2) :
      Offered info seed acks receiver sender (.dealerPrivate sender msg)
  | ready : Offered info seed acks receiver sender (.ready sender)
  | dealerLog : Offered info seed acks receiver sender
      (.dealerLog (F.finalizeDealer (F.start info sender (seed sender)).1 (acks sender)))

/-- What an honest participant can say to another at all. -/
def CanSend (info : DkgInfo) (seed : PublicKey → F.Seed) (sender receiver : PublicKey)
    (kind : ProtocolMessageKind F) : Prop :=
  Genuine info (fun q => some (seed q)) sender receiver kind ∧
    ∀ signed ∈ kind.signedLogs, ∃ dealer acks,
      signed = F.finalizeDealer (F.start info dealer (seed dealer)).1 acks

theorem Offered.canSend {info : DkgInfo} {seed : PublicKey → F.Seed}
    {acks : PublicKey → List (PublicKey × F.Ack)} {receiver sender : PublicKey}
    {kind : ProtocolMessageKind F} (h : Offered info seed acks receiver sender kind) :
    CanSend info seed sender receiver kind := by
  cases h with
  | dealerPublic => exact ⟨⟨rfl, _, rfl, rfl⟩, fun signed hmem => absurd hmem not_mem_nil⟩
  | dealerPrivate msg hmsg =>
    exact ⟨⟨rfl, _, rfl, hmsg⟩, fun signed hmem => absurd hmem not_mem_nil⟩
  | ready => exact ⟨rfl, fun signed hmem => absurd hmem not_mem_nil⟩
  | dealerLog =>
    refine ⟨trivial, fun signed hmem => ⟨sender, acks sender, ?_⟩⟩
    exact mem_singleton.1 hmem

/-- The participant goes on, and gets messages that the others can send. -/
def NodeEvent.FromOthers (info : DkgInfo) (ceremonyId : B256) (seed : PublicKey → F.Seed)
    (key : PublicKey) : NodeEvent F → Prop
  | .act _ => True
  | .deliver sender bytes => sender ∈ info.participants ∧ sender ≠ key ∧
      ∃ kind, CanSend info seed sender key kind ∧
        bytes = (ProtocolMessage.new ceremonyId kind).toBytes

/-- The messages that the others offer to a participant. -/
def offeredMessages (info : DkgInfo) (ceremonyId : B256) (seed : PublicKey → F.Seed)
    (acks : PublicKey → List (PublicKey × F.Ack)) (key : PublicKey) : Set (ProtocolMessage F) :=
  {msg | ∃ sender ∈ info.participants, sender ≠ key ∧
    ∃ kind, Offered info seed acks key sender kind ∧ msg = .new ceremonyId kind}

theorem Recorded.keep {msgs : Set (ProtocolMessage F)} {s s' : DkgParticipant F}
    (h : Recorded msgs s) (hi : Includes s s') (hs : s'.seenMessages = s.seenMessages) :
    Recorded msgs s' := by
  intro msg hmem hmsg
  rw [hs] at hmsg
  exact (h msg hmem hmsg).extend hi

theorem length_le_card (hn : participants.Nodup) {keys : Finset PublicKey}
    (h : ∀ q ∈ participants, q ∈ keys) : participants.length ≤ keys.card := by
  rw [← toFinset_card_of_nodup hn]
  exact Finset.card_le_card fun q hq => h q (mem_toFinset.1 hq)

section Finishes

variable (info : DkgInfo) (ceremonyId : B256) (seed : PublicKey → F.Seed)
  (acks : PublicKey → List (PublicKey × F.Ack)) (key : PublicKey)

/-- The participant is going, and has recorded what it got of the offers. -/
structure OnCourse (s : DkgParticipant F) : Prop where
  going : Going info ceremonyId (fun q => some (seed q)) key s
  recorded : Recorded (offeredMessages info ceremonyId seed acks key) s

/-- From one instruction to another, with nothing left to send at both. -/
abbrev GetsTo (s : DkgParticipant F) (pc : Pc) (s' : DkgParticipant F) (pc' : Pc) : Prop :=
  NodeReaches (NodeEvent.FromOthers info ceremonyId seed key) ⟨s, pc, [], false⟩
    ⟨s', pc', [], false⟩

variable {info ceremonyId seed acks key}

theorem NodeReaches.act {node node' : CeremonyNode F} (input : NodeInput F)
    (h : node.handle (.act input) = node') :
    NodeReaches (NodeEvent.FromOthers info ceremonyId seed key) node node' :=
  .event (show NodeEvent.FromOthers info ceremonyId seed key (.act input) from trivial) h

variable {s : DkgParticipant F} (hworks : Works F info) (hkey : key ∈ info.participants)
  (hinj : (offeredMessages info ceremonyId seed acks key).InjOn fun msg => F.sha256 msg.toBytes)
  (hfits : ∀ msg ∈ offeredMessages info ceremonyId seed acks key,
    ProtocolMessage.KindFits info.participants.length msg.kind)
  (h : OnCourse info ceremonyId seed acks key s)
include hworks hkey hinj hfits h

theorem reaches_deliver (loop : Loop) {offers : List (PublicKey × ProtocolMessageKind F)}
    (hof : ∀ offer ∈ offers, offer.1 ∈ info.participants ∧ offer.1 ≠ key ∧
      Offered info seed acks key offer.1 offer.2) :
    ∃ s', GetsTo info ceremonyId seed key s (.receive loop) s' (.receive loop) ∧
      OnCourse info ceremonyId seed acks key s' ∧ Extends s s' ∧
      ∀ offer ∈ offers, s'.Done offer.2 := by
  induction offers generalizing s with
  | nil => exact ⟨s, .refl _, h, .refl s, fun offer hor => absurd hor not_mem_nil⟩
  | cons offer offers ih =>
    obtain ⟨hf, hrs⟩ := forall_mem_cons.1 hof
    obtain ⟨hs, hne, ho⟩ := hf
    have hmem : new ceremonyId offer.2 ∈
        offeredMessages info ceremonyId seed acks key := ⟨offer.1, hs, hne, _, ho, rfl⟩
    have hr : fromBytes F (new ceremonyId offer.2).toBytes
        s.config.n = .ok (.new ceremonyId offer.2) := by
      have hpos : 0 < info.participants.length := length_pos_of_mem hkey
      have hr := fromBytes_toBytes hpos (hfits _ hmem) []
      rwa [append_nil, length_info_participants h.going.sound.info_eq] at hr
    have hlog : ∀ signed, offer.2 = .dealerLog signed →
        ∃ log, F.check info signed = some (offer.1, log) := by
      intro signed hk
      rw [hk] at ho
      cases ho with
      | dealerLog => exact hworks.log offer.1 (seed offer.1) (acks offer.1)
    obtain ⟨hg, hrc, hd⟩ := h.going.deliver hworks hinj h.recorded hs hr
      ⟨rfl, ho.canSend.1⟩ hlog hmem
    have he := Extends.handleMessageBytes s offer.1
      (new ceremonyId offer.2).toBytes
    obtain ⟨s', hrh, hs', he', hd'⟩ := ih ⟨hg, hrc⟩ hrs
    have hev : NodeEvent.FromOthers info ceremonyId seed key
        (.deliver offer.1 (new ceremonyId offer.2).toBytes) :=
      ⟨hs, hne, offer.2, ho.canSend, rfl⟩
    refine ⟨s', .trans (.event hev rfl) hrh, hs', he.trans he', ?_⟩
    refine forall_mem_cons.2 ⟨?_, hd'⟩
    exact hd.extend he'.toIncludes

theorem reaches_offers (loop : Loop) (kinds : PublicKey → List (ProtocolMessageKind F))
    (hkn : ∀ q, ∀ kind ∈ kinds q, Offered info seed acks key q kind) :
    ∃ s', GetsTo info ceremonyId seed key s (.receive loop) s' (.receive loop) ∧
      OnCourse info ceremonyId seed acks key s' ∧ Extends s s' ∧
      ∀ q ∈ info.participants, q ≠ key → ∀ kind ∈ kinds q, s'.Done kind := by
  let offers := (info.participants.filter (· ≠ key)).flatMap fun q => (kinds q).map ((q, ·))
  have hof : ∀ offer ∈ offers, offer.1 ∈ info.participants ∧ offer.1 ≠ key ∧
      Offered info seed acks key offer.1 offer.2 := by
    intro offer ho
    obtain ⟨q, hq, ho⟩ := mem_flatMap.1 ho
    obtain ⟨hmem, hne⟩ := List.mem_filter.1 hq
    obtain ⟨kind, hk, rfl⟩ := List.mem_map.1 ho
    exact ⟨hmem, of_decide_eq_true hne, hkn q kind hk⟩
  obtain ⟨s', hr, hs', he, hd⟩ :=
    reaches_deliver hworks hkey hinj hfits h loop hof
  refine ⟨s', hr, hs', he, fun q hq hne kind hk => ?_⟩
  refine hd (q, kind) (mem_flatMap.2 ⟨q, List.mem_filter.2 ⟨hq, decide_eq_true hne⟩, ?_⟩)
  exact List.mem_map.2 ⟨kind, hk, rfl⟩

/-- **Phases 1 and 2.** -/
theorem reaches_enter_ready (hnd : info.participants.Nodup) (hnew : key ∉ s.acksSent) :
    ∃ s', GetsTo info ceremonyId seed key s .start s' (.enter .ready) ∧
      OnCourse info ceremonyId seed acks key s' ∧ s'.dealer.isSome = true ∧
      ∀ q ∈ info.participants, q ∈ s'.acksSent := by
  obtain ⟨hg, hi, hpub, hp⟩ := h.going.startDealer hworks hkey rfl hnew
  have hd : (s.startDealer (seed key)).dealer.isSome = true := startDealer_isSome s (seed key)
  have hsn : (s.startDealer (seed key)).seenMessages = s.seenMessages :=
    (act_frame s (.startDealer (seed key))).2.2
  have hr := h.recorded.keep hi hsn
  generalize hs₁ : s.startDealer (seed key) = s₁ at hg hpub hp hd hr
  -- the dealer is started, its messages are sent
  let s₂ := ((s₁.setPhase .dealerStarted).takeOutgoing.1).setPhase .collectingMessages
  have hs : GetsTo info ceremonyId seed key s .start s₂ (.receive .phase2) := by
    have hf : NodeReaches (NodeEvent.FromOthers info ceremonyId seed key) ⟨s, .start, [], false⟩
        ⟨(s₁.setPhase .dealerStarted).takeOutgoing.1, .send (.enter .phase2), _, false⟩ :=
      .act (.seed (seed key)) (by rw [← hs₁]; rfl)
    refine hf.trans (.trans (reaches_sent (fun _ => trivial) _ _) ?_)
    exact .trans (.act .proceed rfl) (reaches_receive (fun _ => trivial) .phase2)
  -- the messages of the other dealers arrive
  choose share hsh using fun q => hworks.share q (seed q) key hkey
  obtain ⟨s₃, hrc, hs₃, he, hdn⟩ := reaches_offers hworks hkey hinj hfits
    (s := s₂) ⟨((hg.setPhase _).takeOutgoing).setPhase _, hr⟩ .phase2
    (fun q => [.dealerPublic q (F.start info q (seed q)).2.1, .dealerPrivate q (share q)])
    (fun q => forall_mem_cons.2 ⟨.dealerPublic, forall_mem_singleton.2
      (.dealerPrivate (share q) (hsh q))⟩)
  have hb : ∀ q ∈ info.participants, q ∈ s₃.dealerPubMsgs ∧ q ∈ s₃.dealerPrivMsgs := by
    intro q hq
    rcases eq_or_ne q key with rfl | hqk
    · exact ⟨he.pubMsgs q hpub, he.privMsgs q hp⟩
    · obtain ⟨hqb, hqp⟩ := forall_mem_cons.1 (hdn q hq hqk)
      exact ⟨hqb, hqp _ mem_cons_self⟩
  have ha : ∀ q ∈ info.participants, q ∈ s₃.acksSent := fun q hq => (hs₃.going.acked q).2 (hb q hq)
  have hn : s₃.config.n = info.participants.length :=
    (length_info_participants hs₃.going.sound.info_eq).symm
  have hisDone : CeremonyNode.isDone ⟨s₃, .receive .phase2, [], false⟩ .phase2 = true := by
    refine decide_eq_true ⟨?_, ?_⟩
    · show s₃.config.n ≤ s₃.receivedDealerCount
      rw [hn, receivedDealerCount]
      refine hnd.length_le_of_subset fun q hq => List.mem_filter.2 ⟨?_, ?_⟩
      · exact mem_keys.2 (hb q hq).1
      · exact contains_iff_mem.2 (hb q hq).2
    · show s₃.config.n ≤ s₃.acksSent.card
      rw [hn]
      exact length_le_card hnd ha
  exact ⟨s₃.takeOutgoing.1, hs.trans (hrc.trans (reaches_next (fun _ => trivial) hisDone)),
    ⟨hs₃.going.takeOutgoing, hs₃.recorded⟩, he.dealer hd, ha⟩

/-- **Phase 2.5.** -/
theorem reaches_finalizeDealer (hn : info.participants.Nodup)
    (hd : s.dealer.isSome = true) :
    ∃ s', GetsTo info ceremonyId seed key s (.enter .ready) s' .finalizeDealer ∧
      OnCourse info ceremonyId seed acks key s' ∧ s'.dealer.isSome = true ∧
      s.acksSent ⊆ s'.acksSent := by
  obtain ⟨hg, hi, hrd, hsm⟩ := h.going.broadcastReady hkey
  have hr := h.recorded.keep hi (act_frame s .broadcastReady).2.2
  have hs : GetsTo info ceremonyId seed key s (.enter .ready)
      s.broadcastReady.takeOutgoing.1 (.receive .ready) := by
    have hf : NodeReaches (NodeEvent.FromOthers info ceremonyId seed key)
        ⟨s, .enter .ready, [], false⟩
        ⟨s.broadcastReady.takeOutgoing.1, .send (.head .ready), _, false⟩ :=
      .act .proceed rfl
    exact hf.trans (.trans (reaches_sent (fun _ => trivial) _ _)
      (reaches_receive (fun _ => trivial) .ready))
  obtain ⟨s₂, hrc, hs₂, he, hdn⟩ := reaches_offers hworks hkey hinj hfits
    ⟨hg.takeOutgoing, hr⟩ .ready (fun q => [.ready q])
    (fun q => forall_mem_singleton.2 .ready)
  have hall : ∀ q ∈ info.participants, q ∈ s₂.readyPlayers := by
    intro q hq
    rcases eq_or_ne q key with rfl | hqk
    · exact he.readyPlayers hrd
    · exact hdn q hq hqk _ mem_cons_self
  have hisDone : CeremonyNode.isDone ⟨s₂, .receive .ready, [], false⟩ .ready = true := by
    refine decide_eq_true ?_
    show s₂.config.n ≤ s₂.readyPlayers.card
    rw [← length_info_participants hs₂.going.sound.info_eq]
    exact length_le_card hn hall
  have ha : s.acksSent = s.broadcastReady.takeOutgoing.1.acksSent := by
    rw [DkgParticipant.broadcastReady]
    split_ifs <;> rfl
  have hd' : s₂.dealer.isSome = true := by
    refine he.dealer ?_
    show s.broadcastReady.dealer.isSome = true
    rwa [hsm]
  exact ⟨s₂.takeOutgoing.1, hs.trans (hrc.trans (reaches_next (fun _ => trivial) hisDone)),
    ⟨hs₂.going.takeOutgoing, hs₂.recorded⟩, hd', ha.trans_subset he.acksSent⟩

omit hinj hfits in
/-- **Phase 3.** -/
theorem reaches_enter_phase4 (hd : s.dealer.isSome = true) :
    ∃ s', GetsTo info ceremonyId seed key s .finalizeDealer s' (.enter .phase4) ∧
      OnCourse info ceremonyId seed acks key s' ∧ key ∈ s'.dealerLogs ∧
      s'.ourSignedLog.isSome = true ∧ s'.acksSent = s.acksSent := by
  obtain ⟨s₁, hf, hg, hi, hlog, hown, ha⟩ :=
    h.going.finalizeDealer hworks hkey hd
  have hs : s₁.seenMessages = s.seenMessages := by
    have hfr := (act_frame s .finalizeDealer).2.2
    rwa [act, hf] at hfr
  have hr := h.recorded.keep hi hs
  have hfs : NodeReaches (NodeEvent.FromOthers info ceremonyId seed key)
      ⟨s, .finalizeDealer, [], false⟩
      (CeremonyNode.takeOutgoing ⟨s₁, .finalizeDealer, [], false⟩ .dealerFinalized) := by
    refine .act .proceed ?_
    rw [CeremonyNode.handle, CeremonyNode.step.eq_def]
    simp only [hf]
  refine ⟨s₁.takeOutgoing.1.setPhase .dealerFinalized, ?_,
    ⟨hg.takeOutgoing.setPhase _, hr⟩, hlog, hown, ha⟩
  exact hfs.trans (.trans (reaches_sent (fun _ => trivial) _ _) (.act .proceed rfl))

/-- **Phases 4 and 5.** -/
theorem reaches_of_enter_phase4 (hn : info.participants.Nodup) (hlog : key ∈ s.dealerLogs)
    (hown : s.ourSignedLog.isSome = true) (ha : ∀ q ∈ info.participants, q ∈ s.acksSent) :
    ∃ s', GetsTo info ceremonyId seed key s (.enter .phase4) s' .finished ∧
      s'.ourSignedLog.isSome = true := by
  have hs : GetsTo info ceremonyId seed key s (.enter .phase4) (s.setPhase .collectingLogs)
      (.receive .phase4) :=
    .trans (.act .proceed rfl) (reaches_receive (fun _ => trivial) .phase4)
  obtain ⟨s₁, hr, hs₁, he, hd⟩ := reaches_offers hworks hkey hinj hfits
    ⟨h.going.setPhase .collectingLogs, h.recorded⟩ .phase4
    (fun q => [.dealerLog (F.finalizeDealer (F.start info q (seed q)).1 (acks q))])
    (fun q => forall_mem_singleton.2 .dealerLog)
  have hi := hs₁.going.sound.info_eq
  have hall : ∀ q ∈ info.participants, q ∈ s₁.dealerLogs := by
    intro q hq
    rcases eq_or_ne q key with rfl | hqk
    · exact he.logs q hlog
    · obtain ⟨dealer, log, hc, hmem⟩ := hd q hq hqk _ mem_cons_self
      obtain ⟨log', hc'⟩ := hworks.log q (seed q) (acks q)
      rw [hi, hc'] at hc
      obtain ⟨rfl, -⟩ := Prod.mk.inj (Option.some_inj.1 hc)
      exact hmem
  have hf : s₁.canFinalize = true := by
    refine decide_eq_true ?_
    show s₁.config.n ≤ s₁.dealerLogs.size
    rw [← length_info_participants hi, ← length_keys]
    exact hn.length_le_of_subset fun q hq => ExtTreeMap.mem_keys.2 (hall q hq)
  have hisDone : CeremonyNode.isDone ⟨s₁, .receive .phase4, [], false⟩ .phase4 = true := hf
  obtain ⟨s₂, out, hfn, hsm⟩ := hs₁.going.takeOutgoing.finalize hworks
    (fun q hq => he.acksSent (ha q hq)) hall hf
  refine ⟨s₂.setPhase .completed, hs.trans (hr.trans
    ((reaches_next (fun _ => trivial) hisDone).trans (.act .proceed ?_))), ?_⟩
  · rw [CeremonyNode.handle, CeremonyNode.next, CeremonyNode.step.eq_def]
    simp only [hfn]
  · show s₂.ourSignedLog.isSome = true
    rw [hsm]
    show s₁.ourSignedLog.isSome = true
    rwa [he.ourSignedLog]

theorem reaches_finished (hn : info.participants.Nodup) (hnew : key ∉ s.acksSent) :
    ∃ s', GetsTo info ceremonyId seed key s .start s' .finished ∧
      s'.ourSignedLog.isSome = true := by
  obtain ⟨s₁, hr₁, h₁, hd₁, ha₁⟩ := reaches_enter_ready hworks hkey hinj hfits h hn hnew
  obtain ⟨s₂, hr₂, h₂, hd₂, ha₂⟩ :=
    reaches_finalizeDealer hworks hkey hinj hfits h₁ hn hd₁
  obtain ⟨s₃, hr₃, h₃, hlog, hown, ha₃⟩ := reaches_enter_phase4 hworks hkey h₂ hd₂
  obtain ⟨s₄, hr₄, hown₄⟩ := reaches_of_enter_phase4 hworks hkey hinj hfits h₃ hn hlog hown
    fun q hq => ha₃ ▸ ha₂ (ha₁ q hq)
  exact ⟨s₄, hr₁.trans (hr₂.trans (hr₃.trans hr₄)), hown₄⟩

end Finishes

end Kora
