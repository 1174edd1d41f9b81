/-
The state of a participant of the ceremony under arbitrary messages
(`node/dkg/src/protocol.rs`).

Whatever bytes arrive under whatever keys, a participant that has started its dealer
records at most one message of each kind for a participant, never replaces it, and
acknowledges each dealer at most once (`participant_orderly`).
-/
import Kora.DkgHonest
import Kora.OrderedMap

open Std List ExtTreeMap

namespace Kora

variable {F : Feldman} {s s' : DkgParticipant F} {sender dealer : PublicKey}

namespace DkgParticipant

def isAckFor (dealer : PublicKey) : ProtocolMessageKind F → Bool
  | .playerAck _ dealer' _ => dealer' = dealer
  | _ => false

/-- The acknowledgements for a dealer in the queue. -/
def queuedAcks (self : DkgParticipant F) (dealer : PublicKey) : ℕ :=
  self.outgoing.countP fun entry => isAckFor dealer entry.2.kind

theorem queuedAcks_push (s : DkgParticipant F) (target : Option PublicKey)
    (kind : ProtocolMessageKind F) (key : PublicKey) : (s.push target kind).queuedAcks key =
      s.queuedAcks key + if isAckFor key kind = true then 1 else 0 := by
  rw [queuedAcks, push, countP_append, countP_singleton]
  rfl

/-- Only participants are recorded, logs have signatures, and a dealer is acknowledged once, after
its two messages. -/
structure Orderly (s : DkgParticipant F) : Prop where
  pubMsgs : ∀ key ∈ s.dealerPubMsgs, key ∈ s.config.participants
  privMsgs : ∀ key ∈ s.dealerPrivMsgs, key ∈ s.config.participants
  logs : ∀ key ∈ s.dealerLogs, key ∈ s.config.participants
  readyPlayers : ∀ key ∈ s.readyPlayers, key ∈ s.config.participants
  acksSent : ∀ key ∈ s.acksSent, key ∈ s.config.participants
  signed : ∀ key, key ∈ s.signedLogs ↔ key ∈ s.dealerLogs
  queued : ∀ key, s.queuedAcks key = if key ∈ s.acksSent then 1 else 0
  both : ∀ key ∈ s.acksSent, key ∈ s.dealerPubMsgs ∧ key ∈ s.dealerPrivMsgs

/-- What is recorded stays as it is. -/
structure Kept (s s' : DkgParticipant F) : Prop where
  pubMsgs : ∀ (key : PublicKey) msg,
    s.dealerPubMsgs[key]? = some msg → s'.dealerPubMsgs[key]? = some msg
  privMsgs : ∀ (key : PublicKey) msg,
    s.dealerPrivMsgs[key]? = some msg → s'.dealerPrivMsgs[key]? = some msg
  logs : ∀ (key : PublicKey) log, s.dealerLogs[key]? = some log → s'.dealerLogs[key]? = some log
  signedLogs : ∀ (key : PublicKey) log,
    s.signedLogs[key]? = some log → s'.signedLogs[key]? = some log

theorem Kept.refl (s : DkgParticipant F) : Kept s s :=
  ⟨fun _ _ => id, fun _ _ => id, fun _ _ => id, fun _ _ => id⟩

theorem Kept.trans {s'' : DkgParticipant F} (h : Kept s s') (h' : Kept s' s'') : Kept s s'' where
  pubMsgs key msg hm := h'.pubMsgs key msg (h.pubMsgs key msg hm)
  privMsgs key msg hm := h'.privMsgs key msg (h.privMsgs key msg hm)
  logs key log hl := h'.logs key log (h.logs key log hl)
  signedLogs key log hl := h'.signedLogs key log (h.signedLogs key log hl)

theorem mem_insert_participants {V : Type} {m : ExtTreeMap PublicKey V} {key : PublicKey} {v : V}
    {l : List PublicKey} (hm : ∀ k ∈ m, k ∈ l) (hkey : key ∈ l) : ∀ k ∈ m.insert key v, k ∈ l := by
  intro k hk
  rcases mem_insert.1 hk with heq | hk
  · rwa [← LawfulEqCmp.compare_eq_iff_eq.1 heq]
  · exact hm k hk

namespace Orderly

variable (h : Orderly s)
include h

/-! ### Parts of a step -/

theorem push {kind : ProtocolMessageKind F} (hk : ∀ key, isAckFor key kind = false)
    (target : Option PublicKey) : Orderly (s.push target kind) where
  __ := h
  queued key := by
    rw [queuedAcks_push, h.queued, hk key]
    rfl

theorem insertPubMsg (hd : dealer ∈ s.config.participants) (msg : F.PubMsg) :
    Orderly { s with dealerPubMsgs := s.dealerPubMsgs.insert dealer msg } where
  __ := h
  pubMsgs := mem_insert_participants h.pubMsgs hd
  both key hk := ⟨mem_insert.2 (.inr (h.both key hk).1), (h.both key hk).2⟩

theorem insertPrivMsg (hd : dealer ∈ s.config.participants) (msg : F.PrivMsg) :
    Orderly { s with dealerPrivMsgs := s.dealerPrivMsgs.insert dealer msg } where
  __ := h
  privMsgs := mem_insert_participants h.privMsgs hd
  both key hk := ⟨(h.both key hk).1, mem_insert.2 (.inr (h.both key hk).2)⟩

theorem recordLog (hd : dealer ∈ s.config.participants) (log : F.Log) (signed : F.SignedLog) :
    Orderly (s.recordLog dealer log signed) where
  __ := h
  logs := mem_insert_participants h.logs hd
  signed key := by
    show key ∈ s.signedLogs.insert dealer signed ↔ key ∈ s.dealerLogs.insert dealer log
    rw [mem_insert, mem_insert, h.signed key]

theorem tryProcessDealerMessages (hd : dealer ∈ s.config.participants)
    (hnew : dealer ∉ s.acksSent) : Orderly (s.tryProcessDealerMessages dealer) := by
  rcases tryProcessDealerMessages_cases s dealer with
    ⟨player, heq, -⟩ | ⟨old, pubMsg, privMsg, player, ack, -, hpub, hpriv, -, heq⟩
  · rw [heq]
    exact { h with }
  rw [heq]
  refine { h with acksSent := ?_, queued := fun key => ?_, both := ?_ }
  · exact Finset.forall_mem_insert .. |>.2 ⟨hd, h.acksSent⟩
  · show (s.push (some dealer) (.playerAck s.config.publicKey dealer ack)).queuedAcks key =
      if key ∈ insert dealer s.acksSent then 1 else 0
    rw [queuedAcks_push, h.queued]
    by_cases hkey : dealer = key
    · subst hkey
      simp [hnew, isAckFor]
    · simp [hkey, Ne.symm hkey, isAckFor]
  · refine Finset.forall_mem_insert .. |>.2 ⟨⟨?_, ?_⟩, h.both⟩
    · exact mem_iff_isSome_getElem?.2 (hpub ▸ rfl)
    · exact mem_iff_isSome_getElem?.2 (hpriv ▸ rfl)

theorem kept_recordLog (hnew : dealer ∉ s.dealerLogs) (log : F.Log) (signed : F.SignedLog) :
    Kept s (s.recordLog dealer log signed) where
  __ := Kept.refl s
  logs _ _ hl := OrderedMap.getElem?_insert_of_notMem hnew hl
  signedLogs _ _ hl := OrderedMap.getElem?_insert_of_notMem (mt (h.signed dealer).1 hnew) hl

/-! ### Steps -/

theorem taken {kind : ProtocolMessageKind F} (hsender : s.isParticipant sender = true)
    (ht : Taken s sender kind s') : Orderly s' ∧ Kept s s' := by
  have hs : sender ∈ s.config.participants := contains_iff_mem.1 hsender
  cases ht with
  | dealerPublic msg hsize hnew =>
    refine ⟨(h.insertPubMsg hs msg).tryProcessDealerMessages hs fun hmem => hnew ?_, ?_⟩
    · exact (h.both sender hmem).1
    · obtain ⟨player, outgoing, acksSent, heq⟩ := tryProcessDealerMessages_eq _ sender
      rw [heq]
      exact { Kept.refl s with
        pubMsgs := fun _ _ hm => OrderedMap.getElem?_insert_of_notMem hnew hm }
  | dealerPrivate msg hsize hnew =>
    refine ⟨(h.insertPrivMsg hs msg).tryProcessDealerMessages hs fun hmem => hnew ?_, ?_⟩
    · exact (h.both sender hmem).2
    · obtain ⟨player, outgoing, acksSent, heq⟩ := tryProcessDealerMessages_eq _ sender
      rw [heq]
      exact { Kept.refl s with
        privMsgs := fun _ _ hm => OrderedMap.getElem?_insert_of_notMem hnew hm }
  | playerAck ack => exact ⟨{ h with }, { Kept.refl s with }⟩
  | dealerLog signed dealer log hc hd hsize hnew =>
    exact ⟨h.recordLog (contains_iff_mem.1 hd) log signed, h.kept_recordLog hnew log signed⟩
  | requestLogs => exact ⟨h.push (fun _ => rfl) _, { Kept.refl s with }⟩
  | allLogs logs hl =>
    refine recordLogs_invariant (fun t => Orderly t ∧ Kept s t) ⟨h, Kept.refl s⟩ ?_
    rintro t dealer log signed ⟨ho, hk⟩ - - hd hnew
    exact ⟨ho.recordLog (contains_iff_mem.1 hd) log signed,
      hk.trans (ho.kept_recordLog hnew log signed)⟩
  | ready =>
    refine ⟨{ h with readyPlayers := ?_ }, { Kept.refl s with }⟩
    exact Finset.forall_mem_insert .. |>.2 ⟨hs, h.readyPlayers⟩

theorem handleMessageBytes (sender : PublicKey) (bytes : Bytes) :
    Orderly (s.handleMessageBytes sender bytes).1 ∧
      Kept s (s.handleMessageBytes sender bytes).1 := by
  have hm : Orderly (s.mark (F.sha256 bytes)) := { h with }
  refine handleMessageBytes_invariant (fun t => Orderly t ∧ Kept s t) ⟨h, Kept.refl s⟩
    ⟨hm, { Kept.refl s with }⟩ ?_
  intro msg s' _ hs ht
  exact ⟨(hm.taken hs ht).1, { (hm.taken hs ht).2 with }⟩

theorem foldl_queuePrivMsg (hown : s.config.publicKey ∈ s.config.participants)
    (privMsgs : List (PublicKey × F.PrivMsg)) : Orderly (privMsgs.foldl queuePrivMsg s) := by
  induction privMsgs generalizing s with
  | nil => exact h
  | cons entry privMsgs ih =>
    rw [foldl_cons]
    refine ih ?_ ?_
    · rw [queuePrivMsg]
      split_ifs
      · exact h.insertPrivMsg hown entry.2
      · exact h.push (fun _ => rfl) _
    · rw [queuePrivMsg]
      split_ifs
      · exact hown
      · exact hown

theorem startDealer (hown : s.config.publicKey ∈ s.config.participants)
    (hnew : s.config.publicKey ∉ s.acksSent) (seed : F.Seed) : Orderly (s.startDealer seed) := by
  have hq : Orderly (s.queueDealer seed) :=
    (h.push (fun _ => rfl) none).foldl_queuePrivMsg hown _
  obtain ⟨dealerPrivMsgs, outgoing, heq⟩ := foldl_queuePrivMsg_eq
    (s.push none (.dealerPublic s.config.publicKey
      (F.start s.config.info s.config.publicKey seed).2.1))
    (F.start s.config.info s.config.publicKey seed).2.2
  rw [startDealer_eq_dealing, dealing]
  rw [queueDealer, heq] at hq ⊢
  exact Orderly.tryProcessDealerMessages { hq.insertPubMsg hown _ with } hown hnew

end Orderly

theorem orderly_init (config : DkgConfig) (timestampNanos : ℕ) :
    Orderly (init F config timestampNanos) := by
  refine ⟨?_, ?_, ?_, ?_, ?_, fun key => ?_, fun key => rfl, ?_⟩ <;> simp [init]

/-- No container has more entries than there are participants. -/
structure Sized (s : DkgParticipant F) : Prop where
  pubMsgs : s.dealerPubMsgs.size ≤ s.config.n
  privMsgs : s.dealerPrivMsgs.size ≤ s.config.n
  logs : s.dealerLogs.size ≤ s.config.n
  signedLogs : s.signedLogs.size ≤ s.config.n
  acksSent : s.acksSent.card ≤ s.config.n
  readyPlayers : s.readyPlayers.card ≤ s.config.n

theorem Orderly.sized (h : Orderly s) : Sized s where
  pubMsgs := OrderedMap.size_le_length h.pubMsgs
  privMsgs := OrderedMap.size_le_length h.privMsgs
  logs := OrderedMap.size_le_length h.logs
  signedLogs := OrderedMap.size_le_length fun key hk => h.logs key ((h.signed key).1 hk)
  acksSent := (Finset.card_le_card fun key hk => List.mem_toFinset.2 (h.acksSent key hk)).trans
    (toFinset_card_le _)
  readyPlayers :=
    (Finset.card_le_card fun key hk => List.mem_toFinset.2 (h.readyPlayers key hk)).trans
      (toFinset_card_le _)

/-- Some bytes arrive under some key. -/
def deliver (self : DkgParticipant F) (delivery : PublicKey × Bytes) : DkgParticipant F :=
  (self.handleMessageBytes delivery.1 delivery.2).1

end DkgParticipant

open DkgParticipant

/-- **After the start of the dealer**, only participants are recorded, each dealer is acknowledged
at most once and not before its messages are there, and what is recorded is never replaced. -/
theorem participant_orderly {config : DkgConfig} {timestampNanos : ℕ}
    (hnew : DkgParticipant.new F config timestampNanos = .ok s) (seed : F.Seed)
    (deliveries : List (PublicKey × Bytes)) :
    (∀ k, Orderly ((deliveries.take k).foldl deliver (s.startDealer seed)) ∧
      Sized ((deliveries.take k).foldl deliver (s.startDealer seed))) ∧
    ∀ k l, k ≤ l → Kept ((deliveries.take k).foldl deliver (s.startDealer seed))
      ((deliveries.take l).foldl deliver (s.startDealer seed)) := by
  obtain ⟨-, hown, rfl⟩ := new_eq_ok hnew
  have hstart := (orderly_init config timestampNanos).startDealer hown (Finset.notMem_empty _) seed
  have hrun : Run.Along deliver (fun _ _ => True)
      ((init F config timestampNanos).startDealer seed) deliveries := Run.along_true _ _
  refine ⟨fun k => ?_, fun k l hkl => ?_⟩
  · have hk : Orderly ((deliveries.take k).foldl deliver _) :=
      (hrun.take k).invariant hstart fun s d hs _ => (hs.handleMessageBytes d.1 d.2).1
    exact ⟨hk, hk.sized⟩
  · exact hrun.rel Kept.refl Kept.trans (fun s d hs _ => hs.handleMessageBytes d.1 d.2) hstart hkl

/-- The commitment and the share of the second participant for the first. -/
def secondMessages : List (PublicKey × Bytes) :=
  [.dealerPublic 2 (2 : UInt8), .dealerPrivate 2 (1 : UInt8)].map
    fun kind : ProtocolMessageKind .small => (2, (ProtocolMessage.legacy kind).toBytes)

theorem participant_orderly_triple :
    (secondMessages.foldl deliver ((tripleParticipant 1 0).startDealer ())).acksSent = {1, 2} ∧
    Sized (secondMessages.foldl deliver ((tripleParticipant 1 0).startDealer ())) ∧
    Kept ((tripleParticipant 1 0).startDealer ())
      (secondMessages.foldl deliver ((tripleParticipant 1 0).startDealer ())) := by
  have hnew : DkgParticipant.new .small (triple 1) 0 = .ok (tripleParticipant 1 0) := rfl
  obtain ⟨hs, hk⟩ := participant_orderly hnew () secondMessages
  exact ⟨by decide +kernel, (hs 2).2, hk 0 2 (Nat.zero_le 2)⟩

end Kora
