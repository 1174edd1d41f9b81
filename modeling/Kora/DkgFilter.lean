/-
What the ceremony lets in (`DkgParticipant::handle_message_bytes` in
`node/dkg/src/protocol.rs`).

The header of a message may name a ceremony, which then has to be this one; and a message
whose hash was seen is dropped. The header is not signed and may be left out, and the hash
is remembered before the sender is looked at.

* `replay_records_iff` — when the body of a message of another ceremony changes nothing;
* `redelivery_after_rejection` — when a message that was rejected has its effect later;
* `requestLogs_answered_iff` — when a request for the logs is answered.
-/
import Kora.DkgParticipant
import Kora.Run

open Std List

namespace Kora

open DkgParticipant

variable {F : Feldman}

/-! ### Messages of another ceremony -/

/-- The headers that can be put in front of the body of a message. -/
inductive Framing where
  /-- The header that the message was sent with. -/
  | original
  /-- The header of the ceremony that it is delivered in. -/
  | rebound
  /-- No header. -/
  | bare
deriving DecidableEq

/-- A body of ceremony `source` in a frame for ceremony `target`. -/
def Framing.message (source target : B256) (kind : ProtocolMessageKind F) :
    Framing → ProtocolMessage F
  | .original => .new source kind
  | .rebound => .new target kind
  | .bare => .legacy kind

theorem Framing.message_kind (source target : B256) (kind : ProtocolMessageKind F)
    (framing : Framing) : (framing.message source target kind).kind = kind := by
  cases framing <;> rfl

variable {kind : ProtocolMessageKind F} {s : DkgParticipant F}

theorem admission_framing (hn : 0 < s.config.n) (hf : ProtocolMessage.KindFits s.config.n kind)
    {source : B256} (hs : source ≠ s.session.ceremonyId) (framing : Framing) :
    s.admission (framing.message source s.session.ceremonyId kind).toBytes =
      if framing = .original then .error (.sessionMismatch s.session.ceremonyId source)
      else .ok (framing.message source s.session.ceremonyId kind) := by
  rw [admission_toBytes hn (by rwa [Framing.message_kind])]
  cases framing with
  | original =>
    show (if source ≠ s.session.ceremonyId then _ else _) = _
    rw [if_pos hs, if_pos rfl]
  | rebound =>
    show (if s.session.ceremonyId ≠ s.session.ceremonyId then _ else _) = _
    rw [if_neg (not_not.2 rfl), if_neg (by decide)]
  | bare => rfl

variable {bytes : Bytes} {msg : ProtocolMessage F}

theorem records_handleMessageBytes_iff (hs : F.sha256 bytes ∉ s.seenMessages)
    (ha : s.admission bytes = .ok msg) (sender : PublicKey) :
    (s.handleMessageBytes sender bytes).1.records = s.records ↔ ¬ s.Changes sender msg.kind := by
  rw [handleMessageBytes, if_neg hs, ha]
  exact records_handleMessage_iff (s.mark (F.sha256 bytes)) sender msg

variable {sender : PublicKey}

theorem records_of_not_participant (h : ¬ s.isParticipant sender = true) (bytes : Bytes) :
    (s.handleMessageBytes sender bytes).1.records = s.records := by
  refine handleMessageBytes_invariant (·.records = s.records) rfl rfl ?_
  intro msg s' _ hs _
  exact absurd hs h

/-- **When a message of another ceremony changes nothing**: it keeps its header, was seen, or adds
nothing. -/
theorem replay_records_iff (s : DkgParticipant F) {kind : ProtocolMessageKind F}
    (hfits : ProtocolMessage.KindFits s.config.n kind) {source : B256}
    (hsource : source ≠ s.session.ceremonyId) (framing : Framing) (sender : PublicKey) :
    (s.handleMessageBytes sender
        (framing.message source s.session.ceremonyId kind).toBytes).1.records = s.records ↔
      framing = .original ∨
      F.sha256 (framing.message source s.session.ceremonyId kind).toBytes ∈ s.seenMessages ∨
      ¬ s.Changes sender kind := by
  by_cases hsn : s.isParticipant sender = true
  swap
  · have hsm := records_of_not_participant hsn
      (framing.message source s.session.ceremonyId kind).toBytes
    exact ⟨fun _ => .inr (.inr fun hc => hsn hc.1), fun _ => hsm⟩
  have hn : 0 < s.config.n :=
    length_pos_of_mem (contains_iff_mem.1 hsn)
  have ha := admission_framing hn hfits hsource framing
  by_cases hs : F.sha256 (framing.message source s.session.ceremonyId kind).toBytes ∈
      s.seenMessages
  · refine ⟨fun _ => .inr (.inl hs), fun _ => ?_⟩
    rw [handleMessageBytes, if_pos hs]
  by_cases ho : framing = .original
  · refine ⟨fun _ => .inl ho, fun _ => ?_⟩
    rw [if_pos ho] at ha
    rw [handleMessageBytes, if_neg hs, ha]
  · rw [if_neg ho] at ha
    rw [records_handleMessageBytes_iff hs ha, Framing.message_kind]
    simp only [ho, hs, false_or]

/-- The commitment of the first participant. -/
def firstCommitment : ProtocolMessageKind .small := .dealerPublic 1 (1 : UInt8)

/-- The commitment from another ceremony is taken in a new frame, and not with its own header. -/
theorem replay_records_iff_dealerPublic :
    (tripleParticipant 1 0).session.ceremonyId ≠ (tripleParticipant 2 1).session.ceremonyId ∧
    ((tripleParticipant 1 0).startDealer ()).outgoing.head? = some (none,
      Framing.original.message (tripleParticipant 1 0).session.ceremonyId
        (tripleParticipant 2 1).session.ceremonyId firstCommitment) ∧
    ∀ framing : Framing, ((tripleParticipant 2 1).handleMessageBytes 1
      (framing.message (tripleParticipant 1 0).session.ceremonyId
        (tripleParticipant 2 1).session.ceremonyId
        firstCommitment).toBytes).1.records = (tripleParticipant 2 1).records ↔
      framing = .original := by
  have hs : (tripleParticipant 1 0).session.ceremonyId ≠
      (tripleParticipant 2 1).session.ceremonyId := by decide +kernel
  have hf : ProtocolMessage.KindFits (tripleParticipant 2 1).config.n firstCommitment :=
    ⟨rfl, trivial⟩
  refine ⟨hs, rfl, fun framing => ?_⟩
  rw [replay_records_iff (tripleParticipant 2 1) hf hs framing 1]
  have hc : (tripleParticipant 2 1).Changes 1 firstCommitment :=
    ⟨by decide +kernel, rfl, by decide +kernel, ExtTreeMap.not_mem_empty⟩
  simp only [hc, not_true, or_false]
  refine or_iff_left ?_
  exact Finset.notMem_empty _

/-- Not every honest message is without effect in another ceremony of the same participants. -/
theorem replay_changes_records : ¬ ∀ (F : Feldman) (configA configB : DkgConfig)
    (timestampA timestampB : ℕ) (a b : DkgParticipant F),
    DkgParticipant.new F configA timestampA = .ok a →
    DkgParticipant.new F configB timestampB = .ok b → configA.participants = configB.participants →
    configA.chainId = configB.chainId → a.session.ceremonyId ≠ b.session.ceremonyId →
    ∀ (opsA opsB : List (Op F)) (target : Option PublicKey) (msg : ProtocolMessage F),
    (target, msg) ∈ (opsA.foldl step a).outgoing → ∀ framing : Framing,
    ((opsB.foldl step b).handleMessageBytes configA.publicKey
      (framing.message a.session.ceremonyId b.session.ceremonyId msg.kind).toBytes).1.records =
        (opsB.foldl step b).records := by
  intro h
  have hs := h .small (triple 1) (triple 2) 0 1 (tripleParticipant 1 0) (tripleParticipant 2 1)
    (by rfl) (by rfl) rfl rfl (by decide +kernel) [.call (.startDealer ())] [] none
    (.new (tripleParticipant 1 0).session.ceremonyId firstCommitment)
    mem_cons_self .bare
  have hsz := congrArg (fun records => records.pubMsgs.size) hs
  revert hsz
  decide +kernel

/-! ### A message that was rejected before -/

theorem DkgParticipant.tryProcessDealerMessages_mark (s : DkgParticipant F) (hash : B256)
    (dealer : PublicKey) :
    (s.mark hash).tryProcessDealerMessages dealer =
      (s.tryProcessDealerMessages dealer).mark hash := by
  simp only [tryProcessDealerMessages, mark]
  split
  · split <;> rfl
  · rfl

theorem DkgParticipant.recordLogs_mark (s : DkgParticipant F) (hash : B256)
    (logs : List (PublicKey × F.SignedLog)) :
    (s.mark hash).recordLogs logs = (s.recordLogs logs).mark hash := by
  induction logs generalizing s with
  | nil => rfl
  | cons entry logs ih =>
    by_cases hm : s.Misses entry.2
    · have hmr : (s.mark hash).Misses entry.2 := hm
      obtain ⟨dealer, log, hc, -, -, heq⟩ := recordLogs_cons_of_misses hm logs
      obtain ⟨dealer', log', hc', -, -, heq'⟩ := recordLogs_cons_of_misses hmr logs
      -- the check looks at the signed log only
      obtain ⟨rfl, rfl⟩ := Prod.mk.inj (Option.some_inj.1 (hc.symm.trans hc'))
      rw [heq, heq']
      exact ih (s.recordLog dealer log entry.2)
    · have hmr : ¬ (s.mark hash).Misses entry.2 := hm
      rw [recordLogs_cons_of_not hm, recordLogs_cons_of_not hmr]
      exact ih s

theorem DkgParticipant.Taken.mark {s' : DkgParticipant F} (h : Taken s sender kind s') (hash : B256)
    : Taken (s.mark hash) sender kind (s'.mark hash) := by
  cases h with
  | dealerPublic msg hs hnew =>
    rw [← tryProcessDealerMessages_mark]
    exact .dealerPublic msg hs hnew
  | dealerPrivate msg hs hnew =>
    rw [← tryProcessDealerMessages_mark]
    exact .dealerPrivate msg hs hnew
  | playerAck ack => exact .playerAck ack
  | dealerLog signed dealer log hc hd hs hnew =>
    exact .dealerLog signed dealer log hc hd hs hnew
  | requestLogs => exact .requestLogs
  | allLogs logs hl =>
    rw [← recordLogs_mark]
    exact .allLogs logs hl
  | ready => exact .ready

variable {hash : B256}

theorem DkgParticipant.Taken.of_mark {t : DkgParticipant F} (h : Taken (s.mark hash) sender kind t)
    : ∃ s', Taken s sender kind s' := by
  cases h with
  | dealerPublic msg hs hnew => exact ⟨_, .dealerPublic msg hs hnew⟩
  | dealerPrivate msg hs hnew => exact ⟨_, .dealerPrivate msg hs hnew⟩
  | playerAck ack => exact ⟨_, .playerAck ack⟩
  | dealerLog signed dealer log hc hd hs hnew =>
    exact ⟨_, .dealerLog signed dealer log hc hd hs hnew⟩
  | requestLogs => exact ⟨_, .requestLogs⟩
  | allLogs logs hl => exact ⟨_, .allLogs logs hl⟩
  | ready => exact ⟨_, .ready⟩

theorem DkgParticipant.handleMessage_mark (s : DkgParticipant F) (hash : B256) (sender : PublicKey)
    (msg : ProtocolMessage F) :
    ((s.mark hash).handleMessage sender msg).1 = (s.handleMessage sender msg).1.mark hash := by
  by_cases ht : s.isParticipant sender = true ∧ ∃ s', Taken s sender msg.kind s'
  · obtain ⟨hs, s', hs'⟩ := ht
    rw [handleMessage_of_taken hs hs',
      handleMessage_of_taken (s := s.mark hash) hs (hs'.mark hash)]
  · have hself : (s.handleMessage sender msg).1 = s := by
      refine (handleMessage_cases s sender msg).resolve_right ?_
      rintro ⟨hs, -, hs'⟩
      exact ht ⟨hs, _, hs'⟩
    have hm : ((s.mark hash).handleMessage sender msg).1 = s.mark hash := by
      refine (handleMessage_cases (s.mark hash) sender msg).resolve_right ?_
      rintro ⟨hs, -, hs'⟩
      exact ht ⟨hs, hs'.of_mark⟩
    rw [hself, hm]

theorem DkgParticipant.foldl_queuePrivMsg_mark (s : DkgParticipant F) (hash : B256)
    (privMsgs : List (PublicKey × F.PrivMsg)) :
    privMsgs.foldl queuePrivMsg (s.mark hash) = (privMsgs.foldl queuePrivMsg s).mark hash := by
  induction privMsgs generalizing s with
  | nil => rfl
  | cons entry privMsgs ih =>
    have he : (s.mark hash).queuePrivMsg entry = (s.queuePrivMsg entry).mark hash := by
      rw [queuePrivMsg, queuePrivMsg, apply_ite (mark · hash)]
      rfl
    rw [foldl_cons, foldl_cons, he]
    exact ih (s.queuePrivMsg entry)

theorem DkgParticipant.startDealer_mark (s : DkgParticipant F) (hash : B256) (seed : F.Seed) :
    (s.mark hash).startDealer seed = (s.startDealer seed).mark hash := by
  have hf := foldl_queuePrivMsg_mark
    (s.push none (.dealerPublic s.config.publicKey
      (F.start s.config.info s.config.publicKey seed).2.1)) hash
    (F.start s.config.info s.config.publicKey seed).2.2
  rw [startDealer, startDealer]
  dsimp only
  rw [← tryProcessDealerMessages_mark]
  refine congrArg (tryProcessDealerMessages · s.config.publicKey) ?_
  exact congrArg (fun queued : DkgParticipant F =>
    { queued with
      dealerPubMsgs := queued.dealerPubMsgs.insert s.config.publicKey
        (F.start s.config.info s.config.publicKey seed).2.1
      dealer := some ⟨(F.start s.config.info s.config.publicKey seed).1, ∅⟩ }) hf

theorem DkgParticipant.step_receive_of_mem (h : F.sha256 bytes ∈ s.seenMessages)
    (sender : PublicKey) : s.step (.receive sender bytes) = s := by
  rw [step, handleMessageBytes, if_pos h]

/-- A delivery with this hash has no effect. Every other call is harmless. -/
def DkgParticipant.Harmless (hash : B256) (s : DkgParticipant F) : Op F → Prop
  | .receive sender bytes => F.sha256 bytes = hash → hash ∈ s.seenMessages ∨
      ∀ msg, s.admission bytes = .ok msg → ¬ s.Alters sender msg.kind
  | _ => True

theorem DkgParticipant.mark_of_mem (h : hash ∈ s.seenMessages) : s.mark hash = s := by
  rw [mark, Finset.insert_eq_of_mem h]

theorem DkgParticipant.act_mark (s : DkgParticipant F) (hash : B256) (call : Call F) :
    (s.mark hash).act call = (s.act call).mark hash := by
  cases call with
  | startDealer seed => exact startDealer_mark s hash seed
  | finalizeDealer =>
    simp only [act, finalizeDealer, mark]
    split
    · rfl
    · split <;> rfl
  | broadcastReady =>
    simp only [act]
    rw [broadcastReady, broadcastReady, apply_ite (mark · hash)]
    rfl
  | finalize =>
    simp only [act]
    rw [finalize_fst, finalize_fst, apply_ite (mark · hash)]
    rfl
  | takeOutgoing | setPhase phase => rfl

/-- **The step rule**: a hash in the duplicate filter makes no difference to a harmless call. -/
theorem DkgParticipant.Harmless.step_mark {op : Op F} (h : Harmless hash s op) :
    (s.mark hash).step op = (s.step op).mark hash := by
  cases op with
  | receive sender bytes =>
    by_cases hh : F.sha256 bytes = hash
    · -- the marked participant drops the bytes
      have hd : (s.mark hash).step (.receive sender bytes) = s.mark hash := by
        refine step_receive_of_mem ?_ sender
        rw [hh]
        exact Finset.mem_insert_self hash s.seenMessages
      rw [hd, step]
      rcases handleMessageBytes_cases s sender bytes with
        ⟨-, heq⟩ | ⟨e, -, -, heq⟩ | ⟨msg, hnew, ha, heq⟩
      · rw [heq]
      · rw [heq]
      · rw [hh] at hnew heq
        have hal : ¬ (s.mark hash).Alters sender msg.kind :=
          (h hh).resolve_left hnew msg ha
        rw [heq, handleMessage_eq_self hal,
          mark_of_mem (s := s.mark hash) (Finset.mem_insert_self hash s.seenMessages)]
    · have hs : F.sha256 bytes ∈ (s.mark hash).seenMessages ↔
          F.sha256 bytes ∈ s.seenMessages := by
        show F.sha256 bytes ∈ insert hash s.seenMessages ↔ _
        rw [Finset.mem_insert, or_iff_right hh]
      have ha : (s.mark hash).admission bytes = s.admission bytes := rfl
      have hc : (s.mark hash).mark (F.sha256 bytes) = (s.mark (F.sha256 bytes)).mark hash := by
        simp only [mark, Finset.insert_comm]
      rw [step, step]
      rcases handleMessageBytes_cases s sender bytes with
        ⟨hold, heq⟩ | ⟨e, hnew, he, heq⟩ | ⟨msg, hnew, hok, heq⟩
      · rw [heq, handleMessageBytes, if_pos (hs.2 hold)]
      · rw [heq, handleMessageBytes, if_neg (mt hs.1 hnew), ha, he]
      · rw [heq, handleMessageBytes, if_neg (mt hs.1 hnew), ha, hok]
        show (((s.mark hash).mark (F.sha256 bytes)).handleMessage sender msg).1 = _
        rw [hc, handleMessage_mark]
  | call call => exact act_mark s hash call

theorem DkgParticipant.foldl_step_mark {ops : List (Op F)}
    (h : Run.Along step (Harmless hash) s ops) :
    ops.foldl step (s.mark hash) = (ops.foldl step s).mark hash := by
  induction ops generalizing s with
  | nil => rfl
  | cons op ops ih =>
    rw [foldl_cons, foldl_cons, h.1.step_mark]
    exact ih h.2

theorem DkgParticipant.mem_seenMessages_receive (h : s.admission bytes = .ok msg)
    (sender : PublicKey) : F.sha256 bytes ∈ (s.step (.receive sender bytes)).seenMessages := by
  simp only [step]
  rcases handleMessageBytes_cases s sender bytes with
    ⟨hold, heq⟩ | ⟨e, -, he, -⟩ | ⟨msg', -, -, heq⟩
  · rwa [heq]
  · rw [h] at he
    cases he
  · rw [heq, (handleMessage_frame _ sender msg').2.2.1]
    exact Finset.mem_insert_self _ _

theorem DkgParticipant.Alters.ne (h : s.Alters sender msg.kind) :
    (s.handleMessage sender msg).1 ≠ s := by
  intro heq
  rcases h with hc | ⟨hs, hk⟩
  · exact hc.records_ne msg.sessionId (congrArg records heq)
  · rw [handleMessage, if_neg (not_not.2 hs), hk] at heq
    have hl := congrArg (fun t => t.outgoing.length) heq
    simp [handleRequestLogs, push] at hl

theorem DkgParticipant.rejected_cases {e : DkgError}
    (h : (s.handleMessageBytes sender bytes).2 = .error e) :
    F.sha256 bytes ∉ s.seenMessages ∧
    ((∃ e, s.admission bytes = .error e ∧ (s.handleMessageBytes sender bytes).1 = s) ∨
      ∃ msg, s.admission bytes = .ok msg ∧
        (s.handleMessageBytes sender bytes).1 = s.mark (F.sha256 bytes)) := by
  rcases handleMessageBytes_cases s sender bytes with
    ⟨-, heq⟩ | ⟨e', hnew, ha, heq⟩ | ⟨msg, hnew, ha, heq⟩
  · rw [heq] at h
    cases h
  · rw [heq]
    exact ⟨hnew, .inl ⟨e', ha, rfl⟩⟩
  · rw [heq] at h
    refine ⟨hnew, .inr ⟨msg, ha, ?_⟩⟩
    rw [heq, handleMessage_of_error h]

/-- The call delivers bytes with this hash. -/
def DkgParticipant.Op.Delivers (hash : B256) : Op F → Prop
  | .receive _ bytes => F.sha256 bytes = hash
  | _ => False

theorem DkgParticipant.along_harmless_of_fresh {ops : List (Op F)}
    (h : ∀ op ∈ ops, ¬ op.Delivers hash) (s : DkgParticipant F) :
    Run.Along step (Harmless hash) s ops := by
  induction ops generalizing s with
  | nil => trivial
  | cons op ops ih =>
    refine ⟨?_, ih (fun op' hop' => h op' (mem_cons_of_mem _ hop')) _⟩
    have hop := h op mem_cons_self
    cases op with
    | receive sender bytes => exact fun hh => absurd hh hop
    | _ => trivial

/-- **When a rejected message has its effect later.** The rejection makes no difference if the bytes
were turned away before the filter learned of them, or if every later delivery of this hash would
have had no effect; and without a delivery in between only then. -/
theorem redelivery_after_rejection {s : DkgParticipant F} {sender : PublicKey} {bytes : Bytes}
    {e : DkgError} (hrejected : (s.handleMessageBytes sender bytes).2 = .error e)
    (between : List (Op F)) (owner : PublicKey) :
    ((∃ e, s.admission bytes = .error e) ∨
        Run.Along step (Harmless (F.sha256 bytes)) s (between ++ [Op.receive owner bytes]) →
      (between ++ [Op.receive owner bytes]).foldl step (s.handleMessageBytes sender bytes).1 =
        (between ++ [Op.receive owner bytes]).foldl step s) ∧
    ((∀ op ∈ between, ¬ op.Delivers (F.sha256 bytes)) →
      (between ++ [Op.receive owner bytes]).foldl step (s.handleMessageBytes sender bytes).1 =
        (between ++ [Op.receive owner bytes]).foldl step s →
      (∃ e, s.admission bytes = .error e) ∨
        Run.Along step (Harmless (F.sha256 bytes)) s (between ++ [Op.receive owner bytes])) := by
  obtain ⟨-, ⟨e', ha, heq⟩ | ⟨msg, ha, heq⟩⟩ := rejected_cases hrejected
  · rw [heq]
    exact ⟨fun _ => rfl, fun _ _ => .inl ⟨e', ha⟩⟩
  have hn : ¬ ∃ e, s.admission bytes = .error e := by
    rintro ⟨e, he⟩
    rw [ha] at he
    cases he
  have ha' : (between.foldl step s).admission bytes = .ok msg := by
    rw [foldl_step_admission, ha]
  rw [heq]
  constructor
  · rintro (he | hrun)
    · exact absurd he hn
    · rw [foldl_step_mark hrun, mark_of_mem]
      rw [foldl_append]
      exact mem_seenMessages_receive ha' owner
  · intro hf hs
    have hb := along_harmless_of_fresh hf s
    refine .inr (Run.along_append.2 ⟨hb, ?_, trivial⟩)
    rw [foldl_append, foldl_append, foldl_step_mark hb] at hs
    generalize between.foldl step s = t at hs ha'
    -- the last delivery is dropped in one run, and handled in the other
    have hd : (t.mark (F.sha256 bytes)).step (.receive owner bytes) =
        t.mark (F.sha256 bytes) :=
      step_receive_of_mem (Finset.mem_insert_self _ t.seenMessages) owner
    rw [foldl_cons, foldl_nil, foldl_cons, foldl_nil, hd] at hs
    intro _
    refine or_iff_not_imp_left.2 fun hnew msg' hmsg' hal => ?_
    refine Alters.ne (s := t.mark (F.sha256 bytes)) hal ?_
    simp only [step, handleMessageBytes] at hs
    rw [if_neg hnew, hmsg'] at hs
    exact hs.symm

def twoFrames : List (Op .small) :=
  [.receive 1 (ProtocolMessage.new (tripleParticipant 3 0).session.ceremonyId
      firstCommitment).toBytes,
    .receive 1 (ProtocolMessage.legacy firstCommitment).toBytes]

/-- The second form was rejected; nothing is lost, as the first has brought the commitment. -/
theorem redelivery_after_rejection_twice :
    ((tripleParticipant 3 0).handleMessageBytes 2
      (ProtocolMessage.legacy firstCommitment).toBytes).2 = .error (.senderMismatch 1 2) ∧
    (twoFrames.foldl step (tripleParticipant 3 0)).dealerPubMsgs.size = 1 ∧
    twoFrames.foldl step ((tripleParticipant 3 0).handleMessageBytes 2
        (ProtocolMessage.legacy firstCommitment).toBytes).1 =
      twoFrames.foldl step (tripleParticipant 3 0) := by
  have hr : ((tripleParticipant 3 0).handleMessageBytes 2
      (ProtocolMessage.legacy firstCommitment).toBytes).2 = .error (.senderMismatch 1 2) := by
    rfl
  refine ⟨hr, by decide +kernel, (redelivery_after_rejection hr (twoFrames.take 1) 1).1
    (.inr ⟨?_, ?_, trivial⟩)⟩
  · intro hh
    exact absurd hh (by decide +kernel)
  · refine fun _ => .inr fun msg hmsg ha => ?_
    have hmsg' : (tripleParticipant 3 0).admission
        (ProtocolMessage.legacy firstCommitment).toBytes = .ok msg :=
      (foldl_step_admission (tripleParticipant 3 0) (twoFrames.take 1) _).symm.trans hmsg
    obtain rfl : ProtocolMessage.legacy firstCommitment = msg := Except.ok.inj hmsg'
    -- the commitment is recorded already
    rcases ha with ⟨-, -, -, hnew⟩ | ⟨-, hk⟩
    · exact hnew (by decide +kernel)
    · cases hk

/-- The sender that a message names, if it names one. -/
def ProtocolMessageKind.author : ProtocolMessageKind F → Option PublicKey
  | .dealerPublic dealer _ => some dealer
  | .dealerPrivate dealer _ => some dealer
  | .playerAck player _ _ => some player
  | .ready player => some player
  | .dealerLog _ => none
  | .requestLogs => none
  | .allLogs _ => none

/-- A message that was rejected under a wrong sender is lost for the right one. -/
theorem rejection_censors : ¬ ∀ (F : Feldman) (s : DkgParticipant F) (sender owner : PublicKey)
    (msg : ProtocolMessage F) (e : DkgError),
    (s.handleMessageBytes sender msg.toBytes).2 = .error e → msg.kind.author = some owner →
    ∀ between : List (Op F),
    (between ++ [Op.receive owner msg.toBytes]).foldl step
        (s.handleMessageBytes sender msg.toBytes).1 =
      (between ++ [Op.receive owner msg.toBytes]).foldl step s := by
  intro h
  have hs := h .small (tripleParticipant 3 0) 2 1 (.legacy firstCommitment)
    (.senderMismatch 1 2) (by rfl) rfl []
  have hsz := congrArg (fun s => s.dealerPubMsgs.size) hs
  revert hsz
  decide +kernel

/-! ### Requests for the logs -/

/-- **The step rule**: the filter holds what it held, and the hash of an admitted delivery. -/
theorem DkgParticipant.mem_seenMessages_step {op : Op F} :
    hash ∈ (s.step op).seenMessages ↔ hash ∈ s.seenMessages ∨ ∃ sender bytes msg,
      op = .receive sender bytes ∧ F.sha256 bytes = hash ∧ s.admission bytes = .ok msg := by
  cases op with
  | receive sender bytes =>
    rw [step]
    rcases handleMessageBytes_cases s sender bytes with
      ⟨hold, heq⟩ | ⟨e, hnew, he, heq⟩ | ⟨msg, hnew, hok, heq⟩
    · rw [heq]
      refine ⟨.inl, ?_⟩
      rintro (h | ⟨sender', bytes', msg, hr, hh, -⟩)
      · exact h
      · cases hr
        rwa [← hh]
    · rw [heq]
      refine (or_iff_left ?_).symm
      rintro ⟨sender', bytes', msg, hr, -, hok⟩
      cases hr
      rw [he] at hok
      cases hok
    · rw [heq, (handleMessage_frame _ sender msg).2.2.1]
      show hash ∈ insert (F.sha256 bytes) s.seenMessages ↔ _
      rw [Finset.mem_insert, or_comm]
      refine or_congr_right ⟨?_, ?_⟩
      · rintro rfl
        exact ⟨sender, bytes, msg, rfl, rfl, hok⟩
      · rintro ⟨sender', bytes', msg', hr, hh, -⟩
        cases hr
        exact hh.symm
  | call call =>
    rw [step, (act_frame s call).2.2]
    refine (or_iff_left ?_).symm
    rintro ⟨sender, bytes, msg, hr, -⟩
    cases hr

theorem DkgParticipant.mem_seenMessages_foldl (hs : s.seenMessages = ∅) (ops : List (Op F))
    (hash : B256) :
    hash ∈ (ops.foldl step s).seenMessages ↔ ∃ sender bytes msg,
      .receive sender bytes ∈ ops ∧ F.sha256 bytes = hash ∧ s.admission bytes = .ok msg := by
  induction ops using List.reverseRecOn with
  | nil => simp [hs]
  | append_singleton ops op ih =>
    rw [foldl_append, foldl_cons, foldl_nil, mem_seenMessages_step, ih]
    constructor
    · rintro (⟨sender, bytes, msg, hmem, hr⟩ | ⟨sender, bytes, msg, rfl, hh, ha⟩)
      · exact ⟨sender, bytes, msg, mem_append_left _ hmem, hr⟩
      · rw [foldl_step_admission] at ha
        exact ⟨sender, bytes, msg, mem_append_right _ mem_cons_self, hh, ha⟩
    · rintro ⟨sender, bytes, msg, hmem, hh, ha⟩
      rcases mem_append.1 hmem with hmem | hl
      · exact .inl ⟨sender, bytes, msg, hmem, hh, ha⟩
      · obtain rfl := mem_singleton.1 hl
        refine .inr ⟨sender, bytes, msg, rfl, hh, ?_⟩
        rw [foldl_step_admission, ha]

/-- **When a request for logs is answered**: iff no delivery with its hash was admitted before. -/
theorem requestLogs_answered_iff {config : DkgConfig} {timestampNanos : ℕ} {s : DkgParticipant F}
    (hs : DkgParticipant.new F config timestampNanos = .ok s) (before : List (Op F))
    {sender : PublicKey} (hsender : sender ∈ config.participants) {bytes : Bytes}
    {sessionId : Option B256} (hrequest : s.admission bytes = .ok ⟨sessionId, .requestLogs⟩) :
    ((before.foldl step s).step (.receive sender bytes)).outgoing =
        (before.foldl step s).outgoing ++ [(some sender, .new s.session.ceremonyId
          (.allLogs (before.foldl step s).signedLogs.toList))] ↔
      ∀ sender' bytes', .receive sender' bytes' ∈ before → F.sha256 bytes' = F.sha256 bytes →
        ∃ e, s.admission bytes' = .error e := by
  obtain ⟨-, -, rfl⟩ := new_eq_ok hs
  have hsn := mem_seenMessages_foldl (s := init F config timestampNanos) rfl before
    (F.sha256 bytes)
  obtain ⟨hc, hss⟩ := foldl_step_frame (init F config timestampNanos) before
  have ha := foldl_step_admission (init F config timestampNanos) before bytes
  rw [hrequest] at ha
  rw [← hss]
  generalize before.foldl step (init F config timestampNanos) = t at hsn hc ha
  have hp : t.isParticipant sender = true := by
    rw [isParticipant, hc]
    exact contains_iff_mem.2 hsender
  constructor
  · intro han sender' bytes' hmem hh
    cases ha' : (init F config timestampNanos).admission bytes' with
    | error e => exact ⟨e, rfl⟩
    | ok msg =>
      -- the request would be dropped, so nothing would be queued
      have hold := hsn.2 ⟨sender', bytes', msg, hmem, hh, ha'⟩
      rw [step_receive_of_mem hold] at han
      have hl := congrArg List.length han
      simp at hl
  · intro hnone
    have hnew : F.sha256 bytes ∉ t.seenMessages := by
      rw [hsn]
      rintro ⟨sender', bytes', msg, hmem, hh, hok⟩
      obtain ⟨e, he⟩ := hnone sender' bytes' hmem hh
      rw [hok] at he
      cases he
    rw [step, handleMessageBytes, if_neg hnew, ha]
    show ((t.mark (F.sha256 bytes)).handleMessage sender ⟨sessionId, .requestLogs⟩).1.outgoing = _
    rw [handleMessage_of_taken (s := t.mark (F.sha256 bytes)) hp .requestLogs]
    rfl

/-- The request that every participant sends to the leader. -/
def tripleRequest : ProtocolMessage .small :=
  .new (tripleParticipant 1 0).session.ceremonyId .requestLogs

/-- The first request is answered. -/
theorem requestLogs_answered_iff_first :
    ((tripleParticipant 1 0).step (.receive 2 tripleRequest.toBytes)).outgoing =
      [(some 2, .new (tripleParticipant 1 0).session.ceremonyId (.allLogs []))] := by
  have ha :
      (tripleParticipant 1 0).admission tripleRequest.toBytes = .ok tripleRequest := by
    have hn : 0 < (tripleParticipant 1 0).config.n := by decide
    have hf : ProtocolMessage.KindFits (tripleParticipant 1 0).config.n tripleRequest.kind :=
      trivial
    rw [admission_toBytes hn hf]
    exact if_neg (not_not.2 rfl)
  have hnew : DkgParticipant.new .small (triple 1) 0 = .ok (tripleParticipant 1 0) := rfl
  have hs : (2 : PublicKey) ∈ (triple 1).participants := by decide
  have han := requestLogs_answered_iff hnew [] hs ha
  exact han.2 fun sender' bytes' hmem => absurd hmem not_mem_nil

/-- The second request of a participant is not answered, although a log has come in since. -/
theorem requestLogs_unanswered : ¬ ∀ (F : Feldman) (config : DkgConfig) (timestampNanos : ℕ)
    (s : DkgParticipant F), DkgParticipant.new F config timestampNanos = .ok s →
    s.leader = some config.publicKey → ∀ (before : List (Op F)) (sender : PublicKey),
    sender ∈ config.participants → sender ≠ config.publicKey →
    ((before.foldl step s).step (.receive sender
        (ProtocolMessage.new (F := F) s.session.ceremonyId .requestLogs).toBytes)).outgoing =
      (before.foldl step s).outgoing ++ [(some sender, .new s.session.ceremonyId
        (.allLogs (before.foldl step s).signedLogs.toList))] := by
  intro h
  have ha := h .small (triple 1) 0 (tripleParticipant 1 0) rfl rfl
    [.receive 2 tripleRequest.toBytes,
      .receive 2 (ProtocolMessage.toBytes (F := .small)
        (.new (tripleParticipant 1 0).session.ceremonyId
          (.dealerLog ((2, 0) : PublicKey × UInt8))))]
    2 (by decide) (by decide)
  have hl := congrArg List.length ha
  revert hl
  decide +kernel

end Kora
