/-
Sending in the phase loops of the ceremony (`send_outgoing` in `node/dkg/src/ceremony.rs`,
`send_to` and `broadcast` in `node/dkg/src/network.rs`).

In each cycle a participant handles what has arrived, empties its queue and makes a
connection for each recipient. A message that could not be written is gone.

* `retried_iff` — unwritten messages are attempted again exactly if each answers a request
  for logs that is made again in the next cycle.
-/
import Kora.DkgState

open Std List

namespace Kora

variable {F : Feldman}

/-- A cycle of a loop: the accepted connections, and which of those that are made work. -/
structure Cycle where
  streams : List Bytes
  works : ℕ → Bool

/-- An attempt to write a message to a participant. -/
abbrev Attempt (F : Feldman) := PublicKey × ProtocolMessage F

/-- The participants to whom a message is sent. -/
def DkgConfig.recipients (self : DkgConfig) : Option PublicKey → List PublicKey
  | some target => [target]
  | none => self.participants.filter (· ≠ self.publicKey)

namespace DkgParticipant

/-- The attempts that the queue stands for. -/
def attempts (self : DkgParticipant F) : List (Attempt F) :=
  self.outgoing.flatMap fun entry => (self.config.recipients entry.1).map (·, entry.2)

/-- Send all outgoing messages. A failure is only logged. -/
def sendOutgoing (self : DkgParticipant F) (works : ℕ → Bool) :
    DkgParticipant F × List (Attempt F × Bool) :=
  (self.takeOutgoing.1, self.attempts.zipIdx.map fun (attempt, i) =>
    -- a peer without an address is not connected to
    (attempt, self.config.bootstrapPeers.contains attempt.1 && works i))

def cycle (self : DkgParticipant F) (cycle : Cycle) : DkgParticipant F × List (Attempt F × Bool) :=
  (self.receiveAndProcess cycle.streams).sendOutgoing cycle.works

/-! ### What arrivals queue -/

/-- The answer to a request for logs. -/
def logsAnswer (self : DkgParticipant F) : ProtocolMessage F :=
  .new self.session.ceremonyId (.allLogs self.signedLogs.toList)

/-- A request for logs that is answered: of a participant, and not handled before. -/
def Answers (self : DkgParticipant F) (sender : PublicKey) (bytes : Bytes) : Prop :=
  F.sha256 bytes ∉ self.seenMessages ∧ self.isParticipant sender = true ∧
    ∃ msg, self.admission bytes = .ok msg ∧ msg.kind = .requestLogs

/-- The queued acknowledgements are noted, and the messages of the noted dealers are there. -/
structure Acked (s : DkgParticipant F) : Prop where
  queued : ∀ entry ∈ s.outgoing, ∀ dealer, isAckFor dealer entry.2.kind = true →
    dealer ∈ s.acksSent
  both : ∀ key ∈ s.acksSent, key ∈ s.dealerPubMsgs ∧ key ∈ s.dealerPrivMsgs

/-- What a message queues: nothing, an answer, or an acknowledgement for a dealer without one. -/
def Adds (s : DkgParticipant F) (sender : PublicKey) (requested : Prop) (s' : DkgParticipant F) :
    Prop :=
  s'.outgoing = s.outgoing ∨
    (requested ∧ s'.outgoing = s.outgoing ++ [(some sender, s.logsAnswer)]) ∨
    ∃ msg, isAckFor sender msg.kind = true ∧ sender ∉ s.acksSent ∧
      s'.outgoing = s.outgoing ++ [(some sender, msg)]

variable {s s' : DkgParticipant F} {sender : PublicKey}

theorem Orderly.acked (h : Orderly s) : Acked s where
  queued entry he dealer ha := by
    have hpos : 0 < s.queuedAcks dealer := countP_pos_iff.2 ⟨entry, he, ha⟩
    rw [h.queued dealer] at hpos
    by_contra hno
    rw [if_neg hno] at hpos
    exact hpos.false
  both := h.both

theorem Acked.tryProcessDealerMessages (h : Acked s) (hnew : sender ∉ s.acksSent)
    (requested : Prop) : Acked (s.tryProcessDealerMessages sender) ∧
      Adds s sender requested (s.tryProcessDealerMessages sender) := by
  rcases tryProcessDealerMessages_cases s sender with
    ⟨player, heq, -⟩ | ⟨old, pubMsg, privMsg, player, ack, -, hpub, hpriv, -, heq⟩
  · rw [heq]
    exact ⟨{ h with }, .inl rfl⟩
  · rw [heq]
    refine ⟨⟨fun entry he dealer ha => ?_, Finset.forall_mem_insert .. |>.2 ⟨⟨?_, ?_⟩, h.both⟩⟩,
      .inr (.inr ⟨.new s.session.ceremonyId (.playerAck s.config.publicKey sender ack),
        decide_eq_true rfl, hnew, rfl⟩)⟩
    · rcases mem_append.1 he with he | he
      · exact Finset.mem_insert_of_mem (h.queued entry he dealer ha)
      · rw [mem_singleton.1 he] at ha
        exact Finset.mem_insert.2 (.inl (of_decide_eq_true ha).symm)
    · exact ExtTreeMap.mem_iff_isSome_getElem?.2 (hpub ▸ rfl)
    · exact ExtTreeMap.mem_iff_isSome_getElem?.2 (hpriv ▸ rfl)

theorem Acked.taken {kind : ProtocolMessageKind F} (h : Acked s) (ht : Taken s sender kind s') :
    Acked s' ∧ Adds s sender (kind = .requestLogs) s' := by
  cases ht with
  | dealerPublic msg hs hnew =>
    have hi : Acked { s with dealerPubMsgs := s.dealerPubMsgs.insert sender msg } :=
      { h with both := fun key hk => ⟨ExtTreeMap.mem_insert.2 (.inr (h.both key hk).1),
          (h.both key hk).2⟩ }
    exact hi.tryProcessDealerMessages (fun hmem => hnew (h.both sender hmem).1) _
  | dealerPrivate msg hs hnew =>
    have hi : Acked { s with dealerPrivMsgs := s.dealerPrivMsgs.insert sender msg } :=
      { h with both := fun key hk => ⟨(h.both key hk).1,
          ExtTreeMap.mem_insert.2 (.inr (h.both key hk).2)⟩ }
    exact hi.tryProcessDealerMessages (fun hmem => hnew (h.both sender hmem).2) _
  | requestLogs =>
    refine ⟨⟨forall_mem_append.2 ⟨h.queued, ?_⟩, h.both⟩, .inr (.inl ⟨rfl, rfl⟩)⟩
    exact forall_mem_singleton.2 fun dealer hd => by cases hd
  | allLogs logs hl =>
    obtain ⟨dealerLogs, signedLogs, heq⟩ := recordLogs_eq s logs
    rw [heq]
    exact ⟨{ h with }, .inl rfl⟩
  | playerAck ack | dealerLog signed dealer log hc hd hs hnew | ready =>
    exact ⟨{ h with }, .inl rfl⟩

theorem Acked.handleMessageBytes (h : Acked s) (sender : PublicKey) (bytes : Bytes) :
    Acked (s.handleMessageBytes sender bytes).1 ∧
      Adds s sender (s.Answers sender bytes) (s.handleMessageBytes sender bytes).1 := by
  rcases handleMessageBytes_cases s sender bytes with
    ⟨-, heq⟩ | ⟨e, -, -, heq⟩ | ⟨msg, hnew, hadm, heq⟩
  · rw [heq]
    exact ⟨h, .inl rfl⟩
  · rw [heq]
    exact ⟨h, .inl rfl⟩
  · have hm : Acked (s.mark (F.sha256 bytes)) := { h with }
    rw [heq]
    rcases handleMessage_cases (s.mark (F.sha256 bytes)) sender msg with hself | ⟨hs, -, ht⟩
    · rw [hself]
      exact ⟨hm, .inl rfl⟩
    · obtain ⟨ha, hadds⟩ := hm.taken ht
      exact ⟨ha, hadds.imp_right (Or.imp_left fun hr => ⟨⟨hnew, hs, msg, hadm, hr.1⟩, hr.2⟩)⟩

theorem outgoing_of_answers {bytes : Bytes} (h : s.Answers sender bytes) :
    (s.handleMessageBytes sender bytes).1.outgoing =
      s.outgoing ++ [(some sender, s.logsAnswer)] := by
  obtain ⟨hnew, hs, ⟨sessionId, kind⟩, hadm, rfl⟩ := h
  have hs' : (s.mark (F.sha256 bytes)).isParticipant sender = true := hs
  have ht : Taken (s.mark (F.sha256 bytes)) sender .requestLogs
    ((s.mark (F.sha256 bytes)).handleRequestLogs sender) := .requestLogs
  have heq : (DkgParticipant.handleMessage _ sender ⟨sessionId, .requestLogs⟩).1 = _ :=
    handleMessage_of_taken hs' ht
  rw [DkgParticipant.handleMessageBytes, if_neg hnew, hadm]
  exact congrArg outgoing heq

/-- Handle what has arrived, message by message. -/
def receive (self : DkgParticipant F) (envelopes : List Envelope) : DkgParticipant F :=
  envelopes.foldl
    (fun self envelope => (self.handleMessageBytes envelope.sender envelope.payload).1) self

def AnswerAmong (self : DkgParticipant F) (envelopes : List Envelope)
    (entry : PublicKey × ProtocolMessage F) : Prop :=
  ∃ earlier envelope later, envelopes = earlier ++ envelope :: later ∧
    (self.receive earlier).Answers envelope.sender envelope.payload ∧
    entry = (envelope.sender, (self.receive earlier).logsAnswer)

theorem Acked.receive (h : Acked s) (envelopes : List Envelope) :
    Acked (s.receive envelopes) ∧ Extends s (s.receive envelopes) ∧
      s.outgoing ⊆ (s.receive envelopes).outgoing ∧
      ∀ entry ∈ (s.receive envelopes).outgoing, entry ∈ s.outgoing ∨
        (∃ key, entry.1 = some key ∧ s.AnswerAmong envelopes (key, entry.2)) ∨
        ∃ dealer, isAckFor dealer entry.2.kind = true ∧ dealer ∉ s.acksSent := by
  induction envelopes using List.reverseRecOn with
  | nil => exact ⟨h, Extends.refl s, Subset.refl _, fun entry he => .inl he⟩
  | append_singleton envelopes envelope ih =>
    obtain ⟨ha, hext, hsub, hmem⟩ := ih
    obtain ⟨ha', hadds⟩ := ha.handleMessageBytes envelope.sender envelope.payload
    have heq : s.receive (envelopes ++ [envelope]) =
        ((s.receive envelopes).handleMessageBytes envelope.sender envelope.payload).1 :=
      foldl_concat ..
    rw [heq]
    refine ⟨ha', hext.trans (Extends.handleMessageBytes _ _ _), ?_, fun entry he => ?_⟩
    · rcases hadds with hsame | ⟨-, hout⟩ | ⟨msg, -, -, hout⟩
      · rwa [hsame]
      · rw [hout]
        exact fun entry he => mem_append_left _ (hsub he)
      · rw [hout]
        exact fun entry he => mem_append_left _ (hsub he)
    · -- what was there before the last message
      have hold : entry ∈ (s.receive envelopes).outgoing → entry ∈ s.outgoing ∨
          (∃ key, entry.1 = some key ∧ s.AnswerAmong (envelopes ++ [envelope]) (key, entry.2)) ∨
          ∃ dealer, isAckFor dealer entry.2.kind = true ∧ dealer ∉ s.acksSent := by
        intro hin
        refine (hmem entry hin).imp_right (Or.imp_left ?_)
        rintro ⟨key, hk, earlier, asking, later, rfl, hans, hent⟩
        exact ⟨key, hk, earlier, asking, later ++ [envelope], by simp, hans, hent⟩
      rcases hadds with hsame | ⟨hans, hout⟩ | ⟨msg, hmsg, hnew, hout⟩
      · exact hold (hsame ▸ he)
      · rw [hout] at he
        rcases mem_append.1 he with he | he
        · exact hold he
        · rw [mem_singleton.1 he]
          exact .inr (.inl ⟨envelope.sender, rfl, envelopes, envelope, [], rfl, hans, rfl⟩)
      · rw [hout] at he
        rcases mem_append.1 he with he | he
        · exact hold he
        · rw [mem_singleton.1 he]
          exact .inr (.inr ⟨envelope.sender, hmsg, fun hk => hnew (hext.acksSent hk)⟩)

theorem AnswerAmong.mem_outgoing (h : Acked s) {envelopes : List Envelope}
    {entry : PublicKey × ProtocolMessage F} (ha : s.AnswerAmong envelopes entry) :
    (some entry.1, entry.2) ∈ (s.receive envelopes).outgoing := by
  obtain ⟨earlier, envelope, later, rfl, hans, rfl⟩ := ha
  have hb := (h.receive earlier).1.handleMessageBytes envelope.sender envelope.payload
  have hsub := (hb.1.receive later).2.2.1
  rw [outgoing_of_answers hans] at hsub
  rw [DkgParticipant.receive, foldl_append, foldl_cons]
  exact hsub (mem_append_right _ mem_cons_self)

/-! ### Runs -/

section Run

variable (s : DkgParticipant F) (cycles : List Cycle)

/-- The participant before a cycle. -/
def before (k : ℕ) : DkgParticipant F := (cycles.take k).foldl (fun s c => (s.cycle c).1) s

/-- The attempts of a cycle, with their outcomes. -/
def outcomes (k : ℕ) : List (Attempt F × Bool) :=
  match cycles[k]? with
  | some c => ((s.before cycles k).cycle c).2
  | none => []

def Attempted (k : ℕ) (attempt : Attempt F) : Prop := attempt ∈ (s.outcomes cycles k).map Prod.fst

/-- The message was written, in this cycle or before. -/
def Written (k : ℕ) (attempt : Attempt F) : Prop := ∃ j ≤ k, (attempt, true) ∈ s.outcomes cycles j

/-- The connections to the participant work in this cycle. -/
def Connected (k : ℕ) (key : PublicKey) : Prop :=
  ∀ attempt ok, (attempt, ok) ∈ s.outcomes cycles k → attempt.1 = key → ok = true

def AskedAgain (k : ℕ) (attempt : Attempt F) : Prop :=
  ∃ c, cycles[k]? = some c ∧ (s.before cycles k).AnswerAmong (pollIncoming F c.streams) attempt

def Retries : Prop := ∀ k attempt, k + 1 < cycles.length → s.Attempted cycles k attempt →
  ¬ s.Written cycles k attempt → s.Attempted cycles (k + 1) attempt

end Run

variable {cycles : List Cycle} {k : ℕ} {attempt : Attempt F}

theorem attempted_iff : s.Attempted cycles k attempt ↔ ∃ c, cycles[k]? = some c ∧
    attempt ∈ ((s.before cycles k).receiveAndProcess c.streams).attempts := by
  have hfst : ∀ (t : DkgParticipant F) works, (t.sendOutgoing works).2.map Prod.fst = t.attempts :=
    fun t works => (map_map ..).trans (zipIdx_map_fst 0 t.attempts)
  rw [Attempted, outcomes]
  cases cycles[k]? with
  | none => simp
  | some c => simp only [cycle, hfst, Option.some.injEq, exists_eq_left']

theorem before_succ {c : Cycle} (hc : cycles[k]? = some c) : s.before cycles (k + 1) =
    ((s.before cycles k).receive (pollIncoming F c.streams)).takeOutgoing.1 := by
  obtain ⟨hk, rfl⟩ := List.getElem?_eq_some_iff.1 hc
  rw [before, take_succ_eq_append_getElem hk, foldl_append]
  rfl

theorem Acked.takeOutgoing (h : Acked s) : Acked s.takeOutgoing.1 :=
  { h with queued := fun _ he => absurd he not_mem_nil }

theorem Acked.before (h : Acked s) (cycles : List Cycle) (k : ℕ) : Acked (s.before cycles k) := by
  induction k with
  | zero => exact h
  | succ k ih =>
    cases hc : cycles[k]? with
    | none =>
      have hl := getElem?_eq_none_iff.1 hc
      rw [DkgParticipant.before, take_of_length_le (hl.trans k.le_succ), ← take_of_length_le hl]
      exact ih
    | some c =>
      rw [before_succ hc]
      exact (ih.receive _).1.takeOutgoing

theorem mem_attempts : attempt ∈ s.attempts ↔
    ∃ target, (target, attempt.2) ∈ s.outgoing ∧ attempt.1 ∈ s.config.recipients target := by
  rw [attempts, mem_flatMap]
  constructor
  · rintro ⟨⟨target, msg⟩, he, hm⟩
    obtain ⟨key, hk, rfl⟩ := mem_map.1 hm
    exact ⟨target, he, hk⟩
  · rintro ⟨target, he, hk⟩
    exact ⟨_, he, mem_map.2 ⟨_, hk, rfl⟩⟩

/-- What was attempted in a cycle is attempted in the next one exactly if it is asked for again. -/
theorem attempted_succ_iff (h : Acked s) (hk : s.Attempted cycles k attempt) :
    s.Attempted cycles (k + 1) attempt ↔ s.AskedAgain cycles (k + 1) attempt := by
  obtain ⟨c, hc, hin⟩ := attempted_iff.1 hk
  obtain ⟨target, htarget, -⟩ := mem_attempts.1 hin
  have hb := h.before cycles (k + 1)
  have hempty : (s.before cycles (k + 1)).outgoing = [] := by
    rw [before_succ hc]
    rfl
  rw [attempted_iff, AskedAgain]
  refine exists_congr fun c' => and_congr_right fun _ => ⟨fun hin' => ?_, fun ha => ?_⟩
  · obtain ⟨target', hmem, hrec⟩ := mem_attempts.1 hin'
    obtain hnil | ⟨key, rfl, ha⟩ | ⟨dealer, hack, hnew⟩ :=
      (hb.receive (pollIncoming F c'.streams)).2.2.2 _ hmem
    · rw [hempty] at hnil
      cases hnil
    · rwa [← mem_singleton.1 hrec] at ha
    · -- an acknowledgement that was attempted is noted
      have hsent := ((h.before cycles k).receive (pollIncoming F c.streams)).1.queued
        _ htarget dealer hack
      rw [before_succ hc] at hnew
      exact absurd hsent hnew
  · exact mem_attempts.2 ⟨_, ha.mem_outgoing hb, mem_singleton_self _⟩

theorem Retries.written (h : s.Retries cycles) {j : ℕ} (hkj : k ≤ j) (hj : j < cycles.length)
    (ha : s.Attempted cycles k attempt) (hc : s.Connected cycles j attempt.1) :
    s.Written cycles j attempt := by
  -- until it is written, it is attempted in each cycle
  have hevery : ∀ i, k ≤ i → i < cycles.length →
      s.Attempted cycles i attempt ∨ s.Written cycles i attempt := by
    intro i hki
    induction i, hki using Nat.le_induction with
    | base => exact fun _ => .inl ha
    | succ i hki ih =>
      intro hi
      by_cases hw : s.Written cycles i attempt
      · obtain ⟨l, hl, hmem⟩ := hw
        exact .inr ⟨l, hl.trans i.le_succ, hmem⟩
      · exact .inl (h i attempt hi ((ih (Nat.lt_of_succ_lt hi)).resolve_right hw) hw)
  rcases hevery j hkj hj with ha | hw
  · obtain ⟨⟨attempt, ok⟩, hmem, rfl⟩ := mem_map.1 ha
    rw [hc attempt ok hmem rfl] at hmem
    exact ⟨j, le_rfl, hmem⟩
  · exact hw

end DkgParticipant

open DkgParticipant

/-- **Unwritten messages are attempted again** exactly if each is the answer to a request for logs
that is made again in the next cycle: by the same participant, in new bytes, and while the logs are
the same. Then each is written as soon as its connection works. -/
theorem retried_iff (s : DkgParticipant F) (hs : s.Acked) (cycles : List Cycle) :
    (s.Retries cycles ↔ ∀ k attempt, k + 1 < cycles.length → s.Attempted cycles k attempt →
      ¬ s.Written cycles k attempt → s.AskedAgain cycles (k + 1) attempt) ∧
    (s.Retries cycles → ∀ k j attempt, k ≤ j → j < cycles.length → s.Attempted cycles k attempt →
      s.Connected cycles j attempt.1 → s.Written cycles j attempt) := by
  refine ⟨?_, fun h k j attempt hkj hj ha hc => h.written hkj hj ha hc⟩
  refine forall_congr' fun k => forall_congr' fun attempt => forall_congr' fun _ =>
    forall_congr' fun ha => ?_
  rw [attempted_succ_iff hs ha]

/-- A dealer whose connections fail in the first of two cycles, and a participant that has to
announce that it is ready, whose connections fail in the second. -/
theorem retried_iff_triple :
    ¬ ((tripleParticipant 1 0).startDealer ()).Retries
        [⟨[], fun _ => false⟩, ⟨[], fun _ => true⟩] ∧
      (tripleParticipant 1 0).broadcastReady.Retries
        [⟨[], fun _ => true⟩, ⟨[], fun _ => false⟩] := by
  constructor
  · intro h
    have hacked := ((orderly_init (F := .small) (triple 1) 0).startDealer (by decide)
      (Finset.notMem_empty _) ()).acked
    obtain ⟨c, hc, earlier, envelope, later, heq, -⟩ :=
      (retried_iff _ hacked _).1.1 h 0 _ (by decide) mem_cons_self (by
        rintro ⟨j, hj, hmem⟩
        obtain rfl := Nat.le_zero.1 hj
        obtain ⟨_, -, heq⟩ := mem_map.1 hmem
        exact absurd (congrArg Prod.snd heq) (by simp))
    obtain rfl := Option.some.inj hc
    exact absurd heq.symm (append_ne_nil_of_right_ne_nil _ (cons_ne_nil _ _))
  · have hacked : (tripleParticipant 1 0).broadcastReady.Acked := by
      refine ⟨forall_mem_singleton.2 (fun dealer hd => ?_), fun key hk => ?_⟩
      · cases hd
      · exact absurd hk (Finset.notMem_empty key)
    refine (retried_iff _ hacked _).1.2 fun k attempt hk ha hw => absurd ?_ hw
    obtain rfl : k = 0 := Nat.lt_one_iff.1 (Nat.lt_of_succ_lt_succ hk)
    obtain ⟨⟨attempt, ok⟩, hmem, rfl⟩ := mem_map.1 ha
    have hok : ok = true := by
      rcases mem_cons.1 hmem with heq | hmem
      · exact congrArg Prod.snd heq
      · exact congrArg Prod.snd (mem_singleton.1 hmem)
    exact ⟨0, le_rfl, hok ▸ hmem⟩

/-- In the first cycle no connection works, and in the second there is nothing left to send. -/
theorem commitment_not_retried :
    ¬ ∀ (F : Feldman) (s : DkgParticipant F) (cycles : List Cycle), s.Retries cycles ∧
      ∀ k j attempt, k ≤ j → j < cycles.length → s.Attempted cycles k attempt →
        s.Connected cycles j attempt.1 → s.Written cycles j attempt := by
  intro h
  obtain ⟨hretries, -⟩ := h .small ((tripleParticipant 1 0).startDealer ())
    [⟨[], fun _ => false⟩, ⟨[], fun _ => true⟩]
  have hagain := hretries 0 _ (by decide) mem_cons_self ?_
  · exact absurd hagain not_mem_nil
  · rintro ⟨j, hj, hmem⟩
    obtain rfl := Nat.le_zero.1 hj
    obtain ⟨_, -, heq⟩ := mem_map.1 hmem
    exact absurd (congrArg Prod.snd heq) (by simp)

end Kora
