/-
The ready barrier of the key generation ceremony (`node/dkg/src/ceremony.rs`).

A participant that has acknowledged every dealer sends a ready signal, and publishes the
log of its dealer only when it has the signals of all. The channels keep the order, so an
acknowledgement is there before the ready signal.

* `Barrier` — the invariant of a ceremony of honest participants (`Barrier.step`);
* `ready_barrier` — whoever publishes its log has the acknowledgements of all others.
-/
import Kora.DkgHonest
import Kora.DkgCeremony

open Std List Function

namespace Kora

open DkgParticipant Ceremony

variable {F : Feldman}

/-! ### One instruction -/

/-- Whether the dealer has been started. -/
def Pc.started : Pc → Bool
  | .start => false
  | .send next => next.started
  | _ => true

namespace CeremonyNode

/-- What the participant has still to send, in this order. -/
def queued (self : CeremonyNode F) : List (PublicKey × ProtocolMessage F) :=
  self.sending ++ self.participant.pending

/-- What an instruction can do; `flow` is what it sends, and then what is still to be sent. -/
inductive Effect (node node' : CeremonyNode F) (flow : List (PublicKey × ProtocolMessage F)) :
    Prop where
  | quiet (hkeeps : Keeps node.participant node'.participant)
      (hpc : node'.pc.started = node.pc.started) (hflow : flow = node.queued)
  | start (t : F.Seed) (hpc : node.pc = .start) (hpc' : node'.pc.started = true)
      (hkeeps : Keeps (node.participant.startDealer t) node'.participant)
      (hflow : flow = node.sending ++ (node.participant.startDealer t).pending)
  | ready (hpc : node.pc = .enter .ready) (hpc' : node'.pc.started = true)
      (hkeeps : Keeps node.participant.broadcastReady node'.participant)
      (hflow : flow = node.sending ++ node.participant.broadcastReady.pending)
  | publish (hpc : node'.pc.started = node.pc.started)
      (hkeeps : Keeps node.participant.finalizeDealer.1 node'.participant)
      (hflow : flow = node.sending ++ node.participant.finalizeDealer.1.pending)
  | request (new : List (PublicKey × ProtocolMessage F))
      (hnew : ∀ entry ∈ new,
        entry.2 = .new node.participant.session.ceremonyId .requestLogs)
      (hkeeps : Keeps node.participant node'.participant)
      (hpc : node'.pc.started = node.pc.started)
      (hflow : flow = node.sending ++ new ++ node.participant.pending)

@[simp] theorem queued_takeOutgoing (node : CeremonyNode F) (next : Pc) :
    (node.takeOutgoing next).queued = node.queued := by
  simp [queued, takeOutgoing, pending, DkgParticipant.takeOutgoing]

theorem pending_setPhase (s : DkgParticipant F) (phase : DkgPhase) :
    (s.setPhase phase).pending = s.pending := rfl

theorem effect (node : CeremonyNode F) (input : NodeInput F) :
    Effect node (node.step input).1 ((node.step input).2.toList ++ (node.step input).1.queued) := by
  have hk : Keeps node.participant node.participant := .refl _
  rw [step.eq_def]
  split
  · next t hpc =>
    exact .start t hpc rfl (Keeps.setPhase _ _).takeOutgoing
      ((queued_takeOutgoing _ _).trans (congrArg (node.sending ++ ·) (pending_setPhase _ _)))
  · next next hpc =>
    split
    · exact .quiet hk (by rw [hpc]; rfl) rfl
    · next entry rest hs =>
      refine .quiet hk (by rw [hpc]) ?_
      show _ = node.sending ++ node.participant.pending
      rw [hs]
      rfl
  · next loop hpc =>
    cases loop with
    | phase2 =>
      exact .quiet (Keeps.setPhase _ _) (by rw [hpc]; rfl) rfl
    | ready =>
      exact .ready hpc rfl (Keeps.refl _).takeOutgoing (queued_takeOutgoing _ _)
    | phase4 =>
      exact .quiet (Keeps.setPhase _ _) (by rw [hpc]; rfl) rfl
  · next hpc => exact .quiet hk (by rw [hpc]; rfl) rfl
  · next hpc => exact .quiet hk (by rw [hpc]; rfl) rfl
  · next hpc =>
    exact .quiet hk.takeOutgoing (by rw [hpc]; rfl) (queued_takeOutgoing _ _)
  · next loop hpc =>
    refine .quiet hk ?_ rfl
    rw [hpc]
    dsimp only
    split_ifs
    · cases loop with
      | phase2 =>
        rw [next]
        split_ifs <;> rfl
      | ready | phase4 => rfl
    · rfl
  · next hpc =>
    split_ifs
    · exact .quiet hk rfl rfl
    · refine .request _ ?_ hk (by rw [hpc]; rfl) rfl
      intro entry he
      split at he
      · exact (DkgConfig.of_mem_connections he).1
      · cases he
  · next hpc =>
    split
    · next participant hf =>
      refine .publish (by rw [hpc]; rfl) ?_ ?_
      · rw [hf]
        exact (Keeps.refl _).takeOutgoing
      · rw [hf]
        exact queued_takeOutgoing _ _
    · next participant e hf =>
      refine .publish (by rw [hpc]; rfl) ?_ ?_
      · rw [hf]
        exact .refl _
      · rw [hf]
        rfl
  · next hpc => exact .quiet (Keeps.setPhase _ _) (by rw [hpc]; rfl) rfl
  · next hpc =>
    have hfn : Keeps node.participant node.participant.finalize.1 ∧
        node.participant.finalize.1.pending = node.participant.pending := by
      rw [finalize_fst]
      split_ifs
      · exact ⟨hk, rfl⟩
      · exact ⟨⟨rfl, rfl, .inr rfl, rfl, rfl, rfl, rfl⟩, rfl⟩
    split
    · next participant output hf =>
      rw [hf] at hfn
      obtain ⟨hk', hp⟩ := hfn
      exact .quiet { hk' with } (by rw [hpc]; rfl) (congrArg (node.sending ++ ·) hp)
    · next participant e hf =>
      rw [hf] at hfn
      obtain ⟨hk', hp⟩ := hfn
      exact .quiet { hk' with } (by rw [hpc]; rfl) (congrArg (node.sending ++ ·) hp)
  · exact .quiet hk rfl rfl

end CeremonyNode

/-! ### What holds at each instruction -/

/-- From its start to its end there is a dealer; the participant is ready with all acknowledgements
sent, and ends its dealer with all ready signals there. -/
def DkgParticipant.At (self : DkgParticipant F) : Pc → Prop
  | .send next => self.At next
  | .enter .phase2 | .head .phase2 | .receive .phase2 | .test .phase2
  | .head .ready | .receive .ready | .test .ready => self.dealer.isSome = true
  | .enter .ready => self.config.n ≤ self.acksSent.card ∧ self.dealer.isSome = true
  | .finalizeDealer => self.config.n ≤ self.readyPlayers.card ∧ self.dealer.isSome = true
  | _ => True

theorem DkgParticipant.At.extend {s s' : DkgParticipant F} (h : Extends s s') {pc : Pc}
    (hs : s.At pc) : s'.At pc := by
  induction pc with
  | send next ih => exact ih hs
  | enter loop =>
    cases loop with
    | phase2 => exact h.dealer hs
    | ready =>
      refine ⟨?_, h.dealer hs.2⟩
      rw [h.config]
      exact Nat.le_trans hs.1 (Finset.card_le_card h.acksSent)
    | phase4 => trivial
  | head loop | receive loop | test loop =>
    cases loop with
    | phase4 => trivial
    | _ => exact h.dealer hs
  | finalizeDealer =>
    refine ⟨?_, h.dealer hs.2⟩
    rw [h.config]
    exact Nat.le_trans hs.1 (Finset.card_le_card h.readyPlayers)
  | _ => trivial

theorem CeremonyNode.at_step (node : CeremonyNode F) (input : NodeInput F)
    (h : node.participant.At node.pc) :
    (node.step input).1.participant.At (node.step input).1.pc := by
  rw [step.eq_def]
  split
  · next t hpc => exact startDealer_isSome _ t
  · next next hpc =>
    rw [hpc] at h
    split
    · exact h
    · dsimp only
      rw [hpc]
      exact h
  · next loop hpc =>
    rw [hpc] at h
    cases loop with
    | phase2 => exact h
    | ready =>
      show (broadcastReady _).dealer.isSome = true
      rw [broadcastReady]
      split_ifs <;> exact h.2
    | phase4 => trivial
  · next loop hpc =>
    rw [hpc] at h
    cases loop <;> exact h
  · trivial
  · next loop hpc =>
    rw [hpc] at h
    cases loop <;> exact h
  · next loop hpc =>
    rw [hpc] at h
    dsimp only
    split_ifs with hd
    · cases loop with
      | phase2 =>
        rw [next]
        split_ifs
        · trivial
        · rw [isDone, decide_eq_true_iff] at hd
          exact ⟨hd.2, h⟩
      | ready =>
        rw [isDone, allReady, decide_eq_true_iff] at hd
        exact ⟨hd, h⟩
      | phase4 => trivial
    · cases loop <;> exact h
  · next hpc =>
    split_ifs
    · exact h
    · trivial
  · next hpc =>
    split <;> trivial
  · trivial
  · split <;> trivial
  · exact h

/-! ### An instruction of a participant -/

theorem DkgParticipant.finalizeDealer_cases (s : DkgParticipant F) :
    s.finalizeDealer.1.dealer = none ∧ s.finalizeDealer.1.readyPlayers = s.readyPlayers ∧
      s.finalizeDealer.1.seenMessages = s.seenMessages := by
  rw [finalizeDealer]
  split
  · next hnone => exact ⟨hnone, rfl, rfl⟩
  · dsimp only
    split <;> exact ⟨rfl, rfl, rfl⟩

section Effect

variable {info : DkgInfo} {ceremonyId : B256} {seed : PublicKey → Option F.Seed} {key : PublicKey}
  {msgs : Set (ProtocolMessage F)} {node node' : CeremonyNode F}
  {flow : List (PublicKey × ProtocolMessage F)}

open CeremonyNode

theorem sent_of_flow {s : DkgParticipant F}
    (hsn : ∀ entry ∈ node.sending, Sent info ceremonyId seed key entry.1 entry.2)
    (hs : DkgSound info ceremonyId seed key s) (hf : flow = node.sending ++ s.pending) :
    ∀ entry ∈ flow, Sent info ceremonyId seed key entry.1 entry.2 := by
  intro entry he
  rw [hf] at he
  rcases mem_append.1 he with he | he
  · exact hsn entry he
  · exact hs.pending entry he

variable (heffect : Effect node node' flow)
include heffect

theorem CeremonyNode.Effect.sound (ha : AcceptsHonestAcks F) (hkey : key ∈ info.participants)
    (h : DkgSound info ceremonyId seed key node.participant)
    (hsn : ∀ entry ∈ node.sending, Sent info ceremonyId seed key entry.1 entry.2)
    (hst : node.pc.started = (seed key).isSome)
    (hp : ∀ entry ∈ node'.participant.pending, entry ∈ flow) :
    ∃ seed', (∀ q t, seed q = some t → seed' q = some t) ∧ (∀ q ≠ key, seed' q = seed q) ∧
      DkgSound info ceremonyId seed' key node'.participant ∧
      (∀ entry ∈ flow, Sent info ceremonyId seed' key entry.1 entry.2) ∧
      node'.pc.started = (seed' key).isSome := by
  cases heffect with
  | quiet hk hpc hf =>
    have hs := sent_of_flow hsn h hf
    exact ⟨seed, fun _ _ => id, fun _ _ => rfl,
      h.keeps hk fun entry he => hs entry (hp entry he), hs,
      hpc.trans hst⟩
  | start t hpc hpc' hk hf =>
    have hnone : seed key = none := by
      rw [hpc] at hst
      exact Option.isNone_iff_eq_none.1 (Option.isSome_eq_false_iff.1 hst.symm)
    have hold : ∀ q u, seed q = some u → update seed key (some t) q = some u := by
      intro q u hq
      rw [update_of_ne, hq]
      rintro rfl
      rw [hnone] at hq
      cases hq
    have hsr := (h.mono hold).startDealer ha hkey (update_self key (some t) seed)
    have hs := sent_of_flow (fun entry he =>
      ⟨(hsn entry he).1, (hsn entry he).2.mono hold⟩) hsr hf
    refine ⟨_, hold, fun q hq => update_of_ne hq _ _,
      hsr.keeps hk fun entry he => hs entry (hp entry he), hs, ?_⟩
    rw [hpc', update_self]
    rfl
  | ready hpc hpc' hk hf =>
    have hr := h.broadcastReady hkey
    have hs := sent_of_flow hsn hr hf
    refine ⟨seed, fun _ _ => id, fun _ _ => rfl,
      hr.keeps hk fun entry he => hs entry (hp entry he), hs, ?_⟩
    rw [hpc', ← hst, hpc]
    rfl
  | publish hpc hk hf =>
    have hs := sent_of_flow hsn h.finalizeDealer hf
    exact ⟨seed, fun _ _ => id, fun _ _ => rfl,
      h.finalizeDealer.keeps hk fun entry he => hs entry (hp entry he), hs,
      hpc.trans hst⟩
  | request new hnew hk hpc hf =>
    have hs : ∀ entry ∈ flow, Sent info ceremonyId seed key entry.1 entry.2 := by
      intro entry he
      rw [hf] at he
      rcases mem_append.1 he with he | he
      · rcases mem_append.1 he with he | he
        · exact hsn entry he
        · rw [hnew entry he, h.session]
          exact ⟨rfl, trivial⟩
      · exact h.pending entry he
    exact ⟨seed, fun _ _ => id, fun _ _ => rfl,
      h.keeps hk fun entry he => hs entry (hp entry he), hs,
      hpc.trans hst⟩

theorem CeremonyNode.Effect.waiting {s : DkgParticipant F} {receiver : PublicKey}
    {channel : List (ProtocolMessage F)} (h : DkgSound info ceremonyId seed key node.participant)
    (hat : node.participant.At node.pc) (hn : info.participants.Nodup)
    (hr : receiver ∈ info.participants) (hne : receiver ≠ key)
    (hw : Waiting msgs s key receiver (channel ++ toward receiver node.queued)
      node.participant.acksSent) :
    Waiting msgs s key receiver (channel ++ toward receiver flow) node'.participant.acksSent := by
  have hpr := h.peers receiver hr hne
  have hg : ∀ {s' : DkgParticipant F}, Grows receiver node.participant s' →
      Keeps s' node'.participant → flow = node.sending ++ s'.pending →
      Waiting msgs s key receiver (channel ++ toward receiver flow)
        node'.participant.acksSent := by
    intro s' hgr hk hf
    rw [queued, toward_append, ← append_assoc] at hw
    rw [hf, hk.acksSent, toward_append, ← append_assoc]
    exact hw.grows hgr
  cases heffect with
  | quiet hk hpc hf =>
    rwa [hf, hk.acksSent]
  | start t hpc hpc' hk hf => exact hg (.startDealer hpr t) hk hf
  | ready hpc hpc' hk hf =>
    -- the acknowledgements of all dealers are sent by now
    rw [hpc] at hat
    have hall : receiver ∈ node.participant.acksSent := by
      refine mem_of_length_le_card hn h.acksSent ?_ hr
      rw [length_info_participants h.info_eq]
      exact hat.1
    rw [hk.acksSent, hf, toward_append]
    rcases broadcastReady_cases node.participant with heq | heq
    · rwa [heq, ← toward_append]
    · rw [heq]
      have ha := hw.append hall (toward receiver (node.participant.config.connections
        (none, .new node.participant.session.ceremonyId
          (.ready node.participant.config.publicKey))))
      rw [append_assoc, queued, toward_append, append_assoc, ← toward_append,
        ← pending_push] at ha
      exact ha
  | publish hpc hk hf => exact hg (.finalizeDealer _) hk hf
  | request new hnew hk hpc hf =>
    rw [queued, toward_append, ← append_assoc] at hw
    have hrd : ∀ msg ∈ toward receiver new, ¬ msg.IsReady := by
      rintro msg hmsg ⟨player, hp⟩
      have hrq : msg = .new node.participant.session.ceremonyId .requestLogs :=
        hnew _ (mem_toward.1 hmsg)
      rw [hrq] at hp
      cases hp
    have hi := hw.insert hrd .inl
    rwa [hf, hk.acksSent, toward_append, toward_append, ← append_assoc, ← append_assoc]

theorem CeremonyNode.Effect.paired {sender : PublicKey} {pipeline : List (ProtocolMessage F)}
    {acksSent : Finset PublicKey} (h : DkgSound info ceremonyId seed key node.participant)
    (hne : sender ≠ key) (hp : node.pc.started = true ∧ AckIn node.participant sender ∨
      Waiting msgs node.participant sender key pipeline acksSent) :
    node'.pc.started = true ∧ AckIn node'.participant sender ∨
      Waiting msgs node'.participant sender key pipeline acksSent := by
  have hkp : ∀ {s s' : DkgParticipant F}, Keeps s s' → (AckIn s sender → AckIn s' sender) ∧
      (Waiting msgs s sender key pipeline acksSent →
        Waiting msgs s' sender key pipeline acksSent) := by
    intro s s' hk
    refine ⟨fun hack => ?_, fun hw => hw.of_eq ?_ hk.seenMessages⟩
    · rw [AckIn, hk.dealer]
      exact hack
    · have hr : s'.readyPlayers = s.readyPlayers := congrArg Records.ready hk.records
      rw [hr]
      exact id
  cases heffect with
  | quiet hk hpc hf =>
    rw [hpc]
    exact hp.imp (And.imp_right (hkp hk).1) (hkp hk).2
  | start t hpc hpc' hk hf =>
    rw [hpc] at hp
    rcases hp with ⟨hs, -⟩ | hw
    · cases hs
    · obtain ⟨player, outgoing, acks, heq⟩ := startDealer_eq node.participant t
      refine .inr ((hkp hk).2 (hw.of_eq ?_ ?_))
      · rw [heq]
        exact id
      · rw [heq]
  | ready hpc hpc' hk hf =>
    rcases broadcastReady_cases node.participant with heq | heq
    · rw [heq] at hk
      rw [hpc']
      exact hp.imp (fun hack => ⟨rfl, (hkp hk).1 hack.2⟩) (hkp hk).2
    · rw [heq] at hk
      refine hp.imp (fun hack => ⟨hpc', (hkp hk).1 hack.2⟩) fun hw =>
        (hkp hk).2 (hw.of_eq (fun hmem => ?_) rfl)
      rcases Finset.mem_insert.1 hmem with rfl | hmem
      · exact absurd h.publicKey hne
      · exact hmem
  | publish hpc hk hf =>
    obtain ⟨hd, hr, hsn⟩ := finalizeDealer_cases node.participant
    rw [hpc]
    refine hp.imp (fun hack => ⟨hack.1, (hkp hk).1 fun own hown => ?_⟩) fun hw =>
      (hkp hk).2 (hw.of_eq (by rw [hr]; exact id) hsn)
    rw [hd] at hown
    cases hown
  | request new hnew hk hpc hf =>
    rw [hpc]
    exact hp.imp (And.imp_right (hkp hk).1) (hkp hk).2

end Effect

/-! ### All participants -/

namespace Ceremony

/-- The messages from a participant to another that have not arrived yet. -/
def pipeline (self : Ceremony F) (sender receiver : PublicKey) : List (ProtocolMessage F) :=
  self.channel sender receiver ++ toward receiver (self.node sender).queued

theorem pipeline_act_self (σ : Ceremony F) (key receiver : PublicKey) (input : NodeInput F) :
    (σ.step (.act key input)).pipeline key receiver = σ.channel key receiver ++
      toward receiver
        (((σ.node key).step input).2.toList ++ ((σ.node key).step input).1.queued) := by
  have hn : (σ.step (.act key input)).node key = ((σ.node key).step input).1 :=
    update_self _ _ _
  rw [pipeline, hn, toward_append, ← append_assoc]
  congr 1
  rw [step]
  dsimp only
  rcases ((σ.node key).step input).2 with _ | ⟨target, msg⟩
  · exact (append_nil _).symm
  · show setChannel _ key target _ key receiver = _
    by_cases ht : receiver = target
    · subst ht
      rw [setChannel, if_pos ⟨rfl, rfl⟩]
      simp [toward]
    · rw [setChannel, if_neg fun h => ht h.2]
      simp [toward, Ne.symm ht]

theorem pipeline_act_of_ne (σ : Ceremony F) {key sender : PublicKey} (hne : sender ≠ key)
    (receiver : PublicKey) (input : NodeInput F) :
    (σ.step (.act key input)).pipeline sender receiver = σ.pipeline sender receiver := by
  have hn : (σ.step (.act key input)).node sender = σ.node sender :=
    update_of_ne hne _ _
  rw [pipeline, pipeline, hn]
  congr 1
  rw [step]
  dsimp only
  rcases ((σ.node key).step input).2 with _ | ⟨target, msg⟩
  · rfl
  · exact if_neg fun h => hne h.1

theorem step_deliver_cases (σ : Ceremony F) (sender receiver : PublicKey) :
    σ.step (.deliver sender receiver) = σ ∨ ∃ msg rest loop,
      σ.channel sender receiver = msg :: rest ∧ (σ.node receiver).pc = .receive loop ∧
      σ.step (.deliver sender receiver) =
        { node := Function.update σ.node receiver { σ.node receiver with
            participant :=
              ((σ.node receiver).participant.handleMessageBytes sender msg.toBytes).1 }
          channel := setChannel σ.channel sender receiver rest } := by
  rw [step]
  split
  · exact .inl rfl
  · next msg rest hc =>
    rw [CeremonyNode.deliver]
    split
    · next hnone => exact .inl rfl
    · next node hn =>
      split at hn
      · next loop hpc =>
        obtain rfl := Option.some_inj.1 hn
        exact .inr ⟨msg, rest, loop, hc, hpc, rfl⟩
      · cases hn

end Ceremony

/-- The receiver's dealer is started and has the sender's acknowledgement, or waits for it. -/
def Paired (msgs : Set (ProtocolMessage F)) (σ : Ceremony F) (sender receiver : PublicKey) : Prop :=
  (σ.node receiver).pc.started = true ∧ AckIn (σ.node receiver).participant sender ∨
    Waiting msgs (σ.node receiver).participant sender receiver (σ.pipeline sender receiver)
      (σ.node sender).participant.acksSent

/-- What holds in a ceremony of honest participants. -/
structure Barrier (info : DkgInfo) (ceremonyId : B256) (msgs : Set (ProtocolMessage F))
    (seed : PublicKey → Option F.Seed) (σ : Ceremony F) : Prop where
  sound : ∀ p ∈ info.participants, DkgSound info ceremonyId seed p (σ.node p).participant
  sent : ∀ p ∈ info.participants, ∀ receiver, ∀ msg ∈ σ.pipeline p receiver,
    Sent info ceremonyId seed p receiver msg
  started : ∀ p ∈ info.participants, (σ.node p).pc.started = (seed p).isSome
  located : ∀ p ∈ info.participants, (σ.node p).participant.At (σ.node p).pc
  paired : ∀ p ∈ info.participants, ∀ q ∈ info.participants, q ≠ p → Paired msgs σ q p

section Barrier

variable {info : DkgInfo} {ceremonyId : B256} {msgs : Set (ProtocolMessage F)}
  {seed : PublicKey → Option F.Seed} {σ : Ceremony F}

theorem Barrier.act (ha : AcceptsHonestAcks F) (hn : info.participants.Nodup)
    (h : Barrier info ceremonyId msgs seed σ) {key : PublicKey} (hkey : key ∈ info.participants)
    (input : NodeInput F) :
    ∃ seed', Barrier info ceremonyId msgs seed' (σ.step (.act key input)) := by
  have heffect := (σ.node key).effect input
  have hself : (σ.step (.act key input)).node key = ((σ.node key).step input).1 :=
    update_self _ _ _
  have ho : ∀ q ≠ key, (σ.step (.act key input)).node q = σ.node q :=
    fun q hq => update_of_ne hq _ _
  have hsn : ∀ entry ∈ (σ.node key).sending,
      Sent info ceremonyId seed key entry.1 entry.2 := by
    intro entry he
    refine h.sent key hkey entry.1 entry.2 (mem_append_right _ (mem_toward.2 ?_))
    exact mem_append_left _ he
  obtain ⟨seed', hold, hsm, hsd, hf, hst⟩ := heffect.sound ha hkey
    (h.sound key hkey) hsn (h.started key hkey) fun entry he =>
      mem_append_right _ (mem_append_right _ he)
  refine ⟨seed', ?_, ?_, ?_, ?_, ?_⟩
  · intro p hp
    by_cases hpk : p = key
    · subst hpk
      rwa [hself]
    · rw [ho p hpk]
      exact (h.sound p hp).mono hold
  · intro p hp receiver msg hmsg
    by_cases hpk : p = key
    · subst hpk
      rw [pipeline_act_self] at hmsg
      rcases mem_append.1 hmsg with hmsg | hmsg
      · have hs := h.sent p hp receiver msg (mem_append_left _ hmsg)
        exact ⟨hs.1, hs.2.mono hold⟩
      · exact hf (receiver, msg) (mem_toward.1 hmsg)
    · rw [pipeline_act_of_ne σ hpk] at hmsg
      have hs := h.sent p hp receiver msg hmsg
      exact ⟨hs.1, hs.2.mono hold⟩
  · intro p hp
    by_cases hpk : p = key
    · subst hpk
      rwa [hself]
    · rw [ho p hpk, hsm p hpk]
      exact h.started p hp
  · intro p hp
    by_cases hpk : p = key
    · subst hpk
      rw [hself]
      exact (σ.node p).at_step input (h.located p hp)
    · rw [ho p hpk]
      exact h.located p hp
  · intro p hp q hq hne
    have hpr := h.paired p hp q hq hne
    by_cases hpk : p = key
    · -- the dealer of the pair acts
      subst hpk
      rw [Paired, hself, ho q hne, pipeline_act_of_ne σ hne]
      exact heffect.paired (h.sound p hp) hne hpr
    by_cases hqk : q = key
    · -- the player of the pair acts
      subst hqk
      rw [Paired, hself, ho p hpk, pipeline_act_self]
      exact hpr.imp_right (heffect.waiting (h.sound q hq) (h.located q hq) hn hp hpk)
    · rw [Paired, ho p hpk, ho q hqk, pipeline_act_of_ne σ hqk]
      exact hpr

theorem Ceremony.mem_setChannel {channel : PublicKey → PublicKey → List (ProtocolMessage F)}
    {sender receiver q r : PublicKey} {msg msg' : ProtocolMessage F}
    {rest : List (ProtocolMessage F)} (hc : channel sender receiver = msg :: rest)
    (h : msg' ∈ setChannel channel sender receiver rest q r) : msg' ∈ channel q r := by
  rw [setChannel] at h
  split_ifs at h with hqr
  · obtain ⟨rfl, rfl⟩ := hqr
    rw [hc]
    exact mem_cons_of_mem _ h
  · exact h

theorem Barrier.deliver (ha : AcceptsHonestAcks F)
    (hinj : msgs.InjOn fun msg => F.sha256 msg.toBytes)
    (hf : ∀ msg ∈ msgs, ProtocolMessage.KindFits info.participants.length msg.kind)
    (h : Barrier info ceremonyId msgs seed σ) {sender receiver : PublicKey}
    (hsn : sender ∈ info.participants) (hrc : receiver ∈ info.participants)
    (hm : ∀ msg ∈ (σ.channel sender receiver).head?, msg ∈ msgs) :
    Barrier info ceremonyId msgs seed (σ.step (.deliver sender receiver)) := by
  rcases σ.step_deliver_cases sender receiver with heq | ⟨msg, rest, loop, hc, hpc, heq⟩
  · rwa [heq]
  have hmem : msg ∈ msgs := hm msg (by rw [hc]; rfl)
  have hs := h.sound receiver hrc
  have hr : ProtocolMessage.fromBytes F msg.toBytes
      (σ.node receiver).participant.config.n = .ok msg := by
    have hpos : 0 < info.participants.length := length_pos_of_mem hrc
    have hr := ProtocolMessage.fromBytes_toBytes hpos (hf msg hmem) []
    rwa [append_nil, length_info_participants hs.info_eq] at hr
  have hmsg : Sent info ceremonyId seed sender receiver msg := by
    refine h.sent sender hsn receiver msg (mem_append_left _ ?_)
    rw [hc]
    exact mem_cons_self
  have hs' := hs.deliver ha hsn hr hmsg
  have hself : ((σ.step (.deliver sender receiver)).node receiver) = { σ.node receiver with
      participant := ((σ.node receiver).participant.handleMessageBytes sender msg.toBytes).1 } := by
    rw [heq]
    exact update_self _ _ _
  have ho : ∀ q ≠ receiver, (σ.step (.deliver sender receiver)).node q = σ.node q := by
    intro q hq
    rw [heq]
    exact update_of_ne hq _ _
  have hsm : ∀ q r, ¬ (q = sender ∧ r = receiver) →
      (σ.step (.deliver sender receiver)).channel q r = σ.channel q r := by
    intro q r hqr
    rw [heq]
    exact if_neg hqr
  refine ⟨?_, ?_, ?_, ?_, ?_⟩
  · intro p hp
    by_cases hpr : p = receiver
    · subst hpr
      rwa [hself]
    · rw [ho p hpr]
      exact h.sound p hp
  · intro p hp r msg' hmsg'
    rcases mem_append.1 hmsg' with hmsg' | hmsg'
    · rw [heq] at hmsg'
      exact h.sent p hp r msg' (mem_append_left _ (mem_setChannel hc hmsg'))
    · by_cases hpr : p = receiver
      · subst hpr
        rw [hself] at hmsg'
        rcases mem_append.1 (mem_toward.1 hmsg') with hmsg' | hmsg'
        · refine h.sent p hp r msg' (mem_append_right _ (mem_toward.2 ?_))
          exact mem_append_left _ hmsg'
        · exact hs'.pending _ hmsg'
      · rw [ho p hpr] at hmsg'
        exact h.sent p hp r msg' (mem_append_right _ hmsg')
  · intro p hp
    by_cases hpr : p = receiver
    · subst hpr
      rw [hself]
      exact h.started p hp
    · rw [ho p hpr]
      exact h.started p hp
  · intro p hp
    by_cases hpr : p = receiver
    · subst hpr
      rw [hself]
      exact (h.located p hp).extend (.handleMessageBytes _ sender msg.toBytes)
    · rw [ho p hpr]
      exact h.located p hp
  · intro p hp q hq hne
    have hpa := h.paired p hp q hq hne
    by_cases hpr : p = receiver
    · -- the dealer of the pair gets a message
      subst hpr
      rw [Paired, pipeline, hself, ho q hne]
      rcases hpa with ⟨hst, hack⟩ | hw
      · exact .inl ⟨hst, hack.handleMessageBytes sender msg.toBytes⟩
      by_cases hqs : q = sender
      · subst hqs
        rw [pipeline, hc] at hw
        have hrs : (σ.step (.deliver q p)).channel q p = rest := by
          rw [heq]
          exact if_pos ⟨rfl, rfl⟩
        have hpt : (σ.node p).participant.isParticipant q = true :=
          contains_iff_mem.2 ((mem_info_participants hs.info_eq).1 hq)
        rw [hrs]
        refine (hw.deliver_first hinj hs hpt hr hmsg hmem).imp_left fun hack => ?_
        refine ⟨?_, hack⟩
        show (σ.node p).pc.started = true
        rw [hpc]
        rfl
      · -- the message is of another participant
        rw [hsm q p fun hqp => hqs hqp.1]
        refine .inr (hw.deliver hinj hs hr hmsg hmem ?_ ?_)
        · intro ack hk
          have hg := hmsg.2
          rw [hk] at hg
          exact hqs hg.1
        · intro hk
          have hg := hmsg.2
          rw [hk] at hg
          exact hqs hg
    · rw [Paired, pipeline, ho p hpr, hsm q p fun hqp => hpr hqp.2]
      by_cases hqr : q = receiver
      · -- the player of the pair gets a message
        subst hqr
        refine hpa.imp_right fun hw => ?_
        rw [pipeline, CeremonyNode.queued, toward_append, ← append_assoc] at hw
        rw [hself, CeremonyNode.queued, toward_append, ← append_assoc]
        exact hw.grows (Grows.handleMessageBytes (hs.peers p hp hpr) sender msg.toBytes)
      · rw [ho q hqr]
        exact hpa

/-- All participants are new, know each other's addresses and agree on the ceremony; nothing is
under way. -/
structure Ceremony.Begins (info : DkgInfo) (timestampNanos : ℕ) (σ : Ceremony F) : Prop where
  node : ∀ p ∈ info.participants, ∃ config s, config.publicKey = p ∧ config.info = info ∧
    (∀ q ∈ info.participants, q ≠ p → q ∈ config.bootstrapPeers) ∧
    DkgParticipant.new F config timestampNanos = .ok s ∧ σ.node p = .begin s none
  channel : ∀ p ∈ info.participants, ∀ q, σ.channel p q = []

/-- An event of the participants, in which only the given messages arrive. -/
def CeremonyEvent.Among (info : DkgInfo) (msgs : Set (ProtocolMessage F)) (σ : Ceremony F) :
    CeremonyEvent F → Prop
  | .act key _ => key ∈ info.participants
  | .deliver sender receiver => sender ∈ info.participants ∧ receiver ∈ info.participants ∧
      ∀ msg ∈ (σ.channel sender receiver).head?, msg ∈ msgs

variable {timestampNanos : ℕ}

theorem Barrier.init (h : σ.Begins info timestampNanos) :
    Barrier info (info.ceremonyId F timestampNanos) msgs (fun _ => none) σ := by
  have hn : ∀ p ∈ info.participants, ∃ config, config.publicKey = p ∧ config.info = info ∧
      (∀ q ∈ info.participants, q ≠ p → q ∈ config.bootstrapPeers) ∧
      σ.node p = .begin (DkgParticipant.init F config timestampNanos) none := by
    intro p hp
    obtain ⟨config, s, hkey, hi, hpr, hnew, hn⟩ := h.node p hp
    obtain ⟨-, -, rfl⟩ := new_eq_ok hnew
    exact ⟨config, hkey, hi, hpr, hn⟩
  have hpp : ∀ p ∈ info.participants, ∀ q, σ.pipeline p q = [] := by
    intro p hp q
    obtain ⟨config, -, -, -, hn⟩ := hn p hp
    rw [pipeline, h.channel p hp, hn]
    rfl
  refine ⟨?_, ?_, ?_, ?_, ?_⟩
  · intro p hp
    obtain ⟨config, rfl, hi, hpr, hn⟩ := hn p hp
    rw [hn]
    exact DkgSound.init hi hpr timestampNanos
  · intro p hp receiver msg hmsg
    rw [hpp p hp] at hmsg
    cases hmsg
  · intro p hp
    obtain ⟨config, -, -, -, hn⟩ := hn p hp
    rw [hn]
    rfl
  · intro p hp
    obtain ⟨config, -, -, -, hn⟩ := hn p hp
    rw [hn]
    trivial
  · intro p hp q hq hne
    obtain ⟨config, -, -, -, hnd⟩ := hn p hp
    obtain ⟨config', -, -, -, hnq⟩ := hn q hq
    refine .inr ⟨?_, ?_, ?_, ?_⟩
    · rw [hnd]
      exact Finset.notMem_empty q
    · rw [hpp q hq]
      trivial
    · rw [hnq]
      exact fun hmem => absurd hmem (Finset.notMem_empty p)
    · rw [hnd]
      exact fun msg _ _ => Finset.notMem_empty _

theorem Ceremony.Begins.nodup (h : σ.Begins info timestampNanos) : info.participants.Nodup := by
  cases hi : info.participants with
  | nil => exact nodup_nil
  | cons p participants =>
    obtain ⟨config, s, -, hc, -, hnew, -⟩ := h.node p (by rw [hi]; exact mem_cons_self)
    rw [← hi, ← hc]
    exact (perm_insertionSort _ _).nodup_iff.2 (new_eq_ok hnew).1

theorem Barrier.run (ha : AcceptsHonestAcks F)
    (hinj : msgs.InjOn fun msg => F.sha256 msg.toBytes)
    (hf : ∀ msg ∈ msgs, ProtocolMessage.KindFits info.participants.length msg.kind)
    (hb : σ.Begins info timestampNanos) {events : List (CeremonyEvent F)}
    (hev : Run.Along Ceremony.step (CeremonyEvent.Among info msgs) σ events) :
    ∃ seed, Barrier info (info.ceremonyId F timestampNanos) msgs seed
      (events.foldl Ceremony.step σ) := by
  have hi : ∃ seed, Barrier info (info.ceremonyId F timestampNanos) msgs seed σ :=
    ⟨_, Barrier.init hb⟩
  refine hev.history (fun _ σ => ∃ seed,
    Barrier info (info.ceremonyId F timestampNanos) msgs seed σ) hi ?_
  rintro - σ event ⟨seed, h⟩ he
  cases event with
  | act key input => exact h.act ha hb.nodup he input
  | deliver sender receiver =>
    obtain ⟨hs, hr, hm⟩ := he
    exact ⟨seed, h.deliver ha hinj hf hs hr hm⟩

/-- **The ready barrier.** In every ceremony of honest participants over reliable channels, one that
is about to end its dealer has handed it the acknowledgements of all others. -/
theorem ready_barrier (haccepts : AcceptsHonestAcks F)
    (hinj : msgs.InjOn fun msg => F.sha256 msg.toBytes)
    (hfits : ∀ msg ∈ msgs, ProtocolMessage.KindFits info.participants.length msg.kind)
    {timestampNanos : ℕ} (hbegins : σ.Begins info timestampNanos) {events : List (CeremonyEvent F)}
    (hevents : Run.Along Ceremony.step (CeremonyEvent.Among info msgs) σ events)
    {p : PublicKey} (hp : p ∈ info.participants)
    (hpc : ((events.foldl Ceremony.step σ).node p).pc = .finalizeDealer) :
    ∃ own, ((events.foldl Ceremony.step σ).node p).participant.dealer = some own ∧
      ∀ q ∈ info.participants, q ≠ p → q ∈ own.acks := by
  obtain ⟨seed, h⟩ := Barrier.run haccepts hinj hfits hbegins hevents
  have hs := h.sound p hp
  have hat := h.located p hp
  rw [hpc] at hat
  obtain ⟨own, hown⟩ := Option.isSome_iff_exists.1 hat.2
  refine ⟨own, hown, fun q hq hne => ?_⟩
  -- there are as many ready signals as participants, so there is one of `q`
  have hr : q ∈ ((events.foldl Ceremony.step σ).node p).participant.readyPlayers := by
    refine mem_of_length_le_card hbegins.nodup hs.ready ?_ hq
    rw [length_info_participants hs.info_eq]
    exact hat.1
  rcases h.paired p hp q hq hne with ⟨-, hack⟩ | hw
  · exact hack own hown
  · exact absurd hr hw.notReady

end Barrier

/-! ### A ceremony of three participants -/

def tripleCeremony : Ceremony .small where
  node key := .begin (tripleParticipant key 0) none
  channel _ _ := []

def tripleProceed (key : PublicKey) (count : ℕ) : List (CeremonyEvent .small) :=
  List.replicate count (.act key .proceed)

def tripleExchange : List (CeremonyEvent .small) :=
  [1, 2, 3].flatMap fun receiver => (triple receiver).bootstrapPeers.flatMap fun sender =>
    List.replicate 2 (.deliver sender receiver)

def tripleReady : List (CeremonyEvent .small) :=
  ([1, 2, 3].flatMap fun key => .act key (.seed ()) :: tripleProceed key 7) ++ tripleExchange ++
    ([1, 2, 3].flatMap fun key => tripleProceed key 10) ++ tripleExchange ++ tripleProceed 1 3

def tripleKinds (sender : PublicKey) : List (ProtocolMessageKind .small) :=
  .dealerPublic sender (Feldman.lastByte sender) :: .ready sender ::
    (triple sender).bootstrapPeers.flatMap fun receiver =>
      [.dealerPrivate sender (Feldman.lastByte receiver),
        .playerAck sender receiver (Feldman.lastByte sender)]

def tripleMessages : List Bytes :=
  ([1, 2, 3].flatMap tripleKinds).map fun kind =>
    (ProtocolMessage.new (tripleParticipant 1 0).session.ceremonyId kind).toBytes

def tripleArrives (msg : ProtocolMessage .small) : Bool :=
  match msg.kind with
  | .allLogs _ => false
  | _ => tripleMessages.contains msg.toBytes

theorem tripleArrives_iff {msg : ProtocolMessage .small} (h : tripleArrives msg = true) :
    ProtocolMessage.KindFits (triple 1).info.participants.length msg.kind ∧
      msg.toBytes ∈ tripleMessages := by
  rw [tripleArrives] at h
  rcases msg with ⟨sessionId, kind⟩
  cases kind with
  | allLogs logs => cases h
  | dealerPublic dealer msg | dealerPrivate dealer msg =>
    exact ⟨⟨rfl, trivial⟩, contains_iff_mem.1 h⟩
  | playerAck player dealer ack => exact ⟨⟨rfl, rfl, trivial⟩, contains_iff_mem.1 h⟩
  | dealerLog log | requestLogs => exact ⟨trivial, contains_iff_mem.1 h⟩
  | ready player => exact ⟨rfl, contains_iff_mem.1 h⟩

theorem tripleArrives_injOn :
    {msg | tripleArrives msg = true}.InjOn fun msg => Feldman.small.sha256 msg.toBytes :=
  injOn_of_nodup (by decide) (l := tripleMessages) (by decide +kernel) fun _ => tripleArrives_iff

instance {info : DkgInfo} {arrives : ProtocolMessage F → Bool} (σ : Ceremony F) :
    (event : CeremonyEvent F) →
      Decidable (CeremonyEvent.Among info {msg | arrives msg = true} σ event)
  | .act key _ => inferInstanceAs (Decidable (key ∈ info.participants))
  | .deliver sender receiver => inferInstanceAs (Decidable (sender ∈ info.participants ∧
      receiver ∈ info.participants ∧
      ∀ msg ∈ (σ.channel sender receiver).head?, arrives msg = true))

theorem tripleCeremony_begins : tripleCeremony.Begins (triple 1).info 0 where
  node := by
    intro p hp
    have hs : (triple 1).info.participants = [1, 2, 3] := rfl
    have hn : (triple p).participants.Nodup := by
      show ([1, 2, 3] : List PublicKey).Nodup
      decide
    have hmem : (triple p).publicKey ∈ (triple p).participants := by
      show p ∈ [1, 2, 3]
      rwa [← hs]
    refine ⟨triple p, tripleParticipant p 0, rfl, rfl, ?_, ?_, rfl⟩
    · intro q hq hne
      rw [hs] at hq
      exact (mem_erase_of_ne hne).2 hq
    · rw [DkgParticipant.new, if_neg (not_not.2 hn), if_neg (not_not.2 hmem)]
      rfl
  channel p _ q := rfl

theorem ready_barrier_triple :
    ((tripleReady.foldl Ceremony.step tripleCeremony).node 1).pc = .finalizeDealer ∧
    ∃ own, ((tripleReady.foldl Ceremony.step tripleCeremony).node 1).participant.dealer = some own ∧
      ∀ q ∈ (triple 1).info.participants, q ≠ 1 → q ∈ own.acks := by
  have hrun : Run.Along Ceremony.step
      (CeremonyEvent.Among (triple 1).info {msg | tripleArrives msg = true}) tripleCeremony
      tripleReady ∧
      ((tripleReady.foldl Ceremony.step tripleCeremony).node 1).pc = .finalizeDealer := by
    decide +kernel
  have hf : 1 ∈ (triple 1).info.participants := by
    show 1 ∈ [1, 2, 3]
    exact mem_cons_self
  refine ⟨hrun.2, ?_⟩
  exact ready_barrier small_accepts tripleArrives_injOn (fun msg hmsg => (tripleArrives_iff hmsg).1)
    tripleCeremony_begins hrun.1 hf hrun.2

end Kora
