/-
Restarting a participant of the key generation ceremony (`node/dkg/src/state.rs`,
`try_restore` in `node/dkg/src/protocol.rs`).

A participant writes its phase and the dealer logs to disk, and goes on in that phase
after a restart. Its dealer, its player and the messages it had received are not written.

* `Stuck` — a participant that skips phase 1 stays in phase 2;
* `restart_finishes_iff` — it can finish exactly if it starts its dealer again.
-/
import Kora.DkgLiveness

open Std List ExtTreeMap Option

namespace Kora

open DkgParticipant Wire

variable {F : Feldman}

/-! ### The state on disk -/

/-- What a participant writes to disk. -/
structure PersistedDkgState where
  phase : DkgPhase
  session : CeremonySession
  dealerStarted : Bool
  dealerFinalized : Bool
  ourSignedLog : Option Bytes
  receivedLogs : List (PublicKey × Bytes)
  timestamp : ℕ
deriving DecidableEq

namespace DkgParticipant

def saveState (self : DkgParticipant F) : PersistedDkgState where
  phase := self.currentPhase
  session := self.session
  dealerStarted := self.dealer.isSome || self.ourSignedLog.isSome
  dealerFinalized := self.ourSignedLog.isSome
  ourSignedLog := self.ourSignedLog.map F.signedLog.write
  receivedLogs := self.signedLogs.toList.map fun entry => (entry.1, F.signedLog.write entry.2)
  timestamp := self.timestampNanos

/-- Read a log of the disk and check it. -/
def readLog (self : DkgParticipant F) (bytes : Bytes) : Option (PublicKey × F.Log × F.SignedLog) :=
  match F.signedLog.read self.config.t bytes with
  | .ok (signed, _) => (F.check self.config.info signed).map fun entry => (entry.1, entry.2, signed)
  -- what cannot be read is passed over
  | .error _ => none

def restoreOwnLog (self : DkgParticipant F) (state : PersistedDkgState) : DkgParticipant F :=
  match state.dealerFinalized, state.ourSignedLog.bind self.readLog with
  | true, some (dealer, log, signed) =>
    { self.recordLog dealer log signed with ourSignedLog := some signed }
  | _, _ => self

def restoreLog (self : DkgParticipant F) (entry : PublicKey × Bytes) : DkgParticipant F :=
  match self.readLog entry.2 with
  | some (dealer, log, signed) => self.recordLog dealer log signed
  | none => self

/-- Restore a participant. A state of another session is discarded. -/
def tryRestore (F : Feldman) (config : DkgConfig) (state : Option PersistedDkgState)
    (timestampNanos : ℕ) : Except DkgError (Option (DkgParticipant F)) :=
  match state with
  | none => .ok none
  | some state =>
    let expected := CeremonySession.new F.sha256 config.chainId config.participants timestampNanos
    if state.session.ceremonyId ≠ expected.ceremonyId then .ok none
    else match new F config timestampNanos with
      | .error e => .error e
      | .ok participant => .ok (some (state.receivedLogs.foldl restoreLog
          ({ participant with currentPhase := state.phase }.restoreOwnLog state)))

theorem tryRestore_of_no_logs {config : DkgConfig} {state : PersistedDkgState} {timestampNanos : ℕ}
    {s₀ : DkgParticipant F} (hnew : new F config timestampNanos = .ok s₀)
    (hs : state.session = s₀.session) (hown : state.dealerFinalized = false)
    (hl : state.receivedLogs = []) : tryRestore F config (some state) timestampNanos =
      .ok (some { s₀ with currentPhase := state.phase }) := by
  have hsm : state.session.ceremonyId = (CeremonySession.new F.sha256 config.chainId
      config.participants timestampNanos).ceremonyId := by
    rw [hs, (new_eq_ok hnew).2.2]
    rfl
  rw [tryRestore, if_neg (not_not.2 hsm), hnew, hl]
  simp only [restoreOwnLog, hown, foldl_nil]

theorem readLog_eq_some {s : DkgParticipant F} {bytes : Bytes} {dealer : PublicKey} {log : F.Log}
    {signed : F.SignedLog} (h : s.readLog bytes = some (dealer, log, signed)) :
    F.check s.config.info signed = some (dealer, log) := by
  rw [readLog] at h
  split at h
  · obtain ⟨⟨dealer', log'⟩, hc, heq⟩ := map_eq_some_iff.1 h
    cases heq
    exact hc
  · cases h

theorem tryRestore_eq_some {config : DkgConfig} {state : PersistedDkgState} {timestampNanos : ℕ}
    {r : DkgParticipant F} (h : tryRestore F config (some state) timestampNanos = .ok (some r)) :
    ∃ s₀, new F config timestampNanos = .ok s₀ ∧
      (∃ dealerLogs signedLogs ourSignedLog, r =
        { s₀ with
          currentPhase := state.phase
          dealerLogs, signedLogs, ourSignedLog }) ∧
      ∀ q log, r.dealerLogs[q]? = some log →
        ∃ signed, F.check config.info signed = some (q, log) := by
  rw [tryRestore] at h
  split_ifs at h
  · cases h
  split at h
  · cases h
  · next s₀ hnew =>
    obtain rfl := some_inj.1 (Except.ok.inj h)
    refine ⟨s₀, hnew, ?_⟩
    obtain ⟨-, -, hs₀⟩ := new_eq_ok hnew
    have hin : s₀.config.info = config.info := by rw [hs₀]; rfl
    -- each log that is recorded keeps the shape and has been checked
    let Restored (s : DkgParticipant F) : Prop := (∃ dealerLogs signedLogs ourSignedLog, s =
      { s₀ with
        currentPhase := state.phase
        dealerLogs, signedLogs, ourSignedLog }) ∧
      ∀ q log, s.dealerLogs[q]? = some log → ∃ signed, F.check config.info signed = some (q, log)
    have hrc : ∀ {s : DkgParticipant F} {bytes : Bytes} {dealer : PublicKey} {log : F.Log}
        {signed : F.SignedLog}, Restored s → s.readLog bytes = some (dealer, log, signed) →
        Restored (s.recordLog dealer log signed) ∧
          Restored { s.recordLog dealer log signed with ourSignedLog := some signed } := by
      intro s bytes dealer log signed hs hr
      have hc := readLog_eq_some hr
      obtain ⟨⟨dealerLogs, signedLogs, ourSignedLog, rfl⟩, hl⟩ := hs
      have hl' : ∀ q l, (dealerLogs.insert dealer log)[q]? = some l →
          ∃ signed, F.check config.info signed = some (q, l) := by
        intro q l hget
        rcases getElem?_insert_cases hget with hold | ⟨rfl, rfl⟩
        · exact hl q l hold
        · exact ⟨signed, hin ▸ hc⟩
      exact ⟨⟨⟨_, _, _, rfl⟩, hl'⟩, ⟨⟨_, _, _, rfl⟩, hl'⟩⟩
    have hi : Restored { s₀ with currentPhase := state.phase } := by
      refine ⟨⟨_, _, _, rfl⟩, fun q log hget => ?_⟩
      rw [hs₀] at hget
      exact absurd hget (by simp [init])
    have hown : Restored ({ s₀ with currentPhase := state.phase }.restoreOwnLog state) := by
      rw [restoreOwnLog]
      split
      · next dealer log signed _ hr =>
        obtain ⟨bytes, -, hr⟩ := bind_eq_some_iff.1 hr
        exact (hrc hi hr).2
      · exact hi
    generalize restoreOwnLog _ _ = s at hown
    show Restored (state.receivedLogs.foldl restoreLog s)
    induction state.receivedLogs generalizing s with
    | nil => exact hown
    | cons entry logs ih =>
      refine ih _ ?_
      rw [restoreLog]
      split
      · next dealer log signed hr => exact (hrc hown hr).1
      · exact hown

end DkgParticipant

/-! ### A participant that skips phase 1 -/

theorem DkgParticipant.mem_dealerPubMsgs_handleMessageBytes {s : DkgParticipant F}
    {sender q : PublicKey} {bytes : Bytes}
    (h : q ∈ (s.handleMessageBytes sender bytes).1.dealerPubMsgs) :
    q ∈ s.dealerPubMsgs ∨ q = sender ∧ q ∈ s.config.participants := by
  revert h
  refine handleMessageBytes_invariant (q ∈ ·.dealerPubMsgs → _) .inl .inl ?_
  intro msg s' _ hs ht h
  have hh : s'.records.Holds (s.mark (F.sha256 bytes)).config.publicKey q (.dealerPublic q _) :=
    ⟨rfl, getElem?_eq_some_getElem h⟩
  rcases ht.holds hh with hold | ⟨rfl, -⟩
  · exact .inl (mem_iff_isSome_getElem?.2 (isSome_of_eq_some hold.2))
  · exact .inr ⟨rfl, List.contains_iff_mem.1 hs⟩

/-- Where a participant is that has not passed phase 2. -/
def Pc.beforeReady : Pc → Bool
  | .enter .phase2 | .head .phase2 | .receive .phase2 | .test .phase2 | .failed _ => true
  | .send next => next.beforeReady
  | _ => false

theorem Pc.eq_phase2_of_beforeReady {pc : Pc} {loop : Loop} (hpc : pc.beforeReady = true)
    (h : pc = .enter loop ∨ pc = .head loop ∨ pc = .receive loop ∨ pc = .test loop) :
    loop = .phase2 := by
  cases loop with
  | phase2 => rfl
  | ready | phase4 => rcases h with rfl | rfl | rfl | rfl <;> cases hpc

structure Stuck (config : DkgConfig) (node : CeremonyNode F) : Prop where
  config_eq : node.participant.config = config
  pc : node.pc.beforeReady = true
  own : config.publicKey ∈ config.participants
  missing : config.publicKey ∉ node.participant.dealerPubMsgs
  pubMsgs : ∀ q ∈ node.participant.dealerPubMsgs, q ∈ config.participants

section Stuck

variable {config : DkgConfig} {node : CeremonyNode F}

variable (h : Stuck config node)
include h

theorem Stuck.isDone_eq_false : node.isDone .phase2 = false := by
  have hlt : node.participant.dealerPubMsgs.size < config.n :=
    size_lt_of_notMem h.pubMsgs h.own h.missing
  have hle : node.participant.receivedDealerCount ≤ node.participant.dealerPubMsgs.size := by
    rw [receivedDealerCount, ← length_keys]
    exact length_filter_le _ _
  rw [CeremonyNode.isDone, decide_eq_false_iff_not]
  rintro ⟨hc, -⟩
  rw [requiredDealerLogs, h.config_eq] at hc
  omega

theorem Stuck.step (input : NodeInput F) : Stuck config (node.step input).1 := by
  have hpc := h.pc
  rw [CeremonyNode.step.eq_def]
  split
  · next hs =>
    rw [hs] at hpc
    cases hpc
  · next next hsn =>
    rw [hsn] at hpc
    split
    · exact { h with pc := hpc }
    · exact { h with }
  · next loop he =>
    obtain rfl := Pc.eq_phase2_of_beforeReady hpc (.inl he)
    exact { h with pc := rfl }
  · next loop hh =>
    obtain rfl := Pc.eq_phase2_of_beforeReady hpc (.inr (.inl hh))
    exact { h with pc := rfl }
  · exact { h with pc := rfl }
  · next loop hr =>
    obtain rfl := Pc.eq_phase2_of_beforeReady hpc (.inr (.inr (.inl hr)))
    exact { h with pc := rfl }
  · next loop ht =>
    obtain rfl := Pc.eq_phase2_of_beforeReady hpc (.inr (.inr (.inr ht)))
    refine { h with pc := ?_ }
    rw [h.isDone_eq_false]
    rfl
  · next ht =>
    rw [ht] at hpc
    cases hpc
  · next hf =>
    rw [hf] at hpc
    cases hpc
  · next hfn =>
    rw [hfn] at hpc
    cases hpc
  · next hf =>
    rw [hf] at hpc
    cases hpc
  · exact h

theorem Stuck.handle {event : NodeEvent F}
    (he : ∀ sender bytes, event = .deliver sender bytes → sender ≠ config.publicKey) :
    Stuck config (node.handle event) := by
  cases event with
  | act input => exact h.step input
  | deliver sender bytes =>
    rw [CeremonyNode.handle, CeremonyNode.deliver]
    split
    · refine ⟨?_, h.pc, h.own, ?_, ?_⟩
      · exact (step_frame _ (.receive sender bytes)).1.trans h.config_eq
      · intro hmem
        rcases mem_dealerPubMsgs_handleMessageBytes hmem with hold | ⟨hs, -⟩
        · exact h.missing hold
        · exact he sender bytes rfl hs.symm
      · intro q hq
        rcases mem_dealerPubMsgs_handleMessageBytes hq with hold | ⟨-, hmem⟩
        · exact h.pubMsgs q hold
        · rwa [h.config_eq] at hmem
    · exact h

theorem Stuck.run {events : List (NodeEvent F)}
    (he : ∀ sender bytes, .deliver sender bytes ∈ events → sender ≠ config.publicKey) :
    Stuck config (events.foldl CeremonyNode.handle node) := by
  induction events generalizing node with
  | nil => exact h
  | cons event events ih =>
    refine ih (h.handle fun sender bytes heq => he sender bytes ?_) fun sender bytes hmem =>
      he sender bytes (mem_cons_of_mem _ hmem)
    rw [heq]
    exact mem_cons_self

end Stuck

/-! ### A participant after a restart -/

section Restart

variable {config : DkgConfig} {saved : PersistedDkgState} {timestampNanos : ℕ}
  {r : DkgParticipant F}

theorem Stuck.of_tryRestore (hr : tryRestore F config (some saved) timestampNanos = .ok (some r))
    (hs : saved.phase.skipsPhase1 = true) :
    Stuck config (.begin r (some r.currentPhase)) := by
  obtain ⟨s₀, hnew, ⟨dealerLogs, signedLogs, ourSignedLog, hreq⟩, -⟩ := tryRestore_eq_some hr
  obtain ⟨-, hown, rfl⟩ := new_eq_ok hnew
  have hp : r.currentPhase = saved.phase := by rw [hreq]
  have hpubMsgs : r.dealerPubMsgs = ∅ := by
    rw [hreq]
    rfl
  have hpc : (CeremonyNode.begin r (some r.currentPhase)).pc = .enter .phase2 := by
    rw [hp]
    exact if_pos hs
  refine ⟨?_, by rw [hpc]; rfl, hown, ?_, ?_⟩
  · show r.config = config
    rw [hreq]
    rfl
  · show config.publicKey ∉ r.dealerPubMsgs
    rw [hpubMsgs]
    exact not_mem_empty
  · show ∀ q ∈ r.dealerPubMsgs, q ∈ config.participants
    rw [hpubMsgs]
    exact fun q hq => absurd hq not_mem_empty

theorem Going.of_tryRestore (hr : tryRestore F config (some saved) timestampNanos = .ok (some r))
    (hp : ∀ q ∈ config.participants, q ≠ config.publicKey → q ∈ config.bootstrapPeers)
    (hl : ∀ q ∈ r.dealerLogs, q ∈ config.participants) (seed : PublicKey → Option F.Seed) :
    Going config.info r.session.ceremonyId seed config.publicKey r := by
  obtain ⟨s₀, hnew, ⟨dealerLogs, signedLogs, ourSignedLog, hreq⟩, hc⟩ := tryRestore_eq_some hr
  obtain ⟨-, hown, rfl⟩ := new_eq_ok hnew
  have hi : DkgSound config.info (config.info.ceremonyId F timestampNanos) (fun _ => none)
      config.publicKey (init F config timestampNanos) := by
    refine DkgSound.init rfl (fun q hq => ?_) timestampNanos
    exact hp q ((mem_info_participants rfl).1 hq)
  have hs : r.session.ceremonyId = config.info.ceremonyId F timestampNanos := by
    rw [hreq]
    exact ceremonyId_init rfl timestampNanos
  have hsn : DkgSound config.info r.session.ceremonyId seed config.publicKey r := by
    rw [hs, hreq]
    refine DkgSound.mono { hi with } fun q t hq => ?_
    cases hq
  have hl' : ∀ q log, r.dealerLogs[q]? = some log →
      q ∈ config.info.participants ∧ ∃ signed, F.check config.info signed = some (q, log) := by
    intro q log hget
    refine ⟨(mem_info_participants rfl).2 (hl q ?_), hc q log hget⟩
    exact mem_iff_isSome_getElem?.2 (isSome_of_eq_some hget)
  refine { sound := hsn, logs := hl', player := ?_, acked := ?_, pubMsgs := ?_,
           privMsgs := ?_, notFinalized := ?_, sentReady := ?_ }
  · rw [hreq]
    exact ⟨_, rfl, .new⟩
  · rw [hreq]
    exact fun q => iff_of_false (Finset.notMem_empty q) fun hb => absurd hb.1 not_mem_empty
  · rw [hreq]
    exact fun q hq => absurd hq not_mem_empty
  · rw [hreq]
    exact fun q hq => absurd hq not_mem_empty
  · rw [hreq]
    rfl
  · rw [hreq]
    exact fun hst => by cases hst

/-- **A restarted participant can finish iff it starts its dealer again**: not from `DealerStarted`
to `CollectingLogs`. -/
theorem restart_finishes_iff
    (hr : tryRestore F config (some saved) timestampNanos = .ok (some r))
    (hworks : Works F config.info)
    (hpeers : ∀ q ∈ config.participants, q ≠ config.publicKey → q ∈ config.bootstrapPeers)
    (hlogs : ∀ q ∈ r.dealerLogs, q ∈ config.participants) {seed : PublicKey → F.Seed}
    {acks : PublicKey → List (PublicKey × F.Ack)}
    (hinj : (offeredMessages config.info r.session.ceremonyId seed acks config.publicKey).InjOn
      fun msg => F.sha256 msg.toBytes)
    (hfits : ∀ msg ∈ offeredMessages config.info r.session.ceremonyId seed acks config.publicKey,
      ProtocolMessage.KindFits config.n msg.kind) :
    (∃ node, NodeReaches
        (NodeEvent.FromOthers config.info r.session.ceremonyId seed config.publicKey)
        (.begin r (some r.currentPhase)) node ∧ node.pc = .finished ∧
      node.participant.ourSignedLog.isSome = true) ↔
    saved.phase.skipsPhase1 = false := by
  obtain ⟨s₀, hnew, ⟨dealerLogs, signedLogs, ourSignedLog, hreq⟩, -⟩ := tryRestore_eq_some hr
  obtain ⟨hn, hown, -⟩ := new_eq_ok hnew
  constructor
  · rintro ⟨node, ⟨events, he, rfl⟩, hpc, -⟩
    by_contra hs
    have hst := (Stuck.of_tryRestore hr (by simpa using hs)).run fun sender bytes hmem =>
      (he _ hmem).2.1
    have hb := hst.pc
    rw [hpc] at hb
    cases hb
  · intro hs
    have hg := Going.of_tryRestore hr hpeers hlogs (fun q => some (seed q))
    have hrc : Recorded
        (offeredMessages config.info r.session.ceremonyId seed acks config.publicKey) r := by
      intro msg _ hsn
      rw [hreq, (new_eq_ok hnew).2.2] at hsn
      exact absurd hsn (Finset.notMem_empty _)
    have hl : config.info.participants.length = config.n := length_info_participants rfl
    rw [← hl] at hfits
    obtain ⟨s', hrh, hlog⟩ := reaches_finished hworks ((mem_info_participants rfl).2 hown) hinj
      hfits ⟨hg, hrc⟩ ((perm_insertionSort _ _).nodup_iff.2 hn)
      (by rw [hreq, (new_eq_ok hnew).2.2]; exact Finset.notMem_empty _)
    have hp : r.currentPhase = saved.phase := by rw [hreq]
    have hbg : CeremonyNode.begin r (some r.currentPhase) = ⟨r, .start, [], false⟩ := by
      rw [hp]
      cases hsv : saved.phase with
      | awaitingStart | completed | failed => rfl
      | _ =>
        rw [hsv] at hs
        cases hs
    rw [hbg]
    exact ⟨_, hrh, rfl, hlog⟩

end Restart

theorem small_works (info : DkgInfo) : Works .small info where
  accepts := small_accepts
  share dealer t player hp := ⟨_, List.mem_map.2 ⟨player, hp, rfl⟩⟩
  ack := by
    intro dealer t player dealers state privMsg hs _ hmem
    obtain rfl := small_playerOf hs.playerOf
    obtain ⟨player', -, heq⟩ := List.mem_map.1 hmem
    obtain ⟨rfl, rfl⟩ := Prod.mk.inj heq
    exact ⟨_, _, congrArg _ (if_pos rfl)⟩
  log dealer t acks := ⟨_, rfl⟩
  finish player dealers state logs hs hd hch hc := ⟨rfl, rfl⟩

def tripleOffers : List Bytes :=
  ([2, 3].flatMap fun q : PublicKey => [.dealerPublic q (Feldman.lastByte q),
    .dealerPrivate q (Feldman.lastByte 1), .ready q, .dealerLog (q, (0 : UInt8))]).map
    fun kind : ProtocolMessageKind .small =>
      (ProtocolMessage.new (tripleParticipant 1 0).session.ceremonyId kind).toBytes

theorem tripleOffers_mem {msg : ProtocolMessage .small}
    (h : msg ∈ offeredMessages (triple 1).info (tripleParticipant 1 0).session.ceremonyId
      (fun _ => ()) (fun _ => []) 1) :
    ProtocolMessage.KindFits (triple 1).n msg.kind ∧ msg.toBytes ∈ tripleOffers := by
  obtain ⟨sender, hs, hne, kind, hk, rfl⟩ := h
  have hsr : (triple 1).info.participants = [1, 2, 3] := rfl
  rw [hsr] at hs
  have hmem : sender ∈ ([2, 3] : List PublicKey) := (mem_cons.1 hs).resolve_left hne
  rw [tripleOffers, List.mem_map]
  cases hk with
  | dealerPublic =>
    refine ⟨⟨rfl, trivial⟩, _, mem_flatMap.2 ⟨sender, hmem, ?_⟩, rfl⟩
    exact mem_cons_self
  | dealerPrivate privMsg hprivMsg =>
    obtain ⟨player, -, heq⟩ := List.mem_map.1 hprivMsg
    obtain ⟨rfl, rfl⟩ := Prod.mk.inj heq
    refine ⟨⟨rfl, trivial⟩, _, mem_flatMap.2 ⟨sender, hmem, ?_⟩, rfl⟩
    exact mem_cons_of_mem _ mem_cons_self
  | ready =>
    refine ⟨rfl, _, mem_flatMap.2 ⟨sender, hmem, ?_⟩, rfl⟩
    exact mem_cons_of_mem _ (mem_cons_of_mem _ mem_cons_self)
  | dealerLog =>
    refine ⟨trivial, _, mem_flatMap.2 ⟨sender, hmem, ?_⟩, rfl⟩
    exact mem_cons_of_mem _ (mem_cons_of_mem _ (mem_cons_of_mem _
      mem_cons_self))

theorem tripleOffers_injOn :
    (offeredMessages (F := .small) (triple 1).info (tripleParticipant 1 0).session.ceremonyId
      (fun _ => ()) (fun _ => []) 1).InjOn fun msg => Feldman.small.sha256 msg.toBytes :=
  injOn_of_nodup (by decide) (l := tripleOffers) (by decide +kernel) fun _ => tripleOffers_mem

theorem triple_peers : ∀ q ∈ (triple 1).participants, q ≠ (triple 1).publicKey →
    q ∈ (triple 1).bootstrapPeers :=
  fun _ hq hne => (mem_erase_of_ne hne).2 hq

def tripleFailed : PersistedDkgState := ((tripleParticipant 1 0).setPhase .failed).saveState

theorem restart_finishes_iff_failed : tripleFailed.phase.skipsPhase1 = false ∧
    ∃ node, NodeReaches (NodeEvent.FromOthers (triple 1).info
        (tripleParticipant 1 0).session.ceremonyId (fun _ => ()) 1)
        (.begin ((tripleParticipant 1 0).setPhase .failed) (some .failed)) node ∧
      node.pc = .finished ∧ node.participant.ourSignedLog.isSome = true := by
  have hnew : new .small (triple 1) 0 = .ok (tripleParticipant 1 0) := rfl
  have hr : tryRestore .small (triple 1) (some tripleFailed) 0 =
      .ok (some ((tripleParticipant 1 0).setPhase .failed)) :=
    tryRestore_of_no_logs hnew rfl rfl rfl
  refine ⟨rfl, (restart_finishes_iff hr (small_works _) triple_peers ?_ tripleOffers_injOn
    fun _ hmsg => (tripleOffers_mem hmsg).1).2 rfl⟩
  exact fun q hq => absurd hq not_mem_empty

/-- The phases in which a participant is restored after phase 1. -/
def restartPhases : List DkgPhase :=
  [.dealerStarted, .collectingMessages, .dealerFinalized, .collectingLogs]

/-- A participant that crashes after it has started its dealer does not finish after a restart. -/
theorem restart_stuck : ¬ ∀ (F : Feldman) (config : DkgConfig) (timestampNanos : ℕ)
    (s₀ r : DkgParticipant F) (past : List (NodeEvent F)) (seed : PublicKey → F.Seed)
    (acks : PublicKey → List (PublicKey × F.Ack)),
    DkgParticipant.new F config timestampNanos = .ok s₀ → Works F config.info →
    (∀ q ∈ config.participants, q ≠ config.publicKey → q ∈ config.bootstrapPeers) →
    ((offeredMessages config.info s₀.session.ceremonyId seed acks config.publicKey).InjOn
      fun msg => F.sha256 msg.toBytes) →
    (∀ msg ∈ offeredMessages config.info s₀.session.ceremonyId seed acks config.publicKey,
      ProtocolMessage.KindFits config.n msg.kind) →
    (past.foldl CeremonyNode.handle (.begin s₀ none)).participant.saveState.phase ∈
      restartPhases →
    tryRestore F config
      (some (past.foldl CeremonyNode.handle (.begin s₀ none)).participant.saveState)
      timestampNanos = .ok (some r) →
    ∃ node, NodeReaches
        (NodeEvent.FromOthers config.info s₀.session.ceremonyId seed config.publicKey)
        (.begin r (some r.currentPhase)) node ∧ node.pc = .finished ∧
      node.participant.ourSignedLog.isSome = true := by
  intro h
  have hnew : new .small (triple 1) 0 = .ok (tripleParticipant 1 0) := rfl
  let started : CeremonyNode .small :=
    [NodeEvent.act (.seed ())].foldl CeremonyNode.handle (.begin (tripleParticipant 1 0) none)
  have hsv : started.participant.saveState.phase = .dealerStarted ∧
      started.participant.saveState.session = (tripleParticipant 1 0).session ∧
      started.participant.saveState.dealerFinalized = false ∧
      started.participant.saveState.receivedLogs = [] := by
    decide +kernel
  obtain ⟨hp, hs, hown, hl⟩ := hsv
  have hr := tryRestore_of_no_logs hnew hs hown hl
  obtain ⟨node, ⟨events, he, rfl⟩, hpc, -⟩ := h .small (triple 1) 0 (tripleParticipant 1 0) _
    [.act (.seed ())] (fun _ => ()) (fun _ => []) hnew (small_works _) triple_peers
    tripleOffers_injOn (fun _ hmsg => (tripleOffers_mem hmsg).1) (by rw [hp]; decide) hr
  have hst := (Stuck.of_tryRestore hr (by rw [hp]; rfl)).run fun sender bytes hmem =>
    (he _ hmem).2.1
  have hb := hst.pc
  rw [hpc] at hb
  cases hb

end Kora
