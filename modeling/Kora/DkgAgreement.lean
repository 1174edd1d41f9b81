/-
Agreement on the dealer logs of the key generation ceremony (`node/dkg/src/protocol.rs`).

A participant keeps the first valid log that it sees of each dealer. Honest dealers
publish one log; what the others sign is up to them.

* `HonestEvent` — what signatures and the program of the ceremony guarantee;
* `agreement` — if no dealer signs two logs, participants that can finalize derive the
  same key.
-/
import Kora.DkgNetwork

open Std ExtTreeMap Option Function

namespace Kora

open DkgParticipant Feldman

variable {F : Feldman}

/-- The signed logs in a message. -/
def ProtocolMessageKind.signedLogs : ProtocolMessageKind F → List F.SignedLog
  | .dealerLog signed => [signed]
  | .allLogs logs => logs.map (·.2)
  | _ => []

/-- The signed logs in some bytes. -/
def DkgParticipant.Op.signedLogs (n : ℕ) : Op F → List F.SignedLog
  | .receive _ bytes =>
    match ProtocolMessage.fromBytes F bytes n with
    | .ok msg => msg.kind.signedLogs
    | .error _ => []
  | .call _ => []

/-! ### The logs of one participant -/

theorem DkgParticipant.Taken.dealerLogs {s s' : DkgParticipant F} {sender : PublicKey}
    {kind : ProtocolMessageKind F} (h : Taken s sender kind s') {dealer : PublicKey} {log : F.Log}
    (hlog : s'.dealerLogs[dealer]? = some log) :
    s.dealerLogs[dealer]? = some log ∨ s.isParticipant dealer = true ∧
      ∃ signed ∈ kind.signedLogs, F.check s.config.info signed = some (dealer, log) := by
  cases h with
  | dealerPublic msg hs hnew | dealerPrivate msg hs hnew =>
    obtain ⟨player, outgoing, acksSent, heq⟩ := tryProcessDealerMessages_eq _ sender
    rw [heq] at hlog
    exact .inl hlog
  | playerAck ack => exact .inl hlog
  | dealerLog signed dealer' log' hc hd hs hnew =>
    rcases getElem?_insert_cases hlog with hold | ⟨rfl, rfl⟩
    · exact .inl hold
    · exact .inr ⟨hd, signed, List.mem_cons_self, hc⟩
  | requestLogs => exact .inl hlog
  | allLogs logs hl =>
    have hinv : (s.recordLogs logs).config = s.config ∧
        ∀ dealer log, (s.recordLogs logs).dealerLogs[dealer]? = some log →
          s.dealerLogs[dealer]? = some log ∨ s.isParticipant dealer = true ∧
            ∃ signed ∈ logs.map (·.2), F.check s.config.info signed = some (dealer, log) := by
      refine recordLogs_invariant (fun t => t.config = s.config ∧
        ∀ dealer log, t.dealerLogs[dealer]? = some log →
          s.dealerLogs[dealer]? = some log ∨ s.isParticipant dealer = true ∧
            ∃ signed ∈ logs.map (·.2), F.check s.config.info signed = some (dealer, log))
        ⟨rfl, fun dealer log hold => .inl hold⟩ ?_
      rintro t dealer' log' signed ⟨hcn, ht⟩ hmem hc hd -
      refine ⟨hcn, fun d l hget => ?_⟩
      rw [hcn] at hc
      rw [isParticipant, hcn] at hd
      rcases getElem?_insert_cases hget with hold | ⟨rfl, rfl⟩
      · exact ht d l hold
      · exact .inr ⟨hd, signed, hmem, hc⟩
    exact hinv.2 dealer log hlog
  | ready => exact .inl hlog

theorem DkgParticipant.Taken.dealer {s s' : DkgParticipant F} {sender : PublicKey}
    {kind : ProtocolMessageKind F} (h : Taken s sender kind s') :
    s'.ourSignedLog = s.ourSignedLog ∧ s'.dealer.map (·.secret) = s.dealer.map (·.secret) := by
  cases h with
  | dealerPublic msg hs hnew | dealerPrivate msg hs hnew =>
    obtain ⟨player, outgoing, acksSent, heq⟩ := tryProcessDealerMessages_eq _ sender
    rw [heq]
    exact ⟨rfl, rfl⟩
  | playerAck ack =>
    refine ⟨rfl, ?_⟩
    rw [Option.map_map]
    refine congrArg (Option.map · s.dealer) (funext fun own => ?_)
    rw [comp_apply, Dealer.receivePlayerAck]
    split_ifs <;> rfl
  | dealerLog signed dealer log hc hd hs hnew | requestLogs => exact ⟨rfl, rfl⟩
  | allLogs logs hl =>
    obtain ⟨dealerLogs, signedLogs, heq⟩ := recordLogs_eq s logs
    rw [heq]
    exact ⟨rfl, rfl⟩
  | ready => exact ⟨rfl, rfl⟩

/-- What a step can do to the logs: record what came in, publish the own log, or nothing. -/
inductive DkgParticipant.LogStep (s : DkgParticipant F) : Op F → DkgParticipant F → Prop where
  | receive {sender : PublicKey} {bytes : Bytes} {s' : DkgParticipant F}
      (hown : s'.ourSignedLog = s.ourSignedLog)
      (hsecret : s'.dealer.map (·.secret) = s.dealer.map (·.secret))
      (hlogs : ∀ dealer log, s'.dealerLogs[dealer]? = some log →
        s.dealerLogs[dealer]? = some log ∨ s.isParticipant dealer = true ∧
          ∃ signed ∈ (Op.receive sender bytes).signedLogs s.config.n,
            F.check s.config.info signed = some (dealer, log)) :
      LogStep s (.receive sender bytes) s'
  | startDealer {seed : F.Seed} {s' : DkgParticipant F}
      (hown : s'.ourSignedLog = s.ourSignedLog)
      (hsecret : s'.dealer.map (·.secret) =
        some (F.start s.config.info s.config.publicKey seed).1)
      (hlogs : s'.dealerLogs = s.dealerLogs) : LogStep s (.call (.startDealer seed)) s'
  | publish {own : Dealer F} {dealer : PublicKey} {log : F.Log} {s' : DkgParticipant F}
      (hdealer : s.dealer = some own)
      (hcheck : F.check s.config.info own.finalize = some (dealer, log))
      (hnone : s'.dealer = none) (hown : s'.ourSignedLog = some own.finalize)
      (hlogs : s'.dealerLogs = s.dealerLogs.insert dealer log) :
      LogStep s (.call .finalizeDealer) s'
  | other {op : Op F} {s' : DkgParticipant F} (hown : s'.ourSignedLog = s.ourSignedLog)
      (hdealer : s'.dealer = s.dealer ∨ s'.dealer = none)
      (hlogs : s'.dealerLogs = s.dealerLogs) : LogStep s op s'

theorem DkgParticipant.logStep (s : DkgParticipant F) (op : Op F) : LogStep s op (s.step op) := by
  cases op with
  | receive sender bytes =>
    rw [step]
    rcases handleMessageBytes_cases s sender bytes with
      ⟨-, heq⟩ | ⟨e, -, -, heq⟩ | ⟨msg, -, ha, heq⟩
    · rw [heq]
      exact .other rfl (.inl rfl) rfl
    · rw [heq]
      exact .other rfl (.inl rfl) rfl
    · have hl : (Op.receive sender bytes).signedLogs s.config.n = msg.kind.signedLogs := by
        rw [Op.signedLogs, fromBytes_of_admission ha]
      rw [heq]
      rcases handleMessage_cases (s.mark (F.sha256 bytes)) sender msg with hself | ⟨-, -, ht⟩
      · rw [hself]
        exact .other rfl (.inl rfl) rfl
      · refine .receive ht.dealer.1 ht.dealer.2 fun dealer log hlog => ?_
        rw [hl]
        exact ht.dealerLogs hlog
  | call call =>
    rw [step]
    cases call with
    | startDealer seed =>
      obtain ⟨player, outgoing, acksSent, heq⟩ := startDealer_eq s seed
      rw [act, heq]
      exact .startDealer rfl rfl rfl
    | finalizeDealer =>
      rw [act, finalizeDealer]
      cases hd : s.dealer with
      | none => exact .other rfl (.inl rfl) rfl
      | some own =>
        dsimp only
        cases hc : F.check s.config.info own.finalize with
        | none => exact .other rfl (.inr rfl) rfl
        | some entry => exact .publish hd hc rfl rfl rfl
    | broadcastReady =>
      rw [act, broadcastReady]
      split <;> exact .other rfl (.inl rfl) rfl
    | finalize =>
      rw [act, finalize_fst]
      split_ifs <;> exact .other rfl (.inl rfl) rfl
    | takeOutgoing | setPhase phase => exact .other rfl (.inl rfl) rfl

/-! ### The honest participants -/

/-- The honest participants, by their keys. -/
abbrev Parties (F : Feldman) := PublicKey → DkgParticipant F

/-- One of the participants takes a step. -/
def partiesStep (σ : Parties F) (event : PublicKey × Op F) : Parties F :=
  Function.update σ event.1 ((σ event.1).step event.2)

/-- A participant starts its dealer once. -/
def DkgParticipant.StartsOnce (s : DkgParticipant F) : Op F → Prop
  | .call (.startDealer _) => s.dealer.isNone ∧ s.ourSignedLog.isNone
  | _ => True

/-- A step of an honest participant; a valid log of an honest dealer is the one it published. -/
def HonestEvent (info : DkgInfo) (honest : Finset PublicKey) (σ : Parties F)
    (event : PublicKey × Op F) : Prop :=
  event.1 ∈ honest ∧ (σ event.1).StartsOnce event.2 ∧
    ∀ signed ∈ event.2.signedLogs info.participants.length, ∀ entry ∈ F.check info signed,
      entry.1 ∈ honest → (σ entry.1).ourSignedLog = some signed

def SingleLogs (info : DkgInfo) (honest : Finset PublicKey) (single : PublicKey → F.Log)
    (event : PublicKey × Op F) : Prop :=
  ∀ signed ∈ event.2.signedLogs info.participants.length, ∀ entry ∈ F.check info signed,
    entry.1 ∉ honest → entry.2 = single entry.1

def IsLogOf (info : DkgInfo) (honest : Finset PublicKey) (single : PublicKey → F.Log)
    (σ : Parties F) (dealer : PublicKey) (log : F.Log) : Prop :=
  (dealer ∈ honest → ∃ signed, (σ dealer).ourSignedLog = some signed ∧
    F.check info signed = some (dealer, log)) ∧
  (dealer ∉ honest → log = single dealer)

/-- What holds of the honest participants along a run. -/
structure LogsAgree (info : DkgInfo) (honest : Finset PublicKey) (single : PublicKey → F.Log)
    (σ : Parties F) : Prop where
  publicKey : ∀ p ∈ honest, (σ p).config.publicKey = p
  info_eq : ∀ p ∈ honest, (σ p).config.info = info
  /-- The dealer of a participant is its own. -/
  secret : ∀ p ∈ honest, ∀ own, (σ p).dealer = some own →
    ∃ seed, own.secret = (F.start info p seed).1
  /-- A participant that has published its log has no dealer any more. -/
  once : ∀ p ∈ honest, (σ p).ourSignedLog.isSome = true → (σ p).dealer = none
  logs : ∀ p ∈ honest, ∀ dealer log, (σ p).dealerLogs[dealer]? = some log →
    dealer ∈ info.participants ∧ IsLogOf info honest single σ dealer log

section Agreement

variable {info : DkgInfo} {honest : Finset PublicKey} {single : PublicKey → F.Log} {σ : Parties F}

theorem mem_info_participants {config : DkgConfig} (h : config.info = info) {key : PublicKey} :
    key ∈ info.participants ↔ key ∈ config.participants := by
  rw [← h]
  exact List.mem_insertionSort _

theorem length_info_participants {config : DkgConfig} (h : config.info = info) :
    info.participants.length = config.n := by
  rw [← h]
  exact List.length_insertionSort _ _

theorem LogsAgree.init {config : PublicKey → DkgConfig} {timestampNanos : ℕ}
    (hσ : ∀ p ∈ honest, (config p).publicKey = p ∧ (config p).info = info ∧
      DkgParticipant.new F (config p) timestampNanos = .ok (σ p)) :
    LogsAgree info honest single σ := by
  have heq : ∀ p ∈ honest, σ p = DkgParticipant.init F (config p) timestampNanos :=
    fun p hp => (new_eq_ok (hσ p hp).2.2).2.2
  refine ⟨?_, ?_, ?_, ?_, ?_⟩
  · intro p hp
    rw [heq p hp]
    exact (hσ p hp).1
  · intro p hp
    rw [heq p hp]
    exact (hσ p hp).2.1
  · intro p hp own hown
    rw [heq p hp] at hown
    cases hown
  · intro p hp _
    rw [heq p hp]
    rfl
  · intro p hp dealer log hlog
    rw [heq p hp] at hlog
    exact absurd hlog (by simp [DkgParticipant.init])

theorem LogsAgree.ourSignedLog_step (h : LogsAgree info honest single σ) {p : PublicKey}
    (hp : p ∈ honest) {op : Op F} {signed : F.SignedLog}
    (hs : (σ p).ourSignedLog = some signed) :
    ((σ p).step op).ourSignedLog = some signed := by
  have hnone := h.once p hp (by rw [hs]; rfl)
  have hst := logStep (σ p) op
  generalize (σ p).step op = s' at hst
  cases hst with
  | receive hown hsc hl | startDealer hown hsc hl => rw [hown, hs]
  | publish hd hc hnone' hown hl =>
    rw [hnone] at hd
    cases hd
  | other hown hd hl => rw [hown, hs]

variable {event : PublicKey × Op F}

section

variable (h : LogsAgree info honest single σ)
include h

theorem IsLogOf.step (he : event.1 ∈ honest) {dealer : PublicKey} {log : F.Log}
    (hlog : IsLogOf info honest single σ dealer log) :
    IsLogOf info honest single (partiesStep σ event) dealer log := by
  refine ⟨fun hd => ?_, hlog.2⟩
  obtain ⟨signed, hs, hc⟩ := hlog.1 hd
  refine ⟨signed, ?_, hc⟩
  rw [partiesStep]
  by_cases heq : dealer = event.1
  · subst heq
    rw [update_self]
    exact h.ourSignedLog_step he hs
  · rwa [update_of_ne heq]

theorem LogsAgree.party (hsi : ∀ (info : DkgInfo) (key : PublicKey) (seed : F.Seed) acks entry,
      F.check info (F.finalizeDealer (F.start info key seed).1 acks) = some entry → entry.1 = key)
    (hh : HonestEvent info honest σ event) (hsn : SingleLogs info honest single event)
    (hmem : event.1 ∈ info.participants) {s' : DkgParticipant F}
    (hs' : partiesStep σ event event.1 = s') :
    (∀ own, s'.dealer = some own → ∃ seed, own.secret = (F.start info event.1 seed).1) ∧
    (s'.ourSignedLog.isSome = true → s'.dealer = none) ∧
    ∀ dealer log, s'.dealerLogs[dealer]? = some log →
      dealer ∈ info.participants ∧ IsLogOf info honest single (partiesStep σ event) dealer log := by
  obtain ⟨p, op⟩ := event
  obtain ⟨hp, ho, ha⟩ := hh
  have hself : partiesStep σ (p, op) p = (σ p).step op := update_self ..
  have hi := h.info_eq p hp
  have hold : ∀ dealer log, (σ p).dealerLogs[dealer]? = some log → dealer ∈ info.participants ∧
      IsLogOf info honest single (partiesStep σ (p, op)) dealer log := by
    intro dealer log hlog
    obtain ⟨hd, hlg⟩ := h.logs p hp dealer log hlog
    exact ⟨hd, hlg.step h hp⟩
  have hs := h.secret p hp
  have ho' := h.once p hp
  have hst := logStep (σ p) op
  rw [← hself, hs'] at hst
  cases hst with
  | receive hown hd hl =>
    refine ⟨?_, ?_, ?_⟩
    · intro own hown'
      rw [hown', map_some] at hd
      obtain ⟨own', hown'', heq⟩ := map_eq_some_iff.1 hd.symm
      obtain ⟨seed, hsd⟩ := hs own' hown''
      exact ⟨seed, heq.symm.trans hsd⟩
    · intro hsome
      rw [hown] at hsome
      rw [ho' hsome, map_none] at hd
      exact map_eq_none_iff.1 hd
    · intro dealer log hlog
      rcases hl dealer log hlog with hlog | ⟨hpr, signed, hsg, hc⟩
      · exact hold dealer log hlog
      rw [hi] at hc
      rw [← length_info_participants hi] at hsg
      refine ⟨(mem_info_participants hi).2 (List.contains_iff_mem.1 hpr), ?_, ?_⟩
      · -- a log of an honest dealer is the one that it has published
        intro hd
        have hpb := ha signed hsg _ hc hd
        have hlg : IsLogOf info honest single σ dealer log :=
          ⟨fun _ => ⟨signed, hpb, hc⟩, fun hnot => absurd hd hnot⟩
        exact (hlg.step h hp).1 hd
      · exact hsn signed hsg _ hc
  | startDealer hown hd hl =>
    refine ⟨?_, ?_, ?_⟩
    · intro own hown'
      rw [hown', map_some, some_inj, hi, h.publicKey p hp] at hd
      exact ⟨_, hd⟩
    · intro hsome
      rw [hown] at hsome
      obtain ⟨-, hnone⟩ := ho
      rw [isNone_iff_eq_none.1 hnone] at hsome
      cases hsome
    · rwa [hl]
  | publish hd hc hnone hown hl =>
    refine ⟨?_, fun _ => hnone, ?_⟩
    · intro own hown'
      rw [hnone] at hown'
      cases hown'
    · intro dealer log hlog
      rw [hl] at hlog
      rcases getElem?_insert_cases hlog with hlog | ⟨rfl, rfl⟩
      · exact hold dealer log hlog
      -- the own log names its dealer
      obtain ⟨seed, hsd⟩ := hs _ hd
      rw [hi] at hc
      have hkey := hsi info p seed _ _ (by rw [← hsd]; exact hc)
      obtain rfl : _ = p := hkey
      refine ⟨hmem, fun _ => ⟨_, ?_, hc⟩, fun hnot => absurd hp hnot⟩
      rw [hs', hown]
  | other hown hd hl =>
    refine ⟨?_, ?_, ?_⟩
    · intro own hown'
      rcases hd with hsm | hnone
      · rw [hsm] at hown'
        exact hs own hown'
      · rw [hnone] at hown'
        cases hown'
    · intro hsome
      rw [hown] at hsome
      rcases hd with hsm | hnone
      · rw [hsm]
        exact ho' hsome
      · exact hnone
    · rwa [hl]

theorem LogsAgree.step (hsg : ∀ (info : DkgInfo) (key : PublicKey) (seed : F.Seed) acks entry,
      F.check info (F.finalizeDealer (F.start info key seed).1 acks) = some entry → entry.1 = key)
    (hh : HonestEvent info honest σ event) (hs : SingleLogs info honest single event)
    (hmem : event.1 ∈ info.participants) : LogsAgree info honest single (partiesStep σ event) := by
  obtain ⟨hsc, hon, hlg⟩ := h.party hsg hh hs hmem rfl
  have ho : ∀ q, q ≠ event.1 → partiesStep σ event q = σ q :=
    fun q hq => update_of_ne hq _ _
  have hc : ∀ q, (partiesStep σ event q).config = (σ q).config := by
    intro q
    by_cases heq : q = event.1
    · rw [heq, partiesStep, update_self]
      exact (step_frame _ _).1
    · rw [ho q heq]
  refine ⟨fun q hq => ?_, fun q hq => ?_, fun q hq => ?_, fun q hq => ?_, fun q hq => ?_⟩
  · rw [hc]
    exact h.publicKey q hq
  · rw [hc]
    exact h.info_eq q hq
  · by_cases heq : q = event.1
    · rw [heq]
      exact hsc
    · rw [ho q heq]
      exact h.secret q hq
  · by_cases heq : q = event.1
    · rw [heq]
      exact hon
    · rw [ho q heq]
      exact h.once q hq
  · by_cases heq : q = event.1
    · rw [heq]
      exact hlg
    · rw [ho q heq]
      intro dealer log hlog
      obtain ⟨hd, hl⟩ := h.logs q hq dealer log hlog
      exact ⟨hd, hl.step h hh.1⟩

theorem LogsAgree.mem_of_canFinalize {p : PublicKey} (hp : p ∈ honest)
    (hf : (σ p).canFinalize = true) {dealer : PublicKey} (hd : dealer ∈ info.participants)
    : dealer ∈ (σ p).dealerLogs := by
  have hs : (σ p).dealerLogs.keys ⊆ info.participants := by
    intro key hkey
    have hmem := mem_keys.1 hkey
    have hget := getElem?_eq_some_getElem hmem
    exact (h.logs p hp key _ hget).1
  have hl : info.participants.length ≤ (σ p).dealerLogs.keys.length := by
    rw [length_keys, length_info_participants (h.info_eq p hp)]
    exact of_decide_eq_true hf
  have hpr := (List.subperm_of_subset nodup_keys hs).perm_of_length_le hl
  exact mem_keys.1 (hpr.mem_iff.2 hd)

end

theorem DkgParticipant.observe_of_finalize {s : DkgParticipant F} {out : Output F}
    (h : s.finalize.2 = .ok out) :
    F.observe s.config.info s.dealerLogs.toList = some out.group := by
  rw [finalize] at h
  dsimp only at h
  split_ifs at h
  · split at h
    · cases h
    · split at h
      · next ho hs =>
        cases h
        exact ho
      · cases h

/-- **Agreement.** If the others sign no two logs, honest participants that can finalize derive the
same group key from the same logs. -/
theorem agreement (hsign : ∀ (info : DkgInfo) (key : PublicKey) (seed : F.Seed) acks entry,
      F.check info (F.finalizeDealer (F.start info key seed).1 acks) = some entry → entry.1 = key)
    {config : PublicKey → DkgConfig} {timestampNanos : ℕ}
    (hσ : ∀ p ∈ honest, (config p).publicKey = p ∧ (config p).info = info ∧
      DkgParticipant.new F (config p) timestampNanos = .ok (σ p))
    {events : List (PublicKey × Op F)}
    (hrun : Run.Along partiesStep (HonestEvent info honest) σ events)
    (hsingle : ∀ event ∈ events, SingleLogs info honest single event)
    {p q : PublicKey} (hp : p ∈ honest) (hq : q ∈ honest)
    (hpfinal : (events.foldl partiesStep σ p).canFinalize = true)
    (hqfinal : (events.foldl partiesStep σ q).canFinalize = true) :
    (events.foldl partiesStep σ p).dealerLogs = (events.foldl partiesStep σ q).dealerLogs ∧
    ∀ out out' : Output F, (events.foldl partiesStep σ p).finalize.2 = .ok out →
      (events.foldl partiesStep σ q).finalize.2 = .ok out' → out.group = out'.group := by
  have hmem : ∀ p ∈ honest, p ∈ info.participants := by
    intro p hp
    obtain ⟨hkey, hi, hnew⟩ := hσ p hp
    have hown := (new_eq_ok hnew).2.1
    rw [hkey] at hown
    exact (mem_info_participants hi).2 hown
  have hinv : LogsAgree info honest single (events.foldl partiesStep σ) :=
    (hrun.and_forall hsingle).invariant (LogsAgree.init hσ)
    fun σ event h he => h.step hsign he.2 he.1 (hmem _ he.2.1)
  generalize events.foldl partiesStep σ = τ at hinv hpfinal hqfinal
  have hsm : (τ p).dealerLogs = (τ q).dealerLogs := by
    refine ext_getElem? fun dealer => ?_
    by_cases hd : dealer ∈ info.participants
    · have hpg := getElem?_eq_some_getElem
        (hinv.mem_of_canFinalize hp hpfinal hd)
      have hqg := getElem?_eq_some_getElem
        (hinv.mem_of_canFinalize hq hqfinal hd)
      obtain ⟨-, hpl⟩ := hinv.logs p hp dealer _ hpg
      obtain ⟨-, hql⟩ := hinv.logs q hq dealer _ hqg
      rw [hpg, hqg, some_inj]
      by_cases hh : dealer ∈ honest
      · -- both are what the dealer has published
        obtain ⟨signed, hs, hc⟩ := hpl.1 hh
        obtain ⟨signed', hs', hc'⟩ := hql.1 hh
        obtain rfl := some_inj.1 (hs.symm.trans hs')
        rw [hc, some_inj] at hc'
        exact (Prod.mk.inj hc').2
      · rw [hpl.2 hh, hql.2 hh]
    · have hnone : ∀ r ∈ honest, (τ r).dealerLogs[dealer]? = none := by
        intro r hr
        cases hget : (τ r).dealerLogs[dealer]? with
        | none => rfl
        | some log => exact absurd (hinv.logs r hr dealer log hget).1 hd
      rw [hnone p hp, hnone q hq]
  refine ⟨hsm, fun out out' hout hout' => ?_⟩
  have ho := observe_of_finalize hout
  rw [hsm, hinv.info_eq p hp, ← hinv.info_eq q hq, observe_of_finalize hout'] at ho
  exact (some_inj.1 ho).symm

end Agreement

/-! ### One dealer with two logs -/

instance (s : DkgParticipant F) : (op : Op F) → Decidable (s.StartsOnce op)
  | .receive _ _ => isTrue trivial
  | .call (.startDealer _) => inferInstanceAs (Decidable (_ ∧ _))
  | .call .finalizeDealer => isTrue trivial
  | .call .broadcastReady => isTrue trivial
  | .call .finalize => isTrue trivial
  | .call .takeOutgoing => isTrue trivial
  | .call (.setPhase _) => isTrue trivial

instance [DecidableEq F.SignedLog] (info : DkgInfo) (honest : Finset PublicKey) (σ : Parties F)
    (event : PublicKey × Op F) : Decidable (HonestEvent info honest σ event) :=
  inferInstanceAs (Decidable (_ ∧ _ ∧ _))

instance [DecidableEq F.Log] (info : DkgInfo) (honest : Finset PublicKey)
    (single : PublicKey → F.Log) (event : PublicKey × Op F) :
    Decidable (SingleLogs info honest single event) :=
  inferInstanceAs (Decidable (∀ signed ∈ _, _))

instance : DecidableEq Feldman.small.Log := inferInstanceAs (DecidableEq UInt8)

instance : DecidableEq Feldman.small.SignedLog := inferInstanceAs (DecidableEq (PublicKey × UInt8))

def quad (key : PublicKey) : DkgConfig where
  publicKey := key
  validatorIndex := key.toNat - 1
  participants := [1, 2, 3, 4]
  chainId := 7
  bootstrapPeers := [1, 2, 3, 4].erase key

def quadParticipant (key : PublicKey) : DkgParticipant .small := .init .small (quad key) 0

/-- A message of the ceremony arrives. -/
def quadReceive (receiver sender : PublicKey) (kind : ProtocolMessageKind .small) :
    PublicKey × Op .small :=
  (receiver, .receive sender
    (ProtocolMessage.new (quadParticipant 1).session.ceremonyId kind).toBytes)

def quadExchange (kinds : PublicKey → PublicKey → List (ProtocolMessageKind .small)) :
    List (PublicKey × Op .small) :=
  [1, 2, 3].flatMap fun receiver => ([1, 2, 3, 4].erase receiver).flatMap fun sender =>
    (kinds sender receiver).map (quadReceive receiver sender)

def quadLog (signer : PublicKey) (value : UInt8) : ProtocolMessageKind .small :=
  .dealerLog ((signer, value) : PublicKey × UInt8)

def quadCeremony : List (PublicKey × Op .small) :=
  [1, 2, 3].map (fun key => (key, .call (.startDealer ()))) ++
  quadExchange (fun sender receiver =>
    [.dealerPublic sender (Feldman.lastByte sender),
      .dealerPrivate sender (Feldman.lastByte receiver),
      .playerAck sender receiver (Feldman.lastByte sender)]) ++
  [1, 2, 3].map (fun key => (key, .call .broadcastReady)) ++
  quadExchange (fun sender _ => [.ready sender]) ++
  [1, 2, 3].map (fun key => (key, .call .finalizeDealer)) ++
  quadExchange (fun sender _ => if sender = 4 then [] else [quadLog sender 3])

theorem quad_new : ∀ p ∈ ({1, 2, 3} : Finset PublicKey), (quad p).publicKey = p ∧
    (quad p).info = (quad 1).info ∧
    DkgParticipant.new .small (quad p) 0 = .ok (quadParticipant p) := by
  intro p hp
  simp only [Finset.mem_insert, Finset.mem_singleton] at hp
  rcases hp with rfl | rfl | rfl <;> exact ⟨rfl, rfl, rfl⟩

theorem small_sign (info : DkgInfo) (key : PublicKey) (seed : small.Seed)
    (acks : List (PublicKey × small.Ack)) (entry : PublicKey × small.Log)
    (h : small.check info
      (small.finalizeDealer (small.start info key seed).1 acks) = some entry) :
    entry.1 = key := by
  cases h
  rfl

/-- The log of the fourth dealer. -/
def quadSingle (_ : PublicKey) : Feldman.small.Log := (0 : UInt8)

/-- The fourth dealer sends its log to all. -/
def quadOneLog : List (PublicKey × Op .small) :=
  quadCeremony ++ [1, 2, 3].map fun key => quadReceive key 4 (quadLog 4 0)

/-- The participants that can finalize have the same logs. -/
theorem agreement_quad :
    (quadOneLog.foldl partiesStep quadParticipant 1).canFinalize = true ∧
    (quadOneLog.foldl partiesStep quadParticipant 1).dealerLogs =
      (quadOneLog.foldl partiesStep quadParticipant 2).dealerLogs := by
  have hrun : Run.Along partiesStep (HonestEvent (quad 1).info {1, 2, 3}) quadParticipant
      quadOneLog ∧ (∀ event ∈ quadOneLog, SingleLogs (quad 1).info {1, 2, 3} quadSingle event) ∧
      (quadOneLog.foldl partiesStep quadParticipant 1).canFinalize = true ∧
      (quadOneLog.foldl partiesStep quadParticipant 2).canFinalize = true := by
    decide +kernel
  obtain ⟨hh, hs, hf, hsc⟩ := hrun
  exact ⟨hf, (agreement small_sign quad_new hh hs (by decide) (by decide) hf
    hsc).1⟩

def quadTwoLogs : List (PublicKey × Op .small) :=
  quadCeremony ++ [quadReceive 1 4 (quadLog 4 0), quadReceive 2 4 (quadLog 4 1)]

/-- Two honest participants can both finalize, and have different logs of one dealer. -/
theorem disagreement : ¬ ∀ (F : Feldman) (info : DkgInfo) (honest : Finset PublicKey)
    (config : PublicKey → DkgConfig) (timestampNanos : ℕ) (σ : Parties F)
    (events : List (PublicKey × Op F)),
    (∀ (info : DkgInfo) (key : PublicKey) (seed : F.Seed) acks entry,
      F.check info (F.finalizeDealer (F.start info key seed).1 acks) = some entry →
        entry.1 = key) →
    (∀ p ∈ honest, (config p).publicKey = p ∧ (config p).info = info ∧
      DkgParticipant.new F (config p) timestampNanos = .ok (σ p)) →
    Run.Along partiesStep (HonestEvent info honest) σ events →
    ∀ p ∈ honest, ∀ q ∈ honest, (events.foldl partiesStep σ p).canFinalize = true →
      (events.foldl partiesStep σ q).canFinalize = true →
      (events.foldl partiesStep σ p).dealerLogs = (events.foldl partiesStep σ q).dealerLogs := by
  intro h
  have hrun : Run.Along partiesStep (HonestEvent (quad 1).info {1, 2, 3}) quadParticipant
      quadTwoLogs ∧ (quadTwoLogs.foldl partiesStep quadParticipant 1).canFinalize = true ∧
      (quadTwoLogs.foldl partiesStep quadParticipant 2).canFinalize = true ∧
      (quadTwoLogs.foldl partiesStep quadParticipant 1).dealerLogs.toList ≠
        (quadTwoLogs.foldl partiesStep quadParticipant 2).dealerLogs.toList := by
    decide +kernel
  obtain ⟨hh, hf, hs, hne⟩ := hrun
  have hsm := h .small (quad 1).info {1, 2, 3} quad 0 quadParticipant quadTwoLogs small_sign
    quad_new hh 1 (by decide) 2 (by decide) hf hs
  exact hne (congrArg ExtTreeMap.toList hsm)

end Kora
