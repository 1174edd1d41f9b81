/-
The files of the key generation ceremony (`node/dkg/src/output.rs`, and `run` in
`node/dkg/src/ceremony.rs`).

When a participant has finalized, it removes the state of the ceremony and writes the
output and then its share. The next run loads the output if both files are there, and
otherwise looks for the state of a ceremony.

* `share_survives_iff` — a crash is survived exactly if output and share are complete. The
  state before it is of a phase from which no run finishes.
-/
import Kora.DkgRestart
import Kora.Disk

namespace Kora

open DkgParticipant Disk

variable {F : Feldman}

def quorum (n : ℕ) : ℕ := n - (n - 1) / 3

/-- The output of a ceremony, with keys and shares as their bytes. -/
structure DkgOutput where
  groupPublicKey : Bytes
  publicPolynomial : Bytes
  threshold : ℕ
  participants : ℕ
  shareIndex : ℕ
  shareSecret : Bytes
  participantKeys : List Bytes
deriving DecidableEq

structure OutputJson where
  groupPublicKey : Bytes
  publicPolynomial : Bytes
  threshold : ℕ
  participants : ℕ
  participantKeys : List Bytes
deriving DecidableEq

structure ShareJson where
  index : ℕ
  secret : Bytes
deriving DecidableEq

/-- The texts of documents. -/
structure Json (α : Type) where
  print : α → Bytes
  parse : Bytes → Option α

/-- The document is read back from its text, but not from a part of it. -/
def Json.Whole {α : Type} (self : Json α) (a : α) : Prop :=
  self.parse (self.print a) = some a ∧
    ∀ k < (self.print a).length, self.parse ((self.print a).take k) = none

/-- The texts of the three files. -/
structure Documents where
  output : Json OutputJson
  share : Json ShareJson
  state : Json PersistedDkgState

/-- The files `output.json`, `share.key` and `dkg_state.json`. -/
inductive DataFile where
  | output
  | share
  | state
deriving DecidableEq

abbrev DataDir := Directory DataFile UInt8

namespace DkgOutput

def outputJson (self : DkgOutput) : OutputJson where
  groupPublicKey := self.groupPublicKey
  publicPolynomial := self.publicPolynomial
  threshold := self.threshold
  participants := self.participants
  participantKeys := self.participantKeys

def shareJson (self : DkgOutput) : ShareJson where
  index := self.shareIndex
  secret := self.shareSecret

/-- Write the output, and then the share. -/
def save (J : Documents) (self : DkgOutput) : List (Step DataFile UInt8) :=
  write .output (J.output.print self.outputJson) ++ write .share (J.share.print self.shareJson)

/-- Both files exist, whatever is in them. -/
def exists_ (d : DataDir) : Bool := (d .output).isSome && (d .share).isSome

/-- Load an output. The threshold in the file is not used. -/
def load (J : Documents) (d : DataDir) : Option DkgOutput := do
  let output ← (d .output).bind J.output.parse
  let share ← (d .share).bind J.share.parse
  return {
    groupPublicKey := output.groupPublicKey
    publicPolynomial := output.publicPolynomial
    threshold := quorum output.participants
    participants := output.participants
    shareIndex := share.index
    shareSecret := share.secret
    participantKeys := output.participantKeys }

end DkgOutput

/-- Remove the state of the ceremony, if there is one. -/
def PersistedDkgState.clear (d : DataDir) : List (Step DataFile UInt8) :=
  if (d .state).isSome then [.remove .state] else []

/-- What is done with the files once a participant has finalized. -/
def completion (J : Documents) (d : DataDir) (out : DkgOutput) : List (Step DataFile UInt8) :=
  PersistedDkgState.clear d ++ out.save J

inductive Startup (F : Feldman) where
  | loaded (output : DkgOutput)
  /-- With a new participant, or with one that is restored in some phase. -/
  | began (participant : DkgParticipant F) (restoredPhase : Option DkgPhase)

/-- The state of a ceremony, if there is one. It may be unreadable. -/
def PersistedDkgState.load (J : Documents) (file : Option Bytes) :
    Option (Option PersistedDkgState) :=
  match file with
  | some bytes => (J.state.parse bytes).map some
  | none => some none

/-- The participant of a run, unless there is an error. -/
def restoreOrNew (F : Feldman) (J : Documents) (config : DkgConfig) (timestampNanos : ℕ)
    (file : Option Bytes) : Option (DkgParticipant F × Option DkgPhase) := do
  let state ← PersistedDkgState.load J file
  match tryRestore F config state timestampNanos with
  | .error _ => none
  | .ok (some participant) => return (participant, some participant.currentPhase)
  | .ok none =>
    match DkgParticipant.new F config timestampNanos with
    | .error _ => none
    | .ok participant => return (participant, none)

/-- The beginning of a run, unless there is an error. A forced restart clears the state. -/
def startup (F : Feldman) (J : Documents) (config : DkgConfig) (forceRestart : Bool)
    (timestampNanos : ℕ) (d : DataDir) : Option (Startup F) :=
  if DkgOutput.exists_ d then (DkgOutput.load J d).map .loaded
  else (restoreOrNew F J config timestampNanos (if forceRestart then none else d .state)).map
    fun entry => .began entry.1 entry.2

/-- A run from a restored participant can finish; the transport delivers nothing to its sender. -/
def CanFinish (config : DkgConfig) (r : DkgParticipant F) : Prop :=
  ∃ events : List (NodeEvent F),
    (∀ sender bytes, .deliver sender bytes ∈ events → sender ≠ config.publicKey) ∧
    (events.foldl CeremonyNode.handle (.begin r (some r.currentPhase))).pc = .finished

def Survives (F : Feldman) (J : Documents) (config : DkgConfig) (forceRestart : Bool)
    (timestampNanos : ℕ) (out : DkgOutput) (d : DataDir) : Prop :=
  startup F J config forceRestart timestampNanos d = some (.loaded out) ∨
    ∃ r, startup F J config forceRestart timestampNanos d =
        some (.began r (some r.currentPhase)) ∧ CanFinish config r

/-- How the library writes keys and shares. -/
structure OutputCodec (F : Feldman) where
  groupPublicKey : F.Public → Bytes
  publicPolynomial : F.Public → Bytes
  shareIndex : F.Share → ℕ
  shareSecret : F.Share → Bytes

def OutputCodec.output (C : OutputCodec F) (out : Output F) : DkgOutput where
  groupPublicKey := C.groupPublicKey out.group
  publicPolynomial := C.publicPolynomial out.group
  threshold := out.threshold
  participants := out.participants
  shareIndex := C.shareIndex out.share
  shareSecret := C.shareSecret out.share
  participantKeys := out.participantKeys.map ProtocolMessage.keyBytes

/-- The directory once a participant has written its state. -/
def stateSaved (J : Documents) (s : DkgParticipant F) (d : DataDir) : DataDir :=
  Function.update d .state (some (J.state.print s.saveState))

def crashed (J : Documents) (s : DkgParticipant F) (out : DkgOutput) (d : DataDir) (i : ℕ) :
    DataDir :=
  crash (completion J (stateSaved J s d) out) i (stateSaved J s d)

/-! ### What a run finds -/

section Load

variable {J : Documents} {config : DkgConfig} {forceRestart : Bool} {timestampNanos : ℕ}
  {out : DkgOutput} {d : DataDir}

theorem DkgOutput.load_eq_iff (ht : out.threshold = quorum out.participants)
    (ho : (d .output).bind J.output.parse = some out.outputJson) :
    DkgOutput.load J d = some out ↔ (d .share).bind J.share.parse = some out.shareJson := by
  rw [DkgOutput.load, ho]
  cases hs : (d .share).bind J.share.parse with
  | none => simp
  | some share =>
    rcases out with ⟨key, polynomial, threshold, participants, index, secret, keys⟩
    rcases share with ⟨index', secret'⟩
    obtain rfl : threshold = quorum participants := ht
    simp [DkgOutput.outputJson, DkgOutput.shareJson]

theorem DkgOutput.load_eq_none_of_output (h : (d .output).bind J.output.parse = none) :
    DkgOutput.load J d = none := by
  rw [DkgOutput.load, h]
  rfl

theorem DkgOutput.load_eq_none_of_share (h : (d .share).bind J.share.parse = none) :
    DkgOutput.load J d = none := by
  rw [DkgOutput.load, h]
  cases (d .output).bind J.output.parse <;> rfl

theorem restoreOrNew_eq_some {file : Option Bytes} {s : DkgParticipant F} {phase : Option DkgPhase}
    (h : restoreOrNew F J config timestampNanos file = some (s, phase)) :
    ∃ state, PersistedDkgState.load J file = some state ∧
      (tryRestore F config state timestampNanos = .ok (some s) ∨
        phase = none ∧ DkgParticipant.new F config timestampNanos = .ok s) := by
  obtain ⟨state, hs, h⟩ := Option.bind_eq_some_iff.1 h
  refine ⟨state, hs, ?_⟩
  split at h
  · cases h
  · next participant hr =>
    cases h
    exact .inl hr
  · split at h
    · cases h
    · next participant hnew =>
      cases h
      exact .inr ⟨rfl, hnew⟩

theorem startup_eq_loaded_iff : startup F J config forceRestart timestampNanos d =
      some (.loaded out) ↔ DkgOutput.exists_ d = true ∧ DkgOutput.load J d = some out := by
  rw [startup]
  by_cases he : DkgOutput.exists_ d = true
  · simp [he]
  · simp [he]

theorem startup_eq_began_iff {s : DkgParticipant F} {phase : Option DkgPhase} :
    startup F J config forceRestart timestampNanos d = some (.began s phase) ↔
      DkgOutput.exists_ d = false ∧ restoreOrNew F J config timestampNanos
        (if forceRestart then none else d .state) = some (s, phase) := by
  rw [startup]
  by_cases he : DkgOutput.exists_ d = true
  · simp [he]
  · simp [he]

theorem tryRestore_of_resumed {r : DkgParticipant F} {phase : DkgPhase}
    (h : startup F J config forceRestart timestampNanos d = some (.began r (some phase))) :
    ∃ bytes state, d .state = some bytes ∧ J.state.parse bytes = some state ∧
      tryRestore F config (some state) timestampNanos = .ok (some r) := by
  obtain ⟨-, h⟩ := startup_eq_began_iff.1 h
  obtain ⟨state, hl, hr | ⟨hp, -⟩⟩ := restoreOrNew_eq_some h
  · rw [PersistedDkgState.load.eq_def] at hl
    split at hl
    · next bytes hf =>
      obtain ⟨state, hpr, rfl⟩ := Option.map_eq_some_iff.1 hl
      cases forceRestart with
      | false => exact ⟨bytes, state, hf, hpr, hr⟩
      | true => cases hf
    · cases hl
      cases hr
  · cases hp

theorem survives_iff_load (hs : d .state = none) :
    Survives F J config forceRestart timestampNanos out d ↔
      DkgOutput.exists_ d = true ∧ DkgOutput.load J d = some out := by
  rw [Survives, startup_eq_loaded_iff]
  refine or_iff_left ?_
  rintro ⟨r, hbg, -⟩
  obtain ⟨bytes, state, hb, -⟩ := tryRestore_of_resumed hbg
  rw [hs] at hb
  cases hb

theorem not_survives_of_skipsPhase1 {bytes : Bytes} {state : PersistedDkgState}
    (he : DkgOutput.exists_ d = false) (hb : d .state = some bytes)
    (hp : J.state.parse bytes = some state) (hs : state.phase.skipsPhase1 = true) :
    ¬ Survives F J config forceRestart timestampNanos out d := by
  rintro (hl | ⟨r, hbg, events, hown, hf⟩)
  · rw [startup_eq_loaded_iff, he] at hl
    cases hl.1
  · obtain ⟨bytes', state', hb', hp', hr⟩ := tryRestore_of_resumed hbg
    obtain rfl := Option.some_inj.1 (hb.symm.trans hb')
    obtain rfl := Option.some_inj.1 (hp.symm.trans hp')
    have hpc := ((Stuck.of_tryRestore hr hs).run hown).pc
    rw [hf] at hpc
    cases hpc

end Load

/-! ### What a crash leaves -/

section Crash

variable {J : Documents} {s : DkgParticipant F} {out : DkgOutput} {d : DataDir}

/-- The directory without the state of the ceremony. -/
def stateCleared (d : DataDir) : DataDir := Function.update d .state none

theorem crashed_zero : crashed J s out d 0 = stateSaved J s d := rfl

theorem crashed_succ (i : ℕ) :
    crashed J s out d (i + 1) = crash (out.save J) i (stateCleared d) := by
  have hc : PersistedDkgState.clear (stateSaved J s d) = [.remove .state] := by
    rw [PersistedDkgState.clear, stateSaved, Function.update_self]
    rfl
  have hrun : run (stateSaved J s d) [.remove .state] = stateCleared d :=
    Function.update_idem _ _ _
  rw [crashed, completion, hc, Nat.add_comm, ← hrun]
  exact crash_append [.remove .state] (out.save J) i (stateSaved J s d)

theorem save_regions (J : Documents) (out : DkgOutput) (i : ℕ) : i = 0 ∨
    (∃ k ≤ (J.output.print out.outputJson).length, i = k + 1) ∨
    ∃ k, i = (J.output.print out.outputJson).length + 1 + (k + 1) := by
  by_cases hle : i ≤ (J.output.print out.outputJson).length + 1
  · cases i with
    | zero => exact .inl rfl
    | succ k => exact .inr (.inl ⟨k, Nat.le_of_succ_le_succ hle, rfl⟩)
  · exact .inr (.inr ⟨i - ((J.output.print out.outputJson).length + 2), by omega⟩)

theorem crash_save_of_le {k : ℕ} (hk : k ≤ (J.output.print out.outputJson).length) :
    crash (out.save J) (k + 1) d =
      Function.update d .output (some ((J.output.print out.outputJson).take k)) := by
  rw [DkgOutput.save, crash_append_of_le (by rw [length_write]; omega), crash_write]

theorem crash_save_share (k : ℕ) :
    crash (out.save J) ((J.output.print out.outputJson).length + 1 + (k + 1)) d =
      Function.update (Function.update d .output (some (J.output.print out.outputJson))) .share
        (some ((J.share.print out.shareJson).take k)) := by
  rw [DkgOutput.save, ← length_write DataFile.output (J.output.print out.outputJson), crash_append,
    run_write, crash_write]

variable {config : DkgConfig} {forceRestart : Bool} {timestampNanos : ℕ}

theorem survives_crash_save_iff (he : DkgOutput.exists_ d = false) (hs : d .state = none)
    (ht : out.threshold = quorum out.participants)
    (ho : J.output.Whole out.outputJson) (hsh : J.share.Whole out.shareJson) (i : ℕ) :
    Survives F J config forceRestart timestampNanos out (crash (out.save J) i d) ↔
      i = 1 + (J.output.print out.outputJson).length ∧
          (d .share).bind J.share.parse = some out.shareJson ∨
        2 + (J.output.print out.outputJson).length + (J.share.print out.shareJson).length ≤ i := by
  rcases save_regions J out i with rfl | ⟨k, hk, rfl⟩ | ⟨k, rfl⟩
  · -- nothing is written yet
    rw [survives_iff_load (d := crash (out.save J) 0 d) hs]
    show DkgOutput.exists_ d = true ∧ _ ↔ _
    rw [he]
    simp
    omega
  · rw [crash_save_of_le hk, survives_iff_load (by simpa using hs)]
    rcases hk.lt_or_eq with hlt | rfl
    · -- a part of the output
      rw [DkgOutput.load_eq_none_of_output (by simpa using ho.2 k hlt)]
      simp
      omega
    · -- the output, and the share that was there before
      rw [DkgOutput.load_eq_iff ht (by simpa using ho.1)]
      have hold : Function.update d DataFile.output
          (some ((J.output.print out.outputJson).take (J.output.print out.outputJson).length))
          .share = d .share := Function.update_of_ne (by decide) _ _
      rw [hold]
      constructor
      · rintro ⟨-, hp⟩
        exact .inl ⟨by omega, hp⟩
      · rintro (⟨-, hp⟩ | hle)
        · refine ⟨?_, hp⟩
          obtain ⟨bytes, hb, -⟩ := Option.bind_eq_some_iff.1 hp
          simp [DkgOutput.exists_, hb]
        · omega
  · rw [crash_save_share, survives_iff_load (by simpa using hs)]
    rcases Nat.lt_or_ge k (J.share.print out.shareJson).length with hlt | hge
    · -- a part of the share
      rw [DkgOutput.load_eq_none_of_share (by simpa using hsh.2 k hlt)]
      simp
      omega
    · rw [List.take_of_length_le hge, DkgOutput.load_eq_iff ht (by simpa using ho.1)]
      simp only [DkgOutput.exists_, Function.update_self, Option.bind_some, hsh.1]
      simp
      omega

end Crash

/-! ### The phase on disk -/

/-- Where a participant is that collects logs, or has collected them. -/
def Pc.inPhase4 : Pc → Bool
  | .head .phase4 | .receive .phase4 | .test .phase4 | .finalize => true
  | .send next => next.inPhase4
  | _ => false

theorem DkgParticipant.handleMessageBytes_currentPhase (s : DkgParticipant F) (sender : PublicKey)
    (bytes : Bytes) : (s.handleMessageBytes sender bytes).1.currentPhase = s.currentPhase := by
  refine handleMessageBytes_invariant (·.currentPhase = s.currentPhase) rfl rfl ?_
  intro msg s' _ _ ht
  exact ht.frame.2.2.2

/-- A participant that collects logs has set the phase. -/
def PhaseSet (node : CeremonyNode F) : Prop :=
  node.pc.inPhase4 = true → node.participant.currentPhase = .collectingLogs

theorem PhaseSet.step {node : CeremonyNode F} (h : PhaseSet node) (input : NodeInput F) :
    PhaseSet (node.step input).1 := by
  rw [CeremonyNode.step.eq_def]
  split
  · exact fun hpc => by cases hpc
  · next next hs =>
    split
    · exact fun hpc => h (by rw [hs]; exact hpc)
    · exact h
  · next loop he =>
    cases loop with
    | phase2 | ready => exact fun hpc => by cases hpc
    | phase4 => exact fun _ => rfl
  · next loop hh => exact fun hpc => h (by rw [hh]; cases loop <;> exact hpc)
  · exact fun hpc => by cases hpc
  · next loop hr => exact fun hpc => h (by rw [hr]; cases loop <;> exact hpc)
  · next loop ht =>
    intro hpc
    cases loop with
    | phase2 | ready =>
      simp only [CeremonyNode.next] at hpc
      split_ifs at hpc <;> cases hpc
    | phase4 => exact h (by rw [ht]; rfl)
  · next ht =>
    split_ifs
    · exact h
    · exact fun _ => h (by rw [ht]; rfl)
  · split
    · exact fun hpc => by cases hpc
    · exact fun hpc => by cases hpc
  · exact fun hpc => by cases hpc
  · split
    · exact fun hpc => by cases hpc
    · exact fun hpc => by cases hpc
  · exact h

theorem PhaseSet.run (s₀ : DkgParticipant F) (phase : Option DkgPhase)
    (events : List (NodeEvent F)) :
    PhaseSet (events.foldl CeremonyNode.handle (.begin s₀ phase)) := by
  have hb : PhaseSet (CeremonyNode.begin s₀ phase) := by
    intro hpc
    simp only [CeremonyNode.begin] at hpc
    split_ifs at hpc <;> cases hpc
  generalize CeremonyNode.begin s₀ phase = node at hb
  induction events generalizing node with
  | nil => exact hb
  | cons event events ih =>
    refine ih _ ?_
    cases event with
    | act input => exact hb.step input
    | deliver sender bytes =>
      rw [CeremonyNode.handle, CeremonyNode.deliver]
      split
      · exact fun hpc => (handleMessageBytes_currentPhase _ sender bytes).trans (hb hpc)
      · exact hb

/-! ### Crashes after a ceremony -/

section Completion

variable {J : Documents} {C : OutputCodec F} {config : DkgConfig} {timestampNanos : ℕ}

theorem DkgParticipant.finalize_threshold {s : DkgParticipant F} {out : Output F}
    (h : s.finalize.2 = .ok out) :
    (C.output out).threshold = quorum (C.output out).participants := by
  rw [finalize] at h
  split_ifs at h
  split at h
  · cases h
  dsimp only at h
  split at h
  · cases h
    rfl
  · cases h

/-- **A crash after a participant has finalized** is survived exactly if the output and the share
are complete, be it one that was there before. As long as the state is there, the next run goes on
from it and does not finish. -/
theorem share_survives_iff {forceRestart₀ : Bool} {d : DataDir} {s₀ : DkgParticipant F}
    {phase : Option DkgPhase}
    (hbegin : startup F J config forceRestart₀ timestampNanos d = some (.began s₀ phase))
    {events : List (NodeEvent F)} {node : CeremonyNode F} {out : Output F}
    (hnode : events.foldl CeremonyNode.handle (.begin s₀ phase) = node)
    (hpc : node.pc = .finalize) (hout : node.participant.finalize.2 = .ok out)
    (houtput : J.output.Whole (C.output out).outputJson)
    (hshare : J.share.Whole (C.output out).shareJson)
    (hstate : J.state.Whole node.participant.saveState)
    (i : ℕ) (forceRestart : Bool) (timestampNanos' : ℕ) :
    Survives F J config forceRestart timestampNanos' (C.output out)
        (crashed J node.participant (C.output out) d i) ↔
      (i = 2 + (J.output.print (C.output out).outputJson).length ∧
        (d .share).bind J.share.parse = some (C.output out).shareJson) ∨
      3 + (J.output.print (C.output out).outputJson).length +
        (J.share.print (C.output out).shareJson).length ≤ i := by
  have he : DkgOutput.exists_ d = false := (startup_eq_began_iff.1 hbegin).1
  cases i with
  | zero =>
    -- the state on disk is that of a participant that collects logs
    have hph : node.participant.saveState.phase = .collectingLogs := by
      subst hnode
      exact PhaseSet.run s₀ phase events (by rw [hpc]; rfl)
    have hlost : ¬ Survives F J config forceRestart timestampNanos' (C.output out)
        (stateSaved J node.participant d) :=
      not_survives_of_skipsPhase1 he (Function.update_self _ _ _) hstate.1 (by rw [hph]; rfl)
    rw [crashed_zero]
    refine iff_of_false hlost ?_
    rintro (⟨hl, -⟩ | hl) <;> omega
  | succ i =>
    rw [crashed_succ, survives_crash_save_iff (d := stateCleared d) he
      (Function.update_self _ _ _) (finalize_threshold hout) houtput hshare]
    show _ ∧ (d .share).bind J.share.parse = _ ∨ _ ↔ _
    constructor
    · rintro (⟨hl, hp⟩ | hl)
      · exact .inl ⟨by omega, hp⟩
      · exact .inr (by omega)
    · rintro (⟨hl, hp⟩ | hl)
      · exact .inl ⟨by omega, hp⟩
      · exact .inr (by omega)

end Completion

/-! ### A ceremony with one participant -/

def solo : DkgConfig where
  publicKey := 1
  validatorIndex := 0
  participants := [1]
  chainId := 7
  bootstrapPeers := []

def soloNode : CeremonyNode .small :=
  (NodeEvent.act (.seed ()) :: List.replicate 20 (.act .proceed)).foldl CeremonyNode.handle
    (.begin (.init .small solo 0) none)

/-- Texts of which only one is known. -/
def Json.only {α : Type} (text : Bytes) (a : α) : Json α where
  print _ := text
  parse bytes := if bytes = text then some a else none

theorem Json.whole_only {α : Type} (text : Bytes) (a : α) : (Json.only text a).Whole a := by
  refine ⟨if_pos rfl, fun k hk => if_neg fun heq => ?_⟩
  have hl := congrArg List.length heq
  rw [List.length_take] at hl
  have hlt : k < text.length := hk
  omega

def soloCodec : OutputCodec .small where
  groupPublicKey (logs : List UInt8) := logs
  publicPolynomial (logs : List UInt8) := logs
  shareIndex _ := 0
  shareSecret (share : UInt8) := [share]

def soloLog : Feldman.small.Log := (0 : UInt8)

def soloOutput : Output .small where
  group := [soloLog]
  threshold := 1
  participants := 1
  share := (1 : UInt8)
  participantKeys := [1]

/-- Each file holds one byte. -/
def soloDocuments : Documents where
  output := .only [1] (soloCodec.output soloOutput).outputJson
  share := .only [1] (soloCodec.output soloOutput).shareJson
  state := .only [1] soloNode.participant.saveState

def soloDir : DataDir := fun _ => none

theorem solo_startup : startup .small soloDocuments solo false 0 soloDir =
    some (.began (.init .small solo 0) none) := rfl

instance : DecidableEq Feldman.small.Player := inferInstanceAs (DecidableEq PublicKey)

theorem soloNode_finalize :
    soloNode.pc = .finalize ∧ soloNode.participant.finalize.2 = .ok soloOutput := by
  have hs : soloNode.pc = .finalize ∧ soloNode.participant.finalized = false ∧
      soloNode.participant.canFinalize = true ∧ soloNode.participant.config.participants = [1] ∧
      soloNode.participant.player = some (Feldman.small.newPlayer solo.info 1) ∧
      soloNode.participant.dealerLogs.toList = [(1, soloLog)] := by
    decide +kernel
  obtain ⟨hpc, hf, hl, hp, hpl, hls⟩ := hs
  refine ⟨hpc, ?_⟩
  rw [finalize, if_neg (by rw [hf]; exact Bool.false_ne_true), if_neg (not_not.2 hl)]
  dsimp only
  rw [hpl, hls, DkgConfig.t, DkgConfig.n, hp]
  rfl

/-- A crash after the last step is survived. -/
theorem share_survives_iff_solo : Survives .small soloDocuments solo false 0
    (soloCodec.output soloOutput)
    (crashed soloDocuments soloNode.participant (soloCodec.output soloOutput) soloDir 5) := by
  refine (share_survives_iff solo_startup rfl soloNode_finalize.1 soloNode_finalize.2
    (Json.whole_only _ _) (Json.whole_only _ _) (Json.whole_only _ _) 5 false 0).2 ?_
  exact .inr (Nat.le_refl 5)

/-- A crash between the removal of the state and the first step of the output leaves nothing. -/
theorem share_lost : ¬ ∀ (F : Feldman) (J : Documents) (C : OutputCodec F) (config : DkgConfig)
    (timestampNanos : ℕ) (d : DataDir) (s₀ : DkgParticipant F) (phase : Option DkgPhase)
    (events : List (NodeEvent F)) (node : CeremonyNode F) (out : Output F) (i : ℕ),
    startup F J config false timestampNanos d = some (.began s₀ phase) →
    events.foldl CeremonyNode.handle (.begin s₀ phase) = node → node.pc = .finalize →
    node.participant.finalize.2 = .ok out →
    J.output.Whole (C.output out).outputJson → J.share.Whole (C.output out).shareJson →
    J.state.Whole node.participant.saveState →
    Survives F J config false timestampNanos (C.output out)
      (crashed J node.participant (C.output out) d i) := by
  intro h
  have hs := h .small soloDocuments soloCodec solo 0 soloDir _ _ _ soloNode soloOutput 1
    solo_startup rfl soloNode_finalize.1 soloNode_finalize.2 (Json.whole_only _ _)
    (Json.whole_only _ _) (Json.whole_only _ _)
  rw [crashed_succ, survives_iff_load rfl] at hs
  cases hs.1

end Kora
