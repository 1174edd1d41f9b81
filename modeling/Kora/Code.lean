/-
Contract code (`node/executor/src/adapter.rs`, `extract_changes` in
`node/executor/src/revm.rs`, `code` in `storage/overlay/src/overlay.rs`).

Code is found under its hash, in the pending updates or in the code partition. It is
deployed in the form that REVM's analysis gives it, which may be padded. A later update of
the account may bring it once more, analysed once more, or the hash alone.

* `Bytecodes.Sourced` — an update brings its code along, or relies on the account before
  it;
* `CodeKept` — the database has the code of every account;
* `code_intact_iff` — the code is found, and is what was deployed exactly when it is not
  padded.
-/
import Kora.Cadence
import Kora.Genesis
import Kora.Run

open Std List Option

namespace Kora

open ChangeSet QmdbStore

/-- A hash that stands for no code; the zero hash is taken for that of the empty code. -/
def NoCode (hash : B256) : Prop := hash = KECCAK256_EMPTY ∨ hash = 0

/-! ### Loading code -/

namespace StateDbAdapter

variable {S : Type} [StateDbRead S]

/-- An account as REVM loads it, without its code. -/
def basicRef (state : S) (address : Address) : Except StateDbError (Option AccountInfo) :=
  let info : Except StateDbError AccountInfo := do
    let nonce ← StateDbRead.nonce state address
    let balance ← StateDbRead.balance state address
    let codeHash ← StateDbRead.codeHash state address
    return { nonce, balance, codeHash, code := none }
  match info with
  | .ok info => .ok (some info)
  | .error (.accountNotFound _) => .ok none
  | .error e => .error e

/-- The bytes of the code under a hash, as REVM holds them: analysed. -/
def codeByHashRef (analyse : Bytes → Bytes) (state : S) (codeHash : B256) :
    Except StateDbError Bytes :=
  if codeHash = KECCAK256_EMPTY ∨ codeHash = 0 then .ok (analyse [])
  else do
    let bytes ← StateDbRead.code state codeHash
    return analyse bytes

end StateDbAdapter

/-- The code hash that an update leaves to what comes after it. -/
def AccountUpdate.settledHash (u : AccountUpdate) : B256 :=
  if u.selfdestructed then KECCAK256_EMPTY else u.codeHash

/-- The code hash that the updates of an account leave, from a given one on. -/
def settledHash (hash : B256) (updates : List AccountUpdate) : B256 :=
  updates.foldl (fun _ u => u.settledHash) hash

/-- The code hash that the updates of an account leave from genesis on. -/
def historyHash (history : List ChangeSet) (address : Address) : B256 :=
  settledHash KECCAK256_EMPTY (updatesOf address history)

/-- The code hash under which REVM loads an account, from its cache of what the block's earlier
transactions reported or through the adapter. Without an account it is that of the empty code. -/
def loadedHash {S : Type} [StateDbRead S] (state : S) (earlier : List ChangeSet)
    (address : Address) : B256 :=
  match (updatesOf address earlier).getLast? with
  | some u => u.settledHash
  | none =>
    match StateDbAdapter.basicRef state address with
    | .ok (some info) => info.codeHash
    | _ => KECCAK256_EMPTY

/-- The hash, the analysis of `Bytecode::new_raw`, which may pad, and the codes that are deployed.
The hash tells these apart, and gives none a hash that the database uses itself. -/
structure Bytecodes where
  keccak256 : Bytes → B256
  analyse : Bytes → Bytes
  deployed : Set Bytes
  pads : ∀ code, code <+: analyse code
  injective : Set.InjOn keccak256 deployed
  nonzero : ∀ code ∈ deployed, keccak256 code ≠ 0
  unmarked : ∀ code ∈ deployed, keccak256 code ≠ COMMIT_SEQ_CODE_KEY

/-- What REVM reports of the code of a touched account, on a state, after earlier reports of the
block. An account that is destroyed was created by the same transaction, so it was not loaded. -/
inductive Bytecodes.Reports (B : Bytecodes) {S : Type} [StateDbRead S] (state : S)
    (earlier : List ChangeSet) (address : Address) (account : EvmAccount) : Prop
  | deployed (code : Bytes) (hcode : code ∈ B.deployed)
    (hhash : account.info.codeHash = B.keccak256 code)
    (hbytes : account.info.code = some (B.analyse code))
  | empty (hhash : account.info.codeHash = KECCAK256_EMPTY)
  | loaded (hhash : account.info.codeHash = loadedHash state earlier address)
    (halive : account.isSelfdestructed = false)
    (hbytes : ∀ bytes, account.info.code = some bytes →
      StateDbAdapter.codeByHashRef B.analyse state account.info.codeHash = .ok bytes ∨
        ∃ ch ∈ earlier, ∃ (other : Address) (u : AccountUpdate), ch[other]? = some u ∧
          u.codeHash = account.info.codeHash ∧ u.code = some bytes)

/-! ### Runs -/

/-- A database holds a beginning of a history, committed in groups; the pending changes start there
or before. -/
structure HistoryView (history : List ChangeSet) where
  groups : List (List ChangeSet)
  pending : ℕ
  committed : groups.flatten <+: history
  reaches : pending ≤ groups.flatten.length

def HistoryView.state {history : List ChangeSet} (self : HistoryView history) :
    OverlayState QmdbStore :=
  OverlayState.new (QmdbStore.new.commitGroups self.groups)
    (mergeAll (history.drop self.pending))

/-- The changes of a block: the reports of its transactions, merged. -/
def blockChanges (txs : List EvmState) : ChangeSet := mergeAll (txs.map extractChanges)

def extendHistory (history : List ChangeSet) (txs : List EvmState) : List ChangeSet :=
  history ++ [blockChanges txs]

/-- A block that REVM has executed on a view of the history. -/
def Bytecodes.Executes (B : Bytecodes) (history : List ChangeSet) (txs : List EvmState) : Prop :=
  ∃ view : HistoryView history, ∀ earlier tx later, txs = earlier ++ tx :: later →
    ∀ (address : Address) (account : EvmAccount), tx[address]? = some account →
      account.isTouched = true →
      B.Reports view.state (earlier.map extractChanges) address account

/-- No account destroyed with its code is reported under its old code hash without the code. -/
def LeavesDestroyed (history : List ChangeSet) (txs : List EvmState) : Prop :=
  ∀ earlier tx later, txs = earlier ++ tx :: later →
    ∀ (address : Address) (account : EvmAccount) (u : AccountUpdate), tx[address]? = some account →
      account.isTouched = true → account.info.code = none →
      updatesOf address (earlier.map extractChanges) = [] →
      (updatesOf address history).getLast? = some u → u.selfdestructed = true →
      account.info.codeHash = u.codeHash → NoCode u.codeHash

/-! ### Where code comes from -/

theorem settledHash_concat (hash : B256) (us : List AccountUpdate) (u : AccountUpdate) :
    settledHash hash (us ++ [u]) = u.settledHash := by
  rw [settledHash, foldl_append]
  rfl

theorem settledHash_append (hash : B256) (us vs : List AccountUpdate) :
    settledHash hash (us ++ vs) = settledHash (settledHash hash us) vs := by
  rw [settledHash, foldl_append]
  rfl

variable {u : AccountUpdate} {hash : B256}

theorem settledHash_of_getLast? {us : List AccountUpdate} (h : us.getLast? = some u) :
    settledHash hash us = u.settledHash := by
  obtain ⟨init, rfl⟩ := getLast?_eq_some_iff.1 h
  exact settledHash_concat hash init u

theorem AccountUpdate.settledHash_of_alive (h : u.selfdestructed = false) :
    u.settledHash = u.codeHash := by
  rw [settledHash, h]
  rfl

theorem AccountUpdate.alive_of_settledHash (h : ¬ NoCode u.settledHash) :
    u.selfdestructed = false := by
  cases hsd : u.selfdestructed with
  | false => rfl
  | true =>
    have he : u.settledHash = KECCAK256_EMPTY := by
      rw [settledHash, hsd]
      rfl
    exact absurd (.inl he) h

/-- **What a merge does to the code**: the newer is taken, unless it is none for the same hash. -/
theorem AccountUpdate.merge_code_cases (e u : AccountUpdate) :
    (e.codeHash = u.codeHash ∧ u.code = none ∧ (e.merge u).code = e.code) ∨
      (e.codeHash = u.codeHash → u.code.isSome = true) ∧ (e.merge u).code = u.code := by
  have hc : (e.merge u).code =
      if e.codeHash ≠ u.codeHash ∨ u.code.isSome then u.code else e.code := rfl
  split at hc
  · next hnew =>
    refine .inr ⟨fun heq => ?_, hc⟩
    exact hnew.resolve_left (fun hne => hne heq)
  · next hold =>
    rw [not_or, ne_eq, not_not, not_isSome_iff_eq_none] at hold
    exact .inl ⟨hold.1, hold.2, hc⟩

namespace Bytecodes

variable (B : Bytecodes)

/-- A hash an account may have: of the empty code, of a deployed one, or zero at the sentinel. -/
def Known (address : Address) (hash : B256) : Prop :=
  hash = KECCAK256_EMPTY ∨ (address = COMMIT_SEQ_ACCOUNT_KEY ∧ hash = 0) ∨
    ∃ code ∈ B.deployed, B.keccak256 code = hash

def Stems (hash : B256) (bytes : Bytes) : Prop :=
  NoCode hash ∨ ∃ code ∈ B.deployed, B.keccak256 code = hash ∧ ∃ n, bytes = B.analyse^[n + 1] code

/-- An update of an account with the given code hash: the bytes that it brings stem from the code
under its hash, and without bytes the hash is the one from before. -/
structure Sourced (address : Address) (before : B256) (u : AccountUpdate) : Prop where
  known : B.Known address u.codeHash
  brought : ∀ bytes, u.code = some bytes → B.Stems u.codeHash bytes
  kept : u.code = none → NoCode u.codeHash ∨ u.codeHash = before
  destroyed : u.selfdestructed = true → NoCode u.codeHash ∨ u.code.isSome = true

/-- Updates of one account, each of them sourced in what those before it left. -/
def Chained (address : Address) : B256 → List AccountUpdate → Prop
  | _, [] => True
  | before, u :: us => B.Sourced address before u ∧ Chained address u.settledHash us

variable {B} {address : Address} {before : B256}

variable {hash : B256}

theorem Known.deployed (h : B.Known address hash) (hne : ¬ NoCode hash) :
    ∃ code ∈ B.deployed, B.keccak256 code = hash := by
  rcases h with he | ⟨-, hzero⟩ | hd
  · exact absurd (.inl he) hne
  · exact absurd (.inr hzero) hne
  · exact hd

theorem Known.unmarked (h : B.Known address hash) (hne : ¬ NoCode hash) :
    hash ≠ COMMIT_SEQ_CODE_KEY := by
  obtain ⟨code, hc, rfl⟩ := h.deployed hne
  exact B.unmarked code hc

theorem Known.not_noCode (h : B.Known address hash) (ha : address ≠ COMMIT_SEQ_ACCOUNT_KEY)
    (hne : hash ≠ KECCAK256_EMPTY) : ¬ NoCode hash := by
  rintro (he | hzero)
  · exact hne he
  · rcases h with he | ⟨hs, -⟩ | ⟨code, hc, hh⟩
    · exact hne he
    · exact ha hs
    · exact B.nonzero code hc (hh.trans hzero)

theorem Stems.analyse {bytes : Bytes} (h : B.Stems hash bytes) :
    B.Stems hash (B.analyse bytes) := by
  rcases h with hnone | ⟨code, hc, hh, n, rfl⟩
  · exact .inl hnone
  · have ho := Function.iterate_succ_apply' B.analyse (n + 1) code
    exact .inr ⟨code, hc, hh, n + 1, ho.symm⟩

variable {u : AccountUpdate}

theorem Known.settledHash (h : B.Known address u.codeHash) : B.Known address u.settledHash := by
  rw [AccountUpdate.settledHash]
  split
  · exact .inl rfl
  · exact h

theorem Sourced.of_merge_code_none {e : AccountUpdate} (hu : B.Sourced address e.settledHash u)
    (hnone : (e.merge u).code = none) (hc : ¬ NoCode u.codeHash) :
    e.codeHash = u.codeHash ∧ e.code = none := by
  rcases e.merge_code_cases u with ⟨hh, -, hm⟩ | ⟨hs, hm⟩
  · exact ⟨hh, hm.symm.trans hnone⟩
  · -- the newer update has the hash that the older one left, which did not destroy the account
    have hun : u.code = none := hm.symm.trans hnone
    have hk : u.codeHash = e.settledHash := (hu.kept hun).resolve_left hc
    have ha := AccountUpdate.alive_of_settledHash (u := e) (hk ▸ hc)
    have hsome := hs ((AccountUpdate.settledHash_of_alive ha).symm.trans hk.symm)
    rw [hun] at hsome
    cases hsome

theorem Sourced.merge {e : AccountUpdate} (he : B.Sourced address before e)
    (hu : B.Sourced address e.settledHash u) : B.Sourced address before (e.merge u) where
  known := hu.known
  brought bytes hb := by
    rcases e.merge_code_cases u with ⟨hh, -, hc⟩ | ⟨-, hc⟩
    · have hs := he.brought bytes (hc.symm.trans hb)
      rw [hh] at hs
      exact hs
    · exact hu.brought bytes (hc.symm.trans hb)
  kept hnone := by
    show NoCode u.codeHash ∨ u.codeHash = before
    by_cases hc : NoCode u.codeHash
    · exact .inl hc
    · obtain ⟨hh, hen⟩ := hu.of_merge_code_none hnone hc
      rw [← hh]
      exact he.kept hen
  destroyed hsd := by
    refine (hu.destroyed hsd).imp id fun hsome => ?_
    rcases e.merge_code_cases u with ⟨-, hnone, -⟩ | ⟨-, hc⟩
    · rw [hnone] at hsome
      cases hsome
    · rwa [hc]

variable {us : List AccountUpdate}

theorem chained_append {vs : List AccountUpdate} :
    B.Chained address before (us ++ vs) ↔
      B.Chained address before us ∧ B.Chained address (settledHash before us) vs := by
  induction us generalizing before with
  | nil => exact (and_iff_right trivial).symm
  | cons u us ih =>
    rw [cons_append, Chained, Chained, ih, and_assoc]
    rfl

theorem chained_concat :
    B.Chained address before (us ++ [u]) ↔
      B.Chained address before us ∧ B.Sourced address (settledHash before us) u := by
  rw [chained_append]
  exact and_congr_right fun _ => and_iff_left trivial

theorem Chained.sourced (h : B.Chained address before us) (hu : u ∈ us) :
    ∃ before', B.Sourced address before' u := by
  obtain ⟨init, rest, rfl⟩ := List.append_of_mem hu
  exact ⟨_, (chained_append.1 h).2.1⟩

theorem Chained.known (h : B.Chained address before us) (hb : B.Known address before) :
    B.Known address (settledHash before us) := by
  induction us using List.reverseRecOn with
  | nil => exact hb
  | append_singleton us u ih =>
    rw [settledHash_concat]
    exact (chained_concat.1 h).2.known.settledHash

theorem chained_updatesOf_singleton {ch : ChangeSet}
    (h : ∀ u, ch[address]? = some u → B.Sourced address before u) :
    B.Chained address before (updatesOf address [ch]) := by
  cases hget : ch[address]? with
  | none =>
    have hnil : updatesOf address [ch] = [] := by simp [updatesOf, hget]
    rw [hnil]
    trivial
  | some u =>
    have hone : updatesOf address [ch] = [u] := by simp [updatesOf, hget]
    rw [hone]
    exact ⟨h u hget, trivial⟩

theorem Chained.absorbAll (h : B.Chained address before us) {w : AccountUpdate}
    (hw : absorbAll us = some w) :
    B.Sourced address before w ∧ w.settledHash = settledHash before us := by
  induction us using List.reverseRecOn generalizing w with
  | nil => cases hw
  | append_singleton us u ih =>
    obtain ⟨hus, hu⟩ := chained_concat.1 h
    rw [absorbAll_concat] at hw
    obtain rfl := some.inj hw
    rw [settledHash_concat]
    cases hold : ChangeSet.absorbAll us with
    | none =>
      obtain rfl := absorbAll_eq_none_iff.1 hold
      exact ⟨hu, rfl⟩
    | some e =>
      obtain ⟨he, hs⟩ := ih hus hold
      rw [← hs] at hu
      exact ⟨he.merge hu, rfl⟩

/-- If a folded group brings no code for its hash, no update of the group changed the hash. -/
theorem Chained.settledHash_of_absorbAll {vs : List AccountUpdate}
    (h : B.Chained address before (us ++ vs)) {w : AccountUpdate}
    (hw : ChangeSet.absorbAll (us ++ vs) = some w) (hnone : w.code = none)
    (hc : ¬ NoCode w.codeHash) : settledHash before us = w.codeHash := by
  induction vs using List.reverseRecOn generalizing w with
  | nil =>
    rw [append_nil] at h hw
    obtain ⟨hs, hst⟩ := h.absorbAll hw
    rw [← hst]
    refine AccountUpdate.settledHash_of_alive ?_
    by_contra hsd
    rcases hs.destroyed (by simpa using hsd) with hno | hsome
    · exact hc hno
    · rw [hnone] at hsome
      cases hsome
  | append_singleton vs v ih =>
    rw [← append_assoc] at h hw
    obtain ⟨hold, hv⟩ := chained_concat.1 h
    rw [absorbAll_concat] at hw
    obtain rfl := some.inj hw
    cases ha : ChangeSet.absorbAll (us ++ vs) with
    | none =>
      obtain ⟨rfl, rfl⟩ := append_eq_nil_iff.1 (absorbAll_eq_none_iff.1 ha)
      rw [ha] at hnone hc
      exact ((hv.kept hnone).resolve_left hc).symm
    | some e =>
      rw [ha] at hnone hc
      rw [← (hold.absorbAll ha).2] at hv
      obtain ⟨hsm, he⟩ := hv.of_merge_code_none hnone hc
      show settledHash before us = v.codeHash
      rw [← hsm]
      exact ih hold ha he (hsm ▸ hc)

/-- Every account's updates are sourced, from genesis on. -/
def Traced (B : Bytecodes) (history : List ChangeSet) : Prop :=
  ∀ address, B.Chained address KECCAK256_EMPTY (updatesOf address history)

theorem traced_append {history rest : List ChangeSet} :
    B.Traced (history ++ rest) ↔ B.Traced history ∧
      ∀ address, B.Chained address (historyHash history address) (updatesOf address rest) := by
  simp only [Traced, updatesOf_append, chained_append, forall_and, historyHash]

theorem Traced.known {history : List ChangeSet} (h : B.Traced history) (address : Address) :
    B.Known address (historyHash history address) :=
  (h address).known (.inl rfl)

end Bytecodes

theorem historyHash_append (history rest : List ChangeSet) (address : Address) :
    historyHash (history ++ rest) address =
      settledHash (historyHash history address) (updatesOf address rest) := by
  rw [historyHash, updatesOf_append, settledHash_append]
  rfl

/-! ### The code partition -/

namespace QmdbStore

/-- The code hash of a stored account; without one that of the empty code. -/
def recordHash (q : QmdbStore) (address : Address) : B256 :=
  (q.record address).elim KECCAK256_EMPTY (·.codeHash)

theorem mem_code_buildBatches {q : QmdbStore} {ch : ChangeSet} {op : B256 × Option Bytes} :
    op ∈ (q.buildBatches ch).code ↔ ∃ (address : Address) (u : AccountUpdate) (bytes : Bytes),
      ch[address]? = some u ∧ u.selfdestructed = false ∧ u.code = some bytes ∧
        op = (u.codeHash, some bytes) := by
  rw [buildBatches_eq, mem_flatMap]
  constructor
  · rintro ⟨e, he, hop⟩
    rw [ExtTreeMap.mem_toList_iff_getElem?_eq_some] at he
    rw [codeOps] at hop
    split at hop
    · cases hop
    · next hsd =>
      split at hop
      · next bytes hb =>
        exact ⟨e.1, e.2, bytes, he, by simpa using hsd, hb, mem_singleton.1 hop⟩
      · cases hop
  · rintro ⟨address, u, bytes, hu, hsd, hb, rfl⟩
    refine ⟨(address, u), ExtTreeMap.mem_toList_iff_getElem?_eq_some.2 hu, ?_⟩
    rw [codeOps, hsd, hb]
    exact mem_singleton.2 rfl

/-- **The code after a commit**: off the marker's hash, what an update brings, or else what was
there. -/
theorem code_commitChanges (q : QmdbStore) (ch : ChangeSet) {hash : B256}
    (hne : hash ≠ COMMIT_SEQ_CODE_KEY) :
    (∃ (address : Address) (u : AccountUpdate) (bytes : Bytes), ch[address]? = some u ∧
        u.codeHash = hash ∧ u.code = some bytes ∧
        (q.commitChanges ch).stores.code hash = some bytes) ∨
      (∀ (address : Address) (u : AccountUpdate), ch[address]? = some u →
        u.selfdestructed = false → u.codeHash = hash → u.code = none) ∧
        (q.commitChanges ch).stores.code hash = q.stores.code hash := by
  by_cases hnew : ch = ChangeSet.new
  · refine .inr ⟨fun address u hu => ?_, by rw [hnew, commitChanges_new]⟩
    rw [hnew, getElem?_new] at hu
    cases hu
  · have hc : (q.commitChanges ch).stores.code hash =
        q.stores.code.writeBatch (q.buildBatches ch).code hash := by
      rw [commitChanges_of_ne_new hnew, applyBatches]
      dsimp only
      rw [KeyValueStore.writeBatch_concat, KeyValueStore.write_of_ne _ hne.symm]
    rw [hc]
    by_cases hmem : ∃ op ∈ (q.buildBatches ch).code, op.1 = hash
    · obtain ⟨op, hop, hkey, hval⟩ := q.stores.code.writeBatch_of_mem hmem
      obtain ⟨address, u, bytes, hu, -, hb, rfl⟩ := mem_code_buildBatches.1 hop
      exact .inl ⟨address, u, bytes, hu, hkey, hb, hval⟩
    · refine .inr ⟨fun address u hu hsd hh => ?_, ?_⟩
      · refine eq_none_iff_forall_ne_some.2 fun bytes hb => hmem ?_
        exact ⟨_, mem_code_buildBatches.2 ⟨address, u, bytes, hu, hsd, hb, rfl⟩, hh⟩
      · exact KeyValueStore.writeBatch_of_notMem _ _ fun op hop hkey => hmem ⟨op, hop, hkey⟩

theorem recordHash_commitChanges (q : QmdbStore) (ch : ChangeSet) {address : Address}
    (ha : address ≠ COMMIT_SEQ_ACCOUNT_KEY) :
    (q.commitChanges ch).recordHash address =
      (ch[address]?).elim (q.recordHash address) AccountUpdate.settledHash := by
  have hac := congrArg AccountState.record (account_commitChanges q ch ha)
  rw [account_record] at hac
  rw [recordHash, hac]
  cases ch[address]? with
  | none => rfl
  | some u =>
    rw [elim_some, elim_some, AccountState.commit, AccountUpdate.settledHash]
    dsimp only
    split <;> rfl

end QmdbStore

/-- A database with a history: its records have the history's code hashes, and it has the code of
each. -/
structure CodeKept (B : Bytecodes) (q : QmdbStore) (history : List ChangeSet) : Prop where
  record : ∀ address, address ≠ COMMIT_SEQ_ACCOUNT_KEY →
    q.recordHash address = historyHash history address
  sentinel : NoCode (q.recordHash COMMIT_SEQ_ACCOUNT_KEY)
  present : ∀ address, ¬ NoCode (historyHash history address) →
    (q.stores.code (historyHash history address)).isSome = true
  stems : ∀ hash bytes, hash ≠ COMMIT_SEQ_CODE_KEY → q.stores.code hash = some bytes →
    B.Stems hash bytes

namespace CodeKept

variable {B : Bytecodes} {q : QmdbStore} {history : List ChangeSet}

theorem new (B : Bytecodes) : CodeKept B QmdbStore.new [] where
  record _ _ := rfl
  sentinel := .inl rfl
  present address hc := absurd (.inl rfl) hc
  stems hash bytes _ hb := by cases hb

theorem commitChanges (h : CodeKept B q history) {group : List ChangeSet}
    (htraced : B.Traced (history ++ group)) :
    CodeKept B (q.commitChanges (mergeAll group)) (history ++ group) where
  record address ha := by
    rw [recordHash_commitChanges q _ ha, getElem?_mergeAll, historyHash_append, h.record address ha]
    have hc := (Bytecodes.traced_append.1 htraced).2 address
    cases hw : absorbAll (updatesOf address group) with
    | none =>
      rw [absorbAll_eq_none_iff.1 hw]
      rfl
    | some w => exact (hc.absorbAll hw).2
  sentinel := by
    by_cases hnew : mergeAll group = ChangeSet.new
    · rw [hnew, commitChanges_new]
      exact h.sentinel
    · rw [recordHash, record_sentinel_commitChanges hnew]
      exact .inr rfl
  present address hcd := by
    obtain ⟨hold, hc⟩ := Bytecodes.traced_append.1 htraced
    have hk := htraced.known address
    rw [historyHash_append] at hcd hk ⊢
    have hcs := code_commitChanges q (mergeAll group) (hk.unmarked hcd)
    rcases hcs with ⟨-, -, bytes, -, -, -, hb⟩ | ⟨hnone, hs⟩
    · rw [hb]
      rfl
    · -- no update brings the code, so the account had the hash before
      rw [hs]
      suffices hbf : settledHash (historyHash history address) (updatesOf address group) =
          historyHash history address by
        rw [hbf] at hcd ⊢
        exact h.present address hcd
      cases hw : absorbAll (updatesOf address group) with
      | none =>
        rw [absorbAll_eq_none_iff.1 hw]
        rfl
      | some w =>
        obtain ⟨hsr, hst⟩ := (hc address).absorbAll hw
        rw [← hst] at hcd hnone ⊢
        have hal := AccountUpdate.alive_of_settledHash hcd
        rw [AccountUpdate.settledHash_of_alive hal] at hcd hnone ⊢
        have hu : (mergeAll group)[address]? = some w := by rw [getElem?_mergeAll, hw]
        exact (hsr.kept (hnone address w hu hal rfl)).resolve_left hcd
  stems hash bytes hne hb := by
    rcases code_commitChanges q (mergeAll group) hne with
      ⟨address, w, bytes', hu, rfl, hw, hb'⟩ | ⟨-, hs⟩
    · obtain rfl : bytes' = bytes := some.inj (hb'.symm.trans hb)
      rw [getElem?_mergeAll] at hu
      have hc := (Bytecodes.traced_append.1 htraced).2 address
      exact (hc.absorbAll hu).1.brought bytes' hw
    · exact h.stems hash bytes hne (hs.symm.trans hb)

theorem commitGroups {groups : List (List ChangeSet)} (htraced : B.Traced groups.flatten) :
    CodeKept B (QmdbStore.new.commitGroups groups) groups.flatten := by
  induction groups using List.reverseRecOn with
  | nil => exact CodeKept.new B
  | append_singleton groups group ih =>
    rw [flatten_append, flatten_singleton] at htraced ⊢
    have hc : QmdbStore.new.commitGroups (groups ++ [group]) =
        (QmdbStore.new.commitGroups groups).commitChanges (mergeAll group) := by
      rw [QmdbStore.commitGroups, map_append, commitAll, foldl_append]
      rfl
    rw [hc]
    exact (ih (Bytecodes.traced_append.1 htraced).1).commitChanges htraced

end CodeKept

/-! ### Code seen through an overlay -/

variable {S : Type}

/-- **Everything a lookup can do**: it finds the code of a pending update, or asks the base. -/
theorem OverlayState.code_cases [StateDbRead S] (base : S) (ch : ChangeSet) (hash : B256) :
    (∃ (address : Address) (u : AccountUpdate) (bytes : Bytes), ch[address]? = some u ∧
        u.codeHash = hash ∧ u.code = some bytes ∧
        StateDbRead.code (OverlayState.new base ch) hash = .ok bytes) ∨
      (∀ (address : Address) (u : AccountUpdate), ch[address]? = some u → u.codeHash = hash →
        u.code = none) ∧
        StateDbRead.code (OverlayState.new base ch) hash = StateDbRead.code base hash := by
  have hc : StateDbRead.code (OverlayState.new base ch) hash =
      (OverlayState.new base ch).code hash := rfl
  rw [hc, OverlayState.code]
  split
  · next bytes hf =>
    obtain ⟨e, he, hb⟩ := exists_of_findSome?_eq_some hf
    split at hb
    · next hh =>
      exact .inl ⟨e.1, e.2, bytes, ExtTreeMap.mem_toList_iff_getElem?_eq_some.1 he, hh, hb,
        rfl⟩
    · cases hb
  · next hnone =>
    refine .inr ⟨fun address u hu hh => ?_, rfl⟩
    have he : (address, u) ∈ ch.accounts.toList :=
      ExtTreeMap.mem_toList_iff_getElem?_eq_some.2 hu
    have hm := findSome?_eq_none_iff.1 hnone (address, u) he
    rwa [if_pos hh] at hm

theorem QmdbHandle.code_eq {q : QmdbStore} (hc : ¬ NoCode hash) :
    StateDbRead.code q hash =
      (q.stores.code hash).elim (.error (.codeNotFound hash)) Except.ok := by
  have hdef : StateDbRead.code q hash = QmdbHandle.code q hash := rfl
  have hb : ¬ (hash = KECCAK256_EMPTY ∨ hash = 0) := hc
  rw [hdef, QmdbHandle.code, if_neg hb, getCode]
  cases q.stores.code hash <;> rfl

variable {address : Address}

theorem QmdbHandle.recordHash_of_codeHash {q : QmdbStore}
    (h : StateDbRead.codeHash q address = .ok hash) : q.recordHash address = hash := by
  have hf : QmdbHandle.field q address (·.codeHash) = .ok hash := h
  rw [QmdbHandle.field, getAccount_ok] at hf
  rw [recordHash]
  cases hr : q.record address with
  | none =>
    rw [hr] at hf
    cases hf
  | some r =>
    rw [hr] at hf
    exact Except.ok.inj hf

namespace HistoryView

variable {B : Bytecodes} {history : List ChangeSet} (view : HistoryView history)

def pendingUpdate (address : Address) : Option AccountUpdate :=
  (mergeAll (history.drop view.pending))[address]?

def database : QmdbStore := QmdbStore.new.commitGroups view.groups

theorem kept (htraced : B.Traced history) : CodeKept B view.database view.groups.flatten := by
  obtain ⟨rest, hr⟩ := view.committed
  rw [← hr] at htraced
  exact .commitGroups (Bytecodes.traced_append.1 htraced).1

theorem pendingUpdate_eq (address : Address) :
    view.pendingUpdate address = absorbAll (updatesOf address (history.drop view.pending)) :=
  getElem?_mergeAll _ _

theorem chained_pending (htraced : B.Traced history) (address : Address) :
    B.Chained address (historyHash (history.take view.pending) address)
      (updatesOf address (history.drop view.pending)) := by
  rw [← take_append_drop view.pending history] at htraced
  exact (Bytecodes.traced_append.1 htraced).2 address

variable {address : Address} {u : AccountUpdate}

theorem sourced (htraced : B.Traced history) (hu : view.pendingUpdate address = some u) :
    ∃ before, B.Sourced address before u := by
  rw [pendingUpdate_eq] at hu
  exact ⟨_, ((view.chained_pending htraced address).absorbAll hu).1⟩

theorem last_update (hu : view.pendingUpdate address = some u) : ∃ last,
      (updatesOf address history).getLast? = some last ∧ last.codeHash = u.codeHash ∧
        last.selfdestructed = u.selfdestructed := by
  rw [pendingUpdate_eq] at hu
  rcases eq_nil_or_concat (updatesOf address (history.drop view.pending)) with hnil |
    ⟨init, last, hl⟩
  · rw [hnil] at hu
    cases hu
  · rw [concat_eq_append] at hl
    rw [hl] at hu
    obtain ⟨-, -, hh, hsd⟩ := absorbAll_last hu
    refine ⟨last, ?_, hh.symm, hsd.symm⟩
    rw [← take_append_drop view.pending history, updatesOf_append, hl, ← append_assoc,
      getLast?_concat]

theorem split : ∃ rest, history.take view.pending ++ view.groups.flatten.drop view.pending =
      view.groups.flatten ∧
    history.drop view.pending = view.groups.flatten.drop view.pending ++ rest := by
  obtain ⟨rest, hr⟩ := view.committed
  have ht := congrArg (List.take view.pending) hr
  have hd := congrArg (List.drop view.pending) hr
  rw [take_append_of_le_length view.reaches] at ht
  rw [drop_append_of_le_length view.reaches] at hd
  refine ⟨rest, ?_, hd.symm⟩
  rw [← ht, take_append_drop]

theorem historyHash_of_code_none (htraced : B.Traced history)
    (hu : view.pendingUpdate address = some u) (hnone : u.code = none) (hcd : ¬ NoCode u.codeHash)
    : historyHash view.groups.flatten address = u.codeHash := by
  obtain ⟨rest, hf, hd⟩ := view.split
  have hc := view.chained_pending htraced address
  rw [pendingUpdate_eq] at hu
  rw [hd, updatesOf_append] at hu hc
  rw [← hf, historyHash_append]
  exact hc.settledHash_of_absorbAll hu hnone hcd

theorem historyHash_of_none (hnone : view.pendingUpdate address = none) :
    historyHash view.groups.flatten address = historyHash history address := by
  obtain ⟨rest, hf, hd⟩ := view.split
  rw [pendingUpdate_eq, absorbAll_eq_none_iff, hd, updatesOf_append, append_eq_nil_iff] at hnone
  have hall : updatesOf address (history.drop view.pending) = [] := by
    rw [hd, updatesOf_append, hnone.1, hnone.2]
    rfl
  have hh := historyHash_append (history.take view.pending) (history.drop view.pending)
    address
  rw [take_append_drop, hall] at hh
  rw [← hf, historyHash_append, hnone.1, hh]

variable {hash : B256}

variable (htraced : B.Traced history)
include htraced

variable (h : StateDbRead.codeHash view.state address = .ok hash)
include h

/-- **What hash is shown**: a pending update's or the history's; or one for no code (sentinel). -/
theorem codeHash_cases :
    (∃ u, view.pendingUpdate address = some u ∧ u.codeHash = hash) ∨
      (historyHash view.groups.flatten address = hash ∧ historyHash history address = hash) ∨
      address = COMMIT_SEQ_ACCOUNT_KEY ∧ NoCode hash := by
  have hf : (view.state).field address (·.codeHash) StateDbRead.codeHash = .ok hash := h
  rw [OverlayState.field] at hf
  split at hf
  · next u hu => exact .inl ⟨u, hu, Except.ok.inj hf⟩
  · next hnone =>
    have hr : view.database.recordHash address = hash :=
      QmdbHandle.recordHash_of_codeHash hf
    have hk := view.kept htraced
    by_cases ha : address = COMMIT_SEQ_ACCOUNT_KEY
    · refine .inr (.inr ⟨ha, ?_⟩)
      rw [← hr, ha]
      exact hk.sentinel
    · have hfl := (hk.record address ha).symm.trans hr
      exact .inr (.inl ⟨hfl, (view.historyHash_of_none hnone).symm.trans hfl⟩)

theorem codeHash_known : B.Known address hash := by
  rcases view.codeHash_cases htraced h with ⟨u, hu, rfl⟩ | ⟨-, rfl⟩ | ⟨ha, he | hzero⟩
  · obtain ⟨before, hs⟩ := view.sourced htraced hu
    exact hs.known
  · exact htraced.known address
  · exact .inl he
  · exact .inr (.inl ⟨ha, hzero⟩)

omit h in
theorem code_stems (hm : hash ≠ COMMIT_SEQ_CODE_KEY) {bytes : Bytes}
    (h : StateDbRead.code view.state hash = .ok bytes) : B.Stems hash bytes := by
  by_cases hc : NoCode hash
  · exact .inl hc
  rcases OverlayState.code_cases view.database (mergeAll (history.drop view.pending)) hash with
    ⟨address, u, bytes', hu, rfl, hb, hf⟩ | ⟨-, hbs⟩
  · obtain rfl : bytes' = bytes := Except.ok.inj (hf.symm.trans h)
    obtain ⟨before, hsr⟩ := view.sourced htraced hu
    exact hsr.brought bytes' hb
  · have hs := hbs.symm.trans h
    rw [QmdbHandle.code_eq hc] at hs
    cases hget : view.database.stores.code hash with
    | none =>
      rw [hget] at hs
      cases hs
    | some bytes' =>
      rw [hget] at hs
      obtain rfl : bytes' = bytes := Except.ok.inj hs
      exact (view.kept htraced).stems hash bytes' hm hget

theorem code_found (hc : ¬ NoCode hash) :
    ∃ bytes, StateDbRead.code view.state hash = .ok bytes := by
  rcases OverlayState.code_cases view.database (mergeAll (history.drop view.pending)) hash with
    ⟨-, -, bytes, -, -, -, hfn⟩ | ⟨hm, hbs⟩
  · exact ⟨bytes, hfn⟩
  · have hf : historyHash view.groups.flatten address = hash := by
      rcases view.codeHash_cases htraced h with ⟨u, hu, rfl⟩ | ⟨hf, -⟩ | ⟨-, hno⟩
      · exact view.historyHash_of_code_none htraced hu (hm address u hu rfl) hc
      · exact hf
      · exact absurd hno hc
    have hp := (view.kept htraced).present address (hf ▸ hc)
    rw [hf] at hp
    obtain ⟨bytes, hb⟩ := isSome_iff_exists.1 hp
    refine ⟨bytes, hbs.trans ?_⟩
    rw [QmdbHandle.code_eq hc, hb]
    rfl

end HistoryView

/-! ### One transaction, one block -/

theorem QmdbStore.codeHash_genesisChanges {allocs : List (Address × U256)}
    (h : (genesisChanges allocs)[address]? = some u) : u.codeHash = KECCAK256_EMPTY := by
  induction allocs using List.reverseRecOn with
  | nil => cases h
  | append_singleton allocs alloc ih =>
    rw [getElem?_def, genesisChanges] at h
    dsimp only at h
    rw [foldl_append, foldl_cons, foldl_nil, ExtTreeMap.getElem?_insert] at h
    split at h
    · obtain rfl := some.inj h
      rfl
    · exact ih h

theorem StateDbAdapter.codeHash_of_basicRef [StateDbRead S] {state : S} {info : AccountInfo}
    (h : basicRef state address = .ok (some info)) :
    StateDbRead.codeHash state address = .ok info.codeHash := by
  rw [basicRef] at h
  cases hn : StateDbRead.nonce state address with
  | error e =>
    rw [hn] at h
    cases e <;> cases h
  | ok nonce =>
    rw [hn] at h
    cases hb : StateDbRead.balance state address with
    | error e =>
      rw [hb] at h
      cases e <;> cases h
    | ok balance =>
      rw [hb] at h
      cases hh : StateDbRead.codeHash state address with
      | error e =>
        rw [hh] at h
        cases e <;> cases h
      | ok hash =>
        rw [hh] at h
        cases h
        rfl

theorem StateDbAdapter.code_of_codeByHashRef [StateDbRead S] {state : S} {analyse : Bytes → Bytes}
    {bytes : Bytes} (hc : ¬ NoCode hash) (h : codeByHashRef analyse state hash = .ok bytes) :
    ∃ stored, StateDbRead.code state hash = .ok stored ∧ bytes = analyse stored := by
  have hb : ¬ (hash = KECCAK256_EMPTY ∨ hash = 0) := hc
  rw [codeByHashRef, if_neg hb] at h
  cases hs : StateDbRead.code state hash with
  | error e =>
    rw [hs] at h
    cases h
  | ok stored =>
    rw [hs] at h
    exact ⟨stored, rfl, (Except.ok.inj h).symm⟩

/-- **The loaded hash**: what earlier transactions of the block left, or what the state shows. -/
theorem loadedHash_cases [StateDbRead S] (state : S) (earlier : List ChangeSet) (address : Address)
    (before : B256) :
    (updatesOf address earlier ≠ [] ∧
        loadedHash state earlier address = settledHash before (updatesOf address earlier)) ∨
      updatesOf address earlier = [] ∧ (loadedHash state earlier address = KECCAK256_EMPTY ∨
        StateDbRead.codeHash state address = .ok (loadedHash state earlier address)) := by
  rw [loadedHash]
  split
  · next u hl =>
    refine .inl ⟨fun hnil => ?_, (settledHash_of_getLast? hl).symm⟩
    rw [hnil] at hl
    cases hl
  · next hl =>
    refine .inr ⟨getLast?_eq_none_iff.1 hl, ?_⟩
    split
    · next info hi => exact .inr (StateDbAdapter.codeHash_of_basicRef hi)
    · exact .inl rfl

namespace Bytecodes

variable {B : Bytecodes} {history earlier : List ChangeSet}

variable {address : Address}

theorem Traced.stems (h : B.Traced history) {ch : ChangeSet} (hch : ch ∈ history)
    {u : AccountUpdate} (hu : ch[address]? = some u) {bytes : Bytes} (hb : u.code = some bytes)
    : B.Stems u.codeHash bytes := by
  have hmem : u ∈ updatesOf address history := mem_filterMap.2 ⟨ch, hch, hu⟩
  obtain ⟨before, hs⟩ := (h address).sourced hmem
  exact hs.brought bytes hb

theorem Traced.known_loadedHash (h : B.Traced (history ++ earlier)) (view : HistoryView history)
    (address : Address) : B.Known address (loadedHash view.state earlier address) := by
  rcases loadedHash_cases view.state earlier address (historyHash history address) with
    ⟨-, hb⟩ | ⟨-, he | hs⟩
  · rw [hb, ← historyHash_append]
    exact h.known address
  · exact .inl he
  · exact view.codeHash_known (traced_append.1 h).1 hs

theorem Traced.historyHash_of_loaded (h : B.Traced (history ++ earlier))
    (view : HistoryView history) (hc : ¬ NoCode (loadedHash view.state earlier address))
    (hlv : updatesOf address earlier = [] → ∀ u,
      (updatesOf address history).getLast? = some u → u.selfdestructed = true →
      loadedHash view.state earlier address = u.codeHash → NoCode u.codeHash) :
    loadedHash view.state earlier address = historyHash (history ++ earlier) address := by
  rw [historyHash_append]
  rcases loadedHash_cases view.state earlier address (historyHash history address) with
    ⟨-, hb⟩ | ⟨hnil, he | hs⟩
  · exact hb
  · exact absurd (.inl he) hc
  · rw [hnil]
    show _ = historyHash history address
    rcases view.codeHash_cases (traced_append.1 h).1 hs with
      ⟨u, hu, hh⟩ | ⟨-, hhs⟩ | ⟨-, hno⟩
    · -- the overlay shows the hash of a destroyed account as well
      obtain ⟨last, hls, hl, -⟩ := view.last_update hu
      have ha : last.selfdestructed = false := by
        by_contra hsd
        have hno := hlv hnil last hls (by simpa using hsd) (hh.symm.trans hl.symm)
        rw [hl, hh] at hno
        exact hc hno
      rw [historyHash, settledHash_of_getLast? hls, AccountUpdate.settledHash_of_alive ha,
        hl, hh]
    · exact hhs.symm
    · exact absurd hno hc

theorem Reports.sourced {view : HistoryView history} {account : EvmAccount}
    (hr : B.Reports view.state earlier address account) (h : B.Traced (history ++ earlier))
    (hl : account.info.code = none → updatesOf address earlier = [] → ∀ u,
      (updatesOf address history).getLast? = some u → u.selfdestructed = true →
      account.info.codeHash = u.codeHash → NoCode u.codeHash) :
    B.Sourced address (historyHash (history ++ earlier) address) (accountUpdate account) := by
  cases hr with
  | deployed code hc hh hb =>
    refine ⟨.inr (.inr ⟨code, hc, hh.symm⟩), fun bytes hsome => ?_, fun hnone => ?_,
      fun _ => .inr ?_⟩
    · obtain rfl : B.analyse code = bytes := some.inj (hb.symm.trans hsome)
      exact .inr ⟨code, hc, hh.symm, 0, rfl⟩
    · exact absurd (hb.symm.trans hnone) (some_ne_none _)
    · show account.info.code.isSome = true
      rw [hb]
      rfl
  | empty hh =>
    have hno : NoCode account.info.codeHash := .inl hh
    exact ⟨.inl hh, fun _ _ => .inl hno, fun _ => .inl hno, fun _ => .inl hno⟩
  | loaded hh ha hb =>
    have hk : B.Known address account.info.codeHash := hh ▸ h.known_loadedHash view address
    refine ⟨hk, fun bytes hsome => ?_, fun hnone => ?_, fun hsd => ?_⟩
    · show B.Stems account.info.codeHash bytes
      by_cases hc : NoCode account.info.codeHash
      · exact .inl hc
      rcases hb bytes hsome with hrd | ⟨ch, hch, other, u, hu, hsm, hbr⟩
      · obtain ⟨stored, hs, rfl⟩ := StateDbAdapter.code_of_codeByHashRef hc hrd
        exact (view.code_stems (traced_append.1 h).1 (hk.unmarked hc) hs).analyse
      · rw [← hsm]
        exact h.stems (mem_append_right _ hch) hu hbr
    · show NoCode account.info.codeHash ∨ account.info.codeHash = _
      by_cases hc : NoCode account.info.codeHash
      · exact .inl hc
      · have hl' := hl hnone
        rw [hh] at hc hl' ⊢
        exact .inr (h.historyHash_of_loaded view hc hl')
    · exact absurd hsd (by rw [accountUpdate, ha]; exact Bool.false_ne_true)

theorem Executes.traced {txs : List EvmState} (he : B.Executes history txs)
    (hl : LeavesDestroyed history txs) (h : B.Traced history) :
    B.Traced (history ++ txs.map extractChanges) := by
  obtain ⟨view, hr⟩ := he
  suffices hsome : ∀ done rest, txs = done ++ rest → B.Traced (history ++ done.map extractChanges)
    from hsome txs [] (append_nil txs).symm
  intro done
  induction done using List.reverseRecOn with
  | nil =>
    intro rest _
    rwa [map_nil, append_nil]
  | append_singleton done tx ih =>
    intro rest htxs
    rw [append_assoc] at htxs
    have hd := ih ([tx] ++ rest) htxs
    rw [map_append, ← append_assoc]
    refine traced_append.2 ⟨hd, fun address => ?_⟩
    refine chained_updatesOf_singleton fun u hget => ?_
    rw [extractChanges_getElem?] at hget
    obtain ⟨account, ha, htc⟩ := bind_eq_some_iff.1 hget
    split at htc
    · next ht =>
      obtain rfl := some.inj htc
      have hrp := hr done tx rest htxs address account ha ht
      exact hrp.sourced hd fun hnone hnil last =>
        hl done tx rest htxs address account last ha ht hnone hnil
    · cases htc

theorem Traced.block (h : B.Traced history) {txs : List EvmState} (he : B.Executes history txs)
    (hl : LeavesDestroyed history txs) : B.Traced (extendHistory history txs) := by
  refine traced_append.2 ⟨h, fun address => ?_⟩
  have hc := (traced_append.1 (he.traced hl h)).2 address
  refine chained_updatesOf_singleton fun u hget => ?_
  rw [blockChanges, getElem?_mergeAll] at hget
  exact (hc.absorbAll hget).1

theorem traced_genesis (B : Bytecodes) (allocs : List (Address × U256)) :
    B.Traced [genesisChanges allocs] := by
  intro address
  refine chained_updatesOf_singleton fun u hu => ?_
  have hh := codeHash_genesisChanges hu
  have hno : NoCode u.codeHash := .inl hh
  exact ⟨.inl hh, fun _ _ => .inl hno, fun _ => .inl hno, fun _ => .inl hno⟩

theorem traced_run {allocs : List (Address × U256)} {blocks : List (List EvmState)}
    (hrun : Run.Along extendHistory
      (fun history txs => B.Executes history txs ∧ LeavesDestroyed history txs)
      [genesisChanges allocs] blocks) :
    B.Traced (blocks.foldl extendHistory [genesisChanges allocs]) :=
  hrun.invariant (B.traced_genesis allocs) fun _ _ h hb => h.block hb.1 hb.2

/-! ### Padding -/

theorem pads_iterate (B : Bytecodes) (n : ℕ) (code : Bytes) : code <+: B.analyse^[n] code := by
  induction n with
  | zero => exact prefix_rfl
  | succ n ih =>
    rw [Function.iterate_succ_apply']
    exact ih.trans (B.pads _)

theorem analyse_iterate_iff (B : Bytecodes) (n : ℕ) (code : Bytes) :
    B.analyse^[n + 1] code = code ↔ B.analyse code = code := by
  constructor
  · intro hs
    have hf := B.pads code
    have hr := B.pads_iterate n (B.analyse code)
    rw [← Function.iterate_succ_apply, hs] at hr
    exact (hf.eq_of_length (hf.length_le.antisymm hr.length_le)).symm
  · intro hfx
    exact Function.iterate_fixed hfx (n + 1)

end Bytecodes

/-- **The code of an account.** In every run in which no destroyed account is reported without its
code, however the history is merged, overlaid and committed, the code of an account is found, and is
the one deployed under the hash exactly if the analysis does not pad it. -/
theorem code_intact_iff (B : Bytecodes) {allocs : List (Address × U256)}
    {blocks : List (List EvmState)}
    (hrun : Run.Along extendHistory
      (fun history txs => B.Executes history txs ∧ LeavesDestroyed history txs)
      [genesisChanges allocs] blocks)
    (view : HistoryView (blocks.foldl extendHistory [genesisChanges allocs]))
    {address : Address} (ha : address ≠ COMMIT_SEQ_ACCOUNT_KEY) {hash : B256}
    (hhash : StateDbRead.codeHash view.state address = .ok hash) (hne : hash ≠ KECCAK256_EMPTY) :
    (∃ code ∈ B.deployed, B.keccak256 code = hash) ∧
      ∃ bytes, StateDbRead.code view.state hash = .ok bytes ∧
        ∀ code ∈ B.deployed, B.keccak256 code = hash → (bytes = code ↔ B.analyse code = code) := by
  have htraced := Bytecodes.traced_run hrun
  have hkn := view.codeHash_known htraced hhash
  have hc := hkn.not_noCode ha hne
  obtain ⟨bytes, hb⟩ := view.code_found htraced hhash hc
  refine ⟨hkn.deployed hc, bytes, hb, fun code hd hk => ?_⟩
  have hs := view.code_stems htraced (hkn.unmarked hc) hb
  obtain ⟨code', hd', hk', n, rfl⟩ := hs.resolve_left hc
  -- the hash tells deployed codes apart
  obtain rfl := B.injective hd' hd (hk'.trans hk.symm)
  exact B.analyse_iterate_iff n code'

/-! ### Two codes

The code `00` stops. The code `6000` ends in the data of a push, and the analysis puts a stop behind
it. Transactions deploy them at `0xC`. -/

namespace TwoCodes

def analyse (code : Bytes) : Bytes := if code = [0x60, 0x00] then [0x60, 0x00, 0x00] else code

theorem analyse_pads (code : Bytes) : code <+: analyse code := by
  rw [analyse]
  split
  · next hc => exact ⟨[0x00], by rw [hc]; rfl⟩
  · exact prefix_rfl

def keccak256 (code : Bytes) : B256 := BitVec.ofNat 256 code.length

theorem keccak256_injOn : Set.InjOn keccak256 {[0x00], [0x60, 0x00]} := by
  rintro code (rfl | rfl) code' (rfl | rfl) h
  · rfl
  · exact absurd h (by decide)
  · exact absurd h (by decide)
  · rfl

theorem keccak256_ne {code : Bytes} (h : code ∈ ({[0x00], [0x60, 0x00]} : Set Bytes)) :
    keccak256 code ≠ 0 ∧ keccak256 code ≠ COMMIT_SEQ_CODE_KEY := by
  rcases h with rfl | rfl <;> decide

def codes : Bytecodes where
  keccak256 := keccak256
  analyse := analyse
  deployed := {[0x00], [0x60, 0x00]}
  pads := analyse_pads
  injective := keccak256_injOn
  nonzero _ hcode := (keccak256_ne hcode).1
  unmarked _ hcode := (keccak256_ne hcode).2

/-- A transaction that touches `0xC`. -/
def touching (codeHash : B256) (code : Option Bytes) (created destroyed : Bool) : EvmState :=
  (∅ : EvmState).insert 0xC
    { info := ⟨0, 1, codeHash, code⟩
      storage := ∅
      isTouched := true
      isCreated := created
      isSelfdestructed := destroyed }

theorem eq_of_touching {codeHash : B256} {code : Option Bytes} {created destroyed : Bool}
    {address : Address} {account : EvmAccount}
    (h : (touching codeHash code created destroyed)[address]? = some account) :
    address = 0xC ∧ account = ⟨⟨0, 1, codeHash, code⟩, ∅, true, created, destroyed⟩ := by
  rw [touching, ExtTreeMap.getElem?_insert] at h
  split at h
  · next hkey =>
    exact ⟨(LawfulEqCmp.compare_eq_iff_eq.1 hkey).symm, (some.inj h).symm⟩
  · simp at h

def deploying (code : Bytes) (destroyed : Bool) : EvmState :=
  touching (keccak256 code) (some (analyse code)) true destroyed

/-- Nothing is committed. -/
def pendingView (history : List ChangeSet) : HistoryView history :=
  ⟨[], 0, nil_prefix, le_rfl⟩

theorem flatten_singletons (history : List ChangeSet) : (history.map ([·])).flatten = history := by
  rw [← flatMap_def, flatMap_singleton']

/-- Every block is committed on its own. -/
def committedView (history : List ChangeSet) : HistoryView history where
  groups := history.map ([·])
  pending := history.length
  committed := ⟨[], (append_nil _).trans (flatten_singletons history)⟩
  reaches := (congrArg List.length (flatten_singletons history)).ge

theorem executes_one {history : List ChangeSet} {codeHash : B256} {code : Option Bytes}
    {created destroyed : Bool} (hr : codes.Reports (pendingView history).state [] 0xC
      ⟨⟨0, 1, codeHash, code⟩, ∅, true, created, destroyed⟩) :
    codes.Executes history [touching codeHash code created destroyed] := by
  refine ⟨pendingView history, fun earlier tx later htxs address account ha _ => ?_⟩
  obtain ⟨rfl, htx⟩ : earlier = [] ∧ tx = touching codeHash code created destroyed := by
    cases earlier with
    | nil => exact ⟨rfl, (cons.inj htxs).1.symm⟩
    | cons first earlier =>
      have hlen := congrArg List.length htxs
      simp at hlen
  rw [htx] at ha
  obtain ⟨rfl, rfl⟩ := eq_of_touching ha
  exact hr

theorem executes_deploying (history : List ChangeSet) {code : Bytes}
    (hc : code ∈ codes.deployed) (destroyed : Bool) :
    codes.Executes history [deploying code destroyed] :=
  executes_one (.deployed code hc rfl rfl)

theorem leavesDestroyed_deploying (history : List ChangeSet) (code : Bytes) (destroyed : Bool) :
    LeavesDestroyed history [deploying code destroyed] := by
  intro earlier tx later htxs address account u ha _ hnone
  have htx : tx ∈ [deploying code destroyed] := by
    rw [htxs]
    exact mem_append_right _ mem_cons_self
  rw [mem_singleton.1 htx] at ha
  obtain ⟨-, rfl⟩ := eq_of_touching ha
  cases hnone

end TwoCodes

section

open TwoCodes

/-- The code `00` is deployed and committed. -/
theorem code_intact_iff_stop :
    ∃ bytes, StateDbRead.code
        (committedView (extendHistory [genesisChanges []] [deploying [0x00] false])).state 1 =
          .ok bytes ∧
      ∀ code ∈ codes.deployed, keccak256 code = 1 → (bytes = code ↔ analyse code = code) := by
  have hrun : Run.Along extendHistory
      (fun history txs => codes.Executes history txs ∧ LeavesDestroyed history txs)
      [genesisChanges []] [[deploying [0x00] false]] :=
    ⟨⟨executes_deploying _ (.inl rfl) false, leavesDestroyed_deploying _ _ _⟩, trivial⟩
  have hh : StateDbRead.codeHash (committedView
      (extendHistory [genesisChanges []] [deploying [0x00] false])).state 0xC = .ok 1 := by
    rfl
  exact (code_intact_iff codes hrun (committedView _) (by decide) hh (by decide)).2

/-- A contract is deployed and destroyed by one transaction, and touched by another while the block
is pending: its hash is written to the database, the code is not. And the code `6000` is found
padded. -/
theorem deployed_code_altered :
    (¬ ∀ (B : Bytecodes) (allocs : List (Address × U256)) (blocks : List (List EvmState)),
      Run.Along extendHistory B.Executes [genesisChanges allocs] blocks →
      ∀ (view : HistoryView (blocks.foldl extendHistory [genesisChanges allocs]))
        (address : Address) (hash : B256), address ≠ COMMIT_SEQ_ACCOUNT_KEY →
        StateDbRead.codeHash view.state address = .ok hash → hash ≠ KECCAK256_EMPTY →
        ∃ bytes, StateDbRead.code view.state hash = .ok bytes) ∧
    ¬ ∀ (B : Bytecodes) (allocs : List (Address × U256)) (blocks : List (List EvmState)),
      Run.Along extendHistory B.Executes [genesisChanges allocs] blocks →
      ∀ (view : HistoryView (blocks.foldl extendHistory [genesisChanges allocs]))
        (address : Address) (hash : B256), address ≠ COMMIT_SEQ_ACCOUNT_KEY →
        StateDbRead.codeHash view.state address = .ok hash → hash ≠ KECCAK256_EMPTY →
        ∀ bytes, StateDbRead.code view.state hash = .ok bytes →
          bytes ∈ B.deployed ∧ B.keccak256 bytes = hash := by
  constructor
  · intro h
    have hrun : Run.Along extendHistory codes.Executes [genesisChanges []]
        [[deploying [0x00] true], [touching 1 none false false]] :=
      ⟨executes_deploying _ (.inl rfl) true,
        executes_one (.loaded rfl rfl fun bytes hb => by cases hb), trivial⟩
    obtain ⟨bytes, hb⟩ := h codes [] _ hrun (committedView _) 0xC 1 (by decide) rfl (by decide)
    have hm : Except.isOk _ = true := congrArg Except.isOk hb
    exact absurd hm (by decide +kernel)
  · intro h
    have hrun : Run.Along extendHistory codes.Executes [genesisChanges []]
        [[deploying [0x60, 0x00] false]] :=
      ⟨executes_deploying _ (.inr rfl) false, trivial⟩
    have hb := h codes [] _ hrun (pendingView _) 0xC 2 (by decide) rfl (by decide)
      [0x60, 0x00, 0x00] rfl
    exact absurd hb.2 (by decide)

end

end Kora
