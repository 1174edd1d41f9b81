/-
What a state root stands for (`storage/qmdb/src/root.rs`, `compute_root_from_store` in
`node/ledger/src/lib.rs`).

The genesis root hashes the roots of the three partitions, and each block hashes the root
of its parent together with its change set.

* `root_commits_history` — two histories with the same root are the same history;
* `Chain.stateRoot_eq` — the roots of a chain's blocks are roots of histories.
-/
import Kora.Chain
import Kora.Framing

open Std List

namespace Kora

open BigEndian Framing

/-! ### The strings that are hashed -/

namespace StateRoot

/-- The text `_KORA_QMDB_ROOT`. -/
def ROOT_NAMESPACE : Bytes :=
  [0x5f, 0x4b, 0x4f, 0x52, 0x41, 0x5f, 0x51, 0x4d, 0x44, 0x42, 0x5f, 0x52, 0x4f, 0x4f, 0x54]

/-- What `compute` hashes. -/
def computeBytes (accountsRoot storageRoot codeRoot : B256) : Bytes :=
  ROOT_NAMESPACE ++ toBytes 32 accountsRoot ++ toBytes 32 storageRoot ++ toBytes 32 codeRoot

def compute (keccak256 : Bytes → B256) (accountsRoot storageRoot codeRoot : B256) : B256 :=
  keccak256 (computeBytes accountsRoot storageRoot codeRoot)

/-- The bytes of a change set: the number of its accounts, and the accounts in order. -/
def changesBytes (changes : ChangeSet) : Bytes :=
  digits 8 changes.accounts.size ++ changes.accounts.toList.flatMap updateBytes

/-- What `transition` hashes. -/
def transitionBytes (parentRoot : B256) (changes : ChangeSet) : Bytes :=
  TRANSITION_ROOT_NAMESPACE ++ (toBytes 32 parentRoot ++ changesBytes changes)

theorem transition_of_ne_new (keccak256 : Bytes → B256) (parentRoot : B256) {changes : ChangeSet}
    (h : changes ≠ ChangeSet.new) :
    transition keccak256 parentRoot changes = keccak256 (transitionBytes parentRoot changes) := by
  rw [transition, if_neg (fun he => h (ChangeSet.isEmpty_iff.1 he)), transitionBytes,
    changesBytes]
  simp only [append_assoc]

end StateRoot

open StateRoot

/-- The lengths in an update fit in the eight bytes they are written to. -/
def AccountUpdate.FitsU64 (u : AccountUpdate) : Prop :=
  (∀ code ∈ u.code, code.length < 2 ^ 64) ∧ u.storage.size < 2 ^ 64

instance (u : AccountUpdate) : Decidable u.FitsU64 := inferInstanceAs (Decidable (_ ∧ _))

/-- The lengths in a change set fit in the eight bytes they are written to. -/
def ChangeSet.FitsU64 (ch : ChangeSet) : Prop :=
  ch.accounts.size < 2 ^ 64 ∧ ∀ entry ∈ ch.accounts.toList, entry.2.FitsU64

instance (ch : ChangeSet) : Decidable ch.FitsU64 := inferInstanceAs (Decidable (_ ∧ _))

/-! ### Reading them -/

theorem settles_codeBytes :
    Settles {code : Option Bytes | ∀ c ∈ code, c.length < 2 ^ 64} codeBytes id := by
  have henc : codeBytes = fun code =>
      code.elim [0] fun c => 1 :: (digits 8 c.length ++ c) := by
    funext code
    cases code <;> rfl
  rw [henc]
  exact (settles_blob 8).option (by decide)

theorem settles_slotBytes : Settles Set.univ slotBytes id :=
  (((settles_toBytes 32).comp Prod.fst).append ((settles_toBytes 32).comp Prod.snd)).of_imp
    fun _ _ _ _ heq => heq

theorem settles_storageBytes :
    Settles {storage : ExtTreeMap U256 U256 | storage.size < 2 ^ 64}
      (fun storage => digits 8 storage.size ++ storage.toList.flatMap slotBytes) id := by
  have hs := (settles_slotBytes.counted 8).comp (fun t : ExtTreeMap U256 U256 => t.toList)
  have henc : (fun t : ExtTreeMap U256 U256 => digits 8 t.size ++ t.toList.flatMap slotBytes) =
      (fun l : List (U256 × U256) => digits 8 l.length ++ l.flatMap slotBytes) ∘
        fun t : ExtTreeMap U256 U256 => t.toList := by
    funext t
    rw [Function.comp_apply, ExtTreeMap.length_toList]
  rw [henc]
  refine (hs.mono fun t ht => ⟨?_, fun _ _ => Set.mem_univ _⟩).of_imp fun t _ t' _ heq => ?_
  · rw [ExtTreeMap.length_toList]
    exact ht
  · exact ExtTreeMap.toList_inj.1 heq

theorem flagByte_inj {b c : Bool} (h : flagByte b = flagByte c) : b = c := by
  cases b <;> cases c <;> first | rfl | exact absurd h (by decide)

theorem settles_updateBytes :
    Settles {entry : Address × AccountUpdate | entry.2.FitsU64} updateBytes id := by
  set S : Set (Address × AccountUpdate) := {entry | entry.2.FitsU64} with hS
  have ha : Settles S (fun e => toBytes 20 e.1) (fun e => e.1) :=
    ((settles_toBytes 20).comp Prod.fst).mono fun _ _ => Set.mem_univ _
  have hf : Settles S (fun e => [flagByte e.2.created, flagByte e.2.selfdestructed])
      (fun e => (e.2.created, e.2.selfdestructed)) := by
    refine Settles.of_length (n := 2) (fun _ _ => rfl) fun e _ e' _ heq => ?_
    obtain ⟨hc, hr⟩ := cons.inj heq
    exact Prod.ext (flagByte_inj hc) (flagByte_inj (singleton_inj.1 hr))
  have hn : Settles S (fun e => toBytes 8 e.2.nonce) (fun e => e.2.nonce) :=
    ((settles_toBytes 8).comp fun e : Address × AccountUpdate => e.2.nonce).mono
      fun _ _ => Set.mem_univ _
  have hb : Settles S (fun e => toBytes 32 e.2.balance) (fun e => e.2.balance) :=
    ((settles_toBytes 32).comp fun e : Address × AccountUpdate => e.2.balance).mono
      fun _ _ => Set.mem_univ _
  have hcodeHash : Settles S (fun e => toBytes 32 e.2.codeHash) (fun e => e.2.codeHash) :=
    ((settles_toBytes 32).comp fun e : Address × AccountUpdate => e.2.codeHash).mono
      fun _ _ => Set.mem_univ _
  have hcd : Settles S (fun e => codeBytes e.2.code) (fun e => e.2.code) :=
    (settles_codeBytes.comp fun e : Address × AccountUpdate => e.2.code).mono fun _ he => he.1
  have hs : Settles S
      (fun e => digits 8 e.2.storage.size ++ e.2.storage.toList.flatMap slotBytes)
      (fun e => e.2.storage) :=
    (settles_storageBytes.comp fun e : Address × AccountUpdate => e.2.storage).mono
      fun _ he => he.2
  have hall := ha.append (hf.append (hn.append (hb.append
    (hcodeHash.append (hcd.append hs)))))
  have henc : updateBytes = fun e => toBytes 20 e.1 ++
      ([flagByte e.2.created, flagByte e.2.selfdestructed] ++ (toBytes 8 e.2.nonce ++
        (toBytes 32 e.2.balance ++ (toBytes 32 e.2.codeHash ++ (codeBytes e.2.code ++
          (digits 8 e.2.storage.size ++ e.2.storage.toList.flatMap slotBytes)))))) := by
    funext e
    simp only [updateBytes, append_assoc]
  rw [henc]
  refine hall.of_imp fun e _ e' _ heq => ?_
  obtain ⟨address, created, selfdestructed, nonce, balance, codeHash, code, storage⟩ := e
  obtain ⟨address', created', selfdestructed', nonce', balance', codeHash', code', storage'⟩ := e'
  simp only [Prod.mk.injEq] at heq
  obtain ⟨rfl, ⟨rfl, rfl⟩, rfl, rfl, rfl, rfl, rfl⟩ := heq
  rfl

theorem settles_changesBytes : Settles {ch : ChangeSet | ch.FitsU64} changesBytes id := by
  have ha := (settles_updateBytes.counted 8).comp (fun ch : ChangeSet => ch.accounts.toList)
  have henc : changesBytes =
      (fun l : List (Address × AccountUpdate) => digits 8 l.length ++ l.flatMap updateBytes) ∘
        fun ch : ChangeSet => ch.accounts.toList := by
    funext ch
    rw [Function.comp_apply, ExtTreeMap.length_toList, changesBytes]
  rw [henc]
  refine (ha.mono fun ch hch => ⟨?_, hch.2⟩).of_imp fun ch _ ch' _ heq => ?_
  · rw [ExtTreeMap.length_toList]
    exact hch.1
  · exact congrArg ChangeSet.mk (ExtTreeMap.toList_inj.1 heq)

/-! ### Different strings for different transitions -/

theorem computeBytes_inj {a s c a' s' c' : B256} (h : computeBytes a s c = computeBytes a' s' c') :
    a = a' ∧ s = s' ∧ c = c' := by
  rw [computeBytes, computeBytes, append_assoc, append_assoc, append_assoc, append_assoc] at h
  obtain ⟨ha, h⟩ := settles_toBytes 32 trivial trivial _ _ (append_cancel_left h)
  rw [← append_nil (toBytes 32 c), ← append_nil (toBytes 32 c')] at h
  obtain ⟨hs, h⟩ := settles_toBytes 32 trivial trivial _ _ h
  obtain ⟨hc, -⟩ := settles_toBytes 32 trivial trivial _ _ h
  exact ⟨ha, hs, hc⟩

theorem transitionBytes_inj {p p' : B256} {ch ch' : ChangeSet} (hch : ch.FitsU64)
    (hch' : ch'.FitsU64) (h : transitionBytes p ch = transitionBytes p' ch') :
    p = p' ∧ ch = ch' := by
  obtain ⟨hp, h⟩ := settles_toBytes 32 trivial trivial _ _ (append_cancel_left h)
  rw [← append_nil (changesBytes ch), ← append_nil (changesBytes ch')] at h
  exact ⟨hp, (settles_changesBytes hch hch' _ _ h).1⟩

theorem computeBytes_ne_transitionBytes (a s c p : B256) (ch : ChangeSet) :
    computeBytes a s c ≠ transitionBytes p ch := by
  intro h
  have hs := congrArg (fun l : Bytes => l[6]?) h
  simp [computeBytes, transitionBytes, ROOT_NAMESPACE, TRANSITION_ROOT_NAMESPACE] at hs

/-! ### Histories -/

/-- A history: the partition roots at genesis, and the change sets of the blocks. -/
structure RootHistory where
  accountsRoot : B256
  storageRoot : B256
  codeRoot : B256
  changes : List ChangeSet

namespace RootHistory

variable (keccak256 : Bytes → B256)

def genesisRoot (h : RootHistory) : B256 :=
  compute keccak256 h.accountsRoot h.storageRoot h.codeRoot

/-- The root of the last block. -/
def root (h : RootHistory) : B256 :=
  h.changes.foldl (transition keccak256) (h.genesisRoot keccak256)

/-- The strings hashed for the blocks on top of a root. -/
def hashedFrom (parentRoot : B256) : List ChangeSet → List Bytes
  | [] => []
  | ch :: rest =>
    transitionBytes parentRoot ch :: hashedFrom (transition keccak256 parentRoot ch) rest

/-- The strings hashed along the history. -/
def hashed (h : RootHistory) : List Bytes :=
  computeBytes h.accountsRoot h.storageRoot h.codeRoot ::
    hashedFrom keccak256 (h.genesisRoot keccak256) h.changes

/-- A block has changed something, and its lengths fit. -/
def Proper (h : RootHistory) : Prop := ∀ ch ∈ h.changes, ch ≠ ChangeSet.new ∧ ch.FitsU64

instance (h : RootHistory) : Decidable h.Proper := inferInstanceAs (Decidable (∀ _ ∈ _, _))

variable {keccak256}

theorem hashedFrom_concat (p : B256) (cs : List ChangeSet) (ch : ChangeSet) :
    hashedFrom keccak256 p (cs ++ [ch]) = hashedFrom keccak256 p cs ++
      [transitionBytes (cs.foldl (transition keccak256) p) ch] := by
  induction cs generalizing p with
  | nil => rfl
  | cons c cs ih => rw [cons_append, hashedFrom, ih, hashedFrom, foldl_cons,
      cons_append]

variable {a s c : B256} {cs : List ChangeSet} {ch : ChangeSet}

theorem root_concat (hch : ch ≠ ChangeSet.new) :
    (mk a s c (cs ++ [ch])).root keccak256 =
      keccak256 (transitionBytes ((mk a s c cs).root keccak256) ch) := by
  rw [root, foldl_append, foldl_cons, foldl_nil, transition_of_ne_new _ _ hch]
  rfl

theorem hashed_concat :
    (mk a s c (cs ++ [ch])).hashed keccak256 = (mk a s c cs).hashed keccak256 ++
      [transitionBytes ((mk a s c cs).root keccak256) ch] := by
  rw [hashed, hashedFrom_concat]
  rfl

theorem Proper.init (h : (mk a s c (cs ++ [ch])).Proper) : (mk a s c cs).Proper :=
  fun d hd => h d (mem_append_left [ch] hd)

theorem Proper.last (h : (mk a s c (cs ++ [ch])).Proper) : ch ≠ ChangeSet.new ∧ ch.FitsU64 :=
  h ch (mem_append_right cs mem_cons_self)

theorem eq_of_root_eq {a' s' c' : B256} {cs' : List ChangeSet} (h : (mk a s c cs).Proper)
    (h' : (mk a' s' c' cs').Proper)
    (hinj : Set.InjOn keccak256 {b | b ∈ (mk a s c cs).hashed keccak256 ∨
      b ∈ (mk a' s' c' cs').hashed keccak256})
    (heq : (mk a s c cs).root keccak256 = (mk a' s' c' cs').root keccak256) :
    mk a s c cs = mk a' s' c' cs' := by
  -- both histories lose their last block together, so the induction is on the first from its end
  induction cs using List.reverseRecOn generalizing cs' with
  | nil =>
    rcases eq_nil_or_concat' cs' with rfl | ⟨cs', ch', rfl⟩
    · have hby := hinj (.inl mem_cons_self) (.inr mem_cons_self) heq
      obtain ⟨rfl, rfl, rfl⟩ := computeBytes_inj hby
      rfl
    · rw [root_concat h'.last.1] at heq
      rw [hashed_concat] at hinj
      have hby := hinj (.inl mem_cons_self)
        (.inr (mem_append_right _ mem_cons_self)) heq
      exact absurd hby (computeBytes_ne_transitionBytes _ _ _ _ _)
  | append_singleton cs ch ih =>
    rw [root_concat h.last.1] at heq
    rw [hashed_concat] at hinj
    rcases eq_nil_or_concat' cs' with rfl | ⟨cs', ch', rfl⟩
    · have hby := hinj (.inr mem_cons_self)
        (.inl (mem_append_right _ mem_cons_self)) heq.symm
      exact absurd hby (computeBytes_ne_transitionBytes _ _ _ _ _)
    · rw [root_concat h'.last.1] at heq
      rw [hashed_concat] at hinj
      have hby := hinj (.inl (mem_append_right _ mem_cons_self))
        (.inr (mem_append_right _ mem_cons_self)) heq
      obtain ⟨hr, rfl⟩ := transitionBytes_inj h.last.2 h'.last.2 hby
      have hi := ih h.init h'.init
        (hinj.mono fun b hb => hb.imp (mem_append_left _) (mem_append_left _)) hr
      obtain ⟨rfl, rfl, rfl, rfl⟩ := RootHistory.mk.inj hi
      rfl

end RootHistory

/-- **The state root commits to the whole history.** Two histories of non-empty change sets with the
same root, along which the hash does not collide, are the same. -/
theorem root_commits_history {keccak256 : Bytes → B256} {h h' : RootHistory} (hh : h.Proper)
    (hh' : h'.Proper)
    (hinj : Set.InjOn keccak256 {b | b ∈ h.hashed keccak256 ∨ b ∈ h'.hashed keccak256})
    (heq : h.root keccak256 = h'.root keccak256) :
    h.genesisRoot keccak256 = h'.genesisRoot keccak256 ∧ h.changes = h'.changes := by
  have hs : h = h' := RootHistory.eq_of_root_eq hh hh' hinj heq
  exact ⟨congrArg (·.genesisRoot keccak256) hs, congrArg (·.changes) hs⟩

/-- An account is created and then paid. -/
def RootHistory.twoBlocks : RootHistory := ⟨1, 2, 3, [recreate, plainTransfer]⟩

/-- The history of two blocks, under a hash that tells strings of different lengths apart. -/
theorem root_commits_history_two :
    RootHistory.twoBlocks.Proper ∧
      RootHistory.twoBlocks.genesisRoot (fun b => BitVec.ofNat 256 b.length) =
        RootHistory.twoBlocks.genesisRoot (fun b => BitVec.ofNat 256 b.length) ∧
      RootHistory.twoBlocks.changes = RootHistory.twoBlocks.changes := by
  have hp : RootHistory.twoBlocks.Proper := by decide +kernel
  have hall : ∀ b ∈ RootHistory.twoBlocks.hashed (fun b => BitVec.ofNat 256 b.length),
      ∀ b' ∈ RootHistory.twoBlocks.hashed (fun b => BitVec.ofNat 256 b.length),
        BitVec.ofNat 256 b.length = BitVec.ofNat 256 b'.length → b = b' := by decide +kernel
  refine ⟨hp, root_commits_history hp hp (fun b hb b' hb' => ?_) rfl⟩
  exact hall b (hb.elim id id) b' (hb'.elim id id)

/-! ### Roots of a chain -/

/-- The root of each block of a chain is that of the history of the chain up to it. -/
theorem Chain.stateRoot_eq {P : Platform} (chain : Chain P) {h : RootHistory}
    (hg : h.genesisRoot P.keccak256 = (chain.block 0).stateRoot) {i : ℕ}
    (hi : i ≤ chain.length) (hc : h.changes = changesUpTo chain.outcome i) :
    (chain.block i).stateRoot = h.root P.keccak256 := by
  rw [RootHistory.root, hg, hc]
  clear hc
  induction i with
  | zero => rfl
  | succ i ih =>
    rw [changesUpTo_succ, foldl_append, ← ih (by omega), foldl_cons, foldl_nil]
    exact (chain.root i hi).symm

end Kora
