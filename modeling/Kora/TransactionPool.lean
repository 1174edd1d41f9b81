/-
The operations of the transaction pool (`node/txpool/src/pool.rs`,
`node/txpool/src/ordering.rs`).

Adding a transaction checks it, files it in the queue of its sender, where it may replace
one with the same nonce, enters it in the indexes, and evicts the cheapest while there are
too many. The other operations take transactions out.

* `PoolInner.add`, `PoolInner.insert` — adding, with the events sent and the answer;
* `PoolInner.evictLoop_eq` — the eviction loops run until they end by themselves.
-/
import Kora.Txpool

open Std

namespace Kora

/-! ### Configuration, errors and events -/

structure PoolConfig where
  maxPendingTxs : ℕ
  maxQueuedTxs : ℕ
  maxTxsPerSender : ℕ
  /-- In bytes. -/
  maxTxSize : ℕ
  minGasPrice : ℕ
  replacementBumpPercent : ℕ
  pendingTtlSecs : ℕ
  queuedTtlSecs : ℕ

def PoolConfig.new : PoolConfig where
  maxPendingTxs := 4096
  maxQueuedTxs := 1024
  maxTxsPerSender := 256
  maxTxSize := 128 * 1024
  minGasPrice := 1000000000
  replacementBumpPercent := 10
  pendingTtlSecs := 30 * 60
  queuedTtlSecs := 60 * 60

/-- Why a transaction is not added, or not valid. -/
inductive TxPoolError where
  | poolFull
  | senderFull (sender : Address)
  | txTooLarge (size max : ℕ)
  | gasPriceTooLow (price min : ℕ)
  | nonceTooLow (got expected : ℕ)
  | nonceGap (got expected : ℕ)
  | insufficientBalance (need has : U256)
  | invalidChainId (got expected : ℕ)
  | invalidSignature
  | decodeError (message : String)
  | intrinsicGasTooLow (limit intrinsic : ℕ)
  | alreadyExists
  | nonceAlreadyInPool (sender : Address) (nonce : ℕ)
  | stateError (message : String)
  | replacementUnderpriced
deriving DecidableEq

/-- What subscribers of the pool are told. -/
inductive MempoolEvent where
  | txAdded (hash : B256) (sender : Address) (recipient : Option Address)
      (value gasPrice : U256) (nonce : ℕ)
  | txEvicted (hash : B256) (reason : String)
deriving DecidableEq

/-! ### Envelopes -/

/-- What is read from a transaction envelope. An envelope is given by its canonical encoding. -/
structure Alloy where
  /-- Decode an envelope from the front of some bytes. -/
  decode2718 : Bytes → Option Bytes
  recoverSender : Bytes → Option Address
  txType : Bytes → TxType
  nonce : Bytes → ℕ
  gasPrice : Bytes → ℕ
  maxFeePerGas : Bytes → ℕ
  recipient : Bytes → Option Address
  value : Bytes → U256

/-- The price by which a transaction is ordered. -/
def Alloy.effectiveGasPrice (A : Alloy) (envelope : Bytes) : ℕ :=
  match A.txType envelope with
  | .legacy => A.gasPrice envelope
  | .eip2930 => A.gasPrice envelope
  | .eip1559 => A.maxFeePerGas envelope
  | .eip4844 => A.maxFeePerGas envelope
  | .eip7702 => A.maxFeePerGas envelope

/-- Decode a transaction that arrives at time `now`. Its hash is the one of the bytes received. -/
def txToOrdered (P : Platform) (A : Alloy) (tx : Tx) (now : ℕ) : Option OrderedTransaction := do
  let envelope ← A.decode2718 tx.bytes
  let sender ← A.recoverSender envelope
  return {
    hash := P.keccak256 tx.bytes
    sender
    nonce := A.nonce envelope
    effectiveGasPrice := A.effectiveGasPrice envelope
    timestamp := now
    envelope }

def txAddedEvent (A : Alloy) (tx : OrderedTransaction) : MempoolEvent :=
  .txAdded tx.hash tx.sender (A.recipient tx.envelope) (A.value tx.envelope)
    (BitVec.ofNat 256 tx.effectiveGasPrice) tx.nonce

/-! ### Filing a transaction in its sender's queue -/

namespace SenderQueue

def new (sender : Address) (initialNonce : ℕ) : SenderQueue := ⟨sender, initialNonce, [], []⟩

/-- The nonce that would continue the pending transactions. -/
def nextPendingNonce (self : SenderQueue) : ℕ :=
  min (self.nextNonce + self.pending.length) U64_MAX

def totalCount (self : SenderQueue) : ℕ := self.pending.length + self.queued.length

/-- Put a transaction at its place among the queued ones. Of two with the same nonce the dearer one
stays, the other is returned. Where several have the nonce, which only the largest one allows, this
takes the first of them, and the binary search of the source any. -/
def insertQueued (tx : OrderedTransaction) :
    List OrderedTransaction → List OrderedTransaction × Option OrderedTransaction
  | [] => ([tx], none)
  | existing :: queued =>
    if existing.nonce < tx.nonce then
      let (queued, replaced) := insertQueued tx queued
      (existing :: queued, replaced)
    else if existing.nonce = tx.nonce then
      if tx.effectiveGasPrice > existing.effectiveGasPrice then (tx :: queued, some existing)
      else (existing :: queued, some tx)
    else (tx :: existing :: queued, none)

/-- File a transaction, and return the one that it displaces, or itself if it is refused. -/
def insert (self : SenderQueue) (tx : OrderedTransaction) :
    SenderQueue × Option OrderedTransaction :=
  if tx.nonce < self.nextNonce then (self, some tx)
  else if tx.nonce = self.nextPendingNonce then
    (promoteQueued { self with pending := self.pending ++ [tx] }, none)
  else if tx.nonce > self.nextPendingNonce then
    let (queued, replaced) := insertQueued tx self.queued
    ({ self with queued }, replaced)
  else
    let idx := tx.nonce - self.nextNonce
    match self.pending[idx]? with
    | some existing =>
      if tx.effectiveGasPrice > existing.effectiveGasPrice then
        ({ self with pending := self.pending.set idx tx }, some existing)
      else (self, some tx)
    | none => (self, some tx)

end SenderQueue

inductive InsertionTarget where
  | pending | queued | replacement
deriving DecidableEq

def existingNonceTx (queue : SenderQueue) (nonce : ℕ) : Option OrderedTransaction :=
  queue.txs.find? (fun tx => tx.nonce = nonce)

/-- Predict where a transaction will go. The sum is one of 64-bit numbers. -/
def insertionTarget (queue : Option SenderQueue) (tx : OrderedTransaction) : InsertionTarget :=
  match queue with
  | none => .pending
  | some queue =>
    if (existingNonceTx queue tx.nonce).isSome then .replacement
    else if tx.nonce = (queue.nextNonce + queue.pending.length) % (U64_MAX + 1) then .pending
    else .queued

/-! ### Evicting -/

/-- The lower price comes first, then the later transaction, then the smaller hash. -/
def OrderedTransaction.evictionCmp (self other : OrderedTransaction) : Ordering :=
  (compare self.effectiveGasPrice other.effectiveGasPrice).then
    ((compare other.timestamp self.timestamp).then (compare self.hash other.hash))

namespace PoolInner

variable (P : Platform) (A : Alloy) (config : PoolConfig)

/-- The transaction that is evicted first. -/
def lowest : List OrderedTransaction → Option OrderedTransaction
  | [] => none
  | tx :: txs =>
    some (txs.foldl (fun left right => if right.evictionCmp left = .lt then right else left) tx)

/-- Evict the lowest of the transactions in one part of the queues. -/
def evictLowest (part : SenderQueue → List OrderedTransaction) (self : PoolInner) :
    PoolInner × Option OrderedTransaction :=
  match lowest (self.bySender.values.flatMap part) with
  | none => (self, none)
  | some tx => ((removeByHash P self tx.hash).updateCounts, self.byHash[tx.hash]?)

def evictLowestPending : PoolInner → PoolInner × Option OrderedTransaction :=
  evictLowest P (·.pending)

def evictLowestQueued : PoolInner → PoolInner × Option OrderedTransaction :=
  evictLowest P (·.queued)

/-- Evict while there are too many transactions and one can be evicted, for at most `fuel` turns. -/
def evictWhile (exceeds : PoolInner → Bool)
    (evict : PoolInner → PoolInner × Option OrderedTransaction) :
    ℕ → PoolInner → PoolInner × List OrderedTransaction
  | 0, inner => (inner, [])
  | fuel + 1, inner =>
    if exceeds inner then
      match evict inner with
      | (inner, none) => (inner, [])
      | (inner, some evicted) =>
        let (inner, later) := evictWhile exceeds evict fuel inner
        (inner, evicted :: later)
    else (inner, [])

/-- The loop. Each turn takes a transaction out of the hash map, which bounds their number. -/
def evictLoop (exceeds : PoolInner → Bool)
    (evict : PoolInner → PoolInner × Option OrderedTransaction) (self : PoolInner) :
    PoolInner × List OrderedTransaction :=
  evictWhile exceeds evict (self.byHash.size + 1) self

/-- Evict pending transactions beyond the limit, then queued ones. -/
def evictExcess (self : PoolInner) : PoolInner × List OrderedTransaction :=
  let (inner, pending) := evictLoop (fun inner => inner.pendingCount > config.maxPendingTxs)
    (evictLowestPending P) self
  let (inner, queued) := evictLoop (fun inner => inner.queuedCount > config.maxQueuedTxs)
    (evictLowestQueued P) inner
  (inner, pending ++ queued)

/-! ### Adding -/

def minPendingPrice (self : PoolInner) : Option ℕ :=
  (self.bySender.values.flatMap (fun queue => queue.pending.map (·.effectiveGasPrice))).min?

def minQueuedPrice (self : PoolInner) : Option ℕ :=
  (self.bySender.values.flatMap (fun queue => queue.queued.map (·.effectiveGasPrice))).min?

/-- Refuse a transaction for a full part, unless it pays more than the cheapest there. -/
def rejectWhenFull (max count : ℕ) (minPrice : Option ℕ) (tx : OrderedTransaction) :
    Except TxPoolError Unit :=
  if max = 0 then .error .poolFull
  else
    match minPrice with
    | some minPrice =>
      if count ≥ max ∧ tx.effectiveGasPrice ≤ minPrice then .error .poolFull else .ok ()
    | none => .ok ()

def rejectUnderpricedWhenFull (self : PoolInner) (tx : OrderedTransaction) :
    InsertionTarget → Except TxPoolError Unit
  | .pending => rejectWhenFull config.maxPendingTxs self.pendingCount self.minPendingPrice tx
  | .queued => rejectWhenFull config.maxQueuedTxs self.queuedCount self.minQueuedPrice tx
  | .replacement => .ok ()

/-- Check a transaction against its sender's queue. -/
def checkSender (self : PoolInner) (tx : OrderedTransaction) (target : InsertionTarget) :
    Except TxPoolError Unit :=
  match self.bySender[tx.sender]? with
  | none => .ok ()
  | some queue =>
    if tx.nonce < queue.nextNonce then .error (.nonceTooLow tx.nonce queue.nextNonce)
    else if target ≠ .replacement ∧ queue.totalCount ≥ config.maxTxsPerSender then
      .error (.senderFull tx.sender)
    else .ok ()

/-- File a transaction in the queue of its sender, which is created if there is none. -/
def file (self : PoolInner) (tx : OrderedTransaction) : PoolInner × Option OrderedTransaction :=
  let queue := (self.bySender[tx.sender]?).getD (SenderQueue.new tx.sender tx.nonce)
  let (queue, replaced) := queue.insert tx
  ({ self with bySender := self.bySender.insert tx.sender queue }, replaced)

/-- Enter a filed transaction in the hash map and in the id map, and bring the pool back to its
limits. -/
def enter (self : PoolInner) (tx : OrderedTransaction) : PoolInner × List OrderedTransaction :=
  evictExcess P config (updateCounts
    { self with
      byHash := self.byHash.insert tx.hash tx
      byId := self.byId.insert (orderedTxId P tx) tx.hash })

/-- The events and the answer of an addition, after which some transactions were evicted. -/
def added (replaced : List MempoolEvent) (tx : OrderedTransaction)
    (result : PoolInner × List OrderedTransaction) :
    PoolInner × List MempoolEvent × Except TxPoolError Unit :=
  let insertedEvicted := result.2.any (fun evicted => evicted.hash = tx.hash)
  (result.1,
    replaced ++ (if insertedEvicted then [] else [txAddedEvent A tx]) ++
      result.2.map (fun evicted => .txEvicted evicted.hash "evicted"),
    if insertedEvicted then .error .poolFull else .ok ())

@[simp] theorem added_fst (replaced : List MempoolEvent) (tx : OrderedTransaction)
    (result : PoolInner × List OrderedTransaction) : (added A replaced tx result).1 = result.1 :=
  rfl

def add (self : PoolInner) (tx : OrderedTransaction) :
    PoolInner × List MempoolEvent × Except TxPoolError Unit :=
  if self.byHash.contains tx.hash || self.byId.contains (orderedTxId P tx) then
    (self, [], .error .alreadyExists)
  else
    let target := insertionTarget self.bySender[tx.sender]? tx
    match self.checkSender config tx target with
    | .error error => (self, [], .error error)
    | .ok () =>
      match self.rejectUnderpricedWhenFull config tx target with
      | .error error => (self, [], .error error)
      | .ok () =>
        match self.file tx with
        | (inner, none) => added A [] tx (inner.enter P config tx)
        | (inner, some replaced) =>
          if replaced.hash = tx.hash then (inner, [], .error .replacementUnderpriced)
          else
            added A [.txEvicted replaced.hash "replaced"] tx
              ((removeByHash P inner replaced.hash).enter P config tx)

/-- Add a transaction as it arrives at time `now`, and tell whether it was accepted. -/
def insert (self : PoolInner) (tx : Tx) (now : ℕ) : PoolInner × List MempoolEvent × Bool :=
  match txToOrdered P A tx now with
  | none => (self, [], false)
  | some ordered =>
    let (inner, events, result) := self.add P A config ordered
    (inner, events, match result with | .ok () => true | .error _ => false)

/-! ### Taking out -/

def removeWithReason (self : PoolInner) (hash : B256) (reason : String) :
    PoolInner × List MempoolEvent × Option OrderedTransaction :=
  match self.byHash[hash]? with
  | none => (self, [], none)
  | some tx => ((removeByHash P self hash).updateCounts, [.txEvicted hash reason], some tx)

def remove (self : PoolInner) (hash : B256) :
    PoolInner × List MempoolEvent × Option OrderedTransaction :=
  self.removeWithReason P hash "removed"

/-- Remove a sender's transactions up to a confirmed nonce. -/
def removeConfirmed (self : PoolInner) (sender : Address) (confirmedNonce : ℕ) : PoolInner :=
  let hashesToRemove :=
    (self.bySender[sender]?).elim [] (fun queue => confirmedHashes queue confirmedNonce)
  let inner := hashesToRemove.foldl (removeByHash P) self
  match inner.bySender[sender]? with
  | none => inner.updateCounts
  | some queue =>
    updateCounts (dropEmpty
      { inner with
        bySender := inner.bySender.insert sender (queue.removeConfirmed confirmedNonce) }
      sender)

/-- The hashes of the transactions in a queue that are past their time to live. -/
def expiredHashes (now : ℕ) (queue : SenderQueue) : List B256 :=
  (queue.pending.filter (fun tx => now - tx.timestamp > config.pendingTtlSecs)).map (·.hash) ++
    (queue.queued.filter (fun tx => now - tx.timestamp > config.queuedTtlSecs)).map (·.hash)

/-- Remove expired transactions, and count them. -/
def cleanup (self : PoolInner) (now : ℕ) : PoolInner × ℕ :=
  let (inner, removed) := (self.bySender.values.flatMap (expiredHashes config now)).foldl
    (fun (inner, removed) hash =>
      (removeByHash P inner hash, if (inner.byHash[hash]?).isSome then removed + 1 else removed))
    (self, 0)
  (inner.updateCounts, removed)

def clear (_self : PoolInner) : PoolInner := ⟨∅, ∅, ∅, 0, 0⟩

inductive Op where
  | add (tx : OrderedTransaction)
  | insert (tx : Tx) (now : ℕ)
  | remove (hash : B256)
  | removeConfirmed (sender : Address) (confirmedNonce : ℕ)
  | prune (txIds : List B256)
  | cleanup (now : ℕ)
  | clear

def step (self : PoolInner) : Op → PoolInner
  | .add tx => (self.add P A config tx).1
  | .insert tx now => (self.insert P A config tx now).1
  | .remove hash => (self.remove P hash).1
  | .removeConfirmed sender confirmedNonce => self.removeConfirmed P sender confirmedNonce
  | .prune txIds => self.prune P txIds
  | .cleanup now => (self.cleanup P config now).1
  | .clear => self.clear

/-! ### The eviction loops -/

variable {P}

@[simp] theorem byHash_updateCounts (self : PoolInner) : self.updateCounts.byHash = self.byHash :=
  rfl

theorem byHash_removeByHash (self : PoolInner) (hash : B256) :
    (removeByHash P self hash).byHash = self.byHash.erase hash := by
  refine ExtTreeMap.ext_getElem? fun hash' => ?_
  rw [getElem?_byHash_removeByHash, ExtTreeMap.getElem?_erase]
  simp only [LawfulEqCmp.compare_eq_iff_eq]

theorem size_evictLowest {part : SenderQueue → List OrderedTransaction} {self : PoolInner}
    {inner : PoolInner} {evicted : OrderedTransaction}
    (h : evictLowest P part self = (inner, some evicted)) :
    inner.byHash.size + 1 = self.byHash.size := by
  rw [evictLowest] at h
  split at h
  · cases (Prod.mk.inj h).2
  · next tx _ =>
    obtain ⟨rfl, he⟩ := Prod.mk.inj h
    have hmem : tx.hash ∈ self.byHash := by
      rw [ExtTreeMap.mem_iff_isSome_getElem?, he]
      rfl
    have hpos : self.byHash.size ≠ 0 := by
      intro hzero
      rw [ExtTreeMap.eq_empty_iff_size_eq_zero.2 hzero] at hmem
      simp at hmem
    rw [byHash_updateCounts, byHash_removeByHash, ExtTreeMap.size_erase,
      if_pos (ExtTreeMap.contains_iff_mem.2 hmem)]
    omega

/-- **The eviction loop ends by itself**: it satisfies the equation of the unbounded loop. -/
theorem evictLoop_eq (exceeds : PoolInner → Bool) (part : SenderQueue → List OrderedTransaction)
    (self : PoolInner) :
    evictLoop exceeds (evictLowest P part) self =
      if exceeds self then
        match evictLowest P part self with
        | (inner, none) => (inner, [])
        | (inner, some evicted) =>
          let (inner, later) := evictLoop exceeds (evictLowest P part) inner
          (inner, evicted :: later)
      else (self, []) := by
  rw [evictLoop, evictWhile]
  split
  · split
    · rfl
    · next inner evicted he =>
      rw [evictLoop, size_evictLowest he]
  · rfl

end PoolInner

/-! ### Signed envelopes -/

namespace EnvelopeCodec

variable (C : EnvelopeCodec)

/-- Recover the sender of an envelope, and hash its encoding as an item of a list. -/
def recoverSenderAndHash (P : Platform) (envelope : TxEnvelope) :
    Except TxPoolError (Address × B256) :=
  let hash := P.keccak256 (C.rlpEncode envelope)
  match C.recoverFromPrehash (C.signatureHash envelope) envelope.signature with
  | none => .error .invalidSignature
  | some sender => .ok (sender, hash)

def recoverSenderFromEnvelope (envelope : TxEnvelope) : Option Address :=
  C.recoverFromPrehash (C.signatureHash envelope) envelope.signature

variable {envelope : TxEnvelope}

theorem recoverSenderAndHash_eq_ok {P : Platform} {sender : Address} {hash : B256} :
    C.recoverSenderAndHash P envelope = .ok (sender, hash) ↔
      C.recoverSenderFromEnvelope envelope = some sender ∧
        hash = P.keccak256 (C.rlpEncode envelope) := by
  rw [recoverSenderAndHash, recoverSenderFromEnvelope]
  cases C.recoverFromPrehash (C.signatureHash envelope) envelope.signature with
  | none => simp
  | some recovered => simp [eq_comm]

/-- The envelope that some bytes are the encoding of. -/
def envelope? (bytes : Bytes) : Option TxEnvelope :=
  match C.decode2718 bytes with
  | .ok (envelope, _) => some envelope
  | .error _ => none

variable {C} in
theorem envelope?_encode2718 {bytes rest : Bytes} (h : C.decode2718 bytes = .ok (envelope, rest)) :
    C.envelope? (C.encode2718 envelope) = some envelope := by
  have ha := C.decode_encode_append bytes envelope rest h []
  rw [List.append_nil] at ha
  rw [envelope?, ha]

/-- Read a field of the envelope that some bytes are the encoding of. -/
def read {α : Type} (field : TxEnvelope → α) (default : α) (bytes : Bytes) : α :=
  (C.envelope? bytes).elim default field

/-- The envelopes as the pool sees them, by their encodings. -/
def alloy : Alloy where
  decode2718 bytes := (C.envelope? bytes).map C.encode2718
  recoverSender bytes := (C.envelope? bytes).bind C.recoverSenderFromEnvelope
  txType := C.read TxEnvelope.txType .legacy
  nonce := C.read (fun envelope => envelope.nonce.toNat) 0
  -- the one of these two fields that the kind of the transaction has
  gasPrice := C.read (fun envelope => envelope.effectiveGasPrice.toNat) 0
  maxFeePerGas := C.read (fun envelope => envelope.effectiveGasPrice.toNat) 0
  recipient := C.read TxEnvelope.recipient none
  value := C.read TxEnvelope.value 0

variable {C}

/-- **What becomes of bytes**: the fields of the envelope they begin with, and the hash of all of
them. -/
theorem txToOrdered_alloy {P : Platform} {tx : Tx} {rest : Bytes}
    (h : C.decode2718 tx.bytes = .ok (envelope, rest)) (now : ℕ) :
    txToOrdered P C.alloy tx now = (C.recoverSenderFromEnvelope envelope).map fun sender =>
      { hash := P.keccak256 tx.bytes
        sender
        nonce := envelope.nonce.toNat
        effectiveGasPrice := envelope.effectiveGasPrice.toNat
        timestamp := now
        envelope := C.encode2718 envelope } := by
  have ha := envelope?_encode2718 h
  have hp : C.alloy.effectiveGasPrice (C.encode2718 envelope) =
      envelope.effectiveGasPrice.toNat := by
    -- the price of each kind is read from the same place
    rw [Alloy.effectiveGasPrice]
    cases C.alloy.txType (C.encode2718 envelope) <;>
      simp [alloy, read, ha]
  have hf : C.alloy.decode2718 tx.bytes = some (C.encode2718 envelope) := by
    simp [alloy, envelope?, h]
  have hs : C.alloy.recoverSender (C.encode2718 envelope) =
      C.recoverSenderFromEnvelope envelope := by
    simp [alloy, ha]
  have hn : C.alloy.nonce (C.encode2718 envelope) = envelope.nonce.toNat := by
    simp [alloy, read, ha]
  rw [txToOrdered, hf]
  dsimp only [Option.bind_eq_bind, Option.bind_some]
  rw [hs, hp, hn]
  cases C.recoverSenderFromEnvelope envelope <;> rfl

end EnvelopeCodec

end Kora
