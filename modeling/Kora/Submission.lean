/-
The submission of transactions over RPC (`node/rpc/src/eth.rs`,
`node/runner/src/runner.rs`).

Four hashes of three byte strings are computed on the way of a transaction into a block:
of the bytes that were sent, by the RPC server and by the pool; of the envelope as an item
of a list, by the validator; and of the encoding of the envelope, once it is in a block.

* `EthApi.sendRawTransaction` — the whole call, with the cache of pending transactions;
* `one_identity_iff` — when the four hashes are equal.
-/
import Kora.LiveState
import Kora.PoolEvents
import Kora.PoolQueues
import Kora.TxValidator

open Std

namespace Kora

open PoolInner

/-! ### Errors -/

def TxPoolError.message (C : EnvelopeCodec) : TxPoolError → String
  | .poolFull => "pool is full"
  | .senderFull sender => "sender " ++ C.displayAddress sender ++ " has too many transactions"
  | .txTooLarge size max => s!"transaction size {size} exceeds maximum {max}"
  | .gasPriceTooLow price min => s!"gas price {price} below minimum {min}"
  | .nonceTooLow got expected => s!"nonce too low: got {got}, expected at least {expected}"
  | .nonceGap got expected => s!"nonce gap: got {got}, expected {expected}"
  | .insufficientBalance need has =>
    "insufficient balance: need " ++ toString need.toNat ++ ", have " ++ toString has.toNat
  | .invalidChainId got expected => s!"invalid chain id: got {got}, expected {expected}"
  | .invalidSignature => "invalid signature"
  | .decodeError message => "failed to decode transaction: " ++ message
  | .intrinsicGasTooLow limit intrinsic => s!"gas limit {limit} below intrinsic gas {intrinsic}"
  | .alreadyExists => "transaction already exists"
  | .nonceAlreadyInPool sender nonce =>
    s!"nonce {nonce} already in pool for sender " ++ C.displayAddress sender
  | .stateError message => "state error: " ++ message
  | .replacementUnderpriced => "replacement transaction underpriced"

/-! ### Pending transactions -/

/-- A transaction as it is shown to callers. One that is pending is in no block yet. -/
structure RpcTransaction where
  hash : B256
  nonce : U64
  blockHash : Option B256
  blockNumber : Option U64
  transactionIndex : Option U64
  sender : Address
  recipient : Option Address
  value : U256
  gas : U64
  gasPrice : U256
  input : Bytes
  txType : U64
  chainId : Option U64
  maxFeePerGas : Option U256
  maxPriorityFeePerGas : Option U256
  v : U256
  r : U256
  s : U256
deriving DecidableEq

namespace TxEnvelope

def transactionType : TxEnvelope → U64
  | legacy .. => 0
  | eip2930 .. => 1
  | eip1559 .. => 2
  | eip4844 .. => 3
  | eip7702 .. => 4

end TxEnvelope

/-- The record of a transaction that was sent. -/
def rawTxToPendingRpc (P : Platform) (C : EnvelopeCodec) (data : Bytes) :
    Except RpcError RpcTransaction := do
  let (envelope, _) ← (C.decode2718 data).mapError fun err =>
    .invalidTransaction ("failed to decode: " ++ err)
  let sender ← (C.recoverSigner envelope).mapError fun err =>
    .invalidTransaction ("failed to recover signer: " ++ err)
  return {
    hash := P.keccak256 data
    nonce := envelope.nonce
    blockHash := none
    blockNumber := none
    transactionIndex := none
    sender
    recipient := envelope.recipient
    value := envelope.value
    gas := envelope.gasLimit
    gasPrice := envelope.effectiveGasPrice.setWidth 256
    input := envelope.input
    txType := envelope.transactionType
    chainId := envelope.chainId
    maxFeePerGas := envelope.maxFeePerGas.map (·.setWidth 256)
    maxPriorityFeePerGas := envelope.maxPriorityFeePerGas.map (·.setWidth 256)
    v := envelope.signatureV
    r := envelope.signature.r
    s := envelope.signature.s }

/-- The known pending transactions and the order they were sent in, which may name some already
gone. -/
structure EthApi where
  pendingTxs : ExtTreeMap B256 RpcTransaction
  pendingTxOrder : List B256
  /-- How many hashes have left the front of the order. The source's `AtomicUsize` would wrap around
  after 2^64 of them; the model's number does not. -/
  pendingTxEvicted : ℕ
  maxPendingTxs : ℕ

namespace EthApi

def MAX_PENDING_TXS : ℕ := 10000

def new : EthApi := ⟨∅, [], 0, MAX_PENDING_TXS⟩

/-- Take hashes off the front until enough left it and enough entries left the map; both are counted
last. -/
def drainPending (mapExcess target : ℕ) :
    List B256 → ExtTreeMap B256 RpcTransaction → ℕ → ℕ →
      List B256 × ExtTreeMap B256 RpcTransaction × ℕ
  | [], txs, _, drained => ([], txs, drained)
  | oldHash :: order, txs, evicted, drained =>
    if evicted < mapExcess ∨ drained < target then
      if txs.contains oldHash then
        drainPending mapExcess target order (txs.erase oldHash) (evicted + 1) (drained + 1)
      else drainPending mapExcess target order txs evicted (drained + 1)
    else (oldHash :: order, txs, drained)

/-- Note a transaction that was sent, and forget the oldest ones beyond the cap. -/
def cachePending (self : EthApi) (txHash : B256) (pendingTx : RpcTransaction) : EthApi :=
  let txs := self.pendingTxs.insert txHash pendingTx
  let order := self.pendingTxOrder ++ [txHash]
  let cap := self.maxPendingTxs
  if txs.size > cap ∨ order.length > cap then
    let mapExcess := txs.size - cap
    let dequeExcess := order.length - cap
    let (order, txs, drained) :=
      drainPending mapExcess (max mapExcess dequeExcess) order txs 0 0
    { self with
      pendingTxs := txs
      pendingTxOrder := order
      pendingTxEvicted := self.pendingTxEvicted + drained }
  else { self with pendingTxs := txs, pendingTxOrder := order }

end EthApi

/-! ### Sending -/

section Sending

variable {S : Type} [StateDbRead S] (P : Platform) (C : EnvelopeCodec)

/-- The validator of the node's callback, with the default limits whatever those of the pool are. -/
def submitValidator (chainId : U64) (state : S) (pool : PoolInner) : TransactionValidator S :=
  ⟨chainId, state, PoolConfig.new, some pool⟩

/-- The node's callback: validate the bytes, and insert them into the pool. -/
def txSubmit (chainId : U64) (state : S) (config : PoolConfig) (now : ℕ) (pool : PoolInner)
    (data : Bytes) : PoolInner × Except RpcError Unit :=
  match (submitValidator chainId state pool).validate P C ⟨data⟩ with
  | .error err => (pool, .error (.invalidTransaction (err.message C)))
  | .ok _ =>
    -- the pool decodes the bytes again, and its reason for a rejection is lost
    let (inner, _, inserted) := pool.insert P C.alloy config ⟨data⟩ now
    (inner,
      if inserted then .ok () else .error (.invalidTransaction "transaction rejected by mempool"))

/-- What a call leaves behind. -/
structure Submitted where
  api : EthApi
  pool : PoolInner
  /-- What is announced to subscribers. -/
  announced : Option RpcTransaction
  result : Except RpcError B256

/-- Accept a raw transaction. Without a callback it is noted, but goes nowhere. -/
def EthApi.sendRawTransaction (self : EthApi)
    (txSubmit : Option (PoolInner → Bytes → PoolInner × Except RpcError Unit)) (pool : PoolInner)
    (data : Bytes) : Submitted :=
  let txHash := P.keccak256 data
  match rawTxToPendingRpc P C data with
  | .error err => ⟨self, pool, none, .error err⟩
  | .ok pendingTx =>
    match txSubmit with
    | none => ⟨self.cachePending txHash pendingTx, pool, none, .ok txHash⟩
    | some submit =>
      match submit pool data with
      | (inner, .error err) => ⟨self, inner, none, .error err⟩
      | (inner, .ok ()) =>
        ⟨self.cachePending txHash pendingTx, inner, some pendingTx, .ok txHash⟩

end Sending

variable {pool : PoolInner} {P : Platform}

theorem PoolInner.insert_eq_true {A : Alloy} {config : PoolConfig} {tx : Tx} {now : ℕ}
    (h : (pool.insert P A config tx now).2.2 = true) :
    ∃ ordered, txToOrdered P A tx now = some ordered ∧
      (pool.add P A config ordered).2.2 = .ok () ∧
      (pool.insert P A config tx now).1 = (pool.add P A config ordered).1 := by
  revert h
  rw [insert]
  split
  · rintro ⟨⟩
  · next ordered ho =>
    rcases hadd : pool.add P A config ordered with ⟨inner, events, result⟩
    cases result with
    | error err => rintro ⟨⟩
    | ok u => exact fun _ => ⟨ordered, ho, by rw [hadd], by rw [hadd]⟩

section Accepted

variable {S : Type} [StateDbRead S] {P : Platform} {C : EnvelopeCodec} {chainId : U64} {state : S}
  {config : PoolConfig} {now : ℕ} {pool : PoolInner} {data : Bytes}

theorem txSubmit_eq_ok (h : (txSubmit P C chainId state config now pool data).2 = .ok ()) :
    (∃ validated, (submitValidator chainId state pool).validate P C ⟨data⟩ = .ok validated) ∧
      (pool.insert P C.alloy config ⟨data⟩ now).2.2 = true ∧
      (txSubmit P C chainId state config now pool data).1 =
        (pool.insert P C.alloy config ⟨data⟩ now).1 := by
  revert h
  rw [txSubmit]
  split
  · rintro ⟨⟩
  · next validated hv =>
    dsimp only
    split_ifs with hi
    · exact fun _ => ⟨⟨validated, hv⟩, hi, rfl⟩
    · rintro ⟨⟩

theorem sendRawTransaction_eq_ok {api : EthApi} {hash : B256}
    (h : (api.sendRawTransaction P C (some (txSubmit P C chainId state config now)) pool
      data).result = .ok hash) :
    hash = P.keccak256 data ∧
      (∃ validated, (submitValidator chainId state pool).validate P C ⟨data⟩ = .ok validated) ∧
      (pool.insert P C.alloy config ⟨data⟩ now).2.2 = true ∧
      (api.sendRawTransaction P C (some (txSubmit P C chainId state config now)) pool data).pool =
        (pool.insert P C.alloy config ⟨data⟩ now).1 := by
  revert h
  rw [EthApi.sendRawTransaction]
  dsimp only
  split
  · rintro ⟨⟩
  · split
    · rintro ⟨⟩
    · next inner hs =>
      intro h
      obtain ⟨hv, hi, hp⟩ := txSubmit_eq_ok (congrArg Prod.snd hs)
      rw [hs] at hp
      exact ⟨(Except.ok.inj h).symm, hv, hi, hp⟩

end Accepted

/-! ### The hashes of a transaction -/

/-- Both encodings are the bytes sent iff these are a legacy transaction with nothing behind it. -/
theorem encodings_eq_iff {C : EnvelopeCodec} {data rest : Bytes} {envelope : TxEnvelope}
    (h : C.decode2718 data = .ok (envelope, rest)) :
    C.encode2718 envelope = data ∧ C.rlpEncode envelope = data ↔
      envelope.txType = .legacy ∧ rest = [] := by
  have hd := C.eq_encode_append data envelope rest h
  have he : C.encode2718 envelope = data ↔ rest = [] := by
    rw [hd]
    exact List.self_eq_append_right
  rw [he]
  constructor
  · rintro ⟨rfl, hrlp⟩
    rw [List.append_nil] at hd
    exact ⟨(C.rlpEncode_eq_iff envelope).1 (hrlp.trans hd), rfl⟩
  · rintro ⟨hl, rfl⟩
    rw [List.append_nil] at hd
    exact ⟨rfl, ((C.rlpEncode_eq_iff envelope).2 hl).trans hd.symm⟩

theorem PoolInner.Linked.pooled_of_build (h : pool.Linked P none) {maxTxs : ℕ}
    {excluded : List B256} {tx : Tx} (htx : tx ∈ pool.build P maxTxs excluded) :
    ∃ ordered, pool.byHash[ordered.hash]? = some ordered ∧ tx = orderedToTx ordered := by
  obtain ⟨sender, queue, hq, ordered, ho, rfl, -⟩ := mem_build htx
  rcases h.known hq ordered (List.mem_append_left _ ho) with hnone | hk
  · cases hnone
  · exact ⟨ordered, hk, rfl⟩

theorem PoolInner.Linked.stored {C : EnvelopeCodec} {config : PoolConfig} (h : pool.Linked P none)
    {data rest : Bytes} {envelope : TxEnvelope} {now : ℕ}
    (hd : C.decode2718 data = .ok (envelope, rest))
    (hi : (pool.insert P C.alloy config ⟨data⟩ now).2.2 = true) :
    ∃ ordered, (pool.insert P C.alloy config ⟨data⟩ now).1.byHash[P.keccak256 data]? =
      some ordered ∧ orderedToTx ordered = ⟨C.encode2718 envelope⟩ := by
  obtain ⟨ordered, ho, hok, hpl⟩ := insert_eq_true hi
  have hk : pool.Keyed := fun hash tx hget => (h.keyed hget).1
  have hp := hk.pooled_of_ok hok
  rw [EnvelopeCodec.txToOrdered_alloy hd] at ho
  obtain ⟨sender, -, rfl⟩ := Option.map_eq_some_iff.1 ho
  rw [hpl]
  exact ⟨_, hp, rfl⟩

/-- **One identity.** The hash that is returned is the one under which the pool stores the
transaction. The validator's hash and that of the stored transaction's bytes in a block are the same
exactly if the bytes are a legacy transaction with nothing behind it. What is built later consists
of stored transactions, and is indexed under the hashes of their bytes. -/
theorem one_identity_iff {S : Type} [StateDbRead S] (P : Platform) (C : EnvelopeCodec)
    (chainId : U64) (state : S) (config : PoolConfig) (api : EthApi) (ops : List PoolInner.Op)
    (pool : PoolInner) (hpool : pool = ops.foldl (PoolInner.step P C.alloy config) PoolInner.new)
    (data : Bytes) (now : ℕ) (sent : Submitted)
    (hsent : sent = api.sendRawTransaction P C (some (txSubmit P C chainId state config now)) pool
      data) (hash : B256) (hok : sent.result = .ok hash) (envelope : TxEnvelope) (rest : Bytes)
    (hdecoded : C.decode2718 data = .ok (envelope, rest))
    (hinj : Set.InjOn P.keccak256 {data, C.encode2718 envelope, C.rlpEncode envelope}) :
    ∃ validated ordered,
      (submitValidator chainId state pool).validate P C ⟨data⟩ = .ok validated ∧
      hash = P.keccak256 data ∧ sent.pool.byHash[hash]? = some ordered ∧
      (P.keccak256 (orderedToTx ordered).bytes = hash ∧ validated.hash = hash ↔
        envelope.txType = .legacy ∧ rest = []) ∧
      ∀ (later : List PoolInner.Op) (maxTxs : ℕ) (excluded : List B256),
        ∀ tx ∈ (later.foldl (PoolInner.step P C.alloy config) sent.pool).build P maxTxs excluded,
          (∃ placed, (later.foldl (PoolInner.step P C.alloy config)
              sent.pool).byHash[placed.hash]? = some placed ∧ tx = orderedToTx placed) ∧
            ∀ (block : Block) (context : BlockContext) (outcome : ExecutionOutcome),
              tx ∈ block.txs → P.keccak256 tx.bytes ∈
                (IndexedBlock.ofBlock P block context outcome).transactionHashes := by
  subst hsent
  obtain ⟨rfl, ⟨validated, hv⟩, hi, haf⟩ := sendRawTransaction_eq_ok hok
  have hl : pool.Linked P none := hpool ▸ linked_run P C.alloy config ops
  obtain ⟨ordered, hs, hb⟩ := hl.stored hdecoded hi
  rw [haf]
  refine ⟨validated, ordered, hv, rfl, hs, ?_, fun later maxTxs excluded tx htx => ⟨?_, ?_⟩⟩
  · -- the validator decodes the same envelope
    have ha := TransactionValidator.validate_eq_ok_iff.1 hv
    obtain ⟨rest', hdecoded'⟩ := ha.decoded
    obtain ⟨he, -⟩ := Prod.mk.inj (Except.ok.inj (hdecoded'.symm.trans hdecoded))
    rw [← encodings_eq_iff hdecoded, hb, ha.fields, he, hinj.eq_iff (by simp) (by simp),
      hinj.eq_iff (by simp) (by simp)]
  · -- the later pool is one that is reached, too
    have hlt : (later.foldl (step P C.alloy config)
        (pool.insert P C.alloy config ⟨data⟩ now).1).Linked P none := by
      have hrun := linked_run P C.alloy config (ops ++ .insert ⟨data⟩ now :: later)
      rw [List.foldl_append, ← hpool] at hrun
      exact hrun
    exact hlt.pooled_of_build htx
  · exact fun block context outcome hbl => List.mem_map.2 ⟨tx, hbl, rfl⟩

section Example

open ValidatorExample

/-- The node of the examples sends bytes to an empty pool. -/
def ValidatorExample.send (data : Bytes) : Submitted :=
  EthApi.new.sendRawTransaction platform codec
    (some (txSubmit platform codec 1 (⟨21000000000000⟩ : Purse) .new 0)) PoolInner.new data

theorem one_identity_iff_transfer :
    ∃ validated ordered,
      (submitValidator 1 (⟨21000000000000⟩ : Purse) PoolInner.new).validate platform codec ⟨[0]⟩ =
        .ok validated ∧ validated.hash = 256 ∧ (send [0]).pool.byHash[(256 : B256)]? =
          some ordered := by
  have hinj : Set.InjOn platform.keccak256
      {[0], codec.encode2718 (transfer 0), codec.rlpEncode (transfer 0)} := by
    rintro x (rfl | rfl | rfl) y (rfl | rfl | rfl) - <;> rfl
  obtain ⟨validated, ordered, hv, -, hs, hsm, -⟩ := one_identity_iff platform codec 1
    (⟨21000000000000⟩ : Purse) .new EthApi.new [] _ rfl [0] 0 (send [0]) rfl 256 rfl (transfer 0) []
    rfl hinj
  exact ⟨validated, ordered, hv, (hsm.2 ⟨rfl, rfl⟩).2, hs⟩

/-- The validator hashes another string for a typed transaction; no block has bytes behind an
envelope. -/
theorem two_identities :
    (¬ ∀ (P : Platform) (C : EnvelopeCodec) (chainId : U64) (state : Purse) (config : PoolConfig)
      (api : EthApi) (data : Bytes) (now : ℕ) (hash : B256) (envelope : TxEnvelope)
      (validated : ValidatedTransaction),
      (api.sendRawTransaction P C (some (txSubmit P C chainId state config now)) PoolInner.new
        data).result = .ok hash →
      C.decode2718 data = .ok (envelope, []) →
      (submitValidator chainId state PoolInner.new).validate P C ⟨data⟩ = .ok validated →
      validated.hash = hash) ∧
    ¬ ∀ (P : Platform) (C : EnvelopeCodec) (chainId : U64) (state : Purse) (config : PoolConfig)
      (api : EthApi) (data : Bytes) (now : ℕ) (hash : B256) (envelope : TxEnvelope) (rest : Bytes)
      (tx : Tx),
      (api.sendRawTransaction P C (some (txSubmit P C chainId state config now)) PoolInner.new
        data).result = .ok hash →
      C.decode2718 data = .ok (envelope, rest) → envelope.txType = .legacy →
      (api.sendRawTransaction P C (some (txSubmit P C chainId state config now)) PoolInner.new
        data).pool.build P 1 [] = [tx] → P.keccak256 tx.bytes = hash := by
  constructor
  · intro h
    have hh := h platform codec 1 ⟨21000000000000⟩ .new EthApi.new [5] 0 _ typed
      (validated 5 typed) rfl rfl rfl
    exact absurd hh (by decide +kernel)
  · intro h
    have hh := h platform codec 1 ⟨21000000000000⟩ .new EthApi.new [0, 9] 0 _ (transfer 0) [9]
      ⟨[0]⟩ rfl rfl rfl rfl
    exact absurd hh (by decide +kernel)

end Example

end Kora
