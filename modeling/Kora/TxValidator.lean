/-
The validation of transactions (`node/txpool/src/validator.rs`).

A transaction is checked against the chain and the account of its sender: size, chain,
signature, price, gas limit, nonce and cost, computed with machine words.

* `TransactionValidator.validate_eq_ok_iff` — all that is known of one that passes;
* `validated_initial_gas_iff` — when the gas limit covers what REVM charges at first;
* `validated_affordable_iff` — when the balance covers the cost.
-/
import Kora.TransactionPool

open Std List

namespace Kora

open TxEnvelope

/-! ### Checks in a row -/

section Checks

variable {ε α β : Type}

/-- Go on only if a condition holds. -/
def ensure (condition : Prop) [Decidable condition] (error : ε) : Except ε Unit :=
  if condition then .ok () else .error error

theorem ensure_eq_ok {condition : Prop} [Decidable condition] {error : ε} {u : Unit} :
    ensure condition error = .ok u ↔ condition := by
  rw [ensure]
  split_ifs with h
  · exact iff_of_true rfl h
  · exact iff_of_false (fun heq => by cases heq) h

theorem except_bind_eq_ok {x : Except ε α} {f : α → Except ε β} {b : β} :
    (x >>= f) = .ok b ↔ ∃ a, x = .ok a ∧ f a = .ok b := by
  cases x with
  | error e => exact iff_of_false (fun heq => by cases heq) (by simp)
  | ok a => simp [bind, Except.bind]

theorem mapError_eq_ok {δ : Type} {f : ε → δ} {x : Except ε α} {a : α} :
    x.mapError f = .ok a ↔ x = .ok a := by
  cases x with
  | error e => exact iff_of_false (fun heq => by cases heq) (fun heq => by cases heq)
  | ok a => simp [Except.mapError]

end Checks

/-! ### Gas and cost -/

namespace TxEnvelope

def TX_BASE_GAS : U64 := 21000

def TX_DATA_ZERO_GAS : U64 := 4

def TX_DATA_NON_ZERO_GAS : U64 := 16

def TX_CREATE_GAS : U64 := 32000

def TX_ACCESS_LIST_ADDRESS_GAS : U64 := 2400

def TX_ACCESS_LIST_STORAGE_KEY_GAS : U64 := 1900

def accessListGasCost (accessList : AccessList) : U64 :=
  accessList.foldl
    (fun gas item => gas + TX_ACCESS_LIST_ADDRESS_GAS +
      BitVec.ofNat 64 item.storageKeys.length * TX_ACCESS_LIST_STORAGE_KEY_GAS) 0

/-- The gas that a transaction needs before anything is executed, as the validator computes it. -/
def intrinsicGas (self : TxEnvelope) : U64 :=
  let gas := self.input.foldl
    (fun gas byte => if byte = 0 then gas + TX_DATA_ZERO_GAS else gas + TX_DATA_NON_ZERO_GAS)
    TX_BASE_GAS
  let gas := if self.recipient.isNone then gas + TX_CREATE_GAS else gas
  let accessListGas :=
    match self with
    | legacy .. => 0
    | eip2930 tx _ => accessListGasCost tx.accessList
    | eip1559 tx _ => accessListGasCost tx.accessList
    | eip4844 tx _ => accessListGasCost tx.accessList
    | eip7702 tx _ => accessListGasCost tx.accessList
  gas + accessListGas

/-- The most that a transaction can cost, as the validator computes it. -/
def maxTxCost (self : TxEnvelope) : U256 :=
  let gasLimit := self.gasLimit.setWidth 256
  let maxFee := self.effectiveGasPrice.setWidth 256
  gasLimit * maxFee + self.value

end TxEnvelope

/-! ### The validator -/

structure ValidatedTransaction where
  hash : B256
  sender : Address
  nonce : U64
  gasLimit : U64
  effectiveGasPrice : U128
  maxCost : U256
  envelope : TxEnvelope
  raw : Tx
deriving DecidableEq

/-- Whether a sender has a transaction with a nonce in the pool. -/
def PoolInner.hasNonce (self : PoolInner) (sender : Address) (nonce : ℕ) : Bool :=
  match self.bySender[sender]? with
  | none => false
  | some queue => queue.txs.any (fun tx => tx.nonce = nonce)

def StateDbError.message (C : EnvelopeCodec) : StateDbError → String
  | .accountNotFound address => "account not found: " ++ C.displayAddress address
  | .codeNotFound hash => "code not found: " ++ C.displayHash hash
  | .storage message => "storage error: " ++ message
  | .lockPoisoned => "lock poisoned"
  | .rootComputation message => "root computation failed: " ++ message

/-- Validates transactions against chain state and protocol rules. -/
structure TransactionValidator (S : Type) where
  chainId : U64
  state : S
  config : PoolConfig
  /-- The pool in which a nonce may be taken already. -/
  pool : Option PoolInner

namespace TransactionValidator

variable {S : Type} [StateDbRead S] (P : Platform) (C : EnvelopeCodec)

/-- Validate a raw transaction. Bytes behind the envelope are not looked at. -/
def validate (self : TransactionValidator S) (tx : Tx) :
    Except TxPoolError ValidatedTransaction := do
  ensure (tx.bytes.length ≤ self.config.maxTxSize)
    (.txTooLarge tx.bytes.length self.config.maxTxSize)
  let (envelope, _) ← (C.decode2718 tx.bytes).mapError .decodeError
  let txChainId := envelope.chainId.getD self.chainId
  ensure (txChainId = self.chainId) (.invalidChainId txChainId.toNat self.chainId.toNat)
  let (sender, hash) ← C.recoverSenderAndHash P envelope
  let effectiveGasPrice := envelope.effectiveGasPrice
  ensure (self.config.minGasPrice ≤ effectiveGasPrice.toNat)
    (.gasPriceTooLow effectiveGasPrice.toNat self.config.minGasPrice)
  let intrinsicGas := envelope.intrinsicGas
  let gasLimit := envelope.gasLimit
  ensure (intrinsicGas ≤ gasLimit) (.intrinsicGasTooLow gasLimit.toNat intrinsicGas.toNat)
  let nonce := envelope.nonce
  let stateNonce ← (StateDbRead.nonce self.state sender).mapError fun e =>
    .stateError (e.message C)
  ensure (stateNonce ≤ nonce) (.nonceTooLow nonce.toNat stateNonce.toNat)
  let maxAcceptedNonce := min (stateNonce.toNat + self.config.maxTxsPerSender) U64_MAX
  ensure (nonce.toNat ≤ maxAcceptedNonce) (.nonceGap nonce.toNat stateNonce.toNat)
  -- a nonce that the pool has is refused, also when the transaction would replace the other one
  ensure (self.pool.all (fun pool => !pool.hasNonce sender nonce.toNat))
    (.nonceAlreadyInPool sender nonce.toNat)
  let maxCost := envelope.maxTxCost
  let balance ← (StateDbRead.balance self.state sender).mapError fun e =>
    .stateError (e.message C)
  ensure (maxCost ≤ balance) (.insufficientBalance maxCost balance)
  return { hash, sender, nonce, gasLimit, effectiveGasPrice, maxCost, envelope, raw := tx }

end TransactionValidator

/-- The transaction as the pool orders it, under the hash that the validator computed. -/
def ValidatedTransaction.intoOrdered (C : EnvelopeCodec) (self : ValidatedTransaction)
    (timestamp : ℕ) : OrderedTransaction where
  hash := self.hash
  sender := self.sender
  nonce := self.nonce.toNat
  effectiveGasPrice := self.effectiveGasPrice.toNat
  timestamp := timestamp
  envelope := C.encode2718 self.envelope

namespace TransactionValidator

variable {S : Type} [StateDbRead S] {P : Platform} {C : EnvelopeCodec}
  {self : TransactionValidator S} {tx : Tx} {validated : ValidatedTransaction}

/-- What is known of a transaction that passes the checks. -/
structure Accepts (P : Platform) (C : EnvelopeCodec) (validator : TransactionValidator S) (tx : Tx)
    (validated : ValidatedTransaction) : Prop where
  size : tx.bytes.length ≤ validator.config.maxTxSize
  decoded : ∃ rest, C.decode2718 tx.bytes = .ok (validated.envelope, rest)
  chain : validated.envelope.chainId.getD validator.chainId = validator.chainId
  signed : C.recoverSenderFromEnvelope validated.envelope = some validated.sender
  price : validator.config.minGasPrice ≤ validated.envelope.effectiveGasPrice.toNat
  gas : validated.envelope.intrinsicGas ≤ validated.envelope.gasLimit
  stateNonce : ∃ stateNonce : U64,
    StateDbRead.nonce validator.state validated.sender = .ok stateNonce ∧
    stateNonce ≤ validated.envelope.nonce ∧
    validated.envelope.nonce.toNat ≤
      min (stateNonce.toNat + validator.config.maxTxsPerSender) U64_MAX
  unpooled : ∀ pool, validator.pool = some pool →
    pool.hasNonce validated.sender validated.envelope.nonce.toNat = false
  paid : ∃ balance : U256, StateDbRead.balance validator.state validated.sender = .ok balance ∧
    validated.envelope.maxTxCost ≤ balance
  /-- The fields are those of the envelope. -/
  fields : validated =
    { hash := P.keccak256 (C.rlpEncode validated.envelope)
      sender := validated.sender
      nonce := validated.envelope.nonce
      gasLimit := validated.envelope.gasLimit
      effectiveGasPrice := validated.envelope.effectiveGasPrice
      maxCost := validated.envelope.maxTxCost
      envelope := validated.envelope
      raw := tx }

theorem validate_eq_ok_iff :
    self.validate P C tx = .ok validated ↔ Accepts P C self tx validated := by
  simp only [validate, except_bind_eq_ok, ensure_eq_ok, mapError_eq_ok, exists_const]
  constructor
  · rintro ⟨hsz, ⟨envelope, rest⟩, hd, hch, ⟨sender, hash⟩, hs, hpr, hgas,
      stateNonce, hr, hlow, hgap, hp, balance, hb, hc, hf⟩
    obtain rfl := Except.ok.inj hf
    obtain ⟨hsn, rfl⟩ := C.recoverSenderAndHash_eq_ok.1 hs
    refine ⟨hsz, ⟨rest, hd⟩, hch, hsn, hpr, hgas,
      ⟨stateNonce, hr, hlow, hgap⟩, ?_, ⟨balance, hb, hc⟩, rfl⟩
    intro pool heq
    rw [heq] at hp
    exact Bool.not_eq_true' _ ▸ hp
  · intro h
    obtain ⟨rest, hd⟩ := h.decoded
    obtain ⟨stateNonce, hr, hlow, hgap⟩ := h.stateNonce
    obtain ⟨balance, hb, hc⟩ := h.paid
    refine ⟨h.size, (validated.envelope, rest), hd, h.chain,
      (validated.sender, P.keccak256 (C.rlpEncode validated.envelope)),
      C.recoverSenderAndHash_eq_ok.2 ⟨h.signed, rfl⟩, h.price, h.gas, stateNonce, hr, hlow, hgap,
      ?_, balance, hb, hc, congrArg Except.ok h.fields.symm⟩
    cases hp : self.pool with
    | none => rfl
    | some pool => simp [h.unpooled pool hp]

end TransactionValidator

/-! ### The gas in whole numbers -/

theorem toNat_foldl_cost {α : Type} {step : U64 → α → U64} {cost : α → ℕ}
    (hs : ∀ gas a, (step gas a).toNat = (gas.toNat + cost a) % 2 ^ 64) (l : List α) (gas : U64) :
    (l.foldl step gas).toNat = (gas.toNat + (l.map cost).sum) % 2 ^ 64 := by
  induction l generalizing gas with
  | nil => exact (Nat.mod_eq_of_lt gas.isLt).symm
  | cons a l ih =>
    rw [foldl_cons, ih, hs, Nat.mod_add_mod, map_cons, sum_cons, Nat.add_assoc]

namespace TxEnvelope

def accessList : TxEnvelope → AccessList
  | legacy .. => []
  | eip2930 tx _ => tx.accessList
  | eip1559 tx _ => tx.accessList
  | eip4844 tx _ => tx.accessList
  | eip7702 tx _ => tx.accessList

def byteCost (byte : UInt8) : ℕ := if byte = 0 then 4 else 16

def itemCost (item : AccessListItem) : ℕ := 2400 + item.storageKeys.length * 1900

/-- The gas of a transaction as the validator counts it, without a bound. -/
def countedGas (self : TxEnvelope) : ℕ :=
  21000 + (self.input.map byteCost).sum + (if self.recipient.isNone then 32000 else 0) +
    (self.accessList.map itemCost).sum

theorem toNat_accessListGasCost (accessList : AccessList) :
    (accessListGasCost accessList).toNat = (accessList.map itemCost).sum % 2 ^ 64 := by
  have hs (gas : U64) (item : AccessListItem) :
      (gas + TX_ACCESS_LIST_ADDRESS_GAS +
        BitVec.ofNat 64 item.storageKeys.length * TX_ACCESS_LIST_STORAGE_KEY_GAS).toNat =
      (gas.toNat + itemCost item) % 2 ^ 64 := by
    rw [itemCost]
    simp [TX_ACCESS_LIST_ADDRESS_GAS, TX_ACCESS_LIST_STORAGE_KEY_GAS, Nat.add_assoc]
  have hzero : (0 : U64).toNat = 0 := rfl
  rw [accessListGasCost, toNat_foldl_cost hs, hzero, Nat.zero_add]

theorem intrinsicGas_eq (self : TxEnvelope) :
    self.intrinsicGas =
      self.input.foldl (fun gas byte =>
        if byte = 0 then gas + TX_DATA_ZERO_GAS else gas + TX_DATA_NON_ZERO_GAS) TX_BASE_GAS +
      (if self.recipient.isNone then TX_CREATE_GAS else 0) + accessListGasCost self.accessList := by
  -- the source adds the cost of a creation inside the branch, and has an arm for each type
  have hc (gas : U64) :
      gas + (if self.recipient.isNone then TX_CREATE_GAS else 0) =
        if self.recipient.isNone then gas + TX_CREATE_GAS else gas := by
    split_ifs
    · rfl
    · exact BitVec.add_zero gas
  rw [hc]
  cases self <;> rfl

theorem toNat_intrinsicGas (self : TxEnvelope) :
    self.intrinsicGas.toNat = self.countedGas % 2 ^ 64 := by
  have hs (gas : U64) (byte : UInt8) :
      (if byte = 0 then gas + TX_DATA_ZERO_GAS else gas + TX_DATA_NON_ZERO_GAS).toNat =
        (gas.toNat + byteCost byte) % 2 ^ 64 := by
    rw [byteCost]
    split_ifs
    · simp [TX_DATA_ZERO_GAS]
    · simp [TX_DATA_NON_ZERO_GAS]
  have hb : TX_BASE_GAS.toNat = 21000 := rfl
  have hc : (if self.recipient.isNone then TX_CREATE_GAS else 0).toNat =
      if self.recipient.isNone then 32000 else 0 := by
    split_ifs <;> rfl
  rw [intrinsicGas_eq, BitVec.toNat_add, BitVec.toNat_add, toNat_accessListGasCost, countedGas,
    toNat_foldl_cost hs, hb, hc]
  omega

end TxEnvelope

/-! ### The gas that REVM charges at first -/

namespace Cancun

/-- Two units for each started word of init code. -/
def initCodeGas (data : Bytes) : ℕ := 2 * ((data.length + 31) / 32)

/-- The intrinsic gas of a transaction under the Cancun rules, from what REVM is handed. -/
def intrinsicGas (create : Bool) (data : Bytes) (accessList : AccessList) : ℕ :=
  21000 + 4 * data.count 0 + 16 * (data.length - data.count 0) +
    (if create then 32000 + initCodeGas data else 0) +
    2400 * accessList.length + 1900 * (accessList.map (·.storageKeys.length)).sum

/-- The intrinsic gas of an envelope that the executor decodes. -/
def initialGas (envelope : TxEnvelope) : ℕ :=
  intrinsicGas envelope.recipient.isNone envelope.input envelope.accessList

theorem sum_byteCost (data : Bytes) :
    (data.map byteCost).sum = 4 * data.count 0 + 16 * (data.length - data.count 0) := by
  induction data with
  | nil => rfl
  | cons byte data ih =>
    have hle : data.count 0 ≤ data.length := count_le_length
    rw [map_cons, sum_cons, ih, byteCost, length_cons, count_cons]
    by_cases hzero : byte = 0
    · rw [if_pos hzero, if_pos (beq_iff_eq.2 hzero)]
      omega
    · rw [if_neg hzero, if_neg (mt beq_iff_eq.1 hzero)]
      omega

theorem sum_itemCost (accessList : AccessList) :
    (accessList.map itemCost).sum =
      2400 * accessList.length + 1900 * (accessList.map (·.storageKeys.length)).sum := by
  induction accessList with
  | nil => rfl
  | cons item accessList ih =>
    rw [map_cons, sum_cons, ih, itemCost, length_cons, map_cons, sum_cons]
    omega

theorem initialGas_eq (envelope : TxEnvelope) :
    initialGas envelope =
      envelope.countedGas +
        if envelope.recipient.isNone then initCodeGas envelope.input else 0 := by
  rw [initialGas, intrinsicGas, countedGas, sum_byteCost, sum_itemCost]
  split_ifs
  · omega
  · omega

end Cancun

/-! ### Examples -/

namespace ValidatorExample

def platform : Platform where
  keccak256 bytes := BitVec.ofNat 256 (BigEndian.value (1 :: bytes))
  sha256 := id
  blockId block := BitVec.ofNat 256 block.height
  txId tx := BitVec.ofNat 256 (BigEndian.value (2 :: tx.bytes))
  consensus := default
  execute _ _ _ := .error ""

/-- A transaction that pays one gwei for a unit of gas. -/
def legacy (nonce gasLimit : U64) (recipient : Option Address) (value : U256) (input : Bytes) :
    TxEnvelope :=
  .legacy { nonce, gasLimit, value, input, chainId := none, gasPrice := 1000000000, recipient }
    ⟨false, 1, 1⟩

def transfer (nonce : U64) : TxEnvelope := legacy nonce 21000 (some 0xB) 0 []

/-- The gas limit is what the validator asks for. -/
def creation : TxEnvelope := legacy 0 53016 none 0 [1]

def funded : TxEnvelope := legacy 0 53018 none 0 [1]

/-- The value and the price of the gas add up to `2 ^ 256`. -/
def wrapping : TxEnvelope := legacy 0 21000 (some 0xB) (-21000000000000) []

def blob : TxEnvelope :=
  .eip4844
    { nonce := 0, gasLimit := 21000, value := 0, input := [], chainId := 1
      maxFeePerGas := 1000000000, maxPriorityFeePerGas := 0, recipient := 0xB, accessList := []
      blobVersionedHashes := [1], maxFeePerBlobGas := 1, sidecar := none } ⟨false, 1, 1⟩

def typed : TxEnvelope :=
  .eip1559
    { nonce := 0, gasLimit := 21000, value := 0, input := [], chainId := 1
      maxFeePerGas := 1000000000, maxPriorityFeePerGas := 0, recipient := some 0xB
      accessList := [] } ⟨false, 1, 1⟩

/-- The transactions of the examples, each with a byte that encodes it. -/
def table : List (UInt8 × TxEnvelope) :=
  [(0, transfer 0), (1, transfer 1), (2, creation), (3, wrapping), (4, blob), (5, typed),
    (6, funded), (7, transfer 2)]

def decode2718 : Bytes → Except String (TxEnvelope × Bytes)
  | [] => .error "input too short"
  | byte :: rest =>
    match table.find? (fun entry => entry.1 = byte) with
    | none => .error "unexpected type"
    | some entry => .ok (entry.2, rest)

def encode2718 (envelope : TxEnvelope) : Bytes :=
  match table.find? (fun entry => entry.2 = envelope) with
  | none => []
  | some entry => [entry.1]

theorem decode2718_eq_ok {bytes rest : Bytes} {envelope : TxEnvelope}
    (h : decode2718 bytes = .ok (envelope, rest)) :
    bytes = encode2718 envelope ++ rest ∧
      ∀ rest', decode2718 (encode2718 envelope ++ rest') = .ok (envelope, rest') := by
  have ht : ∀ entry ∈ table, encode2718 entry.2 = [entry.1] := by decide +kernel
  cases bytes with
  | nil => cases h
  | cons byte bytes =>
    rw [decode2718] at h
    split at h
    · cases h
    · next entry he =>
      obtain ⟨rfl, rfl⟩ := Prod.mk.inj (Except.ok.inj h)
      have hb : entry.1 = byte := by simpa using find?_some he
      rw [ht entry (mem_of_find?_eq_some he), hb]
      refine ⟨rfl, fun rest' => ?_⟩
      rw [singleton_append, decode2718, he]

/-- All signatures are those of one account. -/
def codec : EnvelopeCodec where
  decode2718 := decode2718
  encode2718 := encode2718
  eq_encode_append _ _ _ h := (decode2718_eq_ok h).1
  decode_encode_append _ _ _ h := (decode2718_eq_ok h).2
  signatureHash envelope := envelope.nonce.setWidth 256
  recoverFromPrehash _ _ := some 0xA
  recoverSigner _ := .ok 0xA
  displayAddress _ := ""
  displayHash _ := ""

/-- A state in which every account is new and has the same balance. -/
structure Purse where
  balance : U256

instance : StateDbRead Purse where
  nonce _ _ := .ok 0
  balance purse _ := .ok purse.balance
  codeHash _ _ := .ok 0
  code _ _ := .ok []
  storage _ _ _ := .ok 0

def validator (balance : U256) : TransactionValidator Purse := ⟨1, ⟨balance⟩, .new, none⟩

/-- What the validator returns for a transaction of the table. -/
def validated (byte : UInt8) (envelope : TxEnvelope) : ValidatedTransaction where
  hash := platform.keccak256 (codec.rlpEncode envelope)
  sender := 0xA
  nonce := envelope.nonce
  gasLimit := envelope.gasLimit
  effectiveGasPrice := envelope.effectiveGasPrice
  maxCost := envelope.maxTxCost
  envelope := envelope
  raw := ⟨[byte]⟩

theorem validate_transfer : (validator 21000000000000).validate platform codec ⟨[0]⟩ =
    .ok (validated 0 (transfer 0)) := rfl

theorem validate_creation : (validator 53016000000000).validate platform codec ⟨[2]⟩ =
    .ok (validated 2 creation) := rfl

theorem validate_funded : (validator 53018000000000).validate platform codec ⟨[6]⟩ =
    .ok (validated 6 funded) := rfl

theorem validate_wrapping : (validator 0).validate platform codec ⟨[3]⟩ =
    .ok (validated 3 wrapping) := rfl

theorem validate_blob : (validator 21000000000000).validate platform codec ⟨[4]⟩ =
    .ok (validated 4 blob) := rfl

end ValidatorExample

/-! ### The executor's first check -/

/-- **Initial gas.** A validated transaction passes REVM's first check exactly if its gas fits a
word and, if it creates a contract, its gas limit covers the init code too. -/
theorem validated_initial_gas_iff {S : Type} [StateDbRead S] (P : Platform) (C : EnvelopeCodec)
    (validator : TransactionValidator S) (tx : Tx) (validated : ValidatedTransaction)
    (h : validator.validate P C tx = .ok validated) :
    Cancun.initialGas validated.envelope ≤ validated.gasLimit.toNat ↔
      validated.envelope.countedGas < 2 ^ 64 ∧ (validated.envelope.recipient = none →
        validated.envelope.countedGas + Cancun.initCodeGas validated.envelope.input ≤
          validated.gasLimit.toNat) := by
  have ha := TransactionValidator.validate_eq_ok_iff.1 h
  have hlt := validated.gasLimit.isLt
  have hgas (hfits : validated.envelope.countedGas < 2 ^ 64) :
      validated.envelope.countedGas ≤ validated.gasLimit.toNat := by
    have hle : validated.envelope.intrinsicGas.toNat ≤ validated.envelope.gasLimit.toNat :=
      ha.gas
    rw [toNat_intrinsicGas, Nat.mod_eq_of_lt hfits] at hle
    rw [ha.fields]
    exact hle
  rw [Cancun.initialGas_eq]
  cases validated.envelope.recipient with
  | none =>
    simp only [Option.isNone_none, if_true, forall_const]
    omega
  | some recipient =>
    simp only [Option.isNone_some, Bool.false_eq_true, if_false, Nat.add_zero, reduceCtorEq,
      false_implies, and_true]
    exact ⟨fun hle => hle.trans_lt hlt, hgas⟩

section Example

open ValidatorExample

/-- A creation that is handed the gas of its init code as well. -/
theorem validated_initial_gas_iff_funded : Cancun.initialGas funded ≤ 53018 :=
  (validated_initial_gas_iff platform codec (validator 53018000000000) ⟨[6]⟩ _
    validate_funded).2 (by decide)

/-- A creation with the gas limit that the validator asks for is two units short. -/
theorem validated_creation_short : ¬ ∀ (P : Platform) (C : EnvelopeCodec)
    (validator : TransactionValidator Purse) (tx : Tx) (validated : ValidatedTransaction),
    validator.validate P C tx = .ok validated →
    Cancun.initialGas validated.envelope ≤ validated.gasLimit.toNat := by
  intro h
  exact absurd (h platform codec (validator 53016000000000) ⟨[2]⟩ _ validate_creation) (by decide)

end Example

/-! ### The cost -/

namespace TxEnvelope

/-- The price of the gas and the value, without a bound. -/
def callCost (self : TxEnvelope) : ℕ :=
  self.gasLimit.toNat * self.effectiveGasPrice.toNat + self.value.toNat

def GAS_PER_BLOB : ℕ := 131072

/-- The price of the blobs. -/
def blobCost : TxEnvelope → ℕ
  | eip4844 tx _ => tx.blobVersionedHashes.length * GAS_PER_BLOB * tx.maxFeePerBlobGas.toNat
  | legacy .. => 0
  | eip2930 .. => 0
  | eip1559 .. => 0
  | eip7702 .. => 0

/-- The most that a transaction can cost. -/
def exactCost (self : TxEnvelope) : ℕ := self.callCost + self.blobCost

theorem toNat_maxTxCost (self : TxEnvelope) : self.maxTxCost.toNat = self.callCost % 2 ^ 256 := by
  have hgas : (self.gasLimit.setWidth 256).toNat = self.gasLimit.toNat :=
    BitVec.toNat_setWidth_of_le (by decide)
  have hfee : (self.effectiveGasPrice.setWidth 256).toNat = self.effectiveGasPrice.toNat :=
    BitVec.toNat_setWidth_of_le (by decide)
  rw [maxTxCost, callCost, BitVec.toNat_add, BitVec.toNat_mul, hgas, hfee, Nat.mod_add_mod]

end TxEnvelope

/-- A state in which every account has a given balance. -/
structure Funded (S : Type) where
  state : S
  balance : U256

instance {S : Type} [StateDbRead S] : StateDbRead (Funded S) where
  nonce self := StateDbRead.nonce self.state
  balance self _ := .ok self.balance
  codeHash self := StateDbRead.codeHash self.state
  code self := StateDbRead.code self.state
  storage self := StateDbRead.storage self.state

/-- A validator before which the sender has a given balance. -/
def TransactionValidator.withBalance {S : Type} (self : TransactionValidator S) (balance : U256) :
    TransactionValidator (Funded S) :=
  ⟨self.chainId, ⟨self.state, balance⟩, self.config, self.pool⟩

/-- **Affordability.** With whatever balance a transaction is accepted, the balance covers its cost,
exactly if the price of its gas and its value fit a word together and no blobs are to be paid for.
-/
theorem validated_affordable_iff {S : Type} [StateDbRead S] (P : Platform) (C : EnvelopeCodec)
    (validator : TransactionValidator S) (tx : Tx) (validated : ValidatedTransaction)
    (enough : U256) (h : (validator.withBalance enough).validate P C tx = .ok validated) :
    (∀ balance, (validator.withBalance balance).validate P C tx = .ok validated →
        validated.envelope.exactCost ≤ balance.toNat) ↔
      validated.envelope.callCost < 2 ^ 256 ∧ validated.envelope.blobCost = 0 := by
  have hcost := toNat_maxTxCost validated.envelope
  constructor
  · -- the least balance that is accepted is the cost as the validator computes it
    intro hall
    have ha := TransactionValidator.validate_eq_ok_iff.1 h
    have hle := hall validated.envelope.maxTxCost (TransactionValidator.validate_eq_ok_iff.2
      { ha with paid := ⟨_, rfl, BitVec.le_refl _⟩ })
    have hmod : validated.envelope.callCost % 2 ^ 256 < 2 ^ 256 := Nat.mod_lt _ (by decide)
    have hmle := Nat.mod_le validated.envelope.callCost (2 ^ 256)
    rw [exactCost, hcost] at hle
    omega
  · rintro ⟨hfits, hblobs⟩ balance hb
    obtain ⟨balance', hr, hc⟩ := (TransactionValidator.validate_eq_ok_iff.1 hb).paid
    obtain rfl : balance = balance' := Except.ok.inj hr
    have hle : validated.envelope.maxTxCost.toNat ≤ balance.toNat := hc
    rw [hcost, Nat.mod_eq_of_lt hfits] at hle
    rw [exactCost, hblobs, Nat.add_zero]
    exact hle

section Example

open ValidatorExample

theorem validated_affordable_iff_transfer :
    ∃ validated, ((validator 0).withBalance 21000000000000).validate platform codec ⟨[0]⟩ =
      .ok validated ∧ validated.envelope.exactCost ≤ 21000000000000 :=
  ⟨validated 0 (transfer 0), rfl, (validated_affordable_iff platform codec (validator 0) ⟨[0]⟩ _
    21000000000000 rfl).2 (by decide) 21000000000000 rfl⟩

/-- Without a balance a value may wrap the cost around; who pays for gas may not pay for a blob. -/
theorem validated_unaffordable :
    (¬ ∀ (P : Platform) (C : EnvelopeCodec) (validator : TransactionValidator Purse) (tx : Tx)
      (validated : ValidatedTransaction) (balance : U256),
      validator.validate P C tx = .ok validated →
      StateDbRead.balance validator.state validated.sender = .ok balance →
      validated.envelope.blobCost = 0 → validated.envelope.exactCost ≤ balance.toNat) ∧
    ¬ ∀ (P : Platform) (C : EnvelopeCodec) (validator : TransactionValidator Purse) (tx : Tx)
      (validated : ValidatedTransaction) (balance : U256),
      validator.validate P C tx = .ok validated →
      StateDbRead.balance validator.state validated.sender = .ok balance →
      validated.envelope.callCost < 2 ^ 256 → validated.envelope.exactCost ≤ balance.toNat := by
  constructor
  · intro h
    exact absurd (h platform codec (validator 0) ⟨[3]⟩ _ 0 validate_wrapping rfl rfl) (by decide)
  · intro h
    exact absurd (h platform codec (validator 21000000000000) ⟨[4]⟩ _ 21000000000000 validate_blob
      rfl (by decide)) (by decide)

end Example

end Kora
