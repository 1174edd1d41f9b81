/-
Transaction envelopes.

An envelope is one of five kinds of signed transactions, with different fee fields, and
with or without an access list. Of the encoding it is only said that decoding reads an
envelope from the front of some bytes and leaves the rest unread.

* `EnvelopeCodec.rlpEncode` — the encoding inside of a list (`rlpEncode_eq_iff`).
-/
import Kora.BigEndian
import Kora.ChangeSet
import Mathlib.Data.Nat.Log

open Std

namespace Kora

abbrev U128 := BitVec 128

/-! ### The kinds of transactions -/

inductive TxType where
  | legacy | eip2930 | eip1559 | eip4844 | eip7702
deriving DecidableEq

/-- A part of the state that a transaction announces to access. -/
structure AccessListItem where
  address : Address
  storageKeys : List B256
deriving DecidableEq

abbrev AccessList := List AccessListItem

structure Signature where
  yParity : Bool
  r : U256
  s : U256
deriving DecidableEq

/-- An account's consent to run code in its place. -/
structure SignedAuthorization where
  chainId : U256
  address : Address
  nonce : U64
  signature : Signature
deriving DecidableEq

/-- The fields of every transaction. -/
structure TxBase where
  nonce : U64
  gasLimit : U64
  value : U256
  input : Bytes
deriving DecidableEq

structure TxLegacy extends TxBase where
  chainId : Option U64
  gasPrice : U128
  /-- A transaction to nobody creates a contract. -/
  recipient : Option Address
deriving DecidableEq

structure TxEip2930 extends TxBase where
  chainId : U64
  gasPrice : U128
  recipient : Option Address
  accessList : AccessList
deriving DecidableEq

structure TxEip1559 extends TxBase where
  chainId : U64
  maxFeePerGas : U128
  maxPriorityFeePerGas : U128
  recipient : Option Address
  accessList : AccessList
deriving DecidableEq

structure TxEip4844 extends TxBase where
  chainId : U64
  maxFeePerGas : U128
  maxPriorityFeePerGas : U128
  recipient : Address
  accessList : AccessList
  blobVersionedHashes : List B256
  maxFeePerBlobGas : U128
  /-- The blobs, if they come with the transaction. -/
  sidecar : Option Bytes
deriving DecidableEq

structure TxEip7702 extends TxBase where
  chainId : U64
  maxFeePerGas : U128
  maxPriorityFeePerGas : U128
  recipient : Address
  accessList : AccessList
  authorizationList : List SignedAuthorization
deriving DecidableEq

inductive TxEnvelope where
  | legacy (tx : TxLegacy) (signature : Signature)
  | eip2930 (tx : TxEip2930) (signature : Signature)
  | eip1559 (tx : TxEip1559) (signature : Signature)
  | eip4844 (tx : TxEip4844) (signature : Signature)
  | eip7702 (tx : TxEip7702) (signature : Signature)
deriving DecidableEq

namespace TxEnvelope

def base : TxEnvelope → TxBase
  | legacy tx _ => tx.toTxBase
  | eip2930 tx _ => tx.toTxBase
  | eip1559 tx _ => tx.toTxBase
  | eip4844 tx _ => tx.toTxBase
  | eip7702 tx _ => tx.toTxBase

def nonce (self : TxEnvelope) : U64 := self.base.nonce

def gasLimit (self : TxEnvelope) : U64 := self.base.gasLimit

def value (self : TxEnvelope) : U256 := self.base.value

def input (self : TxEnvelope) : Bytes := self.base.input

def signature : TxEnvelope → Signature
  | legacy _ signature => signature
  | eip2930 _ signature => signature
  | eip1559 _ signature => signature
  | eip4844 _ signature => signature
  | eip7702 _ signature => signature

def txType : TxEnvelope → TxType
  | legacy .. => .legacy
  | eip2930 .. => .eip2930
  | eip1559 .. => .eip1559
  | eip4844 .. => .eip4844
  | eip7702 .. => .eip7702

/-- Only a legacy transaction may be for any chain. -/
def chainId : TxEnvelope → Option U64
  | legacy tx _ => tx.chainId
  | eip2930 tx _ => some tx.chainId
  | eip1559 tx _ => some tx.chainId
  | eip4844 tx _ => some tx.chainId
  | eip7702 tx _ => some tx.chainId

def recipient : TxEnvelope → Option Address
  | legacy tx _ => tx.recipient
  | eip2930 tx _ => tx.recipient
  | eip1559 tx _ => tx.recipient
  | eip4844 tx _ => some tx.recipient
  | eip7702 tx _ => some tx.recipient

/-- The price by which a transaction is ordered. -/
def effectiveGasPrice : TxEnvelope → U128
  | legacy tx _ => tx.gasPrice
  | eip2930 tx _ => tx.gasPrice
  | eip1559 tx _ => tx.maxFeePerGas
  | eip4844 tx _ => tx.maxFeePerGas
  | eip7702 tx _ => tx.maxFeePerGas

def maxFeePerGas : TxEnvelope → Option U128
  | legacy .. => none
  | eip2930 .. => none
  | eip1559 tx _ => some tx.maxFeePerGas
  | eip4844 tx _ => some tx.maxFeePerGas
  | eip7702 tx _ => some tx.maxFeePerGas

def maxPriorityFeePerGas : TxEnvelope → Option U128
  | legacy .. => none
  | eip2930 .. => none
  | eip1559 tx _ => some tx.maxPriorityFeePerGas
  | eip4844 tx _ => some tx.maxPriorityFeePerGas
  | eip7702 tx _ => some tx.maxPriorityFeePerGas

def signatureV : TxEnvelope → U256
  | legacy tx signature =>
    let parity := if signature.yParity then 1 else 0
    match tx.chainId with
    | some chainId => BitVec.ofNat 256 (35 + chainId.toNat * 2 + parity)
    | none => BitVec.ofNat 256 (27 + parity)
  | eip2930 _ signature => if signature.yParity then 1 else 0
  | eip1559 _ signature => if signature.yParity then 1 else 0
  | eip4844 _ signature => if signature.yParity then 1 else 0
  | eip7702 _ signature => if signature.yParity then 1 else 0

end TxEnvelope

/-! ### Encoding -/

/-- The encoding of envelopes, the recovery of signers from hashes and signatures, and texts. -/
structure EnvelopeCodec where
  /-- Decode an envelope from the front of some bytes; the rest of them, or an error's text. -/
  decode2718 : Bytes → Except String (TxEnvelope × Bytes)
  encode2718 : TxEnvelope → Bytes
  /-- What was read is the encoding of the envelope. -/
  eq_encode_append : ∀ bytes envelope rest, decode2718 bytes = .ok (envelope, rest) →
    bytes = encode2718 envelope ++ rest
  /-- It is read in the same way wherever it stands. -/
  decode_encode_append : ∀ bytes envelope rest, decode2718 bytes = .ok (envelope, rest) →
    ∀ rest', decode2718 (encode2718 envelope ++ rest') = .ok (envelope, rest')
  signatureHash : TxEnvelope → B256
  /-- The address of the key that is recovered from a signature of a hash. -/
  recoverFromPrehash : B256 → Signature → Option Address
  recoverSigner : TxEnvelope → Except String Address
  /-- An address and a hash as they are written in messages. -/
  displayAddress : Address → String
  displayHash : B256 → String

/-- The header of a string of `length` bytes. -/
def rlpStringHeader (length : ℕ) : Bytes :=
  if length < 56 then [UInt8.ofNat (0x80 + length)]
  else
    let lengthOfLength := Nat.log 256 length + 1
    UInt8.ofNat (0xb7 + lengthOfLength) :: BigEndian.digits lengthOfLength length

theorem rlpStringHeader_ne_nil (length : ℕ) : rlpStringHeader length ≠ [] := by
  rw [rlpStringHeader]
  split_ifs
  · exact List.cons_ne_nil _ _
  · exact List.cons_ne_nil _ _

namespace EnvelopeCodec

variable (C : EnvelopeCodec)

/-- The encoding as an item of a list. -/
def rlpEncode : TxEnvelope → Bytes
  | .legacy tx signature => C.encode2718 (.legacy tx signature)
  | envelope =>
    rlpStringHeader (C.encode2718 envelope).length ++ C.encode2718 envelope

theorem rlpEncode_eq_iff (envelope : TxEnvelope) :
    C.rlpEncode envelope = C.encode2718 envelope ↔ envelope.txType = .legacy := by
  have hh (envelope : TxEnvelope) :
      rlpStringHeader (C.encode2718 envelope).length ++ C.encode2718 envelope ≠
        C.encode2718 envelope := by
    intro heq
    exact rlpStringHeader_ne_nil _ (List.append_left_eq_self.1 heq)
  cases envelope with
  | legacy tx signature => exact iff_of_true rfl rfl
  | eip2930 tx signature | eip1559 tx signature | eip4844 tx signature | eip7702 tx signature =>
    exact iff_of_false (hh _) (by simp [TxEnvelope.txType])

end EnvelopeCodec

end Kora
