/-
Messages of the key generation ceremony (`node/dkg/src/protocol.rs`).

Of the library for verifiable secret sharing only the interface is used (`Feldman`). It is
set up with the chain and the participants, so that nothing it signs names a ceremony. A
message is written with or without the identifier of its ceremony in front, and read back
whatever follows it (`ProtocolMessage.fromBytes_toBytes`).
-/
import Kora.BlockFormat
import Mathlib.Data.List.Sort

open Std

namespace Kora

open Wire

/-- A public key, as its 32 bytes. -/
abbrev PublicKey := BitVec 256

/-- The setup: the namespace of the chain, and the participants, each a dealer and a player. -/
structure DkgInfo where
  chainId : ℕ
  participants : List PublicKey

/-- A codec of the library. Polynomials are read up to a largest degree. -/
structure LibraryCodec (α : Type) where
  write : α → Bytes
  read : ℕ → Reader CodecError α
  /-- The value is within the largest degree. -/
  Fits : ℕ → α → Prop
  read_write : ∀ {maxDegree : ℕ} {a : α}, Fits maxDegree a → ∀ rest,
    read maxDegree (write a ++ rest) = .ok (a, rest)

/-- The library for verifiable secret sharing, and the hash function. -/
structure Feldman where
  /-- The commitment of a dealer. -/
  PubMsg : Type
  /-- The share of a dealer for one player. -/
  PrivMsg : Type
  /-- The acknowledgement of a share, signed by the player. -/
  Ack : Type
  Log : Type
  SignedLog : Type
  /-- The secrets and the commitment of a dealer. -/
  Secret : Type
  Player : Type
  Seed : Type
  /-- What a finished ceremony publishes: the group key with its polynomial. -/
  Public : Type
  Share : Type
  pubMsg : LibraryCodec PubMsg
  privMsg : LibraryCodec PrivMsg
  ack : LibraryCodec Ack
  signedLog : LibraryCodec SignedLog
  sha256 : Bytes → B256
  /-- The bytes are a point of the curve. -/
  validKey : PublicKey → Bool
  /-- Start a dealer: its secrets, its commitment and the share of each player. -/
  start : DkgInfo → PublicKey → Seed → Secret × PubMsg × List (PublicKey × PrivMsg)
  /-- Whether a dealer takes an acknowledgement. -/
  verifyAck : Secret → PublicKey → Ack → Bool
  /-- The signed log of a dealer with the acknowledgements it has. -/
  finalizeDealer : Secret → List (PublicKey × Ack) → SignedLog
  newPlayer : DkgInfo → PublicKey → Player
  dealerMessage : Player → PublicKey → PubMsg → PrivMsg → Player × Option Ack
  /-- The dealer and the log, if the log is signed by the dealer it names. -/
  check : DkgInfo → SignedLog → Option (PublicKey × Log)
  /-- The public output of a ceremony with the given logs. -/
  observe : DkgInfo → List (PublicKey × Log) → Option Public
  /-- The share of a player in a ceremony with the given logs. -/
  share : Player → DkgInfo → List (PublicKey × Log) → Option Share

/-! ### Sessions -/

/-- A number of `n` bytes, least significant byte first. -/
def leBytes (n x : ℕ) : Bytes := (BigEndian.digits n x).reverse

structure CeremonySession where
  ceremonyId : B256
  chainId : ℕ
  round : ℕ
deriving DecidableEq

/-- The text `kora-dkg-ceremony-v1`. -/
def CEREMONY_NAMESPACE : Bytes :=
  [0x6b, 0x6f, 0x72, 0x61, 0x2d, 0x64, 0x6b, 0x67, 0x2d, 0x63, 0x65, 0x72, 0x65, 0x6d, 0x6f, 0x6e,
    0x79, 0x2d, 0x76, 0x31]

def CeremonySession.new (sha256 : Bytes → B256) (chainId : ℕ) (participants : List PublicKey)
    (timestampNanos : ℕ) : CeremonySession where
  ceremonyId := sha256 (CEREMONY_NAMESPACE ++ leBytes 8 chainId ++ leBytes 8 participants.length ++
    (participants.insertionSort (· ≤ ·)).flatMap (BigEndian.toBytes 32) ++ leBytes 8 timestampNanos)
  chainId
  round := 0

/-! ### Messages -/

/-- What a message says, without the ceremony. -/
inductive ProtocolMessageKind (F : Feldman) where
  /-- The public commitment of a dealer to all players. -/
  | dealerPublic (dealer : PublicKey) (msg : F.PubMsg)
  /-- The private share of a dealer for one player. -/
  | dealerPrivate (dealer : PublicKey) (msg : F.PrivMsg)
  /-- The acknowledgement of a player to a dealer. -/
  | playerAck (player dealer : PublicKey) (ack : F.Ack)
  | dealerLog (log : F.SignedLog)
  /-- The request for all logs, to the leader. -/
  | requestLogs
  /-- All collected logs, from the leader. -/
  | allLogs (logs : List (PublicKey × F.SignedLog))
  /-- The player has sent all its acknowledgements. -/
  | ready (player : PublicKey)

/-- A message, bound to a ceremony or in the legacy format. -/
structure ProtocolMessage (F : Feldman) where
  sessionId : Option B256
  kind : ProtocolMessageKind F

namespace ProtocolMessage

variable {F : Feldman}

def new (sessionId : B256) (kind : ProtocolMessageKind F) : ProtocolMessage F :=
  ⟨some sessionId, kind⟩

def legacy (kind : ProtocolMessageKind F) : ProtocolMessage F := ⟨none, kind⟩

def keyBytes (key : PublicKey) : Bytes := BigEndian.toBytes 32 key

/-- The message without the ceremony in front. -/
def kindBytes : ProtocolMessageKind F → Bytes
  | .dealerPublic dealer msg => 0 :: (keyBytes dealer ++ F.pubMsg.write msg)
  | .dealerPrivate dealer msg => 1 :: (keyBytes dealer ++ F.privMsg.write msg)
  | .playerAck player dealer ack => 2 :: (keyBytes player ++ (keyBytes dealer ++ F.ack.write ack))
  | .dealerLog log => 3 :: F.signedLog.write log
  | .requestLogs => [4]
  | .allLogs logs => 5 :: (BigEndian.digits 4 logs.length ++
      logs.flatMap fun entry => keyBytes entry.1 ++ F.signedLog.write entry.2)
  | .ready player => 6 :: keyBytes player

/-- The bytes in front of a message that is bound to a ceremony. -/
def header (sessionId : B256) : Bytes := 0xFF :: 2 :: BigEndian.toBytes 32 sessionId

def toBytes (self : ProtocolMessage F) : Bytes :=
  self.sessionId.elim [] header ++ kindBytes self.kind

/-! ### Reading -/

def readByte : Reader CodecError UInt8
  | [] => .error .endOfBuffer
  | b :: rest => .ok (b, rest)

/-- Read a public key, which has to be a point of the curve. -/
def readKey (F : Feldman) : Reader CodecError PublicKey := do
  let key ← word .endOfBuffer 32
  if F.validKey key = true then pure key else throw (.invalid "ed25519::PublicKey")

/-- The ceremony and the tag in front of a message. -/
def readHeader : Reader CodecError (Option B256 × UInt8) := do
  let first ← readByte
  if first = 0xFF then do
    let version ← readByte
    if version = 2 then do
      let sessionId ← word .endOfBuffer 32
      let tag ← readByte
      return (some sessionId, tag)
    else throw (.invalidEnum version)
  else return (none, first)

def readKind (F : Feldman) (maxDegree : ℕ) (tag : UInt8) :
    Reader CodecError (ProtocolMessageKind F) :=
  if tag = 0 then do
    let dealer ← readKey F
    let msg ← F.pubMsg.read maxDegree
    return .dealerPublic dealer msg
  else if tag = 1 then do
    let dealer ← readKey F
    let msg ← F.privMsg.read maxDegree
    return .dealerPrivate dealer msg
  else if tag = 2 then do
    let player ← readKey F
    let dealer ← readKey F
    let ack ← F.ack.read maxDegree
    return .playerAck player dealer ack
  else if tag = 3 then do
    let log ← F.signedLog.read maxDegree
    return .dealerLog log
  else if tag = 4 then return .requestLogs
  else if tag = 5 then do
    let count ← number .endOfBuffer 4
    let logs ← many (do
      let key ← readKey F
      let log ← F.signedLog.read maxDegree
      return (key, log)) count
    return .allLogs logs
  else if tag = 6 then do
    let player ← readKey F
    return .ready player
  else throw (.invalidEnum tag)

def readMessage (F : Feldman) (maxDegree : ℕ) : Reader CodecError (ProtocolMessage F) := do
  let (sessionId, tag) ← readHeader
  if maxDegree = 0 then throw (.invalidLength 0)
  else do
    let kind ← readKind F maxDegree tag
    return ⟨sessionId, kind⟩

/-- Read a message of either format. What follows the message is not looked at. -/
def fromBytes (F : Feldman) (bytes : Bytes) (maxDegree : ℕ) :
    Except CodecError (ProtocolMessage F) :=
  match readMessage F maxDegree bytes with
  | .error e => .error e
  | .ok (msg, _) => .ok msg

/-! ### Messages are read back -/

/-- Keys are on the curve, polynomials within the degree, and the logs can be counted. -/
def KindFits (maxDegree : ℕ) : ProtocolMessageKind F → Prop
  | .dealerPublic dealer msg => F.validKey dealer ∧ F.pubMsg.Fits maxDegree msg
  | .dealerPrivate dealer msg => F.validKey dealer ∧ F.privMsg.Fits maxDegree msg
  | .playerAck player dealer ack =>
    F.validKey player ∧ F.validKey dealer ∧ F.ack.Fits maxDegree ack
  | .dealerLog log => F.signedLog.Fits maxDegree log
  | .requestLogs => True
  | .allLogs logs => logs.length < 256 ^ 4 ∧
      ∀ entry ∈ logs, F.validKey entry.1 ∧ F.signedLog.Fits maxDegree entry.2
  | .ready player => F.validKey player

theorem reads_readKey (F : Feldman) :
    Reads {key ∈ Set.univ | F.validKey key = true} keyBytes (readKey F) :=
  (reads_word CodecError.endOfBuffer 32).filter (p := fun key => F.validKey key = true)
    fun _ => .invalid "ed25519::PublicKey"

theorem readKey_keyBytes {key : PublicKey} (h : F.validKey key = true) (rest : Bytes) :
    readKey F (keyBytes key ++ rest) = .ok (key, rest) :=
  (reads_readKey F).read_write ⟨trivial, h⟩ rest

theorem readKind_kindBytes {maxDegree : ℕ} {kind : ProtocolMessageKind F}
    (h : KindFits maxDegree kind) : ∃ tag body, kindBytes kind = tag :: body ∧ tag ≠ 0xFF ∧
      ∀ rest, readKind F maxDegree tag (body ++ rest) = .ok (kind, rest) := by
  cases kind with
  | dealerPublic dealer msg =>
    refine ⟨0, _, rfl, by decide, fun rest => ?_⟩
    rw [List.append_assoc]
    simp only [readKind, if_true, bind_eq_ok, pure_eq_ok]
    exact ⟨dealer, _, readKey_keyBytes h.1 _, msg, rest, F.pubMsg.read_write h.2 rest, rfl, rfl⟩
  | dealerPrivate dealer msg =>
    refine ⟨1, _, rfl, by decide, fun rest => ?_⟩
    rw [List.append_assoc]
    show (do
      let dealer ← readKey F
      let msg ← F.privMsg.read maxDegree
      return .dealerPrivate dealer msg : Reader CodecError (ProtocolMessageKind F)) _ = _
    simp only [bind_eq_ok, pure_eq_ok]
    exact ⟨dealer, _, readKey_keyBytes h.1 _, msg, rest, F.privMsg.read_write h.2 rest, rfl, rfl⟩
  | playerAck player dealer ack =>
    refine ⟨2, _, rfl, by decide, fun rest => ?_⟩
    rw [List.append_assoc, List.append_assoc]
    show (do
      let player ← readKey F
      let dealer ← readKey F
      let ack ← F.ack.read maxDegree
      return .playerAck player dealer ack : Reader CodecError (ProtocolMessageKind F)) _ = _
    simp only [bind_eq_ok, pure_eq_ok]
    exact ⟨player, _, readKey_keyBytes h.1 _, dealer, _, readKey_keyBytes h.2.1 _, ack, rest,
      F.ack.read_write h.2.2 rest, rfl, rfl⟩
  | dealerLog log =>
    refine ⟨3, _, rfl, by decide, fun rest => ?_⟩
    show (do
      let log ← F.signedLog.read maxDegree
      return .dealerLog log : Reader CodecError (ProtocolMessageKind F)) _ = _
    simp only [bind_eq_ok, pure_eq_ok]
    exact ⟨log, rest, F.signedLog.read_write h rest, rfl, rfl⟩
  | requestLogs => exact ⟨4, _, rfl, by decide, fun rest => rfl⟩
  | allLogs logs =>
    refine ⟨5, _, rfl, by decide, fun rest => ?_⟩
    rw [List.append_assoc]
    show (do
      let count ← number .endOfBuffer 4
      let logs ← many (do
        let key ← readKey F
        let log ← F.signedLog.read maxDegree
        return (key, log)) count
      return .allLogs logs : Reader CodecError (ProtocolMessageKind F)) _ = _
    simp only [bind_eq_ok, pure_eq_ok]
    refine ⟨logs.length, _, (reads_number _ 4).read_write h.1 _, logs, rest,
      many_flatMap (fun entry he rest => ?_) h.2 rest, rfl, rfl⟩
    rw [List.append_assoc]
    simp only [bind_eq_ok, pure_eq_ok]
    exact ⟨entry.1, _, readKey_keyBytes he.1 _, entry.2, rest,
      F.signedLog.read_write he.2 rest, rfl, rfl⟩
  | ready player =>
    refine ⟨6, _, rfl, by decide, fun rest => ?_⟩
    show (do
      let player ← readKey F
      return .ready player : Reader CodecError (ProtocolMessageKind F)) _ = _
    simp only [bind_eq_ok, pure_eq_ok]
    exact ⟨player, rest, readKey_keyBytes h rest, rfl, rfl⟩

theorem readHeader_eq (sessionId : Option B256) {tag : UInt8} (htag : tag ≠ 0xFF) (rest : Bytes) :
    readHeader (sessionId.elim [] header ++ tag :: rest) = .ok ((sessionId, tag), rest) := by
  cases sessionId with
  | none =>
    show (readByte >>= fun first => _) (tag :: rest) = _
    rw [bind_eq_ok]
    refine ⟨tag, rest, rfl, ?_⟩
    rw [if_neg htag]
    rfl
  | some sessionId =>
    show (readByte >>= fun first => _)
      (0xFF :: 2 :: (BigEndian.toBytes 32 sessionId ++ tag :: rest)) = _
    simp only [bind_eq_ok]
    refine ⟨0xFF, _, rfl, ?_⟩
    rw [if_pos rfl]
    simp only [bind_eq_ok]
    refine ⟨2, _, rfl, ?_⟩
    rw [if_pos rfl]
    simp only [bind_eq_ok, pure_eq_ok]
    exact ⟨sessionId, _, (reads_word _ 32).read_write trivial _, tag, rest, rfl, rfl, rfl⟩

theorem fromBytes_toBytes {maxDegree : ℕ} (hd : 0 < maxDegree) {msg : ProtocolMessage F}
    (h : KindFits maxDegree msg.kind) (rest : Bytes) :
    fromBytes F (msg.toBytes ++ rest) maxDegree = .ok msg := by
  obtain ⟨tag, body, hb, htag, hk⟩ := readKind_kindBytes h
  have hr : readMessage F maxDegree (msg.toBytes ++ rest) = .ok (msg, rest) := by
    rw [toBytes, hb, List.append_assoc, List.cons_append, readMessage, bind_eq_ok]
    refine ⟨(msg.sessionId, tag), body ++ rest, readHeader_eq msg.sessionId htag _, ?_⟩
    dsimp only
    rw [if_neg hd.ne', bind_eq_ok]
    exact ⟨msg.kind, rest, hk rest, rfl⟩
  rw [fromBytes, hr]

end ProtocolMessage

/-! ### A small library -/

namespace Feldman

def byteCodec : LibraryCodec UInt8 where
  write b := [b]
  read _ := ProtocolMessage.readByte
  Fits _ _ := True
  read_write := by
    intro maxDegree b h rest
    rfl

def keyedCodec : LibraryCodec (PublicKey × UInt8) where
  write log := ProtocolMessage.keyBytes log.1 ++ [log.2]
  read _ := do
    let key ← word .endOfBuffer 32
    let value ← ProtocolMessage.readByte
    return (key, value)
  Fits _ _ := True
  read_write := by
    intro maxDegree log h rest
    rw [List.append_assoc]
    simp only [bind_eq_ok, pure_eq_ok]
    exact ⟨log.1, _, (reads_word _ 32).read_write trivial _, log.2, rest, rfl, rfl, rfl⟩

def lastByte (key : PublicKey) : UInt8 := .ofNat key.toNat

/-- A library without secrets, in which everything is a byte: a share and its acknowledgement are
the player's number, and a log is its dealer's key and the number of acknowledgements. -/
def small : Feldman where
  PubMsg := UInt8
  PrivMsg := UInt8
  Ack := UInt8
  Log := UInt8
  SignedLog := PublicKey × UInt8
  Secret := PublicKey
  Player := PublicKey
  Seed := Unit
  Public := List UInt8
  Share := UInt8
  pubMsg := byteCodec
  privMsg := byteCodec
  ack := byteCodec
  signedLog := keyedCodec
  sha256 bytes := .ofNat 256 (bytes.foldl (fun hash b => 257 * hash + b.toNat + 1) 0)
  validKey _ := true
  start info key _ :=
    (key, lastByte key, info.participants.map fun player => (player, lastByte player))
  verifyAck _ player ack := ack = lastByte player
  finalizeDealer secret acks := (secret, .ofNat acks.length)
  newPlayer _ key := key
  dealerMessage player _ _ privMsg :=
    (player, if privMsg = lastByte player then some (lastByte player) else none)
  check _ signed := some signed
  observe _ logs := some (logs.map (·.2))
  share player _ _ := some (lastByte player)

end Feldman

end Kora
