/-
The format of the ceremony's messages (`to_bytes`, `from_bytes` in
`node/dkg/src/protocol.rs`).

The library's codecs are taken to accept exactly what they write. But bytes that follow a
message are not looked at, and the number of logs that a message announces is believed
before any of them is read.

* `message_format_iff` — the bytes are the encoding exactly if nothing is left;
* `reservation_bounded_iff` — when space is reserved for more logs than there could be.
-/
import Kora.DkgFilter
import Kora.DkgNetwork
import Mathlib.Algebra.Order.BigOperators.Group.List
import Mathlib.Order.Bounds.Basic

open Std List

namespace Kora

open Wire DkgParticipant

/-- The codecs of the library accept exactly what they write. -/
structure Feldman.Canonical (F : Feldman) (maxDegree : ℕ) : Prop where
  pubMsg : Reads {msg | F.pubMsg.Fits maxDegree msg} F.pubMsg.write (F.pubMsg.read maxDegree)
  privMsg : Reads {msg | F.privMsg.Fits maxDegree msg} F.privMsg.write (F.privMsg.read maxDegree)
  ack : Reads {ack | F.ack.Fits maxDegree ack} F.ack.write (F.ack.read maxDegree)
  signedLog : Reads {log | F.signedLog.Fits maxDegree log} F.signedLog.write
    (F.signedLog.read maxDegree)

namespace ProtocolMessage

variable {F : Feldman} {maxDegree : ℕ} {s rest : Bytes}

/-! ### What is read was written -/

theorem reads_byte : Reads Set.univ (fun b => [b]) readByte := by
  intro s b rest
  cases s with
  | nil => simp [readByte]
  | cons b' s => simp [readByte]

theorem readByte_eq_ok {b : UInt8} : readByte s = .ok (b, rest) ↔ s = b :: rest := by
  rw [reads_byte s b rest]
  simp

def entryBytes (F : Feldman) (entry : PublicKey × F.SignedLog) : Bytes :=
  keyBytes entry.1 ++ F.signedLog.write entry.2

/-- The entries that can be read. -/
def Entries (F : Feldman) (maxDegree : ℕ) : Set (PublicKey × F.SignedLog) :=
  {entry | F.validKey entry.1 = true ∧ F.signedLog.Fits maxDegree entry.2}

theorem of_readKey {key : PublicKey} (h : readKey F s = .ok (key, rest)) :
    F.validKey key = true ∧ s = keyBytes key ++ rest := by
  obtain ⟨⟨-, hv⟩, hs⟩ := (reads_readKey F s key rest).1 h
  exact ⟨hv, hs⟩

theorem reads_entry (hF : F.Canonical maxDegree) :
    Reads (Entries F maxDegree) (entryBytes F) (do
      let key ← readKey F
      let log ← F.signedLog.read maxDegree
      return (key, log)) := by
  have hset : Entries F maxDegree = {entry | entry.1 ∈ {key ∈ Set.univ | F.validKey key = true} ∧
      entry.2 ∈ {log | F.signedLog.Fits maxDegree log}} := by
    simp [Entries]
  rw [hset]
  exact (reads_readKey F).pair hF.signedLog

theorem of_readKind (hF : F.Canonical maxDegree) {tag : UInt8} {kind : ProtocolMessageKind F}
    (h : readKind F maxDegree tag s = .ok (kind, rest)) :
    KindFits maxDegree kind ∧ tag :: s = kindBytes kind ++ rest := by
  rw [readKind] at h
  split_ifs at h with h0 h1 h2 h3 h4 h5 h6
  · simp only [bind_eq_ok, pure_eq_ok] at h
    obtain ⟨dealer, s₁, hkey, msg, s₂, hmsg, rfl, rfl⟩ := h
    obtain ⟨hv, rfl⟩ := of_readKey hkey
    obtain ⟨hfits, rfl⟩ := (hF.pubMsg s₁ msg s₂).1 hmsg
    exact ⟨⟨hv, hfits⟩, by rw [h0, kindBytes, cons_append, append_assoc]⟩
  · simp only [bind_eq_ok, pure_eq_ok] at h
    obtain ⟨dealer, s₁, hkey, msg, s₂, hmsg, rfl, rfl⟩ := h
    obtain ⟨hv, rfl⟩ := of_readKey hkey
    obtain ⟨hfits, rfl⟩ := (hF.privMsg s₁ msg s₂).1 hmsg
    exact ⟨⟨hv, hfits⟩, by rw [h1, kindBytes, cons_append, append_assoc]⟩
  · simp only [bind_eq_ok, pure_eq_ok] at h
    obtain ⟨player, s₁, hplayer, dealer, s₂, hdealer, ack, s₃, hack, rfl, rfl⟩ := h
    obtain ⟨hv, rfl⟩ := of_readKey hplayer
    obtain ⟨hv', rfl⟩ := of_readKey hdealer
    obtain ⟨hfits, rfl⟩ := (hF.ack s₂ ack s₃).1 hack
    exact ⟨⟨hv, hv', hfits⟩, by rw [h2, kindBytes, cons_append, append_assoc, append_assoc]⟩
  · simp only [bind_eq_ok, pure_eq_ok] at h
    obtain ⟨log, s₁, hlog, rfl, rfl⟩ := h
    obtain ⟨hfits, rfl⟩ := (hF.signedLog s log s₁).1 hlog
    exact ⟨hfits, by rw [h3, kindBytes, cons_append]⟩
  · obtain ⟨rfl, rfl⟩ := pure_eq_ok.1 h
    exact ⟨trivial, by rw [h4]; rfl⟩
  · simp only [bind_eq_ok, pure_eq_ok] at h
    obtain ⟨count, s₁, hcount, logs, s₂, hlogs, rfl, rfl⟩ := h
    obtain ⟨hlt, rfl⟩ := (reads_number _ 4 s count s₁).1 hcount
    obtain ⟨⟨rfl, hall⟩, rfl⟩ := ((reads_entry hF).many count s₁ logs s₂).1 hlogs
    exact ⟨⟨hlt, hall⟩, by rw [h5, kindBytes, cons_append, append_assoc]; rfl⟩
  · simp only [bind_eq_ok, pure_eq_ok] at h
    obtain ⟨player, s₁, hplayer, rfl, rfl⟩ := h
    obtain ⟨hv, rfl⟩ := of_readKey hplayer
    exact ⟨hv, by rw [h6, kindBytes, cons_append]⟩
  · exact absurd h throw_ne_ok

theorem of_readHeader {sessionId : Option B256} {tag : UInt8}
    (h : readHeader s = .ok ((sessionId, tag), rest)) :
    s = sessionId.elim [] header ++ tag :: rest := by
  simp only [readHeader, bind_eq_ok, readByte_eq_ok] at h
  obtain ⟨first, s₁, rfl, h⟩ := h
  split_ifs at h with hfirst
  · simp only [bind_eq_ok, readByte_eq_ok] at h
    obtain ⟨version, s₂, rfl, h⟩ := h
    split_ifs at h with hversion
    · simp only [bind_eq_ok, pure_eq_ok, readByte_eq_ok] at h
      obtain ⟨id, s₃, hid, tag', s₄, rfl, heq, rfl⟩ := h
      obtain ⟨rfl, rfl⟩ := Prod.mk.inj heq
      obtain ⟨-, rfl⟩ := (reads_word _ 32 s₂ id _).1 hid
      rw [hfirst, hversion]
      rfl
    · exact absurd h throw_ne_ok
  · obtain ⟨heq, rfl⟩ := pure_eq_ok.1 h
    obtain ⟨rfl, rfl⟩ := Prod.mk.inj heq
    rfl

theorem of_readMessage (hF : F.Canonical maxDegree) {msg : ProtocolMessage F}
    (h : readMessage F maxDegree s = .ok (msg, rest)) :
    KindFits maxDegree msg.kind ∧ s = msg.toBytes ++ rest := by
  simp only [readMessage, bind_eq_ok] at h
  obtain ⟨⟨sessionId, tag⟩, s₁, hheader, h⟩ := h
  split_ifs at h with hd
  · exact absurd h throw_ne_ok
  · simp only [bind_eq_ok, pure_eq_ok] at h
    obtain ⟨kind, s₂, hkind, rfl, rfl⟩ := h
    obtain ⟨hfits, hs⟩ := of_readKind hF hkind
    refine ⟨hfits, ?_⟩
    rw [of_readHeader hheader, hs, toBytes, append_assoc]

theorem fromBytes_eq_ok {bytes : Bytes} {msg : ProtocolMessage F} :
    fromBytes F bytes maxDegree = .ok msg ↔
      ∃ rest, readMessage F maxDegree bytes = .ok (msg, rest) := by
  rw [fromBytes]
  split
  · next hr => simp [hr]
  · next msg' rest hr => simp [hr]

end ProtocolMessage

open ProtocolMessage

variable {F : Feldman}

theorem DkgParticipant.mem_seenMessages_foldl_of_mem {s : DkgParticipant F} {hash : B256}
    (h : hash ∈ s.seenMessages) (ops : List (Op F)) : hash ∈ (ops.foldl step s).seenMessages := by
  induction ops generalizing s with
  | nil => exact h
  | cons op ops ih => exact ih (mem_seenMessages_step.2 (.inl h))

/-- **The format of messages.** A message is read back exactly if it fits; accepted bytes are the
encoding of their message exactly if nothing is left of them; and of such bytes every repetition is
recognised. -/
theorem message_format_iff {maxDegree : ℕ} (hF : F.Canonical maxDegree) (hd : 0 < maxDegree) :
    (∀ msg : ProtocolMessage F,
      fromBytes F msg.toBytes maxDegree = .ok msg ↔ KindFits maxDegree msg.kind) ∧
    (∀ bytes msg, fromBytes F bytes maxDegree = .ok msg →
      (bytes = msg.toBytes ↔ readMessage F maxDegree bytes = .ok (msg, []))) ∧
    ∀ (s : DkgParticipant F) (sender sender' : PublicKey) (bytes bytes' : Bytes)
      (msg : ProtocolMessage F) (ops : List (Op F)), s.config.n = maxDegree →
      s.admission bytes = .ok msg → readMessage F maxDegree bytes = .ok (msg, []) →
      readMessage F maxDegree bytes' = .ok (msg, []) →
      (ops.foldl step (s.step (.receive sender bytes))).handleMessageBytes sender' bytes' =
        (ops.foldl step (s.step (.receive sender bytes)), .ok ()) := by
  refine ⟨fun msg => ⟨fun h => ?_, fun h => ?_⟩, fun bytes msg h => ⟨?_, fun hr => ?_⟩, ?_⟩
  · obtain ⟨rest, hr⟩ := fromBytes_eq_ok.1 h
    exact (of_readMessage hF hr).1
  · rw [← append_nil msg.toBytes]
    exact fromBytes_toBytes hd h []
  · rintro rfl
    obtain ⟨rest, hr⟩ := fromBytes_eq_ok.1 h
    obtain ⟨-, hs⟩ := of_readMessage hF hr
    rwa [self_eq_append_right.1 hs] at hr
  · rw [(of_readMessage hF hr).2, append_nil]
  · intro s sender sender' bytes bytes' msg ops hn ha hr hr'
    -- both are the encoding of the message
    have hsame : bytes' = bytes := by
      rw [(of_readMessage hF hr).2, (of_readMessage hF hr').2]
    rw [hsame, handleMessageBytes,
      if_pos (mem_seenMessages_foldl_of_mem (mem_seenMessages_receive ha sender) ops)]

theorem Feldman.small_canonical (maxDegree : ℕ) : Feldman.small.Canonical maxDegree := by
  have hlog := (reads_word CodecError.endOfBuffer 32).pair reads_byte
  have hset : {log : PublicKey × UInt8 | log.1 ∈ Set.univ ∧ log.2 ∈ Set.univ} = Set.univ := by
    simp
  rw [hset] at hlog
  exact ⟨reads_byte, reads_byte, reads_byte, hlog⟩

theorem message_format_iff_requestLogs :
    fromBytes .small [4] 3 = .ok (.legacy .requestLogs) ∧
      readMessage .small 3 [4] = .ok (.legacy .requestLogs, []) :=
  have h := message_format_iff (Feldman.small_canonical 3) (by decide)
  ⟨(h.1 (.legacy .requestLogs)).2 trivial, (h.2.1 [4] _ rfl).1 rfl⟩

/-- A byte after a request for the logs. -/
theorem trailing_byte_accepted :
    ¬ ∀ (F : Feldman) (maxDegree : ℕ), F.Canonical maxDegree → 0 < maxDegree →
      ∀ bytes msg, fromBytes F bytes maxDegree = .ok msg → bytes = msg.toBytes := by
  intro h
  have hs := h .small 3 (Feldman.small_canonical 3) (by decide) [4, 0] (.legacy .requestLogs) rfl
  exact absurd hs (by decide)

/-! ### Reserved space -/

/-- The number of logs for which space is reserved, and the bytes that they are then read from. -/
def ProtocolMessage.reservation (maxDegree : ℕ) (bytes : Bytes) : Option (ℕ × Bytes) :=
  match readHeader bytes with
  | .ok ((_, tag), rest) =>
    if maxDegree ≠ 0 ∧ tag = 5 then (number CodecError.endOfBuffer 4 rest).toOption else none
  | .error _ => none

/-- So many entries could be in so many bytes. -/
def CouldHold (F : Feldman) (maxDegree bytes count : ℕ) : Prop :=
  ∃ logs : List (PublicKey × F.SignedLog), logs.length = count ∧
    (∀ entry ∈ logs, entry ∈ Entries F maxDegree) ∧ (logs.flatMap (entryBytes F)).length ≤ bytes

theorem couldHold_iff {maxDegree size bytes count : ℕ}
    (hsize : IsLeast (Set.image (fun entry => (entryBytes F entry).length) (Entries F maxDegree))
      size) : CouldHold F maxDegree bytes count ↔ count * size ≤ bytes := by
  obtain ⟨⟨least, hleast, rfl⟩, hmin⟩ := hsize
  constructor
  · rintro ⟨logs, rfl, hall, hlen⟩
    rw [length_flatMap] at hlen
    have hsum := card_nsmul_le_sum (logs.map fun entry => (entryBytes F entry).length)
      (entryBytes F least).length fun n hn => by
        obtain ⟨entry, he, rfl⟩ := mem_map.1 hn
        exact hmin ⟨entry, hall entry he, rfl⟩
    rw [length_map] at hsum
    exact hsum.trans hlen
  · intro hle
    refine ⟨replicate count least, length_replicate, fun entry he => ?_, ?_⟩
    · rwa [eq_of_mem_replicate he]
    · rwa [length_flatMap, map_replicate, sum_replicate_nat]

theorem reservation_eq_some {maxDegree count : ℕ} {bytes rest : Bytes} :
    reservation maxDegree bytes = some (count, rest) ↔ 0 < maxDegree ∧ count < 256 ^ 4 ∧
      ∃ sessionId : Option B256,
        bytes = sessionId.elim [] header ++ 5 :: (BigEndian.digits 4 count ++ rest) := by
  rw [reservation]
  constructor
  · intro h
    split at h
    · next sessionId tag rest' hheader =>
      split_ifs at h with hc
      obtain ⟨hd, rfl⟩ := hc
      have hr : number CodecError.endOfBuffer 4 rest' = .ok (count, rest) := by
        cases hn : number CodecError.endOfBuffer 4 rest' with
        | error e => rw [hn] at h; cases h
        | ok p => rw [hn] at h; exact congrArg _ (Option.some_inj.1 h)
      obtain ⟨hlt, rfl⟩ := (reads_number _ 4 rest' count rest).1 hr
      exact ⟨Nat.pos_of_ne_zero hd, hlt, sessionId, of_readHeader hheader⟩
    · cases h
  · rintro ⟨hd, hlt, sessionId, rfl⟩
    rw [readHeader_eq sessionId (by decide)]
    dsimp only
    rw [if_pos ⟨hd.ne', rfl⟩, (reads_number _ 4).read_write hlt rest]
    rfl

/-- **Space is reserved for no more logs than the bytes could hold** exactly if the announced
number, times the size of the smallest entry, does not exceed what follows. It is so whenever the
message can be read. -/
theorem reservation_bounded_iff {maxDegree size : ℕ} (hF : F.Canonical maxDegree)
    (hsize : IsLeast (Set.image (fun entry => (entryBytes F entry).length) (Entries F maxDegree))
      size) (bytes : Bytes) :
    ((∀ count rest, reservation maxDegree bytes = some (count, rest) →
        CouldHold F maxDegree rest.length count) ↔
      ∀ (sessionId : Option B256) (count : ℕ) (rest : Bytes), 0 < maxDegree → count < 256 ^ 4 →
        bytes = sessionId.elim [] header ++ 5 :: (BigEndian.digits 4 count ++ rest) →
        count * size ≤ rest.length) ∧
    ∀ msg, fromBytes F bytes maxDegree = .ok msg →
      ∀ count rest, reservation maxDegree bytes = some (count, rest) →
        CouldHold F maxDegree rest.length count := by
  refine ⟨⟨fun h sessionId count rest hd hlt hb => ?_, fun h count rest hr => ?_⟩, ?_⟩
  · exact (couldHold_iff hsize).1 (h count rest (reservation_eq_some.2 ⟨hd, hlt, sessionId, hb⟩))
  · obtain ⟨hd, hlt, sessionId, hb⟩ := reservation_eq_some.1 hr
    exact (couldHold_iff hsize).2 (h sessionId count rest hd hlt hb)
  · intro msg hmsg count rest hr
    obtain ⟨hd, hlt, sessionId, rfl⟩ := reservation_eq_some.1 hr
    obtain ⟨rest', hread⟩ := fromBytes_eq_ok.1 hmsg
    simp only [readMessage, bind_eq_ok, readHeader_eq sessionId (show (5 : UInt8) ≠ 0xFF by decide),
      if_neg hd.ne', Except.ok.injEq, Prod.mk.injEq] at hread
    obtain ⟨_, _, ⟨rfl, rfl⟩, kind, s₂, hkind, -⟩ := hread
    -- the same number is read again, and then so many entries
    change (do
      let count ← number .endOfBuffer 4
      let logs ← many (do
        let key ← readKey F
        let log ← F.signedLog.read maxDegree
        return (key, log)) count
      return .allLogs logs : Reader CodecError (ProtocolMessageKind F)) _ = _ at hkind
    simp only [bind_eq_ok, (reads_number _ 4).read_write hlt rest, Except.ok.injEq,
      Prod.mk.injEq] at hkind
    obtain ⟨_, _, ⟨rfl, rfl⟩, logs, s₃, hlogs, -⟩ := hkind
    obtain ⟨⟨hcount, hall⟩, rfl⟩ := ((reads_entry hF).many count rest logs s₃).1 hlogs
    refine ⟨logs, hcount, hall, ?_⟩
    rw [length_append]
    exact Nat.le_add_right _ _

theorem small_entrySize (maxDegree : ℕ) : IsLeast
    (Set.image (fun entry => (entryBytes .small entry).length) (Entries .small maxDegree)) 65 := by
  have hlen : ∀ entry, (entryBytes .small entry).length = 65 := by
    intro entry
    show (keyBytes entry.1 ++ (keyBytes entry.2.1 ++ [entry.2.2])).length = 65
    simp [keyBytes, BigEndian.toBytes_length]
  refine ⟨⟨(0, (0, 0)), ⟨rfl, trivial⟩, hlen _⟩, ?_⟩
  rintro n ⟨entry, -, rfl⟩
  exact (hlen entry).ge

/-- A message with one log. -/
def oneLog : ProtocolMessage .small := .legacy (.allLogs [(1, ((1 : PublicKey), (0 : UInt8)))])

theorem reservation_bounded_iff_one :
    reservation 3 oneLog.toBytes = some (1, oneLog.toBytes.drop 5) ∧ CouldHold .small 3 65 1 := by
  have hr : reservation 3 oneLog.toBytes = some (1, oneLog.toBytes.drop 5) := by decide +kernel
  have hiff := reservation_bounded_iff (Feldman.small_canonical 3) (small_entrySize 3)
    oneLog.toBytes
  exact ⟨hr, hiff.2 oneLog rfl 1 _ hr⟩

/-- Five bytes reserve space for 2³² - 1 logs. -/
theorem reservation_unbounded :
    ¬ ∀ (F : Feldman) (maxDegree : ℕ), F.Canonical maxDegree →
      ∀ bytes : Bytes, bytes.length ≤ MAX_PAYLOAD →
        ∀ count rest, reservation maxDegree bytes = some (count, rest) →
          CouldHold F maxDegree rest.length count := by
  intro h
  have hc := h .small 3 (Feldman.small_canonical 3) [5, 255, 255, 255, 255] (by decide) 4294967295
    [] (by decide)
  have hle := (couldHold_iff (small_entrySize 3)).1 hc
  exact absurd hle (by decide)

end Kora
