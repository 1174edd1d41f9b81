/-
Keys and values of the QMDB partitions (`storage/qmdb/src/encoding.rs`).

An account is stored as 80 bytes: nonce (8), balance (32), code hash (32) and generation
(8), each big-endian. A storage cell is stored under the 60 bytes of address (20),
generation (8) and slot (32). Both encodings are bijections (`records_faithful`).
-/
import Kora.BigEndian
import Kora.ChangeSet
import Kora.KeyValueStore

namespace Kora

/-- Storage key combining address, generation and slot. -/
structure StorageKey where
  address : Address
  /-- Storage generation, incremented on account recreation. -/
  generation : U64
  slot : U256
deriving DecidableEq

namespace StorageKey

def SIZE : ℕ := 60

def new (address : Address) (generation : U64) (slot : U256) : StorageKey :=
  ⟨address, generation, slot⟩

end StorageKey

/-- An array of exactly `StorageKey.SIZE` bytes. -/
abbrev StorageKeyBytes := { bytes : Bytes // bytes.length = StorageKey.SIZE }

namespace StorageKey

open BigEndian

def toBytes (self : StorageKey) : StorageKeyBytes :=
  ⟨BigEndian.toBytes 20 self.address ++
    (BigEndian.toBytes 8 self.generation ++ BigEndian.toBytes 32 self.slot), by simp [SIZE]⟩

def fromBytes (bytes : StorageKeyBytes) : StorageKey :=
  { address := ofBytes 20 ((bytes.1.drop 0).take 20)
    generation := ofBytes 8 ((bytes.1.drop 20).take 8)
    slot := ofBytes 32 ((bytes.1.drop 28).take 32) }

@[simp] theorem fromBytes_toBytes (key : StorageKey) : fromBytes key.toBytes = key := by
  set a := BigEndian.toBytes 20 key.address with ha
  set g := BigEndian.toBytes 8 key.generation with hg
  set s := BigEndian.toBytes 32 key.slot with hs
  have hby : key.toBytes.1 = a ++ (g ++ s) := rfl
  have haa : ((a ++ (g ++ s)).drop 0).take 20 = a := by
    rw [List.drop_zero]
    exact List.take_left' (toBytes_length 20 key.address)
  have hgg : ((a ++ (g ++ s)).drop 20).take 8 = g :=
    field_append (toBytes_length 20 key.address) (toBytes_length 8 key.generation)
  have hss : ((a ++ (g ++ s)).drop 28).take 32 = s := by
    rw [← List.append_assoc, ← List.append_nil s]
    exact field_append (by simp [ha, hg]) (by simp [hs])
  rw [fromBytes, hby, haa, hgg, hss, ha, hg, hs]
  simp only [ofBytes_toBytes]

@[simp] theorem toBytes_fromBytes (bytes : StorageKeyBytes) :
    (fromBytes bytes).toBytes = bytes := by
  obtain ⟨l, hl⟩ := bytes
  have hlen : l.length = 60 := hl
  refine Subtype.ext ?_
  -- the fields are put back from the last one to the first
  show BigEndian.toBytes 20 (ofBytes 20 ((l.drop 0).take 20)) ++
    (BigEndian.toBytes 8 (ofBytes 8 ((l.drop 20).take 8)) ++
      BigEndian.toBytes 32 (ofBytes 32 ((l.drop 28).take 32))) = l
  have hs := toBytes_last_field (l := l) (i := 28) (n := 32) hlen
  have hg := toBytes_field (l := l) (i := 20) (n := 8) (by omega)
  have ha := toBytes_field (l := l) (i := 0) (n := 20) (by omega)
  rw [hs, hg, ha, List.drop_zero]

theorem toBytes_injective : Function.Injective toBytes :=
  Function.LeftInverse.injective fromBytes_toBytes

end StorageKey

structure AccountRecord where
  nonce : U64
  balance : U256
  codeHash : B256
  generation : U64
deriving DecidableEq

namespace AccountEncoding

def SIZE : ℕ := 80

end AccountEncoding

/-- An array of exactly `AccountEncoding.SIZE` bytes. -/
abbrev AccountValue := { bytes : Bytes // bytes.length = AccountEncoding.SIZE }

namespace AccountEncoding

open BigEndian

def encodeBytes (r : AccountRecord) : Bytes :=
  toBytes 8 r.nonce ++ (toBytes 32 r.balance ++ (toBytes 32 r.codeHash ++ toBytes 8 r.generation))

def encode (nonce : U64) (balance : U256) (codeHash : B256) (generation : U64) : AccountValue :=
  ⟨encodeBytes ⟨nonce, balance, codeHash, generation⟩, by simp [encodeBytes, SIZE]⟩

def decode (bytes : Bytes) : Option AccountRecord :=
  if bytes.length < SIZE then none
  else some
    { nonce := ofBytes 8 ((bytes.drop 0).take 8)
      balance := ofBytes 32 ((bytes.drop 8).take 32)
      codeHash := ofBytes 32 ((bytes.drop 40).take 32)
      generation := ofBytes 8 ((bytes.drop 72).take 8) }

theorem decode_isSome (v : AccountValue) : (decode v.1).isSome := by
  have hlen : ¬ v.1.length < SIZE := by rw [v.2]; exact lt_irrefl SIZE
  rw [decode, if_neg hlen]
  rfl

@[simp] theorem decode_encode (nonce : U64) (balance : U256) (codeHash : B256) (generation : U64) :
    decode (encode nonce balance codeHash generation).1 =
      some ⟨nonce, balance, codeHash, generation⟩ := by
  set n := toBytes 8 nonce with hn
  set b := toBytes 32 balance with hb
  set h := toBytes 32 codeHash with hh
  set g := toBytes 8 generation with hg
  have hby : (encode nonce balance codeHash generation).1 = n ++ (b ++ (h ++ g)) := rfl
  have hlen : ¬ (n ++ (b ++ (h ++ g))).length < SIZE := by simp [hn, hb, hh, hg, SIZE]
  -- each field is what its offset and width cut out of the concatenation
  have hnn : ((n ++ (b ++ (h ++ g))).drop 0).take 8 = n := by
    rw [List.drop_zero]
    exact List.take_left' (toBytes_length 8 nonce)
  have hbl : ((n ++ (b ++ (h ++ g))).drop 8).take 32 = b :=
    field_append (toBytes_length 8 nonce) (toBytes_length 32 balance)
  have hc : ((n ++ (b ++ (h ++ g))).drop 40).take 32 = h := by
    rw [← List.append_assoc]
    exact field_append (by simp [hn, hb]) (toBytes_length 32 codeHash)
  have hgen : ((n ++ (b ++ (h ++ g))).drop 72).take 8 = g := by
    rw [← List.append_assoc, ← List.append_assoc, ← List.append_nil g]
    exact field_append (by simp [hn, hb, hh]) (by simp [hg])
  rw [hby, decode, if_neg hlen, hnn, hbl, hc, hgen, hn, hb, hh, hg]
  simp only [ofBytes_toBytes]

theorem encode_of_decode {v : AccountValue} {r : AccountRecord} (h : decode v.1 = some r) :
    encode r.nonce r.balance r.codeHash r.generation = v := by
  obtain ⟨l, hl⟩ := v
  have hlen : l.length = 80 := hl
  have hr : r = ⟨ofBytes 8 ((l.drop 0).take 8), ofBytes 32 ((l.drop 8).take 32),
      ofBytes 32 ((l.drop 40).take 32), ofBytes 8 ((l.drop 72).take 8)⟩ := by
    rw [decode, if_neg (by show ¬ l.length < 80; omega)] at h
    exact (Option.some.inj h).symm
  subst hr
  refine Subtype.ext ?_
  show toBytes 8 (ofBytes 8 ((l.drop 0).take 8)) ++
    (toBytes 32 (ofBytes 32 ((l.drop 8).take 32)) ++
      (toBytes 32 (ofBytes 32 ((l.drop 40).take 32)) ++
        toBytes 8 (ofBytes 8 ((l.drop 72).take 8)))) = l
  have hg := toBytes_last_field (l := l) (i := 72) (n := 8) hlen
  have hc := toBytes_field (l := l) (i := 40) (n := 32) (by omega)
  have hb := toBytes_field (l := l) (i := 8) (n := 32) (by omega)
  have hn := toBytes_field (l := l) (i := 0) (n := 8) (by omega)
  rw [hg, hc, hb, hn, List.drop_zero]

end AccountEncoding

/-- **Keys and records are faithful.** Decoding gives the encoded fields back, every string of 60
bytes is the key of one triple, and every string of 80 bytes is one account record. -/
theorem records_faithful :
    (∀ address generation slot,
      StorageKey.fromBytes (StorageKey.new address generation slot).toBytes =
        ⟨address, generation, slot⟩) ∧
    (∀ nonce balance codeHash generation,
      AccountEncoding.decode (AccountEncoding.encode nonce balance codeHash generation).1 =
        some ⟨nonce, balance, codeHash, generation⟩) ∧
    (∀ bytes : StorageKeyBytes, ∃! key : StorageKey, key.toBytes = bytes) ∧
    (∀ bytes : AccountValue, ∃! r : AccountRecord,
      AccountEncoding.encode r.nonce r.balance r.codeHash r.generation = bytes) ∧
    Function.Injective fun triple : Address × U64 × U256 =>
      (StorageKey.new triple.1 triple.2.1 triple.2.2).toBytes := by
  refine ⟨?_, ?_, ?_, ?_, ?_⟩
  · intro address generation slot
    exact (StorageKey.new address generation slot).fromBytes_toBytes
  · exact AccountEncoding.decode_encode
  · intro bytes
    refine ⟨StorageKey.fromBytes bytes, StorageKey.toBytes_fromBytes bytes, ?_⟩
    rintro key rfl
    exact key.fromBytes_toBytes.symm
  · intro bytes
    obtain ⟨r, hr⟩ := Option.isSome_iff_exists.1 (AccountEncoding.decode_isSome bytes)
    refine ⟨r, AccountEncoding.encode_of_decode hr, ?_⟩
    rintro r' rfl
    rw [AccountEncoding.decode_encode] at hr
    exact Option.some.inj hr
  · rintro ⟨address, generation, slot⟩ ⟨address', generation', slot'⟩ h
    have hkey := StorageKey.toBytes_injective h
    simp only [StorageKey.new, StorageKey.mk.injEq] at hkey
    obtain ⟨rfl, rfl, rfl⟩ := hkey
    rfl

end Kora
