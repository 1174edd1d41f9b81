/-
The encoding of blocks (`node/domain/src/block.rs`, `tx.rs`, `idents.rs`).

A block is written field by field, and the transactions as their number followed by each
of them. How lengths are written is left to the codec library (`LengthCodec`).

* `Tx.reads`, `Block.reads` — the decoder accepts exactly the encodings of blocks within
  its limits;
* `block_format` — blocks are read back, and different ones have different encodings.
-/
import Kora.Block
import Kora.Wire

namespace Kora

open Wire

inductive CodecError where
  | endOfBuffer
  | invalidLength (len : ℕ)
  | invalidVarint
  | invalidEnum (tag : UInt8)
  /-- A value of the named type that does not pass its check. -/
  | invalid (type : String)
  /-- Bytes are left behind a value that was to fill the buffer. -/
  | extraData (remaining : ℕ)
deriving DecidableEq, Repr

/-- How the codec library writes the length of a vector. -/
structure LengthCodec where
  /-- The largest length that can be written. -/
  max : ℕ
  write : ℕ → Bytes
  encodeSize : ℕ → ℕ
  read : Reader CodecError ℕ
  reads : Reads {n | n ≤ max} write read
  encodeSize_eq : ∀ n, encodeSize n = (write n).length

namespace LengthCodec

variable (L : LengthCodec)

/-- Read a length that a range allows. -/
def readCfg (limit : ℕ) : Reader CodecError ℕ := do
  let len ← L.read
  if len ≤ limit then pure len else throw (.invalidLength len)

theorem reads_readCfg (limit : ℕ) : Reads {n | n ≤ L.max ∧ n ≤ limit} L.write (L.readCfg limit) :=
  L.reads.filter .invalidLength

end LengthCodec

/-! ### Transactions -/

structure TxCfg where
  maxTxBytes : ℕ

namespace Tx

variable (L : LengthCodec)

def write (tx : Tx) : Bytes := L.write tx.bytes.length ++ tx.bytes

def encodeSize (tx : Tx) : ℕ := L.encodeSize tx.bytes.length + tx.bytes.length

def readCfg (cfg : TxCfg) : Reader CodecError Tx := do
  let len ← L.readCfg cfg.maxTxBytes
  let data ← take .endOfBuffer len
  return ⟨data⟩

theorem encodeSize_eq (tx : Tx) : tx.encodeSize L = (tx.write L).length := by
  rw [encodeSize, write, L.encodeSize_eq, List.length_append]

theorem reads (cfg : TxCfg) :
    Reads {tx : Tx | tx.bytes.length ≤ L.max ∧ tx.bytes.length ≤ cfg.maxTxBytes} (write L)
      (readCfg L cfg) := by
  intro s tx rest
  simp only [readCfg, bind_eq_ok, pure_eq_ok, L.reads_readCfg cfg.maxTxBytes _ _ _,
    reads_take _ _ _ _ _]
  constructor
  · rintro ⟨len, s', ⟨hlen, rfl⟩, data, rest', ⟨hd, rfl⟩, rfl, rfl⟩
    obtain rfl : data.length = len := hd
    exact ⟨hlen, (List.append_assoc _ _ _).symm⟩
  · rintro ⟨hlen, rfl⟩
    exact ⟨tx.bytes.length, tx.bytes ++ rest, ⟨hlen, List.append_assoc _ _ _⟩, tx.bytes, rest,
      ⟨rfl, rfl⟩, rfl, rfl⟩

end Tx

/-! ### Blocks -/

structure BlockCfg where
  maxTxs : ℕ
  tx : TxCfg

namespace Block

variable (L : LengthCodec)

def write (block : Block) : Bytes :=
  BigEndian.toBytes 32 block.parentId ++ (BigEndian.digits 8 block.height ++
    (BigEndian.digits 8 block.timestamp ++ (BigEndian.toBytes 32 block.prevrandao ++
      (BigEndian.toBytes 32 block.stateRoot ++
        (L.write block.txs.length ++ block.txs.flatMap (Tx.write L))))))

def encodeSize (block : Block) : ℕ :=
  32 + 8 + 8 + 32 + 32 + (L.encodeSize block.txs.length + (block.txs.map (Tx.encodeSize L)).sum)

def readCfg (cfg : BlockCfg) : Reader CodecError Block := do
  let parentId ← word .endOfBuffer 32
  let height ← number .endOfBuffer 8
  let timestamp ← number .endOfBuffer 8
  let prevrandao ← word .endOfBuffer 32
  let stateRoot ← word .endOfBuffer 32
  let len ← L.readCfg cfg.maxTxs
  let txs ← many (Tx.readCfg L cfg.tx) len
  return { parentId, height, timestamp, prevrandao, stateRoot, txs }

/-- Decode a block that fills the whole buffer. -/
def decodeCfg (cfg : BlockCfg) (bytes : Bytes) : Except CodecError Block :=
  match readCfg L cfg bytes with
  | .error e => .error e
  | .ok (block, rest) => if rest.isEmpty then .ok block else .error (.extraData rest.length)

structure Fits (block : Block) : Prop where
  height : block.height < 2 ^ 64
  timestamp : block.timestamp < 2 ^ 64
  txs : block.txs.length ≤ L.max
  tx : ∀ tx ∈ block.txs, tx.bytes.length ≤ L.max

/-- The transactions of the block are within the decoder's limits. -/
structure Within (cfg : BlockCfg) (block : Block) : Prop where
  txs : block.txs.length ≤ cfg.maxTxs
  tx : ∀ tx ∈ block.txs, tx.bytes.length ≤ cfg.tx.maxTxBytes

theorem reads (cfg : BlockCfg) :
    Reads {block : Block | block.Fits L ∧ block.Within cfg} (write L) (readCfg L cfg) := by
  intro s block rest
  simp only [readCfg, bind_eq_ok, pure_eq_ok, reads_word _ _ _ _ _, reads_number _ _ _ _ _,
    L.reads_readCfg cfg.maxTxs _ _ _, (Tx.reads L cfg.tx).many _ _ _ _]
  constructor
  · rintro ⟨parentId, _, ⟨-, rfl⟩, height, _, ⟨hh, rfl⟩, timestamp, _, ⟨ht, rfl⟩,
      prevrandao, _, ⟨-, rfl⟩, stateRoot, _, ⟨-, rfl⟩, len, _, ⟨hlen, rfl⟩, txs, _,
      ⟨⟨rfl, htxs⟩, rfl⟩, rfl, rfl⟩
    refine ⟨⟨⟨hh, ht, hlen.1, fun tx htx => (htxs tx htx).1⟩,
      ⟨hlen.2, fun tx htx => (htxs tx htx).2⟩⟩, ?_⟩
    simp only [write, List.append_assoc]
  · rintro ⟨⟨hf, hw⟩, rfl⟩
    obtain ⟨parentId, height, timestamp, prevrandao, stateRoot, txs⟩ := block
    simp only [write, List.append_assoc]
    exact ⟨parentId, _, ⟨trivial, rfl⟩, height, _, ⟨hf.height, rfl⟩, timestamp, _,
      ⟨hf.timestamp, rfl⟩, prevrandao, _, ⟨trivial, rfl⟩, stateRoot, _, ⟨trivial, rfl⟩,
      txs.length, _, ⟨⟨hf.txs, hw.txs⟩, rfl⟩, txs, rest,
      ⟨⟨rfl, fun tx htx => ⟨hf.tx tx htx, hw.tx tx htx⟩⟩, rfl⟩, rfl, rfl⟩

theorem encodeSize_eq (block : Block) : block.encodeSize L = (block.write L).length := by
  have htxs : (block.txs.map (Tx.encodeSize L)).sum = (block.txs.flatMap (Tx.write L)).length := by
    rw [List.length_flatMap]
    exact congrArg List.sum (List.map_congr_left fun tx _ => tx.encodeSize_eq L)
  simp only [encodeSize, write, List.length_append, BigEndian.toBytes_length,
    BigEndian.digits_length, L.encodeSize_eq, htxs]
  omega

theorem decodeCfg_eq_ok {cfg : BlockCfg} {bytes : Bytes} {block : Block} :
    decodeCfg L cfg bytes = .ok block ↔
      (block.Fits L ∧ block.Within cfg) ∧ bytes = block.write L := by
  have hr := reads L cfg bytes block []
  rw [List.append_nil] at hr
  refine Iff.trans ?_ hr
  rw [decodeCfg]
  cases readCfg L cfg bytes with
  | error e => simp
  | ok p =>
    obtain ⟨block', rest⟩ := p
    cases rest <;> simp

theorem write_injOn : Set.InjOn (write L) {block : Block | block.Fits L} := by
  intro a ha b hb heq
  -- a decoder whose limits allow whatever can be written
  have hw : ∀ block : Block, block.Fits L → block.Within ⟨L.max, ⟨L.max⟩⟩ := fun block h =>
    ⟨h.txs, h.tx⟩
  exact (reads L ⟨L.max, ⟨L.max⟩⟩).write_injOn ⟨ha, hw a ha⟩ ⟨hb, hw b hb⟩ heq

end Block

/-- The platform's block identifiers are the hashes of the encodings. -/
def Platform.Encodes (P : Platform) (L : LengthCodec) : Prop :=
  ∀ block, P.blockId block = P.keccak256 (block.write L)

theorem Platform.Encodes.eq_of_commitment_eq {P : Platform} {L : LengthCodec} (h : P.Encodes L)
    {a b : Block} (ha : a.Fits L) (hb : b.Fits L)
    (hk : Set.InjOn P.keccak256 {a.write L, b.write L})
    (hsha : Set.InjOn P.sha256 {P.blockId a, P.blockId b})
    (heq : P.commitment a = P.commitment b) : a = b := by
  have hid : P.blockId a = P.blockId b := hsha (.inl rfl) (.inr rfl) heq
  rw [h a, h b] at hid
  exact Block.write_injOn L ha hb (hk (.inl rfl) (.inr rfl) hid)

/-- **The block format.** A block within the limits is read back from its encoding, which has the
announced length; what is accepted in full is the encoding of what is returned; and blocks share
neither an encoding nor a digest, unless a hash collides on them. -/
theorem block_format (L : LengthCodec) :
    (∀ (cfg : BlockCfg) (block : Block), block.Fits L → block.Within cfg →
      Block.readCfg L cfg (block.write L) = .ok (block, []) ∧
        Block.decodeCfg L cfg (block.write L) = .ok block ∧
        block.encodeSize L = (block.write L).length) ∧
    (∀ (cfg : BlockCfg) (bytes : Bytes) (block : Block),
      Block.decodeCfg L cfg bytes = .ok block → block.write L = bytes) ∧
    (∀ a b : Block, a.Fits L → b.Fits L → a.write L = b.write L → a = b) ∧
    ∀ P : Platform, P.Encodes L → ∀ a b : Block, a.Fits L → b.Fits L →
      Set.InjOn P.keccak256 {a.write L, b.write L} →
      Set.InjOn P.sha256 {P.blockId a, P.blockId b} →
      P.commitment a = P.commitment b → a = b := by
  refine ⟨fun cfg block hf hw => ⟨?_, ?_, ?_⟩, fun cfg bytes block h => ?_,
    fun a b ha hb heq => ?_, fun P hP a b ha hb hk hsha heq => ?_⟩
  · exact (Block.reads L cfg).read_write_nil ⟨hf, hw⟩
  · exact (Block.decodeCfg_eq_ok L).2 ⟨⟨hf, hw⟩, rfl⟩
  · exact block.encodeSize_eq L
  · exact ((Block.decodeCfg_eq_ok L).1 h).2.symm
  · exact Block.write_injOn L ha hb heq
  · exact hP.eq_of_commitment_eq ha hb hk hsha heq

/-! ### Lengths of at most 32 bits -/

/-- Lengths as the library writes them, up to the largest `u32`. -/
def LengthCodec.varint : LengthCodec where
  max := 2 ^ 32 - 1
  write := Varint.write
  encodeSize n := (Varint.write n).length
  read := do
    let len ← Varint.read .endOfBuffer .invalidVarint
    if len ≤ 2 ^ 32 - 1 then pure len else throw .invalidVarint
  reads := by
    have hreads := (Varint.reads CodecError.endOfBuffer .invalidVarint).filter
      (p := (· ≤ 2 ^ 32 - 1)) fun _ => .invalidVarint
    simpa only [Set.mem_univ, true_and] using hreads
  encodeSize_eq _ := rfl

namespace BlockExample

def block : Block :=
  { parentId := 1, height := 7, timestamp := 1700000007, prevrandao := 2, stateRoot := 3
    txs := [⟨[]⟩, ⟨[9, 9, 9]⟩] }

end BlockExample

section Example

open BlockExample

theorem block_format_two :
    block.Fits .varint ∧ block.Within ⟨64, ⟨1024⟩⟩ ∧
      Block.decodeCfg .varint ⟨64, ⟨1024⟩⟩ (block.write .varint) = .ok block := by
  have hf : block.Fits .varint :=
    ⟨by decide, by decide, by decide, by decide⟩
  have hw : block.Within ⟨64, ⟨1024⟩⟩ := ⟨by decide, by decide⟩
  exact ⟨hf, hw, ((block_format .varint).1 ⟨64, ⟨1024⟩⟩ block hf hw).2.1⟩

end Example

end Kora
