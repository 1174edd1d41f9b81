/-
Readers of byte strings.

A reader belongs to a writer if it accepts exactly what the writer puts out (`Reads`):
every value is read back with the rest of the string untouched, and no value has two
encodings.

* `Reads.pair`, `Reads.many`, `Reads.filter` — readers made of others;
* `Varint.reads` — numbers in groups of seven bits, in their shortest form.
-/
import Kora.BigEndian
import Mathlib.Data.Set.Basic

open List

namespace Wire

variable {ε α β : Type}

/-- A reader of values at the front of a byte string. -/
abbrev Reader (ε α : Type) := StateT (List UInt8) (Except ε) α

theorem bind_eq_ok {r : Reader ε α} {k : α → Reader ε β} {s rest : List UInt8} {b : β} :
    (r >>= k) s = .ok (b, rest) ↔ ∃ a s', r s = .ok (a, s') ∧ k a s' = .ok (b, rest) := by
  show (r s >>= fun p => k p.1 p.2) = .ok (b, rest) ↔ _
  cases hr : r s with
  | error e => simp [bind, Except.bind]
  | ok p =>
    obtain ⟨a, s'⟩ := p
    simp [bind, Except.bind]

theorem pure_eq_ok {a b : α} {s rest : List UInt8} :
    (pure a : Reader ε α) s = .ok (b, rest) ↔ a = b ∧ s = rest := by
  show Except.ok (a, s) = Except.ok (b, rest) ↔ _
  simp

theorem throw_ne_ok {e : ε} {s rest : List UInt8} {a : α} :
    (throw e : Reader ε α) s ≠ .ok (a, rest) := by
  intro h
  cases h

/-- The reader accepts exactly the encodings of values in `S`, each followed by anything. -/
def Reads (S : Set α) (write : α → List UInt8) (read : Reader ε α) : Prop :=
  ∀ s a rest, read s = .ok (a, rest) ↔ a ∈ S ∧ s = write a ++ rest

section Reads

variable {S : Set α} {write : α → List UInt8} {read : Reader ε α}

variable (h : Reads S write read)
include h

theorem Reads.read_write {a : α} (ha : a ∈ S) (rest : List UInt8) :
    read (write a ++ rest) = .ok (a, rest) :=
  (h _ a rest).2 ⟨ha, rfl⟩

theorem Reads.read_write_nil {a : α} (ha : a ∈ S) : read (write a) = .ok (a, []) := by
  have hr := h.read_write ha []
  rwa [append_nil] at hr

theorem Reads.write_injOn : S.InjOn write := by
  intro a ha b hb heq
  have hr := h.read_write_nil ha
  rw [heq, h.read_write_nil hb] at hr
  exact (Prod.mk.inj (Except.ok.inj hr)).1.symm

theorem Reads.filter {p : α → Prop} [DecidablePred p] (refuse : α → ε) :
    Reads {a ∈ S | p a} write
      (do let a ← read; if p a then pure a else throw (refuse a)) := by
  intro s a rest
  rw [bind_eq_ok]
  constructor
  · rintro ⟨a', s', hrd, hr⟩
    split at hr
    · next hp =>
      obtain ⟨rfl, rfl⟩ := pure_eq_ok.1 hr
      obtain ⟨ha, hs⟩ := (h s a' s').1 hrd
      exact ⟨⟨ha, hp⟩, hs⟩
    · exact absurd hr throw_ne_ok
  · rintro ⟨⟨ha, hp⟩, hs⟩
    refine ⟨a, rest, (h s a rest).2 ⟨ha, hs⟩, ?_⟩
    rw [if_pos hp]
    rfl

theorem Reads.map {f : α → β} {g : β → α} (hfg : ∀ b, f (g b) = b) (hgf : ∀ a ∈ S, g (f a) = a) :
    Reads (Set.preimage g S) (fun b => write (g b)) (do let a ← read; pure (f a)) := by
  intro s b rest
  rw [bind_eq_ok]
  constructor
  · rintro ⟨a, s', hr, hrs⟩
    obtain ⟨rfl, rfl⟩ := pure_eq_ok.1 hrs
    obtain ⟨ha, hs⟩ := (h s a s').1 hr
    dsimp only
    rw [Set.mem_preimage, hgf a ha]
    exact ⟨ha, hs⟩
  · rintro ⟨hb, hs⟩
    exact ⟨g b, rest, (h s (g b) rest).2 ⟨hb, hs⟩, pure_eq_ok.2 ⟨hfg b, rfl⟩⟩

theorem Reads.pair {T : Set β} {write' : β → List UInt8} {read' : Reader ε β}
    (h' : Reads T write' read') : Reads {p | p.1 ∈ S ∧ p.2 ∈ T} (fun p => write p.1 ++ write' p.2)
      (do let a ← read; let b ← read'; pure (a, b)) := by
  intro s p rest
  simp only [bind_eq_ok, pure_eq_ok]
  constructor
  · rintro ⟨a, s₁, ha, b, s₂, hb, rfl, rfl⟩
    obtain ⟨hS, rfl⟩ := (h s a s₁).1 ha
    obtain ⟨hT, rfl⟩ := (h' s₁ b s₂).1 hb
    exact ⟨⟨hS, hT⟩, (append_assoc ..).symm⟩
  · rintro ⟨⟨hS, hT⟩, rfl⟩
    rw [append_assoc]
    exact ⟨p.1, _, h.read_write hS _, p.2, rest, h'.read_write hT rest, rfl, rfl⟩

end Reads

/-! ### Fields of fixed width -/

/-- The next `n` bytes. -/
def take (eof : ε) (n : ℕ) : Reader ε (List UInt8) := fun s =>
  if s.length < n then .error eof else .ok (s.take n, s.drop n)

theorem reads_take (eof : ε) (n : ℕ) : Reads {l | l.length = n} id (take eof n) := by
  intro s l rest
  rw [take]
  split
  · next hs =>
    constructor
    · intro h
      cases h
    · rintro ⟨hlen, rfl⟩
      rw [length_append] at hs
      have : l.length = n := hlen
      simp only [id_eq] at hs
      omega
  · next hl =>
    simp only [Except.ok.injEq, Prod.mk.injEq]
    constructor
    · rintro ⟨rfl, rfl⟩
      exact ⟨length_take_of_le (by omega), (take_append_drop n s).symm⟩
    · rintro ⟨hlen, rfl⟩
      have hlen : l.length = n := hlen
      exact ⟨take_left' hlen, drop_left' hlen⟩

/-- A number of `n` bytes, most significant byte first. -/
def number (eof : ε) (n : ℕ) : Reader ε ℕ := do
  let bytes ← take eof n
  return BigEndian.value bytes

theorem reads_number (eof : ε) (n : ℕ) :
    Reads {x | x < 256 ^ n} (BigEndian.digits n) (number eof n) := by
  intro s x rest
  rw [number, bind_eq_ok]
  constructor
  · rintro ⟨l, s', hr, hrs⟩
    obtain ⟨rfl, rfl⟩ := pure_eq_ok.1 hrs
    obtain ⟨hlen, hs⟩ := (reads_take eof n s l s').1 hr
    have hlen : l.length = n := hlen
    refine ⟨hlen ▸ BigEndian.value_lt l, ?_⟩
    rw [← hlen, BigEndian.digits_value]
    exact hs
  · rintro ⟨hx, hs⟩
    have hx : x < 256 ^ n := hx
    refine ⟨BigEndian.digits n x, rest, (reads_take eof n s _ rest).2 ⟨?_, hs⟩,
      pure_eq_ok.2 ⟨?_, rfl⟩⟩
    · exact BigEndian.digits_length n x
    · rw [BigEndian.value_digits, Nat.mod_eq_of_lt hx]

/-- A machine word of `n` bytes. -/
def word (eof : ε) (n : ℕ) : Reader ε (BitVec (8 * n)) := do
  let bytes ← take eof n
  return BigEndian.ofBytes n bytes

theorem reads_word (eof : ε) (n : ℕ) : Reads Set.univ (BigEndian.toBytes n) (word eof n) := by
  have hmap := (reads_take eof n).map (f := BigEndian.ofBytes n) (g := BigEndian.toBytes n)
    (BigEndian.ofBytes_toBytes n) fun l hl => BigEndian.toBytes_ofBytes hl
  have hu : Set.preimage (BigEndian.toBytes n) {l | l.length = n} = Set.univ :=
    Set.eq_univ_of_forall fun x => BigEndian.toBytes_length n x
  rwa [hu] at hmap

/-! ### Lists -/

/-- So many values, one after the other. -/
def many (read : Reader ε α) : ℕ → Reader ε (List α)
  | 0 => pure []
  | n + 1 => do
    let a ← read
    let l ← many read n
    return a :: l

theorem Reads.many {S : Set α} {write : α → List UInt8} {read : Reader ε α}
    (h : Reads S write read) (n : ℕ) :
    Reads {l | l.length = n ∧ ∀ a ∈ l, a ∈ S} (·.flatMap write) (Wire.many read n) := by
  induction n with
  | zero =>
    intro s l rest
    rw [Wire.many, pure_eq_ok]
    constructor
    · rintro ⟨rfl, rfl⟩
      exact ⟨⟨rfl, by simp⟩, rfl⟩
    · rintro ⟨⟨hlen, -⟩, rfl⟩
      obtain rfl := length_eq_zero_iff.1 hlen
      exact ⟨rfl, rfl⟩
  | succ n ih =>
    intro s l rest
    simp only [Wire.many, bind_eq_ok, pure_eq_ok]
    constructor
    · rintro ⟨a, s', hr, l', rest', hm, rfl, rfl⟩
      obtain ⟨ha, rfl⟩ := (h s a s').1 hr
      obtain ⟨⟨hlen, hl⟩, rfl⟩ := (ih s' l' rest').1 hm
      refine ⟨⟨by rw [length_cons, hlen], forall_mem_cons.2 ⟨ha, hl⟩⟩, ?_⟩
      rw [flatMap_cons, append_assoc]
    · rintro ⟨⟨hlen, hl⟩, hs⟩
      obtain ⟨a, l, rfl⟩ := exists_cons_of_length_eq_add_one hlen
      obtain ⟨ha, hl⟩ := forall_mem_cons.1 hl
      rw [flatMap_cons, append_assoc] at hs
      refine ⟨a, l.flatMap write ++ rest, (h _ _ _).2 ⟨ha, hs⟩, l, rest,
        (ih _ _ _).2 ⟨⟨?_, hl⟩, rfl⟩, rfl, rfl⟩
      exact Nat.succ.inj hlen

theorem many_flatMap {S : Set α} {write : α → List UInt8} {read : Reader ε α}
    (h : ∀ a ∈ S, ∀ rest, read (write a ++ rest) = .ok (a, rest)) {l : List α} (hl : ∀ a ∈ l, a ∈ S)
    (rest : List UInt8) : many read l.length (l.flatMap write ++ rest) = .ok (l, rest) := by
  induction l with
  | nil => rfl
  | cons a l ih =>
    obtain ⟨ha, hl⟩ := forall_mem_cons.1 hl
    rw [flatMap_cons, append_assoc]
    simp only [length_cons, many, bind_eq_ok, pure_eq_ok]
    exact ⟨a, _, h a ha _, l, rest, ih hl, rfl, rfl⟩

/-! ### Numbers of variable length -/

namespace Varint

/-- Seven bits to a byte, least significant first; all bytes but the last have their high bit
set. -/
def write (n : ℕ) : List UInt8 :=
  if n < 128 then [UInt8.ofNat n] else UInt8.ofNat (n % 128 + 128) :: write (n / 128)

/-- Read a number. A last byte of zero behind others would be a longer form of a shorter
encoding. -/
def read (eof overlong : ε) : Reader ε ℕ
  | [] => .error eof
  | b :: s =>
    if b.toNat < 128 then .ok (b.toNat, s)
    else match read eof overlong s with
      | .error e => .error e
      | .ok (0, _) => .error overlong
      | .ok (m + 1, rest) => .ok (b.toNat - 128 + 128 * (m + 1), rest)

theorem toNat_ofNat {n : ℕ} (h : n < 256) : (UInt8.ofNat n).toNat = n := by
  rw [UInt8.toNat_ofNat']
  exact Nat.mod_eq_of_lt h

theorem read_write (eof overlong : ε) (n : ℕ) (rest : List UInt8) :
    read eof overlong (write n ++ rest) = .ok (n, rest) := by
  induction n using Nat.strongRecOn with
  | ind n ih =>
    rw [write]
    split
    · next hs =>
      have hb : (UInt8.ofNat n).toNat = n := toNat_ofNat (by omega)
      rw [singleton_append, read, hb, if_pos hs]
    · next hbig =>
      have hb : (UInt8.ofNat (n % 128 + 128)).toNat = n % 128 + 128 := toNat_ofNat (by omega)
      obtain ⟨m, hm⟩ : ∃ m, n / 128 = m + 1 := ⟨n / 128 - 1, by omega⟩
      have hrec := ih (n / 128) (by omega)
      rw [cons_append, read, hb, if_neg (by omega), hrec, hm]
      simp only [Except.ok.injEq, Prod.mk.injEq, and_true]
      omega

theorem eq_write_of_read {eof overlong : ε} {s rest : List UInt8} {n : ℕ}
    (h : read eof overlong s = .ok (n, rest)) : s = write n ++ rest := by
  induction s generalizing n with
  | nil => cases h
  | cons b s ih =>
    rw [read] at h
    split at h
    · next hs =>
      obtain ⟨rfl, rfl⟩ := Prod.mk.inj (Except.ok.inj h)
      rw [write, if_pos hs, singleton_append, UInt8.ofNat_toNat]
    · next hbig =>
      split at h
      · cases h
      · cases h
      · next m rest' heq =>
        obtain ⟨rfl, rfl⟩ := Prod.mk.inj (Except.ok.inj h)
        have hlt : b.toNat < 256 := b.toNat_lt
        have hmod : (b.toNat - 128 + 128 * (m + 1)) % 128 + 128 = b.toNat := by omega
        have hdiv : (b.toNat - 128 + 128 * (m + 1)) / 128 = m + 1 := by omega
        rw [write, if_neg (by omega), hmod, hdiv, UInt8.ofNat_toNat, cons_append, ← ih heq]

theorem reads (eof overlong : ε) : Reads Set.univ write (read eof overlong) := by
  intro s n rest
  constructor
  · intro h
    exact ⟨trivial, eq_write_of_read h⟩
  · rintro ⟨-, rfl⟩
    exact read_write eof overlong n rest

end Varint

end Wire
