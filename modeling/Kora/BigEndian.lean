/-
Big-endian byte strings.

A machine word is written most significant byte first, and read back by weighing each byte
with the power of 256 of its place.

* `value_digits`, `digits_value` — numbers and strings are read back as they were written;
* `ofBytes_toBytes`, `toBytes_ofBytes` — the same for a `BitVec` of whole bytes.
-/
import Mathlib.Tactic.Common
import Mathlib.Tactic.Ring

namespace BigEndian

/-- The `n` low-order bytes of `x`, most significant byte first. -/
def digits : ℕ → ℕ → List UInt8
  | 0, _ => []
  | n + 1, x => UInt8.ofNat (x / 256 ^ n) :: digits n x

/-- The number a byte string stands for, most significant byte first. -/
def value : List UInt8 → ℕ
  | [] => 0
  | b :: l => b.toNat * 256 ^ l.length + value l

@[simp] theorem digits_length (n x : ℕ) : (digits n x).length = n := by
  induction n with
  | zero => rfl
  | succ n ih => rw [digits, List.length_cons, ih]

theorem value_digits (n x : ℕ) : value (digits n x) = x % 256 ^ n := by
  induction n with
  | zero => rw [digits, value, pow_zero, Nat.mod_one]
  | succ n ih =>
    have hb : (UInt8.ofNat (x / 256 ^ n)).toNat = x / 256 ^ n % 256 := by simp
    rw [digits, value, digits_length, ih, hb, pow_succ, Nat.mod_mul]
    ring

theorem value_lt (l : List UInt8) : value l < 256 ^ l.length := by
  induction l with
  | nil => exact Nat.one_pos
  | cons b l ih =>
    have hb : b.toNat < 256 := b.toNat_lt
    rw [value, List.length_cons, pow_succ]
    have hle : (b.toNat + 1) * 256 ^ l.length ≤ 256 * 256 ^ l.length :=
      Nat.mul_le_mul_right _ hb
    rw [Nat.add_one_mul] at hle
    omega

theorem value_inj {l m : List UInt8} (hlen : l.length = m.length) (h : value l = value m) :
    l = m := by
  induction l generalizing m with
  | nil => exact (List.length_eq_zero_iff.1 hlen.symm).symm
  | cons b l ih =>
    obtain ⟨c, m, rfl⟩ := List.exists_cons_of_length_eq_add_one hlen.symm
    have hlen : l.length = m.length := Nat.succ.inj hlen
    have hl := value_lt l
    have hm := value_lt m
    rw [value, value, hlen] at h
    rw [hlen] at hl
    have hb : b.toNat = c.toNat := by
      have hdiv := congrArg (· / 256 ^ m.length) h
      have hpos : 0 < 256 ^ m.length := Nat.pow_pos (by decide)
      simp only [Nat.mul_comm _ (256 ^ m.length), Nat.mul_add_div hpos, Nat.div_eq_of_lt hl,
        Nat.div_eq_of_lt hm, Nat.add_zero] at hdiv
      exact hdiv
    rw [hb, Nat.add_left_cancel_iff] at h
    rw [UInt8.toNat_inj.1 hb, ih hlen h]

theorem digits_value (l : List UInt8) : digits l.length (value l) = l := by
  refine value_inj (digits_length _ _) ?_
  rw [value_digits, Nat.mod_eq_of_lt (value_lt l)]

/-! ### Machine words -/

/-- A word of `n` bytes as its byte string. -/
def toBytes (n : ℕ) (x : BitVec (8 * n)) : List UInt8 := digits n x.toNat

/-- The word of `n` bytes that a byte string stands for. -/
def ofBytes (n : ℕ) (l : List UInt8) : BitVec (8 * n) := BitVec.ofNat (8 * n) (value l)

@[simp] theorem toBytes_length (n : ℕ) (x : BitVec (8 * n)) : (toBytes n x).length = n :=
  digits_length n x.toNat

private theorem pow_256 (n : ℕ) : 256 ^ n = 2 ^ (8 * n) := by
  rw [pow_mul]
  norm_num

@[simp] theorem ofBytes_toBytes (n : ℕ) (x : BitVec (8 * n)) : ofBytes n (toBytes n x) = x := by
  apply BitVec.eq_of_toNat_eq
  rw [ofBytes, BitVec.toNat_ofNat, toBytes, value_digits, pow_256, Nat.mod_mod]
  exact Nat.mod_eq_of_lt x.isLt

theorem toBytes_ofBytes {n : ℕ} {l : List UInt8} (h : l.length = n) :
    toBytes n (ofBytes n l) = l := by
  have hlt : value l < 2 ^ (8 * n) := by
    rw [← pow_256, ← h]
    exact value_lt l
  rw [toBytes, ofBytes, BitVec.toNat_ofNat, Nat.mod_eq_of_lt hlt, ← h]
  exact digits_value l

theorem field_append {pre field post : List UInt8} {i n : ℕ}
    (hi : pre.length = i) (hn : field.length = n) :
    ((pre ++ (field ++ post)).drop i).take n = field := by
  subst hi hn
  rw [List.drop_left, List.take_left]

theorem toBytes_field {l : List UInt8} {i n : ℕ} (h : i + n ≤ l.length) :
    toBytes n (ofBytes n ((l.drop i).take n)) ++ l.drop (i + n) = l.drop i := by
  have hlen : ((l.drop i).take n).length = n := by
    rw [List.length_take, List.length_drop]
    omega
  rw [toBytes_ofBytes hlen, ← List.drop_drop, List.take_append_drop]

theorem toBytes_last_field {l : List UInt8} {i n : ℕ} (h : l.length = i + n) :
    toBytes n (ofBytes n ((l.drop i).take n)) = l.drop i := by
  have hf := toBytes_field h.ge
  rwa [← h, List.drop_length, List.append_nil] at hf

end BigEndian
