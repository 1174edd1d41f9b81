/-
The arithmetic of the base fee (`calculate_base_fee` in `node/executor/src/revm.rs`,
`calculate_next_base_fee` in `node/rpc/src/eth.rs`).

The executor computes in `u64` and `u128`, with a saturating product and a narrowing cast,
the RPC in 256-bit words. Both give the value of EIP-1559's formula (`base_fee_exact`),
since the change of the fee is a fraction of the fee (`feeChange_le`).
-/
import Kora.Block
import Kora.QmdbStore
import Mathlib.Algebra.Order.Ring.Int

namespace Kora

/-! ### The formula -/

namespace Eip1559

def ELASTICITY_MULTIPLIER : ℤ := 2

def BASE_FEE_MAX_CHANGE_DENOMINATOR : ℤ := 8

/-- The change of the base fee for a distance of the gas used from the target. -/
def baseFeePerGasDelta (parentFee distance target : ℤ) : ℤ :=
  parentFee * distance / target / BASE_FEE_MAX_CHANGE_DENOMINATOR

def nextBaseFee (parentFee gasUsed gasLimit : ℤ) : ℤ :=
  let target := gasLimit / ELASTICITY_MULTIPLIER
  if gasUsed = target then parentFee
  else if gasUsed > target then
    parentFee + max (baseFeePerGasDelta parentFee (gasUsed - target) target) 1
  else parentFee - baseFeePerGasDelta parentFee (target - gasUsed) target

theorem baseFeePerGasDelta_natCast (fee distance target : ℕ) :
    baseFeePerGasDelta fee distance target = ((fee * distance / target / 8 : ℕ) : ℤ) := by
  rw [baseFeePerGasDelta, BASE_FEE_MAX_CHANGE_DENOMINATOR]
  push_cast
  rfl

end Eip1559

/-! ### The RPC's computation -/

def U256.saturatingAdd (a b : U256) : U256 :=
  if a.toNat + b.toNat < 2 ^ 256 then a + b else BitVec.allOnes 256

def U256.saturatingSub (a b : U256) : U256 :=
  if b.toNat ≤ a.toNat then a - b else 0

/-- The change of the base fee in 256-bit words, where a product wraps. -/
def feeChange (parentBaseFee : U256) (gasUsedDelta parentGasTarget : ℕ) : U256 :=
  parentBaseFee * BitVec.ofNat 256 gasUsedDelta / BitVec.ofNat 256 parentGasTarget / 8

/-- The base fee the RPC reports for the next block. -/
def calculateNextBaseFee (parentBaseFee : U256) (parentGasUsed parentGasLimit : ℕ) : U256 :=
  let parentGasTarget := parentGasLimit / 2
  if parentGasTarget = 0 ∨ parentGasUsed = parentGasTarget then parentBaseFee
  else if parentGasUsed > parentGasTarget then
    let baseFeeDelta := feeChange parentBaseFee (parentGasUsed - parentGasTarget) parentGasTarget
    parentBaseFee.saturatingAdd (if baseFeeDelta < 1 then 1 else baseFeeDelta)
  else
    let baseFeeDelta := feeChange parentBaseFee (parentGasTarget - parentGasUsed) parentGasTarget
    parentBaseFee.saturatingSub baseFeeDelta

/-! ### Widths -/

variable {fee distance target : ℕ}

/-- **The change**: an eighth of the fee for each time that the distance goes into the target. -/
theorem feeChange_le {times : ℕ} (h : distance ≤ times * target) :
    8 * (fee * distance / target / 8) ≤ times * fee := by
  have hr : fee * distance / target ≤ times * fee := by
    refine Nat.div_le_of_le_mul ?_
    calc fee * distance ≤ fee * (times * target) := Nat.mul_le_mul_left fee h
      _ = target * (times * fee) := by ring
  omega

theorem baseFeeDelta_eq (hfee : fee < 2 ^ 64) (hd : distance < 2 ^ 64) :
    baseFeeDelta fee distance target BaseFeeParams.DEFAULT.maxChangeDenominator =
      fee * distance / target / 8 := by
  have hp : fee * distance < 2 ^ 64 * 2 ^ 64 := Nat.mul_lt_mul'' hfee hd
  rw [baseFeeDelta, Nat.min_eq_left (by omega)]
  rfl

theorem toNat_feeChange (hfee : fee < 2 ^ 64) (hd : distance < 2 ^ 64)
    (ht : target < 2 ^ 64) :
    (feeChange (BitVec.ofNat 256 fee) distance target).toNat = fee * distance / target / 8 := by
  have hw : ∀ n < 2 ^ 64, (BitVec.ofNat 256 n).toNat = n := fun n hn =>
    Nat.mod_eq_of_lt (hn.trans (by decide))
  have hp : fee * distance < 2 ^ 64 * 2 ^ 64 := Nat.mul_lt_mul'' hfee hd
  rw [feeChange, BitVec.toNat_udiv, BitVec.toNat_udiv, BitVec.toNat_mul, hw fee hfee,
    hw distance hd, hw target ht, Nat.mod_eq_of_lt (hp.trans (by decide))]
  rfl

theorem toNat_ite_lt_one (x : U256) : (if x < 1 then 1 else x).toNat = max x.toNat 1 := by
  have hone : (1 : U256).toNat = 1 := rfl
  split
  · next h =>
    rw [BitVec.lt_def] at h
    omega
  · next h =>
    rw [BitVec.lt_def] at h
    omega

/-! ### Above and below the target -/

section

variable {used limit : ℕ}

/-- The gas used is at most twice the target and one: the change is at most a quarter of the fee. -/
theorem feeChange_above_lt (hfee : fee < 2 ^ 64) (hl : 2 ≤ limit) (hu : used ≤ limit) :
    fee * (used - limit / 2) / (limit / 2) / 8 < 2 ^ 64 := by
  have hle : 8 * (fee * (used - limit / 2) / (limit / 2) / 8) ≤ 2 * fee :=
    feeChange_le (by omega)
  omega

theorem calculateBaseFee_above (hfee : fee < 2 ^ 64) (hl : 2 ≤ limit)
    (hlimit64 : limit < 2 ^ 64) (hu : used ≤ limit) (ha : limit / 2 < used)
    (hf : fee + max (fee * (used - limit / 2) / (limit / 2) / 8) 1 < 2 ^ 64) :
    calculateBaseFee fee used limit BaseFeeParams.DEFAULT =
      fee + max (fee * (used - limit / 2) / (limit / 2) / 8) 1 := by
  have hlt := feeChange_above_lt hfee hl hu
  have ht : limit / BaseFeeParams.DEFAULT.elasticityMultiplier = limit / 2 := rfl
  rw [calculateBaseFee]
  dsimp only
  rw [ht, if_neg ha.ne', if_pos ha, baseFeeDelta_eq hfee (by omega)]
  omega

theorem calculateNextBaseFee_above (hfee : fee < 2 ^ 64) (hl : 2 ≤ limit)
    (hlimit64 : limit < 2 ^ 64) (hu : used ≤ limit) (ha : limit / 2 < used)
    (hf : fee + max (fee * (used - limit / 2) / (limit / 2) / 8) 1 < 2 ^ 64) :
    (calculateNextBaseFee (BitVec.ofNat 256 fee) used limit).toNat =
      fee + max (fee * (used - limit / 2) / (limit / 2) / 8) 1 := by
  have hc := toNat_feeChange hfee (show used - limit / 2 < 2 ^ 64 by omega)
    (show limit / 2 < 2 ^ 64 by omega)
  have hw : (BitVec.ofNat 256 fee).toNat = fee := Nat.mod_eq_of_lt (hfee.trans (by decide))
  rw [calculateNextBaseFee]
  dsimp only
  rw [if_neg (by omega), if_pos ha, U256.saturatingAdd, hw, toNat_ite_lt_one, hc,
    if_pos (hf.trans (by decide)), BitVec.toNat_add, hw, toNat_ite_lt_one, hc,
    Nat.mod_eq_of_lt (hf.trans (by decide))]

theorem nextBaseFee_above (ha : limit / 2 < used) :
    Eip1559.nextBaseFee fee used limit =
      ((fee + max (fee * (used - limit / 2) / (limit / 2) / 8) 1 : ℕ) : ℤ) := by
  have ht : (limit : ℤ) / Eip1559.ELASTICITY_MULTIPLIER = ((limit / 2 : ℕ) : ℤ) := rfl
  rw [Eip1559.nextBaseFee, ht, if_neg (by omega), if_pos (by omega), ← Nat.cast_sub ha.le,
    Eip1559.baseFeePerGasDelta_natCast, Nat.cast_add, Nat.cast_max,
    Nat.cast_one]

theorem calculateBaseFee_below (hfee : fee < 2 ^ 64) (hlimit64 : limit < 2 ^ 64)
    (hb : used < limit / 2) :
    calculateBaseFee fee used limit BaseFeeParams.DEFAULT =
      fee - fee * (limit / 2 - used) / (limit / 2) / 8 := by
  have hle : 8 * (fee * (limit / 2 - used) / (limit / 2) / 8) ≤ 1 * fee :=
    feeChange_le (by omega)
  have ht : limit / BaseFeeParams.DEFAULT.elasticityMultiplier = limit / 2 := rfl
  rw [calculateBaseFee]
  dsimp only
  rw [ht, if_neg hb.ne, if_neg (by omega), baseFeeDelta_eq hfee (by omega)]
  omega

theorem calculateNextBaseFee_below (hfee : fee < 2 ^ 64) (hlimit64 : limit < 2 ^ 64)
    (hb : used < limit / 2) :
    (calculateNextBaseFee (BitVec.ofNat 256 fee) used limit).toNat =
      fee - fee * (limit / 2 - used) / (limit / 2) / 8 := by
  have hle : 8 * (fee * (limit / 2 - used) / (limit / 2) / 8) ≤ 1 * fee :=
    feeChange_le (by omega)
  have hc := toNat_feeChange hfee (show limit / 2 - used < 2 ^ 64 by omega)
    (show limit / 2 < 2 ^ 64 by omega)
  have hw : (BitVec.ofNat 256 fee).toNat = fee := Nat.mod_eq_of_lt (hfee.trans (by decide))
  have hr : (feeChange (BitVec.ofNat 256 fee) (limit / 2 - used) (limit / 2)).toNat ≤
      (BitVec.ofNat 256 fee).toNat := by omega
  rw [calculateNextBaseFee]
  dsimp only
  rw [if_neg (by omega), if_neg (by omega), U256.saturatingSub, if_pos hr,
    BitVec.toNat_sub_of_le (BitVec.le_def.2 hr), hw, hc]

theorem nextBaseFee_below (hb : used < limit / 2) :
    Eip1559.nextBaseFee fee used limit =
      ((fee - fee * (limit / 2 - used) / (limit / 2) / 8 : ℕ) : ℤ) := by
  have hle : 8 * (fee * (limit / 2 - used) / (limit / 2) / 8) ≤ 1 * fee :=
    feeChange_le (by omega)
  have ht : (limit : ℤ) / Eip1559.ELASTICITY_MULTIPLIER = ((limit / 2 : ℕ) : ℤ) := rfl
  rw [Eip1559.nextBaseFee, ht, if_neg (by omega), if_neg (by omega), ← Nat.cast_sub hb.le,
    Eip1559.baseFeePerGasDelta_natCast, ← Nat.cast_sub (by omega)]

end

/-- **The base fee is exact.** If the value of the formula fits `u64`, neither computation loses
anything: both give that value, and the fee falls by at most an eighth. -/
theorem base_fee_exact (fee used limit : ℕ) (hfee : fee < 2 ^ 64) (hlimit : 2 ≤ limit)
    (hlimit64 : limit < 2 ^ 64) (hused : used ≤ limit)
    (hfits : Eip1559.nextBaseFee fee used limit < 2 ^ 64) :
    (calculateBaseFee fee used limit BaseFeeParams.DEFAULT : ℤ) =
        Eip1559.nextBaseFee fee used limit ∧
    (∀ distance, distance = used - limit / 2 ∨ distance = limit / 2 - used →
      fee * distance < 2 ^ 128 ∧ fee * distance / (limit / 2) / 8 < 2 ^ 64) ∧
    7 * fee ≤ 8 * calculateBaseFee fee used limit BaseFeeParams.DEFAULT ∧
    (calculateNextBaseFee (BitVec.ofNat 256 fee) used limit).toNat =
      calculateBaseFee fee used limit BaseFeeParams.DEFAULT := by
  have hw : ∀ distance, distance = used - limit / 2 ∨ distance = limit / 2 - used →
      fee * distance < 2 ^ 128 ∧ fee * distance / (limit / 2) / 8 < 2 ^ 64 := by
    intro distance hd
    have hp : fee * distance < 2 ^ 64 * 2 ^ 64 := Nat.mul_lt_mul'' hfee (by omega)
    have hle : 8 * (fee * distance / (limit / 2) / 8) ≤ 2 * fee := feeChange_le (by omega)
    exact ⟨by omega, by omega⟩
  rcases Nat.lt_trichotomy used (limit / 2) with hb | he | ha
  · have hle : 8 * (fee * (limit / 2 - used) / (limit / 2) / 8) ≤ 1 * fee :=
      feeChange_le (by omega)
    rw [calculateBaseFee_below hfee hlimit64 hb, nextBaseFee_below hb,
      calculateNextBaseFee_below hfee hlimit64 hb]
    exact ⟨rfl, hw, by omega, rfl⟩
  · have hfee' : calculateBaseFee fee used limit BaseFeeParams.DEFAULT = fee := if_pos he
    have hex : Eip1559.nextBaseFee fee used limit = fee :=
      if_pos (congrArg (Nat.cast : ℕ → ℤ) he)
    have hrpc : calculateNextBaseFee (BitVec.ofNat 256 fee) used limit = BitVec.ofNat 256 fee :=
      if_pos (.inr he)
    rw [hfee', hex, hrpc]
    exact ⟨rfl, hw, by omega, Nat.mod_eq_of_lt (hfee.trans (by decide))⟩
  · rw [nextBaseFee_above ha] at hfits ⊢
    have hfits' : fee + max (fee * (used - limit / 2) / (limit / 2) / 8) 1 < 2 ^ 64 := by
      exact_mod_cast hfits
    rw [calculateBaseFee_above hfee hlimit hlimit64 hused ha hfits',
      calculateNextBaseFee_above hfee hlimit hlimit64 hused ha hfits']
    exact ⟨rfl, hw, by omega, rfl⟩

theorem base_fee_exact_ten_gwei :
    Eip1559.nextBaseFee 10000000000 20000000 30000000 = 10416666666 ∧
    (calculateBaseFee 10000000000 20000000 30000000 BaseFeeParams.DEFAULT : ℤ) = 10416666666 := by
  have he : Eip1559.nextBaseFee 10000000000 20000000 30000000 = 10416666666 := by decide
  have hall := base_fee_exact 10000000000 20000000 30000000 (by decide) (by decide) (by decide)
    (by decide) (lt_of_eq_of_lt he (by decide))
  exact ⟨he, hall.1.trans he⟩

end Kora
