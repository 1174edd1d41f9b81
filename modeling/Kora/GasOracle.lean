/-
The gas oracle (`estimate_recent_fees` in `node/rpc/src/eth.rs`).

The oracle samples prices and priority fees of the last blocks, takes a percentile of
each, and raises and caps both.

* `quote_covers_iff` — when the price covers the base fee with the priority fee; at a base
  fee of exactly the highest price it does not.
-/
import Kora.BaseFee
import Kora.Submission

open List

namespace Kora

/-! ### Words -/

namespace U256

variable (a b : U256)

def max : U256 := if a.toNat ≤ b.toNat then b else a

def min : U256 := if a.toNat ≤ b.toNat then a else b

@[simp] theorem toNat_max : (max a b).toNat = Max.max a.toNat b.toNat := by
  rw [max]
  split_ifs
  · omega
  · omega

@[simp] theorem toNat_min : (min a b).toNat = Min.min a.toNat b.toNat := by
  rw [min]
  split_ifs
  · omega
  · omega

@[simp] theorem toNat_saturatingAdd :
    (saturatingAdd a b).toNat = Min.min (a.toNat + b.toNat) (2 ^ 256 - 1) := by
  rw [saturatingAdd]
  split_ifs with h
  · rw [BitVec.toNat_add_of_lt h]
    omega
  · rw [BitVec.toNat_allOnes]
    omega

@[simp] theorem toNat_saturatingSub : (saturatingSub a b).toNat = a.toNat - b.toNat := by
  rw [saturatingSub]
  split_ifs with h
  · exact BitVec.toNat_sub_of_le h
  · exact (Nat.sub_eq_zero_of_le (Nat.le_of_not_le h)).symm

end U256

/-! ### Samples -/

inductive BlockTransactions where
  | hashes (hashes : List B256)
  | full (txs : List RpcTransaction)

/-- A block as it is shown to callers, as far as the oracle reads it. -/
structure RpcBlock where
  baseFeePerGas : Option U256
  transactions : BlockTransactions

def GWEI : ℕ := 1000000000

def defaultBaseFee : U256 := .ofNat 256 GWEI

def RpcBlock.baseFee (self : RpcBlock) : U256 := self.baseFeePerGas.getD defaultBaseFee

namespace RpcTransaction

variable (tx : RpcTransaction) (baseFee : U256)

/-- The types 2, 3 and 4. -/
def isDynamicFeeType : Bool := tx.txType.toNat ≥ 2

def effectivePriorityFee : U256 :=
  match tx.maxFeePerGas, tx.maxPriorityFeePerGas with
  | some maxFee, some maxPriorityFee => U256.min maxPriorityFee (maxFee.saturatingSub baseFee)
  | _, _ => if tx.isDynamicFeeType then 0 else tx.gasPrice.saturatingSub baseFee

/-- The price that the transaction actually paid. -/
def effectiveGasPriceForSampling : U256 :=
  match tx.maxFeePerGas, tx.maxPriorityFeePerGas with
  | some maxFee, some maxPriorityFee =>
    let tip := U256.min maxPriorityFee (maxFee.saturatingSub baseFee)
    U256.min (baseFee.saturatingAdd tip) maxFee
  | _, _ => tx.gasPrice

end RpcTransaction

structure FeeSamples where
  gasPrices : List U256
  priorityFees : List U256
  latestBaseFee : Option U256

def FeeSamples.add (self : FeeSamples) (block : RpcBlock) : FeeSamples :=
  let txs := match block.transactions with
    | .full txs => txs
    | .hashes _ => []
  { gasPrices := self.gasPrices ++ txs.map (·.effectiveGasPriceForSampling block.baseFee)
    priorityFees := self.priorityFees ++ txs.map (·.effectivePriorityFee block.baseFee)
    latestBaseFee := some block.baseFee }

def percentileValue (values : List U256) (percentile : ℕ) : Option U256 :=
  let sorted := values.insertionSort (·.toNat ≤ ·.toNat)
  sorted[min (values.length * min percentile 100 / 100) (values.length - 1)]?

/-! ### The quote -/

structure GasOracleConfig where
  blocks : ℕ
  percentile : ℕ
  minPrice : U256
  maxPrice : U256
  minPriorityFee : U256

namespace GasOracleConfig

def default : GasOracleConfig where
  blocks := 20
  percentile := 60
  minPrice := .ofNat 256 GWEI
  maxPrice := .ofNat 256 (500 * GWEI)
  minPriorityFee := .ofNat 256 GWEI

/-- The blocks looked at that are found, oldest first; one that cannot be fetched is skipped. -/
def recentBlocks (config : GasOracleConfig) (blockByNumber : ℕ → Option RpcBlock) (head : ℕ) :
    List RpcBlock :=
  let start := head - (max config.blocks 1 - 1)
  (range' start (head + 1 - start)).filterMap blockByNumber

end GasOracleConfig

structure GasOracleEstimate where
  gasPrice : U256
  priorityFee : U256

namespace GasOracleConfig

variable (config : GasOracleConfig)

/-- The priority fee before it is capped. -/
def sampledPriorityFee (samples : FeeSamples) : U256 :=
  U256.max ((percentileValue samples.priorityFees config.percentile).getD config.minPriorityFee)
    config.minPriorityFee

def estimate (samples : FeeSamples) : GasOracleEstimate :=
  let latestBaseFee := samples.latestBaseFee.getD defaultBaseFee
  -- only a base fee below the highest price leaves room for a cap
  let priorityFee :=
    if latestBaseFee.toNat < config.maxPrice.toNat then
      U256.min (config.sampledPriorityFee samples) (config.maxPrice.saturatingSub latestBaseFee)
    else config.sampledPriorityFee samples
  let minGasPrice := U256.max config.minPrice (latestBaseFee.saturatingAdd priorityFee)
  let gasPrice := U256.max
    ((percentileValue samples.gasPrices config.percentile).getD minGasPrice) minGasPrice
  { gasPrice :=
      if latestBaseFee.toNat ≤ config.maxPrice.toNat then U256.min gasPrice config.maxPrice
      else gasPrice
    priorityFee }

end GasOracleConfig

def FeeSamples.sample (blocks : List RpcBlock) : FeeSamples := blocks.foldl add ⟨[], [], none⟩

def estimateRecentFees (blockByNumber : ℕ → Option RpcBlock) (head : ℕ)
    (config : GasOracleConfig) : GasOracleEstimate :=
  config.estimate (.sample (config.recentBlocks blockByNumber head))

theorem latestBaseFee_sample (blocks : List RpcBlock) :
    (FeeSamples.sample blocks).latestBaseFee = blocks.getLast?.map RpcBlock.baseFee := by
  induction blocks using List.reverseRecOn with
  | nil => rfl
  | append_singleton blocks block ih =>
    rw [FeeSamples.sample, foldl_append, getLast?_concat]
    rfl

def latestBaseFee (blocks : List RpcBlock) : U256 :=
  (blocks.getLast?.map RpcBlock.baseFee).getD defaultBaseFee

/-- **The price covers the base fee and the priority fee** if the base fee is below the highest
price, if there is no priority fee, or if the base fee is above the highest price and the sum is a
word. -/
theorem quote_covers_iff (blockByNumber : ℕ → Option RpcBlock) (head : ℕ)
    (config : GasOracleConfig) :
    ((latestBaseFee (config.recentBlocks blockByNumber head)).toNat +
        (estimateRecentFees blockByNumber head config).priorityFee.toNat ≤
          (estimateRecentFees blockByNumber head config).gasPrice.toNat ↔
      (latestBaseFee (config.recentBlocks blockByNumber head)).toNat < config.maxPrice.toNat ∨
      (config.sampledPriorityFee (.sample (config.recentBlocks blockByNumber head))).toNat = 0 ∨
      config.maxPrice.toNat < (latestBaseFee (config.recentBlocks blockByNumber head)).toNat ∧
        (latestBaseFee (config.recentBlocks blockByNumber head)).toNat +
          (config.sampledPriorityFee (.sample (config.recentBlocks blockByNumber head))).toNat <
            2 ^ 256) ∧
    ((latestBaseFee (config.recentBlocks blockByNumber head)).toNat ≤ config.maxPrice.toNat →
      (estimateRecentFees blockByNumber head config).gasPrice.toNat ≤ config.maxPrice.toNat) := by
  set blocks := config.recentBlocks blockByNumber head
  have hbase : (FeeSamples.sample blocks).latestBaseFee.getD defaultBaseFee =
      latestBaseFee blocks := by
    rw [latestBaseFee_sample, latestBaseFee]
  have hword := (config.sampledPriorityFee (.sample blocks)).isLt
  rw [show estimateRecentFees blockByNumber head config = config.estimate (.sample blocks) from rfl]
  simp only [GasOracleConfig.estimate, hbase]
  generalize latestBaseFee blocks = base at *
  generalize config.sampledPriorityFee (.sample blocks) = fee at *
  -- the three positions of the base fee to the highest price
  rcases lt_trichotomy base.toNat config.maxPrice.toNat with hlt | heq | hgt
  · simp only [if_pos hlt, if_pos hlt.le, U256.toNat_min, U256.toNat_max, U256.toNat_saturatingAdd,
      U256.toNat_saturatingSub]
    omega
  · simp only [if_neg heq.not_lt, if_pos heq.le, U256.toNat_min, U256.toNat_max,
      U256.toNat_saturatingAdd]
    omega
  · simp only [if_neg hgt.not_gt, if_neg hgt.not_ge, U256.toNat_max, U256.toNat_saturatingAdd]
    omega

/-- Defaults and a base fee of 500 gwei: the price is the base fee, the priority fee 1 gwei. -/
theorem quote_too_low :
    ¬ ∀ (blockByNumber : ℕ → Option RpcBlock) (head : ℕ) (config : GasOracleConfig),
      (latestBaseFee (config.recentBlocks blockByNumber head)).toNat +
        (estimateRecentFees blockByNumber head config).priorityFee.toNat ≤
          (estimateRecentFees blockByNumber head config).gasPrice.toNat ∧
      ((latestBaseFee (config.recentBlocks blockByNumber head)).toNat ≤ config.maxPrice.toNat →
        config.minPrice.toNat ≤ config.maxPrice.toNat →
        (estimateRecentFees blockByNumber head config).gasPrice.toNat ≤
          config.maxPrice.toNat) := by
  intro h
  have hlow := (h (fun _ => some ⟨some (.ofNat 256 (500 * GWEI)), .full []⟩) 0 .default).1
  exact absurd hlow (by decide)

end Kora
