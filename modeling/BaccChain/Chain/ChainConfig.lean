import BaccChain.Chain.ResourceLimits

/-!
# The configuration of the chain

A configuration is accepted if it passes `ChainConfig.validate`. At the end of every block,
`finalize_block` computes the parameters of the elastic limits from it.
-/

namespace BaccChain

open Commons

def percent100 : UInt32 := 10000

def percent1 : UInt32 := 100

def minNetUsageDeltaBetweenBaseAndMaxForTrx : UInt32 := 10 * 1024

/-- `chain_config`, as far as it is read here. -/
structure ChainConfig where
  maxBlockNetUsage : UInt64
  targetBlockNetUsagePct : UInt32
  maxTransactionNetUsage : UInt32
  basePerTransactionNetUsage : UInt32
  contextFreeDiscountNetUsageNum : UInt32
  contextFreeDiscountNetUsageDen : UInt32
  maxBlockCpuUsage : UInt32
  targetBlockCpuUsagePct : UInt32
  maxTransactionCpuUsage : UInt32
  minTransactionCpuUsage : UInt32
  maxAuthorityDepth : UInt16
  deriving DecidableEq

namespace ChainConfig

def validate (c : ChainConfig) : Except String Unit := do
  check (c.targetBlockNetUsagePct ≤ percent100)
    "target block net usage percentage cannot exceed 100%"
  check (percent1 / 10 ≤ c.targetBlockNetUsagePct)
    "target block net usage percentage must be at least 0.1%"
  check (c.targetBlockCpuUsagePct ≤ percent100)
    "target block cpu usage percentage cannot exceed 100%"
  check (percent1 / 10 ≤ c.targetBlockCpuUsagePct)
    "target block cpu usage percentage must be at least 0.1%"
  check (c.maxTransactionNetUsage.toUInt64 < c.maxBlockNetUsage)
    "max transaction net usage must be less than max block net usage"
  check (c.maxTransactionCpuUsage < c.maxBlockCpuUsage)
    "max transaction cpu usage must be less than max block cpu usage"
  check (c.basePerTransactionNetUsage < c.maxTransactionNetUsage)
    "base net usage per transaction must be less than the max transaction net usage"
  check (minNetUsageDeltaBetweenBaseAndMaxForTrx ≤
      c.maxTransactionNetUsage - c.basePerTransactionNetUsage)
    "max transaction net usage must be at least 10240 bytes larger than base net usage per transaction"
  check (0 < c.contextFreeDiscountNetUsageDen)
    "net usage discount ratio for context free data cannot have a 0 denominator"
  check (c.contextFreeDiscountNetUsageNum ≤ c.contextFreeDiscountNetUsageDen)
    "net usage discount ratio for context free data cannot exceed 1"
  check (c.minTransactionCpuUsage ≤ c.maxTransactionCpuUsage)
    "min transaction cpu usage cannot exceed max transaction cpu usage"
  check (c.maxTransactionCpuUsage < c.maxBlockCpuUsage - c.minTransactionCpuUsage)
    ("max transaction cpu usage must be at less than the difference between the max block cpu " ++
      "usage and the min transaction cpu usage")
  check (1 ≤ c.maxAuthorityDepth) "max authority depth should be at least 1"

def eosPercent (value : UInt64) (percentage : UInt32) : UInt64 :=
  value * percentage.toUInt64 / percent100.toUInt64

/-- The parameters of an elastic limit, for a maximum and a target in percent of it. -/
def limitParameters (maximum : UInt64) (targetPct : UInt32) : ElasticLimitParameters where
  target := eosPercent maximum targetPct
  max := maximum
  periods := 60000 / 500
  maxMultiplier := 1000
  contractRate := ⟨99, 100⟩
  expandRate := ⟨1000, 999⟩

def cpuLimitParameters (c : ChainConfig) : ElasticLimitParameters :=
  limitParameters c.maxBlockCpuUsage.toUInt64 c.targetBlockCpuUsagePct

def netLimitParameters (c : ChainConfig) : ElasticLimitParameters :=
  limitParameters c.maxBlockNetUsage c.targetBlockNetUsagePct

end ChainConfig

namespace ResourceDb

def finalizeBlock (configuration : ChainConfig) (blockNum : UInt32) (db : ResourceDb) :
    Except String ResourceDb := do
  let db ← db.setBlockParameters configuration.cpuLimitParameters configuration.netLimitParameters
  db.processBlockUsage blockNum

end ResourceDb

/-- The calls of a block: those of its transactions, and the one at its end. -/
inductive BlockOperation
  | call (op : ResourceOperation)
  | finalize (configuration : ChainConfig) (blockNum : UInt32)

namespace BlockOperation

def exec : BlockOperation → ResourceDb → Except String ResourceDb
  | .call op, db => op.exec db
  | .finalize configuration blockNum, db => db.finalizeBlock configuration blockNum

end BlockOperation

end BaccChain
