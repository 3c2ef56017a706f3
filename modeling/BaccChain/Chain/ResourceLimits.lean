import BaccChain.Chainbase.GenericIndex
import BaccChain.Commons.Program
import BaccChain.Eosiolib.Name
import Mathlib.Data.Prod.Lex

/-!
# Limits of CPU and NET

What an account has used of CPU and NET is kept as a moving average over a window of time slots.

## Main definitions

* `UsageAccumulator`, `addTransactionUsage`, `getAccountLimitEx`: use and limits
-/

namespace BaccChain

open Commons

/-! ## Arithmetic -/

def rateLimitingPrecision : Nat := 1000 * 1000

/-- Division, rounded up. -/
def integerDivideCeil (num den : Nat) : Nat := num / den + if 0 < num % den then 1 else 0

theorem le_integerDivideCeil_mul (num den : Nat) (h : 0 < den) :
    num ≤ integerDivideCeil num den * den := by
  have hmod := Nat.mod_lt num h
  have hdiv := Nat.div_add_mod' num den
  rw [integerDivideCeil, Nat.add_mul]
  split_ifs <;> omega

theorem integerDivideCeil_mul_lt (num den : Nat) (h : 0 < den) :
    integerDivideCeil num den * den < num + den := by
  have hdiv := Nat.div_add_mod' num den
  rw [integerDivideCeil, Nat.add_mul]
  split_ifs <;> omega

theorem integerDivideCeil_le (num den : Nat) : integerDivideCeil num den ≤ num / den + 1 := by
  rw [integerDivideCeil]
  split_ifs <;> omega

def downgradeCast (max val : Nat) : Except String Nat := do
  check (val ≤ max)
    "Casting a higher bit integer value to a lower bit integer value which cannot contain the value"
  pure val

/-- A ratio of unsigned numbers. -/
structure Ratio where
  numerator : UInt64
  denominator : UInt64
  deriving DecidableEq

def usageExceedsMaximum : String :=
  "Usage exceeds maximum value representable after extending for precision"

/-- `operator*`: no overflow is let pass. -/
def Ratio.scale (value : UInt64) (r : Ratio) : Except String UInt64 := do
  check (r.numerator = 0 ∨ value.toNat ≤ (2 ^ 64 - 1) / r.numerator.toNat) usageExceedsMaximum
  check (r.denominator ≠ 0) "division by zero"
  pure (value * r.numerator / r.denominator)

/-! ## The moving average -/

/-- `exponential_moving_average_accumulator`, whose precision is an argument of its functions -/
@[ext] structure UsageAccumulator where
  lastOrdinal : UInt32 := 0
  /-- The average, multiplied by the precision. -/
  valueEx : UInt64 := 0
  consumed : UInt64 := 0
  deriving DecidableEq

namespace UsageAccumulator

def maxRawValue (precision : Nat := rateLimitingPrecision) : Nat := (2 ^ 64 - 1) / precision

/-- The average, rounded up. -/
def average (u : UsageAccumulator) (precision : Nat := rateLimitingPrecision) : UInt64 :=
  UInt64.ofNat (integerDivideCeil u.valueEx.toNat precision)

/-- What is left of the average at a later ordinal. -/
def decay (u : UsageAccumulator) (ordinal windowSize : UInt32) : Except String UInt64 :=
  if u.lastOrdinal.toNat + windowSize.toNat > ordinal.toNat then
    Ratio.scale u.valueEx
      ⟨windowSize.toUInt64 - (ordinal - u.lastOrdinal).toUInt64, windowSize.toUInt64⟩
  else pure 0

/-- The accumulator at an ordinal. -/
def advanceTo (u : UsageAccumulator) (ordinal windowSize : UInt32)
    (precision : Nat := rateLimitingPrecision) : Except String UsageAccumulator :=
  if u.lastOrdinal = ordinal then pure u
  else do
    check (u.lastOrdinal < ordinal) "new ordinal cannot be less than the previous ordinal"
    let valueEx ← u.decay ordinal windowSize
    let u := { u with valueEx, lastOrdinal := ordinal }
    pure { u with consumed := u.average precision }

/-- What an amount adds to the average. -/
def contribution (units : UInt64) (windowSize : UInt32)
    (precision : Nat := rateLimitingPrecision) : Except String Nat := do
  check (windowSize ≠ 0) "division by zero"
  downgradeCast (2 ^ 64 - 1) (integerDivideCeil (units.toNat * precision) windowSize.toNat)

/-- `exponential_moving_average_accumulator::add`. -/
def add (units : UInt64) (ordinal windowSize : UInt32) (u : UsageAccumulator)
    (precision : Nat := rateLimitingPrecision) : Except String UsageAccumulator := do
  check (units.toNat ≤ maxRawValue precision) usageExceedsMaximum
  check (units.toNat ≤ 2 ^ 64 - 1 - u.consumed.toNat) "Overflow in tracked usage when adding usage!"
  let valueExContrib ← contribution units windowSize precision
  check (valueExContrib ≤ 2 ^ 64 - 1 - u.valueEx.toNat)
    "Overflow in accumulated value when adding usage!"
  let u ← u.advanceTo ordinal windowSize precision
  pure { u with consumed := u.consumed + units, valueEx := u.valueEx + UInt64.ofNat valueExContrib }

end UsageAccumulator

/-! ## The database -/

/-- The resources that are limited in this way. -/
inductive Resource
  | cpu
  | net
  deriving DecidableEq

/-- How a virtual limit grows and shrinks. -/
structure ElasticLimitParameters where
  target : UInt64
  max : UInt64
  periods : UInt32
  maxMultiplier : UInt32
  contractRate : Ratio
  expandRate : Ratio
  deriving DecidableEq

def ElasticLimitParameters.validate (p : ElasticLimitParameters) : Except String Unit := do
  check (0 < p.periods) "elastic limit parameter 'periods' cannot be zero"
  check (0 < p.contractRate.denominator)
    "elastic limit parameter 'contract_rate' is not a well-defined ratio"
  check (0 < p.expandRate.denominator)
    "elastic limit parameter 'expand_rate' is not a well-defined ratio"

/-- The guaranteed minimum for each account. -/
structure GmrParameters where
  ramByte : UInt64
  cpuUs : UInt64
  netByte : UInt64
  deriving DecidableEq

/-- The RAM is unsigned, so there is nothing to check about it. -/
def GmrParameters.validate (p : GmrParameters) : Except String Unit := do
  check (0 < p.cpuUs) "guaranteed minmum resources parameter 'cpu_us' cannot be zero"
  check (0 < p.netByte) "guaranteed minmum resources parameter 'net_byte' cannot be zero"

/-- `resource_limits_object`: `-1` is no limit. -/
structure ResourceLimitsObject where
  netWeight : Int := -1
  cpuWeight : Int := -1
  ramBytes : Int := -1
  deriving DecidableEq

def ResourceLimitsObject.weight (l : ResourceLimitsObject) : Resource → Int
  | .cpu => l.cpuWeight
  | .net => l.netWeight

/-- `resource_usage_object`, without the RAM. -/
structure ResourceUsageObject where
  netUsage : UsageAccumulator := {}
  cpuUsage : UsageAccumulator := {}
  deriving DecidableEq

def ResourceUsageObject.usage (u : ResourceUsageObject) : Resource → UsageAccumulator
  | .cpu => u.cpuUsage
  | .net => u.netUsage

/-- `resource_limits_config_object`, with blocks of half a second -/
structure ResourceLimitsConfig where
  cpuLimitParameters : ElasticLimitParameters :=
    ⟨100000, 1000000, 120, 1000, ⟨99, 100⟩, ⟨1000, 999⟩⟩
  netLimitParameters : ElasticLimitParameters :=
    ⟨104857, 1048576, 120, 1000, ⟨99, 100⟩, ⟨1000, 999⟩⟩
  accountCpuUsageAverageWindow : UInt32 := 172800
  accountNetUsageAverageWindow : UInt32 := 172800
  deriving DecidableEq

namespace ResourceLimitsConfig

def limitParameters (c : ResourceLimitsConfig) : Resource → ElasticLimitParameters
  | .cpu => c.cpuLimitParameters
  | .net => c.netLimitParameters

def accountUsageAverageWindow (c : ResourceLimitsConfig) : Resource → UInt32
  | .cpu => c.accountCpuUsageAverageWindow
  | .net => c.accountNetUsageAverageWindow

end ResourceLimitsConfig

/-- `resource_limits_state_object`: the virtual limits start as those of a congested chain. -/
structure ResourceLimitsState where
  averageBlockNetUsage : UsageAccumulator := {}
  averageBlockCpuUsage : UsageAccumulator := {}
  pendingNetUsage : UInt64 := 0
  pendingCpuUsage : UInt64 := 0
  totalNetWeight : UInt64 := 0
  totalCpuWeight : UInt64 := 0
  totalRamBytes : UInt64 := 0
  virtualNetLimit : UInt64 := 1048576
  virtualCpuLimit : UInt64 := 1000000
  deriving DecidableEq

namespace ResourceLimitsState

def totalWeight (s : ResourceLimitsState) : Resource → UInt64
  | .cpu => s.totalCpuWeight
  | .net => s.totalNetWeight

def virtualLimit (s : ResourceLimitsState) : Resource → UInt64
  | .cpu => s.virtualCpuLimit
  | .net => s.virtualNetLimit

end ResourceLimitsState

/-- The objects of the resource limits manager. -/
structure ResourceDb where
  config : ResourceLimitsConfig := {}
  gmr : GmrParameters := ⟨64 * 1024, 800000, 32 * 1024⟩
  state : ResourceLimitsState := {}
  limits : Table (Bool ×ₗ Name) ResourceLimitsObject := .empty
  usages : Table Name ResourceUsageObject := .empty

namespace ResourceDb

variable (db : ResourceDb)

def getLimits (pending : Bool) (account : Name) : Except String ResourceLimitsObject :=
  match db.limits.find (toLex (pending, account)) with
  | some l => pure l
  | none => .error "unknown key"

def getUsage (account : Name) : Except String ResourceUsageObject :=
  match db.usages.find account with
  | some u => pure u
  | none => .error "unknown key"

def setUsage (account : Name) (u : ResourceUsageObject) : ResourceDb :=
  { db with usages := db.usages.insert account u }

def setLimits (pending : Bool) (account : Name) (l : ResourceLimitsObject) : ResourceDb :=
  { db with limits := db.limits.insert (toLex (pending, account)) l }

/-! ## Configuration -/

/-- `initialize_account`. -/
def initializeAccount (account : Name) : Except String ResourceDb := do
  check (db.limits.find (toLex (false, account)) = none) uniquenessViolated
  check (db.usages.find account = none) uniquenessViolated
  pure ((db.setLimits false account {}).setUsage account {})

def setGmrParameters (p : GmrParameters) : Except String ResourceDb := do
  p.validate
  pure { db with gmr := p }

def setBlockParameters (cpuLimitParameters netLimitParameters : ElasticLimitParameters) :
    Except String ResourceDb := do
  cpuLimitParameters.validate
  netLimitParameters.validate
  pure { db with config := { db.config with cpuLimitParameters, netLimitParameters } }

/-! ## Weights of accounts -/

/-- The pending limits of an account, if there are any. The weights are read from these; the RAM
limit is computed from other tables. -/
def getAccountLimits (account : Name) : Except String ResourceLimitsObject :=
  match db.limits.find (toLex (true, account)) with
  | some l => pure l
  | none => db.getLimits false account

/-- `set_account_limits`: the limits are pending. -/
def setAccountLimits (account : Name) (ramBytes netWeight cpuWeight : Int) :
    Except String (Bool × ResourceDb) := do
  let limits ← db.getAccountLimits account
  let decreased := 0 ≤ ramBytes ∧ (limits.ramBytes < 0 ∨ ramBytes < limits.ramBytes)
  pure (decreased, db.setLimits true account { ramBytes, netWeight, cpuWeight })

def revertValue (which : String) (total : UInt64) (value : Int) : Except String UInt64 :=
  if 0 < value then do
    check (value ≤ total.toNat) ("underflow when reverting old value to " ++ which)
    pure (total - UInt64.ofNat value.toNat)
  else pure total

def applyValue (which : String) (total : UInt64) (pendingValue : Int) : Except String UInt64 :=
  if 0 < pendingValue then do
    check (pendingValue ≤ 2 ^ 64 - 1 - (total.toNat : Int))
      ("overflow when applying new value to " ++ which)
    pure (total + UInt64.ofNat pendingValue.toNat)
  else pure total

/-- An old value goes out of a total, a new one in. -/
def updateStateAndValue (which : String) (total : UInt64) (value pendingValue : Int) :
    Except String UInt64 := do
  let total ← revertValue which total value
  applyValue which total pendingValue

/-- Pending limits become the actual ones. -/
def updateAccountLimits (owner : Name) (pending : ResourceLimitsObject) :
    Except String ResourceDb := do
  let actual ← db.getLimits false owner
  let totalRamBytes ←
    updateStateAndValue "ram_bytes" db.state.totalRamBytes actual.ramBytes pending.ramBytes
  let totalCpuWeight ←
    updateStateAndValue "cpu_weight" db.state.totalCpuWeight actual.cpuWeight pending.cpuWeight
  let totalNetWeight ←
    updateStateAndValue "net_weight" db.state.totalNetWeight actual.netWeight pending.netWeight
  pure { db with
    state := { db.state with totalRamBytes, totalCpuWeight, totalNetWeight }
    limits := (db.limits.insert (toLex (false, owner)) pending).erase (toLex (true, owner)) }

/-- The loop takes pending limits by owner, until there are none. -/
def processAccountLimitUpdates : Except String ResourceDb :=
  (db.limits.entries.filter fun e => (ofLex e.1).1).foldlM
    (fun db e => db.updateAccountLimits (ofLex e.1).2 e.2) db

/-! ## Blocks -/

/-- `update_elastic_limit`. -/
def updateElasticLimit (currentLimit averageUsage : UInt64) (params : ElasticLimitParameters) :
    Except String UInt64 := do
  let result ← Ratio.scale currentLimit
    (if params.target < averageUsage then params.contractRate else params.expandRate)
  pure (min (max result params.max) (params.max * params.maxMultiplier.toUInt64))

/-- The usage of a block is applied, and the virtual limits are updated. -/
def processBlockUsage (blockNum : UInt32) : Except String ResourceDb := do
  let cpu := db.config.cpuLimitParameters
  let net := db.config.netLimitParameters
  let averageBlockCpuUsage ←
    db.state.averageBlockCpuUsage.add db.state.pendingCpuUsage blockNum cpu.periods
  let virtualCpuLimit ←
    updateElasticLimit db.state.virtualCpuLimit averageBlockCpuUsage.average cpu
  let averageBlockNetUsage ←
    db.state.averageBlockNetUsage.add db.state.pendingNetUsage blockNum net.periods
  let virtualNetLimit ←
    updateElasticLimit db.state.virtualNetLimit averageBlockNetUsage.average net
  pure { db with
    state := { db.state with
      averageBlockCpuUsage, virtualCpuLimit, pendingCpuUsage := 0
      averageBlockNetUsage, virtualNetLimit, pendingNetUsage := 0 } }

/-! ## Usage of accounts -/

/-- The share of an account, in 128 bits. -/
def maxUserUseInWindow (limit : UInt64) (windowSize : UInt32) (userWeight : Nat)
    (allUserWeight guaranteed : UInt64) : Nat :=
  let virtualCapacityInWindow := limit.toNat * windowSize.toNat % 2 ^ 128
  (virtualCapacityInWindow * userWeight % 2 ^ 128 / allUserWeight.toNat + guaranteed.toNat)
    % 2 ^ 128

/-- Both averages of an account are brought to a time slot, with some units more. -/
def addUsage (cpuUsage netUsage : UInt64) (timeSlot : UInt32) (u : ResourceUsageObject) :
    Except String ResourceUsageObject := do
  let netUsage ← u.netUsage.add netUsage timeSlot db.config.accountNetUsageAverageWindow
  let cpuUsage ← u.cpuUsage.add cpuUsage timeSlot db.config.accountCpuUsageAverageWindow
  pure { netUsage, cpuUsage }

def updateUsage (account : Name) (timeSlot : UInt32) : Except String ResourceDb := do
  let usage ← db.getUsage account
  let usage ← db.addUsage 0 0 timeSlot usage
  pure (db.setUsage account usage)

/-- `update_account_usage`. -/
def updateAccountUsage (accounts : FlatSet Name) (timeSlot : UInt32) : Except String ResourceDb :=
  accounts.toList.foldlM (fun db account => db.updateUsage account timeSlot) db

/-- The assertion for one account. -/
def checkUsage (r : Resource) (guaranteed : UInt64) (message : String)
    (limits : ResourceLimitsObject) (usage : ResourceUsageObject) : Except String Unit :=
  if 0 ≤ limits.weight r ∧ 0 < db.state.totalWeight r then
    let windowSize := db.config.accountUsageAverageWindow r
    check ((usage.usage r).valueEx.toNat * windowSize.toNat / rateLimitingPrecision ≤
      maxUserUseInWindow (db.state.virtualLimit r) windowSize (limits.weight r).toNat
        (db.state.totalWeight r) guaranteed) message
  else pure ()

def insufficientCpu : String :=
  "authorizing account has insufficient cpu resources for this transaction"

def insufficientNet : String :=
  "authorizing account has insufficient net resources for this transaction"

def checkCpuUsage (limits : ResourceLimitsObject) (usage : ResourceUsageObject) :
    Except String Unit :=
  db.checkUsage .cpu db.gmr.cpuUs insufficientCpu limits usage

/-- The minimum that is guaranteed here is that of the CPU, as for `checkCpuUsage`. -/
def checkNetUsage (limits : ResourceLimitsObject) (usage : ResourceUsageObject) :
    Except String Unit :=
  db.checkUsage .net db.gmr.cpuUs insufficientNet limits usage

/-- The usage of an account after a transaction, if it can afford that. -/
def chargedUsage (account : Name) (cpuUsage netUsage : UInt64) (timeSlot : UInt32) :
    Except String ResourceUsageObject := do
  let usage ← db.getUsage account
  let limits ← db.getAccountLimits account
  let usage ← db.addUsage cpuUsage netUsage timeSlot usage
  db.checkCpuUsage limits usage
  db.checkNetUsage limits usage
  pure usage

/-- The usage of one account is added. -/
def chargeAccount (account : Name) (cpuUsage netUsage : UInt64) (timeSlot : UInt32) :
    Except String ResourceDb := do
  let usage ← db.chargedUsage account cpuUsage netUsage timeSlot
  pure (db.setUsage account usage)

/-- `add_transaction_usage`. -/
def addTransactionUsage (accounts : FlatSet Name) (cpuUsage netUsage : UInt64) (timeSlot : UInt32) :
    Except String ResourceDb := do
  let db ← accounts.toList.foldlM
    (fun db account => db.chargeAccount account cpuUsage netUsage timeSlot) db
  let pendingCpuUsage := db.state.pendingCpuUsage + cpuUsage
  let pendingNetUsage := db.state.pendingNetUsage + netUsage
  check (pendingCpuUsage ≤ db.config.cpuLimitParameters.max) "Block has insufficient cpu resources"
  check (pendingNetUsage ≤ db.config.netLimitParameters.max) "Block has insufficient net resources"
  pure { db with state := { db.state with pendingCpuUsage, pendingNetUsage } }

/-! ## Limits of accounts -/

/-- What is reported of a resource of an account. -/
structure AccountResourceLimit where
  used : Int := 0
  available : Int := 0
  max : Int := 0
  deriving DecidableEq

/-- What is used, left, and the maximum. -/
def getAccountLimitEx (r : Resource) (guaranteed : UInt64) (account : Name) (elastic : Bool) :
    Except String AccountResourceLimit := do
  let usage ← db.getUsage account
  let limits ← db.getAccountLimits account
  if limits.weight r < 0 ∨ db.state.totalWeight r = 0 then pure ⟨-1, -1, -1⟩
  else do
    let windowSize := db.config.accountUsageAverageWindow r
    let limit := if elastic then db.state.virtualLimit r else (db.config.limitParameters r).max
    let maxUse := maxUserUseInWindow limit windowSize (limits.weight r).toNat
      (db.state.totalWeight r) guaranteed
    let usedInWindow := integerDivideCeil ((usage.usage r).valueEx.toNat * windowSize.toNat)
      rateLimitingPrecision
    let available ← downgradeCast (2 ^ 63 - 1) (maxUse - usedInWindow)
    let used ← downgradeCast (2 ^ 63 - 1) usedInWindow
    let max ← downgradeCast (2 ^ 63 - 1) maxUse
    pure ⟨used, available, max⟩

def getAccountCpuLimitEx (account : Name) (elastic : Bool) : Except String AccountResourceLimit :=
  db.getAccountLimitEx .cpu db.gmr.cpuUs account elastic

def getAccountNetLimitEx (account : Name) (elastic : Bool) : Except String AccountResourceLimit :=
  db.getAccountLimitEx .net db.gmr.netByte account elastic

def getAccountCpuLimit (account : Name) (elastic : Bool) : Except String Int := do
  let arl ← db.getAccountCpuLimitEx account elastic
  pure arl.available

def getAccountNetLimit (account : Name) (elastic : Bool) : Except String Int := do
  let arl ← db.getAccountNetLimitEx account elastic
  pure arl.available

end ResourceDb

/-- The calls that change resources. -/
inductive ResourceOperation
  | initializeAccount (account : Name)
  | setGmrParameters (p : GmrParameters)
  | setBlockParameters (cpuLimitParameters netLimitParameters : ElasticLimitParameters)
  | setAccountLimits (account : Name) (ramBytes netWeight cpuWeight : Int)
  | processAccountLimitUpdates
  | processBlockUsage (blockNum : UInt32)
  | updateAccountUsage (accounts : FlatSet Name) (timeSlot : UInt32)
  | addTransactionUsage (accounts : FlatSet Name) (cpuUsage netUsage : UInt64) (timeSlot : UInt32)

def ResourceOperation.exec : ResourceOperation → ResourceDb → Except String ResourceDb
  | .initializeAccount account, db => db.initializeAccount account
  | .setGmrParameters p, db => db.setGmrParameters p
  | .setBlockParameters cpu net, db => db.setBlockParameters cpu net
  | .setAccountLimits account ramBytes netWeight cpuWeight, db => do
    let (_, db) ← db.setAccountLimits account ramBytes netWeight cpuWeight
    pure db
  | .processAccountLimitUpdates, db => db.processAccountLimitUpdates
  | .processBlockUsage blockNum, db => db.processBlockUsage blockNum
  | .updateAccountUsage accounts timeSlot, db => db.updateAccountUsage accounts timeSlot
  | .addTransactionUsage accounts cpuUsage netUsage timeSlot, db =>
    db.addTransactionUsage accounts cpuUsage netUsage timeSlot

end BaccChain
