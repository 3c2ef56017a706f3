import BaccChain.Chain.ConfigOnChain
import BaccChain.Chain.ResourceLimits
import BaccChain.Contracts.System.Bandwidth

/-!
# Settings of resources

The block producers set the guaranteed minimum of CPU, NET and RAM and the rent of RAM with
`setconfig`. The system account sets what an account has staked for RAM with `setram`.
-/

namespace BaccChain

open Commons

def biosAccountName : Name := 4147956122419986432
def ramRentBPerEos : Name := 13452264844473725440

example : biosAccountName = stringToName "bacc.bios".toList := by decide
example : ramRentBPerEos = stringToName "res.ramrent".toList := by decide

/-! ## Assets of the chain -/

def validSymbolName : Nat → Nat → Bool
  | 0, _ => true
  | n + 1, v => v = 0 || (65 ≤ v % 256 && v % 256 ≤ 90 && validSymbolName n (v >>> 8))

/-- What the chain checks of an asset that it unpacks, first of its symbol. The contract that has
packed the asset does not check it. -/
def Asset.reflectorVerify (a : Asset) : Except String Unit := do
  check (a.symbol % 256 ≤ 18) "precision should be <= 18"
  check (validSymbolName 7 (a.symbol >>> 8)) "invalid symbol"
  check (a.isAmountWithinRange) "magnitude of asset amount must be less than 2^62"

/-! ## The limits -/

def GuaranteedMinimumResources.toParameters (gmr : GuaranteedMinimumResources) : GmrParameters :=
  ⟨UInt64.ofNat gmr.ramByte, UInt64.ofNat gmr.cpuUs, UInt64.ofNat gmr.netByte⟩

def getNumConfigOnChain (configData : Table Name ConfigData) (typ : Name) (defaultValue : Int) :
    Int :=
  (configData.find typ).elim defaultValue (·.num)

/-- The part of the state that settings of resources write, and that limits read. -/
structure SettingsState where
  config : ConfigState
  resources : ResourceDb
  system : Db

def ramUnlimited (account : Name) : Bool :=
  account = systemAccountName || account = tokenAccountName || account = msigAccountName ||
    account = biosAccountName ||
    "bacc.".toList.isPrefixOf account.toString ||
    "noc.".toList.isPrefixOf account.toString ||
    "sys.".toList.isPrefixOf account.toString

namespace SettingsState

variable (s : SettingsState)

def ramRent : Int := getNumConfigOnChain s.config.db.configData ramRentBPerEos 10240

def getAccountRamLimit (account : Name) : Except String Int :=
  let initRamSize := wrap64 s.resources.gmr.ramByte.toNat
  if ramUnlimited account then pure (-1)
  else match s.system.vote4ramsum.find () account with
    | none => pure initRamSize
    | some voteInfo => do
      voteInfo.staked.reflectorVerify
      let res := (wrap64 (voteInfo.staked.amount * s.ramRent)).tdiv 1000000
      pure (wrap64 (res + initRamSize))

/-- The objects of the account are read first, and then its RAM limit. -/
def getAccountLimitEx (r : Resource) (guaranteed : UInt64) (account : Name) (elastic : Bool) :
    Except String ResourceDb.AccountResourceLimit := do
  let _ ← s.resources.getUsage account
  let _ ← s.resources.getAccountLimits account
  let _ ← s.getAccountRamLimit account
  s.resources.getAccountLimitEx r guaranteed account elastic

def getAccountCpuLimitEx (account : Name) (elastic : Bool) :
    Except String ResourceDb.AccountResourceLimit :=
  s.getAccountLimitEx .cpu s.resources.gmr.cpuUs account elastic

def getAccountNetLimitEx (account : Name) (elastic : Bool) :
    Except String ResourceDb.AccountResourceLimit :=
  s.getAccountLimitEx .net s.resources.gmr.netByte account elastic

end SettingsState

/-! ## The actions -/

/-- The actions that set what the limits depend on: `setconfig` with the actors that authorise it,
and `setram` with its environment. -/
inductive SettingsAction
  | setconfig (authorization : List Name) (cfg : Setconfig)
  | setram (e : Env) (account : Name) (stake : Asset)

def SettingsAction.exec : SettingsAction → SettingsState → Except String SettingsState
  | .setconfig authorization cfg, s =>
    match applySystemNativeSetconfig authorization cfg s.config with
    | (.ok _, config) => .ok { s with
        config
        resources := { s.resources with gmr := config.db.gmrParameters.toParameters } }
    | (.error msg, _) => .error msg
  | .setram e account stake, s => do
    let (_, c) ← SystemContract.setram account stake e { db := s.system }
    pure { s with system := c.db }

end BaccChain
