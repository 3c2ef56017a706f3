import BaccChain.Chain.Genesis
import BaccChain.Chain.NativeSpec

/-!
# The accounts of genesis

`controller_impl::initialize_database` creates the native accounts, those of the genesis file, and
the account of the producers with its extra permissions.
-/

namespace BaccChain

open Commons (Table check)
open Native (NativeM createPermission overheadPerAccountRamBytes permissionBytes
  setcodeRamBytesMultiplier getPermission newPermission withPermission)

/-- The genesis file and the system contracts of the configuration, as far as accounts are
concerned. -/
structure NativeGenesis where
  initialTimestamp : Nat
  initialKey : PublicKey
  initialAccountList : List (Name × PublicKey)
  systemCode : List UInt8
  systemAbi : List UInt8
  tokenCode : List UInt8
  tokenAbi : List UInt8
  msigCode : List UInt8
  msigAbi : List UInt8
  eosioContractAbi : List UInt8
  nativeContractAbi : List UInt8
  sha256 : List UInt8 → Nat

/-- The tables, and the RAM billed so far: for accounts with their permissions, and for code and
interfaces. -/
structure GenesisCtx where
  db : NativeDb := {}
  accountRam : List (Name × Int) := []
  contractRam : List (Name × Int) := []

namespace NativeGenesis

def majorityProducersPermissionName : Name := 12531424605554196480
def minorityProducersPermissionName : Name := 12531424609916272640
def freeRamPerAccount : Name := 13452258534955262976

example : majorityProducersPermissionName = stringToName "prod.major".toList := by decide

variable (g : NativeGenesis)

def env : NativeEnv where
  authorization := []
  pendingBlockTime := g.initialTimestamp
  headBlockNum := 1
  maxTransactionDelay := 0
  enforceWhiteblacklist := false
  isProducingBlock := false
  keyBlacklisted _ := false
  sha256 := g.sha256
  validateWasm _ := true
  ramUsage _ := none

def native {α : Type} (x : NativeM α) (c : GenesisCtx) : Except String (α × GenesisCtx) := do
  let r ← x g.env { db := c.db }
  return (r.1, { c with db := r.2.db })

def keyAuthority (key : PublicKey) : Authority := { threshold := 1, keys := [⟨key, 1⟩] }

def activeAuthority (account : Name) : Authority :=
  { threshold := 1, accounts := [⟨⟨account, activeName⟩, 1⟩] }

def defaultAbi (name : Name) : List UInt8 :=
  if name = systemAccountName then g.eosioContractAbi
  else if name = nativeAccountName then g.nativeContractAbi
  else []

def createNativeAccount (name : Name) (owner active : Authority) (isPrivileged : Bool)
    (c : GenesisCtx) : Except String GenesisCtx := do
  check (c.db.accounts.find name).isNone uniquenessViolated
  check (c.db.sequences.find name).isNone uniquenessViolated
  let a : AccountObject :=
    { privileged := isPrivileged, creationDate := g.initialTimestamp, abi := g.defaultAbi name }
  let db := { c.db with
    accounts := c.db.accounts.insert name a, sequences := c.db.sequences.insert name {} }
  let (ownerPermission, c) ← g.native (createPermission name ownerName 0 owner) { c with db }
  let (activePermission, c) ←
    g.native (createPermission name activeName ownerPermission.id active) c
  return { c with accountRam := c.accountRam ++ [(name, overheadPerAccountRamBytes +
    2 * permissionBytes + ownerPermission.auth.billableSize + activePermission.auth.billableSize)] }

def initializeContract (contract : Name) (code abi : List UInt8) (privileged : Bool)
    (c : GenesisCtx) : Except String GenesisCtx := do
  match c.db.accounts.find contract, c.db.sequences.find contract with
  | some a, some s =>
    return { c with
      db := { c.db with
        accounts := c.db.accounts.insert contract { a with
          lastCodeUpdate := g.initialTimestamp, privileged
          codeVersion := g.sha256 code, code, abi }
        sequences := c.db.sequences.insert contract
          ⟨(s.codeSequence + 1) % 2 ^ 64, (s.abiSequence + 1) % 2 ^ 64⟩ }
      contractRam := c.contractRam ++
        [(contract, ((code.length : Int) + abi.length) * setcodeRamBytesMultiplier)] }
  | _, _ => .error "unknown key"

/-- The active permission of the system account is given to the producers. -/
def updateEosioAuthority (c : GenesisCtx) : Except String GenesisCtx := do
  let p ← getPermission c.db ⟨systemAccountName, activeName⟩
  return { c with db := { c.db with
    permissions := c.db.permissions.insert (toLex (systemAccountName, activeName))
      { p with auth := activeAuthority producersAccountName } } }

def createProducersPermission (parent name : Name) (c : GenesisCtx) : Except String GenesisCtx := do
  let p ← getPermission c.db ⟨producersAccountName, parent⟩
  let r ← g.native
    (createPermission producersAccountName name p.id (activeAuthority systemAccountName)) c
  return r.2

def initializeAccount (c : GenesisCtx) : Except String GenesisCtx :=
  g.initialAccountList.foldlM
    (fun c a => g.createNativeAccount a.1 (keyAuthority a.2) (keyAuthority a.2) false c) c

/-- The native accounts, the system contracts and the accounts of the genesis file. -/
def initializeDatabaseForce (c : GenesisCtx) : Except String GenesisCtx := do
  let systemAuth := keyAuthority g.initialKey
  let c ← g.createNativeAccount tokenAccountName systemAuth systemAuth false c
  let c ← g.createNativeAccount msigAccountName systemAuth systemAuth false c
  let c ← g.createNativeAccount feeAccountName systemAuth systemAuth false c
  let c ← g.initializeContract systemAccountName g.systemCode g.systemAbi true c
  let c ← g.initializeContract tokenAccountName g.tokenCode g.tokenAbi false c
  let c ← g.initializeContract msigAccountName g.msigCode g.msigAbi true c
  let c ← g.initializeAccount c
  let c ← updateEosioAuthority c
  return { c with db := { c.db with
    configNum := c.db.configNum.insert freeRamPerAccount (8 * 1024) } }

/-- The tables at the start of the chain; the permission with the id 0 is reserved. -/
def initializeDatabase : Except String GenesisCtx := do
  let systemAuth := keyAuthority g.initialKey
  let emptyAuthority : Authority := { threshold := 1 }
  let c ← g.createNativeAccount systemAccountName systemAuth systemAuth true {}
  let c ← g.createNativeAccount nativeAccountName systemAuth systemAuth true c
  let c ← g.initializeDatabaseForce c
  let c ← g.createNativeAccount nullAccountName emptyAuthority emptyAuthority false c
  let c ← g.createNativeAccount producersAccountName emptyAuthority
    (activeAuthority systemAccountName) false c
  let c ← g.createProducersPermission activeName majorityProducersPermissionName c
  g.createProducersPermission majorityProducersPermissionName minorityProducersPermissionName c

/-! ## What the steps do -/

variable {g} {c c' : GenesisCtx}

theorem native_createPermission_eq_ok {account name : Name} {parent : Nat} {auth : Authority}
    {p : PermissionObject}
    (h : g.native (createPermission account name parent auth) c = .ok (p, c')) :
    c.db.permissions.find (toLex (account, name)) = none ∧
      p = newPermission g.env c.db.nextPermissionId parent auth ∧
      c' = { c with db := withPermission g.env c.db account name parent auth } := by
  obtain ⟨⟨q, c₁⟩, hcreate, hret⟩ := Commons.bind_eq_ok.mp h
  obtain ⟨hnone, rfl, rfl⟩ := Native.createPermission_eq_ok_iff.mp hcreate
  obtain ⟨rfl, rfl⟩ := Prod.mk.inj (Commons.pure_eq_ok.mp hret)
  exact ⟨hnone, rfl, rfl⟩

def nativeAccount (g : NativeGenesis) (name : Name) (isPrivileged : Bool) : AccountObject :=
  { privileged := isPrivileged, creationDate := g.initialTimestamp, abi := g.defaultAbi name }

theorem createNativeAccount_eq_ok {name : Name} {owner active : Authority} {isPrivileged : Bool}
    (h : g.createNativeAccount name owner active isPrivileged c = .ok c') :
    c.db.accounts.find name = none ∧
    c.db.permissions.find (toLex (name, ownerName)) = none ∧
    c.db.permissions.find (toLex (name, activeName)) = none ∧
    c'.contractRam = c.contractRam ∧
    c'.db = withPermission g.env (withPermission g.env { c.db with
        accounts := c.db.accounts.insert name (nativeAccount g name isPrivileged)
        sequences := c.db.sequences.insert name {} } name ownerName 0 owner)
      name activeName c.db.nextPermissionId active := by
  simp only [createNativeAccount, Commons.bind_eq_ok, Commons.check_eq_ok, Commons.pure_eq_ok,
    exists_const, Prod.exists] at h
  obtain ⟨hfresh, -, p, c₁, hp, q, c₂, hq, rfl⟩ := h
  obtain ⟨hownerFresh, rfl, rfl⟩ := native_createPermission_eq_ok hp
  obtain ⟨hactiveFresh, rfl, rfl⟩ := native_createPermission_eq_ok hq
  refine ⟨Option.isNone_iff_eq_none.mp hfresh, hownerFresh, ?_, rfl, rfl⟩
  refine Eq.trans (Table.find_insert_ne _ _ ?_).symm hactiveFresh
  simp [ownerName, activeName]

theorem initializeContract_eq_ok {contract : Name} {code abi : List UInt8} {privileged : Bool}
    (h : g.initializeContract contract code abi privileged c = .ok c') :
    ∃ a s, c.db.accounts.find contract = some a ∧ c' = { c with
      db := { c.db with
        accounts := c.db.accounts.insert contract { a with
          lastCodeUpdate := g.initialTimestamp, privileged
          codeVersion := g.sha256 code, code, abi }
        sequences := c.db.sequences.insert contract s }
      contractRam := c.contractRam ++
        [(contract, ((code.length : Int) + abi.length) * setcodeRamBytesMultiplier)] } := by
  unfold initializeContract at h
  cases ha : c.db.accounts.find contract with
  | none =>
    rw [ha] at h
    cases h
  | some a =>
    cases hs : c.db.sequences.find contract with
    | none =>
      rw [ha, hs] at h
      cases h
    | some =>
      rw [ha, hs] at h
      exact ⟨a, _, rfl, Commons.pure_eq_ok.mp h⟩

theorem updateEosioAuthority_eq_ok (h : updateEosioAuthority c = .ok c') :
    ∃ p, c.db.permissions.find (toLex (systemAccountName, activeName)) = some p ∧
      c' = { c with db := { c.db with
        permissions := c.db.permissions.insert (toLex (systemAccountName, activeName))
          { p with auth := activeAuthority producersAccountName } } } := by
  obtain ⟨p, hp, hret⟩ := Commons.bind_eq_ok.mp h
  exact ⟨p, (Native.getPermission_eq_ok.mp hp).2, Commons.pure_eq_ok.mp hret⟩

theorem createProducersPermission_eq_ok {parent name : Name}
    (h : g.createProducersPermission parent name c = .ok c') :
    ∃ p, c.db.permissions.find (toLex (producersAccountName, parent)) = some p ∧
      c.db.permissions.find (toLex (producersAccountName, name)) = none ∧
      c' = { c with
        db := withPermission g.env c.db producersAccountName name p.id
          (activeAuthority systemAccountName) } := by
  obtain ⟨p, hp, hrest⟩ := Commons.bind_eq_ok.mp h
  obtain ⟨⟨q, c₁⟩, hcreate, hret⟩ := Commons.bind_eq_ok.mp hrest
  obtain ⟨hnone, -, rfl⟩ := native_createPermission_eq_ok hcreate
  exact ⟨p, (Native.getPermission_eq_ok.mp hp).2, hnone, Commons.pure_eq_ok.mp hret⟩

theorem initializeDatabase_induction (I : NativeDb → Prop) (hempty : I {})
    (haccount : ∀ {db : NativeDb} {name a owner active}, I db → db.accounts.find name = none →
      db.permissions.find (toLex (name, ownerName)) = none →
      db.permissions.find (toLex (name, activeName)) = none →
      I (withPermission g.env (withPermission g.env { db with
        accounts := db.accounts.insert name a, sequences := db.sequences.insert name {} }
        name ownerName 0 owner) name activeName db.nextPermissionId active))
    (hcontract : ∀ {db : NativeDb} {name a a' s}, I db → db.accounts.find name = some a →
      I { db with accounts := db.accounts.insert name a', sequences := db.sequences.insert name s })
    (hauthority : ∀ {db : NativeDb} {k p auth}, I db → db.permissions.find k = some p →
      I { db with permissions := db.permissions.insert k { p with auth } })
    (hpermission : ∀ {db : NativeDb} {parent name p auth}, I db → name ≠ 0 →
      db.permissions.find (toLex (producersAccountName, parent)) = some p →
      db.permissions.find (toLex (producersAccountName, name)) = none →
      I (withPermission g.env db producersAccountName name p.id auth))
    (hconfig : ∀ {db : NativeDb} {name : Name} {num : Int}, I db →
      I { db with configNum := db.configNum.insert name num })
    (h : g.initializeDatabase = .ok c) : I c.db := by
  have hcreate {c c' : GenesisCtx} {name owner active isPrivileged} (hc : I c.db)
      (h : g.createNativeAccount name owner active isPrivileged c = .ok c') : I c'.db := by
    obtain ⟨hfresh, hownerFresh, hactiveFresh, -, hdb⟩ := createNativeAccount_eq_ok h
    rw [hdb]
    exact haccount hc hfresh hownerFresh hactiveFresh
  have hinit {c c' : GenesisCtx} {contract code abi privileged} (hc : I c.db)
      (h : g.initializeContract contract code abi privileged c = .ok c') : I c'.db := by
    obtain ⟨a, s, ha, rfl⟩ := initializeContract_eq_ok h
    exact hcontract hc ha
  simp only [initializeDatabase, initializeDatabaseForce, Commons.bind_eq_ok,
    Commons.pure_eq_ok] at h
  obtain ⟨c₁, h₁, c₂, h₂, c₁₀,
    ⟨c₃, h₃, c₄, h₄, c₅, h₅, c₆, h₆, c₇, h₇, c₈, h₈, c₉, h₉, c₉', h₉', rfl⟩,
    c₁₁, h₁₁, c₁₂, h₁₂, c₁₃, h₁₃, h₁₄⟩ := h
  have i₅ := hcreate (hcreate (hcreate (hcreate (hcreate hempty h₁) h₂) h₃) h₄) h₅
  have i₈ := hinit (hinit (hinit i₅ h₆) h₇) h₈
  have i₉ : I c₉.db := Commons.foldlM_induction (fun c : GenesisCtx => I c.db)
    (fun a _ c c' hstep hc => hcreate hc hstep) h₉ i₈
  have i₁₀ : I c₉'.db := by
    obtain ⟨p, hp, rfl⟩ := updateEosioAuthority_eq_ok h₉'
    exact hauthority i₉ hp
  have i₁₂ := hcreate (hcreate (hconfig i₁₀) h₁₁) h₁₂
  obtain ⟨p, hp, hpfresh, rfl⟩ := createProducersPermission_eq_ok h₁₃
  obtain ⟨q, hq, hqfresh, rfl⟩ := createProducersPermission_eq_ok h₁₄
  have hmajority : majorityProducersPermissionName ≠ 0 := by decide
  have hminority : minorityProducersPermissionName ≠ 0 := by decide
  exact hpermission (hpermission i₁₂ hmajority hp hpfresh) hminority hq hqfresh

/-! ## A small genesis -/

def plain : NativeGenesis where
  initialTimestamp := 0
  initialKey := 1
  initialAccountList := [(Genesis.alice, 2), (Genesis.bob, 3)]
  systemCode := []
  systemAbi := []
  tokenCode := []
  tokenAbi := []
  msigCode := []
  msigAbi := []
  eosioContractAbi := []
  nativeContractAbi := []
  sha256 code := code.length

def plainState : GenesisCtx := plain.initializeDatabase.toOption.getD {}

theorem plain_initializeDatabase : plain.initializeDatabase = .ok plainState := rfl

end NativeGenesis

end BaccChain
