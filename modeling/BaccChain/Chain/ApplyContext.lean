import BaccChain.Chain.Action

/-!
# The execution context of an action

Contract code reads the action's authorizations, the chain and the tables. It writes tables and
leaves behind the RAM it billed, the accounts it notified and the inline actions it sent.

## Main definitions

* `ContractM`, `TableRef`, `emplace`, `modifyRow`: what contracts are written in
-/

namespace BaccChain

open Commons (Table Program)

/-- What contract code reads: the chain, the account whose code runs and the permissions the
action was sent with. -/
structure Env where
  world : World
  receiver : Name
  authorization : List PermissionLevel

def Env.HasAuth (e : Env) (n : Name) : Prop := ∃ p ∈ e.authorization, p.actor = n

/-- What contract code writes: the tables, the RAM billed, the accounts notified (the receiver
first) and the inline actions sent. -/
structure Ctx where
  db : Db
  ramDeltas : List (Name × Int) := []
  notified : List Name := []
  inlineActions : List Action := []

/-- Contract code: it reads its environment and changes its context, or fails. -/
abbrev ContractM (α : Type) : Type := Program Env Ctx α

open Commons.Program (fail whenever bind_eq_ok bind_of_ok bind_of_error exists_unit pure_eq_ok
  lift_eq_ok fail_ne_ok ite_run whenever_eq_ok)

/-! ## Intrinsics -/

/-- `require_auth`. -/
def requireAuth (account : Name) : ContractM Unit := fun e c =>
  if ∃ p ∈ e.authorization, p.actor = account then .ok ((), c) else .error "missing authority"

def eosioAssert (p : Prop) [Decidable p] (msg : String) : ContractM Unit :=
  liftM (Commons.check p msg)

def currentBlockNum : ContractM Nat := fun e c => .ok (e.world.blockNum, c)
def currentReceiver : ContractM Name := fun e c => .ok (e.receiver, c)
def currentTime : ContractM Nat := fun e c => .ok (e.world.now, c)
def activeProducers : ContractM (List Name) := fun e c => .ok (e.world.activeProducers, c)
def spareStake : ContractM (Nat → Int) := fun e c => .ok (e.world.spareStake, c)
def rewardSchedule (block : Nat) : ContractM Nat := fun e c =>
  .ok (e.world.calcRewardByBlock block, c)
def isAccount (account : Name) : ContractM Bool := fun e c => .ok (e.world.isAccount account, c)

def isPrivileged (account : Name) : Bool :=
  account = systemAccountName || account = nativeAccountName || account = msigAccountName

/-- The limits of an account are replaced; accounts have limits since they were created. -/
def replaceLimits (account : Name) (limits : ResourceLimits) : ContractM Unit := fun e c =>
  if e.world.isAccount account then
    .ok ((), { c with db := { c.db with
      resourceLimits := c.db.resourceLimits.insert account limits } })
  else .error "unknown key"

/-- `set_resource_limits`. -/
def setResourceLimits (account : Name) (ramBytes netWeight cpuWeight : Int) : ContractM Unit := do
  eosioAssert (-1 ≤ ramBytes) "invalid value for ram resource limit expected [-1,INT64_MAX]"
  eosioAssert (-1 ≤ netWeight) "invalid value for net resource weight expected [-1,INT64_MAX]"
  eosioAssert (-1 ≤ cpuWeight) "invalid value for cpu resource weight expected [-1,INT64_MAX]"
  replaceLimits account ⟨ramBytes, netWeight, cpuWeight⟩

/-- `require_recipient`. -/
def requireRecipient (recipient : Name) : ContractM Unit := fun _ c =>
  .ok ((), if recipient ∈ c.notified then c else { c with notified := c.notified ++ [recipient] })

/-- Changes of RAM are collected. -/
def addRamUsage (account : Name) (delta : Int) : ContractM Unit := fun _ c =>
  .ok ((), { c with ramDeltas := c.ramDeltas ++ [(account, delta)] })

/-- Bill the RAM of a table; growth needs the payer's authorization, unless the contract is
privileged or pays itself. -/
def updateDbUsage (payer : Name) (delta : Int) : ContractM Unit := do
  let receiver ← currentReceiver
  whenever (0 < delta ∧ ¬ (isPrivileged receiver ∨ payer = receiver)) (requireAuth payer)
  addRamUsage payer delta

variable {msg : String} {delta : Int}

section

variable {e : Env} {c c' : Ctx} {u : Unit}

variable {account : Name}

@[simp] theorem requireAuth_eq_ok :
    requireAuth account e c = .ok (u, c') ↔ e.HasAuth account ∧ c' = c := by
  unfold requireAuth Env.HasAuth
  split_ifs with h
  · simp only [Except.ok.injEq, Prod.mk.injEq, h, true_and]
    exact eq_comm
  · simp [h]

@[simp] theorem eosioAssert_eq_ok {p : Prop} [Decidable p] :
    eosioAssert p msg e c = .ok (u, c') ↔ p ∧ c' = c := by
  rw [eosioAssert, lift_eq_ok, Commons.check_eq_ok]

theorem setResourceLimits_eq_ok {ramBytes netWeight cpuWeight : Int}
    (h : setResourceLimits account ramBytes netWeight cpuWeight e c = .ok (u, c')) :
    c' = { c with db := { c.db with
      resourceLimits := c.db.resourceLimits.insert account
        ⟨ramBytes, netWeight, cpuWeight⟩ } } := by
  simp only [setResourceLimits, bind_eq_ok, exists_unit, eosioAssert_eq_ok, replaceLimits,
    and_assoc, exists_and_left, exists_eq_left] at h
  obtain ⟨-, -, -, h⟩ := h
  split_ifs at h
  exact (Prod.mk.inj (Except.ok.inj h)).2.symm

variable {n : Nat}

@[simp] theorem currentBlockNum_eq_ok :
    currentBlockNum e c = .ok (n, c') ↔ n = e.world.blockNum ∧ c' = c := by
  simp [currentBlockNum, eq_comm]

@[simp] theorem currentTime_eq_ok : currentTime e c = .ok (n, c') ↔ n = e.world.now ∧ c' = c := by
  simp [currentTime, eq_comm]

@[simp] theorem activeProducers_eq_ok {l : List Name} :
    activeProducers e c = .ok (l, c') ↔ l = e.world.activeProducers ∧ c' = c := by
  simp [activeProducers, eq_comm]

@[simp] theorem spareStake_eq_ok {f : Nat → Int} :
    spareStake e c = .ok (f, c') ↔ f = e.world.spareStake ∧ c' = c := by
  simp [spareStake, eq_comm]

@[simp] theorem rewardSchedule_eq_ok {block : Nat} :
    rewardSchedule block e c = .ok (n, c') ↔ n = e.world.calcRewardByBlock block ∧ c' = c := by
  simp [rewardSchedule, eq_comm]

@[simp] theorem isAccount_eq_ok {b : Bool} :
    isAccount account e c = .ok (b, c') ↔ b = e.world.isAccount account ∧ c' = c := by
  simp [isAccount, eq_comm]

theorem requireRecipient_eq_ok {recipient : Name}
    (h : requireRecipient recipient e c = .ok (u, c')) :
    ∃ l, c' = { c with notified := l } := by
  simp only [requireRecipient, Except.ok.injEq, Prod.mk.injEq] at h
  rw [← h.2]
  split_ifs
  · exact ⟨c.notified, rfl⟩
  · exact ⟨_, rfl⟩

theorem updateDbUsage_eq_ok {payer : Name} (h : updateDbUsage payer delta e c = .ok (u, c')) :
    c' = { c with ramDeltas := c.ramDeltas ++ [(payer, delta)] } := by
  rw [updateDbUsage, bind_eq_ok] at h
  obtain ⟨receiver, c₁, h₁, h⟩ := h
  rw [bind_eq_ok] at h
  obtain ⟨_, c₂, h₂, h₃⟩ := h
  cases h₁
  cases h₃
  rw [whenever_eq_ok] at h₂
  rcases h₂ with ⟨-, h₂⟩ | ⟨-, rfl⟩
  · rw [(requireAuth_eq_ok.mp h₂).2]
  · rfl

end

/-! ## Tables -/

/-- One of the tables of the database. -/
structure TableRef (σ α : Type) [LinearOrder σ] where
  get : Db → MultiIndex σ α
  set : Db → MultiIndex σ α → Db

def tableIdBytes : Int := 112

def keyValueBytes : Int := 112

section Tables

variable {σ α : Type} [LinearOrder σ]

def readTable (T : TableRef σ α) : ContractM (MultiIndex σ α) := fun _ c => .ok (T.get c.db, c)

def writeTable (T : TableRef σ α) (t : MultiIndex σ α) : ContractM Unit := fun _ c =>
  .ok ((), { c with db := T.set c.db t })

/-- `find`. -/
def findRow (T : TableRef σ α) (scope : σ) (pk : Name) : ContractM (Option α) := do
  let t ← readTable T
  return t.find scope pk

/-- `get`. -/
def getRow (T : TableRef σ α) (scope : σ) (pk : Name) (msg : String) : ContractM α := do
  match ← findRow T scope pk with
  | some a => pure a
  | none => fail msg

variable [PackSize α]

/-- `emplace`: the payer is billed for the row. -/
def emplace (T : TableRef σ α) (scope : σ) (payer pk : Name) (a : α) : ContractM Unit := do
  let t ← readTable T
  whenever (t.tables.find scope = none) (updateDbUsage payer tableIdBytes)
  eosioAssert (payer ≠ 0) "must specify a valid account to pay for new record"
  eosioAssert (t.find scope pk = none) uniquenessViolated
  writeTable T (t.store scope payer pk a)
  updateDbUsage payer (packSize a + keyValueBytes)

/-- The account that pays for a rewritten row: the payer given, or the row's own. -/
def newPayer (payer : Name) (row : Row α) : Name := if payer = 0 then row.payer else payer

/-- The sizes of the old row and the new one are billed. -/
def billUpdate (row : Row α) (payer : Name) (a : α) : ContractM Unit :=
  let oldSize : Int := packSize row.value + keyValueBytes
  let newSize : Int := packSize a + keyValueBytes
  if row.payer ≠ payer then do
    updateDbUsage row.payer (-oldSize)
    updateDbUsage payer newSize
  else whenever (oldSize ≠ newSize) (updateDbUsage row.payer (newSize - oldSize))

def dbUpdate (T : TableRef σ α) (scope : σ) (pk payer : Name) (a : α) : ContractM Unit := do
  let t ← readTable T
  match t.findRow scope pk with
  | some row => do
    billUpdate row (newPayer payer row) a
    writeTable T (t.update scope pk (newPayer payer row) a)
  | none => fail "cannot pass end iterator to modify"

/-- `modify`. -/
def modifyRow (T : TableRef σ α) (scope : σ) (pk payer : Name) (updater : α → ContractM α) :
    ContractM Unit := do
  let a ← getRow T scope pk "cannot pass end iterator to modify"
  let a' ← updater a
  dbUpdate T scope pk payer a'

def billRemoveTable (tid : Option TableId) : ContractM Unit :=
  match tid with
  | some i => whenever (i.count - 1 = 0) (updateDbUsage i.payer (-tableIdBytes))
  | none => pure ()

/-- Remove a row; the last row of a scope releases the table too. -/
def eraseRow (T : TableRef σ α) (scope : σ) (pk : Name) : ContractM Unit := do
  let t ← readTable T
  match t.findRow scope pk with
  | some row => do
    updateDbUsage row.payer (-(packSize row.value + keyValueBytes))
    billRemoveTable (t.tables.find scope)
    writeTable T (t.remove scope pk)
  | none => fail "cannot pass end iterator to erase"

end Tables

section TableLemmas

variable {σ α : Type} [LinearOrder σ] {T : TableRef σ α} {scope : σ} {pk payer : Name} {a : α}
  {e : Env} {c c' : Ctx} {u : Unit}

@[simp] theorem readTable_eq_ok {t : MultiIndex σ α} :
    readTable T e c = .ok (t, c') ↔ t = T.get c.db ∧ c' = c := by
  simp [readTable, eq_comm]

@[simp] theorem findRow_eq_ok {r : Option α} :
    findRow T scope pk e c = .ok (r, c') ↔ r = (T.get c.db).find scope pk ∧ c' = c := by
  simp [findRow, bind_eq_ok, pure_eq_ok, and_comm]

@[simp] theorem getRow_eq_ok :
    getRow T scope pk msg e c = .ok (a, c') ↔
      (T.get c.db).find scope pk = some a ∧ c' = c := by
  simp only [getRow, bind_eq_ok, findRow_eq_ok]
  constructor
  · rintro ⟨r, c₁, ⟨rfl, rfl⟩, h⟩
    cases hr : (T.get c₁.db).find scope pk with
    | none =>
      rw [hr] at h
      exact absurd h fail_ne_ok
    | some =>
      rw [hr] at h
      obtain ⟨rfl, rfl⟩ := pure_eq_ok.mp h
      exact ⟨rfl, rfl⟩
  · rintro ⟨h, rfl⟩
    exact ⟨_, _, ⟨rfl, rfl⟩, by rw [h]; rfl⟩

theorem calls_iff :
    (∀ account e c u c', requireAuth account e c = .ok (u, c') ↔ e.HasAuth account ∧ c' = c) ∧
    (∀ (p : Prop) [Decidable p] (msg : String) (e : Env) (c : Ctx) (u : Unit) (c' : Ctx),
      eosioAssert p msg e c = .ok (u, c') ↔ p ∧ c' = c) ∧
    (∀ e c n c', currentBlockNum e c = .ok (n, c') ↔ n = e.world.blockNum ∧ c' = c) ∧
    (∀ e c n c', currentTime e c = .ok (n, c') ↔ n = e.world.now ∧ c' = c) ∧
    (∀ (σ α : Type) [LinearOrder σ] (T : TableRef σ α) scope pk e c r c',
      findRow T scope pk e c = .ok (r, c') ↔ r = (T.get c.db).find scope pk ∧ c' = c) ∧
    ∀ (σ α : Type) [LinearOrder σ] (T : TableRef σ α) scope pk msg e c a c',
      getRow T scope pk msg e c = .ok (a, c') ↔ (T.get c.db).find scope pk = some a ∧ c' = c :=
  ⟨fun _ _ _ _ _ => requireAuth_eq_ok, fun _ _ _ _ _ _ _ => eosioAssert_eq_ok,
    fun _ _ _ _ => currentBlockNum_eq_ok, fun _ _ _ _ => currentTime_eq_ok,
    fun _ _ _ _ _ _ _ _ _ _ => findRow_eq_ok, fun _ _ _ _ _ _ _ _ _ _ _ => getRow_eq_ok⟩

/-- `c'` is `c` with the row at `scope`, `pk` of the table `T` set to `o`, whatever RAM that
billed. -/
def Ctx.Writes (T : TableRef σ α) (scope : σ) (pk : Name) (o : Option α) (c c' : Ctx) : Prop :=
  ∃ t ram, (T.get c.db).Writes scope pk o t ∧
    c' = { c with db := T.set c.db t, ramDeltas := ram }

variable [PackSize α]

theorem emplace_eq_ok (h : emplace T scope payer pk a e c = .ok (u, c')) :
    (T.get c.db).find scope pk = none ∧ c.Writes T scope pk (some a) c' := by
  simp only [emplace, bind_eq_ok, exists_unit, readTable_eq_ok, eosioAssert_eq_ok,
    whenever_eq_ok, and_assoc, exists_and_left, exists_eq_left] at h
  obtain ⟨c₁, htab, -, hnone, c₂, hw, hb⟩ := h
  have h₁ : ∃ ram, c₁ = { c with ramDeltas := ram } := by
    rcases htab with ⟨-, htab⟩ | ⟨-, rfl⟩
    · exact ⟨_, updateDbUsage_eq_ok htab⟩
    · exact ⟨c₁.ramDeltas, rfl⟩
  obtain ⟨ram, rfl⟩ := h₁
  cases hw
  exact ⟨hnone, _, _, .of_store _ _ payer _ _, updateDbUsage_eq_ok hb⟩

theorem billUpdate_eq_ok {row : Row α} (h : billUpdate row payer a e c = .ok (u, c')) :
    ∃ ram, c' = { c with ramDeltas := ram } := by
  simp only [billUpdate, ite_run] at h
  split_ifs at h
  · obtain ⟨_, c₁, h₁, h₂⟩ := bind_eq_ok.mp h
    rw [updateDbUsage_eq_ok h₂, updateDbUsage_eq_ok h₁]
    exact ⟨_, rfl⟩
  · rcases whenever_eq_ok.mp h with ⟨-, h⟩ | ⟨-, rfl⟩
    · exact ⟨_, updateDbUsage_eq_ok h⟩
    · exact ⟨c'.ramDeltas, rfl⟩

theorem dbUpdate_eq_ok (h : dbUpdate T scope pk payer a e c = .ok (u, c')) :
    c.Writes T scope pk (some a) c' := by
  simp only [dbUpdate, bind_eq_ok, readTable_eq_ok, and_assoc, exists_and_left,
    exists_eq_left] at h
  cases hrow : (T.get c.db).findRow scope pk with
  | none =>
    rw [hrow] at h
    exact absurd h fail_ne_ok
  | some =>
    simp only [hrow, bind_eq_ok, exists_unit] at h
    obtain ⟨c₁, hb, hw⟩ := h
    obtain ⟨ram, rfl⟩ := billUpdate_eq_ok hb
    cases hw
    exact ⟨_, _, .of_update _ _ _ _ _, rfl⟩

theorem modifyRow_eq_ok {updater : α → ContractM α}
    (h : modifyRow T scope pk payer updater e c = .ok (u, c')) :
    ∃ b b' c₁, (T.get c.db).find scope pk = some b ∧ updater b e c = .ok (b', c₁) ∧
      c₁.Writes T scope pk (some b') c' := by
  simp only [modifyRow, bind_eq_ok, getRow_eq_ok, and_assoc, exists_and_left,
    exists_eq_left] at h
  obtain ⟨b, hb, b', c₁, hu, hd⟩ := h
  exact ⟨b, b', c₁, hb, hu, dbUpdate_eq_ok hd⟩

variable {v : α}

theorem modifyRow_of_find {updater : α → ContractM α}
    (h : modifyRow T scope pk payer updater e c = .ok (u, c'))
    (hv : (T.get c.db).find scope pk = some v) :
    ∃ v' c₁, updater v e c = .ok (v', c₁) ∧ c₁.Writes T scope pk (some v') c' := by
  obtain ⟨b, b', c₁, hb, hu, hw⟩ := modifyRow_eq_ok h
  obtain rfl : v = b := Option.some.inj (hv.symm.trans hb)
  exact ⟨b', c₁, hu, hw⟩

theorem modifyRow_lift {updater : α → Except String α}
    (h : modifyRow T scope pk payer (fun b => liftM (updater b)) e c = .ok (u, c'))
    (hv : (T.get c.db).find scope pk = some v) :
    ∃ v', updater v = .ok v' ∧ c.Writes T scope pk (some v') c' := by
  obtain ⟨v', c₁, hu, hw⟩ := modifyRow_of_find h hv
  obtain ⟨hv', rfl⟩ := lift_eq_ok.mp hu
  exact ⟨v', hv', hw⟩

theorem modifyRow_pure {f : α → α}
    (h : modifyRow T scope pk payer (fun b => pure (f b)) e c = .ok (u, c')) :
    ∃ b, (T.get c.db).find scope pk = some b ∧ c.Writes T scope pk (some (f b)) c' := by
  obtain ⟨b, b', c₁, hb, hu, hw⟩ := modifyRow_eq_ok h
  obtain ⟨rfl, rfl⟩ := pure_eq_ok.mp hu
  exact ⟨b, hb, hw⟩

theorem eraseRow_eq_ok (h : eraseRow T scope pk e c = .ok (u, c')) :
    (T.get c.db).find scope pk ≠ none ∧ c.Writes T scope pk none c' := by
  simp only [eraseRow, bind_eq_ok, readTable_eq_ok, and_assoc, exists_and_left,
    exists_eq_left] at h
  cases hrow : (T.get c.db).findRow scope pk with
  | none =>
    rw [hrow] at h
    exact absurd h fail_ne_ok
  | some =>
    simp only [hrow, bind_eq_ok, exists_unit] at h
    obtain ⟨c₁, hb, c₂, ht, hw⟩ := h
    have h₂ : ∃ ram, c₂ = { c with ramDeltas := ram } := by
      cases htid : (T.get c.db).tables.find scope with
      | none =>
        rw [htid, billRemoveTable, pure_eq_ok] at ht
        rw [ht.2, updateDbUsage_eq_ok hb]
        exact ⟨_, rfl⟩
      | some =>
        rw [htid, billRemoveTable, whenever_eq_ok] at ht
        rcases ht with ⟨-, ht⟩ | ⟨-, rfl⟩
        · rw [updateDbUsage_eq_ok ht, updateDbUsage_eq_ok hb]
          exact ⟨_, rfl⟩
        · exact ⟨_, updateDbUsage_eq_ok hb⟩
    obtain ⟨ram, rfl⟩ := h₂
    cases hw
    refine ⟨fun hn => ?_, _, _, .of_remove _ _ _, rfl⟩
    rw [MultiIndex.find_eq_none_iff, hrow] at hn
    cases hn

/-! ### Rows that can be written

A privileged contract may bill any account, another one the accounts that have authorised it. With
that, all it needs to rewrite a row is the row. -/

variable {b b' : α} {updater : α → ContractM α}

theorem updateDbUsage_of_auth (h : delta ≤ 0 ∨ isPrivileged e.receiver = true ∨ e.HasAuth payer) :
    updateDbUsage payer delta e c =
      .ok ((), { c with ramDeltas := c.ramDeltas ++ [(payer, delta)] }) := by
  have hpass : whenever (0 < delta ∧ ¬ (isPrivileged e.receiver ∨ payer = e.receiver))
      (requireAuth payer) e c = .ok ((), c) := by
    rw [whenever_eq_ok, requireAuth_eq_ok]
    rcases h with h | h | h
    · exact .inr ⟨fun hneg => not_lt.mpr h hneg.1, rfl⟩
    · exact .inr ⟨fun hneg => hneg.2 (.inl h), rfl⟩
    · exact (em _).imp (fun hneg => ⟨hneg, h, rfl⟩) fun hneg => ⟨hneg, rfl⟩
  show (whenever (0 < delta ∧ ¬ (isPrivileged e.receiver ∨ payer = e.receiver))
      (requireAuth payer) >>= fun _ => addRamUsage payer delta) e c = _
  rw [bind_of_ok hpass]
  rfl

theorem exists_billUpdate (he : isPrivileged e.receiver = true ∨ e.HasAuth payer) (row : Row α) :
    ∃ ram, billUpdate row payer a e c = .ok ((), { c with ramDeltas := ram }) := by
  simp only [billUpdate, ite_run]
  split_ifs with hpayer
  · exact ⟨_, (bind_of_ok (updateDbUsage_of_auth (.inl (by unfold keyValueBytes; omega)))).trans
      (updateDbUsage_of_auth (.inr he))⟩
  · rw [whenever, ite_run]
    split_ifs with hsize
    · exact ⟨_, updateDbUsage_of_auth (.inr (not_not.mp hpayer ▸ he))⟩
    · exact ⟨_, rfl⟩

theorem exists_dbUpdate (he : isPrivileged e.receiver = true ∨ payer ≠ 0 ∧ e.HasAuth payer)
    (hrow : (T.get c.db).find scope pk ≠ none) :
    ∃ c', dbUpdate T scope pk payer a e c = .ok ((), c') := by
  rw [Ne, MultiIndex.find_eq_none_iff] at hrow
  obtain ⟨row, hfind⟩ := Option.ne_none_iff_exists'.mp hrow
  obtain ⟨ram, hbill⟩ : ∃ ram, billUpdate row (newPayer payer row) a e c =
      .ok ((), { c with ramDeltas := ram }) := by
    refine exists_billUpdate (he.imp_right fun h => ?_) row
    rw [newPayer, if_neg h.1]
    exact h.2
  rw [dbUpdate, bind_of_ok (readTable_eq_ok.mpr ⟨rfl, rfl⟩)]
  simp only [hfind]
  rw [bind_of_ok hbill]
  exact ⟨_, rfl⟩

theorem exists_modifyRow {c₁ : Ctx}
    (he : isPrivileged e.receiver = true ∨ payer ≠ 0 ∧ e.HasAuth payer)
    (hb : (T.get c.db).find scope pk = some b) (hu : updater b e c = .ok (b', c₁))
    (hkeep : (T.get c₁.db).find scope pk ≠ none) :
    ∃ c', modifyRow T scope pk payer updater e c = .ok ((), c') := by
  rw [modifyRow, bind_of_ok (getRow_eq_ok.mpr ⟨hb, rfl⟩), bind_of_ok hu]
  exact exists_dbUpdate he hkeep

theorem exists_eraseRow (hrow : (T.get c.db).find scope pk ≠ none) :
    ∃ c', eraseRow T scope pk e c = .ok ((), c') := by
  rw [Ne, MultiIndex.find_eq_none_iff] at hrow
  obtain ⟨row, hfind⟩ := Option.ne_none_iff_exists'.mp hrow
  rw [eraseRow, bind_of_ok (readTable_eq_ok.mpr ⟨rfl, rfl⟩)]
  simp only [hfind]
  rw [bind_of_ok (updateDbUsage_of_auth (.inl (by unfold keyValueBytes; omega)))]
  have htable (tid : Option TableId) (c : Ctx) :
      ∃ c', billRemoveTable tid e c = .ok ((), c') := by
    cases tid with
    | none => exact ⟨_, rfl⟩
    | some =>
      rw [billRemoveTable, whenever, ite_run]
      split_ifs
      · exact ⟨_, updateDbUsage_of_auth (.inl (by decide))⟩
      · exact ⟨_, rfl⟩
  obtain ⟨c₁, hc₁⟩ := htable _ _
  rw [bind_of_ok hc₁]
  exact ⟨_, rfl⟩

theorem modifyRow_of_error {m : String} (hb : (T.get c.db).find scope pk = some b)
    (hu : updater b e c = .error m) : modifyRow T scope pk payer updater e c = .error m := by
  rw [modifyRow, bind_of_ok (getRow_eq_ok.mpr ⟨hb, rfl⟩)]
  exact bind_of_error hu

end TableLemmas

/-! ## The tables of `noc.system` and `noc.token` -/

def freezedTable : TableRef Unit FreezeInfo := ⟨(·.freezed), fun d t => { d with freezed := t }⟩
def votesTable : TableRef Name VoteInfo := ⟨(·.votes), fun d t => { d with votes := t }⟩
def voterTable : TableRef Unit VoterInfo := ⟨(·.voterinfo), fun d t => { d with voterinfo := t }⟩
def vote4ramsumTable : TableRef Unit Vote4ramInfo :=
  ⟨(·.vote4ramsum), fun d t => { d with vote4ramsum := t }⟩
def bpsTable : TableRef Unit BpInfo := ⟨(·.bps), fun d t => { d with bps := t }⟩
def bpopenedTable : TableRef Unit BpOpened := ⟨(·.bpopened), fun d t => { d with bpopened := t }⟩
def schedulesTable : TableRef Unit ScheduleInfo :=
  ⟨(·.schedules), fun d t => { d with schedules := t }⟩
def vidsTable : TableRef Unit VidInfo := ⟨(·.vids), fun d t => { d with vids := t }⟩
def vidStatsTable : TableRef Unit VidState := ⟨(·.vidstates), fun d t => { d with vidstates := t }⟩
def vidParamsTable : TableRef Unit VidParams := ⟨(·.vidparam), fun d t => { d with vidparam := t }⟩
def userResourcesTable : TableRef Name UserResources :=
  ⟨(·.userres), fun d t => { d with userres := t }⟩
def delBandwidthTable : TableRef Name DelegatedBandwidth :=
  ⟨(·.delband), fun d t => { d with delband := t }⟩
def refundsTable : TableRef Name RefundRequest := ⟨(·.refunds), fun d t => { d with refunds := t }⟩
def accountsTable : TableRef Name Account := ⟨(·.accounts), fun d t => { d with accounts := t }⟩
def statsTable : TableRef Name CurrencyStats := ⟨(·.stat), fun d t => { d with stat := t }⟩

@[simp] theorem freezedTable_get (d : Db) : freezedTable.get d = d.freezed := rfl
@[simp] theorem votesTable_get (d : Db) : votesTable.get d = d.votes := rfl
@[simp] theorem voterTable_get (d : Db) : voterTable.get d = d.voterinfo := rfl
@[simp] theorem vote4ramsumTable_get (d : Db) : vote4ramsumTable.get d = d.vote4ramsum := rfl
@[simp] theorem bpsTable_get (d : Db) : bpsTable.get d = d.bps := rfl
@[simp] theorem bpopenedTable_get (d : Db) : bpopenedTable.get d = d.bpopened := rfl
@[simp] theorem schedulesTable_get (d : Db) : schedulesTable.get d = d.schedules := rfl
@[simp] theorem vidsTable_get (d : Db) : vidsTable.get d = d.vids := rfl
@[simp] theorem vidStatsTable_get (d : Db) : vidStatsTable.get d = d.vidstates := rfl
@[simp] theorem vidParamsTable_get (d : Db) : vidParamsTable.get d = d.vidparam := rfl
@[simp] theorem userResourcesTable_get (d : Db) : userResourcesTable.get d = d.userres := rfl
@[simp] theorem delBandwidthTable_get (d : Db) : delBandwidthTable.get d = d.delband := rfl
@[simp] theorem refundsTable_get (d : Db) : refundsTable.get d = d.refunds := rfl
@[simp] theorem accountsTable_get (d : Db) : accountsTable.get d = d.accounts := rfl
@[simp] theorem statsTable_get (d : Db) : statsTable.get d = d.stat := rfl

/-! ## Inline actions -/

/-- Send an inline action. -/
def executeInline (a : Action) : ContractM Unit := fun e c => do
  Commons.check (e.world.isAccount a.account) "inline action's code account does not exist"
  a.authorization.forM fun auth => do
    Commons.check (e.world.isAccount auth.actor) "inline action's authorizing actor does not exist"
    Commons.check (e.world.findPermission auth)
      "inline action's authorizations include a non-existent permission"
  Commons.check (isPrivileged e.receiver ∨ e.world.checkAuthorization e.receiver a ∨
    (a.account = e.receiver ∧ ¬ e.world.isProducingBlock)) "inline action is not authorized"
  return ((), { c with inlineActions := c.inlineActions ++ [a] })

theorem executeInline_eq_ok {a : Action} {e : Env} {c c' : Ctx} {u : Unit}
    (h : executeInline a e c = .ok (u, c')) :
    c' = { c with inlineActions := c.inlineActions ++ [a] } := by
  simp only [executeInline, Commons.bind_eq_ok, Commons.pure_eq_ok] at h
  obtain ⟨-, -, -, -, -, -, h⟩ := h
  exact (Prod.mk.inj h).2

end BaccChain
