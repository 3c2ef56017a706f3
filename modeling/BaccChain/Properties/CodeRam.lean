import BaccChain.Chain.NativeGenesis
import BaccChain.Properties.AccountControl

/-!
# The RAM of code and interfaces

`setcode` and `setabi` bill a difference of sizes to the account that pays at this time: the system
account while the gate for setting code is closed, the owner of the code after that.

## Main definitions

* `Balanced`: what was billed is what is stored
* `SamePayer`: the payer has not changed

## Main results

* `code_ram_iff`: when the ledger is balanced
* `refund_to_other_payer`: a refund to another payer
-/

namespace BaccChain

open Commons (Table)
open Genesis (alice bob)

namespace Native

/-! ## The ledger -/

/-- A native action in its environment, or a new number in the configuration. -/
inductive CodeInput
  | action (e : NativeEnv) (act : NativeAction)
  | setNumConfigOnChain (typ : Name) (num : Int)

/-- The tables and the bills for code and interfaces, and who has paid for the code and for the
interface of an account. -/
structure CodeLedger where
  db : NativeDb
  ramDeltas : List (Name × Int) := []
  codePayer : Name → Name := id
  abiPayer : Name → Name := id

namespace CodeLedger

def record (s : CodeLedger) (e : NativeEnv) (c : NativeCtx) : NativeAction → CodeLedger
  | .setcode account _ _ _ =>
    { s with
      db := c.db
      ramDeltas := c.ramDeltas
      codePayer := Function.update s.codePayer account (payAccount e s.db account) }
  | .setabi account _ =>
    { s with
      db := c.db
      ramDeltas := c.ramDeltas
      abiPayer := Function.update s.abiPayer account (payAccount e s.db account) }
  | _ => { s with db := c.db }

def paidBy (s : CodeLedger) (payer account : Name) (a : AccountObject) : Int :=
  (if s.codePayer account = payer then a.code.length * setcodeRamBytesMultiplier else 0) +
    if s.abiPayer account = payer then (a.abi.length : Int) else 0

/-- Every account has paid for what it pays for. -/
def Balanced (s : CodeLedger) : Prop :=
  ∀ payer, charged s.ramDeltas payer = s.db.accounts.sum (s.paidBy payer)

end CodeLedger

def codeStep : CodeInput → CodeLedger → Except String CodeLedger
  | .action e act, s => do
    let r ← handle act e { db := s.db, ramDeltas := s.ramDeltas }
    return s.record e r.2 act
  | .setNumConfigOnChain typ num, s =>
    .ok { s with db := { s.db with configNum := s.db.configNum.insert typ num } }

/-- What `setcode` or `setabi` replaces is empty, or has been paid for by the account that pays
now. -/
def SamePayer (s : CodeLedger) : CodeInput → Prop
  | .action e (.setcode account _ _ _) => s.codePayer account = payAccount e s.db account ∨
      ∀ a, s.db.accounts.find account = some a → a.code = []
  | .action e (.setabi account _) => s.abiPayer account = payAccount e s.db account ∨
      ∀ a, s.db.accounts.find account = some a → a.abi = []
  | _ => True

/-! ## What the inputs do to the balance -/

variable {s s' : CodeLedger} {e : NativeEnv} {c' : NativeCtx} {act : NativeAction} {account : Name}
  {a a' : AccountObject}

theorem sum_insert_agree_off {t : Table Name AccountObject} {f f' : Name → AccountObject → Int}
    (ha : t.find account = some a) (hf : ∀ k b, k ≠ account → f' k b = f k b) :
    (t.insert account a').sum f' = t.sum f + (f' account a' - f account a) := by
  have hinsert := t.sum_insert f' account a'
  have hagree := t.sum_eq_of_agree_off (f := f') (g := f) account fun k b hk _ => hf k b hk
  rw [Table.weightAt_of_find ha] at hinsert
  rw [Table.weightAt_of_find ha, Table.weightAt_of_find ha] at hagree
  omega

theorem move_bill_iff {old new : Name} {size : Int} :
    (∀ payer, (if new = payer then size else 0) = if old = payer then size else 0) ↔
      old = new ∨ size = 0 := by
  constructor
  · intro h
    by_cases hpayer : old = new
    · exact .inl hpayer
    · have hnew := h new
      rw [if_pos rfl, if_neg hpayer] at hnew
      exact .inr hnew
  · rintro (rfl | rfl) payer
    · rfl
    · rw [ite_self, ite_self]

theorem codeSize_eq_zero {code : List UInt8} :
    (code.length : Int) * setcodeRamBytesMultiplier = 0 ↔ code = [] := by
  rw [← List.length_eq_zero_iff, setcodeRamBytesMultiplier]
  omega

theorem abiSize_eq_zero {abi : List UInt8} : (abi.length : Int) = 0 ↔ abi = [] := by
  rw [← List.length_eq_zero_iff]
  omega

namespace CodeLedger

theorem balanced_iff_of_moves (h : s.Balanced) {old new : Name} {oldSize newSize : Int}
    (hcharged : ∀ payer, charged s'.ramDeltas payer =
      charged s.ramDeltas payer + if new = payer then newSize - oldSize else 0)
    (hsum : ∀ payer, s'.db.accounts.sum (s'.paidBy payer) = s.db.accounts.sum (s.paidBy payer) +
      ((if new = payer then newSize else 0) - if old = payer then oldSize else 0)) :
    s'.Balanced ↔ old = new ∨ oldSize = 0 := by
  rw [← move_bill_iff]
  refine forall_congr' fun payer => ?_
  rw [hcharged, hsum, h payer]
  split_ifs <;> omega

theorem sum_setcode {code : List UInt8} {new : Name}
    (ha : s.db.accounts.find account = some a)
    (haccounts : s'.db.accounts = s.db.accounts.insert account a')
    (hcode : a'.code = code) (habi : a'.abi = a.abi)
    (hpayer : s'.codePayer = Function.update s.codePayer account new)
    (habiPayer : s'.abiPayer = s.abiPayer) (payer : Name) :
    s'.db.accounts.sum (s'.paidBy payer) = s.db.accounts.sum (s.paidBy payer) +
      ((if new = payer then code.length * setcodeRamBytesMultiplier else 0) -
        if s.codePayer account = payer then a.code.length * setcodeRamBytesMultiplier else 0) := by
  have hoff (k : Name) (b : AccountObject) (hk : k ≠ account) :
      s'.paidBy payer k b = s.paidBy payer k b := by
    rw [paidBy, hpayer, Function.update_of_ne hk, habiPayer, paidBy]
  rw [haccounts, sum_insert_agree_off ha hoff, paidBy, paidBy, hpayer, Function.update_self,
    habiPayer, hcode, habi]
  omega

theorem sum_setabi {abi : List UInt8} {new : Name}
    (ha : s.db.accounts.find account = some a)
    (haccounts : s'.db.accounts = s.db.accounts.insert account a')
    (habi : a'.abi = abi) (hcode : a'.code = a.code)
    (hpayer : s'.abiPayer = Function.update s.abiPayer account new)
    (hcodePayer : s'.codePayer = s.codePayer) (payer : Name) :
    s'.db.accounts.sum (s'.paidBy payer) = s.db.accounts.sum (s.paidBy payer) +
      ((if new = payer then (abi.length : Int) else 0) -
        if s.abiPayer account = payer then (a.abi.length : Int) else 0) := by
  have hoff (k : Name) (b : AccountObject) (hk : k ≠ account) :
      s'.paidBy payer k b = s.paidBy payer k b := by
    rw [paidBy, hpayer, Function.update_of_ne hk, hcodePayer, paidBy]
  rw [haccounts, sum_insert_agree_off ha hoff, paidBy, paidBy, hpayer, Function.update_self,
    hcodePayer, hcode, habi]
  omega

theorem Balanced.of_sum (h : s.Balanced) (hdeltas : s'.ramDeltas = s.ramDeltas)
    (hsum : ∀ payer, s'.db.accounts.sum (s'.paidBy payer) = s.db.accounts.sum (s.paidBy payer)) :
    s'.Balanced := by
  intro payer
  rw [hdeltas, hsum, h payer]

theorem balanced_step_iff {i : CodeInput} (h : s.Balanced) (hstep : codeStep i s = .ok s') :
    s'.Balanced ↔ SamePayer s i := by
  cases i with
  | setNumConfigOnChain =>
    obtain rfl := Except.ok.inj hstep
    exact iff_of_true h trivial
  | action e =>
    obtain ⟨⟨u, c'⟩, hhandle, hret⟩ := Commons.bind_eq_ok.mp hstep
    obtain rfl := Commons.pure_eq_ok.mp hret
    cases handle_effect hhandle with
    | @setcode account vmtype vmversion code a _ ha =>
      refine Iff.trans (balanced_iff_of_moves h (fun payer => ?_)
        (sum_setcode ha rfl rfl rfl rfl rfl)) ?_
      · exact (charged_append _ _ _).trans (congrArg _ (charged_billed _ _ _ _))
      · rw [codeSize_eq_zero, SamePayer]
        refine or_congr_right ⟨fun hcode b hb => ?_, fun hcode => hcode a ha⟩
        exact Option.some.inj (ha.symm.trans hb) ▸ hcode
    | @setabi account abi a _ ha =>
      refine Iff.trans (balanced_iff_of_moves h (fun payer => ?_)
        (sum_setabi ha rfl rfl rfl rfl rfl)) ?_
      · exact (charged_append _ _ _).trans (congrArg _ (charged_billed _ _ _ _))
      · rw [abiSize_eq_zero, SamePayer]
        refine or_congr_right ⟨fun habi b hb => ?_, fun habi => habi a ha⟩
        exact Option.some.inj (ha.symm.trans hb) ▸ habi
    | @newaccount creator name owner active _ hfresh _ _ =>
      refine iff_of_true (h.of_sum rfl fun payer => ?_) trivial
      have hsum := s.db.accounts.sum_insert (s.paidBy payer) name
        { creationDate := e.pendingBlockTime }
      rw [Table.weightAt_of_find_none hfresh, add_zero] at hsum
      refine hsum.trans ?_
      simp [paidBy]
    | updateauth => exact iff_of_true h trivial
    | createauth => exact iff_of_true h trivial
    | deleteauth => exact iff_of_true h trivial
    | linkauth => exact iff_of_true h trivial
    | unlinkauth => exact iff_of_true h trivial

end CodeLedger

end Native

/-! ## Code and interfaces of genesis -/

namespace NativeGenesis

open Native (setcodeRamBytesMultiplier)

variable {g : NativeGenesis} {c c' : GenesisCtx} {w : Name → List UInt8 → List UInt8 → Int}
  {total : Int} {bills : List (Name × Int)}

/-- The accounts at a point of genesis where the system account and the native account exist: a
weight of code and interface adds up to `total`, and `bills` have been made for code and
interfaces. -/
structure CodeTotal (w : Name → List UInt8 → List UInt8 → Int) (total : Int)
    (bills : List (Name × Int)) (c : GenesisCtx) : Prop where
  system : c.db.accounts.find systemAccountName ≠ none
  native : c.db.accounts.find nativeAccountName ≠ none
  sum_eq : c.db.accounts.sum (fun name a => w name a.code a.abi) = total
  bills_eq : c.contractRam = bills

variable {name : Name} {owner active : Authority} {isPrivileged : Bool}

theorem createNativeAccount_accounts
    (h : g.createNativeAccount name owner active isPrivileged c = .ok c') :
    c.db.accounts.find name = none ∧ c'.contractRam = c.contractRam ∧
      c'.db.accounts = c.db.accounts.insert name (nativeAccount g name isPrivileged) := by
  obtain ⟨hfresh, -, -, hram, hdb⟩ := createNativeAccount_eq_ok h
  refine ⟨hfresh, hram, ?_⟩
  rw [hdb]
  rfl

theorem createNativeAccount_sum
    (h : g.createNativeAccount name owner active isPrivileged c = .ok c') :
    c'.db.accounts.sum (fun name a => w name a.code a.abi) =
      c.db.accounts.sum (fun name a => w name a.code a.abi) + w name [] (g.defaultAbi name) := by
  obtain ⟨hfresh, -, haccounts⟩ := createNativeAccount_accounts h
  have hsum := c.db.accounts.sum_insert (fun name a => w name a.code a.abi) name
    (nativeAccount g name isPrivileged)
  rw [Table.weightAt_of_find_none hfresh, add_zero] at hsum
  rw [haccounts, hsum]
  rfl

theorem find_created (h : g.createNativeAccount name owner active isPrivileged c = .ok c') :
    c'.db.accounts.find name = some (nativeAccount g name isPrivileged) := by
  rw [(createNativeAccount_accounts h).2.2, Table.find_insert_self]

theorem createNativeAccount_find
    (h : g.createNativeAccount name owner active isPrivileged c = .ok c') {account : Name}
    {a : AccountObject} (ha : c.db.accounts.find account = some a) :
    c'.db.accounts.find account = some a := by
  obtain ⟨hfresh, -, haccounts⟩ := createNativeAccount_accounts h
  have hne : name ≠ account := by
    rintro rfl
    rw [hfresh] at ha
    cases ha
  rw [haccounts, Table.find_insert_ne _ _ hne, ha]

theorem CodeTotal.create (hw : ∀ name, w name [] [] = 0) (h : CodeTotal w total bills c)
    (hstep : g.createNativeAccount name owner active isPrivileged c = .ok c') :
    CodeTotal w total bills c' := by
  obtain ⟨hfresh, hram, -⟩ := createNativeAccount_accounts hstep
  obtain ⟨a, ha⟩ := Option.ne_none_iff_exists'.mp h.system
  obtain ⟨b, hb⟩ := Option.ne_none_iff_exists'.mp h.native
  have habi : g.defaultAbi name = [] := by
    unfold defaultAbi
    rw [if_neg, if_neg]
    · rintro rfl
      exact h.native hfresh
    · rintro rfl
      exact h.system hfresh
  have hsum := createNativeAccount_sum (w := w) hstep
  rw [habi, hw, add_zero, h.sum_eq] at hsum
  refine ⟨?_, ?_, hsum, hram.trans h.bills_eq⟩
  · rw [createNativeAccount_find hstep ha]
    exact Option.some_ne_none a
  · rw [createNativeAccount_find hstep hb]
    exact Option.some_ne_none b

theorem initializeContract_find {contract : Name} {code abi : List UInt8} {privileged : Bool}
    (hstep : g.initializeContract contract code abi privileged c = .ok c') {account : Name}
    (hne : contract ≠ account) : c'.db.accounts.find account = c.db.accounts.find account := by
  obtain ⟨a, s, -, rfl⟩ := initializeContract_eq_ok hstep
  exact Table.find_insert_ne _ _ hne

theorem CodeTotal.contract {contract : Name} {code abi : List UInt8} {privileged : Bool}
    {a : AccountObject} (h : CodeTotal w total bills c) (ha : c.db.accounts.find contract = some a)
    (hstep : g.initializeContract contract code abi privileged c = .ok c') :
    CodeTotal w (total + (w contract code abi - w contract a.code a.abi))
      (bills ++ [(contract, ((code.length : Int) + abi.length) * setcodeRamBytesMultiplier)])
        c' := by
  obtain ⟨a₀, s, ha₀, rfl⟩ := initializeContract_eq_ok hstep
  obtain rfl := Option.some.inj (ha.symm.trans ha₀)
  refine ⟨?_, ?_, ?_, congrArg (· ++ _) h.bills_eq⟩
  · dsimp only
    rw [Table.find_insert]
    split_ifs
    · exact Option.some_ne_none _
    · exact h.system
  · dsimp only
    rw [Table.find_insert]
    split_ifs
    · exact Option.some_ne_none _
    · exact h.native
  · rw [← h.sum_eq]
    exact Native.sum_insert_agree_off ha fun _ _ _ => rfl

/-- **Code, interfaces and bills at the start of the chain**: three contracts have both and are
billed for both at the price of code, and the native account has an interface. -/
theorem genesis_accounts (hw : ∀ name, w name [] [] = 0) (h : g.initializeDatabase = .ok c) :
    CodeTotal w (w nativeAccountName [] g.nativeContractAbi +
        w systemAccountName g.systemCode g.systemAbi + w tokenAccountName g.tokenCode g.tokenAbi +
        w msigAccountName g.msigCode g.msigAbi)
      [(systemAccountName,
          ((g.systemCode.length : Int) + g.systemAbi.length) * setcodeRamBytesMultiplier),
        (tokenAccountName,
          ((g.tokenCode.length : Int) + g.tokenAbi.length) * setcodeRamBytesMultiplier),
        (msigAccountName,
          ((g.msigCode.length : Int) + g.msigAbi.length) * setcodeRamBytesMultiplier)] c := by
  simp only [initializeDatabase, initializeDatabaseForce, Commons.bind_eq_ok,
    Commons.pure_eq_ok] at h
  obtain ⟨c₁, h₁, c₂, h₂, c₁₀, ⟨c₃, h₃, c₄, h₄, c₅, h₅, c₆, h₆, c₇, h₇, c₈, h₈, c₉, h₉, c₉', h₉',
    rfl⟩, c₁₁, h₁₁, c₁₂, h₁₂, c₁₃, h₁₃, h₁₄⟩ := h
  have f₁ := find_created h₁
  have t₂ : CodeTotal w (w systemAccountName [] g.eosioContractAbi +
      w nativeAccountName [] g.nativeContractAbi) [] c₂ := by
    refine ⟨?_, ?_, ?_, ?_⟩
    · rw [createNativeAccount_find h₂ f₁]
      exact Option.some_ne_none _
    · rw [find_created h₂]
      exact Option.some_ne_none _
    · rw [createNativeAccount_sum h₂, createNativeAccount_sum h₁]
      exact congrArg (· + _) (zero_add _)
    · exact (createNativeAccount_accounts h₂).2.1.trans (createNativeAccount_accounts h₁).2.1
  have t₅ := ((t₂.create hw h₃).create hw h₄).create hw h₅
  have fs₂ := createNativeAccount_find h₂ f₁
  have fs₅ := createNativeAccount_find h₅ (createNativeAccount_find h₄
    (createNativeAccount_find h₃ fs₂))
  have ft₅ := createNativeAccount_find h₅ (createNativeAccount_find h₄ (find_created h₃))
  have fm₅ := createNativeAccount_find h₅ (find_created h₄)
  have hst : systemAccountName ≠ tokenAccountName := by decide
  have hsm : systemAccountName ≠ msigAccountName := by decide
  have htm : tokenAccountName ≠ msigAccountName := by decide
  have ft₆ := (initializeContract_find h₆ hst).trans ft₅
  have fm₇ := (initializeContract_find h₇ htm).trans ((initializeContract_find h₆ hsm).trans fm₅)
  have t₈ := ((t₅.contract fs₅ h₆).contract ft₆ h₇).contract fm₇ h₈
  have t₉ := Commons.foldlM_induction (CodeTotal w _ _)
    (fun a _ c c' hstep hc => hc.create hw hstep) h₉ t₈
  obtain ⟨p, -, rfl⟩ := updateEosioAuthority_eq_ok h₉'
  have t₁₀ : CodeTotal w _ _ { c₉ with db := { c₉.db with
      permissions := c₉.db.permissions.insert (toLex (systemAccountName, activeName))
        { p with auth := activeAuthority producersAccountName }
      configNum := c₉.db.configNum.insert freeRamPerAccount (8 * 1024) } } :=
    ⟨t₉.system, t₉.native, t₉.sum_eq, t₉.bills_eq⟩
  have t₁₂ := (t₁₀.create hw h₁₁).create hw h₁₂
  obtain ⟨q, -, -, rfl⟩ := createProducersPermission_eq_ok h₁₃
  obtain ⟨r, -, -, rfl⟩ := createProducersPermission_eq_ok h₁₄
  refine ⟨t₁₂.system, t₁₂.native, t₁₂.sum_eq.trans ?_, t₁₂.bills_eq⟩
  have hsystem : (nativeAccount g systemAccountName true).abi = g.eosioContractAbi := rfl
  have htoken : (nativeAccount g tokenAccountName false).abi = [] := rfl
  have hmsig : (nativeAccount g msigAccountName false).abi = [] := rfl
  have hcode (name : Name) (isPrivileged : Bool) : (nativeAccount g name isPrivileged).code = [] :=
    rfl
  rw [hcode, hcode, hcode, hsystem, htoken, hmsig, hw, hw]
  omega

end NativeGenesis

/-! ## Runs from genesis -/

namespace Native

def genesisLedger (c : GenesisCtx) : CodeLedger := { db := c.db, ramDeltas := c.contractRam }

/-- What code and interface of an account cost. -/
def codeRam (a : AccountObject) : Int := a.code.length * setcodeRamBytesMultiplier + a.abi.length

def totalCharged (ramDeltas : List (Name × Int)) : Int := (ramDeltas.map Prod.snd).sum

variable {g : NativeGenesis} {c : GenesisCtx} {s s' : CodeLedger}

theorem genesisLedger_balanced_iff (hc : g.initializeDatabase = .ok c) :
    (genesisLedger c).Balanced ↔ g.systemAbi = [] ∧ g.tokenAbi = [] ∧ g.msigAbi = [] ∧
      g.nativeContractAbi = [] := by
  have hpaid (payer : Name) := NativeGenesis.genesis_accounts
    (w := fun name code abi =>
      (if name = payer then (code.length : Int) * setcodeRamBytesMultiplier else 0) +
        if name = payer then (abi.length : Int) else 0)
    (fun name => by simp) hc
  have hsum (payer : Name) :
      (genesisLedger c).db.accounts.sum ((genesisLedger c).paidBy payer) = _ :=
    (hpaid payer).sum_eq
  have hbills : (genesisLedger c).ramDeltas = _ := (hpaid 0).bills_eq
  unfold CodeLedger.Balanced
  simp only [hsum, hbills, charged, List.map_cons, List.map_nil, List.sum_cons, List.sum_nil,
    setcodeRamBytesMultiplier, ← List.length_eq_zero_iff]
  constructor
  · intro h
    have hsystem := h systemAccountName
    have htoken := h tokenAccountName
    have hmsig := h msigAccountName
    have hnative := h nativeAccountName
    simp [systemAccountName, tokenAccountName, msigAccountName, nativeAccountName]
      at hsystem htoken hmsig hnative
    omega
  · rintro ⟨hsystem, htoken, hmsig, hnative⟩ payer
    rw [hsystem, htoken, hmsig, hnative]
    split_ifs <;> simp [add_assoc]

theorem totalCharged_append (d d' : List (Name × Int)) :
    totalCharged (d ++ d') = totalCharged d + totalCharged d' := by
  simp only [totalCharged, List.map_append, List.sum_append]

theorem totalCharged_billed (payer : Name) (oldSize newSize : Int) :
    totalCharged (billed payer oldSize newSize) = newSize - oldSize := by
  unfold billed
  split_ifs with hsize
  · simp [totalCharged]
  · exact (sub_eq_zero.mpr (not_not.mp hsize)).symm

theorem CodeLedger.total_step {i : CodeInput} (hstep : codeStep i s = .ok s') :
    totalCharged s'.ramDeltas - s'.db.accounts.sum (fun _ a => codeRam a) =
      totalCharged s.ramDeltas - s.db.accounts.sum (fun _ a => codeRam a) := by
  cases i with
  | setNumConfigOnChain =>
    obtain rfl := Except.ok.inj hstep
    rfl
  | action e =>
    obtain ⟨⟨u, c'⟩, hhandle, hret⟩ := Commons.bind_eq_ok.mp hstep
    obtain rfl := Commons.pure_eq_ok.mp hret
    cases handle_effect hhandle with
    | @setcode account vmtype vmversion code a _ ha =>
      dsimp only [CodeLedger.record]
      rw [totalCharged_append, totalCharged_billed,
        sum_insert_agree_off (f := fun _ a => codeRam a) ha fun _ _ _ => rfl]
      simp only [codeRam]
      omega
    | @setabi account abi a _ ha =>
      dsimp only [CodeLedger.record]
      rw [totalCharged_append, totalCharged_billed,
        sum_insert_agree_off (f := fun _ a => codeRam a) ha fun _ _ _ => rfl]
      simp only [codeRam]
      omega
    | @newaccount creator name owner active _ hfresh _ _ =>
      have hsum := s.db.accounts.sum_insert (fun _ a => codeRam a) name
        { creationDate := e.pendingBlockTime }
      rw [Table.weightAt_of_find_none hfresh, add_zero] at hsum
      refine congrArg (totalCharged s.ramDeltas - ·) (hsum.trans ?_)
      exact add_zero _
    | updateauth => rfl
    | createauth => rfl
    | deleteauth => rfl
    | linkauth => rfl
    | unlinkauth => rfl

/-- **Code and abi RAM balance**: from genesis on, every account has been charged exactly for the
code and the interfaces that it has paid for, if and only if the three system contracts and the
native account start without interfaces, and every accepted `setcode` and `setabi` replaces
something empty or something that the account which pays at this time has paid for. The sum of all
charges differs from the sum of the sizes by what genesis bills too much and too little. -/
theorem code_ram_iff (g : NativeGenesis) (c : GenesisCtx) (hc : g.initializeDatabase = .ok c)
    (l : List CodeInput) :
    (Commons.Always codeStep CodeLedger.Balanced (genesisLedger c) l ↔
      (g.systemAbi = [] ∧ g.tokenAbi = [] ∧ g.msigAbi = [] ∧ g.nativeContractAbi = []) ∧
        Commons.Along codeStep SamePayer (genesisLedger c) l) ∧
    let s := Commons.run codeStep (genesisLedger c) l
    totalCharged s.ramDeltas = s.db.accounts.sum (fun _ a => codeRam a) +
      (9 * ((g.systemAbi.length : Int) + g.tokenAbi.length + g.msigAbi.length) -
        g.nativeContractAbi.length) := by
  constructor
  · rw [← genesisLedger_balanced_iff hc]
    have hiff (hstart : (genesisLedger c).Balanced) :
        Commons.Always codeStep CodeLedger.Balanced (genesisLedger c) l ↔
          Commons.Along codeStep SamePayer (genesisLedger c) l :=
      Commons.always_iff_along (J := fun _ => True) (fun _ _ _ _ _ _ => trivial)
        (fun _ _ _ _ hs hstep => CodeLedger.balanced_step_iff hs hstep) trivial hstart
    constructor
    · intro h
      have hstart : (genesisLedger c).Balanced := h [] List.nil_prefix
      exact ⟨hstart, (hiff hstart).mp h⟩
    · exact fun h => (hiff h.1).mpr h.2
  · intro s
    have hgenesis := NativeGenesis.genesis_accounts
      (w := fun _ code abi => (code.length : Int) * setcodeRamBytesMultiplier + abi.length)
      (fun _ => rfl) hc
    have hrun : totalCharged s.ramDeltas - s.db.accounts.sum (fun _ a => codeRam a) =
        totalCharged c.contractRam - c.db.accounts.sum (fun _ a => codeRam a) :=
      Commons.run_induction (fun s : CodeLedger => totalCharged s.ramDeltas -
          s.db.accounts.sum (fun _ a => codeRam a) =
        totalCharged c.contractRam - c.db.accounts.sum (fun _ a => codeRam a))
        (fun _ _ _ hs _ hstep => (CodeLedger.total_step hstep).trans hs) rfl Commons.along_true
    have hsum : c.db.accounts.sum (fun _ a => codeRam a) = _ := hgenesis.sum_eq
    rw [hsum, hgenesis.bills_eq] at hrun
    simp only [totalCharged, List.map_cons, List.map_nil, List.sum_cons, List.sum_nil,
      List.length_nil,
      setcodeRamBytesMultiplier] at hrun ⊢
    omega

def replaceWhileClosed : List CodeInput :=
  [.action (envOf systemAccountName) (.setcode alice 0 0 [0]),
    .action (envOf systemAccountName) (.setcode alice 0 0 [0, 0])]

def replaceAfterOpening : List CodeInput :=
  [.action (envOf systemAccountName) (.setcode alice 0 0 [0]),
    .setNumConfigOnChain isOpenSetCode 0,
    .action (envOf alice) (.setcode alice 0 0 [0, 0])]

theorem code_ram_iff_replaceWhileClosed :
    let s := Commons.run codeStep (genesisLedger NativeGenesis.plainState) replaceWhileClosed
    s.Balanced ∧ charged s.ramDeltas systemAccountName = 20 ∧ totalCharged s.ramDeltas = 20 := by
  obtain ⟨hiff, -⟩ := code_ram_iff NativeGenesis.plain _ NativeGenesis.plain_initializeDatabase
    replaceWhileClosed
  have halong : Commons.Along codeStep SamePayer (genesisLedger NativeGenesis.plainState)
      replaceWhileClosed := by
    refine ⟨fun _ _ => .inr fun a ha => ?_, fun _ _ => .inl ?_, trivial⟩
    · have hcode : (NativeGenesis.plainState.db.accounts.find alice).map (·.code) = some [] := by
        decide +kernel
      have hfind : NativeGenesis.plainState.db.accounts.find alice = some a := ha
      rw [hfind] at hcode
      exact Option.some.inj hcode
    · decide +kernel
  refine ⟨hiff.mpr ⟨⟨rfl, rfl, rfl, rfl⟩, halong⟩ _ List.prefix_rfl, ?_, ?_⟩ <;> decide +kernel

/-- The refund for the old code goes to the new payer, who has not paid for it: for code of 20 bytes
one account is charged 10 and the other one 10. -/
theorem refund_to_other_payer :
    let s := Commons.run codeStep (genesisLedger NativeGenesis.plainState) replaceAfterOpening
    ¬ s.Balanced ∧ s.codePayer alice = alice ∧ charged s.ramDeltas alice = 10 ∧
      charged s.ramDeltas systemAccountName = 10 ∧
      s.db.accounts.sum (s.paidBy alice) = 20 := by
  intro s
  have hcharged : charged s.ramDeltas alice = 10 := by decide +kernel
  have hsum : s.db.accounts.sum (s.paidBy alice) = 20 := by decide +kernel
  refine ⟨fun hbalanced => ?_, by decide +kernel, hcharged, by decide +kernel, hsum⟩
  have halice := hbalanced alice
  rw [hcharged, hsum] at halice
  cases halice

end Native

end BaccChain
