import BaccChain.Chain.Genesis
import BaccChain.Chain.NativeSpec

/-!
# Control over accounts

Each native action changes one account only, and each handler except that of `setcode` asks for the
authorization of an account that may change it.

## Main definitions

* `Consent`: who may change an account

## Main results

* `consent_iff`: when an action has this consent
* `setcode_without_consent`: code set by a stranger
-/

namespace BaccChain

open Genesis (alice bob)

namespace Native

variable {e : NativeEnv} {db db' : NativeDb} {act : NativeAction}

/-- The action may change `account`: it carries the authorization of the account, for a new account
that of its creator, and for code and interface that of the system account while the gate is
closed. -/
def Consent (e : NativeEnv) (db : NativeDb) (act : NativeAction) (account : Name) : Prop :=
  match act with
  | .newaccount creator _ _ _ => e.HasAuth creator
  | .setcode _ _ _ _ | .setabi _ _ =>
    e.HasAuth account ∨ (¬ isFuncHasOpen e db isOpenSetCode ∧ e.HasAuth systemAccountName)
  | .updateauth _ _ _ _ | .deleteauth _ _ | .linkauth _ _ _ _ | .unlinkauth _ _ _ =>
    e.HasAuth account

theorem exec_onlyChanges (h : exec e db act = .ok db') : OnlyChanges act.account db db' := by
  obtain ⟨c', hc', rfl⟩ := exec_eq_ok.mp h
  exact (handle_effect hc').onlyChanges

theorem consent_of_payAccount {account : Name} (h : e.HasAuth (payAccount e db account)) :
    e.HasAuth account ∨ (¬ isFuncHasOpen e db isOpenSetCode ∧ e.HasAuth systemAccountName) := by
  unfold payAccount at h
  split_ifs at h with hopen
  · exact Or.inl h
  · exact Or.inr ⟨hopen, h⟩

theorem consent_of_exec (h : exec e db act = .ok db')
    (hact : ∀ account vmtype vmversion code, act ≠ .setcode account vmtype vmversion code) :
    Consent e db act act.account := by
  obtain ⟨c', hc', rfl⟩ := exec_eq_ok.mp h
  cases act with
  | newaccount => exact (newaccount_effect hc').1
  | setcode account vmtype vmversion code => exact absurd rfl (hact account vmtype vmversion code)
  | setabi => exact consent_of_payAccount (setabi_effect hc').1
  | updateauth => exact (updateauth_effect hc').1
  | deleteauth => exact (deleteauth_effect hc').1
  | linkauth => exact (linkauth_effect hc').1
  | unlinkauth => exact (unlinkauth_effect hc').1

theorem exec_setcode {account : Name} {vmtype vmversion : Nat} {code : List UInt8}
    (h : AcceptsCode e db account vmtype vmversion code) :
    ∃ db', exec e db (.setcode account vmtype vmversion code) = .ok db' ∧
      db'.view account ≠ db.view account := by
  obtain ⟨c', hc'⟩ := setcode_total (c := { db }) h
  refine ⟨c'.db, exec_eq_ok.mpr ⟨c', hc', rfl⟩, fun hview => ?_⟩
  have hcode : (c'.db.view account).code = some (code, codeId e code) := by
    obtain ⟨-, heffect⟩ := setcode_effect hc'
    cases heffect
    simp [NativeDb.view]
  obtain ⟨a, ha, hne, -⟩ := h.account_exists
  rw [hview] at hcode
  simp only [NativeDb.view, ha, Option.map_some, Option.some_inj, Prod.mk.injEq] at hcode
  exact hne hcode.2

/-- **Control over accounts**: every change that an action makes to the code, the interface, the
permissions or the links of an account is made with consent, if and only if the action is not one
that sets code which the handler accepts, or carries the authorization that its sibling `setabi`
would ask for. Code is not accepted either if the account that pays cannot be billed. -/
theorem consent_iff (e : NativeEnv) (db : NativeDb) (act : NativeAction) :
    (∀ db' account, exec e db act = .ok db' → db'.view account ≠ db.view account →
      Consent e db act account) ↔
    ∀ account vmtype vmversion code, act = .setcode account vmtype vmversion code →
      AcceptsCode e db account vmtype vmversion code →
      e.HasAuth account ∨
        (¬ isFuncHasOpen e db isOpenSetCode ∧ e.HasAuth systemAccountName) := by
  constructor
  · rintro h account vmtype vmversion code rfl haccepts
    obtain ⟨db', hexec, hview⟩ := exec_setcode haccepts
    exact h db' account hexec hview
  · intro h db' account hexec hview
    obtain rfl : account = act.account := by
      by_contra hne
      exact hview (exec_onlyChanges hexec account hne)
    by_cases hact : ∃ account vmtype vmversion code, act = .setcode account vmtype vmversion code
    · obtain ⟨account, vmtype, vmversion, code, rfl⟩ := hact
      obtain ⟨c', hc', -⟩ := exec_eq_ok.mp hexec
      exact h account vmtype vmversion code rfl (setcode_effect hc').1
    · refine consent_of_exec hexec fun account vmtype vmversion code hset => ?_
      exact hact ⟨account, vmtype, vmversion, code, hset⟩

def envOf (actor : Name) : NativeEnv where
  authorization := [⟨actor, activeName⟩]
  pendingBlockTime := 0
  headBlockNum := 1
  maxTransactionDelay := 0
  enforceWhiteblacklist := false
  isProducingBlock := false
  keyBlacklisted _ := false
  sha256 code := code.length
  validateWasm _ := true
  ramUsage account := if account = actor ∨ account = systemAccountName then some 4096 else none

def twoAccountsDb : NativeDb where
  accounts := (Commons.Table.empty.insert alice {}).insert bob {}
  sequences := (Commons.Table.empty.insert alice {}).insert bob {}

theorem setcode_without_consent :
    ∃ db', exec (envOf alice) twoAccountsDb (.setcode bob 0 0 [0]) = .ok db' ∧
      db'.view bob ≠ twoAccountsDb.view bob ∧
      ¬ Consent (envOf alice) twoAccountsDb (.setcode bob 0 0 [0]) bob := by
  have haccepts : AcceptsCode (envOf alice) twoAccountsDb bob 0 0 [0] :=
    ⟨rfl, rfl, Or.inr rfl, ⟨{}, rfl, by decide, fun _ => ⟨4096, rfl, by decide⟩⟩, ⟨{}, rfl⟩⟩
  obtain ⟨db', hexec, hview⟩ := exec_setcode haccepts
  refine ⟨db', hexec, hview, ?_⟩
  show ¬ ((envOf alice).HasAuth bob ∨ _ ∧ (envOf alice).HasAuth systemAccountName)
  decide

end Native

end BaccChain
