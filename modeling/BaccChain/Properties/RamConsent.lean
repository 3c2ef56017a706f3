import BaccChain.Chain.Exec
import BaccChain.Chain.Genesis
import BaccChain.Contracts.System.Billing

/-!
# RAM is charged with consent

The chain lets `noc.system` bill RAM to anyone. For almost every row that is the account that has
authorised the action.

## Main definitions

* `SystemAction.BillsOthers`: the exceptions

## Main results

* `ram_le_of_not_authorized`: who has not authorised is not billed
* `ram_grows_delegatebw`: the receiver of bandwidth is
-/

namespace BaccChain

open Commons.Program (Moves moves_pure)
open Asset (core)

/-- The actions that bill an account without its authorization: a block of a schedule that has no
row yet, counted for the account; stake given to the account with the transfer flag; a RAM row
made for the account; and an action of another account that makes a row longer which, though that
account's own, is billed to this one. -/
def SystemAction.BillsOthers (d : Db) (account : Name) : SystemAction → Prop
  | .onblock bpname version => bpname = account ∧ d.schedules.find () version = none
  | .delegatebw _ receiver _ _ transfer => transfer ∧ receiver = account
  | .setram owner _ => owner = account ∧ d.vote4ramsum.find () owner = none
  | .votestatic voter bpname _ _ =>
    ∃ row, d.votes.findRow voter bpname = some row ∧ row.payer = account
  | .updatebp bpname _ _ _ => ∃ row, d.bps.findRow () bpname = some row ∧ row.payer = account
  | _ => False

/-- **RAM is charged with consent**: in every state, an action of `noc.system` without the
authorization of an account does not increase the RAM billed to the account, unless the account is
the system account or the one being created, or the action is one of the exceptions. -/
theorem ram_le_of_not_authorized (w : World) (auth : List PermissionLevel) (a : SystemAction)
    (c c' : Ctx) (A : Name) (hauth : ∀ p ∈ auth, p.actor ≠ A) (hsystem : A ≠ systemAccountName)
    (hnew : ∀ vid, a ≠ .newaccount A vid) (hex : ¬ a.BillsOthers c.db A)
    (h : SystemContract.handle a ⟨w, systemAccountName, auth⟩ c = .ok ((), c')) :
    c'.ram A ≤ c.ram A := by
  have hA : ¬ Env.HasAuth ⟨w, systemAccountName, auth⟩ A := by
    rintro ⟨p, hp, hactor⟩
    exact hauth p hp hactor
  suffices hmoves : Moves (Billed.Le A) (SystemContract.handle a) ⟨w, systemAccountName, auth⟩ c
    from hmoves () c' h
  cases a with
  | updatebp =>
    exact Billed.updatebp hA (fun row hr hp => hex ⟨row, hr, hp⟩) _ _ _
  | freeze => exact Billed.freeze hA _ _
  | unfreeze => exact Billed.unfreeze _
  | vote => exact Billed.vote hA _ _ _
  | votebyreward => exact Billed.votebyreward hA _ _
  | votestatic =>
    exact Billed.votestatic hA (fun row hr hp => hex ⟨row, hr, hp⟩) _ _
  | quitsvote => exact Billed.quitsvote hA _ _ _
  | vote4ram => exact Billed.vote4ram _
  | claim => exact Billed.claim _ _
  | onblock => exact Billed.onblock fun hbp hnone => hex ⟨hbp, hnone⟩
  | setparams => exact Billed.setparams _
  | removebp => exact Billed.removebp _
  | openbp => exact Billed.openbp hA _
  | banbp => exact Billed.banbp _
  | bppawn => exact Billed.bppawn _ _
  | bpredeem => exact Billed.bpredeem _
  | bpclaim => exact Billed.bpclaim _
  | setvidparam => exact Billed.setvidparam hA _ _
  | newaccount newName vid =>
    refine Billed.newaccount hsystem ?_ _
    rintro rfl
    exact hnew vid rfl
  | setram => exact Billed.setram (fun ha hnone => hex ⟨ha, hnone⟩) _
  | delegatebw =>
    exact Billed.delegatebw hA (fun ht hr => hex ⟨ht, hr⟩) _ _ _
  | undelegatebw => exact Billed.undelegatebw hA _ _ _ _
  | refund => exact Billed.refund _
  | _ => exact moves_pure ()

def envBy (actor : Name) : Env := ⟨.atHeight 10, systemAccountName, [⟨actor, activeName⟩]⟩

theorem ram_le_freeze :
    ∃ c', SystemContract.handle (.freeze Genesis.alice (core 10000)) (envBy Genesis.alice)
        { db := Genesis.twoAccounts.database } = .ok ((), c') ∧
      c'.ram Genesis.bob ≤ ({ db := Genesis.twoAccounts.database } : Ctx).ram Genesis.bob := by
  have hok : (SystemContract.handle (.freeze Genesis.alice (core 10000)) (envBy Genesis.alice)
      { db := Genesis.twoAccounts.database }).toBool = true := by decide +kernel
  cases h : SystemContract.handle (.freeze Genesis.alice (core 10000)) (envBy Genesis.alice)
      { db := Genesis.twoAccounts.database } with
  | error msg =>
    rw [h] at hok
    cases hok
  | ok r =>
    refine ⟨r.2, rfl, ?_⟩
    exact ram_le_of_not_authorized _ _ _ _ _ _ (by decide) (by decide) (fun _ h => by cases h) id h

/-- Stake given away with the transfer flag bills the receiver, who has authorised nothing. -/
theorem ram_grows_delegatebw :
    ∃ r, SystemContract.handle (.delegatebw Genesis.alice Genesis.bob (core 10000) (core 0) true)
        (envBy Genesis.alice) { db := Genesis.twoAccounts.database } = .ok r ∧
      ¬ r.2.ram Genesis.bob ≤ ({ db := Genesis.twoAccounts.database } : Ctx).ram Genesis.bob ∧
      ¬ (envBy Genesis.alice).HasAuth Genesis.bob := by
  have hok : (SystemContract.handle
      (.delegatebw Genesis.alice Genesis.bob (core 10000) (core 0) true) (envBy Genesis.alice)
      { db := Genesis.twoAccounts.database }).toOption.any
        (fun r => decide (0 < r.2.ram Genesis.bob)) = true := by decide +kernel
  cases h : SystemContract.handle
      (.delegatebw Genesis.alice Genesis.bob (core 10000) (core 0) true) (envBy Genesis.alice)
      { db := Genesis.twoAccounts.database } with
  | error msg =>
    rw [h] at hok
    cases hok
  | ok r =>
    rw [h] at hok
    refine ⟨r, rfl, not_le.mpr (of_decide_eq_true hok), ?_⟩
    rintro ⟨p, hp, hactor⟩
    rw [List.mem_singleton.mp hp] at hactor
    exact absurd hactor (by decide)

end BaccChain
