import BaccChain.Chain.Effects

/-!
# Refunds are never negative

`changebw` asserts twice that a refund which it has updated is not negative.

## Main definitions

* `negativeRefund`: the two messages

## Main results

* `exec_avoids_negativeRefund`: no bandwidth action fails with one of them
-/

namespace BaccChain

open Commons (Avoids avoids_foldlM)
open Commons.Program
open Asset (core core_amount)

def negativeRefund : List String :=
  ["negative net refund amount", "negative cpu refund amount"]

variable {msg : String}

@[simp] theorem mem_negativeRefund : msg ∈ negativeRefund ↔
    msg = "negative net refund amount" ∨ msg = "negative cpu refund amount" := by
  simp [negativeRefund]

variable {e : Env} {c : Ctx} {l : List String}

/-! ## Intrinsics and tables -/

variable {account : Name}

@[simp] theorem avoids_eosioAssert {p : Prop} [Decidable p] :
    Avoids l (eosioAssert p msg e c) ↔ p ∨ msg ∉ l :=
  avoids_lift.trans Commons.avoids_check

@[simp] theorem avoids_requireAuth :
    Avoids l (requireAuth account e c) ↔ e.HasAuth account ∨ "missing authority" ∉ l := by
  unfold requireAuth Env.HasAuth
  split_ifs with h <;> simp [h]

@[simp] theorem avoids_currentTime : Avoids l (currentTime e c) := Commons.avoids_ok _

@[simp] theorem avoids_currentBlockNum : Avoids l (currentBlockNum e c) := Commons.avoids_ok _

@[simp] theorem avoids_isAccount : Avoids l (isAccount account e c) :=
  Commons.avoids_ok _

@[simp] theorem avoids_requireRecipient {recipient : Name} :
    Avoids l (requireRecipient recipient e c) := Commons.avoids_ok _

@[simp] theorem avoids_updateDbUsage {payer : Name} {delta : Int} :
    Avoids negativeRefund (updateDbUsage payer delta e c) := by
  simp [updateDbUsage, currentReceiver, addRamUsage]

@[simp] theorem avoids_setResourceLimits {ramBytes netWeight cpuWeight : Int} :
    Avoids negativeRefund (setResourceLimits account ramBytes netWeight cpuWeight e c) := by
  have hreplace {w : ResourceLimits} {c : Ctx} :
      Avoids negativeRefund (replaceLimits account w e c) := by
    unfold replaceLimits
    split_ifs <;> simp
  simp [setResourceLimits, hreplace]

@[simp] theorem avoids_executeInline {a : Action} :
    Avoids negativeRefund (executeInline a e c) := by
  have hauths (auths : List PermissionLevel) : Avoids negativeRefund (forM auths fun auth => do
      Commons.check (e.world.isAccount auth.actor)
        "inline action's authorizing actor does not exist"
      Commons.check (e.world.findPermission auth)
        "inline action's authorizations include a non-existent permission") := by
    induction auths with
    | nil => exact Commons.avoids_ok ()
    | cons auth auths ih =>
      refine Commons.avoids_bind.mpr ⟨?_, fun _ _ => ih⟩
      simp
  simp [executeInline, hauths]

section Tables

variable {σ α : Type} [LinearOrder σ] {T : TableRef σ α} {scope : σ} {pk payer : Name} {a : α}

@[simp] theorem avoids_readTable : Avoids l (readTable T e c) := Commons.avoids_ok _

@[simp] theorem avoids_writeTable {t : MultiIndex σ α} : Avoids l (writeTable T t e c) :=
  Commons.avoids_ok _

@[simp] theorem avoids_findRow : Avoids l (findRow T scope pk e c) := by
  simp [findRow]

@[simp] theorem avoids_getRow (h : msg ∉ l) : Avoids l (getRow T scope pk msg e c) := by
  refine avoids_bind.mpr ⟨avoids_findRow, fun row _ _ => ?_⟩
  cases row <;> simp [h]

variable [PackSize α]

@[simp] theorem avoids_emplace : Avoids negativeRefund (emplace T scope payer pk a e c) := by
  simp [emplace, uniquenessViolated]

@[simp] theorem avoids_dbUpdate : Avoids negativeRefund (dbUpdate T scope pk payer a e c) := by
  refine avoids_bind.mpr ⟨avoids_readTable, fun t _ _ => ?_⟩
  cases t.findRow scope pk <;> simp [billUpdate]

@[simp] theorem avoids_modifyRow {updater : α → ContractM α}
    (h : ∀ a e c, Avoids negativeRefund (updater a e c)) :
    Avoids negativeRefund (modifyRow T scope pk payer updater e c) := by
  simp [modifyRow, h]

@[simp] theorem avoids_eraseRow : Avoids negativeRefund (eraseRow T scope pk e c) := by
  refine avoids_bind.mpr ⟨avoids_readTable, fun t _ _ => ?_⟩
  cases t.findRow scope pk <;> cases t.tables.find scope <;> simp [billRemoveTable]

end Tables

/-! ## Amounts -/

namespace Asset

variable {a b : Asset}

@[simp] theorem avoids_add : Avoids negativeRefund (a.add b) := by simp [add]

@[simp] theorem avoids_sub : Avoids negativeRefund (a.sub b) := by simp [sub]

@[simp] theorem avoids_compareBy {r : Int → Int → Bool} :
    Avoids negativeRefund (compareBy r a b) := by
  simp [compareBy]

end Asset

/-! ## Actions -/

namespace SystemContract

open Asset (lt le eq gt)

variable {fromAccount receiver owner : Name} {net cpu : Asset} {transfer : Bool}

@[simp] theorem avoids_addDelband :
    Avoids negativeRefund (addDelband fromAccount receiver net cpu e c) := by
  refine avoids_bind.mpr ⟨avoids_findRow, fun row _ _ => ?_⟩
  cases row <;> simp

@[simp] theorem avoids_updateDelband :
    Avoids negativeRefund (updateDelband fromAccount receiver net cpu e c) := by
  simp [updateDelband, le, eq]

@[simp] theorem avoids_addTotals :
    Avoids negativeRefund (addTotals fromAccount receiver net cpu e c) := by
  refine avoids_bind.mpr ⟨avoids_findRow, fun row _ _ => ?_⟩
  cases row <;> simp

@[simp] theorem avoids_updateTotals :
    Avoids negativeRefund (updateTotals fromAccount receiver net cpu e c) := by
  simp [updateTotals, le, eq]

@[simp] theorem avoids_setOff {amount balance : Asset} :
    Avoids negativeRefund (setOff amount balance) := by
  simp [setOff, lt]

@[simp] theorem avoids_settleRefund {r : RefundRequest} {now : Nat} :
    Avoids negativeRefund (settleRefund r net cpu now) := by
  simp [settleRefund, lt]

theorem avoids_updateRefund {req : RefundRequest} :
    Avoids negativeRefund (updateRefund owner req net cpu e c) := by
  have hholds {x : Asset} {r : Bool} (hx : 0 ≤ x.amount) (hr : (core 0).le x = .ok r) :
      r = true := (Asset.le_eq_ok.mp hr).2.mpr hx
  refine avoids_bind.mpr ⟨avoids_currentTime, fun now _ _ => ?_⟩
  refine avoids_bind.mpr ⟨by simp, fun n _ hn => avoids_bind.mpr ⟨by simp, fun m _ hm => ?_⟩⟩
  obtain ⟨-, ⟨hn, -⟩, -⟩ := setOff_eq_ok (lift_eq_ok.mp hn).1
  obtain ⟨-, ⟨hm, -⟩, -⟩ := setOff_eq_ok (lift_eq_ok.mp hm).1
  refine avoids_bind.mpr ⟨by simp, fun _ _ _ => avoids_bind.mpr ⟨by simp [le], fun x _ hx => ?_⟩⟩
  refine avoids_bind.mpr ⟨avoids_eosioAssert.mpr (.inl (hholds hn (lift_eq_ok.mp hx).1)),
    fun _ _ _ => avoids_bind.mpr ⟨by simp [le], fun y _ hy => ?_⟩⟩
  refine avoids_bind.mpr ⟨avoids_eosioAssert.mpr (.inl (hholds hm (lift_eq_ok.mp hy).1)), ?_⟩
  simp [eq]

theorem avoids_createRefund : Avoids negativeRefund (createRefund owner net cpu e c) := by
  have hsplit {balance : Asset} : Avoids negativeRefund (splitRefund balance) := by
    simp [splitRefund, lt]
  simp [createRefund, hsplit, lt]

@[simp] theorem avoids_payStake {source : Name} :
    Avoids negativeRefund (payStake source owner receiver net cpu transfer e c) := by
  have hrefund : Avoids negativeRefund (changeRefund owner net cpu e c) := by
    refine avoids_bind.mpr ⟨avoids_findRow, fun row _ _ => ?_⟩
    cases row with
    | none => exact avoids_createRefund
    | some => exact avoids_updateRefund
  simp [payStake, stakeToPay, hrefund, lt]

@[simp] theorem avoids_changebw :
    Avoids negativeRefund (changebw fromAccount receiver net cpu transfer e c) := by
  simp [changebw, Asset.ne]

theorem avoids_delegatebw :
    Avoids negativeRefund (delegatebw fromAccount receiver net cpu transfer e c) := by
  simp [delegatebw, Asset.ge, gt]

theorem avoids_undelegatebw :
    Avoids negativeRefund (undelegatebw fromAccount receiver net cpu e c) := by
  simp [undelegatebw, le, lt]

theorem avoids_refund : Avoids negativeRefund (refund owner e c) := by
  simp [refund]

theorem avoids_newaccount {newName vid : Name} :
    Avoids negativeRefund (newaccount newName vid e c) := by
  have hcount {info : VidInfo} {c : Ctx} : Avoids negativeRefund (countVid info e c) := by
    refine avoids_bind.mpr ⟨avoids_currentBlockNum, fun _ _ _ => ?_⟩
    refine avoids_bind.mpr ⟨avoids_findRow, fun row _ _ => ?_⟩
    cases row <;> simp
  simp [newaccount, hcount]

def onBandwidth : SystemAction → Bool
  | .newaccount .. | .delegatebw .. | .undelegatebw .. | .refund .. => true
  | _ => false

theorem avoids_handle {a : SystemAction} (ha : onBandwidth a = true) :
    Avoids negativeRefund (handle a e c) := by
  cases a with
  | newaccount => exact avoids_newaccount
  | delegatebw => exact avoids_delegatebw
  | undelegatebw => exact avoids_undelegatebw
  | refund => exact avoids_refund
  | _ => cases ha

end SystemContract

theorem Token.avoids_transfer {fromAccount toAccount : Name} {q : Asset} {memo : String} :
    Avoids negativeRefund (transfer fromAccount toAccount q memo e c) := by
  have hfrozen {owner : Name} {balance value : Int} {c : Ctx} :
      Avoids negativeRefund (freezeCoreTokenAmount owner balance value e c) := by
    refine avoids_bind.mpr ⟨avoids_findRow, fun _ _ _ => ?_⟩
    refine avoids_bind.mpr ⟨avoids_findRow, fun row _ _ => ?_⟩
    cases row <;> simp
  have hadd {c : Ctx} : Avoids negativeRefund (addBalance toAccount q fromAccount e c) := by
    refine avoids_bind.mpr ⟨avoids_findRow, fun row _ _ => ?_⟩
    cases row <;> simp
  simp [transfer, subBalance, hfrozen, hadd]

/-! ## Executed actions -/

variable {w : World} {depth : Nat} {act : Action} {d : Db}

theorem avoids_exec (hdepth : "max inline action depth per transaction reached" ∉ l)
    (hhandle : ∀ e c, Avoids l (handleAction act.data e c))
    (hinline : ∀ c, applyAction w act d = .ok c → ∀ a ∈ c.inlineActions, ∀ depth d,
      Avoids l (exec w depth a d)) : Avoids l (exec w depth act d) := by
  have happly : Avoids l (applyAction w act d) :=
    Commons.avoids_bind.mpr ⟨hhandle _ _, fun _ _ => Commons.avoids_pure _⟩
  cases depth with
  | zero => simp [exec, happly, hdepth]
  | succ depth =>
    refine Commons.avoids_bind.mpr ⟨happly, fun c hc => ?_⟩
    exact avoids_foldlM (fun a ha d => hinline c hc a ha depth d) c.db

theorem exec_avoids_negativeRefund {a : SystemAction} {auths : List PermissionLevel}
    (ha : SystemContract.onBandwidth a = true) :
    Avoids negativeRefund (exec w depth ⟨auths, .system a⟩ d) := by
  refine avoids_exec (by simp) (fun _ _ => SystemContract.avoids_handle ha) fun c hc x hx => ?_
  have htransfer : IsTransfer x := by
    obtain ⟨-, sent, hsent, hpay⟩ := SystemContract.handle_frame (applyAction_eq_ok.mp hc)
    have hsent : c.inlineActions = sent := hsent
    rw [hsent] at hx
    rcases hpay x hx with h | ⟨honblock, -⟩
    · exact h
    · have hnot : SystemContract.isOnblock a = false := by cases a <;> first | rfl | cases ha
      rw [hnot] at honblock
      cases honblock
  obtain ⟨fromAccount, toAccount, q, memo, rfl⟩ := htransfer
  intro depth d
  refine avoids_exec (by simp) (fun _ _ => Token.avoids_transfer) fun c' hc' y hy => ?_
  obtain ⟨-, -, -, hinline⟩ := Token.transfer_eq_ok (applyAction_eq_ok.mp hc')
  have hnil : c'.inlineActions = [] := hinline
  rw [hnil] at hy
  cases hy

end BaccChain
