import BaccChain.Chain.Deferred
import BaccChain.Properties.ProducerValidator

/-!
# The ledger of the generated transactions

The payer of a generated transaction is billed for its size when it is stored, and gets it back when
the transaction is canceled or retired.

## Main definitions

* `CallState.DeferredLedger`: what was charged is the size of what is pending
* `Replaces`: a transaction is replaced

## Main results

* `deferred_ledger_iff`: when the ledger holds
* `not_ledger_deferAndReplace`: a replacement
-/

namespace BaccChain

open Commons

/-! ## The ledger -/

/-- The size of what is pending for a payer. -/
def pendingRam (generated : List GeneratedTransaction) (payer : Name) : Int :=
  (generated.map fun g => if g.payer = payer then g.billableSize else 0).sum

/-- Every account has been billed, since its usage was `base`, for the generated transactions that
it pays for, and each of them has the id of the transaction that is packed in it. -/
structure CallState.DeferredLedger (codec : Codec) (base : Name → Int) (s : CallState) : Prop where
  balanced : ∀ payer, s.usage payer = base payer + pendingRam s.generated payer
  ids : ∀ g ∈ s.generated, ∃ trx : FullTransaction,
    g.packedTrx = codec.packTransaction trx ∧ g.trxId = trx.id codec

def CallState.UniqueIds (s : CallState) : Prop := (s.generated.map (·.trxId)).Nodup

namespace DeferredOperation

open CallState (Billed)
open CallEnv (addPendingRamUsage_eq_ok addRamUsage_eq_ok)

/-- The sender id is in use. -/
def Replaces (s : CallState) : DeferredOperation → Prop
  | .schedule e senderId _ _ _ =>
    (s.generated.find? fun g => g.sender = e.receiver ∧ g.senderId = senderId).isSome = true
  | .delay _ _ _ | .cancel _ _ | .retire _ _ => False

/-! ## What the operations do -/

/-- **The effects of the operations** on the generated transactions and on the RAM usage. -/
inductive Effect (codec : Codec) (s s' : CallState) (op : DeferredOperation) : Prop
  | created {gto : GeneratedTransaction} {trx : FullTransaction} (replaces : ¬ op.Replaces s)
    (fresh : ∀ g ∈ s.generated, g.trxId ≠ gto.trxId)
    (packed : gto.packedTrx = codec.packTransaction trx) (id : gto.trxId = trx.id codec)
    (generated : s'.generated = s.generated ++ [gto])
    (billed : Billed s s' gto.payer gto.billableSize)
  | replaced {old new : GeneratedTransaction} (replaces : op.Replaces s)
    (found : old ∈ s.generated) (id : new.trxId = old.trxId)
    (generated : s'.generated = s.generated.map fun g => if g = old then new else g)
    (billed : Billed s s' new.payer new.billableSize)
  | removed {gto : GeneratedTransaction} (replaces : ¬ op.Replaces s) (found : gto ∈ s.generated)
    (generated : s'.generated = s.generated.erase gto)
    (billed : Billed s s' gto.payer (-gto.billableSize))
  | idle (replaces : ¬ op.Replaces s) (generated : s'.generated = s.generated)
    (billed : ∀ account, s'.usage account = s.usage account)

variable {codec : Codec} {e : CallEnv} {s s' : CallState} {op : DeferredOperation}
  {base : Name → Int}

theorem addTransactionRamUsage_eq_ok {account : Name} {delta : Int}
    (h : CallEnv.addTransactionRamUsage account delta s = .ok s') :
    s'.generated = s.generated ∧ Billed s s' account delta := by
  obtain ⟨ramUsage, hram, hret⟩ := bind_eq_ok.mp h
  obtain rfl := pure_eq_ok.mp hret
  exact ⟨rfl, fun p => addPendingRamUsage_eq_ok hram p⟩

theorem addNetUsage_eq_ok {u : Nat} (h : e.addNetUsage u s = .ok s') :
    s'.generated = s.generated ∧ s'.ramUsage = s.ramUsage := by
  obtain ⟨-, -, hret⟩ := bind_eq_ok.mp h
  obtain rfl := pure_eq_ok.mp hret
  exact ⟨rfl, rfl⟩

variable {senderId : Nat} {trx : FullTransaction} {l : List GeneratedTransaction}

theorem storeGenerated_eq_ok {payer : Name} {replaceExisting : Bool}
    {l' : List GeneratedTransaction}
    (h : e.storeGenerated codec senderId payer trx replaceExisting l = .ok l') :
    (∃ old, l.find? (fun g => g.sender = e.receiver ∧ g.senderId = senderId) = some old ∧
      l' = l.map fun g =>
        if g = old then e.generatedTransaction codec old.trxId senderId payer trx else g) ∨
    l.find? (fun g => g.sender = e.receiver ∧ g.senderId = senderId) = none ∧
      (∀ g ∈ l, g.trxId ≠ trx.id codec) ∧
      l' = l ++ [e.generatedTransaction codec (trx.id codec) senderId payer trx] := by
  unfold CallEnv.storeGenerated at h
  cases hfind : l.find? fun g => g.sender = e.receiver ∧ g.senderId = senderId with
  | some old =>
    rw [hfind] at h
    obtain ⟨-, -, h⟩ := bind_eq_ok.mp h
    obtain ⟨-, -, h⟩ := bind_eq_ok.mp h
    exact .inl ⟨old, rfl, pure_eq_ok.mp h⟩
  | none =>
    rw [hfind] at h
    obtain ⟨_, hfresh, h⟩ := bind_eq_ok.mp h
    exact .inr ⟨rfl, check_eq_ok.mp hfresh, pure_eq_ok.mp h⟩

theorem scheduleDeferredTransaction_effect {payer : Name} {replaceExisting : Bool}
    (h : e.scheduleDeferredTransaction codec senderId payer trx replaceExisting s = .ok s') :
    Effect codec s s' (.schedule e senderId payer trx replaceExisting) := by
  obtain ⟨-, -, h⟩ := bind_eq_ok.mp h
  obtain ⟨-, -, h⟩ := bind_eq_ok.mp h
  obtain ⟨s₁, hnet, h⟩ := bind_eq_ok.mp h
  obtain ⟨-, -, h⟩ := bind_eq_ok.mp h
  obtain ⟨generated, hstore, h⟩ := bind_eq_ok.mp h
  obtain ⟨-, -, h⟩ := bind_eq_ok.mp h
  obtain ⟨hgenerated, hbilled⟩ := addRamUsage_eq_ok h
  obtain ⟨hgenerated₁, hram₁⟩ := addNetUsage_eq_ok hnet
  have hbilled' : Billed s s' payer
      (CallEnv.generatedTransactionBytes + (codec.packTransaction (e.deferred trx)).length) := by
    intro account
    rw [hbilled account]
    unfold CallState.usage
    rw [hram₁]
  rw [hgenerated₁] at hstore
  rcases storeGenerated_eq_ok hstore with ⟨old, hfind, hl⟩ | ⟨hfind, hfresh, hl⟩
  · have hid : (e.generatedTransaction codec old.trxId senderId payer (e.deferred trx)).trxId =
        old.trxId := rfl
    refine .replaced ?_ (List.mem_of_find?_eq_some hfind) hid (hgenerated.trans hl) hbilled'
    rw [Replaces, hfind]
    rfl
  · have hid : (e.generatedTransaction codec ((e.deferred trx).id codec) senderId payer
        (e.deferred trx)).trxId = (e.deferred trx).id codec := rfl
    refine .created ?_ hfresh rfl hid (hgenerated.trans hl) hbilled'
    rw [Replaces, hfind]
    exact Bool.false_ne_true

theorem scheduleTransaction_effect {duration : Nat}
    (h : e.scheduleTransaction codec trx duration s = .ok s') :
    Effect codec s s' (.delay e trx duration) := by
  obtain ⟨s₁, hnet, h⟩ := bind_eq_ok.mp h
  obtain ⟨_, hfresh, h⟩ := bind_eq_ok.mp h
  obtain ⟨hgenerated, hbilled⟩ := addTransactionRamUsage_eq_ok h
  have hnet' : s₁.generated = s.generated ∧ s₁.ramUsage = s.ramUsage := by
    unfold CallEnv.chargeRetirement at hnet
    split_ifs at hnet
    · exact addNetUsage_eq_ok hnet
    · obtain rfl := pure_eq_ok.mp hnet
      exact ⟨rfl, rfl⟩
  obtain ⟨hgenerated₁, hram₁⟩ := hnet'
  rw [hgenerated₁] at hfresh
  have hid : (e.delayedTransaction codec trx duration).trxId = trx.id codec := rfl
  refine .created id (fun g hg => (check_eq_ok.mp hfresh g hg).1) rfl hid ?_ fun account => ?_
  · rw [hgenerated, hgenerated₁]
  · rw [hbilled account]
    unfold CallState.usage
    rw [hram₁]

theorem cancel_effect {sender : Name} (h : (cancel senderId sender).exec codec s = .ok s') :
    Effect codec s s' (.cancel senderId sender) := by
  obtain ⟨⟨b, s₁⟩, hcancel, hret⟩ := bind_eq_ok.mp h
  obtain rfl := pure_eq_ok.mp hret
  unfold CallEnv.cancelDeferredTransaction at hcancel
  cases hfind : s.generated.find? fun g => g.sender = sender ∧ g.senderId = senderId with
  | some gto =>
    rw [hfind] at hcancel
    obtain ⟨s₂, hram, hret⟩ := bind_eq_ok.mp hcancel
    obtain ⟨hgenerated, hbilled⟩ := addRamUsage_eq_ok hram
    obtain ⟨rfl, rfl⟩ := Prod.mk.inj (pure_eq_ok.mp hret)
    refine .removed id (List.mem_of_find?_eq_some hfind) ?_ hbilled
    exact congrArg (List.erase · gto) hgenerated
  | none =>
    rw [hfind] at hcancel
    obtain ⟨rfl, rfl⟩ := Prod.mk.inj (pure_eq_ok.mp hcancel)
    exact .idle id rfl fun _ => rfl

theorem retire_effect {trxId : Digest} (h : e.pushScheduledTransaction trxId s = .ok s') :
    Effect codec s s' (.retire e trxId) := by
  unfold CallEnv.pushScheduledTransaction at h
  cases hfind : s.generated.find? (·.trxId = trxId) with
  | none =>
    rw [hfind] at h
    cases h
  | some =>
    rw [hfind] at h
    obtain ⟨s₁, hremove, h⟩ := bind_eq_ok.mp h
    obtain ⟨-, -, h⟩ := bind_eq_ok.mp h
    obtain rfl := pure_eq_ok.mp h
    obtain ⟨ramUsage, hram, hret⟩ := bind_eq_ok.mp hremove
    obtain rfl := pure_eq_ok.mp hret
    exact .removed id (List.mem_of_find?_eq_some hfind) rfl fun p => addPendingRamUsage_eq_ok hram p

theorem exec_effect (h : op.exec codec s = .ok s') : Effect codec s s' op := by
  cases op with
  | schedule => exact scheduleDeferredTransaction_effect h
  | delay => exact scheduleTransaction_effect h
  | cancel => exact cancel_effect h
  | retire => exact retire_effect h

/-! ## What the effects do to the ledger -/

theorem pendingRam_append (l : List GeneratedTransaction) (gto : GeneratedTransaction)
    (payer : Name) : pendingRam (l ++ [gto]) payer =
      pendingRam l payer + if gto.payer = payer then gto.billableSize else 0 := by
  simp only [pendingRam, List.map_append, List.sum_append, List.map_cons, List.map_nil,
    List.sum_cons, List.sum_nil, add_zero]

theorem pendingRam_erase {gto : GeneratedTransaction} (hmem : gto ∈ l) (payer : Name) :
    pendingRam (l.erase gto) payer =
      pendingRam l payer - if gto.payer = payer then gto.billableSize else 0 := by
  have hsum := List.sum_map_erase (fun g : GeneratedTransaction =>
    if g.payer = payer then g.billableSize else 0) hmem
  unfold pendingRam
  omega

theorem pendingRam_replace {old new : GeneratedTransaction} (hnodup : l.Nodup) (hmem : old ∈ l)
    (payer : Name) :
    pendingRam (l.map fun g => if g = old then new else g) payer = pendingRam l payer -
      (if old.payer = payer then old.billableSize else 0) +
      if new.payer = payer then new.billableSize else 0 := by
  have hothers : (l.erase old).map (fun g => if g = old then new else g) = l.erase old := by
    refine (List.map_congr_left fun g hg => if_neg ?_).trans (List.map_id _)
    rintro rfl
    exact hnodup.not_mem_erase hg
  have hperm : (l.map fun g => if g = old then new else g).Perm (new :: l.erase old) := by
    have hmap := (List.perm_cons_erase hmem).map fun g => if g = old then new else g
    rwa [List.map_cons, if_pos rfl, hothers] at hmap
  have hsum : pendingRam (l.map fun g => if g = old then new else g) payer =
      pendingRam (new :: l.erase old) payer := (hperm.map _).sum_eq
  have hcons : pendingRam (new :: l.erase old) payer =
      (if new.payer = payer then new.billableSize else 0) + pendingRam (l.erase old) payer := by
    simp only [pendingRam, List.map_cons, List.sum_cons]
  rw [hsum, hcons, pendingRam_erase hmem]
  omega

theorem billableSize_pos (gto : GeneratedTransaction) : 0 < gto.billableSize := by
  unfold GeneratedTransaction.billableSize CallEnv.generatedTransactionBytes
  omega

namespace Effect

theorem uniqueIds (h : s.UniqueIds) (heffect : Effect codec s s' op) : s'.UniqueIds := by
  unfold CallState.UniqueIds at h ⊢
  cases heffect with
  | @created gto trx _ hfresh _ _ hgenerated _ =>
    rw [hgenerated, List.map_append, List.map_cons, List.map_nil, List.nodup_append]
    refine ⟨h, List.nodup_singleton _, fun id hid id' hid' heq => ?_⟩
    obtain ⟨g, hg, rfl⟩ := List.mem_map.mp hid
    exact hfresh g hg (heq.trans (List.mem_singleton.mp hid'))
  | @replaced old new _ _ hid hgenerated _ =>
    have hids : s'.generated.map (·.trxId) = s.generated.map (·.trxId) := by
      rw [hgenerated, List.map_map]
      refine List.map_congr_left fun g _ => ?_
      simp only [Function.comp_apply]
      split_ifs with hold
      · rw [hid, hold]
      · rfl
    rw [hids]
    exact h
  | removed _ _ hgenerated _ =>
    rw [hgenerated]
    exact h.sublist (List.erase_sublist.map _)
  | idle _ hgenerated =>
    rw [hgenerated]
    exact h

theorem ledger_iff (hids : s.UniqueIds) (h : s.DeferredLedger codec base)
    (heffect : Effect codec s s' op) : s'.DeferredLedger codec base ↔ ¬ op.Replaces s := by
  cases heffect with
  | @created gto trx hreplaces _ hpacked hid hgenerated hbilled =>
    refine iff_of_true ⟨fun payer => ?_, fun g hg => ?_⟩ hreplaces
    · rw [hbilled payer, h.balanced payer, hgenerated, pendingRam_append, add_assoc]
    · rw [hgenerated, List.mem_append, List.mem_singleton] at hg
      rcases hg with hg | rfl
      · exact h.ids g hg
      · exact ⟨trx, hpacked, hid⟩
  | @replaced old new hreplaces hmem _ hgenerated hbilled =>
    refine iff_of_false (fun hledger => ?_) (not_not.mpr hreplaces)
    have hbalanced := hledger.balanced old.payer
    have hnodup : s.generated.Nodup := List.Nodup.of_map _ hids
    rw [hbilled old.payer, h.balanced old.payer, hgenerated, pendingRam_replace hnodup hmem,
      if_pos rfl] at hbalanced
    have hpos := billableSize_pos old
    omega
  | @removed gto hreplaces hmem hgenerated hbilled =>
    refine iff_of_true ⟨fun payer => ?_, fun g hg => ?_⟩ hreplaces
    · rw [hbilled payer, h.balanced payer, hgenerated, pendingRam_erase hmem]
      split_ifs <;> omega
    · rw [hgenerated] at hg
      exact h.ids g (List.mem_of_mem_erase hg)
  | idle hreplaces hgenerated hbilled =>
    refine iff_of_true ⟨fun payer => ?_, fun g hg => ?_⟩ hreplaces
    · rw [hbilled, hgenerated, h.balanced]
    · exact h.ids g (hgenerated ▸ hg)

end Effect

end DeferredOperation

/-! ## Runs -/

/-- **Deferred transaction ledger**: from a state without generated transactions on, every payer has
been charged for the pending generated transactions that it pays for, and these have the ids of the
transactions packed in them, all along a run, if and only if no accepted operation of the run
replaces a deferred transaction. -/
theorem deferred_ledger_iff (codec : Codec) (s : CallState) (hs : s.generated = [])
    (l : List DeferredOperation) :
    Always (DeferredOperation.exec codec) (CallState.DeferredLedger codec s.usage) s l ↔
      Along (DeferredOperation.exec codec) (fun s op => ¬ op.Replaces s) s l := by
  have hunique : s.UniqueIds := by
    rw [CallState.UniqueIds, hs]
    exact List.nodup_nil
  refine always_iff_along (J := CallState.UniqueIds)
    (fun _ _ _ hids _ hexec => (DeferredOperation.exec_effect hexec).uniqueIds hids)
    (fun _ _ _ hids hledger hexec => (DeferredOperation.exec_effect hexec).ledger_iff hids hledger)
    hunique ⟨fun payer => ?_, fun g hg => ?_⟩
  · rw [hs]
    exact (add_zero _).symm
  · rw [hs] at hg
    cases hg

def delayCodec : Codec :=
  { Codec.empty with
    packTransaction trx := List.replicate trx.delaySec.toNat 0
    sha256 := List.length }

def contractCall : CallEnv := { userCall.withStatus .complete with eagerNetLimit := 100 }

def toSelf (delaySec : UInt32) : FullTransaction :=
  { delaySec, actions := [{ account := 5, name := 2, authorization := [⟨6, activeName⟩] }] }

def contractState : CallState where
  db := userAndContract
  ramUsage := (Table.empty.insert 5 0).insert 6 0

/-- The contract defers a transaction, and the user sends one with a delay; then the first one is
canceled. -/
def deferAndCancel : List DeferredOperation :=
  [.schedule contractCall 0 5 (toSelf 1) false, .delay contractCall (toSelf 3) 3000000,
    .cancel 0 5]

def deferAndReplace : List DeferredOperation :=
  [.schedule contractCall 0 5 (toSelf 1) false, .schedule contractCall 0 5 (toSelf 2) true]

theorem deferred_ledger_deferAndCancel :
    let s := run (DeferredOperation.exec delayCodec) contractState deferAndCancel
    s.DeferredLedger delayCodec contractState.usage ∧ s.usage 5 = 0 ∧ s.usage 6 = 275 := by
  have hiff := deferred_ledger_iff delayCodec contractState rfl deferAndCancel
  have hstart : ¬ (DeferredOperation.schedule contractCall 0 5 (toSelf 1) false).Replaces
      contractState := Bool.false_ne_true
  refine ⟨hiff.mpr ⟨fun _ _ => hstart, fun _ _ => id, fun _ _ => id, trivial⟩ _ List.prefix_rfl,
    ?_, ?_⟩ <;> decide +kernel

/-- The payer has been charged for both, and the object has the id of the first one. -/
theorem not_ledger_deferAndReplace :
    let s := run (DeferredOperation.exec delayCodec) contractState deferAndReplace
    ¬ s.DeferredLedger delayCodec contractState.usage ∧
      s.usage 5 = 547 ∧ pendingRam s.generated 5 = 274 ∧
      s.generated.map (fun g => (g.trxId, delayCodec.sha256 g.packedTrx)) = [(1, 2)] := by
  intro s
  have husage : s.usage 5 = 547 := by decide +kernel
  have hpending : pendingRam s.generated 5 = 274 := by decide +kernel
  have hstart : contractState.usage 5 = 0 := by decide +kernel
  refine ⟨fun hledger => ?_, husage, hpending, by decide +kernel⟩
  have hbalanced := hledger.balanced 5
  rw [husage, hpending, hstart] at hbalanced
  cases hbalanced

end BaccChain
