import BaccChain.Chain.Effects
import BaccChain.Chain.Genesis

/-!
# Unstaked tokens are released more than once

`freeze` moves stake that is taken back into `unstaking`, and `unfreeze` pays the unstaking amount
out of the system account.

## Main definitions

* `ReleasedOnce`: no more is paid than was unstaked

## Main results

* `releasedOnce_iff`: when this is so
* `paid_twice`: when it is not
-/

namespace BaccChain

open Commons (run Along tally tally_le_tally)
open Asset (core)

def paidTo (voter : Name) (d : Db) (s : Step) (d' : Db) : Int :=
  match s.act.data with
  | .system (.unfreeze v) => if v = voter then d'.coreBalance voter - d.coreBalance voter else 0
  | _ => 0

def unstakedBy (voter : Name) (d : Db) (s : Step) (d' : Db) : Int :=
  match s.act.data with
  | .system (.freeze v _) => if v = voter then d'.unstaking voter - d.unstaking voter else 0
  | _ => 0

def ClearsUnstaking (voter : Name) (d : Db) (s : Step) : Prop :=
  ∀ d', push s d = .ok d' → s.act.data = .system (.unfreeze voter) → d'.unstaking voter = 0

/-- **Released once**: at no point of the run has `voter` been paid more by `unfreeze` than it has
unstaked by `freeze`, and nothing is unstaking right after an `unfreeze`. -/
structure ReleasedOnce (voter : Name) (d : Db) (steps : List Step) : Prop where
  paid_le : ∀ l, l <+: steps → tally push (paidTo voter) d l ≤ tally push (unstakedBy voter) d l
  clears : Along push (ClearsUnstaking voter) d steps

namespace SystemContract

variable {w : World} {auths : List PermissionLevel} {depth : Nat} {d d' : Db} {voter : Name}

theorem exec_unfreeze (h : exec w depth ⟨auths, .system (.unfreeze voter)⟩ d = .ok d') :
    0 < d.unstaking voter ∧ d'.unstaking voter = d.unstaking voter := by
  obtain ⟨c, depth', hc, -, hpay, hfold⟩ := exec_system h
  obtain ⟨-, f, hf, hpos, hdb, -⟩ := unfreeze_eq_ok hc
  have hunstaking : d.unstaking voter = f.unstaking.amount := MultiIndex.weightAt_of_find hf
  refine ⟨by rw [hunstaking]; exact hpos, ?_⟩
  rw [payments_frame hpay hfold, hdb]
  rfl

theorem exec_freeze {stake : Asset}
    (h : exec w depth ⟨auths, .system (.freeze voter stake)⟩ d = .ok d') :
    d.unstaking voter ≤ d'.unstaking voter := by
  obtain ⟨c, depth', hc, -, hpay, hfold⟩ := exec_system h
  obtain ⟨-, -, f, t, hw, hdb, -, hunstaking, -, -⟩ := freeze_eq_ok hc
  have hnew : d'.unstaking voter = f.unstaking.amount := by
    rw [payments_frame hpay hfold, hdb]
    exact hw.weightAt_self _
  have hold : f.unstaking.amount = d.unstaking voter +
      (if d.freezed.find () voter = none then 0
        else max 0 (d.staked voter - stake.amount)) := hunstaking
  rw [hnew, hold]
  split_ifs <;> omega

end SystemContract

theorem paidTo_le_unstakedBy {voter : Name} {d d' : Db} {s : Step} (hs : push s d = .ok d')
    (hne : s.act.data ≠ .system (.unfreeze voter)) :
    paidTo voter d s d' ≤ unstakedBy voter d s d' := by
  obtain ⟨w, ⟨auths, data⟩⟩ := s
  have hpaid : paidTo voter d ⟨w, ⟨auths, data⟩⟩ d' = 0 := by
    unfold paidTo
    split
    · next v hdata =>
      refine if_neg ?_
      rintro rfl
      exact hne hdata
    · rfl
  rw [hpaid]
  unfold unstakedBy
  split
  · next v stake hdata =>
    obtain rfl : data = .system (.freeze v stake) := hdata
    split_ifs with hv
    · subst hv
      exact sub_nonneg.mpr (SystemContract.exec_freeze hs)
    · exact le_rfl
  · exact le_rfl

/-- **Released once.** From any state, a run releases the unstaked amounts of a voter once exactly
if it has no accepted `unfreeze` of that voter. -/
theorem releasedOnce_iff (voter : Name) (d : Db) (steps : List Step) :
    ReleasedOnce voter d steps ↔
      Along push (fun _ s => s.act.data ≠ .system (.unfreeze voter)) d steps := by
  constructor
  · intro h
    refine h.clears.mono fun d s d' hs hclears hdata => ?_
    obtain ⟨w, ⟨auths, data⟩⟩ := s
    obtain rfl : data = .system (.unfreeze voter) := hdata
    have hzero := hclears d' hs rfl
    obtain ⟨hpos, hkeep⟩ := SystemContract.exec_unfreeze hs
    omega
  · intro h
    refine ⟨?_, h.mono fun d s d' _ hne _ _ hdata => absurd hdata hne⟩
    rintro l ⟨l', rfl⟩
    refine tally_le_tally ?_ h.append.1
    exact fun d s d' hs hne => paidTo_le_unstakedBy hs hne

open Genesis (alice bob twoAccounts twoAccounts_database) in
/-- A voter unstakes `1000.0000` once and is paid twice. -/
theorem paid_twice :
    twoAccounts.initializeDatabase = .ok twoAccounts.database ∧
      ∃ steps : List Step,
        tally push (unstakedBy alice) twoAccounts.database steps = 10000000 ∧
        tally push (paidTo alice) twoAccounts.database steps = 20000000 ∧
        ¬ ReleasedOnce alice twoAccounts.database steps := by
  refine ⟨twoAccounts_database, [
    .byActor 10 alice (.system (.freeze alice (core 10000000))),
    .byActor 11 alice (.system (.freeze alice (core 0))),
    .byActor 12 bob (.token (.transfer bob systemAccountName (core 100000000) "")),
    .byActor 300000 alice (.system (.unfreeze alice)),
    .byActor 300001 alice (.system (.unfreeze alice))],
    by decide +kernel, by decide +kernel, fun h => ?_⟩
  have hle := h.paid_le _ (List.prefix_refl _)
  revert hle
  decide +kernel

end BaccChain
