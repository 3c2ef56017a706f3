import BaccChain.Properties.Coverage

/-!
# Rewards turned into votes

`votebyreward` takes a voter's reward out of the pool of a producer and puts it on the vote for the
producer, rounded down to whole tens of tokens.

## Main definitions

* `LosesNothing`: what is taken is put on the vote

## Main results

* `losesNothing_iff`: when nothing is lost
* `losesReward_oneBlock`: a lost reward
-/

namespace BaccChain

open Commons (run)
open SystemContract
open Asset (core)

/-! ## Definitions -/

def Db.rewardsPool (d : Db) (bpname : Name) : Int :=
  d.bps.weightAt (fun _ _ b => b.rewardsPool.amount) () bpname

/-- **Nothing is lost** when a reward becomes a vote: what leaves the pool is what the vote and the
amount on votes grow by, and no row of another producer or voter changes. -/
structure LosesNothing (voter bpname : Name) (d d' : Db) : Prop where
  vote : d.rewardsPool bpname - d'.rewardsPool bpname =
    (d'.voteRow voter bpname).vote.amount - (d.voteRow voter bpname).vote.amount
  voteall : d.rewardsPool bpname - d'.rewardsPool bpname = d'.voteall voter - d.voteall voter
  bps_of_ne : ∀ k, k ≠ bpname → d'.bps.find () k = d.bps.find () k
  votes_of_ne : ∀ v k, ¬ (v = voter ∧ k = bpname) → d'.votes.find v k = d.votes.find v k
  voterinfo_of_ne : ∀ v, v ≠ voter → d'.voterinfo.find () v = d.voterinfo.find () v

/-! ## What the action changes -/

variable {d d' : Db} {voter bpname : Name}

theorem votebyreward_change {w : World} {depth : Nat} {auths : List PermissionLevel}
    (h : exec w depth ⟨auths, .system (.votebyreward voter bpname)⟩ d = .ok d') :
    (∃ r b, VoteChange d d' voter bpname r b) ∧
      d'.rewardsPool bpname = d.rewardsPool bpname - d.pendingReward voter bpname w.blockNum ∧
      (d'.voteRow voter bpname).vote.amount =
        (d.voteRow voter bpname).vote.amount + d.revotable voter bpname w.blockNum ∧
      d'.voteall voter = d.voteall voter + d.revotable voter bpname w.blockNum := by
  obtain ⟨c, depth', hc, -, -, hfold⟩ := exec_system h
  obtain ⟨-, -, b, vts, info, b', r, hb, hvts, hinfo, hpay, hr, hchange, -, hvoteall, hinline⟩ :=
    votebyreward_eq_ok hc
  have hnil : c.inlineActions = [] := hinline
  rw [hnil] at hfold
  obtain rfl : c.db = d' := Except.ok.inj hfold
  have hreward : d.pendingReward voter bpname w.blockNum = info.reward.amount :=
    Covered.pendingReward_eq hb hvts hinfo
  have hrevotable : d.revotable voter bpname w.blockNum = rewardAllOf info := by
    rw [Db.revotable, hreward, rewardAllOf]
  rw [hrevotable, hreward]
  refine ⟨⟨r, _, hchange⟩, ?_, ?_, hvoteall⟩
  · unfold Db.rewardsPool
    rw [hchange.bps.weightAt_self, MultiIndex.weightAt_of_find hb, payFromPool_eq_ok hpay]
    rfl
  · rw [Db.voteRow, Db.voteRow, hchange.votes.find_self, hvts, revoteReward_eq_ok hr]
    rfl

/-- **No reward is lost.** Whenever `votebyreward` succeeds, what leaves the pool is what the vote
and the amount on votes grow by, and the rows of others stay, exactly if the pending reward is a
multiple of ten tokens. -/
theorem losesNothing_iff {s : Step} (hdata : s.act.data = .system (.votebyreward voter bpname))
    (hs : push s d = .ok d') :
    LosesNothing voter bpname d d' ↔
      100000 ∣ d.pendingReward voter bpname s.world.blockNum := by
  obtain ⟨w, ⟨auths, data⟩⟩ := s
  obtain rfl : data = _ := hdata
  obtain ⟨⟨r, b, hchange⟩, hpool, hvote, hvoteall⟩ := votebyreward_change hs
  rw [Int.dvd_iff_tmod_eq_zero]
  unfold Db.revotable at hvote hvoteall
  constructor
  · intro h
    have heq := h.vote
    rw [hpool, hvote] at heq
    omega
  · intro h
    obtain ⟨i, hwi⟩ := hchange.voterinfo
    refine ⟨by omega, by omega, fun k hk => hchange.bps_of_ne hk,
      fun v k hk => hchange.votes_of_ne hk, fun v hv => hwi.find_of_ne fun e => hv e.2⟩

open Genesis (alice bob twoAccounts twoAccounts_database)

/-- Alice puts a million tokens on a static vote for bob, whose pool holds the rewards of some
blocks. -/
def rewardedBlocks (n : Nat) : List Step :=
  (List.range n).map (fun i =>
      .byActor (Fin.ofNat _ (i + 2)) systemAccountName (.system (.onblock bob 1))) ++ [
    .byActor 40 alice (.system (.freeze alice (core 10000000000))),
    .byActor 41 bob (.system (.bppawn bob (core 500000000))),
    .byActor 42 alice (.system (.votestatic alice bob (core 10000000000) 0))]

/-- After twenty-eight blocks a reward of exactly ten tokens becomes a vote. -/
theorem losesNothing_tenTokens :
    ∃ d', push (.byActor 252 alice (.system (.votebyreward alice bob)))
        (run push twoAccounts.database (rewardedBlocks 28)) = .ok d' ∧
      LosesNothing alice bob (run push twoAccounts.database (rewardedBlocks 28)) d' := by
  obtain ⟨d', hs⟩ : ∃ d', push (.byActor 252 alice (.system (.votebyreward alice bob)))
      (run push twoAccounts.database (rewardedBlocks 28)) = .ok d' := by decide +kernel
  exact ⟨d', hs, (losesNothing_iff rfl hs).mpr (by decide +kernel)⟩

/-- After one block the whole reward is rounded off: the pool shrinks and the vote does not grow. -/
theorem losesReward_oneBlock :
    twoAccounts.initializeDatabase = .ok twoAccounts.database ∧
      ∃ d', push (.byActor 252 alice (.system (.votebyreward alice bob)))
          (run push twoAccounts.database (rewardedBlocks 1)) = .ok d' ∧
        ¬ LosesNothing alice bob (run push twoAccounts.database (rewardedBlocks 1)) d' := by
  refine ⟨twoAccounts_database, ?_⟩
  obtain ⟨d', hs, htest⟩ := Commons.exists_ok_of_any (x := push (.byActor 252 alice
    (.system (.votebyreward alice bob))) (run push twoAccounts.database (rewardedBlocks 1)))
    (p := fun d' => (run push twoAccounts.database (rewardedBlocks 1)).rewardsPool bob ≠
      d'.rewardsPool bob ∧ (d'.voteRow alice bob).vote.amount =
        ((run push twoAccounts.database (rewardedBlocks 1)).voteRow alice bob).vote.amount)
    (by decide +kernel)
  obtain ⟨hpool, hvote⟩ := of_decide_eq_true htest
  refine ⟨d', hs, fun h => hpool ?_⟩
  have heq := h.vote
  omega

end BaccChain
