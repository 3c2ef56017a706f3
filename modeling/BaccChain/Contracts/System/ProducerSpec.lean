import BaccChain.Contracts.System.Producer

/-!
# `noc.system`: what the actions on producers do

One theorem for each action of `producer.cpp` and `noc.system.cpp`: which rows a successful call
has changed and which inline actions it has sent.
-/

namespace BaccChain

open Commons.Program
open Asset (core core_amount)

namespace SystemContract

variable {e : Env} {c c' : Ctx} {u : Unit} {bpname : Name}

/-! ## `onblock` -/

variable {scheduleVersion : Nat} {producers : List Name} {reward : Asset} {b : BpInfo}
  {producer : Name}

variable {currentBlock : Nat}

theorem countBlock_eq_ok
    (h : countBlock bpname scheduleVersion producers currentBlock e c = .ok (u, c')) :
    ∃ t ram, c' = { c with db := { c.db with schedules := t }, ramDeltas := ram } := by
  simp only [countBlock, ran_iff, calls_iff, schedulesTable_get] at h
  cases hrow : c.db.schedules.find () scheduleVersion with
  | none =>
    simp only [hrow] at h
    obtain ⟨-, t, ram, -, rfl⟩ := emplace_eq_ok h
    exact ⟨t, ram, rfl⟩
  | some =>
    simp only [hrow] at h
    obtain ⟨b, -, t, ram, -, rfl⟩ := modifyRow_pure h
    exact ⟨t, ram, rfl⟩

/-- The reward that the accounts created in the block before a height bring. -/
def vidReward (d : Db) (height : Nat) : Int :=
  match d.vidparam.find () vidParamsName, d.vidstates.find () (height - 1) with
  | some params, some stats =>
    if 1 < height then
      params.rewardPerVid.amount * wrap64 params.vidRewardCoefficient * stats.vidCount
    else 0
  | _, _ => 0

theorem rewardToVid_eq_ok {q : Asset} (h : rewardToVid currentBlock e c = .ok (q, c')) :
    c' = c ∧ q.amount = vidReward c.db currentBlock := by
  simp only [rewardToVid, ran_iff, calls_iff, vidParamsTable_get] at h
  unfold vidReward
  cases hp : c.db.vidparam.find () vidParamsName with
  | none =>
    simp only [hp, pure_eq_ok] at h
    exact ⟨h.2, by rw [h.1]; rfl⟩
  | some =>
    simp only [hp, ite_run] at h
    split_ifs at h with hblock
    · simp only [ran_iff, calls_iff, vidStatsTable_get] at h
      cases hs : c.db.vidstates.find () (currentBlock - 1) with
      | none =>
        simp only [hs, pure_eq_ok] at h
        exact ⟨h.2, by rw [h.1]; rfl⟩
      | some =>
        simp only [hs, ran_iff, Asset.mul_eq_ok] at h
        obtain ⟨-, -, -, -, rfl, rfl⟩ := h
        exact ⟨rfl, (if_pos hblock).symm⟩
    · obtain ⟨rfl, rfl⟩ := pure_eq_ok.mp h
      refine ⟨rfl, ?_⟩
      cases c'.db.vidstates.find () (currentBlock - 1) with
      | none => rfl
      | some => exact (if_neg hblock).symm

/-- What `payVid` leaves of a block's reward `R` when new accounts bring `V`, and the issue it sends
for them. -/
def vidPayment (R V : Int) : Int × List Action :=
  if V ≤ 0 then (R, [])
  else if R < V then
    (0, [Token.issueAction vidPoolAccountName (core 0) "issue tokens for vid pool"])
  else (R - V, [Token.issueAction vidPoolAccountName (core V) "issue tokens for vid pool"])

variable {R : Int}

theorem vidPayment_left (hR : 0 ≤ R) (V : Int) :
    0 ≤ (vidPayment R V).1 ∧ (vidPayment R V).1 ≤ R := by
  unfold vidPayment
  split_ifs <;> simp only <;> omega

theorem vidPayment_issues (R V : Int) :
    ∀ a ∈ (vidPayment R V).2, ∃ q memo, a = Token.issueAction vidPoolAccountName q memo := by
  unfold vidPayment
  split_ifs
  · simp
  · exact fun a ha => ⟨_, _, List.mem_singleton.mp ha⟩
  · exact fun a ha => ⟨_, _, List.mem_singleton.mp ha⟩

variable {left : Asset}

theorem payVid_eq_ok {toVid : Asset} (h : payVid (core R) toVid e c = .ok (left, c')) :
    left = core (vidPayment R toVid.amount).1 ∧
      c' = { c with inlineActions := c.inlineActions ++ (vidPayment R toVid.amount).2 } := by
  simp only [payVid, ran_iff, Asset.gt_eq_ok, core_amount, ite_run] at h
  obtain ⟨hsym, x, hx, h⟩ := h
  unfold vidPayment
  split_ifs at h with hpos
  · rw [hx] at hpos
    rw [if_neg (not_le.mpr hpos)]
    simp only [ran_iff, Asset.lt_eq_ok, core_amount, ite_run] at h
    obtain ⟨-, y, hy, h⟩ := h
    split_ifs at h with hlt
    · rw [hy] at hlt
      rw [if_pos hlt]
      simp only [bind_eq_ok, exists_unit, pure_eq_ok, Token.issueTokenInline] at h
      obtain ⟨c₁, hinline, rfl, rfl⟩ := h
      exact ⟨rfl, executeInline_eq_ok hinline⟩
    · rw [hy] at hlt
      rw [if_neg hlt]
      simp only [ran_iff, Token.issueTokenInline, Asset.sub_eq_ok] at h
      obtain ⟨-, -, -, c₁, hinline, rfl, rfl⟩ := h
      have hcore : toVid = core toVid.amount := by
        cases toVid
        exact congrArg _ hsym
      refine ⟨rfl, ?_⟩
      rw [← hcore]
      exact executeInline_eq_ok hinline
  · rw [hx, not_lt] at hpos
    rw [if_pos hpos, List.append_nil]
    exact pure_eq_ok.mp h

theorem payPow_eq_ok (hreward : 0 ≤ reward.amount) (h : payPow reward e c = .ok (left, c')) :
    c' = c ∧ left.amount = reward.amount := by
  simp only [payPow, ran_iff, Asset.gt_eq_ok, core_amount, whenever_eq_ok, Asset.sub_eq_ok] at h
  obtain ⟨-, x, hx, -, y, hy, c₁, hc₁, -, -, -, rfl, rfl⟩ := h
  have hneg : ¬ x = true := by rw [hx]; omega
  simp only [if_neg hneg, core_amount, lt_irrefl, iff_false] at hy ⊢
  rcases hc₁ with ⟨hp, -⟩ | ⟨-, rfl⟩
  · exact absurd hp hy
  · exact ⟨rfl, by omega⟩

theorem addReward_eq_ok {b' : BpInfo} {reward : BpReward} (h : addReward b reward = .ok b') :
    b' = { b with
      rewardsPool := ⟨b.rewardsPool.amount + reward.pool, b.rewardsPool.symbol⟩
      rewardsBlock := ⟨b.rewardsBlock.amount + reward.block, b.rewardsBlock.symbol⟩ } := by
  simp only [addReward, Commons.ok_iff, Asset.ofAmount_eq_ok, Asset.add_eq_ok, core_amount, ran_iff]
    at h
  exact h.2.2.2.2.2.2.2.2.2.2

/-- A producer's row after a block's reward; only active producers are rewarded. -/
def rewarded (b : BpInfo) (reward : BpReward) : BpInfo :=
  if b.isactive then
    { b with
      rewardsPool := ⟨b.rewardsPool.amount + reward.pool, b.rewardsPool.symbol⟩
      rewardsBlock := ⟨b.rewardsBlock.amount + reward.block, b.rewardsBlock.symbol⟩ }
  else b

theorem rewardBps_eq_ok {reward : Name × BpInfo → Except String BpReward}
    {value : Name × BpInfo → BpReward} (hvalue : ∀ b r, reward b = .ok r → r = value b)
    {bs : List (Name × BpInfo)} (hnodup : (bs.map Prod.fst).Nodup)
    (hrow : ∀ b ∈ bs, c.db.bps.find () b.1 = some b.2)
    (h : rewardBps reward bs e c = .ok (u, c')) :
    ∃ t ram, c' = { c with db := { c.db with bps := t }, ramDeltas := ram } ∧
      (∀ k, k ∉ bs.map Prod.fst → t.find () k = c.db.bps.find () k) ∧
      ∀ b ∈ bs, t.find () b.1 = some (rewarded b.2 (value b)) := by
  induction bs generalizing c with
  | nil =>
    obtain ⟨-, rfl⟩ := pure_eq_ok.mp h
    exact ⟨_, _, rfl, fun _ _ => rfl, by simp⟩
  | cons b bs ih =>
    obtain ⟨hb, hnodup'⟩ := List.nodup_cons.mp hnodup
    simp only [rewardBps, bind_eq_ok, exists_unit, whenever_eq_ok] at h
    obtain ⟨c₁, h₁, h⟩ := h
    obtain ⟨t₁, ram₁, rfl, hoff, hself⟩ : ∃ t ram,
        c₁ = { c with db := { c.db with bps := t }, ramDeltas := ram } ∧
        (∀ k, k ≠ b.1 → t.find () k = c.db.bps.find () k) ∧
        t.find () b.1 = some (rewarded b.2 (value b)) := by
      have hb := hrow b List.mem_cons_self
      rcases h₁ with ⟨hactive, h₁⟩ | ⟨hactive, rfl⟩
      · simp only [ran_iff] at h₁
        obtain ⟨r, hr, h₁⟩ := h₁
        obtain rfl := hvalue b r hr
        obtain ⟨row', hadd, t, ram, hw, rfl⟩ := modifyRow_lift h₁ hb
        refine ⟨t, ram, rfl, fun k hk => hw.find_of_ne fun he => hk he.2, ?_⟩
        rw [hw.find_self, addReward_eq_ok hadd, rewarded, if_pos hactive]
      · exact ⟨_, _, rfl, fun _ _ => rfl, by rw [hb, rewarded, if_neg hactive]⟩
    obtain ⟨t, ram, rfl, hoff', hin⟩ := ih hnodup' (fun b' hb' => by
      have hne : b'.1 ≠ b.1 := fun he => hb (he ▸ List.mem_map_of_mem hb')
      exact (hoff b'.1 hne).trans (hrow b' (List.mem_cons_of_mem _ hb'))) h
    refine ⟨t, ram, rfl, fun k hk => ?_, fun b' hb' => ?_⟩
    · simp only [List.map_cons, List.mem_cons, not_or] at hk
      exact (hoff' k hk.2).trans (hoff k hk.1)
    · rcases List.mem_cons.mp hb' with rfl | hb'
      · exact (hoff' _ hb).trans hself
      · exact hin b' hb'

theorem mem_bpRows {t : MultiIndex Unit BpInfo} {k : Name} :
    (k, b) ∈ bpRows t ↔ t.find () k = some b := by
  simp only [bpRows, List.mem_map, Prod.mk.injEq]
  constructor
  · rintro ⟨⟨key, row⟩, hmem, rfl, rfl⟩
    exact MultiIndex.find_of_rows (Commons.Table.mem_entries_iff.mp hmem)
  · intro h
    obtain ⟨p, hp⟩ := MultiIndex.find_eq_some_iff.mp h
    exact ⟨(toLex ((), k), ⟨p, b⟩), Commons.Table.mem_entries_iff.mpr hp, rfl, rfl⟩

theorem bpRows_nodup (t : MultiIndex Unit BpInfo) : ((bpRows t).map Prod.fst).Nodup := by
  have hsorted := t.rows.sorted
  rw [bpRows, List.map_map]
  refine List.Pairwise.map _ (fun x y hxy => ?_) hsorted
  intro he
  have hx : x.1 = y.1 := by
    show toLex ((), (ofLex x.1).2) = toLex ((), (ofLex y.1).2)
    exact congrArg (fun n => toLex ((), n)) he
  exact hxy.ne hx

theorem sum_bpRows (t : MultiIndex Unit BpInfo) (f : Name → BpInfo → Int) :
    ((bpRows t).map fun b => f b.1 b.2).sum = t.sum fun _ k b => f k b := by
  rw [bpRows, List.map_map]
  rfl

theorem stakeTotals_foldl (producers : List Name) (bs : List (Name × BpInfo)) (s : StakeTotals)
    (hall : wrap64 s.all = s.all) (hblock : wrap64 s.blockProducers = s.blockProducers) :
    let s' := bs.foldl (fun s b => {
      all := wrap64 (s.all + b.2.totalStaked)
      blockProducers :=
        if b.1 ∈ producers then wrap64 (s.blockProducers + b.2.totalStaked)
        else s.blockProducers }) s
    s'.all = wrap64 (s.all + (bs.map fun b => b.2.totalStaked).sum) ∧
      s'.blockProducers = wrap64 (s.blockProducers +
        (bs.map fun b => if b.1 ∈ producers then b.2.totalStaked else 0).sum) := by
  induction bs generalizing s with
  | nil => exact ⟨by simp [hall], by simp [hblock]⟩
  | cons b bs ih =>
    simp only [List.foldl_cons, List.map_cons, List.sum_cons]
    obtain ⟨h₁, h₂⟩ := ih ⟨wrap64 (s.all + b.2.totalStaked),
      if b.1 ∈ producers then wrap64 (s.blockProducers + b.2.totalStaked)
        else s.blockProducers⟩ (wrap64_wrap64 _) (by split_ifs <;> simp [wrap64_wrap64, hblock])
    refine ⟨h₁.trans ?_, h₂.trans ?_⟩
    · rw [wrap64_add_left, add_assoc]
    · split_ifs
      · rw [wrap64_add_left, add_assoc]
      · rw [zero_add]

theorem stakeTotals_all (producers : List Name) (t : MultiIndex Unit BpInfo) :
    (stakeTotals producers (bpRows t)).all = wrap64 (t.sum fun _ _ b => b.totalStaked) := by
  rw [stakeTotals, (stakeTotals_foldl producers (bpRows t) {} rfl rfl).1, zero_add, ← sum_bpRows]

theorem stakeTotals_blockProducers (producers : List Name) (t : MultiIndex Unit BpInfo) :
    (stakeTotals producers (bpRows t)).blockProducers =
      wrap64 (t.sum fun _ k b => if k ∈ producers then b.totalStaked else 0) := by
  rw [stakeTotals, (stakeTotals_foldl producers (bpRows t) {} rfl rfl).2, zero_add,
    ← sum_bpRows t fun k b => if k ∈ producers then b.totalStaked else 0]

variable {parts : Asset × Asset × Asset}

theorem splitReward_eq_ok (h : splitReward reward = .ok parts) :
    parts.1.amount = (reward.amount * rewardForProduceP).tdiv 100 ∧
      parts.2.1.amount = (reward.amount * rewardForBpsP).tdiv 100 ∧
      parts.2.2.amount = reward.amount - (parts.2.1.amount + parts.1.amount) := by
  simp only [splitReward, Commons.ok_iff, Asset.mul_eq_ok, Asset.div_eq_ok, Asset.add_eq_ok,
    Asset.sub_eq_ok, ran_iff] at h
  obtain ⟨-, -, -, -, -, -, -, -, -, -, -, -, -, -, rfl⟩ := h
  exact ⟨rfl, rfl, rfl⟩

theorem updateElectedBps_eq_ok {currBlockNum : Nat}
    (h : updateElectedBps currBlockNum e c = .ok (u, c')) : c' = c := by
  simp only [updateElectedBps, ran_iff, readTable_eq_ok, spareStake_eq_ok] at h
  obtain ⟨elected, -, h⟩ := h
  simp only [setProposedProducers, Commons.bind_eq_ok, Commons.pure_eq_ok] at h
  obtain ⟨-, -, -, -, -, -, h⟩ := h
  exact (Prod.mk.inj h).2

/-- The reward of a producer when a block's reward `R` is distributed over the table `t`. -/
def blockReward (producers : List Name) (producer : Name) (R : Int) (t : MultiIndex Unit BpInfo)
    (b : Name × BpInfo) : BpReward :=
  bpReward producers producer ((R * rewardForProduceP).tdiv 100) ((R * rewardForBpsP).tdiv 100)
    (R - ((R * rewardForBpsP).tdiv 100 + (R * rewardForProduceP).tdiv 100))
    (stakeTotals producers (bpRows t)) b

/-- The reward of a producer when three parts are distributed over the table `t`. -/
def partReward (producers : List Name) (producer : Name) (forProduce forBp forUser : Int)
    (t : MultiIndex Unit BpInfo) (b : Name × BpInfo) : BpReward :=
  bpReward producers producer forProduce forBp forUser (stakeTotals producers (bpRows t)) b

/-- The three parts of a block's reward are distributed over the producers: nothing if there is no
stake, and otherwise a share for every active producer. -/
def DistributesParts (t t' : MultiIndex Unit BpInfo) (producers : List Name) (producer : Name)
    (forProduce forBp forUser : Int) : Prop :=
  t' = t ∨ 0 < (stakeTotals producers (bpRows t)).all ∧
    ∀ k, t'.find () k = (t.find () k).map fun b =>
      rewarded b (partReward producers producer forProduce forBp forUser t (k, b))

/-- **A distribution** of the reward `R` of a block over the producers. -/
def Distributes (t t' : MultiIndex Unit BpInfo) (producers : List Name) (producer : Name)
    (R : Int) : Prop :=
  t' = t ∨ 0 < (stakeTotals producers (bpRows t)).all ∧
    ∀ k, t'.find () k =
      (t.find () k).map fun b => rewarded b (blockReward producers producer R t (k, b))

theorem rewardBpsAndUser_parts {forProduce forBp forUser : Asset}
    (h : rewardBpsAndUser producers producer forProduce forBp forUser e c = .ok (u, c')) :
    ∃ t ram, c' = { c with db := { c.db with bps := t }, ramDeltas := ram } ∧
      DistributesParts c.db.bps t producers producer forProduce.amount forBp.amount
        forUser.amount := by
  simp only [rewardBpsAndUser, ran_iff, readTable_eq_ok, whenever_eq_ok, bpsTable_get] at h
  rcases h with ⟨-, hpos, h⟩ | ⟨-, rfl⟩
  · have hvalue : ∀ b r, (do
        Commons.check (0 ∉ bpDivisors producers (stakeTotals producers (bpRows c.db.bps)) b)
          "Error, f64.convert_s/i64 unrepresentable"
        return bpReward producers producer forProduce.amount forBp.amount forUser.amount
          (stakeTotals producers (bpRows c.db.bps)) b : Except String BpReward) = .ok r →
        r = partReward producers producer forProduce.amount forBp.amount forUser.amount
          c.db.bps b := by
      intro b r hr
      simp only [Commons.bind_eq_ok, Commons.pure_eq_ok] at hr
      obtain ⟨-, -, rfl⟩ := hr
      rfl
    obtain ⟨t, ram, rfl, hoff, hin⟩ := rewardBps_eq_ok hvalue (bpRows_nodup _)
      (fun b hb => mem_bpRows.mp hb) h
    refine ⟨t, ram, rfl, .inr ⟨hpos, fun k => ?_⟩⟩
    cases hk : c.db.bps.find () k with
    | none =>
      refine (hoff k fun hmem => ?_).trans hk
      obtain ⟨⟨k', b⟩, hb, rfl⟩ := List.mem_map.mp hmem
      rw [mem_bpRows.mp hb] at hk
      cases hk
    | some b => exact hin (k, b) (mem_bpRows.mpr hk)
  · exact ⟨_, _, rfl, .inl rfl⟩

theorem rewardBpsAndUser_eq_ok (hparts : splitReward reward = .ok parts)
    (h : rewardBpsAndUser producers producer parts.1 parts.2.1 parts.2.2 e c = .ok (u, c')) :
    ∃ t ram, c' = { c with db := { c.db with bps := t }, ramDeltas := ram } ∧
      Distributes c.db.bps t producers producer reward.amount := by
  obtain ⟨t, ram, hc', ht⟩ := rewardBpsAndUser_parts h
  obtain ⟨h₁, h₂, h₃⟩ := splitReward_eq_ok hparts
  rw [h₃, h₁, h₂] at ht
  exact ⟨t, ram, hc', ht⟩

/-- **The payments of a block**: what `onblock` issues, for new accounts and to the system account,
and what it distributes over the producers. -/
theorem onblock_payments (h : onblock bpname scheduleVersion e c = .ok (u, c')) :
    ∃ (left : Int) (vid : List Action) (ts : MultiIndex Unit ScheduleInfo)
      (tb : MultiIndex Unit BpInfo),
      (left, vid) = vidPayment (e.world.calcRewardByBlock e.world.blockNum)
        (vidReward c.db e.world.blockNum) ∧
      c'.inlineActions = c.inlineActions ++ vid ++ (if 0 < left then
        [Token.issueAction systemAccountName (core left) "issue tokens for block reward"]
        else []) ∧
      c'.db = { c.db with schedules := ts, bps := tb } ∧
      Distributes c.db.bps tb (blockProducers e.world.activeProducers) bpname left := by
  simp only [onblock, ran_iff, calls_iff, activeProducers_eq_ok, rewardSchedule_eq_ok,
    Asset.ofAmount_eq_ok, Asset.gt_eq_ok, core_amount, whenever_eq_ok, Token.issueTokenInline] at h
  obtain ⟨c₁, hcount, -, -, toVid, c₂, hvid, reward, c₃, hpay, -, x, hx, c₄, hissue, reward',
    c₅, hpow, parts, hparts, c₆, hdist, helect⟩ := h
  obtain ⟨ts, ram, rfl⟩ := countBlock_eq_ok hcount
  obtain ⟨rfl, hamount⟩ := rewardToVid_eq_ok hvid
  obtain ⟨rfl, rfl⟩ := payVid_eq_ok hpay
  have hamount : toVid.amount = vidReward c.db e.world.blockNum := hamount
  rw [hamount] at hx hissue hpow
  have hpos : 0 ≤ (vidPayment (e.world.calcRewardByBlock e.world.blockNum)
      (vidReward c.db e.world.blockNum)).1 := (vidPayment_left (Int.natCast_nonneg _) _).1
  generalize vidPayment (e.world.calcRewardByBlock e.world.blockNum)
    (vidReward c.db e.world.blockNum) = payment at hx hissue hpow hpos
  obtain ⟨left, vid⟩ := payment
  have hx : x = true ↔ 0 < left := hx
  obtain ⟨rfl, hleft⟩ := payPow_eq_ok hpos hpow
  obtain ⟨tb, ram', rfl, hdistributes⟩ := rewardBpsAndUser_eq_ok hparts hdist
  have hinline : c₅ = { c with
      db := { c.db with schedules := ts }
      ramDeltas := c₅.ramDeltas
      inlineActions := c.inlineActions ++ vid ++ (if 0 < left then
        [Token.issueAction systemAccountName (core left) "issue tokens for block reward"]
        else []) } := by
    rw [hx] at hissue
    rcases hissue with ⟨hgt, hissue⟩ | ⟨hgt, rfl⟩
    · rw [executeInline_eq_ok hissue, if_pos hgt]
    · rw [if_neg hgt, List.append_nil]
  have hc' : c' = { c₅ with db := { c₅.db with bps := tb }, ramDeltas := ram' } := by
    rcases helect with ⟨-, helect⟩ | ⟨-, rfl⟩
    · exact updateElectedBps_eq_ok helect
    · rfl
  refine ⟨left, vid, ts, tb, rfl, ?_, ?_, ?_⟩
  · rw [hc', hinline]
  · rw [hc', hinline]
  · rw [hleft, hinline] at hdistributes
    exact hdistributes

theorem onblock_eq_ok (h : onblock bpname scheduleVersion e c = .ok (u, c')) :
    ∃ (R : Int) (vid : List Action) (ts : MultiIndex Unit ScheduleInfo)
      (tb : MultiIndex Unit BpInfo),
      0 ≤ R ∧ R ≤ e.world.calcRewardByBlock e.world.blockNum ∧
      (∀ a ∈ vid, ∃ q memo, a = Token.issueAction vidPoolAccountName q memo) ∧
      c'.inlineActions = c.inlineActions ++ vid ++ (if 0 < R then
        [Token.issueAction systemAccountName (core R) "issue tokens for block reward"] else []) ∧
      c'.db = { c.db with schedules := ts, bps := tb } ∧
      Distributes c.db.bps tb (blockProducers e.world.activeProducers) bpname R := by
  obtain ⟨left, vid, ts, tb, hpayment, hinline, hdb, hdist⟩ := onblock_payments h
  obtain ⟨rfl, rfl⟩ := Prod.mk.inj hpayment
  obtain ⟨hpos, hle⟩ := vidPayment_left (Int.natCast_nonneg _) (vidReward c.db e.world.blockNum)
  exact ⟨_, _, ts, tb, hpos, hle, vidPayment_issues _ _, hinline, hdb, hdist⟩

/-! ## Producers -/

theorem updatebp_eq_ok {invite : Name} {blockSigningKey : PublicKey} {url : List UInt8}
    (h : updatebp bpname invite blockSigningKey url e c = .ok (u, c')) :
    e.HasAuth bpname ∧
    ∃ b t, c.db.bps.Writes () bpname (some b) t ∧ c'.db = { c.db with bps := t } ∧
      (c.db.bps.find () bpname = none ∧
          b = { name := bpname, invite, blockSigningKey, url,
                voteageUpdateHeight := e.world.blockNum } ∨
        ∃ b₀, c.db.bps.find () bpname = some b₀ ∧ b = { b₀ with blockSigningKey, url }) ∧
      c'.inlineActions = c.inlineActions := by
  simp only [updatebp, ran_iff, calls_iff, bpsTable_get] at h
  obtain ⟨hauth, -, -, h⟩ := h
  cases hrow : c.db.bps.find () bpname with
  | none =>
    simp only [hrow] at h
    obtain ⟨-, t, ram, hw, rfl⟩ := emplace_eq_ok h
    exact ⟨hauth, _, t, hw, rfl, .inl ⟨rfl, rfl⟩, rfl⟩
  | some b₀ =>
    simp only [hrow] at h
    obtain ⟨b, hb, t, ram, hw, rfl⟩ := modifyRow_pure h
    obtain rfl : b₀ = b := Option.some.inj (hrow.symm.trans hb)
    exact ⟨hauth, _, t, hw, rfl, .inr ⟨b₀, rfl, rfl⟩, rfl⟩

theorem removebp_eq_ok (h : removebp bpname e c = .ok (u, c')) :
    ∃ b t, c.db.bps.find () bpname = some b ∧
      c.db.bps.Writes () bpname (some { b with isactive := false }) t ∧
      c'.db = { c.db with bps := t } ∧ c'.inlineActions = c.inlineActions := by
  simp only [removebp, ran_iff, calls_iff] at h
  obtain ⟨-, -, -, h⟩ := h
  obtain ⟨b, hb, t, ram, hw, rfl⟩ := modifyRow_pure h
  exact ⟨b, t, hb, hw, rfl, rfl⟩

theorem openbp_eq_ok (h : openbp producer e c = .ok (u, c')) :
    ∃ t, c'.db = { c.db with bpopened := t } ∧ c'.inlineActions = c.inlineActions := by
  simp only [openbp, ran_iff, calls_iff] at h
  obtain ⟨-, -, h⟩ := h
  obtain ⟨-, t, ram, -, rfl⟩ := emplace_eq_ok h
  exact ⟨t, rfl, rfl⟩

theorem banbp_eq_ok (h : banbp producer e c = .ok (u, c')) :
    ∃ t, c'.db = { c.db with bpopened := t } ∧ c'.inlineActions = c.inlineActions := by
  simp only [banbp, ran_iff, calls_iff] at h
  obtain ⟨-, -, -, h⟩ := h
  obtain ⟨-, t, ram, -, rfl⟩ := eraseRow_eq_ok h
  exact ⟨t, rfl, rfl⟩

variable {pawn : Asset}

theorem bppawn_eq_ok (h : bppawn bpname pawn e c = .ok (u, c')) :
    e.HasAuth bpname ∧
    ∃ b t, c.db.bps.find () bpname = some b ∧
      c.db.bps.Writes () bpname
        (some { b with pawn := ⟨b.pawn.amount + pawn.amount, b.pawn.symbol⟩ }) t ∧
      c'.db = { c.db with bps := t } ∧
      c'.inlineActions = c.inlineActions ++
        [Token.transferAction bpname bpPawnAccountName pawn "pawn for bp"] := by
  simp only [bppawn, ran_iff, calls_iff] at h
  obtain ⟨hauth, -, -, -, -, -, -, c₁, hmod, hinline⟩ := h
  obtain ⟨b, b', c₂, hb, hu, t, ram, hw, rfl⟩ := modifyRow_eq_ok hmod
  simp only [ran_iff, Asset.add_eq_ok] at hu
  obtain ⟨-, -, -, rfl, rfl⟩ := hu
  obtain rfl := executeInline_eq_ok hinline
  exact ⟨hauth, b, t, hb, hw, rfl, rfl⟩

theorem pos_of_bppawn (h : bppawn bpname pawn e c = .ok (u, c')) : 0 < pawn.amount := by
  simp only [bppawn, ran_iff, calls_iff, Asset.gt_eq_ok, core_amount] at h
  obtain ⟨-, -, -, x, hx, hpos, -⟩ := h
  exact hx.mp hpos

theorem bpredeem_eq_ok (h : bpredeem bpname e c = .ok (u, c')) :
    e.HasAuth bpname ∧
    ∃ b t, c.db.bps.find () bpname = some b ∧
      c.db.bps.Writes () bpname (some { b with pawn := core 0 }) t ∧
      c'.db = { c.db with bps := t } ∧
      c'.inlineActions = c.inlineActions ++
        [Token.transferAction bpPawnAccountName bpname b.pawn "redeem pawn for bp"] := by
  simp only [bpredeem, ran_iff, calls_iff] at h
  obtain ⟨hauth, -, bp, hbp, -, c₁, hinline, hmod⟩ := h
  obtain rfl := executeInline_eq_ok hinline
  obtain ⟨b, hb, t, ram, hw, rfl⟩ := modifyRow_pure hmod
  obtain rfl : bp = b := Option.some.inj (hbp.symm.trans hb)
  exact ⟨hauth, bp, t, hbp, hw, rfl, rfl⟩

theorem totalStaked_of_bpredeem (h : bpredeem bpname e c = .ok (u, c'))
    (hb : c.db.bps.find () bpname = some b) : b.totalStaked ≤ 0 := by
  simp only [bpredeem, ran_iff, calls_iff, bpsTable_get] at h
  obtain ⟨-, -, bp, hbp, hstaked, -⟩ := h
  obtain rfl : b = bp := Option.some.inj (hb.symm.trans hbp)
  exact hstaked

/-- The fee on a claimed block reward: one percent, rounded to the nearest. -/
def bpclaimFee (b : BpInfo) : Int := (b.rewardsBlock.amount + 50).tdiv 100

theorem bpclaim_eq_ok (h : bpclaim bpname e c = .ok (u, c')) :
    e.HasAuth bpname ∧
    ∃ b t, c.db.bps.find () bpname = some b ∧ b.rewardsBlock.symbol = coreSymbol ∧
      500 * 10000 ≤ b.rewardsBlock.amount ∧
      c.db.bps.Writes () bpname (some { b with rewardsBlock := core 0 }) t ∧
      c'.db = { c.db with bps := t } ∧
      c'.inlineActions = c.inlineActions ++
        [Token.transferAction systemAccountName bpname
            (core (b.rewardsBlock.amount - bpclaimFee b)) "bp claim block reward",
          Token.transferAction systemAccountName ecosystemAccountName
            (core (bpclaimFee b)) "bp claim block reward fee"] := by
  simp only [bpclaim, ran_iff, calls_iff, Asset.ge_eq_ok, Asset.add_eq_ok, Asset.div_eq_ok,
    Asset.sub_eq_ok, core_amount] at h
  obtain ⟨hauth, bp, hbp, hsym, x, hx, hge, -, -, -, -, -, -, -, -, c₁, hsend, c₂, hfee, hmod⟩ := h
  have hle := hx.mp hge
  have hfeepos : 0 < bpclaimFee bp := by
    unfold bpclaimFee
    rw [Int.tdiv_eq_ediv_of_nonneg (by omega)]
    omega
  have hrest : 0 < bp.rewardsBlock.amount - bpclaimFee bp := by
    unfold bpclaimFee
    rw [Int.tdiv_eq_ediv_of_nonneg (by omega)]
    omega
  have hsym : bp.rewardsBlock.symbol = coreSymbol := hsym
  rw [hsym] at hsend hfee
  have hsend := Token.sendTokenInline_eq_ok (q := core (bp.rewardsBlock.amount - bpclaimFee bp))
    hsend
  rw [core_amount, if_neg hrest.not_ge] at hsend
  have hfee := Token.sendTokenInline_eq_ok (q := core (bpclaimFee bp)) hfee
  rw [core_amount, if_neg hfeepos.not_ge, hsend] at hfee
  obtain ⟨b, hb, t, ram, hw, rfl⟩ := modifyRow_pure hmod
  rw [hfee] at hb hw ⊢
  obtain rfl : bp = b := Option.some.inj (hbp.symm.trans hb)
  exact ⟨hauth, bp, t, hbp, hsym, hle, hw, rfl, List.append_assoc _ _ _⟩

/-! ## Accounts and parameters -/

theorem setvidparam_eq_ok {coefficient : Nat} {rewardPerVid : Asset}
    (h : setvidparam coefficient rewardPerVid e c = .ok (u, c')) :
    ∃ t, c'.db = { c.db with vidparam := t } ∧ c'.inlineActions = c.inlineActions := by
  simp only [setvidparam, ran_iff, calls_iff, vidParamsTable_get] at h
  obtain ⟨-, h⟩ := h
  cases hrow : c.db.vidparam.find () vidParamsName with
  | none =>
    simp only [hrow] at h
    obtain ⟨-, t, ram, -, rfl⟩ := emplace_eq_ok h
    exact ⟨t, rfl, rfl⟩
  | some =>
    simp only [hrow] at h
    obtain ⟨b, -, t, ram, -, rfl⟩ := modifyRow_pure h
    exact ⟨t, rfl, rfl⟩

theorem setparams_eq_ok {n : Nat} (h : setparams n e c = .ok (u, c')) : c' = c := by
  simp only [setparams, ran_iff, calls_iff] at h
  exact h.2.2

theorem countVid_eq_ok {info : VidInfo} (h : countVid info e c = .ok (u, c')) :
    ∃ t ram, c' = { c with db := { c.db with vidstates := t }, ramDeltas := ram } := by
  simp only [countVid, ran_iff, calls_iff, vidStatsTable_get] at h
  cases hrow : c.db.vidstates.find () e.world.blockNum with
  | none =>
    simp only [hrow] at h
    obtain ⟨-, t, ram, -, rfl⟩ := emplace_eq_ok h
    exact ⟨t, ram, rfl⟩
  | some =>
    simp only [hrow] at h
    obtain ⟨b, -, t, ram, -, rfl⟩ := modifyRow_pure h
    exact ⟨t, ram, rfl⟩

theorem newaccount_eq_ok {newName vid : Name} (h : newaccount newName vid e c = .ok (u, c')) :
    ∃ tu tv ts, c.db.userres.find newName newName = none ∧
      c.db.userres.Writes newName newName (some { owner := newName }) tu ∧
      c'.db = { c.db with
        userres := tu
        vids := tv
        vidstates := ts
        resourceLimits := c.db.resourceLimits.insert newName ⟨0, 0, 0⟩ } ∧
      c'.inlineActions = c.inlineActions := by
  simp only [newaccount, ran_iff, calls_iff] at h
  obtain ⟨c₁, hres, c₂, hlimits, -, c₃, hvid, hcount⟩ := h
  obtain ⟨hnone, tu, ram, hw, rfl⟩ := emplace_eq_ok hres
  obtain rfl := setResourceLimits_eq_ok hlimits
  obtain ⟨-, tv, ram', -, rfl⟩ := emplace_eq_ok hvid
  obtain ⟨ts, ram'', rfl⟩ := countVid_eq_ok hcount
  exact ⟨tu, tv, ts, hnone, hw, rfl, rfl⟩

end SystemContract

end BaccChain
