import BaccChain.Properties.Conservation

/-!
# Issuance is bounded by the reward of the block

Core tokens are only issued with the authorization of the system account, and only `onblock` sends
such an issue, of at most the reward of the block.

## Main definitions

* `Block`: a block with the actions of users

## Main results

* `coreSupply_block_le`: the supply grows by the reward
* `coreSupply_onblock_twice`: `onblock` by a user
-/

namespace BaccChain

open Commons (run advance run_induction foldlM_induction along_true)
open Asset (core core_amount core_symbol)
open Token (transferAction issueAction)

def Db.coreSupply (d : Db) : Int := d.supply coreSymbol

def CoreStat (d : Db) : Prop :=
  ∃ st, d.stat.find (symbolName coreSymbol) (symbolName coreSymbol) = some st ∧
    st.issuer = systemAccountName ∧ st.supply.symbol = coreSymbol

variable {d d' : Db}

theorem Db.coreSupply_of_find {st : CurrencyStats}
    (h : d.stat.find (symbolName coreSymbol) (symbolName coreSymbol) = some st)
    (hsym : st.supply.symbol = coreSymbol) : d.coreSupply = st.supply.amount := by
  rw [Db.coreSupply, Db.supply, MultiIndex.weightAt_of_find h, if_pos hsym]

theorem Db.coreSupply_congr (h : d'.stat.find (symbolName coreSymbol) (symbolName coreSymbol) =
    d.stat.find (symbolName coreSymbol) (symbolName coreSymbol)) :
    d'.coreSupply = d.coreSupply := by
  unfold Db.coreSupply Db.supply MultiIndex.weightAt
  rw [h]

theorem Db.coreSupply_of_stat (h : d'.stat = d.stat) : d'.coreSupply = d.coreSupply :=
  Db.coreSupply_congr (by rw [h])

namespace CoreStat

theorem congr (h : CoreStat d) (heq : d'.stat = d.stat) : CoreStat d' := by
  unfold CoreStat
  rw [heq]
  exact h

theorem issues {issuer : Name} {q : Asset} (h : CoreStat d) (hi : Token.Issues d d' issuer q) :
    CoreStat d' ∧ (d'.coreSupply = d.coreSupply ∨
      issuer = systemAccountName ∧ d'.coreSupply = d.coreSupply + q.amount) := by
  obtain ⟨st, hst, hissuer, hsym⟩ := h
  obtain ⟨st', hst', rfl, hsym', -, hw⟩ := hi.stat
  by_cases hk : symbolName coreSymbol = symbolName q.symbol
  · rw [hk] at hst
    obtain rfl : st = st' := Option.some.inj (hst.symm.trans hst')
    rw [← hk] at hst
    have hself := hw.find_self
    rw [← hk] at hself
    refine ⟨⟨_, hself, hissuer, hsym⟩, .inr ⟨hissuer, ?_⟩⟩
    rw [Db.coreSupply_of_find hself hsym, Db.coreSupply_of_find hst hsym]
  · have hkeep : d'.stat.find (symbolName coreSymbol) (symbolName coreSymbol) =
        d.stat.find (symbolName coreSymbol) (symbolName coreSymbol) :=
      hw.find_of_ne fun e => hk e.1
    exact ⟨⟨st, hkeep.trans hst, hissuer, hsym⟩, .inl (Db.coreSupply_congr hkeep)⟩

theorem effect {e : Env} (h : CoreStat d) (he : Token.Effect e d d') :
    CoreStat d' ∧ (d'.coreSupply = d.coreSupply ∨ e.HasAuth systemAccountName) := by
  cases he with
  | moves fromAccount toAccount q auth hm =>
    obtain ⟨t, rfl⟩ := hm.frame
    exact ⟨h, .inl rfl⟩
  | issues issuer q auth hi =>
    obtain ⟨hstat, hsupply⟩ := h.issues hi
    refine ⟨hstat, hsupply.imp id ?_⟩
    rintro ⟨rfl, -⟩
    exact auth
  | creates issuer maximumSupply auth hc =>
    obtain ⟨st, hst, hissuer, hsym⟩ := h
    have hkeep : d'.stat.find (symbolName coreSymbol) (symbolName coreSymbol) =
        d.stat.find (symbolName coreSymbol) (symbolName coreSymbol) := by
      apply hc.stat.find_of_ne
      intro e
      have hfresh := hc.fresh
      rw [← e.1, hst] at hfresh
      cases hfresh
    exact ⟨⟨st, hkeep.trans hst, hissuer, hsym⟩, .inl (Db.coreSupply_congr hkeep)⟩

theorem push {s : Step} (h : CoreStat d) (hs : push s d = .ok d') : CoreStat d' :=
  push_induction CoreStat (fun _ _ _ he h => (h.effect he).1)
    (fun _ _ _ hc h => h.congr (SystemContract.handle_frame hc).1.stat) hs h

theorem initial {g : Genesis} (hg : g.Initial d) : CoreStat d :=
  ⟨_, hg.stat.find_self, rfl, rfl⟩

theorem run {g : Genesis} (hg : g.initializeDatabase = .ok d) (steps : List Step) :
    CoreStat (run BaccChain.push d steps) :=
  run_induction (P := fun _ _ => True) CoreStat (fun _ _ _ h _ hs => h.push hs)
    (.initial (Genesis.initializeDatabase_eq_ok hg)) along_true

end CoreStat

/-! ## The core supply after a step -/

section Steps

variable {w : World} {depth : Nat} {auths : List PermissionLevel}

theorem coreSupply_transfers {l : List Action} (hl : ∀ a ∈ l, IsTransfer a)
    (h : l.foldlM (fun d a => exec w depth a d) d = .ok d') : d'.coreSupply = d.coreSupply := by
  refine foldlM_induction (fun x => x.coreSupply = d.coreSupply) (fun a ha s s' hs hd => ?_) h rfl
  obtain ⟨fromAccount, toAccount, q, memo, rfl⟩ := hl a ha
  obtain ⟨t, rfl⟩ := (exec_transferAction hs).2.frame
  exact hd

theorem coreSupply_token {a : TokenAction} (hd : CoreStat d)
    (hauth : ∀ p ∈ auths, p.actor ≠ systemAccountName)
    (h : exec w depth ⟨auths, .token a⟩ d = .ok d') : d'.coreSupply = d.coreSupply := by
  refine (exec_induction_token_of (· ≠ systemAccountName)
    (fun x => CoreStat x ∧ x.coreSupply = d.coreSupply) (fun e x x' he heffect hx => ?_) hauth h
    ⟨hd, rfl⟩).2
  obtain ⟨hstat, hsame | hsystem⟩ := hx.1.effect heffect
  · exact ⟨hstat, hsame.trans hx.2⟩
  · exact absurd rfl (he _ hsystem)

theorem coreSupply_system {a : SystemAction} (ha : SystemContract.isOnblock a = false)
    (h : exec w depth ⟨auths, .system a⟩ d = .ok d') : d'.coreSupply = d.coreSupply := by
  obtain ⟨c, depth', hc, hfold⟩ := exec_eq_ok h
  obtain ⟨hframe, sent, hsent, hpay⟩ := SystemContract.handle_frame (applyAction_eq_ok.mp hc)
  have htransfer : ∀ x ∈ c.inlineActions, IsTransfer x := by
    intro x hx
    rw [hsent] at hx
    rcases hpay x hx with hx | ⟨hon, -⟩
    · exact hx
    · rw [ha] at hon
      cases hon
  rw [coreSupply_transfers htransfer hfold]
  exact Db.coreSupply_of_stat hframe.stat

theorem coreSupply_issues {toAccount : Name} (hne : toAccount ≠ systemAccountName)
    {l : List Action} (hl : ∀ a ∈ l, ∃ q memo, a = issueAction toAccount q memo)
    (h : l.foldlM (fun d a => exec w depth a d) d = .ok d') (hd : CoreStat d) :
    CoreStat d' ∧ d'.coreSupply = d.coreSupply := by
  refine foldlM_induction (fun x => CoreStat x ∧ x.coreSupply = d.coreSupply)
    (fun a ha s s' hs hstat => ?_) h ⟨hd, rfl⟩
  obtain ⟨q, memo, rfl⟩ := hl a ha
  obtain ⟨hstat', hsupply⟩ := hstat.1.issues (exec_issueAction hs)
  rcases hsupply with hsame | ⟨heq, -⟩
  · exact ⟨hstat', hsame.trans hstat.2⟩
  · exact absurd heq hne

theorem coreSupply_onblock {bpname : Name} {scheduleVersion : Nat} (hd : CoreStat d)
    (h : exec w depth ⟨auths, .system (.onblock bpname scheduleVersion)⟩ d = .ok d') :
    d'.coreSupply ≤ d.coreSupply + w.calcRewardByBlock w.blockNum := by
  obtain ⟨c, depth', hc, hframe, -, hfold⟩ := exec_system h
  obtain ⟨R, vid, ts, tb, hR, hle, hvid, hinline, -, -⟩ := SystemContract.onblock_eq_ok hc
  have hinline' : c.inlineActions = vid ++ (if 0 < R then
      [issueAction systemAccountName (core R) "issue tokens for block reward"] else []) := hinline
  have hsupply : c.db.coreSupply = d.coreSupply := Db.coreSupply_of_stat hframe.stat
  rw [hinline', List.foldlM_append, Commons.bind_eq_ok] at hfold
  obtain ⟨d₁, hfold₁, hfold₂⟩ := hfold
  obtain ⟨hstat, hvidSupply⟩ := coreSupply_issues (by decide) hvid hfold₁ (hd.congr hframe.stat)
  have hle' : R ≤ w.calcRewardByBlock w.blockNum := hle
  split_ifs at hfold₂ with hpos
  · simp only [List.foldlM_cons, List.foldlM_nil, bind_pure] at hfold₂
    rcases (hstat.issues (exec_issueAction hfold₂)).2 with hsame | ⟨-, hgrow⟩
    · omega
    · rw [core_amount] at hgrow
      omega
  · rw [← Except.ok.inj hfold₂]
    omega

end Steps

/-! ## Blocks -/

/-- A block: the producer and the schedule version of its header, and the actions executed in it,
at its height. -/
structure Block where
  world : World
  bpname : Name
  scheduleVersion : Nat
  actions : List Step
  height : ∀ s ∈ actions, s.world.blockNum = world.blockNum

def Block.onblock (b : Block) : Step :=
  ⟨b.world, ⟨[⟨systemAccountName, activeName⟩], .system (.onblock b.bpname b.scheduleVersion)⟩⟩

def Block.steps (b : Block) : List Step := b.onblock :: b.actions

/-- Users do not act for the system. -/
def Block.UserAuthorized (b : Block) : Prop :=
  ∀ s ∈ b.actions, ∀ p ∈ s.act.authorization, p.actor ≠ systemAccountName

/-- `onblock` is called once. -/
def Block.OnblockOnce (b : Block) : Prop := ∀ s ∈ b.actions, s.act.data.isOnblock = false

instance (b : Block) : Decidable b.UserAuthorized :=
  inferInstanceAs (Decidable (∀ s ∈ b.actions, ∀ p ∈ s.act.authorization,
    p.actor ≠ systemAccountName))

instance (b : Block) : Decidable b.OnblockOnce :=
  inferInstanceAs (Decidable (∀ s ∈ b.actions, s.act.data.isOnblock = false))

theorem coreSupply_user {s : Step} (hd : CoreStat d)
    (hauth : ∀ p ∈ s.act.authorization, p.actor ≠ systemAccountName)
    (hdata : s.act.data.isOnblock = false)
    (hs : push s d = .ok d') : d'.coreSupply = d.coreSupply := by
  obtain ⟨w, ⟨auths, data⟩⟩ := s
  cases data with
  | token => exact coreSupply_token hd hauth hs
  | system => exact coreSupply_system hdata hs

theorem coreSupply_run_user {steps : List Step} (hd : CoreStat d)
    (hauth : ∀ s ∈ steps, ∀ p ∈ s.act.authorization, p.actor ≠ systemAccountName)
    (hdata : ∀ s ∈ steps, s.act.data.isOnblock = false) :
    (run push d steps).coreSupply = d.coreSupply := by
  induction steps generalizing d with
  | nil => rfl
  | cons s steps ih =>
    rw [List.forall_mem_cons] at hauth hdata
    have hstep : CoreStat (advance push s d) ∧ (advance push s d).coreSupply = d.coreSupply :=
      Commons.advance_induction (fun x => CoreStat x ∧ x.coreSupply = d.coreSupply) ⟨hd, rfl⟩
        fun d' hs => ⟨hd.push hs, coreSupply_user hd hauth.1 hdata.1 hs⟩
    rw [Commons.run_cons, ih hstep.1 hauth.2 hdata.2, hstep.2]

/-- **Bounded issuance.** After any blocks from genesis, a block whose actions name only accounts
other than the system account and are not `onblock` grows the core supply by at most its reward. -/
theorem coreSupply_block_le {g : Genesis} {d₀ : Db} (hg : g.initializeDatabase = .ok d₀)
    (blocks : List Block) (b : Block) (hauth : b.UserAuthorized) (honce : b.OnblockOnce) :
    (run push d₀ ((blocks ++ [b]).flatMap Block.steps)).coreSupply ≤
      (run push d₀ (blocks.flatMap Block.steps)).coreSupply +
        b.world.calcRewardByBlock b.world.blockNum := by
  have hstat := CoreStat.run hg (blocks.flatMap Block.steps)
  rw [List.flatMap_append, Commons.run_append, List.flatMap_singleton, Block.steps,
    Commons.run_cons]
  generalize run push d₀ (blocks.flatMap Block.steps) = d at hstat ⊢
  have hfirst := Commons.advance_induction (i := b.onblock)
    (fun x => CoreStat x ∧
      x.coreSupply ≤ d.coreSupply + b.world.calcRewardByBlock b.world.blockNum)
    ⟨hstat, by omega⟩ fun d' hs => ⟨hstat.push hs, coreSupply_onblock hstat hs⟩
  rw [coreSupply_run_user hfirst.1 hauth honce]
  exact hfirst.2

open Genesis (alice bob twoAccounts twoAccounts_database) in
theorem coreSupply_block_le_transfer :
    let b : Block := ⟨.atHeight 10, bob, 1,
      [.byActor 10 alice (.token (.transfer alice bob (core 5) ""))], by decide⟩
    (run push twoAccounts.database ([b].flatMap Block.steps)).coreSupply ≤
      twoAccounts.database.coreSupply + SystemContract.calcRewardByBlock 10 :=
  coreSupply_block_le twoAccounts_database [] _ (by decide) (by decide)

open Genesis (alice bob twoAccounts twoAccounts_database) in
/-- A user sends `onblock` in a block: the block issues its reward twice. -/
theorem coreSupply_onblock_twice :
    twoAccounts.initializeDatabase = .ok twoAccounts.database ∧
      ∃ b : Block, b.UserAuthorized ∧
        (run push twoAccounts.database ([b].flatMap Block.steps)).coreSupply =
          twoAccounts.database.coreSupply + 2 * SystemContract.calcRewardByBlock 10 ∧
        b.world.calcRewardByBlock b.world.blockNum = SystemContract.calcRewardByBlock 10 ∧
        0 < SystemContract.calcRewardByBlock 10 := by
  refine ⟨twoAccounts_database, ⟨.atHeight 10, bob, 1,
    [.byActor 10 alice (.system (.onblock bob 1))], by decide⟩, by decide, by decide +kernel, rfl,
    by decide⟩

end BaccChain
