import BaccChain.Chain.Exec
import BaccChain.Contracts.System.VoteEffect
import BaccChain.Contracts.System.ProducerSpec
import BaccChain.Contracts.System.BandwidthSpec

/-!
# What an action does

An action of `noc.token` changes the tables of `noc.token` and sends at most a transfer. An action
of `noc.system` changes the tables of `noc.system` and sends payments.
-/

namespace BaccChain

open Commons (foldlM_induction)
open Commons.Program (pure_eq_ok)
open Token (transferAction issueAction)

variable {w : World} {depth : Nat} {act : Action} {d d' : Db}

/-! ## Handlers and inline actions -/

theorem exec_eq_ok (h : exec w depth act d = .ok d') :
    ∃ c depth', applyAction w act d = .ok c ∧
      c.inlineActions.foldlM (fun d a => exec w depth' a d) c.db = .ok d' := by
  cases depth with
  | zero =>
    simp only [exec, Commons.bind_eq_ok, Commons.pure_eq_ok, Commons.check_eq_ok] at h
    obtain ⟨c, hc, -, hnil, rfl⟩ := h
    refine ⟨c, 0, hc, ?_⟩
    rw [List.isEmpty_iff.mp hnil]
    rfl
  | succ depth =>
    simp only [exec, Commons.bind_eq_ok] at h
    obtain ⟨c, hc, hfold⟩ := h
    exact ⟨c, depth, hc, hfold⟩

def IsTransfer (a : Action) : Prop :=
  ∃ fromAccount toAccount q memo, a = transferAction fromAccount toAccount q memo

/-- An issue authorised by the account that receives it, as contracts send it. -/
def IsIssue (a : Action) : Prop := ∃ toAccount q memo, a = issueAction toAccount q memo

def IsPayment (a : Action) : Prop := IsTransfer a ∨ IsIssue a

theorem isTransfer_transferAction (fromAccount toAccount : Name) (q : Asset) (memo : String) :
    IsTransfer (transferAction fromAccount toAccount q memo) := ⟨_, _, _, _, rfl⟩

theorem isIssue_issueAction (toAccount : Name) (q : Asset) (memo : String) :
    IsIssue (issueAction toAccount q memo) := ⟨_, _, _, rfl⟩

/-! ## Actions of `noc.token` -/

variable {a : TokenAction} {auths : List PermissionLevel}

theorem applyAction_token {c : Ctx} (h : applyAction w ⟨auths, .token a⟩ d = .ok c) :
    Token.Effect ⟨w, tokenAccountName, auths⟩ d c.db ∧
      ∀ x ∈ c.inlineActions, ∃ fromAccount toAccount q memo,
        (⟨w, tokenAccountName, auths⟩ : Env).HasAuth fromAccount ∧
          x = transferAction fromAccount toAccount q memo := by
  obtain ⟨heffect, sent, hsent, htransfer⟩ := Token.handle_eq_ok (applyAction_eq_ok.mp h)
  refine ⟨heffect, fun x hx => htransfer x ?_⟩
  rw [hsent] at hx
  exact hx

/-- **Token actions from effects**: what every effect on tokens preserves that is authorised by
accounts in `A` only, every token action preserves that is authorised by accounts in `A` only. -/
theorem exec_induction_token_of (A : Name → Prop) (I : Db → Prop)
    (hI : ∀ e d d', (∀ n, e.HasAuth n → A n) → Token.Effect e d d' → I d → I d')
    (hauths : ∀ p ∈ auths, A p.actor) (h : exec w depth ⟨auths, .token a⟩ d = .ok d') (hd : I d) :
    I d' := by
  have hasAuth : ∀ {auths : List PermissionLevel}, (∀ p ∈ auths, A p.actor) →
      ∀ n, (⟨w, tokenAccountName, auths⟩ : Env).HasAuth n → A n := by
    rintro auths hauths n ⟨p, hp, rfl⟩
    exact hauths p hp
  refine exec_induction (fun act => ∃ a auths, act = ⟨auths, .token a⟩ ∧ ∀ p ∈ auths, A p.actor) I
    ?_ ?_ ⟨a, auths, rfl, hauths⟩ h hd
  · rintro _ db c ⟨a, auths, rfl, hauths⟩ hc x hx
    obtain ⟨fromAccount, toAccount, q, memo, hauth, rfl⟩ := (applyAction_token hc).2 x hx
    refine ⟨_, _, rfl, fun p hp => ?_⟩
    rw [List.mem_singleton.mp hp]
    exact hasAuth hauths fromAccount hauth
  · rintro _ db c ⟨a, auths, rfl, hauths⟩ hc hdb
    exact hI _ _ _ (hasAuth hauths) (applyAction_token hc).1 hdb

theorem exec_induction_token (I : Db → Prop) (hI : ∀ e d d', Token.Effect e d d' → I d → I d')
    (h : exec w depth ⟨auths, .token a⟩ d = .ok d') (hd : I d) : I d' :=
  exec_induction_token_of (fun _ => True) I (fun e d d' _ => hI e d d') (fun _ _ => trivial) h hd

theorem hasAuth_singleton {receiver actor permission n : Name}
    (h : (⟨w, receiver, [⟨actor, permission⟩]⟩ : Env).HasAuth n) : actor = n := by
  obtain ⟨p, hp, rfl⟩ := h
  rw [List.mem_singleton.mp hp]

theorem exec_transferAction {fromAccount toAccount : Name} {q : Asset} {memo : String}
    (h : exec w depth (transferAction fromAccount toAccount q memo) d = .ok d') :
    fromAccount ≠ toAccount ∧ Token.Moves d d' fromAccount toAccount q := by
  obtain ⟨c, depth', hc, hfold⟩ := exec_eq_ok h
  obtain ⟨hne, -, hmoves, hinline⟩ := Token.transfer_eq_ok (applyAction_eq_ok.mp hc)
  have hnil : c.inlineActions = [] := hinline
  rw [hnil] at hfold
  rw [← Except.ok.inj hfold]
  exact ⟨hne, hmoves⟩

theorem exec_issueAction {toAccount : Name} {q : Asset} {memo : String}
    (h : exec w depth (issueAction toAccount q memo) d = .ok d') :
    Token.Issues d d' toAccount q := by
  obtain ⟨c, depth', hc, hfold⟩ := exec_eq_ok h
  obtain ⟨issuer, hauth, hissues, hinline⟩ := Token.issue_eq_ok (applyAction_eq_ok.mp hc)
  obtain rfl := hasAuth_singleton hauth
  have hnil : c.inlineActions = [] := by
    rw [hinline, if_pos rfl]
    rfl
  rw [hnil] at hfold
  rw [← Except.ok.inj hfold]
  exact hissues

theorem Token.Effect.frame {e : Env} (h : Token.Effect e d d') :
    d' = { d with accounts := d'.accounts, stat := d'.stat } := by
  cases h with
  | moves fromAccount toAccount q auth h =>
    obtain ⟨t, rfl⟩ := h.frame
    rfl
  | issues issuer q auth h =>
    obtain ⟨ta, ts, rfl⟩ := h.frame
    rfl
  | creates issuer maximumSupply auth h =>
    obtain ⟨t, rfl⟩ := h.frame
    rfl

theorem Token.Effect.le_coreBalance {e : Env} (h : Token.Effect e d d') (v : Name) :
    d.coreBalance v ≤ d'.coreBalance v ∨ d.locked v ≤ d'.coreBalance v := by
  unfold Db.coreBalance
  cases h with
  | moves fromAccount toAccount q auth hm =>
    have hpos := hm.pos
    have hspend := hm.spendable
    rw [hm.balance]
    by_cases hfrom : v = fromAccount ∧ symbolName coreSymbol = symbolName q.symbol
    · obtain ⟨rfl, hsym⟩ := hfrom
      rw [← hsym] at hspend
      rw [if_pos ⟨rfl, hsym⟩]
      right
      split_ifs <;> omega
    · rw [if_neg hfrom]
      left
      split_ifs <;> omega
  | issues issuer q auth hi =>
    have hpos := hi.pos
    rw [hi.balance]
    left
    split_ifs <;> omega
  | creates issuer maximumSupply auth hcr =>
    obtain ⟨t, rfl⟩ := hcr.frame
    exact .inl le_rfl

/-! ## Payments -/

theorem IsPayment.eq_token {a : Action} (h : IsPayment a) : ∃ t auths, a = ⟨auths, .token t⟩ := by
  rcases h with ⟨_, _, _, _, rfl⟩ | ⟨_, _, _, rfl⟩ <;> exact ⟨_, _, rfl⟩

theorem payments_induction (I : Db → Prop) (hI : ∀ e d d', Token.Effect e d d' → I d → I d')
    {l : List Action} (hl : ∀ a ∈ l, IsPayment a)
    (h : l.foldlM (fun d a => exec w depth a d) d = .ok d') (hd : I d) : I d' := by
  refine foldlM_induction I (fun a ha s s' hs hIs => ?_) h hd
  obtain ⟨t, auths, rfl⟩ := (hl a ha).eq_token
  exact exec_induction_token I hI hs hIs

theorem payments_frame {l : List Action} (hl : ∀ a ∈ l, IsPayment a)
    (h : l.foldlM (fun d a => exec w depth a d) d = .ok d') :
    d' = { d with accounts := d'.accounts, stat := d'.stat } := by
  refine payments_induction (fun x => x = { d with accounts := x.accounts, stat := x.stat })
    (fun e d₁ d₂ heffect hd₁ => ?_) hl h rfl
  rw [heffect.frame, hd₁]

/-! ## Actions of `noc.system` -/

namespace SystemContract

theorem BandwidthChange.isTransfer {payer owner receiver : Name} {delta : Int × Int}
    {left : Int} {sent : List Action}
    (h : BandwidthChange d d' payer owner receiver delta left sent) :
    ∀ x ∈ sent, IsTransfer x := by
  intro x hx
  rw [h.sent_eq] at hx
  split_ifs at hx
  · rw [List.mem_singleton.mp hx]
    exact isTransfer_transferAction _ _ _ _
  · cases hx

def isVoting : SystemAction → Bool
  | .freeze .. | .vote .. | .votebyreward .. | .votestatic .. | .quitsvote .. | .claim .. => true
  | _ => false

def isBandwidth : SystemAction → Bool
  | .delegatebw .. | .undelegatebw .. | .refund .. => true
  | _ => false

def isOnblock : SystemAction → Bool
  | .onblock .. => true
  | _ => false

def isSending : SystemAction → Bool
  | .unfreeze .. | .claim .. | .onblock .. | .bppawn .. | .bpredeem .. | .bpclaim .. => true
  | a => isBandwidth a

/-- What an action of `noc.system` leaves unchanged. -/
structure Frame (a : SystemAction) (d d' : Db) : Prop where
  accounts : d'.accounts = d.accounts
  stat : d'.stat = d.stat
  voting : isVoting a = false →
    d'.freezed = d.freezed ∧ d'.votes = d.votes ∧ d'.voterinfo = d.voterinfo
  bandwidth : isBandwidth a = false → d'.delband = d.delband ∧ d'.refunds = d.refunds

variable {a : SystemAction} {e : Env} {c c' : Ctx} {u : Unit}

def changesBps : SystemAction → Bool
  | .updatebp .. | .removebp .. | .bppawn .. | .bpredeem .. | .bpclaim .. | .onblock ..
  | .vote .. | .votestatic .. | .quitsvote .. | .votebyreward .. | .claim .. => true
  | _ => false

theorem handle_of_isVoting (ha : isVoting a = true) (h : handle a e c = .ok (u, c')) :
    c'.db = { c.db with
      freezed := c'.db.freezed, votes := c'.db.votes, voterinfo := c'.db.voterinfo,
      bps := c'.db.bps } ∧
    (changesBps a = false → c'.db.bps = c.db.bps) ∧
    (isSending a = false → c'.inlineActions = c.inlineActions) := by
  cases a with
  | freeze =>
    obtain ⟨-, -, f, t, -, hdb, -, -, -, hinline⟩ := freeze_eq_ok h
    exact ⟨by rw [hdb], fun _ => by rw [hdb], fun _ => hinline⟩
  | vote =>
    obtain ⟨-, -, -, b, -, hchange, -, -, -, -, -, hinline⟩ := vote_eq_ok h
    exact ⟨by rw [hchange.frame], nofun, fun _ => hinline⟩
  | votebyreward =>
    obtain ⟨-, -, b, vts, info, b', r, -, -, -, -, -, hchange, -, -, hinline⟩ :=
      votebyreward_eq_ok h
    exact ⟨by rw [hchange.frame], nofun, fun _ => hinline⟩
  | votestatic =>
    obtain ⟨-, -, -, -, -, b, r, n, -, -, hchange, -, -, -, -, hinline⟩ := votestatic_eq_ok h
    exact ⟨by rw [hchange.frame], nofun, fun _ => hinline⟩
  | quitsvote =>
    obtain ⟨-, b, vts, sv, sv', -, -, -, -, -, hchange, -, -, -, hinline⟩ := quitsvote_eq_ok h
    exact ⟨by rw [hchange.frame], nofun, fun _ => hinline⟩
  | claim =>
    obtain ⟨-, b, vts, info, b', -, -, -, -, hchange, -⟩ := claim_eq_ok h
    exact ⟨by rw [hchange.frame], nofun, nofun⟩
  | _ => cases ha

theorem handle_of_isBandwidth (ha : isBandwidth a = true) (h : handle a e c = .ok (u, c')) :
    c'.db = { c.db with
      delband := c'.db.delband, refunds := c'.db.refunds, userres := c'.db.userres,
      resourceLimits := c'.db.resourceLimits } := by
  cases a with
  | delegatebw =>
    obtain ⟨-, -, left, sent, hchange, -⟩ := delegatebw_eq_ok h
    rw [hchange.frame]
  | undelegatebw =>
    obtain ⟨-, -, left, sent, hchange, -⟩ := undelegatebw_eq_ok h
    rw [hchange.frame]
  | refund =>
    obtain ⟨-, r, t, -, -, hdb, -⟩ := refund_eq_ok h
    rw [hdb]
  | _ => cases ha

theorem handle_of_other (hv : isVoting a = false) (hb : isBandwidth a = false)
    (h : handle a e c = .ok (u, c')) :
    c'.db = { c.db with
      bps := c'.db.bps, bpopened := c'.db.bpopened, schedules := c'.db.schedules,
      vids := c'.db.vids, vidstates := c'.db.vidstates, vidparam := c'.db.vidparam,
      userres := c'.db.userres, vote4ramsum := c'.db.vote4ramsum,
      resourceLimits := c'.db.resourceLimits } ∧
    (changesBps a = false → c'.db.bps = c.db.bps) ∧
    (isSending a = false → c'.inlineActions = c.inlineActions) := by
  cases a with
  | updatebp =>
    obtain ⟨-, b, t, -, hdb, -, hinline⟩ := updatebp_eq_ok h
    exact ⟨by rw [hdb], nofun, fun _ => hinline⟩
  | unfreeze =>
    obtain ⟨-, f, -, -, hdb, -⟩ := unfreeze_eq_ok h
    exact ⟨by rw [hdb], fun _ => by rw [hdb], nofun⟩
  | vote4ram =>
    rw [vote4ram_eq_ok h]
    exact ⟨rfl, fun _ => rfl, fun _ => rfl⟩
  | onblock =>
    obtain ⟨R, vid, ts, tb, -, -, -, -, hdb, -⟩ := onblock_eq_ok h
    exact ⟨by rw [hdb], nofun, nofun⟩
  | setparams =>
    rw [setparams_eq_ok h]
    exact ⟨rfl, fun _ => rfl, fun _ => rfl⟩
  | removebp =>
    obtain ⟨b, t, -, -, hdb, hinline⟩ := removebp_eq_ok h
    exact ⟨by rw [hdb], nofun, fun _ => hinline⟩
  | openbp =>
    obtain ⟨t, hdb, hinline⟩ := openbp_eq_ok h
    exact ⟨by rw [hdb], fun _ => by rw [hdb], fun _ => hinline⟩
  | banbp =>
    obtain ⟨t, hdb, hinline⟩ := banbp_eq_ok h
    exact ⟨by rw [hdb], fun _ => by rw [hdb], fun _ => hinline⟩
  | bppawn =>
    obtain ⟨-, b, t, -, -, hdb, -⟩ := bppawn_eq_ok h
    exact ⟨by rw [hdb], nofun, nofun⟩
  | bpredeem =>
    obtain ⟨-, b, t, -, -, hdb, -⟩ := bpredeem_eq_ok h
    exact ⟨by rw [hdb], nofun, nofun⟩
  | bpclaim =>
    obtain ⟨-, b, t, -, -, -, -, hdb, -⟩ := bpclaim_eq_ok h
    exact ⟨by rw [hdb], nofun, nofun⟩
  | setvidparam =>
    obtain ⟨t, hdb, hinline⟩ := setvidparam_eq_ok h
    exact ⟨by rw [hdb], fun _ => by rw [hdb], fun _ => hinline⟩
  | newaccount =>
    obtain ⟨tu, tv, ts, -, -, hdb, hinline⟩ := newaccount_eq_ok h
    exact ⟨by rw [hdb], fun _ => by rw [hdb], fun _ => hinline⟩
  | setram =>
    obtain ⟨t, hdb, hinline, -⟩ := setram_eq_ok h
    exact ⟨by rw [hdb], fun _ => by rw [hdb], fun _ => hinline⟩
  | freeze | vote | votebyreward | votestatic | quitsvote | claim => cases hv
  | delegatebw | undelegatebw | refund => cases hb
  | _ =>
    rw [(pure_eq_ok.mp h).2]
    exact ⟨rfl, fun _ => rfl, fun _ => rfl⟩

theorem isSending_of_isBandwidth (ha : isBandwidth a = true) : isSending a = true := by
  cases a <;> first | rfl | cases ha

theorem handle_tables (h : handle a e c = .ok (u, c')) : Frame a c.db c'.db := by
  cases hv : isVoting a with
  | true =>
    rw [(handle_of_isVoting hv h).1]
    exact ⟨rfl, rfl, fun h => absurd (hv.symm.trans h) Bool.noConfusion, fun _ => ⟨rfl, rfl⟩⟩
  | false =>
    cases hb : isBandwidth a with
    | true =>
      rw [handle_of_isBandwidth hb h]
      exact ⟨rfl, rfl, fun _ => ⟨rfl, rfl, rfl⟩, fun h => absurd (hb.symm.trans h) Bool.noConfusion⟩
    | false =>
      rw [(handle_of_other hv hb h).1]
      exact ⟨rfl, rfl, fun _ => ⟨rfl, rfl, rfl⟩, fun _ => ⟨rfl, rfl⟩⟩

theorem handle_silent (h : handle a e c = .ok (u, c')) (ha : isSending a = false) :
    c'.inlineActions = c.inlineActions := by
  cases hv : isVoting a with
  | true => exact (handle_of_isVoting hv h).2.2 ha
  | false =>
    cases hb : isBandwidth a with
    | true => rw [isSending_of_isBandwidth hb] at ha; cases ha
    | false => exact (handle_of_other hv hb h).2.2 ha

theorem handle_sent (h : handle a e c = .ok (u, c')) :
    ∃ sent, c'.inlineActions = c.inlineActions ++ sent ∧
      ∀ x ∈ sent, IsTransfer x ∨ (isOnblock a = true ∧ IsIssue x) := by
  cases ha : isSending a with
  | false => exact ⟨[], by rw [handle_silent h ha, List.append_nil], by simp⟩
  | true =>
    cases a with
    | unfreeze =>
      obtain ⟨-, f, -, -, -, hinline⟩ := unfreeze_eq_ok h
      exact ⟨_, hinline, by simp [isTransfer_transferAction]⟩
    | claim =>
      obtain ⟨-, b, vts, info, b', -, -, -, -, -, -, -, hinline⟩ := claim_eq_ok h
      exact ⟨_, hinline, by simp [isTransfer_transferAction]⟩
    | onblock =>
      obtain ⟨R, vid, ts, tb, -, -, hvid, hinline, -, -⟩ := onblock_eq_ok h
      refine ⟨_, by rw [hinline, List.append_assoc], fun x hx => ?_⟩
      rcases List.mem_append.mp hx with hx | hx
      · obtain ⟨q, memo, rfl⟩ := hvid x hx
        exact .inr ⟨rfl, isIssue_issueAction _ _ _⟩
      · split_ifs at hx
        · rw [List.mem_singleton.mp hx]
          exact .inr ⟨rfl, isIssue_issueAction _ _ _⟩
        · cases hx
    | bppawn =>
      obtain ⟨-, b, t, -, -, -, hinline⟩ := bppawn_eq_ok h
      exact ⟨_, hinline, by simp [isTransfer_transferAction]⟩
    | bpredeem =>
      obtain ⟨-, b, t, -, -, -, hinline⟩ := bpredeem_eq_ok h
      exact ⟨_, hinline, by simp [isTransfer_transferAction]⟩
    | bpclaim =>
      obtain ⟨-, b, t, -, -, -, -, -, hinline⟩ := bpclaim_eq_ok h
      exact ⟨_, hinline, by simp [isTransfer_transferAction]⟩
    | delegatebw =>
      obtain ⟨-, -, left, sent, hchange, hinline⟩ := delegatebw_eq_ok h
      exact ⟨sent, hinline, fun x hx => .inl (hchange.isTransfer x hx)⟩
    | undelegatebw =>
      obtain ⟨-, -, left, sent, hchange, hinline⟩ := undelegatebw_eq_ok h
      exact ⟨sent, hinline, fun x hx => .inl (hchange.isTransfer x hx)⟩
    | refund =>
      obtain ⟨-, r, t, -, -, -, hinline⟩ := refund_eq_ok h
      exact ⟨_, hinline, by simp [isTransfer_transferAction]⟩
    | _ => cases ha

theorem handle_frame (h : handle a e c = .ok (u, c')) :
    Frame a c.db c'.db ∧
      ∃ sent, c'.inlineActions = c.inlineActions ++ sent ∧
        ∀ x ∈ sent, IsTransfer x ∨ (isOnblock a = true ∧ IsIssue x) :=
  ⟨handle_tables h, handle_sent h⟩

theorem handle_voteEffect (hrows : ∀ v k r, c.db.votes.find v k = some r → r.Regular)
    (ha : isVoting a = true) (h : handle a e c = .ok ((), c')) :
    (∃ voter stake, a = .freeze voter stake) ∨
      ∃ voter bpname r b b' tokens stake paid,
        VoteEffect c.db c'.db voter bpname r b b' tokens stake paid := by
  cases a with
  | freeze voter stake => exact .inl ⟨voter, stake, rfl⟩
  | vote voter bpname =>
    obtain ⟨r, b, b', tokens, δ, heffect⟩ := vote_effect (Db.voteRow_regular hrows _ _) h
    exact .inr ⟨voter, bpname, r, b, b', tokens, δ, 0, heffect⟩
  | votestatic voter bpname =>
    obtain ⟨r, b, b', tokens, δ, heffect⟩ := votestatic_effect (Db.voteRow_regular hrows _ _) h
    exact .inr ⟨voter, bpname, r, b, b', tokens, δ, 0, heffect⟩
  | quitsvote voter bpname =>
    obtain ⟨r, b, b', tokens, δ, heffect⟩ := quitsvote_effect (Db.voteRow_regular hrows _ _) h
    exact .inr ⟨voter, bpname, r, b, b', tokens, δ, 0, heffect⟩
  | claim voter bpname =>
    obtain ⟨r, b, b', paid, heffect, -⟩ := claim_effect (Db.voteRow_regular hrows _ _) h
    exact .inr ⟨voter, bpname, r, b, b', 0, 0, paid, heffect⟩
  | votebyreward voter bpname =>
    obtain ⟨r, b, b', tokens, δ, paid, heffect⟩ :=
      votebyreward_effect (Db.voteRow_regular hrows _ _) h
    exact .inr ⟨voter, bpname, r, b, b', tokens, δ, paid, heffect⟩
  | _ => cases ha

theorem handle_bps (ha : changesBps a = false) (h : handle a e c = .ok ((), c')) :
    c'.db.bps = c.db.bps := by
  cases hv : isVoting a with
  | true => exact (handle_of_isVoting hv h).2.1 ha
  | false =>
    cases hb : isBandwidth a with
    | true => rw [handle_of_isBandwidth hb h]
    | false => exact (handle_of_other hv hb h).2.1 ha

/-- What the actions that are neither on votes nor `onblock` do to a producer's row: a new row has
no stake and no rewards, and an old one keeps both, except that rewards for blocks are claimed. -/
structure BpUpdate (currBlockNum : Nat) (o : Option BpInfo) (b' : BpInfo) : Prop where
  totalStaked : b'.totalStaked = o.elim 0 (·.totalStaked)
  totalVoteage : b'.totalVoteage = o.elim 0 (·.totalVoteage)
  height : b'.voteageUpdateHeight = o.elim currBlockNum (·.voteageUpdateHeight)
  pool : b'.rewardsPool.amount = o.elim 0 (·.rewardsPool.amount)
  block_nonneg : 0 ≤ o.elim 0 (·.rewardsBlock.amount) → 0 ≤ b'.rewardsBlock.amount
  block_le : b'.rewardsBlock.amount ≤ o.elim 0 (·.rewardsBlock.amount)

theorem BpUpdate.of_eq {n : Nat} {o : Option BpInfo} {b b' : BpInfo} (h : o = some b)
    (h₁ : b'.totalStaked = b.totalStaked) (h₂ : b'.totalVoteage = b.totalVoteage)
    (h₃ : b'.voteageUpdateHeight = b.voteageUpdateHeight) (h₄ : b'.rewardsPool = b.rewardsPool)
    (h₅ : b'.rewardsBlock = b.rewardsBlock) : BpUpdate n o b' := by
  subst h
  refine ⟨h₁, h₂, h₃, congrArg _ h₄, fun h => ?_, (congrArg _ h₅).le⟩
  rw [h₅]
  exact h

theorem handle_bpUpdate (hvoting : isVoting a = false) (honblock : isOnblock a = false)
    (h : handle a e c = .ok ((), c')) :
    c'.db.bps = c.db.bps ∨ ∃ k b', c.db.bps.Writes () k (some b') c'.db.bps ∧
      BpUpdate e.world.blockNum (c.db.bps.find () k) b' := by
  cases a with
  | updatebp bpname =>
    obtain ⟨-, b, t, hw, hdb, hb, -⟩ := updatebp_eq_ok h
    rw [hdb]
    refine .inr ⟨bpname, b, hw, ?_⟩
    rcases hb with ⟨hnone, rfl⟩ | ⟨b₀, hb₀, rfl⟩
    · rw [hnone]
      exact ⟨rfl, rfl, rfl, rfl, fun _ => le_rfl, le_rfl⟩
    · exact .of_eq hb₀ rfl rfl rfl rfl rfl
  | removebp bpname =>
    obtain ⟨b, t, hb, hw, hdb, -⟩ := removebp_eq_ok h
    rw [hdb]
    exact .inr ⟨bpname, _, hw, .of_eq hb rfl rfl rfl rfl rfl⟩
  | bppawn bpname =>
    obtain ⟨-, b, t, hb, hw, hdb, -⟩ := bppawn_eq_ok h
    rw [hdb]
    exact .inr ⟨bpname, _, hw, .of_eq hb rfl rfl rfl rfl rfl⟩
  | bpredeem bpname =>
    obtain ⟨-, b, t, hb, hw, hdb, -⟩ := bpredeem_eq_ok h
    rw [hdb]
    exact .inr ⟨bpname, _, hw, .of_eq hb rfl rfl rfl rfl rfl⟩
  | bpclaim bpname =>
    obtain ⟨-, b, t, hb, -, hle, hw, hdb, -⟩ := bpclaim_eq_ok h
    rw [hdb]
    refine .inr ⟨bpname, _, hw, ?_⟩
    rw [hb]
    refine ⟨rfl, rfl, rfl, rfl, fun _ => le_rfl, ?_⟩
    show 0 ≤ b.rewardsBlock.amount
    omega
  | freeze | vote | votebyreward | votestatic | quitsvote | claim => cases hvoting
  | onblock => cases honblock
  | _ => exact .inl (handle_bps rfl h)

end SystemContract

def ActionData.isOnblock : ActionData → Bool
  | .system a => SystemContract.isOnblock a
  | .token _ => false

theorem exec_system {a : SystemAction} (h : exec w depth ⟨auths, .system a⟩ d = .ok d') :
    ∃ c depth', SystemContract.handle a ⟨w, systemAccountName, auths⟩
        { db := d, notified := [systemAccountName] } = .ok ((), c) ∧
      SystemContract.Frame a d c.db ∧ (∀ x ∈ c.inlineActions, IsPayment x) ∧
      c.inlineActions.foldlM (fun d a => exec w depth' a d) c.db = .ok d' := by
  obtain ⟨c, depth', hc, hfold⟩ := exec_eq_ok h
  have hhandle := applyAction_eq_ok.mp hc
  obtain ⟨hframe, sent, hsent, hpay⟩ := SystemContract.handle_frame hhandle
  refine ⟨c, depth', hhandle, hframe, fun x hx => ?_, hfold⟩
  rw [hsent] at hx
  exact (hpay x hx).imp id And.right

/-- **Actions from effects and handlers**: a property that effects on tokens keep and handlers of
`noc.system` keep is kept by every action. -/
theorem push_induction (I : Db → Prop) (htoken : ∀ e d d', Token.Effect e d d' → I d → I d')
    {s : Step} (hsystem : ∀ a c, s.act.data = .system a →
      SystemContract.handle a (s.act.env s.world)
        { db := d, notified := [systemAccountName] } = .ok ((), c) → I d → I c.db)
    (h : push s d = .ok d') (hd : I d) : I d' := by
  obtain ⟨w, ⟨auths, data⟩⟩ := s
  cases data with
  | system a =>
    obtain ⟨c, depth', hc, -, hpay, hfold⟩ := exec_system h
    exact payments_induction I htoken hpay hfold (hsystem a c rfl hc hd)
  | token => exact exec_induction_token I htoken h hd

end BaccChain
