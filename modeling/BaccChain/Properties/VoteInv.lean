import BaccChain.Chain.Effects
import BaccChain.Chain.Genesis

/-!
# Votes are regular

What holds of votes in every state: rows are in whole units and for registered producers, nothing
frozen is negative, and the amount recorded as being on a voter's votes is at least what is there.

## Main results

* `VoteInv.push`: every step keeps this
-/

namespace BaccChain

open Asset (core core_amount)

def Db.onVotes (d : Db) (voter : Name) : Int := d.sumOf VoteInfo.tokens voter

/-- What holds of votes in every state. -/
structure VoteInv (d : Db) : Prop where
  regular : ∀ v k r, d.votes.find v k = some r → r.Regular
  producer : ∀ v k r, d.votes.find v k = some r → d.bps.find () k ≠ none
  staked_nonneg : ∀ v, 0 ≤ d.staked v
  unstaking_nonneg : ∀ v, 0 ≤ d.unstaking v
  voteall : ∀ v, d.onVotes v ≤ d.voteall v

variable {a : SystemAction} {e : Env} {c' c : Ctx}

namespace SystemContract

theorem handle_bps_ne_none (h : VoteInv c.db) (hc : handle a e c = .ok ((), c')) {k : Name}
    (hk : c.db.bps.find () k ≠ none) : c'.db.bps.find () k ≠ none := by
  cases hvoting : isVoting a with
  | true =>
    rcases handle_voteEffect h.regular hvoting hc with ⟨voter, stake, rfl⟩ |
      ⟨voter, bpname, r, b, b', tokens, stake, paid, heffect⟩
    · obtain ⟨-, -, f, t, -, hdb, -⟩ := freeze_eq_ok hc
      rw [hdb]
      exact hk
    · exact heffect.change.bps.find_ne_none hk
  | false =>
    cases honblock : isOnblock a with
    | true =>
      cases a with
      | onblock =>
        obtain ⟨R, vid, ts, tb, -, -, -, -, hdb, hdist⟩ := onblock_eq_ok hc
        rw [hdb]
        show tb.find () k ≠ none
        rcases hdist with rfl | ⟨-, hfind⟩
        · exact hk
        · rw [hfind, ne_eq, Option.map_eq_none_iff]
          exact hk
      | _ => cases honblock
    | false =>
      rcases handle_bpUpdate hvoting honblock hc with hbps | ⟨k', b', hw, -⟩
      · rw [hbps]
        exact hk
      · exact hw.find_ne_none hk

end SystemContract

namespace VoteInv

open SystemContract

variable {d d' : Db}

theorem congr (h : VoteInv d) (hf : d'.freezed = d.freezed) (hv : d'.votes = d.votes)
    (hw : d'.voterinfo = d.voterinfo)
    (hb : ∀ k, d.bps.find () k ≠ none → d'.bps.find () k ≠ none) : VoteInv d' := by
  constructor
  · rw [hv]
    exact h.regular
  · intro v k r hr
    rw [hv] at hr
    exact hb k (h.producer v k r hr)
  · unfold Db.staked
    rw [hf]
    exact h.staked_nonneg
  · unfold Db.unstaking
    rw [hf]
    exact h.unstaking_nonneg
  · unfold Db.onVotes Db.sumOf Db.voteall
    rw [hv, hw]
    exact h.voteall

theorem effect (h : VoteInv d) {voter bpname : Name} {r : VoteInfo} {b b' : BpInfo}
    {tokens stake paid : Int} (he : VoteEffect d d' voter bpname r b b' tokens stake paid) :
    VoteInv d' := by
  constructor
  · intro v k r' hr'
    rw [he.change.votes.find] at hr'
    split_ifs at hr'
    · rw [← Option.some.inj hr']
      exact he.regular
    · exact h.regular v k r' hr'
  · intro v k r' hr'
    rw [he.change.votes.find] at hr'
    split_ifs at hr' with hk
    · obtain ⟨-, rfl⟩ := hk
      rw [he.change.bps.find_self]
      exact Option.some_ne_none _
    · exact he.change.bps.find_ne_none (h.producer v k r' hr')
  · intro v
    by_cases hv : v = voter
    · subst hv
      exact he.staked_nonneg (h.staked_nonneg v)
    · rw [he.change.staked_of_ne hv]
      exact h.staked_nonneg v
  · intro v
    by_cases hv : v = voter
    · subst hv
      rw [he.unstaking]
      exact h.unstaking_nonneg v
    · rw [he.change.unstaking_of_ne hv]
      exact h.unstaking_nonneg v
  · intro v
    have hvotes := he.change.sumOf (VoteInfo.tokens_default bpname) v
    have hv := h.voteall v
    unfold Db.onVotes at hv ⊢
    rw [hvotes]
    by_cases hne : voter = v
    · subst hne
      rw [if_pos rfl, he.tokens_eq]
      have := he.voteall
      omega
    · rw [if_neg hne, add_zero, he.change.voteall_of_ne (Ne.symm hne)]
      exact hv

theorem handle (hc : handle a e c = .ok ((), c')) (h : VoteInv c.db) : VoteInv c'.db := by
  cases hvoting : isVoting a with
  | true =>
    rcases handle_voteEffect h.regular hvoting hc with ⟨voter, stake, rfl⟩ |
      ⟨voter, bpname, r, b, b', tokens, stake, paid, heffect⟩
    · obtain ⟨-, hpos, f, t, hw, hdb, hstaked, hunstaking, -⟩ := freeze_eq_ok hc
      rw [hdb]
      refine ⟨h.regular, h.producer, fun v => ?_, fun v => ?_, h.voteall⟩
      · show 0 ≤ t.weightAt _ () v
        rw [hw.weightAt]
        split_ifs
        · rw [Option.elim_some, hstaked]
          exact hpos
        · exact h.staked_nonneg v
      · show 0 ≤ t.weightAt _ () v
        rw [hw.weightAt]
        split_ifs
        · have := h.unstaking_nonneg voter
          rw [Option.elim_some, hunstaking]
          split_ifs
          · omega
          · omega
        · exact h.unstaking_nonneg v
    · exact h.effect heffect
  | false =>
    obtain ⟨hf, hv, hw⟩ := (handle_frame hc).1.voting hvoting
    exact h.congr hf hv hw fun k hk => handle_bps_ne_none h hc hk

theorem token (he : Token.Effect e d d') (h : VoteInv d) : VoteInv d' := by
  rw [he.frame]
  exact h.congr rfl rfl rfl fun _ hk => hk

theorem push {s : Step} (h : VoteInv d) (hs : push s d = .ok d') : VoteInv d' :=
  push_induction VoteInv (fun _ _ _ he h => h.token he) (fun _ _ _ hc h => h.handle hc) hs h

theorem initial {g : Genesis} (hg : g.Initial d) : VoteInv d := by
  rw [hg.frame]
  exact ⟨fun _ _ _ hr => (by cases hr), fun _ _ _ hr => (by cases hr), fun _ => le_rfl,
    fun _ => le_rfl, fun _ => le_rfl⟩

end VoteInv

end BaccChain
