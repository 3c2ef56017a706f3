import BaccChain.Contracts.System.VotingSpec

/-!
# Sums over votes

Sums over the static votes of a row that have not been quit, and sums over the rows of one voter or
for one producer, after each of the operations on votes.
-/

namespace BaccChain

open SystemContract

/-! ## Static votes -/

def VoteInfoItem.weight (f : VoteInfoItem → Int) (sv : VoteInfoItem) : Int :=
  if sv.isHasQuited then 0 else f sv

/-- The sum of a weight over the static votes of a row that have not been quit. -/
def VoteInfo.sumStatic (f : VoteInfoItem → Int) (r : VoteInfo) : Int :=
  (r.staticVotes.map (VoteInfoItem.weight f)).sum

namespace VoteInfo

variable {f : VoteInfoItem → Int} {r r' : VoteInfo} {stake : Asset}
  {power lockBlockNum currBlockNum idx : Nat}

theorem sum_map_set {α : Type} (f : α → Int) {l : List α} {i : Nat} {a : α} (b : α)
    (h : l[i]? = some a) : ((l.set i b).map f).sum = (l.map f).sum - f a + f b := by
  obtain ⟨hi, rfl⟩ := List.getElem?_eq_some_iff.mp h
  rw [List.map_set, List.sum_set', dif_pos (by simpa using hi), List.getElem_map]
  ring

theorem sumStatic_append (h : appendStaticVote r stake power lockBlockNum currBlockNum = .ok r') :
    r'.sumStatic f = r.sumStatic f + f {
      vote := stake
      votepower := ⟨stake.amount * power, stake.symbol⟩
      votepowerAge := 0
      votepowerAgeUpdateHeight := currBlockNum
      unfreezeBlockNum := add32 currBlockNum lockBlockNum
      freezeBlockNum := lockBlockNum } := by
  rw [appendStaticVote_eq_ok h]
  simp [sumStatic, VoteInfoItem.weight]

theorem sumStatic_quit {sv sv' : VoteInfoItem} (hidx : r.staticVotes[idx]? = some sv)
    (hquit : ¬ sv.isHasQuited) (h : quitItem sv currBlockNum = .ok sv') :
    VoteInfo.sumStatic f { r with staticVotes := r.staticVotes.set idx sv' } =
      r.sumStatic f - f sv := by
  obtain ⟨addon, -, rfl⟩ := quitItem_eq_ok h
  rw [sumStatic, sum_map_set _ _ hidx]
  simp [sumStatic, VoteInfoItem.weight, hquit]

theorem sum_weight_filter (f : VoteInfoItem → Int) (l : List VoteInfoItem) :
    ((l.filter (¬ ·.isHasQuited)).map (VoteInfoItem.weight f)).sum =
      (l.map (VoteInfoItem.weight f)).sum := by
  induction l with
  | nil => rfl
  | cons sv =>
    cases hquit : sv.isHasQuited with
    | true => simp_all [VoteInfoItem.weight]
    | false => simp_all

theorem sumStatic_settle
    (hf : ∀ sv, f { sv with votepowerAge := 0, votepowerAgeUpdateHeight := currBlockNum } = f sv) :
    (settleVotes r currBlockNum).sumStatic f = r.sumStatic f := by
  have hmap : ((r.staticVotes.map fun sv => ({ sv with
      votepowerAge := 0, votepowerAgeUpdateHeight := currBlockNum } : VoteInfoItem)).map
        (VoteInfoItem.weight f)).sum = r.sumStatic f := by
    rw [List.map_map, sumStatic]
    exact congrArg List.sum (List.map_congr_left fun sv _ => by
      simp only [Function.comp, VoteInfoItem.weight, hf])
  rw [sumStatic, settleVotes, settleStaticVotes]
  simp only
  split_ifs
  · rw [sum_weight_filter, hmap]
  · exact hmap

end VoteInfo

/-! ## Rows -/

def Db.sumOf (f : VoteInfo → Int) (d : Db) (voter : Name) : Int :=
  d.votes.sum fun s _ r => if s = voter then f r else 0

def Db.sumFor (f : VoteInfo → Int) (d : Db) (bpname : Name) : Int :=
  d.votes.sum fun _ k r => if k = bpname then f r else 0

def Db.quitAmount (d : Db) (voter bpname : Name) (idx : Nat) : Int :=
  ((d.voteRow voter bpname).staticVotes[idx]?).elim 0 (·.vote.amount)

theorem Db.voteRow_of_find {d : Db} {voter bpname : Name} {r : VoteInfo}
    (h : d.votes.find voter bpname = some r) : d.voteRow voter bpname = r := by
  rw [Db.voteRow, h, Option.getD_some]

theorem Db.quitAmount_eq {d : Db} {voter bpname : Name} {idx : Nat} {r : VoteInfo}
    {sv : VoteInfoItem} (h : d.votes.find voter bpname = some r)
    (hidx : r.staticVotes[idx]? = some sv) : d.quitAmount voter bpname idx = sv.vote.amount := by
  rw [Db.quitAmount, Db.voteRow_of_find h, hidx]
  rfl

namespace SystemContract.VoteChange

variable {d d' : Db} {voter bpname : Name} {r : VoteInfo} {b : BpInfo} {f : VoteInfo → Int}

theorem sum_select (h : VoteChange d d' voter bpname r b) (hf : f { bpname } = 0)
    (p : Name → Name → Prop) [∀ s k, Decidable (p s k)] :
    (d'.votes.sum fun s k r => if p s k then f r else 0) =
      (d.votes.sum fun s k r => if p s k then f r else 0) +
        if p voter bpname then f r - f (d.voteRow voter bpname) else 0 := by
  have hsum := h.votes.sum fun s k r => if p s k then f r else 0
  simp only [MultiIndex.weightAt, Option.elim_some] at hsum
  unfold Db.voteRow
  cases hrow : d.votes.find voter bpname with
  | none =>
    simp only [hrow, Option.elim_none, add_zero] at hsum
    rw [hsum, Option.getD_none, hf, sub_zero]
  | some =>
    simp only [hrow, Option.elim_some] at hsum
    rw [Option.getD_some]
    split_ifs at hsum ⊢ <;> omega

theorem sumOf (h : VoteChange d d' voter bpname r b) (hf : f { bpname } = 0) (v : Name) :
    d'.sumOf f v = d.sumOf f v + if voter = v then f r - f (d.voteRow voter bpname) else 0 :=
  h.sum_select hf fun s _ => s = v

theorem sumFor (h : VoteChange d d' voter bpname r b) (hf : f { bpname } = 0) (k : Name) :
    d'.sumFor f k = d.sumFor f k + if bpname = k then f r - f (d.voteRow voter bpname) else 0 :=
  h.sum_select hf fun _ i => i = k

end SystemContract.VoteChange

end BaccChain
