import BaccChain.Chain.Ram
import BaccChain.Contracts.System.VotingSpec
import BaccChain.Contracts.System.Producer
import BaccChain.Contracts.System.Bandwidth

/-!
# `noc.system`: who pays for the rows

For each action, an account to which the action does not bill more RAM: one that has not authorised
it.
-/

namespace BaccChain

open Commons.Program
open SystemContract

namespace Billed

variable {A : Name} {e : Env} {c : Ctx}

theorem ne_of_hasAuth {n : Name} (hA : ¬ e.HasAuth A) (h : e.HasAuth n) : n ≠ A := by
  rintro rfl
  exact hA h

/-! ## Voting -/

theorem modifyBpVote (bpname : Name) (stake : Int) (n : Nat) :
    Moves (Le A) (modifyBpVote bpname stake n) e c :=
  modifyRow_pure fun _ => le_rfl

variable {voter bpname fromAccount : Name} {n : Nat}

theorem updateVoterInfo (hvoter : voter ≠ A) (stakeChange : Asset) :
    Moves (Le A) (updateVoterInfo voter stakeChange) e c := by
  simp only [SystemContract.updateVoterInfo, reads_iff, moves_iff]
  refine ⟨fun _ => emplace hvoter, ?_⟩
  intros
  by_cases h₀ : voter = 0
  · subst h₀
    apply modifyRow_of_reads
    · simp only [moves_iff]
    · intro b b' h
      simp only [ran_iff] at h
      obtain ⟨_, -, rfl, -⟩ := h
      exact le_rfl
  · apply modifyRow_of_payer h₀ hvoter
    simp only [moves_iff]

theorem addToFreezes (hvoter : voter ≠ A) (amount : Asset) (n : Nat) :
    Moves (Le A) (addToFreezes voter amount n) e c := by
  simp only [SystemContract.addToFreezes, reads_iff]
  refine ⟨fun _ => emplace hvoter, fun f _ => modifyRow_of_reads ?_ fun b b' _ => le_rfl⟩
  simp only [moves_iff]

theorem takeFromFreezes (voter : Name) (amount : Asset) :
    Moves (Le A) (takeFromFreezes voter amount) e c := by
  simp only [SystemContract.takeFromFreezes, reads_iff, moves_iff]
  refine ⟨trivial, fun f _ _ _ _ => modifyRow_of_reads ?_ fun b b' _ => le_rfl⟩
  simp only [moves_iff]

theorem checkPawn_bind {β : Type} {bp : BpInfo} {n : Int} {low middle : Int × Int} {m : Int}
    {f : Unit → ContractM β} (hf : Moves (Le A) (f ()) e c) :
    Moves (Le A) (checkPawn bp n low middle m >>= f) e c := by
  intro b c' h
  simp only [checkPawn, ran_iff, calls_iff] at h
  obtain ⟨_, ⟨_, -, _, -, _, -, -, rfl⟩, h⟩ := h
  exact hf _ _ h

theorem freeze (hA : ¬ e.HasAuth A) (voter : Name) (stake : Asset) :
    Moves (Le A) (freeze voter stake) e c := by
  simp only [SystemContract.freeze, reads_iff]
  intro hvoter _ _
  apply moves_bind
  · simp only [addVoteall, reads_iff, moves_iff]
  · intro tobeStaked c₁ _
    simp only [reads_iff]
    apply moves_bind
    · simp only [setStake, reads_iff, moves_iff]
      refine ⟨fun _ => ?_, fun fts _ change _ => ?_⟩
      · exact moves_bind (emplace (ne_of_hasAuth hA hvoter)) fun _ _ _ => moves_pure _
      · apply moves_bind (modifyRow fun _ _ _ => le_rfl)
        simp only [reads_iff, moves_iff]
    · simp only [reads_iff, moves_iff]

theorem setVote (hvoter : voter ≠ A) (bpname : Name) (stake : Asset) (n : Nat) :
    Moves (Le A) (setVote voter bpname stake n) e c := by
  simp only [SystemContract.setVote, reads_iff, moves_iff]
  refine ⟨fun _ votepower _ => ?_, fun vts _ change _ => ?_⟩
  · exact moves_bind (emplace hvoter) fun _ _ _ => moves_pure _
  · refine moves_bind ?_ fun _ _ _ => moves_pure _
    apply modifyRow_of_updater
    intro b b' c₁ _ h
    simp only [ran_iff] at h
    obtain ⟨votepower, -, shrinks, -, c₂, hback, rfl, rfl⟩ := h
    refine ⟨moves_whenever (fun _ => addToFreezes hvoter _ _) _ _ hback, ?_, le_rfl⟩
    rcases whenever_eq_ok.mp hback with ⟨-, hback⟩ | ⟨-, rfl⟩
    · obtain ⟨f, t, ram, -, rfl, -⟩ := addToFreezes_eq_ok hback
      rfl
    · rfl

theorem vote (hA : ¬ e.HasAuth A) (voter bpname : Name) (stake : Asset) :
    Moves (Le A) (vote voter bpname stake) e c := by
  simp only [SystemContract.vote, reads_iff]
  intro hauth bp _ _ _ _
  have hvoter := ne_of_hasAuth hA hauth
  refine moves_bind (setVote hvoter _ _ _) fun change c₁ _ => ?_
  simp only [reads_iff, moves_iff]
  intro shrinks _ _ grows _
  refine moves_bind (moves_whenever fun _ => checkPawn_bind (takeFromFreezes _ _)) ?_
  intro _ c₂ _
  exact moves_bind (updateVoterInfo hvoter _) fun _ c₃ _ => modifyBpVote _ _ _

theorem addStaticVote (hvoter : voter ≠ A)
    (hrow : ∀ row, c.db.votes.findRow voter bpname = some row → row.payer ≠ A) (stake : Asset)
    (power lock n : Nat) : Moves (Le A) (addStaticVote voter bpname stake power lock n) e c := by
  simp only [SystemContract.addStaticVote, reads_iff, moves_iff]
  refine ⟨fun _ v _ => emplace hvoter, fun _ _ => modifyRow_of_row ?_ hrow⟩
  simp only [moves_iff]

theorem votestatic (hA : ¬ e.HasAuth A)
    (hrow : ∀ row, c.db.votes.findRow voter bpname = some row → row.payer ≠ A) (stake : Asset)
    (typ : Nat) : Moves (Le A) (votestatic voter bpname stake typ) e c := by
  simp only [SystemContract.votestatic, reads_iff]
  intro hauth _ _ _ _ bp _ _
  have hvoter := ne_of_hasAuth hA hauth
  apply checkPawn_bind
  refine moves_bind (takeFromFreezes _ _) fun _ c₁ htake => ?_
  obtain ⟨-, -, f, t, ram, -, rfl, -⟩ := takeFromFreezes_eq_ok htake
  refine moves_bind (addStaticVote hvoter ?_ _ _ _ _) fun _ c₂ _ => ?_
  · exact hrow
  · refine moves_bind (updateVoterInfo hvoter _) fun _ c₃ _ => ?_
    simp only [moves_iff]
    exact fun power _ => modifyBpVote _ _ _

variable {v' v : VoteInfo}

theorem quitStaticVote_size {idx : Nat} (h : quitStaticVote v idx n = .ok v') :
    packSize v' ≤ packSize v := by
  unfold quitStaticVote at h
  cases hsv : v.staticVotes[idx]? with
  | none =>
    rw [hsv] at h
    obtain rfl := Commons.pure_eq_ok.mp h
    exact le_rfl
  | some =>
    simp only [hsv, Commons.ok_iff] at h
    obtain ⟨sv', -, rfl⟩ := h
    simp [packSize]

theorem quitsvote (hA : ¬ e.HasAuth A) (voter bpname : Name) (idx : Nat) :
    Moves (Le A) (quitsvote voter bpname idx) e c := by
  simp only [SystemContract.quitsvote, reads_iff]
  intro hauth bp _
  have hvoter := ne_of_hasAuth hA hauth
  refine ⟨fun _ => moves_fail _, fun vts _ => ?_⟩
  cases staticVoteAt (some vts) idx with
  | none => exact moves_fail _
  | some =>
    simp only [reads_iff]
    intro _ _
    refine moves_bind (addToFreezes hvoter _ _) fun _ c₁ _ => ?_
    refine moves_bind (modifyBpVote _ _ _) fun _ c₂ _ => ?_
    refine moves_bind (modifyRow fun _ _ => quitStaticVote_size) fun _ c₃ _ => ?_
    simp only [reads_iff]
    exact ⟨fun _ => updateVoterInfo hvoter _, fun _ _ => updateVoterInfo hvoter _⟩

theorem settleVotes_size (v : VoteInfo) (n : Nat) : packSize (settleVotes v n) ≤ packSize v := by
  have hlen : (settleStaticVotes v.staticVotes n).length ≤ v.staticVotes.length := by
    unfold settleStaticVotes
    simp only
    split_ifs
    · exact (List.length_filter_le _ _).trans (List.length_map _).le
    · exact (List.length_map _).le
  have hvarint := varintSize_mono hlen
  show 52 + varintSize (settleStaticVotes v.staticVotes n).length +
      53 * (settleStaticVotes v.staticVotes n).length ≤
    52 + varintSize v.staticVotes.length + 53 * v.staticVotes.length
  omega

variable {b' b : BpInfo}

theorem payFromPool_size {info : ClaimInfo} (h : payFromPool b info n = .ok b') :
    packSize b' ≤ packSize b := by
  simp only [payFromPool, Commons.ok_iff] at h
  obtain ⟨_, -, rfl⟩ := h
  exact le_rfl

theorem claim (voter bpname : Name) : Moves (Le A) (claim voter bpname) e c := by
  simp only [SystemContract.claim, reads_iff, moves_iff]
  intro _ bp _ vts _ info _
  refine moves_bind (executeInline _) fun _ c₁ _ => ?_
  refine moves_bind (modifyRow_pure fun v => settleVotes_size v _) fun _ c₂ _ => ?_
  exact modifyRow fun _ _ => payFromPool_size

theorem revoteReward_size {rewardAll votePower : Asset}
    (h : revoteReward v rewardAll votePower n = .ok v') : packSize v' ≤ packSize v := by
  simp only [revoteReward, Commons.ok_iff] at h
  obtain ⟨_, -, _, -, rfl⟩ := h
  exact settleVotes_size v n

theorem votebyreward (hA : ¬ e.HasAuth A) (voter bpname : Name) :
    Moves (Le A) (votebyreward voter bpname) e c := by
  simp only [SystemContract.votebyreward, reads_iff, moves_iff]
  intro hauth
  intros
  refine moves_bind (modifyRow fun _ _ => revoteReward_size) fun _ c₁ _ => ?_
  refine moves_bind (modifyRow fun _ _ => payFromPool_size) fun _ c₂ _ => ?_
  refine moves_bind (updateVoterInfo (ne_of_hasAuth hA hauth) _) fun _ c₃ _ => ?_
  exact modifyBpVote _ _ _

theorem unfreeze (voter : Name) : Moves (Le A) (unfreeze voter) e c := by
  simp only [SystemContract.unfreeze, reads_iff]
  exact fun _ itr _ _ _ => executeInline _

/-! ## Producers -/

theorem countProducer_length (bpname : Name) (ps : List ProducerCount) :
    (countProducer bpname ps).length = ps.length := by
  induction ps with
  | nil => rfl
  | cons p ps ih =>
    unfold countProducer
    split_ifs
    · rfl
    · rw [List.length_cons, List.length_cons, ih]

variable {version : Nat}

theorem countBlock (h : bpname = A → c.db.schedules.find () version ≠ none) (producers : List Name)
    (n : Nat) : Moves (Le A) (countBlock bpname version producers n) e c := by
  simp only [SystemContract.countBlock, reads_iff]
  refine ⟨fun hnone => emplace fun hA => h hA hnone, fun _ _ => modifyRow_pure fun b => ?_⟩
  show 13 + 12 * (countProducer bpname b.producers).length ≤ 13 + 12 * b.producers.length
  rw [countProducer_length]

theorem rewardToVid (n : Nat) : Moves (Le A) (rewardToVid n) e c := by
  simp only [SystemContract.rewardToVid, reads_iff, moves_iff]

theorem payVid (reward toVid : Asset) : Moves (Le A) (payVid reward toVid) e c := by
  simp only [SystemContract.payVid, moves_iff]
  refine fun _ _ _ _ _ => ⟨fun _ => ?_, fun _ _ _ => ?_⟩
  · exact moves_bind (executeInline _) fun _ _ _ => moves_pure _
  · exact moves_bind (executeInline _) fun _ _ _ => moves_pure _

theorem payPow (reward : Asset) : Moves (Le A) (payPow reward) e c := by
  simp only [SystemContract.payPow, moves_iff]
  intros
  refine moves_bind (moves_whenever fun _ => executeInline _) fun _ _ _ => ?_
  simp only [moves_iff]

theorem addReward_size {reward : BpReward} (h : addReward b reward = .ok b') :
    packSize b' ≤ packSize b := by
  simp only [addReward, Commons.ok_iff] at h
  obtain ⟨_, -, _, -, _, -, _, -, rfl⟩ := h
  exact le_rfl

theorem rewardBps (reward : Name × BpInfo → Except String BpReward)
    (bps : List (Name × BpInfo)) : Moves (Le A) (rewardBps reward bps) e c := by
  induction bps generalizing c with
  | nil => exact moves_pure _
  | cons b bs ih =>
    refine moves_bind (moves_whenever fun _ => ?_) fun _ _ _ => ih
    simp only [moves_iff]
    exact fun _ _ => modifyRow fun _ _ => addReward_size

theorem setProposedProducers (producers : List Candidate) :
    Moves (Le A) (SystemContract.setProposedProducers producers) e c := by
  intro _ c' h
  simp only [SystemContract.setProposedProducers, Commons.bind_eq_ok, Commons.pure_eq_ok] at h
  obtain ⟨-, -, -, -, -, -, h⟩ := h
  obtain ⟨-, rfl⟩ := Prod.mk.inj h
  exact le_rfl

theorem updateElectedBps (n : Nat) : Moves (Le A) (updateElectedBps n) e c := by
  simp only [SystemContract.updateElectedBps, reads_iff]
  refine (moves_bind_iff spareStake_eq_ok).mpr fun spare _ => ?_
  simp only [moves_iff]
  exact fun elected _ => setProposedProducers _

theorem onblock (h : bpname = A → c.db.schedules.find () version ≠ none) :
    Moves (Le A) (onblock bpname version) e c := by
  simp only [SystemContract.onblock, reads_iff]
  refine (moves_bind_iff activeProducers_eq_ok).mpr fun producers _ => ?_
  refine moves_bind (countBlock h _ _) fun _ c₁ _ => ?_
  refine (moves_bind_iff rewardSchedule_eq_ok).mpr fun amount _ => ?_
  simp only [moves_iff]
  intro reward _
  refine moves_bind (rewardToVid _) fun toVid c₂ _ => ?_
  refine moves_bind (payVid _ _) fun left c₃ _ => ?_
  simp only [moves_iff]
  intro _ _
  refine moves_bind (moves_whenever fun _ => executeInline _) fun _ c₄ _ => ?_
  refine moves_bind (payPow _) fun left c₅ _ => ?_
  simp only [moves_iff]
  intro parts _
  refine moves_bind (moves_whenever fun _ => rewardBps _ _) fun _ c₆ _ => ?_
  exact moves_whenever fun _ => updateElectedBps _

theorem updatebp (hA : ¬ e.HasAuth A)
    (hrow : ∀ row, c.db.bps.findRow () bpname = some row → row.payer ≠ A) (invite : Name)
    (key : PublicKey) (url : List UInt8) : Moves (Le A) (updatebp bpname invite key url) e c := by
  simp only [SystemContract.updatebp, reads_iff]
  intro hauth _
  have hne := ne_of_hasAuth hA hauth
  refine ⟨fun _ _ => ⟨fun _ => emplace hne, fun _ _ => ?_⟩,
    fun _ _ _ => ⟨fun _ => emplace hne, fun _ _ => ?_⟩⟩
  · exact modifyRow_of_row (fun _ => moves_pure _) hrow
  · exact modifyRow_of_row (fun _ => moves_pure _) hrow

theorem removebp (bpname : Name) : Moves (Le A) (removebp bpname) e c := by
  simp only [SystemContract.removebp, reads_iff]
  exact fun _ _ _ => modifyRow_pure fun _ => le_rfl

theorem openbp (hA : ¬ e.HasAuth A) (producer : Name) : Moves (Le A) (openbp producer) e c := by
  simp only [SystemContract.openbp, reads_iff]
  intro hauth
  have hne := ne_of_hasAuth hA hauth
  exact ⟨fun _ _ => emplace hne, fun _ _ _ => emplace hne⟩

theorem banbp (producer : Name) : Moves (Le A) (banbp producer) e c := by
  simp only [SystemContract.banbp, reads_iff]
  exact fun _ _ => ⟨fun _ _ => eraseRow, fun _ _ _ => eraseRow⟩

theorem bppawn (bpname : Name) (pawn : Asset) : Moves (Le A) (bppawn bpname pawn) e c := by
  simp only [SystemContract.bppawn, reads_iff, moves_iff]
  intros
  refine moves_bind (modifyRow_of_reads ?_ fun b b' h => ?_) fun _ c₁ _ => executeInline _
  · simp only [moves_iff]
  · simp only [ran_iff] at h
    obtain ⟨_, -, rfl, -⟩ := h
    exact le_rfl

theorem bpredeem (bpname : Name) : Moves (Le A) (bpredeem bpname) e c := by
  simp only [SystemContract.bpredeem, reads_iff]
  intros
  refine moves_bind (executeInline _) fun _ c₁ _ => ?_
  exact modifyRow_pure fun _ => le_rfl

theorem sendTokenInline (fromAccount toAccount : Name) (quantity : Asset) (memo : String) :
    Moves (Le A) (Token.sendTokenInline fromAccount toAccount quantity memo) e c := by
  simp only [Token.sendTokenInline, moves_iff]
  exact fun _ _ _ => executeInline _

theorem bpclaim (bpname : Name) : Moves (Le A) (bpclaim bpname) e c := by
  simp only [SystemContract.bpclaim, reads_iff, moves_iff]
  intros
  refine moves_bind (sendTokenInline _ _ _ _) fun _ c₁ _ => ?_
  refine moves_bind (sendTokenInline _ _ _ _) fun _ c₂ _ => ?_
  exact modifyRow_pure fun _ => le_rfl

theorem systemAccountName_ne_zero : systemAccountName ≠ 0 := by decide

theorem setvidparam (hA : ¬ e.HasAuth A) (coefficient : Nat) (rewardPerVid : Asset) :
    Moves (Le A) (setvidparam coefficient rewardPerVid) e c := by
  simp only [SystemContract.setvidparam, reads_iff]
  intro hauth
  have hne := ne_of_hasAuth hA hauth
  refine ⟨fun _ => emplace hne, fun _ _ => ?_⟩
  exact modifyRow_of_payer systemAccountName_ne_zero hne fun _ => moves_pure _

theorem setparams (n : Nat) : Moves (Le A) (setparams n) e c := by
  simp only [SystemContract.setparams, reads_iff, moves_iff]

theorem setResourceLimits (account : Name) (ramBytes netWeight cpuWeight : Int) :
    Moves (Le A) (setResourceLimits account ramBytes netWeight cpuWeight) e c := by
  intro _ c' h
  rw [setResourceLimits_eq_ok h]
  exact le_rfl

theorem newaccount {newName : Name} (hA : A ≠ systemAccountName) (hnew : newName ≠ A)
    (vid : Name) : Moves (Le A) (newaccount newName vid) e c := by
  refine moves_bind (emplace hnew) fun _ c₁ _ => ?_
  refine moves_bind (setResourceLimits _ _ _ _) fun _ c₂ _ => ?_
  simp only [reads_iff]
  refine ⟨fun _ _ => ?_, fun used _ hused => by cases hused⟩
  refine moves_bind (emplace hnew) fun _ c₂ _ => ?_
  simp only [countVid, reads_iff]
  refine ⟨fun _ => emplace hA.symm, fun _ _ => ?_⟩
  exact modifyRow_of_payer systemAccountName_ne_zero hA.symm fun _ => moves_pure _

/-! ## Bandwidth and RAM -/

theorem vote4ram (voter : Name) : Moves (Le A) (vote4ram voter) e c :=
  moves_of_reads requireAuth_eq_ok

theorem setram {account : Name} (h : account = A → c.db.vote4ramsum.find () account ≠ none)
    (stake : Asset) : Moves (Le A) (setram account stake) e c := by
  simp only [SystemContract.setram, reads_iff]
  exact fun _ => ⟨fun hnone => emplace fun hA => h hA hnone,
    fun _ _ => modifyRow_pure fun _ => le_rfl⟩

theorem updateDelband (h : fromAccount ≠ A) (receiver : Name) (net cpu : Asset) :
    Moves (Le A) (updateDelband fromAccount receiver net cpu) e c := by
  apply moves_bind
  · simp only [addDelband, reads_iff]
    refine ⟨fun _ => emplace h, fun _ _ => modifyRow_of_reads ?_ fun b b' _ => le_rfl⟩
    simp only [moves_iff]
  · intro _ c₁ _
    simp only [reads_iff, moves_iff]
    intros
    exact eraseRow

theorem addTotals (h : fromAccount ≠ A) (receiver : Name) (net cpu : Asset) :
    Moves (Le A) (addTotals fromAccount receiver net cpu) e c := by
  simp only [SystemContract.addTotals, reads_iff]
  refine ⟨fun _ => emplace h, fun _ _ => ?_⟩
  by_cases hpayer : (if fromAccount = receiver then fromAccount else 0) = 0
  · rw [hpayer]
    refine modifyRow_of_reads ?_ fun b b' _ => le_rfl
    simp only [moves_iff]
  · have hfrom : (if fromAccount = receiver then fromAccount else 0) = fromAccount := by
      split_ifs at hpayer ⊢
      · rfl
      · exact absurd rfl hpayer
    rw [hfrom] at hpayer ⊢
    apply modifyRow_of_payer hpayer h
    simp only [moves_iff]

theorem updateTotals (h : fromAccount ≠ A) (receiver : Name) (net cpu : Asset) :
    Moves (Le A) (updateTotals fromAccount receiver net cpu) e c := by
  refine moves_bind (addTotals h _ _ _) fun _ c₁ _ => ?_
  simp only [reads_iff, moves_iff]
  intros
  refine moves_bind (setResourceLimits _ _ _ _) fun _ c₂ _ => ?_
  simp only [moves_iff]
  intros
  exact eraseRow

variable {owner : Name}

theorem changeRefund (h : owner ≠ A) (net cpu : Asset) :
    Moves (Le A) (changeRefund owner net cpu) e c := by
  simp only [SystemContract.changeRefund, reads_iff]
  constructor
  · simp only [createRefund, reads_iff, moves_iff]
    intros
    exact moves_bind (moves_whenever fun _ => emplace h) fun _ _ _ => moves_pure _
  · intro req _
    simp only [updateRefund, reads_iff, moves_iff]
    intros
    refine moves_bind (modifyRow fun _ _ _ => le_rfl) fun _ c₁ _ => ?_
    simp only [reads_iff, moves_iff]
    intros
    exact moves_bind (moves_whenever fun _ => eraseRow) fun _ _ _ => moves_pure _

theorem payStake (h : owner ≠ A) (payer receiver : Name) (net cpu : Asset) (transfer : Bool) :
    Moves (Le A) (payStake payer owner receiver net cpu transfer) e c := by
  apply moves_bind
  · simp only [stakeToPay, moves_iff]
    exact fun _ => changeRefund h _ _
  · intro left c₁ _
    simp only [moves_iff]
    intros
    exact executeInline _

variable {receiver : Name} {transfer : Bool}

theorem changebw (hA : ¬ e.HasAuth A) (h : transfer → receiver ≠ A) (net cpu : Asset) :
    Moves (Le A) (changebw fromAccount receiver net cpu transfer) e c := by
  simp only [SystemContract.changebw, reads_iff, moves_iff]
  intro hauth
  intros
  have howner : (if transfer then receiver else fromAccount) ≠ A := by
    split_ifs with ht
    · exact h ht
    · exact ne_of_hasAuth hA hauth
  refine moves_bind (updateDelband howner _ _ _) fun _ c₁ _ => ?_
  refine moves_bind (updateTotals howner _ _ _) fun _ c₂ _ => ?_
  exact moves_whenever fun _ => payStake howner _ _ _ _ _

theorem delegatebw (hA : ¬ e.HasAuth A) (h : transfer → receiver ≠ A) (fromAccount : Name)
    (net cpu : Asset) : Moves (Le A) (delegatebw fromAccount receiver net cpu transfer) e c := by
  simp only [SystemContract.delegatebw, reads_iff, moves_iff]
  intros
  exact changebw hA h _ _

theorem undelegatebw (hA : ¬ e.HasAuth A) (fromAccount receiver : Name) (net cpu : Asset) :
    Moves (Le A) (undelegatebw fromAccount receiver net cpu) e c := by
  simp only [SystemContract.undelegatebw, reads_iff, moves_iff]
  intros
  exact changebw hA (fun ht => absurd ht Bool.false_ne_true) _ _

theorem refund (owner : Name) : Moves (Le A) (refund owner) e c := by
  simp only [SystemContract.refund, reads_iff, moves_iff]
  intros
  exact moves_bind (executeInline _) fun _ _ _ => eraseRow

end Billed

end BaccChain
