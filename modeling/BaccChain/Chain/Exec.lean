import BaccChain.Contracts.System.Producer
import BaccChain.Contracts.System.Bandwidth
import BaccChain.Commons.Run

/-!
# Executing actions

An action runs its handler and then, one after the other and recursively, the inline actions that
the handler sent; it commits together with them or not at all. Notifications have no effect here.

## Main definitions

* `exec`, `push`: an action with the actions it sends, and a step of a run
-/

namespace BaccChain

open Commons (foldlM_induction)

def SystemContract.handle : SystemAction → ContractM Unit
  | .updatebp bpname invite blockSigningKey url => updatebp bpname invite blockSigningKey url
  | .freeze voter stake => freeze voter stake
  | .unfreeze voter => unfreeze voter
  | .vote voter bpname stake => vote voter bpname stake
  | .votebyreward voter bpname => votebyreward voter bpname
  | .votestatic voter bpname stake typ => votestatic voter bpname stake typ
  | .quitsvote voter bpname idx => quitsvote voter bpname idx
  | .vote4ram voter _ _ => vote4ram voter
  | .claim voter bpname => claim voter bpname
  | .onblock bpname scheduleVersion => onblock bpname scheduleVersion
  | .setparams maxAuthorityDepth => setparams maxAuthorityDepth
  | .removebp bpname => removebp bpname
  | .openbp producer => openbp producer
  | .banbp producer => banbp producer
  | .bppawn bpname pawn => bppawn bpname pawn
  | .bpredeem bpname => bpredeem bpname
  | .bpclaim bpname => bpclaim bpname
  | .setvidparam coefficient rewardPerVid => setvidparam coefficient rewardPerVid
  | .newaccount newName vid => newaccount newName vid
  | .setram account stake => setram account stake
  | .delegatebw fromAccount receiver stakeNetQuantity stakeCpuQuantity transfer =>
    delegatebw fromAccount receiver stakeNetQuantity stakeCpuQuantity transfer
  | .undelegatebw fromAccount receiver unstakeNetQuantity unstakeCpuQuantity =>
    undelegatebw fromAccount receiver unstakeNetQuantity unstakeCpuQuantity
  | .refund owner => refund owner
  | .updateauth | .deleteauth | .linkauth | .unlinkauth | .canceldelay | .onerror | .setconfig
  | .setcode | .setfee | .setabi => pure ()

def handleAction : ActionData → ContractM Unit
  | .system a => SystemContract.handle a
  | .token a => Token.handle a

def Action.env (w : World) (act : Action) : Env := ⟨w, act.account, act.authorization⟩

def applyAction (w : World) (act : Action) (db : Db) : Except String Ctx := do
  let r ← handleAction act.data (act.env w) { db, notified := [act.account] }
  return r.2

/-- Run an action and its inline actions, which may be nested `depth` deep. -/
def exec (w : World) : Nat → Action → Db → Except String Db
  | 0, act, db => do
    let c ← applyAction w act db
    Commons.check c.inlineActions.isEmpty "max inline action depth per transaction reached"
    return c.db
  | depth + 1, act, db => do
    let c ← applyAction w act db
    c.inlineActions.foldlM (fun db a => exec w depth a db) c.db

/-- An action, and the world in which it is executed. -/
structure Step where
  world : World
  act : Action

/-- A step of a run. -/
def push (s : Step) (db : Db) : Except String Db :=
  exec s.world s.world.maxInlineActionDepth s.act db

instance neZeroTwoPow32 : NeZero (2 ^ 32 : ℕ) := ⟨by decide⟩

def World.atHeight (n : Fin (2 ^ 32)) : World where
  blockNum := n
  blockNum_lt := n.isLt
  now := n / 2
  activeProducers := []
  isAccount := fun _ => true
  findPermission := fun _ => true
  checkAuthorization := fun _ _ => true
  isProducingBlock := true
  maxInlineActionDepth := 4
  calcRewardByBlock := SystemContract.calcRewardByBlock
  spareStake := fun _ => 0

def Step.byActor (n : Fin (2 ^ 32)) (actor : Name) (data : ActionData) : Step :=
  ⟨.atHeight n, ⟨[⟨actor, activeName⟩], data⟩⟩

variable {w : World} {act : Action} {db : Db} {depth : Nat}

theorem applyAction_eq_ok {c : Ctx} :
    applyAction w act db = .ok c ↔
      handleAction act.data (act.env w) { db, notified := [act.account] } = .ok ((), c) := by
  simp only [applyAction, Commons.bind_eq_ok, Commons.pure_eq_ok]
  constructor
  · rintro ⟨⟨u, c'⟩, h, rfl⟩
    exact h
  · intro h
    exact ⟨_, h, rfl⟩

theorem exec_of_error {m : String}
    (h : handleAction act.data (act.env w) { db, notified := [act.account] } = .error m) :
    exec w depth act db = .error m := by
  have happly : applyAction w act db = .error m := by
    rw [applyAction, h]
    rfl
  cases depth <;> rw [exec, happly] <;> rfl

theorem exec_of_silent {c : Ctx}
    (h : handleAction act.data (act.env w) { db, notified := [act.account] } = .ok ((), c))
    (hnil : c.inlineActions = []) : exec w depth act db = .ok c.db := by
  have happly : applyAction w act db = .ok c := applyAction_eq_ok.mpr h
  cases depth <;> rw [exec, happly, Commons.ok_bind, hnil] <;> rfl

/-- **Actions from handlers**: a property kept by the handler of every action that satisfies `P`
is kept by every such action, if the inline actions of these handlers satisfy `P` too. -/
theorem exec_induction (P : Action → Prop) (I : Db → Prop)
    (hinline : ∀ act db c, P act → applyAction w act db = .ok c → ∀ a ∈ c.inlineActions, P a)
    (hI : ∀ act db c, P act → applyAction w act db = .ok c → I db → I c.db) {db' : Db}
    (hact : P act) (h : exec w depth act db = .ok db') (hdb : I db) : I db' := by
  induction depth generalizing act db db' with
  | zero =>
    simp only [exec, Commons.bind_eq_ok, Commons.pure_eq_ok] at h
    obtain ⟨c, hc, -, -, rfl⟩ := h
    exact hI act db c hact hc hdb
  | succ depth ih =>
    simp only [exec, Commons.bind_eq_ok] at h
    obtain ⟨c, hc, hfold⟩ := h
    refine foldlM_induction I (fun a ha d d' hd hId => ?_) hfold (hI act db c hact hc hdb)
    exact ih (hinline act db c hact hc a ha) hd hId

end BaccChain
