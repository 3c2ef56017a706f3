import BaccChain.Commons.Attempt
import BaccChain.Commons.FlatSet
import BaccChain.Eosiolib.Asset
import Mathlib.Data.List.Induction

/-!
# Configuration on the chain

Actions of the block producers set numbers under a name, the guaranteed minimum resources, and three
lists of names that the controller enforces.
-/

namespace BaccChain

open Commons

/-- The lists of names that a node keeps. -/
inductive ListType
  | actorBlacklist
  | contractBlacklist
  | resourceGreylist
  deriving DecidableEq

/-- What is done to a list. -/
inductive ListAction
  | insert
  | remove
  deriving DecidableEq

/-- The resources with a guaranteed minimum. -/
inductive GmrType
  | cpuUs
  | ramByte
  | netByte
  deriving DecidableEq

/-- A value for each list. -/
abbrev Lists (α : Type) := ListType → α

/-- The arguments of the action; the fee and the key of a number are stored but not used. -/
structure Setconfig where
  typ : Name
  num : Int
  key : Name
  fee : Asset

/-- `guaranteed_minimum_resources`. -/
structure GuaranteedMinimumResources where
  ramByte : Nat
  cpuUs : Nat
  netByte : Nat
  deriving DecidableEq

/-- Settings of the node that the chain can override. -/
structure ForceProperty where
  clfg : Lists (List Name)
  gmr : GuaranteedMinimumResources

/-- A row of the configuration on the chain. -/
structure ConfigData where
  num : Int
  key : Name
  fee : Asset

/-- The objects of the database that the configuration actions write. -/
structure ConfigDb where
  forceProperty : ForceProperty
  configData : Table Name ConfigData
  gmrParameters : GuaranteedMinimumResources

/-- The sets of the controller, which are in memory only, and the database. -/
structure ConfigState where
  conf : Lists (FlatSet Name)
  db : ConfigDb

def listActorBlack : Name := 9803365099753439232
def listContractBlack : Name := 9804754882450948096
def listResourceGrey : Name := 9812969972776828928
def gmrCpu : Name := 7254740822522855424
def gmrRam : Name := 7254748806867058688
def gmrNet : Name := 7254746680321376256

example : listActorBlack = stringToName "l.actblack".toList := by decide
example : gmrNet = stringToName "gmr.net".toList := by decide

/-! ## The lists -/

/-- The copy in the database becomes the set in memory; a merge first adds the copy to the set. -/
def syncListAndDb (list : ListType) (isMerge : Bool) (s : ConfigState) : ConfigState :=
  let clo := if isMerge then (s.conf list).insertAll (s.db.forceProperty.clfg list)
    else s.conf list
  { s with
    conf := Function.update s.conf list clo
    db.forceProperty.clfg := Function.update s.db.forceProperty.clfg list clo.toList }

def ListAction.apply (action : ListAction) (names : List Name) (lo : FlatSet Name) :
    FlatSet Name :=
  match action with
  | .insert => lo.insertAll names
  | .remove => lo.difference names

/-- `set_name_list`. -/
def setNameList (list : ListType) (action : ListAction) (names : List Name) (s : ConfigState) :
    ConfigState :=
  let conf := Function.update s.conf list (action.apply names (s.conf list))
  syncListAndDb list false { s with conf }

def setconfigList (typ : Name) : Option ListType :=
  if typ = listActorBlack then some .actorBlacklist
  else if typ = listContractBlack then some .contractBlacklist
  else if typ = listResourceGrey then some .resourceGreylist
  else none

def setconfigAction (num : Int) : Option ListAction :=
  if num = 1 then some .insert else if num = 2 then some .remove else none

/-- A list action. -/
def setListConfigOnChain (cfg : Setconfig) (s : ConfigState) : ConfigState :=
  match setconfigList cfg.typ, setconfigAction cfg.num with
  | some list, some action => setNameList list action [cfg.key] s
  | _, _ => s

/-- The lists are synchronized when the node starts. -/
def startUpLists (s : ConfigState) : ConfigState :=
  [.actorBlacklist, .contractBlacklist, .resourceGreylist].foldl
    (fun s list => syncListAndDb list true s) s

/-! ## Numbers and minimum resources -/

/-- The row of a setting. -/
def setConfigOnChain (cfg : Setconfig) (s : ConfigState) : ConfigState :=
  { s with db.configData := s.db.configData.insert cfg.typ ⟨cfg.num, cfg.key, cfg.fee⟩ }

def setconfigGmr (typ : Name) : Option GmrType :=
  if typ = gmrCpu then some .cpuUs
  else if typ = gmrRam then some .ramByte
  else if typ = gmrNet then some .netByte
  else none

def GuaranteedMinimumResources.set (gmr : GuaranteedMinimumResources) (gt : GmrType)
    (value : Nat) : GuaranteedMinimumResources :=
  match gt with
  | .cpuUs => { gmr with cpuUs := value }
  | .ramByte => { gmr with ramByte := value }
  | .netByte => { gmr with netByte := value }

/-- The source has a third check, that an unsigned value is not negative. -/
def GuaranteedMinimumResources.validate (gmr : GuaranteedMinimumResources) :
    Except String Unit := do
  check (0 < gmr.cpuUs) "guaranteed minmum resources parameter 'cpu_us' cannot be zero"
  check (0 < gmr.netByte) "guaranteed minmum resources parameter 'net_byte' cannot be zero"

/-- A minimum is set, in the node and on the chain. -/
def setGmrConfig (gt : GmrType) (value : Nat) : Attempt ConfigState Unit := do
  Attempt.update fun s =>
    { s with db.forceProperty.gmr := s.db.forceProperty.gmr.set gt value }
  let s ← Attempt.read
  liftM s.db.forceProperty.gmr.validate
  Attempt.update fun s => { s with db.gmrParameters := s.db.forceProperty.gmr }

def setGuaranteedMinimumConfig (cfg : Setconfig) : Attempt ConfigState Unit :=
  match setconfigGmr cfg.typ with
  -- the number is read as an unsigned one
  | some gt => setGmrConfig gt (cfg.num % 2 ^ 64).toNat
  | none => pure ()

/-- The action is for the block producers and for the account of the chain configuration. -/
def setconfigAuthorized (authorization : List Name) : Prop :=
  chainConfigName ∈ authorization ∨ producersAccountName ∈ authorization

instance (authorization : List Name) : Decidable (setconfigAuthorized authorization) :=
  inferInstanceAs (Decidable (_ ∨ _))

/-- The handler of `setconfig`, for the actors that authorise the action. -/
def applySystemNativeSetconfig (authorization : List Name) (cfg : Setconfig) :
    Attempt ConfigState Unit := do
  liftM (check (setconfigAuthorized authorization) "setconfig need auth by eosio.prods")
  Attempt.update (setConfigOnChain cfg)
  Attempt.update (setListConfigOnChain cfg)
  setGuaranteedMinimumConfig cfg

/-! ## Changes to the lists -/

/-- A change of a list by one name. -/
structure Change where
  list : ListType
  action : ListAction
  name : Name
  deriving DecidableEq

def Setconfig.change (cfg : Setconfig) : Option Change :=
  match setconfigList cfg.typ, setconfigAction cfg.num with
  | some list, some action => some ⟨list, action, cfg.key⟩
  | _, _ => none

def setconfigChange (authorization : List Name) (cfg : Setconfig) : Option Change :=
  if setconfigAuthorized authorization then cfg.change else none

def Change.apply (ch : Change) (conf : Lists (FlatSet Name)) : Lists (FlatSet Name) :=
  Function.update conf ch.list (ch.action.apply [ch.name] (conf ch.list))

/-- Changes, in their order. -/
def applyChanges (l : List Change) (conf : Lists (FlatSet Name)) : Lists (FlatSet Name) :=
  l.foldl (fun conf ch => ch.apply conf) conf

def lastChange (l : List Change) (list : ListType) (a : Name) : Option ListAction :=
  (l.reverse.find? fun ch => ch.list = list ∧ ch.name = a).map (·.action)

theorem lastChange_eq_none {l : List Change} {list : ListType} {a : Name} :
    lastChange l list a = none ↔ ∀ ch ∈ l, ¬ (ch.list = list ∧ ch.name = a) := by
  simp [lastChange]

theorem mem_apply {ch : Change} {conf : Lists (FlatSet Name)} {list : ListType} {a : Name} :
    a ∈ ch.apply conf list ↔
      if ch.list = list ∧ ch.name = a then ch.action = .insert else a ∈ conf list := by
  obtain ⟨list', action, b⟩ := ch
  rw [Change.apply]
  by_cases hlist : list' = list
  · subst hlist
    rw [Function.update_self]
    by_cases hname : b = a
    · cases action <;> simp [ListAction.apply, hname]
    · cases action <;> simp [ListAction.apply, hname, Ne.symm hname]
  · rw [Function.update_of_ne (Ne.symm hlist)]
    simp [hlist]

theorem mem_applyChanges (l : List Change) (conf : Lists (FlatSet Name)) (list : ListType)
    (a : Name) :
    a ∈ applyChanges l conf list ↔ (lastChange l list a).elim (a ∈ conf list) (· = .insert) := by
  induction l using List.reverseRecOn with
  | nil => exact Iff.rfl
  | append_singleton l ch ih =>
    rw [applyChanges, List.foldl_append, List.foldl_cons, List.foldl_nil, ← applyChanges, mem_apply,
      lastChange, List.reverse_append, List.reverse_singleton, List.singleton_append,
      List.find?_cons]
    by_cases h : ch.list = list ∧ ch.name = a
    · simp [h]
    · simp only [h, if_false, decide_false]
      exact ih

theorem applyChanges_append (l l' : List Change) (conf : Lists (FlatSet Name)) :
    applyChanges (l ++ l') conf = applyChanges l' (applyChanges l conf) :=
  List.foldl_append

theorem applyChanges_eq_self (l : List Change) (conf : Lists (FlatSet Name)) :
    applyChanges l conf = conf ↔
      ∀ list a action, lastChange l list a = some action →
        (action = .insert ↔ a ∈ conf list) := by
  constructor
  · intro h list a action hlast
    rw [← congrFun h list, mem_applyChanges, hlast]
    rfl
  · intro h
    funext list
    ext a
    rw [mem_applyChanges]
    cases hlast : lastChange l list a with
    | none => rfl
    | some action => exact h list a action hlast

/-! ## What the handler does to the lists -/

section Handler

variable {list : ListType} {action : ListAction} {cfg : Setconfig} {s : ConfigState}

theorem setNameList_eq (names : List Name) :
    (setNameList list action names s).conf =
        Function.update s.conf list (action.apply names (s.conf list)) ∧
      (setNameList list action names s).db.forceProperty.clfg =
        Function.update s.db.forceProperty.clfg list
          (action.apply names (s.conf list)).toList := by
  simp [setNameList, syncListAndDb]

theorem setListConfigOnChain_conf :
    (setListConfigOnChain cfg s).conf = applyChanges cfg.change.toList s.conf := by
  unfold setListConfigOnChain Setconfig.change
  split
  · exact (setNameList_eq _).1
  · rfl

theorem setListConfigOnChain_clfg :
    (setListConfigOnChain cfg s).db.forceProperty.clfg =
      cfg.change.elim s.db.forceProperty.clfg fun ch =>
        Function.update s.db.forceProperty.clfg ch.list (ch.apply s.conf ch.list).toList := by
  unfold setListConfigOnChain Setconfig.change
  split
  · simp [(setNameList_eq _).2, Change.apply]
  · rfl

theorem setGuaranteedMinimumConfig_lists :
    (setGuaranteedMinimumConfig cfg s).2.conf = s.conf ∧
      (setGuaranteedMinimumConfig cfg s).2.db.forceProperty.clfg = s.db.forceProperty.clfg := by
  have keeps : Attempt.Keeps (fun s' : ConfigState => s'.conf = s.conf ∧
      s'.db.forceProperty.clfg = s.db.forceProperty.clfg) (setGuaranteedMinimumConfig cfg) := by
    unfold setGuaranteedMinimumConfig
    split
    · refine .bind (.update fun _ h => h) fun _ => ?_
      refine .bind (fun _ h => h) fun _ => ?_
      exact .bind (.lift _) fun _ => .update fun _ h => h
    · exact .pure ()
  exact keeps s ⟨rfl, rfl⟩

theorem change_of_gmr {gt : GmrType} (h : setconfigGmr cfg.typ = some gt) : cfg.change = none := by
  have htyp : cfg.typ = gmrCpu ∨ cfg.typ = gmrRam ∨ cfg.typ = gmrNet := by
    unfold setconfigGmr at h
    split_ifs at h with h₁ h₂ h₃
    exacts [Or.inl h₁, Or.inr (Or.inl h₂), Or.inr (Or.inr h₃)]
  have hlist : setconfigList cfg.typ = none := by
    rcases htyp with h | h | h <;> rw [h] <;> decide
  rw [Setconfig.change, hlist]

variable {authorization : List Name}

theorem applySystemNativeSetconfig_of_authorized (h : setconfigAuthorized authorization) :
    applySystemNativeSetconfig authorization cfg s =
      setGuaranteedMinimumConfig cfg (setListConfigOnChain cfg (setConfigOnChain cfg s)) :=
  Attempt.lift_bind_of_ok (a := ()) (check_eq_ok.mpr h)

theorem applySystemNativeSetconfig_of_unauthorized (h : ¬ setconfigAuthorized authorization) :
    applySystemNativeSetconfig authorization cfg s =
      (.error "setconfig need auth by eosio.prods", s) :=
  Attempt.lift_bind_of_error (if_neg h)

theorem applySystemNativeSetconfig_conf (authorization : List Name) (cfg : Setconfig)
    (s : ConfigState) :
    (applySystemNativeSetconfig authorization cfg s).2.conf =
      applyChanges (setconfigChange authorization cfg).toList s.conf := by
  by_cases h : setconfigAuthorized authorization
  · rw [applySystemNativeSetconfig_of_authorized h, setGuaranteedMinimumConfig_lists.1,
      setListConfigOnChain_conf, setconfigChange, if_pos h]
    rfl
  · rw [applySystemNativeSetconfig_of_unauthorized h, setconfigChange, if_neg h]
    rfl

theorem applySystemNativeSetconfig_clfg (authorization : List Name) (cfg : Setconfig)
    (s : ConfigState) :
    (applySystemNativeSetconfig authorization cfg s).2.db.forceProperty.clfg =
      (setconfigChange authorization cfg).elim s.db.forceProperty.clfg fun ch =>
        Function.update s.db.forceProperty.clfg ch.list (ch.apply s.conf ch.list).toList := by
  by_cases h : setconfigAuthorized authorization
  · rw [applySystemNativeSetconfig_of_authorized h, setGuaranteedMinimumConfig_lists.2,
      setListConfigOnChain_clfg, setconfigChange, if_pos h]
    rfl
  · rw [applySystemNativeSetconfig_of_unauthorized h, setconfigChange, if_neg h]
    rfl

theorem setconfigChange_of_error {e : String}
    (h : (applySystemNativeSetconfig authorization cfg s).1 = .error e) :
    setconfigChange authorization cfg = none := by
  by_cases hauth : setconfigAuthorized authorization
  · rw [applySystemNativeSetconfig_of_authorized hauth, setGuaranteedMinimumConfig] at h
    rw [setconfigChange, if_pos hauth]
    cases hgmr : setconfigGmr cfg.typ with
    | some => exact change_of_gmr hgmr
    | none =>
      rw [hgmr] at h
      cases h
  · rw [setconfigChange, if_neg hauth]

end Handler

end BaccChain
