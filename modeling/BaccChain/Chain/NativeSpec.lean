import BaccChain.Chain.Native
import BaccChain.Commons.Run

/-!
# What the native actions do

Every native action that succeeds has had one effect on the tables of the chain, and has billed RAM
for it. The effects are listed once, with what the handlers have checked before.
-/

namespace BaccChain

open Commons (Table check)
open Commons.Program

namespace Native

/-! ## Effects -/

/-- The permission that a new account gets, or that `updateauth` creates. -/
def newPermission (e : NativeEnv) (id parent : Nat) (auth : Authority) : PermissionObject :=
  { id, parent, lastUpdated := e.pendingBlockTime, auth }

/-- The bill for the change of a size; no change is not billed. -/
def billed (account : Name) (oldSize newSize : Int) : List (Name × Int) :=
  if newSize ≠ oldSize then [(account, newSize - oldSize)] else []

def withPermission (e : NativeEnv) (db : NativeDb) (account name : Name) (parent : Nat)
    (auth : Authority) : NativeDb :=
  { db with
    permissions := db.permissions.insert (toLex (account, name))
      (newPermission e db.nextPermissionId parent auth)
    nextPermissionId := db.nextPermissionId + 1 }

def withAccount (e : NativeEnv) (db : NativeDb) (name : Name) : NativeDb :=
  { db with
    accounts := db.accounts.insert name { creationDate := e.pendingBlockTime }
    sequences := db.sequences.insert name {} }

/-- **The effects of the native actions**, each with what its handler has checked. -/
inductive Effect (e : NativeEnv) (c : NativeCtx) : NativeAction → NativeCtx → Prop
  | newaccount {creator name : Name} {owner active : Authority} (named : name ≠ 0)
    (fresh : c.db.accounts.find name = none)
    (freshOwner : c.db.permissions.find (toLex (name, ownerName)) = none)
    (freshActive : c.db.permissions.find (toLex (name, activeName)) = none) :
    Effect e c (.newaccount creator name owner active)
      { db := withPermission e (withPermission e (withAccount e c.db name) name ownerName 0 owner)
          name activeName c.db.nextPermissionId active
        ramDeltas := c.ramDeltas ++ [(name, overheadPerAccountRamBytes + 2 * permissionBytes +
          owner.billableSize + active.billableSize)] }
  | setcode {account : Name} {vmtype vmversion : Nat} {code : List UInt8} {a : AccountObject}
    {s : AccountSequence} (found : c.db.accounts.find account = some a) :
    Effect e c (.setcode account vmtype vmversion code)
      { db := { c.db with
          accounts := c.db.accounts.insert account { a with
            lastCodeUpdate := e.pendingBlockTime, codeVersion := codeId e code, code }
          sequences := c.db.sequences.insert account
            { s with codeSequence := (s.codeSequence + 1) % 2 ^ 64 } }
        ramDeltas := c.ramDeltas ++ billed (payAccount e c.db account)
          (a.code.length * setcodeRamBytesMultiplier) (code.length * setcodeRamBytesMultiplier) }
  | setabi {account : Name} {abi : List UInt8} {a : AccountObject} {s : AccountSequence}
    (found : c.db.accounts.find account = some a) :
    Effect e c (.setabi account abi)
      { db := { c.db with
          accounts := c.db.accounts.insert account { a with abi }
          sequences := c.db.sequences.insert account
            { s with abiSequence := (s.abiSequence + 1) % 2 ^ 64 } }
        ramDeltas := c.ramDeltas ++
          billed (payAccount e c.db account) a.abi.length abi.length }
  | updateauth {account permission parent : Name} {auth : Authority} {p : PermissionObject}
    (found : c.db.permissions.find (toLex (account, permission)) = some p) :
    Effect e c (.updateauth account permission parent auth)
      { db := { c.db with
          permissions := c.db.permissions.insert (toLex (account, permission))
            { p with auth, lastUpdated := e.pendingBlockTime } }
        ramDeltas := c.ramDeltas ++ [(account, auth.billableSize - p.auth.billableSize)] }
  | createauth {account permission parent : Name} {parentId : Nat} {auth : Authority}
    (owner : ∃ a, c.db.accounts.find account = some a) (named : permission ≠ 0)
    (fresh : c.db.permissions.find (toLex (account, permission)) = none)
    (parent_eq : permission = ownerName ∧ parentId = 0 ∨
      ∃ q, c.db.permissions.find (toLex (account, parent)) = some q ∧ parentId = q.id) :
    Effect e c (.updateauth account permission parent auth)
      { db := withPermission e c.db account permission parentId auth
        ramDeltas := c.ramDeltas ++ [(account, permissionBytes + auth.billableSize)] }
  | deleteauth {account permission : Name} {p : PermissionObject}
    (notActive : permission ≠ activeName) (notOwner : permission ≠ ownerName)
    (unlinked : ∀ l ∈ c.db.links.entries, ¬ ((ofLex l.1).1 = account ∧ l.2 = permission))
    (found : c.db.permissions.find (toLex (account, permission)) = some p)
    (childless : ∀ q ∈ c.db.permissions.entries, q.2.parent ≠ p.id) :
    Effect e c (.deleteauth account permission)
      { db := { c.db with permissions := c.db.permissions.erase (toLex (account, permission)) }
        ramDeltas := c.ramDeltas ++ [(account, -(permissionBytes + p.auth.billableSize))] }
  | linkauth {account code type requirement : Name} (required : requirement ≠ 0)
    (owner : ∃ a, c.db.accounts.find account = some a) :
    Effect e c (.linkauth account code type requirement)
      { db := { c.db with
          links := c.db.links.insert (toLex (account, toLex (code, type))) requirement }
        ramDeltas := c.ramDeltas ++
          if (c.db.links.find (toLex (account, toLex (code, type)))).isNone then
            [(account, permissionLinkBytes)] else [] }
  | unlinkauth {account code type : Name} {required : Name}
    (found : c.db.links.find (toLex (account, toLex (code, type))) = some required) :
    Effect e c (.unlinkauth account code type)
      { db := { c.db with links := c.db.links.erase (toLex (account, toLex (code, type))) }
        ramDeltas := c.ramDeltas ++ [(account, -permissionLinkBytes)] }

/-! ## The parts of the handlers -/

variable {e : NativeEnv} {c c' : NativeCtx} {u : Unit}

variable {db : NativeDb} {account permission parent : Name} {auth : Authority}

variable {level : PermissionLevel}

theorem findPermission_eq_ok {found : Option PermissionObject} :
    findPermission db level = .ok found ↔ (level.actor ≠ 0 ∧ level.permission ≠ 0) ∧
      found = db.permissions.find (toLex (level.actor, level.permission)) := by
  simp only [findPermission, Commons.bind_eq_ok, Commons.check_eq_ok, Commons.pure_eq_ok,
    exists_const]

variable {p : PermissionObject}

theorem getPermission_eq_ok :
    getPermission db level = .ok p ↔ (level.actor ≠ 0 ∧ level.permission ≠ 0) ∧
      db.permissions.find (toLex (level.actor, level.permission)) = some p := by
  simp only [getPermission, Commons.bind_eq_ok, findPermission_eq_ok]
  constructor
  · rintro ⟨found, ⟨hnamed, rfl⟩, h⟩
    refine ⟨hnamed, ?_⟩
    cases hfind : db.permissions.find (toLex (level.actor, level.permission)) with
    | none =>
      rw [hfind] at h
      cases h
    | some =>
      rw [hfind] at h
      rw [Commons.pure_eq_ok.mp h]
  · rintro ⟨hnamed, hfind⟩
    refine ⟨some p, ⟨hnamed, hfind.symm⟩, rfl⟩

variable {name : Name}

theorem createPermission_eq_ok_iff {parent : Nat} :
    createPermission account name parent auth e c = .ok (p, c') ↔
      c.db.permissions.find (toLex (account, name)) = none ∧
        p = newPermission e c.db.nextPermissionId parent auth ∧
        c' = { c with db := withPermission e c.db account name parent auth } := by
  simp only [createPermission, bind_eq_ok, readDb_eq_ok, readEnv_eq_ok, exists_unit,
    eosAssert_eq_ok, writeDb_eq_ok, pure_eq_ok]
  constructor
  · rintro ⟨_, _, ⟨rfl, rfl⟩, _, _, ⟨rfl, rfl⟩, _, ⟨hnone, rfl⟩, _, rfl, rfl, rfl⟩
    exact ⟨Option.isNone_iff_eq_none.mp hnone, rfl, rfl⟩
  · rintro ⟨hnone, rfl, rfl⟩
    exact ⟨_, _, ⟨rfl, rfl⟩, _, _, ⟨rfl, rfl⟩, _,
      ⟨Option.isNone_iff_eq_none.mpr hnone, rfl⟩, _, rfl, rfl, rfl⟩

theorem billSize_eq {oldSize newSize : Int}
    (h : billSize account oldSize newSize e c = .ok (u, c')) :
    Fits (e.ramUsage account) (newSize - oldSize) ∧
      c' = { c with ramDeltas := c.ramDeltas ++ billed account oldSize newSize } := by
  simp only [billSize, whenever_eq_ok, addRamUsage_eq_ok] at h
  rcases h with ⟨hne, hfits, rfl⟩ | ⟨heq, rfl⟩
  · exact ⟨hfits, by rw [billed, if_pos hne]⟩
  · refine ⟨fun hne => absurd (sub_eq_zero.mpr (not_not.mp heq)) hne, ?_⟩
    rw [billed, if_neg heq, List.append_nil]

theorem checkUpdateauth_eq_ok
    (h : checkUpdateauth account permission parent auth e c = .ok (u, c')) :
    c' = c ∧ permission ≠ 0 ∧ ∃ a, c.db.accounts.find account = some a := by
  simp only [checkUpdateauth, ran_iff, eosAssert_eq_ok, readDb_eq_ok, readEnv_eq_ok,
    getObject_eq_ok, whenever_eq_ok, ite_run] at h
  obtain ⟨hnamed, -, -, -, -, a, ha, -, _, hactive, _, howner, -, hpre⟩ := h
  obtain rfl : _ = _ := hactive.elim (fun h => h.2.2) (fun h => h.2)
  refine ⟨?_, hnamed, a, ha⟩
  have : _ = _ := validateAuthorityPrecondition_eq_ok hpre
  split_ifs at howner with hown
  · rw [this, (eosAssert_eq_ok.mp howner).2]
  · rw [this, (eosAssert_eq_ok.mp howner).2]

theorem parentId_eq_ok {id : Nat} (h : parentId db account permission parent = .ok id) :
    permission = ownerName ∧ id = 0 ∨
      ∃ q, db.permissions.find (toLex (account, parent)) = some q ∧ id = q.id := by
  unfold parentId at h
  split_ifs at h with howner
  · exact .inl ⟨howner, Commons.pure_eq_ok.mp h⟩
  · obtain ⟨q, hq, hid⟩ := Commons.bind_eq_ok.mp h
    exact .inr ⟨q, (getPermission_eq_ok.mp hq).2, Commons.pure_eq_ok.mp hid⟩

/-! ## The handlers -/

theorem newaccount_effect {creator : Name} {owner active : Authority}
    (h : newaccount creator name owner active e c = .ok (u, c')) :
    e.HasAuth creator ∧ Effect e c (.newaccount creator name owner active) c' := by
  simp only [newaccount, ran_iff, requireAuthorization_eq_ok, eosAssert_eq_ok, readDb_eq_ok,
    readEnv_eq_ok, getObject_eq_ok, whenever_eq_ok, writeDb_eq_ok, addPendingRamUsage_eq_ok] at h
  obtain ⟨hauth, -, -, hnamed, -, _, -, -, c₁, hkeep, hfresh, -, _, howner, _, hactive, _, _, hp, _,
    _, hq, -, -, rfl⟩ := h
  obtain rfl : c₁ = c := by
    rcases hkeep with ⟨-, -, -, -, -, -, -, hc₁⟩ | ⟨-, hc₁⟩
    · exact hc₁
    · exact hc₁
  have hrow := validateAuthorityPrecondition_eq_ok hactive
  rw [validateAuthorityPrecondition_eq_ok howner] at hrow
  subst hrow
  obtain ⟨hfreshOwner, rfl, rfl⟩ := createPermission_eq_ok_iff.mp hp
  obtain ⟨hfreshActive, rfl, rfl⟩ := createPermission_eq_ok_iff.mp hq
  refine ⟨hauth, .newaccount hnamed (Option.isNone_iff_eq_none.mp hfresh) hfreshOwner ?_⟩
  refine Eq.trans (Table.find_insert_ne _ _ ?_).symm hfreshActive
  simp [ownerName, activeName]

theorem setcode_effect {vmtype vmversion : Nat} {code : List UInt8}
    (h : setcode account vmtype vmversion code e c = .ok (u, c')) :
    AcceptsCode e c.db account vmtype vmversion code ∧
      Effect e c (.setcode account vmtype vmversion code) c' := by
  simp only [setcode, bind_eq_ok, exists_unit, eosAssert_eq_ok, readDb_eq_ok, readEnv_eq_ok,
    getObject_eq_ok, writeDb_eq_ok] at h
  obtain ⟨_, _, ⟨rfl, rfl⟩, _, _, ⟨rfl, rfl⟩, _, ⟨hvm, rfl⟩, _, ⟨hversion, rfl⟩, _, ⟨hvalid, rfl⟩,
    a, _, ⟨ha, rfl⟩, _, ⟨hne, rfl⟩, s, _, ⟨hs, rfl⟩, _, rfl, hbill⟩ := h
  obtain ⟨hfits, rfl⟩ := billSize_eq hbill
  exact ⟨⟨hvm, hversion, hvalid, ⟨a, ha, hne, hfits⟩, ⟨s, hs⟩⟩, .setcode ha⟩

theorem setabi_effect {abi : List UInt8} (h : setabi account abi e c = .ok (u, c')) :
    e.HasAuth (payAccount e c.db account) ∧ Effect e c (.setabi account abi) c' := by
  simp only [setabi, bind_eq_ok, exists_unit, requireAuthorization_eq_ok, readDb_eq_ok,
    readEnv_eq_ok, getObject_eq_ok, writeDb_eq_ok] at h
  obtain ⟨_, _, ⟨rfl, rfl⟩, _, _, ⟨rfl, rfl⟩, _, ⟨hauth, rfl⟩, a, _, ⟨ha, rfl⟩, s, _, ⟨-, rfl⟩, _,
    rfl, hbill⟩ := h
  obtain ⟨-, rfl⟩ := billSize_eq hbill
  exact ⟨hauth, .setabi ha⟩

theorem updateauth_effect (h : updateauth account permission parent auth e c = .ok (u, c')) :
    e.HasAuth account ∧ Effect e c (.updateauth account permission parent auth) c' := by
  simp only [updateauth, bind_eq_ok, exists_unit, requireAuthorization_eq_ok, readDb_eq_ok,
    readEnv_eq_ok, lift_eq_ok] at h
  obtain ⟨_, ⟨hauth, rfl⟩, _, hcheck, _, _, ⟨rfl, rfl⟩, _, _, ⟨rfl, rfl⟩, found, _, ⟨hfind, rfl⟩,
    parentId, _, ⟨hparent, rfl⟩, h⟩ := h
  obtain ⟨rfl, hnamed, howner⟩ := checkUpdateauth_eq_ok hcheck
  obtain ⟨-, hfound⟩ := findPermission_eq_ok.mp hfind
  refine ⟨hauth, ?_⟩
  cases found with
  | some =>
    simp only [bind_eq_ok, exists_unit, eosAssert_eq_ok, writeDb_eq_ok, addRamUsage_eq_ok] at h
    obtain ⟨_, ⟨-, rfl⟩, _, rfl, -, rfl⟩ := h
    exact .updateauth hfound.symm
  | none =>
    simp only [bind_eq_ok, addRamUsage_eq_ok] at h
    obtain ⟨p, _, hp, -, rfl⟩ := h
    obtain ⟨-, rfl, rfl⟩ := createPermission_eq_ok_iff.mp hp
    exact .createauth howner hnamed hfound.symm (parentId_eq_ok hparent)

theorem deleteauth_effect (h : deleteauth account permission e c = .ok (u, c')) :
    e.HasAuth account ∧ Effect e c (.deleteauth account permission) c' := by
  simp only [deleteauth, bind_eq_ok, exists_unit, requireAuthorization_eq_ok, eosAssert_eq_ok,
    readDb_eq_ok, lift_eq_ok, writeDb_eq_ok, addRamUsage_eq_ok] at h
  obtain ⟨_, ⟨hauth, rfl⟩, _, ⟨hactive, rfl⟩, _, ⟨howner, rfl⟩, _, _, ⟨rfl, rfl⟩, _,
    ⟨hlinks, rfl⟩, p, _, ⟨hp, rfl⟩, _, ⟨hchildren, rfl⟩, _, rfl, -, rfl⟩ := h
  exact ⟨hauth, .deleteauth hactive howner hlinks (getPermission_eq_ok.mp hp).2 hchildren⟩

variable {code type : Name}

theorem linkauth_effect {requirement : Name}
    (h : linkauth account code type requirement e c = .ok (u, c')) :
    e.HasAuth account ∧ Effect e c (.linkauth account code type requirement) c' := by
  simp only [linkauth, bind_eq_ok, exists_unit, requireAuthorization_eq_ok, eosAssert_eq_ok,
    readDb_eq_ok, whenever_eq_ok] at h
  obtain ⟨_, ⟨hrequired, rfl⟩, _, ⟨hauth, rfl⟩, _, _, ⟨rfl, rfl⟩, _, ⟨haccount, rfl⟩, _, ⟨-, rfl⟩,
    c, hexists, h⟩ := h
  obtain rfl : _ = _ := hexists.elim (fun h => h.2.2) (fun h => h.2)
  have heffect : Effect e c (.linkauth account code type requirement) _ :=
    .linkauth hrequired (Option.isSome_iff_exists.mp haccount)
  refine ⟨hauth, ?_⟩
  cases hlink : c.db.links.find (toLex (account, toLex (code, type))) with
  | some =>
    simp only [hlink, bind_eq_ok, exists_unit, eosAssert_eq_ok, writeDb_eq_ok] at h
    obtain ⟨_, ⟨-, rfl⟩, rfl⟩ := h
    simpa [hlink] using heffect
  | none =>
    simp only [hlink, bind_eq_ok, exists_unit, writeDb_eq_ok, addRamUsage_eq_ok] at h
    obtain ⟨_, rfl, -, rfl⟩ := h
    simpa [hlink] using heffect

theorem unlinkauth_effect (h : unlinkauth account code type e c = .ok (u, c')) :
    e.HasAuth account ∧ Effect e c (.unlinkauth account code type) c' := by
  simp only [unlinkauth, bind_eq_ok, exists_unit, requireAuthorization_eq_ok, eosAssert_eq_ok,
    readDb_eq_ok, addRamUsage_eq_ok, writeDb_eq_ok] at h
  obtain ⟨_, ⟨hauth, rfl⟩, _, _, ⟨rfl, rfl⟩, _, ⟨hlink, rfl⟩, _, ⟨-, rfl⟩, rfl⟩ := h
  obtain ⟨required, hrequired⟩ := Option.isSome_iff_exists.mp hlink
  exact ⟨hauth, .unlinkauth hrequired⟩

variable {act : NativeAction}

theorem handle_effect (h : handle act e c = .ok (u, c')) : Effect e c act c' := by
  cases act with
  | newaccount => exact (newaccount_effect h).2
  | setcode => exact (setcode_effect h).2
  | setabi => exact (setabi_effect h).2
  | updateauth => exact (updateauth_effect h).2
  | deleteauth => exact (deleteauth_effect h).2
  | linkauth => exact (linkauth_effect h).2
  | unlinkauth => exact (unlinkauth_effect h).2

theorem Effect.onlyChanges (h : Effect e c act c') : OnlyChanges act.account c.db c'.db := by
  cases h with
  | @newaccount creator name owner active =>
    have hrow : OnlyChanges name c.db (withAccount e c.db name) := .insert_account _ _ _ _
    have hpermission (db : NativeDb) (permission : Name) (parent : Nat) (auth : Authority) :
        OnlyChanges name db (withPermission e db name permission parent auth) :=
      .insert_permission _ _ _ _ _
    exact (hrow.trans (hpermission _ _ _ _)).trans (hpermission _ _ _ _)
  | setcode | setabi => exact .insert_account _ _ _ _
  | updateauth | createauth => exact .insert_permission _ _ _ _ _
  | deleteauth => exact .erase_permission _ _ _
  | linkauth => exact .insert_link _ _ _ _ _
  | unlinkauth => exact .erase_link _ _ _ _

/-! ## Bills -/

def charged (ramDeltas : List (Name × Int)) (account : Name) : Int :=
  (ramDeltas.map fun d => if d.1 = account then d.2 else 0).sum

@[simp] theorem charged_append (ramDeltas ramDeltas' : List (Name × Int)) (account : Name) :
    charged (ramDeltas ++ ramDeltas') account =
      charged ramDeltas account + charged ramDeltas' account := by
  simp only [charged, List.map_append, List.sum_append]

@[simp] theorem charged_singleton (payer : Name) (bytes : Int) (account : Name) :
    charged [(payer, bytes)] account = if payer = account then bytes else 0 := by
  simp only [charged, List.map_cons, List.map_nil, List.sum_cons, List.sum_nil, add_zero]

@[simp] theorem charged_billed (payer : Name) (oldSize newSize : Int) (account : Name) :
    charged (billed payer oldSize newSize) account =
      if payer = account then newSize - oldSize else 0 := by
  unfold billed
  split_ifs with hsize hpayer hpayer
  · rw [charged_singleton, if_pos hpayer]
  · rw [charged_singleton, if_neg hpayer]
  · exact (sub_eq_zero.mpr (not_not.mp hsize)).symm
  · rfl

/-! ## Runs -/

def step (i : NativeEnv × NativeAction) (db : NativeDb) : Except String NativeDb := exec i.1 db i.2

theorem step_effect {i : NativeEnv × NativeAction} {db' : NativeDb} (h : step i db = .ok db') :
    ∃ ramDeltas, Effect i.1 { db } i.2 { db := db', ramDeltas } := by
  obtain ⟨c', hc', rfl⟩ := exec_eq_ok.mp h
  exact ⟨c'.ramDeltas, handle_effect hc'⟩

theorem run_keeps (I : NativeDb → Prop)
    (hstep : ∀ {e : NativeEnv} {c c' : NativeCtx} {act}, I c.db → Effect e c act c' → I c'.db)
    (hdb : I db) (l : List (NativeEnv × NativeAction)) : I (Commons.run step db l) := by
  refine Commons.run_induction I (fun s i s' hs _ hi => ?_) hdb Commons.along_true
  obtain ⟨ramDeltas, heffect⟩ := step_effect hi
  exact hstep hs heffect

end Native

end BaccChain
