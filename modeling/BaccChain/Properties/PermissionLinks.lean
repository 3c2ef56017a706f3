import BaccChain.Chain.Authorization
import BaccChain.Chain.NativeGenesis
import BaccChain.Properties.AccountControl

/-!
# The links of an account and its permissions

A link says which permission of an account is needed for the actions of a contract. `deleteauth`
does not delete a permission that the account has linked.

## Main definitions

* `LinksSound`: links name permissions of the account

## Main results

* `links_sound_iff`: when they do
* `link_to_foreign_permission`: a link to a permission of another account
-/

namespace BaccChain

open Commons (Table)
open Genesis (alice bob)

namespace Native

def HasPermission (db : NativeDb) (account name : Name) : Prop :=
  (db.permissions.find (toLex (account, name))).isSome = true

/-- Every link is to any permission or to one of the account. -/
def LinksSound (db : NativeDb) : Prop :=
  ∀ account code type requirement,
    db.links.find (toLex (account, toLex (code, type))) = some requirement →
    requirement = eosioAnyName ∨ HasPermission db account requirement

/-- A link that is made is to any permission or to one of the account. -/
def LinksOwnPermission (db : NativeDb) (i : NativeEnv × NativeAction) : Prop :=
  ∀ account code type requirement, i.2 = .linkauth account code type requirement →
    requirement = eosioAnyName ∨ HasPermission db account requirement

variable {e : NativeEnv} {c c' : NativeCtx} {db db' : NativeDb} {act : NativeAction}
  {account name : Name}

/-! ## Permissions come and go -/

theorem HasPermission.insert {k : Name ×ₗ Name} {p : PermissionObject}
    (hpermissions : db'.permissions = db.permissions.insert k p)
    (h : HasPermission db account name) : HasPermission db' account name := by
  unfold HasPermission at h ⊢
  rw [hpermissions, Table.find_insert]
  split_ifs
  · rfl
  · exact h

def KeepsPermissions (db db' : NativeDb) : Prop :=
  ∀ {account name}, HasPermission db account name → HasPermission db' account name

theorem keepsPermissions_newaccount {owner active : Authority} {id : Nat} :
    KeepsPermissions db (withPermission e (withPermission e (withAccount e db name) name ownerName 0
      owner) name activeName id active) := by
  intro account permission h
  have howner : HasPermission (withPermission e (withAccount e db name) name ownerName 0 owner)
    account permission := h.insert rfl
  exact howner.insert rfl

theorem LinksSound.of_keeps (h : LinksSound db) (hkeeps : KeepsPermissions db db')
    (hlinks : ∀ k r, db'.links.find k = some r → db.links.find k = some r) : LinksSound db' :=
  fun account code type requirement hlink =>
    (h account code type requirement (hlinks _ _ hlink)).imp id hkeeps

theorem LinksSound.erase {permission : Name} (h : LinksSound db)
    (hunlinked : ∀ l ∈ db.links.entries, ¬ ((ofLex l.1).1 = account ∧ l.2 = permission)) :
    LinksSound { db with permissions := db.permissions.erase (toLex (account, permission)) } := by
  intro account' code type requirement hlink
  refine (h account' code type requirement hlink).imp id fun hhas => ?_
  unfold HasPermission at hhas ⊢
  rw [Table.find_erase, if_neg]
  · exact hhas
  · intro hkey
    obtain ⟨rfl, rfl⟩ := Prod.mk.inj (toLex.injective hkey)
    exact hunlinked _ (Table.mem_entries_iff.mpr hlink) ⟨rfl, rfl⟩

theorem linksSound_insert_iff {code type requirement : Name} (h : LinksSound db) :
    LinksSound { db with
      links := db.links.insert (toLex (account, toLex (code, type))) requirement } ↔
    requirement = eosioAnyName ∨ HasPermission db account requirement := by
  constructor
  · exact fun hafter => hafter account code type requirement (Table.find_insert_self _ _ _)
  · intro hown account' code' type' requirement' hlink
    rw [Table.find_insert] at hlink
    split_ifs at hlink with hkey
    · obtain ⟨rfl, -⟩ := Prod.mk.inj (toLex.injective hkey)
      obtain rfl := Option.some.inj hlink
      exact hown
    · exact h account' code' type' requirement' hlink

/-- **When an action keeps the links sound**: `linkauth` if the account has the permission, and
every other action. -/
theorem linksSound_effect_iff (h : LinksSound c.db) (heffect : Effect e c act c') :
    LinksSound c'.db ↔ LinksOwnPermission c.db (e, act) := by
  cases heffect with
  | newaccount _ _ _ _ =>
    refine iff_of_true ?_ fun _ _ _ _ hact => by cases hact
    exact h.of_keeps keepsPermissions_newaccount fun _ _ => id
  | setcode _ => exact iff_of_true h fun _ _ _ _ hact => by cases hact
  | setabi _ => exact iff_of_true h fun _ _ _ _ hact => by cases hact
  | updateauth _ =>
    refine iff_of_true ?_ fun _ _ _ _ hact => by cases hact
    exact h.of_keeps (fun hhas => hhas.insert rfl) fun _ _ => id
  | createauth _ _ _ _ =>
    refine iff_of_true ?_ fun _ _ _ _ hact => by cases hact
    exact h.of_keeps (fun hhas => hhas.insert rfl) fun _ _ => id
  | deleteauth _ _ hunlinked _ _ =>
    exact iff_of_true (h.erase hunlinked) fun _ _ _ _ hact => by cases hact
  | @linkauth account code type requirement _ _ =>
    refine (linksSound_insert_iff h).trans ⟨?_, fun hown => hown account code type requirement rfl⟩
    rintro hown _ _ _ _ ⟨⟩
    exact hown
  | unlinkauth _ =>
    refine iff_of_true (h.of_keeps (fun hhas => hhas) fun k r hlink => ?_)
      fun _ _ _ _ hact => by cases hact
    rw [Table.find_erase] at hlink
    split_ifs at hlink
    exact hlink

/-! ## What is looked up -/

/-- The permissions that links name exist. -/
structure Registered (db : NativeDb) : Prop where
  active : ∀ {account}, (db.accounts.find account).isSome = true →
    HasPermission db account activeName
  named : ∀ {k requirement}, db.links.find k = some requirement → requirement ≠ 0

namespace Registered

theorem of_keeps (h : Registered db) (hkeeps : KeepsPermissions db db')
    (haccounts : ∀ account, (db'.accounts.find account).isSome = true →
      (db.accounts.find account).isSome = true)
    (hlinks : ∀ k r, db'.links.find k = some r → db.links.find k = some r) : Registered db' where
  active haccount := hkeeps (h.active (haccounts _ haccount))
  named hlink := h.named (hlinks _ _ hlink)

theorem accounts_insert {a a' : AccountObject} (ha : db.accounts.find name = some a)
    (account' : Name) (h : ((db.accounts.insert name a').find account').isSome = true) :
    (db.accounts.find account').isSome = true := by
  rw [Table.find_insert] at h
  split_ifs at h with hname
  · rw [← hname, ha]
    rfl
  · exact h

theorem newAccount {db₁ : NativeDb} {a : AccountObject} {owner active : Authority} {id : Nat}
    (h : Registered db) (haccounts : db₁.accounts = db.accounts.insert name a)
    (hpermissions : db₁.permissions = db.permissions) (hlinks : db₁.links = db.links) :
    Registered (withPermission e (withPermission e db₁ name ownerName 0 owner)
      name activeName id active) where
  active {account} haccount := by
    by_cases hname : name = account
    · subst hname
      unfold HasPermission withPermission
      rw [Table.find_insert_self]
      rfl
    · have hbefore : (db.accounts.find account).isSome = true := by
        rw [← Table.find_insert_ne db.accounts a hname, ← haccounts]
        exact haccount
      have hhas : HasPermission db₁ account activeName := by
        unfold HasPermission
        rw [hpermissions]
        exact h.active hbefore
      have howner : HasPermission (withPermission e db₁ name ownerName 0 owner)
        account activeName :=
        hhas.insert rfl
      exact howner.insert rfl
  named {k requirement} hlink := by
    have hbefore : db.links.find k = some requirement := by
      rw [← hlinks]
      exact hlink
    exact h.named hbefore

theorem effect (h : Registered c.db) (heffect : Effect e c act c') : Registered c'.db := by
  cases heffect with
  | newaccount => exact h.newAccount rfl rfl rfl
  | setcode ha => exact h.of_keeps (fun hhas => hhas) (accounts_insert ha) fun _ _ => id
  | setabi ha => exact h.of_keeps (fun hhas => hhas) (accounts_insert ha) fun _ _ => id
  | updateauth _ => exact h.of_keeps (fun hhas => hhas.insert rfl) (fun _ => id) fun _ _ => id
  | createauth _ _ _ _ =>
    exact h.of_keeps (fun hhas => hhas.insert rfl) (fun _ => id) fun _ _ => id
  | @deleteauth account permission _ hactive _ _ _ _ =>
    refine ⟨fun {account'} haccount => ?_, h.named⟩
    have hhas := h.active haccount
    unfold HasPermission at hhas ⊢
    rw [Table.find_erase, if_neg]
    · exact hhas
    · exact fun hkey => hactive (Prod.mk.inj (toLex.injective hkey)).2
  | linkauth hrequired _ =>
    refine ⟨h.active, fun hlink => ?_⟩
    rw [Table.find_insert] at hlink
    split_ifs at hlink with hkey
    · exact Option.some.inj hlink ▸ hrequired
    · exact h.named hlink
  | unlinkauth _ =>
    refine ⟨h.active, fun hlink => ?_⟩
    rw [Table.find_erase] at hlink
    split_ifs at hlink
    exact h.named hlink

theorem genesis {g : NativeGenesis} {c : GenesisCtx} (hc : g.initializeDatabase = .ok c) :
    Registered c.db ∧ c.db.links = Table.empty := by
  refine NativeGenesis.initializeDatabase_induction
    (fun db => Registered db ∧ db.links = Table.empty) ⟨⟨fun h => ?_, fun h => ?_⟩, rfl⟩ ?_ ?_ ?_ ?_
    (fun hdb => ⟨hdb.1.of_keeps (fun hhas => hhas) (fun _ => id) fun _ _ => id, hdb.2⟩) hc
  · cases h
  · cases h
  · rintro db name a owner active ⟨hdb, hlinks⟩ - - -
    exact ⟨hdb.newAccount rfl rfl rfl, hlinks⟩
  · rintro db name a a' s ⟨hdb, hlinks⟩ ha
    exact ⟨hdb.of_keeps (fun hhas => hhas) (accounts_insert ha) fun _ _ => id, hlinks⟩
  · rintro db k p auth ⟨hdb, hlinks⟩ -
    exact ⟨hdb.of_keeps (fun hhas => hhas.insert rfl) (fun _ => id) fun _ _ => id, hlinks⟩
  · rintro db parent name p auth ⟨hdb, hlinks⟩ - - -
    exact ⟨hdb.of_keeps (fun hhas => hhas.insert rfl) (fun _ => id) fun _ _ => id, hlinks⟩

end Registered

theorem lookupLinkedPermission_eq_some {scope actName linked : Name}
    (h : Authorization.lookupLinkedPermission db account scope actName = some linked) :
    ∃ type, db.links.find (toLex (account, toLex (scope, type))) = some linked := by
  unfold Authorization.lookupLinkedPermission at h
  split at h
  · rename_i hlink
    exact ⟨actName, hlink.trans h⟩
  · exact ⟨0, h⟩

theorem lookupMinimumPermission_found {scope actName permission : Name} (hdb : Registered db)
    (hsound : LinksSound db) (hnamed : account ≠ 0)
    (haccount : (db.accounts.find account).isSome = true)
    (h : Authorization.lookupMinimumPermission db account scope actName = .ok (some permission)) :
    ∃ p, getPermission db ⟨account, permission⟩ = .ok p := by
  have hfound (hzero : permission ≠ 0) (hhas : HasPermission db account permission) :
      ∃ p, getPermission db ⟨account, permission⟩ = .ok p := by
    obtain ⟨p, hp⟩ := Option.isSome_iff_exists.mp hhas
    exact ⟨p, getPermission_eq_ok.mpr ⟨⟨hnamed, hzero⟩, hp⟩⟩
  obtain ⟨-, -, h⟩ := Commons.bind_eq_ok.mp h
  cases hlinked : Authorization.lookupLinkedPermission db account scope actName with
  | none =>
    rw [hlinked] at h
    obtain rfl := Option.some.inj (Commons.pure_eq_ok.mp h)
    exact hfound (by decide) (hdb.active haccount)
  | some =>
    rw [hlinked] at h
    have hpermission := Commons.pure_eq_ok.mp h
    split_ifs at hpermission with hany
    obtain rfl := Option.some.inj hpermission
    obtain ⟨type, hlink⟩ := lookupLinkedPermission_eq_some hlinked
    exact hfound (hdb.named hlink)
      ((hsound account scope type permission hlink).resolve_left hany)

/-- **Links point to permissions of their account** in every state after genesis, if and only if
every link that `linkauth` accepts asks for nothing or for a permission that the account has. Where
the links are sound, the permission that an existing account needs for an action can be looked
up. -/
theorem links_sound_iff (g : NativeGenesis) (c : GenesisCtx) (hc : g.initializeDatabase = .ok c)
    (l : List (NativeEnv × NativeAction)) :
    (Commons.Always step LinksSound c.db l ↔ Commons.Along step LinksOwnPermission c.db l) ∧
    let db := Commons.run step c.db l
    LinksSound db → ∀ account scope actName permission, account ≠ 0 →
      (db.accounts.find account).isSome = true →
      Authorization.lookupMinimumPermission db account scope actName = .ok (some permission) →
      ∃ p, getPermission db ⟨account, permission⟩ = .ok p := by
  obtain ⟨hregistered, hlinks⟩ := Registered.genesis hc
  constructor
  · refine Commons.always_iff_along (J := fun _ => True) (fun _ _ _ _ _ _ => trivial)
      (fun db i db' _ hsound hstep => ?_) trivial fun account code type requirement hlink => ?_
    · obtain ⟨ramDeltas, heffect⟩ := step_effect hstep
      exact linksSound_effect_iff (c := { db }) hsound heffect
    · rw [hlinks] at hlink
      cases hlink
  · intro db hsound account scope actName permission hnamed haccount hlookup
    have hdb : Registered db :=
      run_keeps Registered (fun hdb heffect => hdb.effect heffect) hregistered l
    exact lookupMinimumPermission_found hdb hsound hnamed haccount hlookup

def linkOwn : List (NativeEnv × NativeAction) :=
  [(envOf alice, .linkauth alice bob 0 ownerName)]

def linkForeign : List (NativeEnv × NativeAction) :=
  [(envOf bob, .updateauth bob alice activeName (NativeGenesis.keyAuthority 4)),
    (envOf alice, .linkauth alice bob 0 alice)]

/-- The owner permission is linked, and needed. -/
theorem links_sound_iff_linkOwn :
    let db := Commons.run step NativeGenesis.plainState.db linkOwn
    LinksSound db ∧
      Authorization.lookupMinimumPermission db alice bob 0 = .ok (some ownerName) ∧
      ∃ p, getPermission db ⟨alice, ownerName⟩ = .ok p := by
  obtain ⟨hiff, hlookup⟩ := links_sound_iff NativeGenesis.plain _
    NativeGenesis.plain_initializeDatabase linkOwn
  have hown : HasPermission NativeGenesis.plainState.db alice ownerName := by
    unfold HasPermission
    decide +kernel
  have hsound : LinksSound (Commons.run step NativeGenesis.plainState.db linkOwn) := by
    refine hiff.mpr ⟨fun _ _ account code type requirement hact => ?_, trivial⟩ _ List.prefix_rfl
    cases hact
    exact .inr hown
  have hmin : Authorization.lookupMinimumPermission
      (Commons.run step NativeGenesis.plainState.db linkOwn) alice bob 0 =
        .ok (some ownerName) := by
    decide +kernel
  exact ⟨hsound, hmin, hlookup hsound alice bob 0 ownerName (by decide) (by decide +kernel) hmin⟩

/-- The link is accepted, and the permission that it asks for does not exist. -/
theorem link_to_foreign_permission :
    let db := Commons.run step NativeGenesis.plainState.db linkForeign
    ¬ LinksSound db ∧
      Authorization.lookupMinimumPermission db alice bob 0 = .ok (some alice) ∧
      ¬ ∃ p, getPermission db ⟨alice, alice⟩ = .ok p := by
  intro db
  have hlink : db.links.find (toLex (alice, toLex (bob, 0))) = some alice := by decide +kernel
  have hnone : db.permissions.find (toLex (alice, alice)) = none := by
    rw [← Option.isNone_iff_eq_none]
    decide +kernel
  refine ⟨fun hsound => ?_, by decide +kernel, ?_⟩
  · rcases hsound alice bob 0 alice hlink with hany | hhas
    · exact absurd hany (by decide)
    · unfold HasPermission at hhas
      rw [hnone] at hhas
      cases hhas
  · rintro ⟨p, hp⟩
    have hfind := (getPermission_eq_ok.mp hp).2
    rw [hnone] at hfind
    cases hfind

end Native

end BaccChain
