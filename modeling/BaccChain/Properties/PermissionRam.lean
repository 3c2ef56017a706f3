import BaccChain.Chain.NativeGenesis
import BaccChain.Properties.AccountControl

/-!
# The RAM of permissions and links

`newaccount`, `updateauth`, `deleteauth`, `linkauth` and `unlinkauth` bill differences.

## Main definitions

* `RamBalanced`: what was billed is what is stored

## Main results

* `permission_ram`: after every run
-/

namespace BaccChain

open Commons (Table)
open Genesis (alice bob)

namespace Native

/-! ## The balance -/

def permissionSize (account : Name) (k : Name ×ₗ Name) (p : PermissionObject) : Int :=
  if (ofLex k).1 = account then permissionBytes + p.auth.billableSize else 0

def linkSize (account : Name) (k : Name ×ₗ Name ×ₗ Name) (_requirement : Name) : Int :=
  if (ofLex k).1 = account then permissionLinkBytes else 0

def permissionRam (db : NativeDb) (account : Name) : Int :=
  db.permissions.sum (permissionSize account) + db.links.sum (linkSize account)

def overheadRam (db : NativeDb) (account : Name) : Int :=
  (db.accounts.find account).elim 0 fun _ => overheadPerAccountRamBytes

def RamBalanced (c : NativeCtx) (account : Name) : Prop :=
  charged c.ramDeltas account = overheadRam c.db account + permissionRam c.db account

def billsPermissions : NativeAction → Bool
  | .setcode _ _ _ _ | .setabi _ _ => false
  | .newaccount _ _ _ _ | .updateauth _ _ _ _ | .deleteauth _ _ | .linkauth _ _ _ _
  | .unlinkauth _ _ _ => true

def ledgerStep (i : NativeEnv × NativeAction) (c : NativeCtx) : Except String NativeCtx := do
  let r ← handle i.2 i.1 c
  return { r.2 with ramDeltas := if billsPermissions i.2 then r.2.ramDeltas else c.ramDeltas }

variable {e : NativeEnv} {c c' : NativeCtx} {db : NativeDb} {act : NativeAction}
  {name account : Name}

/-! ## What the effects do to the sizes -/

theorem permissionSize_key (owner permission : Name) (p : PermissionObject) :
    permissionSize account (toLex (owner, permission)) p =
      if owner = account then permissionBytes + p.auth.billableSize else 0 := rfl

theorem linkSize_key (owner code type requirement : Name) :
    linkSize account (toLex (owner, toLex (code, type))) requirement =
      if owner = account then permissionLinkBytes else 0 := rfl

theorem sum_permissions_insert (db : NativeDb) (k : Name ×ₗ Name) (p : PermissionObject) :
    (db.permissions.insert k p).sum (permissionSize account) =
      db.permissions.sum (permissionSize account) + permissionSize account k p -
        db.permissions.weightAt (permissionSize account) k :=
  eq_sub_of_add_eq (db.permissions.sum_insert _ k p)

variable {owner permission : Name}

theorem permissionRam_withPermission {parent : Nat} {auth : Authority}
    (hfresh : db.permissions.find (toLex (owner, permission)) = none) :
    permissionRam (withPermission e db owner permission parent auth) account =
      permissionRam db account +
        if owner = account then permissionBytes + auth.billableSize else 0 := by
  simp only [permissionRam, withPermission]
  rw [sum_permissions_insert, Table.weightAt_of_find_none hfresh]
  rw [permissionSize_key]
  dsimp only [newPermission]
  omega

variable {p : PermissionObject}

theorem permissionRam_updateauth {p' : PermissionObject}
    (hp : db.permissions.find (toLex (owner, permission)) = some p) :
    permissionRam { db with
      permissions := db.permissions.insert (toLex (owner, permission)) p' } account =
      permissionRam db account +
        if owner = account then p'.auth.billableSize - p.auth.billableSize else 0 := by
  simp only [permissionRam]
  rw [sum_permissions_insert, Table.weightAt_of_find hp, permissionSize_key, permissionSize_key]
  split_ifs <;> omega

theorem permissionRam_deleteauth (hp : db.permissions.find (toLex (owner, permission)) = some p) :
    permissionRam { db with
      permissions := db.permissions.erase (toLex (owner, permission)) } account =
      permissionRam db account +
        if owner = account then -(permissionBytes + p.auth.billableSize) else 0 := by
  have hsum := db.permissions.sum_erase (permissionSize account) (toLex (owner, permission))
  rw [Table.weightAt_of_find hp, permissionSize_key] at hsum
  simp only [permissionRam]
  split_ifs at hsum ⊢ <;> omega

variable {code type : Name}

theorem permissionRam_linkauth {requirement : Name} :
    permissionRam { db with
      links := db.links.insert (toLex (owner, toLex (code, type))) requirement } account =
      permissionRam db account + charged
        (if (db.links.find (toLex (owner, toLex (code, type)))).isNone then
          [(owner, permissionLinkBytes)] else []) account := by
  have hsum := db.links.sum_insert (linkSize account) (toLex (owner, toLex (code, type)))
    requirement
  simp only [permissionRam]
  cases hlink : db.links.find (toLex (owner, toLex (code, type))) with
  | none =>
    rw [Table.weightAt_of_find_none hlink, linkSize_key] at hsum
    rw [if_pos Option.isNone_none, charged_singleton]
    omega
  | some =>
    rw [Table.weightAt_of_find hlink] at hsum
    simp only [linkSize] at hsum
    rw [if_neg (by simp)]
    simp only [charged, List.map_nil, List.sum_nil]
    omega

theorem permissionRam_unlinkauth {required : Name}
    (hlink : db.links.find (toLex (owner, toLex (code, type))) = some required) :
    permissionRam { db with links := db.links.erase (toLex (owner, toLex (code, type))) } account =
      permissionRam db account + if owner = account then -permissionLinkBytes else 0 := by
  have hsum := db.links.sum_erase (linkSize account) (toLex (owner, toLex (code, type)))
  rw [Table.weightAt_of_find hlink, linkSize_key] at hsum
  simp only [permissionRam]
  split_ifs at hsum ⊢ <;> omega

variable {a : AccountObject}

theorem overheadRam_insert {a' : AccountObject} (ha : db.accounts.find name = some a) :
    ((db.accounts.insert name a').find account).elim 0 (fun _ => overheadPerAccountRamBytes) =
      overheadRam db account := by
  unfold overheadRam
  rw [Table.find_insert]
  split_ifs with hname
  · rw [← hname, ha]
    rfl
  · rfl

variable {active : Authority} {id : Nat}

theorem permissionRam_newaccount {owner : Authority}
    (howner : db.permissions.find (toLex (name, ownerName)) = none)
    (hactive : db.permissions.find (toLex (name, activeName)) = none) :
    permissionRam (withPermission e
      (withPermission e (withAccount e db name) name ownerName 0 owner) name activeName id active)
        account = permissionRam db account +
        if name = account then 2 * permissionBytes + owner.billableSize + active.billableSize
        else 0 := by
  have hownerFresh : (withAccount e db name).permissions.find (toLex (name, ownerName)) = none :=
    howner
  have hne : toLex (name, ownerName) ≠ toLex (name, activeName) := by simp [ownerName, activeName]
  have hactiveFresh : (withPermission e (withAccount e db name) name ownerName 0
      owner).permissions.find (toLex (name, activeName)) = none :=
    (Table.find_insert_ne _ _ hne).trans hactive
  have hram : permissionRam (withAccount e db name) account = permissionRam db account := rfl
  rw [permissionRam_withPermission hactiveFresh, permissionRam_withPermission hownerFresh, hram]
  split_ifs <;> omega

theorem overheadRam_newaccount {owner : Authority} (hfresh : db.accounts.find name = none) :
    overheadRam (withPermission e (withPermission e (withAccount e db name) name ownerName 0 owner)
      name activeName id active) account =
        overheadRam db account + if name = account then overheadPerAccountRamBytes else 0 := by
  simp only [overheadRam, withPermission, withAccount, Table.find_insert]
  split_ifs with hname
  · rw [← hname, hfresh]
    exact (zero_add _).symm
  · exact (add_zero _).symm

theorem RamBalanced.effect (h : RamBalanced c account) (heffect : Effect e c act c') :
    RamBalanced { c' with
      ramDeltas := if billsPermissions act then c'.ramDeltas else c.ramDeltas } account := by
  unfold RamBalanced at h ⊢
  cases heffect with
  | @newaccount creator name owner active hnamed hfresh howner hactive =>
    simp only [billsPermissions, if_true, charged_append, charged_singleton, h]
    rw [overheadRam_newaccount hfresh, permissionRam_newaccount howner hactive]
    split_ifs <;> omega
  | setcode ha => exact h.trans (congrArg (· + _) (overheadRam_insert ha).symm)
  | setabi ha => exact h.trans (congrArg (· + _) (overheadRam_insert ha).symm)
  | updateauth hp =>
    simp only [billsPermissions, if_true, charged_append, charged_singleton, h]
    rw [permissionRam_updateauth hp]
    exact add_assoc _ _ _
  | createauth _ _ hfresh _ =>
    simp only [billsPermissions, if_true, charged_append, charged_singleton, h]
    rw [permissionRam_withPermission hfresh]
    exact add_assoc _ _ _
  | deleteauth _ _ _ hp _ =>
    simp only [billsPermissions, if_true, charged_append, charged_singleton, h]
    rw [permissionRam_deleteauth hp]
    exact add_assoc _ _ _
  | linkauth _ _ =>
    simp only [billsPermissions, if_true, charged_append, h]
    rw [permissionRam_linkauth]
    exact add_assoc _ _ _
  | unlinkauth hlink =>
    simp only [billsPermissions, if_true, charged_append, charged_singleton, h]
    rw [permissionRam_unlinkauth hlink]
    exact add_assoc _ _ _

/-! ## The accounts that `newaccount` creates -/

/-- Permissions belong to accounts, and nothing is linked yet. -/
structure OwnersExist (db : NativeDb) : Prop where
  owner : ∀ {k p}, db.permissions.find k = some p → db.accounts.find (ofLex k).1 ≠ none
  unlinked : db.links = Table.empty

namespace OwnersExist

theorem insert_permission {k : Name ×ₗ Name} {n : Nat} (h : OwnersExist db)
    (hk : db.accounts.find (ofLex k).1 ≠ none) :
    OwnersExist { db with permissions := db.permissions.insert k p, nextPermissionId := n } where
  owner {k' p'} hp' := by
    rw [Table.find_insert] at hp'
    split_ifs at hp' with hkey
    · exact hkey ▸ hk
    · exact h.owner hp'
  unlinked := h.unlinked

theorem insert_account {s : AccountSequence} (h : OwnersExist db) :
    OwnersExist { db with
      accounts := db.accounts.insert name a, sequences := db.sequences.insert name s } where
  owner {k p} hp := by
    dsimp only
    rw [Table.find_insert]
    split_ifs
    · exact Option.some_ne_none a
    · exact h.owner hp
  unlinked := h.unlinked

theorem genesis {g : NativeGenesis} {c : GenesisCtx} (hc : g.initializeDatabase = .ok c) :
    OwnersExist c.db := by
  have hempty : OwnersExist {} := { owner := nofun, unlinked := rfl }
  refine NativeGenesis.initializeDatabase_induction OwnersExist hempty
    (fun {db name a owner active} hdb _ _ _ => ?_) (fun hdb _ => hdb.insert_account)
    (fun hdb hp => hdb.insert_permission (hdb.owner hp)) (fun hdb _ hp _ => ?_)
    (fun hdb => ⟨hdb.owner, hdb.unlinked⟩) hc
  swap
  · have hproducers := hdb.owner hp
    exact hdb.insert_permission hproducers
  have hfound : (db.accounts.insert name a).find name ≠ none := by
    rw [Table.find_insert_self]
    exact Option.some_ne_none a
  exact (hdb.insert_account.insert_permission hfound).insert_permission hfound

theorem ram_eq_zero (h : OwnersExist db) (hnew : db.accounts.find account = none) :
    overheadRam db account = 0 ∧ permissionRam db account = 0 := by
  have hpermissions : db.permissions.sum (permissionSize account) =
      db.permissions.sum fun _ _ => 0 := by
    refine Table.sum_congr fun k p hp => if_neg fun hk => ?_
    exact h.owner hp (hk ▸ hnew)
  unfold overheadRam permissionRam
  rw [hnew, hpermissions, Table.sum_zero, h.unlinked, Table.sum_empty]
  exact ⟨rfl, rfl⟩

end OwnersExist

theorem RamBalanced.step {i : NativeEnv × NativeAction} (h : RamBalanced c account)
    (hstep : ledgerStep i c = .ok c') : RamBalanced c' account := by
  obtain ⟨r, hr, hret⟩ := Commons.bind_eq_ok.mp hstep
  obtain rfl := Commons.pure_eq_ok.mp hret
  exact h.effect (handle_effect hr)

/-- **Permission RAM ledger**: after any native actions from genesis on, an account that
`newaccount` has created has been charged, by the actions on accounts, permissions and links, the
overhead of an account, the size of each of its permissions with its authority, and the size of each
of its links. -/
theorem permission_ram (g : NativeGenesis) (c : GenesisCtx) (hc : g.initializeDatabase = .ok c)
    (l : List (NativeEnv × NativeAction)) (account : Name)
    (hnew : c.db.accounts.find account = none) :
    let c' := Commons.run ledgerStep { db := c.db } l
    c'.db.accounts.find account ≠ none →
    charged c'.ramDeltas account = overheadPerAccountRamBytes +
      c'.db.permissions.sum (fun k p =>
        if (ofLex k).1 = account then permissionBytes + p.auth.billableSize else 0) +
      c'.db.links.sum (fun k _ => if (ofLex k).1 = account then permissionLinkBytes else 0) := by
  intro c' hcreated
  obtain ⟨hoverhead, hram⟩ := (OwnersExist.genesis hc).ram_eq_zero hnew
  have hstart : RamBalanced { db := c.db } account := by
    unfold RamBalanced
    rw [hoverhead, hram]
    rfl
  have hbalanced : RamBalanced c' account :=
    Commons.run_induction (RamBalanced · account) (fun _ _ _ h _ hstep => h.step hstep) hstart
      Commons.along_true
  obtain ⟨a, ha⟩ := Option.ne_none_iff_exists'.mp hcreated
  have hoverhead' : overheadRam c'.db account = overheadPerAccountRamBytes := by
    rw [overheadRam, ha]
    rfl
  unfold RamBalanced at hbalanced
  rw [hbalanced, hoverhead', permissionRam, add_assoc]
  rfl

def carol : Name := 4733081447982694400

def createAndLink : List (NativeEnv × NativeAction) :=
  [(envOf alice, .newaccount alice carol (NativeGenesis.keyAuthority 4)
      (NativeGenesis.keyAuthority 4)),
    (envOf carol, .updateauth carol bob activeName (NativeGenesis.keyAuthority 5)),
    (envOf carol, .linkauth carol alice 0 bob)]

theorem permission_ram_createAndLink :
    let c' := Commons.run ledgerStep { db := NativeGenesis.plainState.db } createAndLink
    charged c'.ramDeltas carol = overheadPerAccountRamBytes +
      c'.db.permissions.sum (fun k p =>
        if (ofLex k).1 = carol then permissionBytes + p.auth.billableSize else 0) +
      c'.db.links.sum (fun k _ => if (ofLex k).1 = carol then permissionLinkBytes else 0) ∧
    c'.db.links.sum (fun k _ => if (ofLex k).1 = carol then permissionLinkBytes else 0) = 144 := by
  intro c'
  have hnew : NativeGenesis.plainState.db.accounts.find carol = none := by
    rw [← Option.isNone_iff_eq_none]
    decide +kernel
  have hcreated : c'.db.accounts.find carol ≠ none := by
    rw [← Option.isSome_iff_ne_none]
    decide +kernel
  exact ⟨permission_ram NativeGenesis.plain _ NativeGenesis.plain_initializeDatabase
    createAndLink carol hnew hcreated, by decide +kernel⟩

end Native

end BaccChain
