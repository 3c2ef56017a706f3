import BaccChain.Chain.Authorization
import BaccChain.Chain.NativeGenesis
import BaccChain.Commons.Path
import BaccChain.Properties.AccountControl

/-!
# The permissions of an account form a tree

The check whether a permission is at least as powerful as another one takes for granted that it
finds the parents and comes to an end.

## Main definitions

* `PermissionForest`: parents exist, and come first

## Main results

* `permission_forest`: after every run; the walk to the root ends
-/

namespace BaccChain

open Commons (Table Reaches)
open Genesis (alice bob)

/-! ## Forests -/

/-- The tables of permissions: ids are positive, below the next id and different from each other,
and a permission that is not an owner permission has a parent of the same account with a smaller
id. -/
structure PermissionForest (t : Table (Name ×ₗ Name) PermissionObject) (nextId : Nat) : Prop where
  next_pos : 0 < nextId
  id_pos : ∀ {account name p}, t.find (toLex (account, name)) = some p → 0 < p.id
  id_lt : ∀ {account name p}, t.find (toLex (account, name)) = some p → p.id < nextId
  unique : ∀ {account name p account' name' q}, t.find (toLex (account, name)) = some p →
    t.find (toLex (account', name')) = some q → p.id = q.id → account = account' ∧ name = name'
  parent : ∀ {account name p}, t.find (toLex (account, name)) = some p →
    p.parent = 0 ∧ name = ownerName ∨
      ∃ name' q, t.find (toLex (account, name')) = some q ∧ q.id = p.parent ∧ q.id < p.id

namespace PermissionForest

variable {t : Table (Name ×ₗ Name) PermissionObject} {nextId : Nat} {account name : Name}
  {p : PermissionObject}

theorem empty : PermissionForest Table.empty 1 where
  next_pos := Nat.one_pos
  id_pos h := by cases h
  id_lt h := by cases h
  unique h := by cases h
  parent h := by cases h

theorem find_insert (k : Name ×ₗ Name) (p : PermissionObject) (account' name' : Name) :
    (t.insert k p).find (toLex (account', name')) =
      if (ofLex k).1 = account' ∧ (ofLex k).2 = name' then some p
      else t.find (toLex (account', name')) := by
  rw [Table.find_insert]
  have hkey : k = toLex (account', name') ↔ (ofLex k).1 = account' ∧ (ofLex k).2 = name' :=
    Prod.ext_iff
  simp only [hkey]

theorem create (h : PermissionForest t nextId) (hfresh : t.find (toLex (account, name)) = none)
    (hid : p.id = nextId) (hparent : p.parent = 0 ∧ name = ownerName ∨
      ∃ name' q, t.find (toLex (account, name')) = some q ∧ q.id = p.parent) :
    PermissionForest (t.insert (toLex (account, name)) p) (nextId + 1) := by
  have hfind (a n : Name) : (t.insert (toLex (account, name)) p).find (toLex (a, n)) =
      if account = a ∧ name = n then some p else t.find (toLex (a, n)) :=
    find_insert (toLex (account, name)) p a n
  refine ⟨Nat.succ_pos _, fun hq => ?_, fun hq => ?_, fun hq hr heq => ?_, fun hq => ?_⟩
  · rw [hfind] at hq
    split_ifs at hq with hk
    · cases hq
      exact hid ▸ h.next_pos
    · exact h.id_pos hq
  · rw [hfind] at hq
    split_ifs at hq with hk
    · cases hq
      exact hid ▸ Nat.lt_succ_self _
    · exact (h.id_lt hq).trans (Nat.lt_succ_self _)
  · rw [hfind] at hq hr
    split_ifs at hq hr with hk hk' hk'
    · exact ⟨hk.1.symm.trans hk'.1, hk.2.symm.trans hk'.2⟩
    · cases hq
      exact absurd (heq.symm.trans hid) (h.id_lt hr).ne
    · cases hr
      exact absurd (heq.trans hid) (h.id_lt hq).ne
    · exact h.unique hq hr heq
  · rw [hfind] at hq
    split_ifs at hq with hk
    · cases hq
      obtain ⟨rfl, rfl⟩ := hk
      refine hparent.imp id fun ⟨name', q, hfq, hqid⟩ => ⟨name', q, ?_, hqid, ?_⟩
      · rw [hfind, if_neg]
        · exact hfq
        · rintro ⟨-, rfl⟩
          rw [hfresh] at hfq
          cases hfq
      · exact hid ▸ h.id_lt hfq
    · refine (h.parent hq).imp id fun ⟨name', r, hr, hrid, hlt⟩ => ⟨name', r, ?_, hrid, hlt⟩
      rw [hfind, if_neg]
      · exact hr
      · rintro ⟨rfl, rfl⟩
        rw [hfresh] at hr
        cases hr

theorem modify (h : PermissionForest t nextId) {k : Name ×ₗ Name} {p' : PermissionObject}
    (hp : t.find k = some p) (hid : p'.id = p.id) (hparent : p'.parent = p.parent) :
    PermissionForest (t.insert k p') nextId := by
  have hfind := find_insert (t := t) k p'
  have hbefore {a n : Name} {q : PermissionObject}
      (hq : (t.insert k p').find (toLex (a, n)) = some q) :
      ∃ q₀, t.find (toLex (a, n)) = some q₀ ∧ q.id = q₀.id ∧ q.parent = q₀.parent := by
    rw [hfind] at hq
    split_ifs at hq with hk
    · cases hq
      refine ⟨p, ?_, hid, hparent⟩
      rw [← hp, ← hk.1, ← hk.2]
      rfl
    · exact ⟨q, hq, rfl, rfl⟩
  have hafter {a n : Name} {q : PermissionObject} (hq : t.find (toLex (a, n)) = some q) :
      ∃ q', (t.insert k p').find (toLex (a, n)) = some q' ∧ q'.id = q.id := by
    rw [hfind]
    split_ifs with hk
    · obtain rfl : p = q := by
        have hkey : k = toLex (a, n) := Prod.ext hk.1 hk.2
        rw [← hkey, hp] at hq
        exact Option.some.inj hq
      exact ⟨p', rfl, hid⟩
    · exact ⟨q, hq, rfl⟩
  refine ⟨h.next_pos, fun hq => ?_, fun hq => ?_, fun hq hr heq => ?_, fun hq => ?_⟩
  · obtain ⟨q₀, hq₀, hqid, -⟩ := hbefore hq
    exact hqid ▸ h.id_pos hq₀
  · obtain ⟨q₀, hq₀, hqid, -⟩ := hbefore hq
    exact hqid ▸ h.id_lt hq₀
  · obtain ⟨q₀, hq₀, hqid, -⟩ := hbefore hq
    obtain ⟨r₀, hr₀, hrid, -⟩ := hbefore hr
    exact h.unique hq₀ hr₀ (hqid.symm.trans (heq.trans hrid))
  · obtain ⟨q₀, hq₀, hqid, hqparent⟩ := hbefore hq
    rw [hqid, hqparent]
    refine (h.parent hq₀).imp id fun ⟨name', r, hr, hrid, hlt⟩ => ?_
    obtain ⟨r', hr', hrid'⟩ := hafter hr
    exact ⟨name', r', hr', hrid'.trans hrid, hrid' ▸ hlt⟩

theorem erase (h : PermissionForest t nextId) (hp : t.find (toLex (account, name)) = some p)
    (hchildless : ∀ q ∈ t.entries, q.2.parent ≠ p.id) :
    PermissionForest (t.erase (toLex (account, name))) nextId := by
  have hfind {a n : Name} {q : PermissionObject}
      (hq : (t.erase (toLex (account, name))).find (toLex (a, n)) = some q) :
      t.find (toLex (a, n)) = some q := by
    rw [Table.find_erase] at hq
    split_ifs at hq
    exact hq
  refine ⟨h.next_pos, fun hq => h.id_pos (hfind hq), fun hq => h.id_lt (hfind hq),
    fun hq hr => h.unique (hfind hq) (hfind hr), fun {a n q} hq => ?_⟩
  refine (h.parent (hfind hq)).imp id fun ⟨name', r, hr, hrid, hlt⟩ => ⟨name', r, ?_, hrid, hlt⟩
  rw [Table.find_erase, if_neg]
  · exact hr
  · intro hkey
    rw [← hkey, hp] at hr
    obtain rfl := Option.some.inj hr
    exact hchildless (toLex (a, n), q) (Table.mem_entries_iff.mpr (hfind hq)) hrid.symm

theorem newAccount (e : NativeEnv) (db : NativeDb) {owner active : Authority}
    (h : PermissionForest db.permissions db.nextPermissionId)
    (hownerFresh : db.permissions.find (toLex (name, ownerName)) = none)
    (hactiveFresh : db.permissions.find (toLex (name, activeName)) = none) :
    let db' := Native.withPermission e (Native.withPermission e db name ownerName 0 owner)
      name activeName db.nextPermissionId active
    PermissionForest db'.permissions db'.nextPermissionId := by
  have hne : ownerName ≠ activeName := by decide
  have howner := create (p := Native.newPermission e db.nextPermissionId 0 owner) h hownerFresh rfl
    (.inl ⟨rfl, rfl⟩)
  refine create howner ?_ rfl (.inr ⟨ownerName, _, Table.find_insert_self _ _ _, rfl⟩)
  refine Eq.trans (find_insert _ _ name activeName) ?_
  rw [if_neg fun hk => hne hk.2]
  exact hactiveFresh

theorem effect {e : NativeEnv} {c c' : NativeCtx} {act : NativeAction}
    (h : PermissionForest c.db.permissions c.db.nextPermissionId)
    (heffect : Native.Effect e c act c') :
    PermissionForest c'.db.permissions c'.db.nextPermissionId := by
  cases heffect with
  | newaccount _ _ howner hactive =>
    exact newAccount e (Native.withAccount e c.db _) h howner hactive
  | setcode => exact h
  | setabi => exact h
  | updateauth hp => exact h.modify hp rfl rfl
  | createauth _ _ hfresh hparent =>
    refine create h hfresh rfl ?_
    rcases hparent with ⟨rfl, rfl⟩ | ⟨q, hq, rfl⟩
    · exact .inl ⟨rfl, rfl⟩
    · exact .inr ⟨_, q, hq, rfl⟩
  | deleteauth _ _ _ hp hchildless => exact h.erase hp hchildless
  | linkauth => exact h
  | unlinkauth => exact h

theorem genesis {g : NativeGenesis} {c : GenesisCtx} (hc : g.initializeDatabase = .ok c) :
    PermissionForest c.db.permissions c.db.nextPermissionId := by
  refine NativeGenesis.initializeDatabase_induction
    (fun db => PermissionForest db.permissions db.nextPermissionId) empty
    (fun {db name a owner active} hdb _ howner hactive => ?_) (fun hdb _ => hdb)
    (fun hdb hp => hdb.modify hp rfl rfl) (fun {db parent name p auth} hdb _ hp hfresh => ?_)
    (fun hdb => hdb) hc
  · exact newAccount g.env { db with
      accounts := db.accounts.insert name a, sequences := db.sequences.insert name {} }
      hdb howner hactive
  · exact create hdb hfresh rfl (.inr ⟨parent, p, hp, rfl⟩)

end PermissionForest

/-! ## The walk up the parents -/

namespace Authorization

def parentLink (db : NativeDb) (id : Nat) : Option Nat :=
  (db.permissions.entries.find? (·.2.id = id)).bind fun p =>
    if p.2.parent = 0 then none else some p.2.parent

def idsUpTo (db : NativeDb) (bound : Nat) : Finset Nat :=
  (db.permissions.entries.map (·.2.id)).toFinset.filter (· ≤ bound)

variable {db : NativeDb} {account name : Name} {p q : PermissionObject} {id rounds : Nat}

theorem card_idsUpTo_le (db : NativeDb) (bound : Nat) :
    (idsUpTo db bound).card ≤ db.permissions.entries.length := by
  refine (Finset.card_filter_le _ _).trans ((List.toFinset_card_le _).trans ?_)
  rw [List.length_map]

theorem card_idsUpTo_lt (hp : db.permissions.find (toLex (account, name)) = some p)
    {bound : Nat} (hlt : bound < p.id) : (idsUpTo db bound).card < (idsUpTo db p.id).card := by
  have hmem : p.id ∈ db.permissions.entries.map (·.2.id) :=
    List.mem_map.mpr ⟨_, Table.mem_entries_iff.mpr hp, rfl⟩
  refine Finset.card_lt_card ⟨fun i hi => ?_, fun hsub => ?_⟩
  · rw [idsUpTo, Finset.mem_filter] at hi ⊢
    exact ⟨hi.1, hi.2.trans hlt.le⟩
  · have hpid := hsub (Finset.mem_filter.mpr ⟨List.mem_toFinset.mpr hmem, le_rfl⟩)
    exact absurd (Finset.mem_filter.mp hpid).2 (Nat.not_le.mpr hlt)

section Forest

variable (h : PermissionForest db.permissions db.nextPermissionId)
include h

theorem find_id (hp : db.permissions.find (toLex (account, name)) = some p) :
    db.permissions.entries.find? (·.2.id = p.id) = some (toLex (account, name), p) := by
  have hmem := Table.mem_entries_iff.mpr hp
  cases hfind : db.permissions.entries.find? (·.2.id = p.id) with
  | none =>
    have hnot := List.find?_eq_none.mp hfind _ hmem
    exact absurd (decide_eq_true rfl) hnot
  | some r =>
    have hr := Table.mem_entries_iff.mp (List.mem_of_find?_eq_some hfind)
    have hid : r.2.id = p.id := by simpa using List.find?_some hfind
    obtain ⟨haccount, hname⟩ := h.unique (p := r.2) hr hp hid
    have hkey : r.1 = toLex (account, name) := Prod.ext haccount hname
    rw [hkey, hp] at hr
    rw [← hkey, Option.some.inj hr]

theorem permissionById_eq (hp : db.permissions.find (toLex (account, name)) = some p) :
    permissionById db p.id = .ok p := by
  rw [permissionById, if_neg (h.id_pos hp).ne', find_id h hp]

theorem parentLink_eq (hp : db.permissions.find (toLex (account, name)) = some p) :
    parentLink db p.id = if p.parent = 0 then none else some p.parent := by
  rw [parentLink, find_id h hp]
  rfl

theorem parentOf_eq (hp : db.permissions.find (toLex (account, name)) = some p) :
    parentOf db p.id = p.parent := by
  rw [parentOf, find_id h hp]
  rfl

theorem parentOf_zero : parentOf db 0 = 0 := by
  have hnone : db.permissions.entries.find? (·.2.id = 0) = none := by
    refine List.find?_eq_none.mpr fun r hr hid => ?_
    exact (h.id_pos (Table.mem_entries_iff.mp hr)).ne' (of_decide_eq_true hid)
  rw [parentOf, hnone]
  rfl

theorem exists_parent (hp : db.permissions.find (toLex (account, name)) = some p)
    (hparent : p.parent ≠ 0) : ∃ name' q, db.permissions.find (toLex (account, name')) = some q ∧
      q.id = p.parent ∧ q.id < p.id :=
  (h.parent hp).resolve_left fun hzero => hparent hzero.1

theorem reaches_parent (hp : db.permissions.find (toLex (account, name)) = some p)
    (hparent : p.parent ≠ 0) :
    Reaches (parentLink db) p.id id ↔ id = p.id ∨ Reaches (parentLink db) p.parent id := by
  have hlink : parentLink db p.id = some p.parent := by
    rw [parentLink_eq h hp, if_neg hparent]
  have hpath : Commons.Path (parentLink db) p.id [p.id] p.parent := .cons hlink (.nil _)
  rw [hpath.reaches_iff, List.mem_singleton]

theorem reaches_owner (hp : db.permissions.find (toLex (account, name)) = some p)
    (hparent : p.parent = 0) : Reaches (parentLink db) p.id id ↔ id = p.id := by
  refine Commons.reaches_of_none ?_
  rw [parentLink_eq h hp, if_pos hparent]

/-- **The loop** from a permission finds the objects that it looks up and ends, and it tells whether
the permission with an id is above. -/
theorem climb_spec (hid : id ≠ 0) (hp : db.permissions.find (toLex (account, name)) = some p)
    (hne : id ≠ p.id) (hrounds : (idsUpTo db p.id).card ≤ rounds) :
    ∃ b, climb db id rounds p = .ok b ∧ climbsTo db id rounds p.id = b ∧
      (b = true ↔ Reaches (parentLink db) p.id id) := by
  induction rounds generalizing name p with
  | zero =>
    have hlt := card_idsUpTo_lt hp (h.id_pos hp)
    omega
  | succ rounds ih =>
    rw [climb, climbsTo, parentOf_eq h hp]
    by_cases hfound : id = p.parent
    · have hparent : p.parent ≠ 0 := hfound ▸ hid
      rw [if_pos hfound, if_pos hfound]
      refine ⟨true, rfl, rfl, iff_of_true rfl ?_⟩
      exact (reaches_parent h hp hparent).mpr (.inr (hfound ▸ Reaches.refl id))
    rw [if_neg hfound, if_neg hfound]
    by_cases hparent : p.parent = 0
    · rw [if_pos hparent, if_pos hparent]
      refine ⟨false, rfl, rfl, iff_of_false Bool.false_ne_true ?_⟩
      exact fun hreach => hne ((reaches_owner h hp hparent).mp hreach)
    rw [if_neg hparent, if_neg hparent]
    obtain ⟨name', q, hq, hqid, hlt⟩ := exists_parent h hp hparent
    have hcard := card_idsUpTo_lt hp hlt
    obtain ⟨b, hclimb, hclimbs, hreach⟩ := ih hq (hqid ▸ hfound) (by omega)
    refine ⟨b, ?_, hqid ▸ hclimbs, ?_⟩
    · rw [← hqid, permissionById_eq h hq]
      exact hclimb
    · rw [hreach, hqid, reaches_parent h hp hparent]
      exact (or_iff_right hne).symm

theorem reaches_account {l : List Nat} (hq : db.permissions.find (toLex (account, name)) = some q)
    (hl : Commons.Path (parentLink db) q.id l id) :
    ∃ name' r, db.permissions.find (toLex (account, name')) = some r ∧ r.id = id := by
  induction l generalizing name q with
  | nil => exact ⟨name, q, hq, Commons.Path.nil_iff.mp hl⟩
  | cons i l ih =>
    obtain ⟨-, parent, hparent, hrest⟩ := Commons.Path.cons_iff.mp hl
    rw [parentLink_eq h hq] at hparent
    split_ifs at hparent with hzero
    obtain rfl := Option.some.inj hparent
    obtain ⟨name', r, hr, hrid, -⟩ := exists_parent h hq hzero
    exact ih hr (hrid ▸ hrest)

/-- **The check whether a permission satisfies another** ends, finds what it looks up, and tells
whether the permission is the other one or one of its ancestors. -/
theorem satisfiesSteps_spec {account' name' : Name}
    (hp : db.permissions.find (toLex (account, name)) = some p)
    (hq : db.permissions.find (toLex (account', name')) = some q)
    (hrounds : db.permissions.entries.length < rounds) :
    ∃ b, satisfiesSteps db rounds account p account' q = .ok b ∧
      satisfies db account p account' q = b ∧ (b = true ↔ Reaches (parentLink db) q.id p.id) := by
  unfold satisfiesSteps satisfies
  by_cases haccount : account = account'
  swap
  · rw [if_pos haccount, if_pos haccount]
    refine ⟨false, rfl, rfl, iff_of_false Bool.false_ne_true ?_⟩
    rintro ⟨l, hl⟩
    obtain ⟨name'', r, hr, hrid⟩ := reaches_account h hq hl
    exact haccount (h.unique hp hr hrid.symm).1
  subst haccount
  rw [if_neg (not_not.mpr rfl), if_neg (not_not.mpr rfl)]
  have hpos := (h.id_pos hp).ne'
  by_cases hnear : p.id = q.id ∨ p.id = q.parent
  · rw [if_pos hnear, if_pos hnear]
    refine ⟨true, rfl, rfl, iff_of_true rfl ?_⟩
    rcases hnear with heq | heq
    · rw [heq]
      exact Reaches.refl _
    · have hparent : q.parent ≠ 0 := heq ▸ hpos
      exact (reaches_parent h hq hparent).mpr (.inr (heq ▸ Reaches.refl _))
  rw [if_neg hnear, if_neg hnear]
  obtain ⟨hne, hneParent⟩ := not_or.mp hnear
  by_cases hparent : q.parent = 0
  · obtain ⟨rounds, rfl⟩ : ∃ n, rounds = n + 1 := Nat.exists_eq_add_one.mpr (by omega)
    refine ⟨false, ?_, ?_, iff_of_false Bool.false_ne_true ?_⟩
    · rw [hparent, permissionById, if_pos rfl, Commons.ok_bind, climb, reservedPermission,
        if_neg hpos, if_pos rfl]
    · rw [hparent, climbsTo, parentOf_zero h, if_neg hpos, if_pos rfl]
    · exact fun hreach => hne ((reaches_owner h hq hparent).mp hreach)
  obtain ⟨name'', r, hr, hrid, -⟩ := exists_parent h hq hparent
  rw [← hrid] at hneParent ⊢
  have hcard := card_idsUpTo_le db r.id
  obtain ⟨b, hclimb, -, hreach⟩ := climb_spec h hpos hr hneParent (hcard.trans hrounds.le)
  obtain ⟨b', -, hclimbs, hreach'⟩ := climb_spec h hpos hr hneParent (hcard.trans (Nat.le_succ _))
  refine ⟨b, ?_, ?_, ?_⟩
  · rw [permissionById_eq h hr]
    exact hclimb
  · rw [hclimbs, Bool.eq_iff_iff, hreach, hreach']
  · rw [hreach, reaches_parent h hq hparent, hrid]
    exact (or_iff_right hne).symm

end Forest

end Authorization

/-! ## The states after genesis -/

namespace Native

theorem run_forest {g : NativeGenesis} {c : GenesisCtx} (hc : g.initializeDatabase = .ok c)
    (l : List (NativeEnv × NativeAction)) :
    PermissionForest (Commons.run step c.db l).permissions
      (Commons.run step c.db l).nextPermissionId :=
  run_keeps (fun db => PermissionForest db.permissions db.nextPermissionId)
    (fun hdb heffect => hdb.effect heffect) (.genesis hc) l

/-- **Permission forest**: after any native actions from genesis on, a permission has the parent 0
and is an owner permission, or its parent exists, belongs to the same account and has a smaller id.
And the check whether a permission satisfies another one ends, finds every object that it looks up,
and is true exactly if the permission is the other one or one of its ancestors. -/
theorem permission_forest (g : NativeGenesis) (c : GenesisCtx) (hc : g.initializeDatabase = .ok c)
    (l : List (NativeEnv × NativeAction)) :
    let db := Commons.run step c.db l
    (∀ account name p, db.permissions.find (toLex (account, name)) = some p →
      p.id ≠ 0 ∧ (p.parent = 0 ∧ name = ownerName ∨
        ∃ name' q, db.permissions.find (toLex (account, name')) = some q ∧ q.id = p.parent ∧
          q.id < p.id)) ∧
    ∀ account name p account' name' q, db.permissions.find (toLex (account, name)) = some p →
      db.permissions.find (toLex (account', name')) = some q →
      ∃ b bound, (∀ rounds, bound ≤ rounds →
          Authorization.satisfiesSteps db rounds account p account' q = .ok b) ∧
        Authorization.satisfies db account p account' q = b ∧
        (b = true ↔ Reaches (Authorization.parentLink db) q.id p.id) := by
  intro db
  have hforest : PermissionForest db.permissions db.nextPermissionId := run_forest hc l
  refine ⟨fun account name p hp => ⟨(hforest.id_pos hp).ne', hforest.parent hp⟩, ?_⟩
  intro account name p account' name' q hp hq
  refine ⟨Authorization.satisfies db account p account' q, db.permissions.entries.length + 1,
    fun rounds hrounds => ?_, rfl, ?_⟩
  · obtain ⟨b, hsteps, hb, -⟩ := Authorization.satisfiesSteps_spec hforest hp hq hrounds
    rw [hsteps, hb]
  · obtain ⟨b, -, hb, hreach⟩ :=
      Authorization.satisfiesSteps_spec hforest hp hq (Nat.lt_succ_self _)
    rw [hb, hreach]

/-- A permission that an account creates below its active permission. -/
theorem permission_forest_updateauth :
    let db := Commons.run step NativeGenesis.plainState.db
      [(envOf alice, .updateauth alice bob activeName (NativeGenesis.keyAuthority 4))]
    ∃ p, db.permissions.find (toLex (alice, bob)) = some p ∧
      ∃ name' q, db.permissions.find (toLex (alice, name')) = some q ∧ q.id = p.parent ∧
        q.id < p.id := by
  have hforest := permission_forest NativeGenesis.plain _ NativeGenesis.plain_initializeDatabase
    [(envOf alice, .updateauth alice bob activeName (NativeGenesis.keyAuthority 4))]
  intro db
  have hfind : (db.permissions.find (toLex (alice, bob))).isSome = true := by decide +kernel
  obtain ⟨p, hp⟩ := Option.isSome_iff_exists.mp hfind
  have hname : bob ≠ ownerName := by decide
  exact ⟨p, hp, (hforest.1 alice bob p hp).2.resolve_left fun howner => hname howner.2⟩

end Native

end BaccChain
