import BaccChain.Chain.SnapshotRows
import BaccChain.Commons.Numbered

/-!
# The round trip of a snapshot

The database that is read is the one that was written, with the ids renumbered and the references to
them changed accordingly. Three things are lost: the rows of a kind from the 2^32th of a table on,
because their number is written in 32 bits; a parent without a name, because a parent is written by
its name; and the last use of the reserved permission, which is read with the first usage object.

## Main definitions

* `StoredDb.Referring`: a database in which every reference leads to an object
* `StoredDb.SameContents`: equality of two databases up to the ids of their objects

## Main results

* `StoredDb.snapshot_roundTrip`: what is written and read again has the same contents
* `StoredDb.nameless_parent_lost`: a parent without a name is lost
-/

namespace BaccChain

open Commons

/-! ## Indices that are filled in order -/

namespace GenericIndex

variable {α κ : Type}

def filled (l : List α) : GenericIndex α := { objects := Table.numbered l, nextId := l.length }

def Distinct (keys : List (α → κ)) (l : List α) : Prop := l.Pairwise fun b a => ¬ Clash keys a b

theorem create_filled [DecidableEq κ] {keys : List (α → κ)} {l : List α} {a : α}
    (h : ∀ b ∈ l, ¬ Clash keys a b) : (filled l).create keys a = .ok (filled (l ++ [a])) := by
  have hfree : (Table.numbered l).find l.length = none := by
    rw [Table.find_numbered, List.getElem?_eq_none le_rfl]
  have hfits : Fits keys (Table.numbered l) l.length a := by
    rintro ⟨i, b⟩ he -
    exact h b (List.mem_of_getElem? (Table.mem_entries_numbered.mp he))
  have hplace : place keys l.length a uniquenessViolated (filled l) =
      (.ok (), { filled l with objects := Table.numbered (l ++ [a]) }) := by
    rw [place, Attempt.read_bind, if_pos ⟨hfree, hfits⟩, ← Table.numbered_insert]
    rfl
  have hemplace : emplace keys a (filled l) = (.ok (), filled (l ++ [a])) := by
    refine (Attempt.bind_of_ok hplace).trans ?_
    rw [filled, filled, List.length_append]
    rfl
  rw [create, hemplace]
  rfl

theorem valid_filled {keys : List (α → κ)} {l : List α} (h : Distinct keys l) :
    (filled l).Valid keys := by
  have hfind : ∀ i a, (filled l).objects.find i = some a → ∃ hi : i < l.length, l[i] = a :=
    fun i a ha => List.getElem?_eq_some_iff.mp ((Table.find_numbered l i).symm.trans ha)
  refine ⟨fun i a ha => (hfind i a ha).1, fun i j a b ha hb hne => ?_⟩
  obtain ⟨hi, rfl⟩ := hfind i a ha
  obtain ⟨hj, rfl⟩ := hfind j b hb
  have hpairs := List.pairwise_iff_getElem.mp h
  rcases Nat.lt_or_gt_of_ne hne with hlt | hgt
  · rintro ⟨key, hkey, heq⟩
    exact hpairs i j hi hj hlt ⟨key, hkey, heq.symm⟩
  · exact hpairs j i hj hi hgt

end GenericIndex

namespace StoredDb

open GenericIndex

variable {db : StoredDb} {tid : Nat} {kind : RowKind} {l : List ContractRow}
  {batch : List (Nat × ContractRow)} {rest : List SnapshotRow}

/-! ## Reading the rows of a table -/

def relabel (tid : Nat) (r : ContractRow) : ContractRow := { r with tId := tid }

def written (kind : RowKind) (r : ContractRow) : SnapshotRow :=
  .row kind r.primaryKey r.payer r.data

theorem readRows_spec (hdb : db.rows kind = filled l)
    (hdistinct : Distinct contractRowKeys (l ++ batch.map fun e => relabel tid e.2)) :
    readRows tid kind batch.length (db, batch.map (fun e => written kind e.2) ++ rest) =
      .ok ({ db with
        rows := Function.update db.rows kind
          (filled (l ++ batch.map fun e => relabel tid e.2)) }, rest) := by
  induction batch generalizing db l with
  | nil =>
    rw [List.map_nil, List.map_nil, List.append_nil, ← hdb, Function.update_eq_self]
    rfl
  | cons e batch ih =>
    rw [List.map_cons, ← List.singleton_append, ← List.append_assoc] at hdistinct
    have hnew : ∀ b ∈ l, ¬ Clash contractRowKeys (relabel tid e.2) b := by
      have := (List.pairwise_append.mp (List.pairwise_append.mp hdistinct).1).2.2
      exact fun b hb => this b hb _ List.mem_cons_self
    have hcreate := create_filled hnew
    rw [← hdb] at hcreate
    rw [List.length_cons, List.map_cons, List.cons_append, written, readRows, if_pos rfl]
    refine (bind_eq_ok.mpr ⟨_, hcreate, ?_⟩)
    rw [ih (Function.update_self ..) hdistinct, Function.update_idem]
    simp

theorem readKind_spec {src : StoredDb} {tid₀ : Nat} (hdb : db.rows kind = filled l)
    (hfew : (walkRange (src.rows kind) tid₀).length < 2 ^ 32)
    (hdistinct : Distinct contractRowKeys
      (l ++ (walkRange (src.rows kind) tid₀).map fun e => relabel tid e.2)) :
    readKind tid (db, src.kindRows tid₀ kind ++ rest) kind =
      .ok ({ db with
        rows := Function.update db.rows kind
          (filled (l ++ (walkRange (src.rows kind) tid₀).map fun e => relabel tid e.2)) },
        rest) := by
  have hsize : (UInt32.ofNat (walkRange (src.rows kind) tid₀).length).toNat =
      (walkRange (src.rows kind) tid₀).length := UInt32.toNat_ofNat_of_lt' hfew
  rw [kindRows, List.cons_append, readKind, hsize]
  exact readRows_spec hdb hdistinct

theorem readKinds_spec {src : StoredDb} {tid₀ : Nat} (kinds : List RowKind) (hkinds : kinds.Nodup)
    {L : RowKind → List ContractRow} (hdb : db.rows = fun kind => filled (L kind))
    (hfew : ∀ kind, (walkRange (src.rows kind) tid₀).length < 2 ^ 32)
    (hdistinct : ∀ kind ∈ kinds, Distinct contractRowKeys
      (L kind ++ (walkRange (src.rows kind) tid₀).map fun e => relabel tid e.2)) :
    kinds.foldlM (readKind tid) (db, kinds.flatMap (src.kindRows tid₀) ++ rest) =
      .ok ({ db with
        rows := fun kind => filled (if kind ∈ kinds then
          L kind ++ (walkRange (src.rows kind) tid₀).map fun e => relabel tid e.2
          else L kind) }, rest) := by
  induction kinds generalizing db L with
  | nil => simp [← hdb, pure, Except.pure]
  | cons kind kinds ih =>
    obtain ⟨hnot, hkinds⟩ := List.nodup_cons.mp hkinds
    obtain ⟨hkind, hrest⟩ := List.forall_mem_cons.mp hdistinct
    rw [List.flatMap_cons, List.append_assoc, List.foldlM_cons]
    refine bind_eq_ok.mpr ⟨_, readKind_spec (congrFun hdb kind) (hfew kind) hkind, ?_⟩
    let L' := Function.update L kind
      (L kind ++ (walkRange (src.rows kind) tid₀).map fun e => relabel tid e.2)
    have hL' : ∀ k, k ≠ kind → L' k = L k := fun k hk => Function.update_of_ne hk _ _
    have hkinds' : ∀ k ∈ kinds, k ≠ kind := by
      rintro k hk rfl
      exact hnot hk
    have hupdate : Function.update db.rows kind (filled
        (L kind ++ (walkRange (src.rows kind) tid₀).map fun e => relabel tid e.2)) =
          fun k => filled (L' k) := by
      funext k
      rw [hdb]
      exact (Function.apply_update (fun _ => filled) L kind _ k).symm
    rw [ih hkinds hupdate fun k hk => hL' k (hkinds' k hk) ▸ hrest k hk]
    congr 3
    funext k
    by_cases hk : k = kind
    · subst hk
      rw [if_neg hnot, if_pos List.mem_cons_self]
      exact congrArg filled (Function.update_self ..)
    · rw [hL' k hk]
      simp [hk]

/-! ## Reading tables -/

def loadedRows (src : StoredDb) (τ : Nat → Nat) (tables : List (Nat × TableIdObject))
    (kind : RowKind) : List ContractRow :=
  tables.flatMap fun t => (walkRange (src.rows kind) t.1).map fun e => relabel (τ t.1) e.2

def loaded (src : StoredDb) (τ : Nat → Nat) (tables : List (Nat × TableIdObject)) : StoredDb :=
  { tables := filled (tables.map Prod.snd)
    rows := fun kind => filled (src.loadedRows τ tables kind) }

variable {src : StoredDb} {τ : Nat → Nat} {before after : List (Nat × TableIdObject)}
  {t : Nat × TableIdObject}

/-- Tables and rows whose keys stay unique under the new ids. -/
structure Loadable (src : StoredDb) (τ : Nat → Nat) (l : List (Nat × TableIdObject)) :
    Prop where
  few : ∀ kind tid, (walkRange (src.rows kind) tid).length < 2 ^ 32
  tables : Distinct tableKeys (l.map Prod.snd)
  rows : ∀ kind, Distinct contractRowKeys (src.loadedRows τ l kind)
  ids : ∀ before t after, l = before ++ t :: after → τ t.1 = before.length

theorem readTable_spec (h : Loadable src τ (before ++ t :: after)) :
    readTable (src.loaded τ before, src.tableRows t ++ rest) =
      .ok (src.loaded τ (before ++ [t]), rest) := by
  have hnew : ∀ b ∈ before.map Prod.snd, ¬ Clash tableKeys t.2 b := by
    have := h.tables
    rw [List.map_append] at this
    exact fun b hb => (List.pairwise_append.mp this).2.2 b hb _ List.mem_cons_self
  have hrows : ∀ kind ∈ RowKind.all, Distinct contractRowKeys
      (src.loadedRows τ before kind ++
        (walkRange (src.rows kind) t.1).map fun e => relabel before.length e.2) := by
    intro kind _
    have := h.rows kind
    rw [loadedRows, List.flatMap_append, List.flatMap_cons, h.ids before t after rfl,
      ← List.append_assoc] at this
    exact (List.pairwise_append.mp this).1
  rw [tableRows, List.cons_append, readTable]
  refine bind_eq_ok.mpr ⟨_, create_filled hnew, ?_⟩
  have hlength : (src.loaded τ before).tables.nextId = before.length := List.length_map _
  rw [hlength, readKinds_spec RowKind.all (by decide) rfl (fun kind => h.few kind t.1) hrows]
  have hall : ∀ kind, kind ∈ RowKind.all := by
    rintro (_ | _ | _ | _ | _ | _) <;> decide
  simp only [hall, if_true, loaded, loadedRows, List.map_append, List.flatMap_append,
    List.flatMap_singleton, List.map_singleton, h.ids before t after rfl]

theorem readTables_spec {n : Nat} (before : List (Nat × TableIdObject))
    (h : Loadable src τ (before ++ t :: after)) (hn : after.length < n) :
    readTables n (src.loaded τ before, (t :: after).flatMap src.tableRows) =
      .ok (src.loaded τ (before ++ t :: after)) := by
  induction n generalizing before t after with
  | zero => exact absurd hn (Nat.not_lt_zero _)
  | succ n ih =>
    refine bind_eq_ok.mpr ⟨_, readTable_spec h, ?_⟩
    cases after with
    | nil => rfl
    | cons t' after =>
      rw [List.append_cons before t (t' :: after)] at h ⊢
      exact ih _ h (Nat.lt_of_succ_lt_succ hn)

/-! ## Databases whose references lead somewhere -/

def reserved : StoredPermission := {}

/-- A state of the chain: unique keys are unique, rows are rows of a table, and permissions are the
reserved one and forests of permissions of one account each, in which a parent has a smaller id than
its children. -/
structure Referring (db : StoredDb) : Prop where
  tables : db.tables.Valid tableKeys
  rows : ∀ kind, (db.rows kind).Valid contractRowKeys
  permissions : db.permissions.Valid permissionKeys
  table_of_row : ∀ kind id r, (db.rows kind).objects.find id = some r →
    ∃ t, db.tables.objects.find r.tId = some t
  reserved_mem : db.permissions.objects.find 0 = some reserved
  parent : ∀ id p, db.permissions.objects.find id = some p → id ≠ 0 →
    p.parent = 0 ∨ ∃ q, db.permissions.objects.find p.parent = some q ∧ q.owner = p.owner ∧
      p.parent < id
  usage : ∀ id p, db.permissions.objects.find id = some p →
    ∃ lastUsed, db.usages.objects.find p.usageId = some lastUsed

/-- The databases are equal up to a renumbering of ids. -/
def SameContents (db db' : StoredDb) : Prop :=
  ∃ (τ : Nat → Nat) (ρ : RowKind → Nat → Nat) (π υ : Nat → Nat),
    Renumbers τ (fun _ t => t) db.tables.objects db'.tables.objects ∧
    (∀ kind, Renumbers (ρ kind) (fun _ r => relabel (τ r.tId) r) (db.rows kind).objects
      (db'.rows kind).objects) ∧
    Renumbers π (fun id p => { p with parent := π p.parent, usageId := υ id })
      db.permissions.objects db'.permissions.objects ∧
    π 0 = 0 ∧
    ∀ id p, db.permissions.objects.find id = some p → id ≠ 0 →
      db'.usages.objects.find (υ id) = db.usages.objects.find p.usageId

theorem mem_walkRange {idx : GenericIndex ContractRow} {e : Nat × ContractRow} :
    e ∈ walkRange idx tid ↔ e ∈ idx.objects.entries ∧ e.2.tId = tid := by
  rw [walkRange, (List.perm_insertionSort _ _).mem_iff, List.mem_filter, decide_eq_true_iff]

def writtenRows (src : StoredDb) (kind : RowKind) : List (Nat × ContractRow) :=
  src.tables.objects.entries.flatMap fun t => walkRange (src.rows kind) t.1

theorem loadedRows_entries (τ : Nat → Nat) (kind : RowKind) :
    src.loadedRows τ src.tables.objects.entries kind =
      (src.writtenRows kind).map fun e => relabel (τ e.2.tId) e.2 := by
  rw [loadedRows, writtenRows, List.map_flatMap]
  refine List.flatMap_congr fun t _ => List.map_congr_left fun e he => ?_
  rw [(mem_walkRange.mp he).2]

theorem distinct_of_valid {α κ : Type} {keys : List (α → κ)} {idx : GenericIndex α}
    (h : idx.Valid keys) {σ : List (Nat × α)} (hσ : σ.Perm idx.objects.entries) :
    σ.Pairwise fun e e' => ¬ Clash keys e'.2 e.2 := by
  have hnodup : (σ.map Prod.fst).Nodup := (hσ.map _).nodup_iff.mpr idx.objects.nodup_keys
  have hfind : ∀ e ∈ σ, idx.objects.find e.1 = some e.2 := fun e he =>
    Table.mem_entries_iff.mp (hσ.mem_iff.mp he)
  refine (List.pairwise_map.mp hnodup).imp_of_mem fun he he' hne => ?_
  exact h.unique _ _ _ _ (hfind _ he') (hfind _ he) hne.symm

section Refers

variable (h : Referring src)
include h

theorem writtenRows_perm (kind : RowKind) :
    (src.writtenRows kind).Perm (src.rows kind).objects.entries := by
  have hnodup : (src.rows kind).objects.entries.Nodup :=
    (src.rows kind).objects.nodup_keys.of_map
  have hrange : ∀ tid, (walkRange (src.rows kind) tid).Nodup := fun tid =>
    (List.perm_insertionSort _ _).nodup_iff.mpr (hnodup.filter _)
  have hwritten : (src.writtenRows kind).Nodup := by
    refine List.nodup_flatMap.mpr ⟨fun t _ => hrange t.1, ?_⟩
    refine src.tables.objects.sorted.imp fun {t t'} hlt e he he' => ?_
    rw [← (mem_walkRange.mp he).2, ← (mem_walkRange.mp he').2] at hlt
    exact absurd hlt (lt_irrefl _)
  refine (List.perm_ext_iff_of_nodup hwritten hnodup).mpr fun e => ?_
  rw [writtenRows, List.mem_flatMap]
  constructor
  · rintro ⟨t, -, he⟩
    exact (mem_walkRange.mp he).1
  · intro he
    obtain ⟨t, ht⟩ := h.table_of_row kind e.1 e.2
      (Table.mem_entries_iff.mp he)
    exact ⟨(e.2.tId, t), Table.mem_entries_iff.mpr ht,
      mem_walkRange.mpr ⟨he, rfl⟩⟩

theorem loadable
    (hfew : ∀ kind tid, (walkRange (src.rows kind) tid).length < 2 ^ 32) :
    Loadable src (newNumber src.tables.objects.entries) src.tables.objects.entries := by
  have hnodup := src.tables.objects.nodup_keys
  refine ⟨hfew, List.pairwise_map.mpr (distinct_of_valid h.tables (.refl _)), fun kind => ?_,
    fun before t after hsplit => ?_⟩
  · rw [loadedRows_entries, Distinct, List.pairwise_map]
    have hperm := writtenRows_perm h kind
    refine (distinct_of_valid (h.rows kind) hperm).imp_of_mem ?_
    rintro ⟨i, r⟩ ⟨i', r'⟩ hr hr' hclash hnew
    refine hclash ?_
    obtain ⟨key, hkey, heq⟩ := hnew
    obtain rfl := List.mem_singleton.mp hkey
    obtain ⟨htid, hprimary⟩ := Prod.mk.inj heq
    obtain ⟨t, ht⟩ := h.table_of_row kind i r
      (Table.mem_entries_iff.mp (hperm.mem_iff.mp hr))
    obtain ⟨t', ht'⟩ := h.table_of_row kind i' r'
      (Table.mem_entries_iff.mp (hperm.mem_iff.mp hr'))
    have hinj := (renumbers_numbered (.refl src.tables.objects.entries) fun _ t => t).inj
      _ _ _ _ ht' ht htid
    exact ⟨_, List.mem_singleton.mpr rfl, Prod.ext hinj hprimary⟩
  · rw [hsplit] at hnodup ⊢
    exact newNumber_split hnodup

theorem readContractTables_spec
    (hfew : ∀ kind tid, (walkRange (src.rows kind) tid).length < 2 ^ 32) :
    readContractTablesFromSnapshot {} src.addContractTablesToSnapshot =
      .ok (src.loaded (newNumber src.tables.objects.entries) src.tables.objects.entries) := by
  have hloadable := loadable h hfew
  rw [readContractTablesFromSnapshot, addContractTablesToSnapshot]
  cases hl : src.tables.objects.entries with
  | nil => rfl
  | cons t after =>
    rw [hl] at hloadable
    have hlength : after.length < ((t :: after).flatMap src.tableRows).length := by
      rw [List.length_flatMap]
      refine lt_of_lt_of_le ?_ (List.length_le_sum_of_one_le _ fun n hn => ?_)
      · simp
      · obtain ⟨t, -, rfl⟩ := List.mem_map.mp hn
        exact Nat.succ_pos _
    exact readTables_spec [] hloadable hlength

end Refers

/-! ## Reading permissions -/

def permissionRow (src : StoredDb) (p : StoredPermission) : SnapshotPermissionObject :=
  { parent := ((src.permissions.objects.find p.parent).getD reserved).name
    owner := p.owner
    name := p.name
    lastUpdated := p.lastUpdated
    lastUsed := (src.usages.objects.find p.usageId).getD 0
    auth := p.auth }

def newId (src : StoredDb) : Nat → Nat := newNumber src.permissions.objects.entries

def renumbered (src : StoredDb) (e : Nat × StoredPermission) : StoredPermission :=
  { e.2 with parent := src.newId e.2.parent, usageId := src.newId e.1 - 1 }

def withPermissions (base src : StoredDb) (l : List (Nat × StoredPermission)) : StoredDb :=
  { base with
    permissions := filled (l.map src.renumbered)
    usages := filled ((l.drop 1).map fun e => (src.permissionRow e.2).lastUsed) }

variable (h : Referring src)
include h

theorem toSnapshotRow_spec {e : Nat × StoredPermission}
    (he : e ∈ src.permissions.objects.entries) :
    src.toSnapshotRow e.2 = .ok (src.permissionRow e.2) := by
  have hfind := Table.mem_entries_iff.mp he
  obtain ⟨q, hq⟩ : ∃ q, src.permissions.objects.find e.2.parent = some q := by
    by_cases hid : e.1 = 0
    · rw [hid, h.reserved_mem] at hfind
      rw [← Option.some.inj hfind]
      exact ⟨_, h.reserved_mem⟩
    · rcases h.parent _ _ hfind hid with hparent | ⟨q, hq, -⟩
      · rw [hparent]
        exact ⟨_, h.reserved_mem⟩
      · exact ⟨q, hq⟩
  obtain ⟨lastUsed, hused⟩ := h.usage _ _ hfind
  simp only [toSnapshotRow, get, permissionRow, hq, hused]
  rfl

theorem addPermissionsToSnapshot_spec :
    src.addPermissionsToSnapshot =
      .ok (src.permissions.objects.entries.map fun e => src.permissionRow e.2) := by
  have hrows : ∀ l : List (Nat × StoredPermission), (∀ e ∈ l, e ∈ src.permissions.objects.entries) →
      l.mapM (fun e => src.toSnapshotRow e.2) = .ok (l.map fun e => src.permissionRow e.2) := by
    intro l hl
    induction l with
    | nil => rfl
    | cons e l ih =>
      obtain ⟨he, hl⟩ := List.forall_mem_cons.mp hl
      rw [List.mapM_cons, toSnapshotRow_spec h he, ih hl]
      rfl
  exact hrows _ fun e he => he

theorem exists_entries :
    ∃ l, src.permissions.objects.entries = (0, reserved) :: l := by
  have hmem := Table.mem_entries_iff.mpr h.reserved_mem
  have hsorted := src.permissions.objects.sorted
  generalize src.permissions.objects.entries = entries at hmem hsorted ⊢
  cases entries with
  | nil => cases hmem
  | cons e l =>
    rcases List.mem_cons.mp hmem with rfl | hmem
    · exact ⟨l, rfl⟩
    · exact absurd ((List.pairwise_cons.mp hsorted).1 _ hmem) (Nat.not_lt_zero _)

theorem newId_zero : src.newId 0 = 0 := by
  obtain ⟨l, hl⟩ := exists_entries h
  rw [newId, hl, newNumber]
  exact List.idxOf_cons_self

theorem newId_eq_zero {id : Nat} {p : StoredPermission}
    (hp : src.permissions.objects.find id = some p) : src.newId id = 0 ↔ id = 0 := by
  refine ⟨fun heq => ?_, fun hid => hid ▸ newId_zero h⟩
  have hplaces := renumbers_numbered (.refl src.permissions.objects.entries) fun _ p => p
  exact hplaces.inj _ _ _ _ hp h.reserved_mem (heq.trans (newId_zero h).symm)

section Step

variable {base : StoredDb} {before after : List (Nat × StoredPermission)}
  {e : Nat × StoredPermission}

omit h in
theorem newId_split (hsplit : src.permissions.objects.entries = before ++ e :: after) :
    src.newId e.1 = before.length := by
  have hnodup := src.permissions.objects.nodup_keys
  rw [newId]
  rw [hsplit] at hnodup ⊢
  exact newNumber_split hnodup

theorem findPermission_spec
    (hsplit : src.permissions.objects.entries = before ++ after) {id : Nat} {q : StoredPermission}
    (hq : (id, q) ∈ before) :
    (withPermissions base src before).findPermission q.owner q.name = .ok (src.newId id) := by
  have hfind : ∀ d ∈ before, src.permissions.objects.find d.1 = some d.2 := fun d hd =>
    Table.mem_entries_iff.mp (hsplit ▸ List.mem_append_left _ hd)
  have hnodup := src.permissions.objects.nodup_keys
  rw [hsplit] at hnodup
  have hplace : before[src.newId id]? = some (id, q) := by
    rw [newId, hsplit]
    exact getElem?_newNumber_append hnodup hq
  have hmem : (src.newId id, src.renumbered (id, q)) ∈
      (Table.numbered (before.map src.renumbered)).entries := by
    rw [Table.mem_entries_numbered, List.getElem?_map, hplace]
    rfl
  have hunique : ∀ d ∈ (Table.numbered (before.map src.renumbered)).entries,
      d.2.owner = q.owner ∧ d.2.name = q.name → d.1 = src.newId id := by
    rintro ⟨i, d⟩ hd ⟨howner, hname⟩
    rw [Table.mem_entries_numbered, List.getElem?_map] at hd
    obtain ⟨⟨id', q'⟩, hq', rfl⟩ := Option.map_eq_some_iff.mp hd
    have hfind' := hfind _ (List.mem_of_getElem? hq')
    have hid : id' = id := by
      by_contra hne
      refine h.permissions.unique id' id q' q hfind' (hfind _ hq) hne ?_
      exact ⟨_, List.mem_singleton.mpr rfl, Prod.ext howner hname⟩
    subst hid
    obtain rfl : q = q' := Option.some.inj ((hfind _ hq).symm.trans hfind')
    rw [List.map_append] at hnodup
    obtain ⟨hlt, -⟩ := List.getElem?_eq_some_iff.mp hq'
    exact (List.getElem?_inj hlt (List.nodup_append.mp hnodup).1.of_map).mp (hq'.trans hplace.symm)
  rw [findPermission]
  cases hfound : (withPermissions base src before).permissions.objects.entries.find?
      fun e => decide (e.2.owner = q.owner ∧ e.2.name = q.name) with
  | none => exact absurd (decide_eq_true ⟨rfl, rfl⟩) (List.find?_eq_none.mp hfound _ hmem)
  | some d =>
    have hd : d.2.owner = q.owner ∧ d.2.name = q.name := by simpa using List.find?_some hfound
    exact congrArg Except.ok (hunique d (List.mem_of_find?_eq_some hfound) hd)

variable (hnamed : ∀ id p q, src.permissions.objects.find id = some p →
  src.permissions.objects.find p.parent = some q → p.parent ≠ 0 → q.name ≠ 0)
include hnamed

theorem readParent_spec
    (hsplit : src.permissions.objects.entries = before ++ e :: after) :
    (withPermissions base src before).readParent before.length (src.permissionRow e.2) =
      .ok (src.newId e.2.parent) := by
  have hmem : e ∈ src.permissions.objects.entries := by simp [hsplit]
  have hfind := Table.mem_entries_iff.mp hmem
  have hid : before.length = 0 ↔ e.1 = 0 := newId_split hsplit ▸ newId_eq_zero h hfind
  rw [readParent]
  by_cases hzero : e.1 = 0
  · rw [hzero, h.reserved_mem] at hfind
    rw [if_pos (hid.mpr hzero), ← Option.some.inj hfind, permissionRow]
    simp only [show reserved.parent = 0 from rfl, h.reserved_mem, newId_zero h]
    rfl
  · rw [if_neg (hzero ∘ hid.mp)]
    by_cases hparent : e.2.parent = 0
    · have : (src.permissionRow e.2).parent = 0 := by
        rw [permissionRow, hparent, h.reserved_mem]
        rfl
      rw [if_neg (not_not.mpr this), hparent, newId_zero h]
      rfl
    · obtain ⟨q, hq, howner, hlt⟩ := (h.parent _ _ hfind hzero).resolve_left hparent
      have hname : (src.permissionRow e.2).parent = q.name := by
        rw [permissionRow, hq]
        rfl
      have hbefore : (e.2.parent, q) ∈ before := by
        have hin := Table.mem_entries_iff.mpr hq
        have hsorted := src.permissions.objects.sorted
        rw [hsplit] at hin hsorted
        have hafter := (List.pairwise_append.mp hsorted).2.1
        rcases List.mem_append.mp hin with hin | hin
        · exact hin
        · rcases List.mem_cons.mp hin with heq | hin
          · exact absurd (congrArg Prod.fst heq) hlt.ne
          · exact absurd ((List.pairwise_cons.mp hafter).1 _ hin) (lt_asymm hlt)
      rw [if_pos (hname ▸ hnamed _ _ _ hfind hq hparent), hname]
      refine bind_eq_ok.mpr ⟨_, ?_, bind_eq_ok.mpr ⟨(), check_eq_ok.mpr ?_, rfl⟩⟩
      · rw [show (src.permissionRow e.2).owner = q.owner from howner.symm]
        exact findPermission_spec h hsplit hbefore
      · exact hparent ∘ (newId_eq_zero h hq).mp

theorem fromSnapshotRow_spec
    (hsplit : src.permissions.objects.entries = before ++ e :: after) :
    (withPermissions base src before).fromSnapshotRow (src.permissionRow e.2) =
      .ok (withPermissions base src (before ++ [e])) := by
  have hnew : ∀ b ∈ before.map src.renumbered, ¬ Clash permissionKeys (src.renumbered e) b := by
    intro b hb
    obtain ⟨d, hd, rfl⟩ := List.mem_map.mp hb
    have hdistinct := distinct_of_valid h.permissions (.refl _)
    rw [hsplit] at hdistinct
    rintro ⟨key, hkey, heq⟩
    obtain rfl := List.mem_singleton.mp hkey
    exact (List.pairwise_append.mp hdistinct).2.2 d hd e List.mem_cons_self
      ⟨_, List.mem_singleton.mpr rfl, heq⟩
  have hid : (withPermissions base src before).permissions.nextId = before.length :=
    List.length_map _
  have hcreate := create_filled hnew
  simp only [fromSnapshotRow, hid]
  refine bind_eq_ok.mpr ⟨_, readParent_spec h hnamed hsplit, ?_⟩
  cases before with
  | nil =>
    refine bind_eq_ok.mpr ⟨_, rfl, bind_eq_ok.mpr ⟨_, ?_, rfl⟩⟩
    refine Eq.trans ?_ hcreate
    rw [renumbered, newId_split hsplit]
    rfl
  | cons d before =>
    refine bind_eq_ok.mpr ⟨_, create_filled (by simp [Clash, usageKeys]),
      bind_eq_ok.mpr ⟨_, Eq.trans ?_ hcreate, ?_⟩⟩
    · have husage : (withPermissions base src (d :: before)).usages.nextId = src.newId e.1 - 1 := by
        rw [newId_split hsplit]
        exact List.length_map _
      rw [renumbered, husage]
      rfl
    · rw [withPermissions, withPermissions]
      simp [pure, Except.pure]

theorem readPermissions_spec (base : StoredDb) (before : List (Nat × StoredPermission))
    (hsplit : src.permissions.objects.entries = before ++ after) :
    (withPermissions base src before).readPermissionsFromSnapshot
        (after.map fun e => src.permissionRow e.2) =
      .ok (withPermissions base src src.permissions.objects.entries) := by
  induction after generalizing before with
  | nil =>
    rw [hsplit, List.append_nil]
    rfl
  | cons e after ih =>
    refine bind_eq_ok.mpr ⟨_, fromSnapshotRow_spec h hnamed hsplit, ?_⟩
    exact ih _ (by rw [hsplit, List.append_assoc, List.singleton_append])

end Step

theorem find_usages {base : StoredDb} {n : Nat} {e : Nat × StoredPermission}
    (he : src.permissions.objects.entries[n + 1]? = some e) :
    (withPermissions base src src.permissions.objects.entries).usages.objects.find n =
      src.usages.objects.find e.2.usageId := by
  have hfind := Table.mem_entries_iff.mp (List.mem_of_getElem? he)
  obtain ⟨lastUsed, hused⟩ := h.usage _ _ hfind
  refine (Table.find_numbered _ _).trans ?_
  rw [List.getElem?_map, List.getElem?_drop, add_comm, he, hused]
  exact congrArg (fun used : Option Nat => some (used.getD 0)) hused

omit h in
theorem find_permissions {base : StoredDb} {n : Nat} {e : Nat × StoredPermission}
    (he : src.permissions.objects.entries[n]? = some e) :
    (withPermissions base src src.permissions.objects.entries).permissions.objects.find n =
      some { e.2 with parent := src.newId e.2.parent, usageId := n - 1 } := by
  have hplace : src.newId e.1 = n := newNumber_of_getElem? src.permissions.objects.nodup_keys he
  refine (Table.find_numbered _ _).trans ?_
  rw [List.getElem?_map, he, Option.map_some, renumbered, hplace]

omit h

/-! ## Writing and reading -/

/-- **What is written to a snapshot and read into an empty database is the same**, up to a
renumbering of ids, if a table has fewer than `2 ^ 32` rows of a kind and parents have names. The
reserved permission and the one that follows it have the same usage object, that of the latter. -/
theorem snapshot_roundTrip (db : StoredDb) (h : Referring db)
    (hfew : ∀ kind tid, (walkRange (db.rows kind) tid).length < 2 ^ 32)
    (hnamed : ∀ id p q, db.permissions.objects.find id = some p →
      db.permissions.objects.find p.parent = some q → p.parent ≠ 0 → q.name ≠ 0) :
    ∃ sections db', db.addToSnapshot = .ok sections ∧ readFromSnapshot sections = .ok db' ∧
      SameContents db db' ∧
      (∃ p, db'.permissions.objects.find 0 = some p ∧ p.usageId = 0) ∧
      ∀ e, db.permissions.objects.entries[1]? = some e →
        (∃ p, db'.permissions.objects.find 1 = some p ∧ p.owner = e.2.owner ∧ p.name = e.2.name ∧
          p.usageId = 0) ∧
        db'.usages.objects.find 0 = db.usages.objects.find e.2.usageId := by
  let base := db.loaded (newNumber db.tables.objects.entries) db.tables.objects.entries
  refine ⟨_, withPermissions base db db.permissions.objects.entries,
    bind_eq_ok.mpr ⟨_, addPermissionsToSnapshot_spec h, rfl⟩,
    bind_eq_ok.mpr ⟨base, readContractTables_spec h hfew,
      readPermissions_spec h hnamed base [] rfl⟩,
    ⟨_, fun kind => newNumber (db.writtenRows kind), db.newId, fun id => db.newId id - 1,
      renumbers_numbered (.refl _) _, fun kind => ?_, renumbers_numbered (.refl _) _,
      newId_zero h, fun id p hp hid => ?_⟩, ?_,
    fun e he => ⟨⟨_, find_permissions he, rfl, rfl, rfl⟩, find_usages h he⟩⟩
  · have hrows := renumbers_numbered (writtenRows_perm h kind)
      fun _ r => relabel (newNumber db.tables.objects.entries r.tId) r
    rw [← loadedRows_entries] at hrows
    exact hrows
  · have hplace : db.permissions.objects.entries[db.newId id]? = some (id, p) :=
      getElem?_newNumber db.permissions.objects.nodup_keys
        (Table.mem_entries_iff.mpr hp)
    obtain ⟨n, hn⟩ := Nat.exists_eq_succ_of_ne_zero (mt (newId_eq_zero h hp).mp hid)
    show (withPermissions base db _).usages.objects.find (db.newId id - 1) = _
    rw [hn] at hplace ⊢
    exact find_usages h hplace
  · obtain ⟨l, hl⟩ := exists_entries h
    have hfirst : db.permissions.objects.entries[0]? = some (0, reserved) := by
      rw [hl]
      rfl
    exact ⟨_, find_permissions hfirst, rfl⟩

/-- A chain with one account, whose second permission is under its first one, and a table with a row
that has a secondary key. -/
def oneAccount (name : Name) : StoredDb where
  tables := filled [{ code := 5, scope := 5, table := 8, payer := 5, count := 2 }]
  rows := fun kind => filled <|
    if kind = .keyValue ∨ kind = .index .index64 then [⟨0, 3, 5, [1, 2]⟩] else []
  permissions := filled [
    reserved,
    { owner := 5, name, lastUpdated := 10, auth := { threshold := 1 } },
    { usageId := 1, parent := 1, owner := 5, name := 2, lastUpdated := 20,
      auth := { threshold := 1 } }]
  usages := filled [10, 25]

theorem oneAccount_few (name : Name) (kind : RowKind) (tid : Nat) :
    (walkRange ((oneAccount name).rows kind) tid).length < 2 ^ 32 := by
  have hle : (walkRange ((oneAccount name).rows kind) tid).length ≤
      ((oneAccount name).rows kind).objects.entries.length := by
    rw [walkRange, List.length_insertionSort]
    exact List.length_filter_le _ _
  have hone : ((oneAccount name).rows kind).objects.entries.length ≤ 1 := by
    rcases kind with _ | _ | _ | _ | _ | _ <;> exact Nat.le_of_ble_eq_true rfl
  exact lt_of_le_of_lt (hle.trans hone) (by decide)

theorem oneAccount_referring {name : Name} (hname : name ≠ 2) : Referring (oneAccount name) where
  tables := valid_filled (List.pairwise_singleton _ _)
  rows := fun kind => by
    refine valid_filled ?_
    split_ifs
    · exact List.pairwise_singleton _ _
    · exact List.Pairwise.nil
  permissions := valid_filled (by simp [Distinct, Clash, permissionKeys, reserved, hname.symm])
  table_of_row := fun kind id r hr => by
    refine ⟨{ code := 5, scope := 5, table := 8, payer := 5, count := 2 }, ?_⟩
    have hr := List.mem_of_getElem? ((Table.find_numbered _ _).symm.trans hr)
    split_ifs at hr
    · rw [List.mem_singleton.mp hr]
      rfl
    · cases hr
  reserved_mem := rfl
  parent := Table.forall_find.mpr (by
    simp [oneAccount, filled, Table.numbered, Table.find, Table.findEntry])
  usage := Table.forall_find.mpr (by
    simp [oneAccount, filled, Table.numbered, Table.find, Table.findEntry, reserved])

theorem snapshot_roundTrip_oneAccount :
    Referring (oneAccount 1) ∧
    ∃ sections db', (oneAccount 1).addToSnapshot = .ok sections ∧
      readFromSnapshot sections = .ok db' ∧ SameContents (oneAccount 1) db' ∧
      (∃ p, db'.permissions.objects.find 0 = some p ∧ p.usageId = 0) ∧
      ∀ e, (oneAccount 1).permissions.objects.entries[1]? = some e →
        (∃ p, db'.permissions.objects.find 1 = some p ∧ p.owner = e.2.owner ∧ p.name = e.2.name ∧
          p.usageId = 0) ∧
        db'.usages.objects.find 0 = (oneAccount 1).usages.objects.find e.2.usageId := by
  have hreferring : Referring (oneAccount 1) := oneAccount_referring (by decide)
  refine ⟨hreferring, snapshot_roundTrip _ hreferring (oneAccount_few 1) fun id p q hp => ?_⟩
  revert id p
  refine Table.forall_find.mpr ?_
  simp [oneAccount, filled, Table.numbered, Table.find, Table.findEntry, reserved]
  rintro rfl
  decide

/-- **A parent without a name is lost**: its child is read as one without a parent. -/
theorem nameless_parent_lost :
    Referring (oneAccount 0) ∧
    (∀ kind tid, (walkRange ((oneAccount 0).rows kind) tid).length < 2 ^ 32) ∧
    ∃ sections db', (oneAccount 0).addToSnapshot = .ok sections ∧
      readFromSnapshot sections = .ok db' ∧ ¬ SameContents (oneAccount 0) db' := by
  obtain ⟨db', hdb', hroots⟩ := exists_ok_of_any
    (x := (oneAccount 0).addToSnapshot >>= readFromSnapshot)
    (p := fun db' => db'.permissions.objects.entries.all (·.2.parent = 0)) (by decide +kernel)
  obtain ⟨sections, hsections, hread⟩ := bind_eq_ok.mp hdb'
  refine ⟨oneAccount_referring (by decide), oneAccount_few 0, sections, db', hsections, hread, ?_⟩
  rintro ⟨τ, ρ, π, υ, -, -, hperms, hzero, -⟩
  have hchild := Table.mem_entries_iff.mpr (hperms.find 2 _ rfl)
  have hparent : π 1 = 0 := of_decide_eq_true (List.all_eq_true.mp hroots _ hchild)
  exact absurd (hperms.inj 1 0 _ _ rfl rfl (hparent.trans hzero.symm)) (by decide)

end StoredDb

end BaccChain
