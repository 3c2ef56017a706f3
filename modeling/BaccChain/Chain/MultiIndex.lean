import BaccChain.Chainbase.GenericIndex
import BaccChain.Eosiolib.Name
import Mathlib.Data.Prod.Lex

/-!
# Contract tables

The rows that a contract keeps under one table name, found by scope and primary key and billed to a
payer.
-/

namespace BaccChain

open Commons

/-- A `key_value_object`: a row and the account billed for it. -/
structure Row (α : Type) where
  payer : Name
  value : α

/-- A `table_id_object`: the account billed for the table and the number of its rows. -/
structure TableId where
  payer : Name
  count : Nat

/-- The tables of one name of one contract, by scope. -/
structure MultiIndex (σ α : Type) [LinearOrder σ] where
  tables : Table σ TableId
  rows : Table (σ ×ₗ Name) (Row α)

namespace MultiIndex

variable {σ ι α β M : Type} [LinearOrder σ]

def empty : MultiIndex σ α := ⟨Table.empty, Table.empty⟩

def findRow (t : MultiIndex σ α) (scope : σ) (pk : Name) : Option (Row α) :=
  t.rows.find (toLex (scope, pk))

def find (t : MultiIndex σ α) (scope : σ) (pk : Name) : Option α :=
  (t.findRow scope pk).map Row.value

def store (t : MultiIndex σ α) (scope : σ) (payer : Name) (pk : Name) (a : α) : MultiIndex σ α where
  tables := t.tables.insert scope
    (match t.tables.find scope with
      | some i => { i with count := i.count + 1 }
      | none => ⟨payer, 1⟩)
  rows := t.rows.insert (toLex (scope, pk)) ⟨payer, a⟩

def update (t : MultiIndex σ α) (scope : σ) (pk : Name) (payer : Name) (a : α) : MultiIndex σ α :=
  { t with rows := t.rows.insert (toLex (scope, pk)) ⟨payer, a⟩ }

def remove (t : MultiIndex σ α) (scope : σ) (pk : Name) : MultiIndex σ α where
  tables :=
    match t.tables.find scope with
    | some i =>
      if i.count - 1 = 0 then t.tables.erase scope
      else t.tables.insert scope { i with count := i.count - 1 }
    | none => t.tables
  rows := t.rows.erase (toLex (scope, pk))

omit [LinearOrder σ] in
theorem toLex_eq_iff {s s' : σ} {k k' : Name} :
    toLex (s, k) = toLex (s', k') ↔ s = s' ∧ k = k' := by
  rw [toLex_inj, Prod.mk.injEq]

section Find

variable (t : MultiIndex σ α) (s s' : σ) (p k k' : Name) (a : α)

theorem findRow_store :
    (t.store s p k a).findRow s' k' =
      if s = s' ∧ k = k' then some ⟨p, a⟩ else t.findRow s' k' := by
  simp only [findRow, store, Table.find_insert, toLex_eq_iff]

theorem findRow_update :
    (t.update s k p a).findRow s' k' =
      if s = s' ∧ k = k' then some ⟨p, a⟩ else t.findRow s' k' := by
  simp only [findRow, update, Table.find_insert, toLex_eq_iff]

theorem findRow_remove :
    (t.remove s k).findRow s' k' = if s = s' ∧ k = k' then none else t.findRow s' k' := by
  simp only [findRow, remove, Table.find_erase, toLex_eq_iff]

theorem find_store :
    (t.store s p k a).find s' k' = if s = s' ∧ k = k' then some a else t.find s' k' := by
  rw [find, findRow_store]
  split_ifs <;> rfl

theorem find_update :
    (t.update s k p a).find s' k' = if s = s' ∧ k = k' then some a else t.find s' k' := by
  rw [find, findRow_update]
  split_ifs <;> rfl

theorem find_remove :
    (t.remove s k).find s' k' = if s = s' ∧ k = k' then none else t.find s' k' := by
  rw [find, findRow_remove]
  split_ifs <;> rfl

@[simp] theorem find_store_self : (t.store s p k a).find s k = some a := by
  rw [find_store, if_pos ⟨rfl, rfl⟩]

@[simp] theorem find_update_self : (t.update s k p a).find s k = some a := by
  rw [find_update, if_pos ⟨rfl, rfl⟩]

@[simp] theorem find_remove_self : (t.remove s k).find s k = none := by
  rw [find_remove, if_pos ⟨rfl, rfl⟩]

variable {t s s' k k' a}

theorem find_eq_some_iff : t.find s k = some a ↔ ∃ p, t.findRow s k = some ⟨p, a⟩ := by
  constructor
  · intro h
    obtain ⟨⟨q, b⟩, hr, rfl⟩ := Option.map_eq_some_iff.mp h
    exact ⟨q, hr⟩
  · rintro ⟨q, hr⟩
    rw [find, hr]; rfl

theorem find_eq_none_iff : t.find s k = none ↔ t.findRow s k = none :=
  Option.map_eq_none_iff

end Find

/-! ## Sums over all rows -/

section Sum

variable [AddCommMonoid M]

def sum (t : MultiIndex σ α) (f : σ → Name → α → M) : M :=
  t.rows.sum fun k r => f (ofLex k).1 (ofLex k).2 r.value

def weightAt (t : MultiIndex σ α) (f : σ → Name → α → M) (s : σ) (k : Name) : M :=
  (t.find s k).elim 0 (f s k)

variable {t : MultiIndex σ α} {f g : σ → Name → α → M} {s : σ} {k : Name} {a : α}

theorem weightAt_of_find (h : t.find s k = some a) : t.weightAt f s k = f s k a := by
  rw [weightAt, h]; rfl

theorem weightAt_of_find_none (h : t.find s k = none) : t.weightAt f s k = 0 := by
  rw [weightAt, h]; rfl

theorem weightAt_rows (t : MultiIndex σ α) (f : σ → Name → α → M) (s : σ) (k : Name) :
    t.rows.weightAt (fun k r => f (ofLex k).1 (ofLex k).2 r.value) (toLex (s, k)) =
      t.weightAt f s k := by
  unfold Table.weightAt weightAt find findRow
  cases t.rows.find (toLex (s, k)) <;> rfl

theorem weightAt_ite (t : MultiIndex σ α) (f : α → M) (s : σ) (k k' : Name) :
    t.weightAt (fun _ i a => if i = k' then f a else 0) s k =
      if k = k' then t.weightAt (fun _ _ a => f a) s k else 0 := by
  unfold weightAt
  cases t.find s k <;> simp

@[simp] theorem sum_empty (f : σ → Name → α → M) : (empty : MultiIndex σ α).sum f = 0 := rfl

theorem sum_store (t : MultiIndex σ α) (f : σ → Name → α → M) (s : σ) (p k : Name) (a : α) :
    (t.store s p k a).sum f + t.weightAt f s k = t.sum f + f s k a := by
  rw [← weightAt_rows]
  exact t.rows.sum_insert _ (toLex (s, k)) ⟨p, a⟩

theorem sum_remove (t : MultiIndex σ α) (f : σ → Name → α → M) (s : σ) (k : Name) :
    (t.remove s k).sum f + t.weightAt f s k = t.sum f := by
  rw [← weightAt_rows]
  exact t.rows.sum_erase _ (toLex (s, k))

theorem find_of_rows {k : σ ×ₗ Name} {r : Row α} (h : t.rows.find k = some r) :
    t.find (ofLex k).1 (ofLex k).2 = some r.value := by
  have hk : toLex ((ofLex k).1, (ofLex k).2) = k := rfl
  rw [find, findRow, hk, h]; rfl

theorem forall_find {P : σ → Name → α → Prop}
    (h : ∀ x ∈ t.rows.entries, P (ofLex x.1).1 (ofLex x.1).2 x.2.value) (s : σ) (k : Name) (a : α)
    (ha : t.find s k = some a) : P s k a := by
  obtain ⟨p, hp⟩ := find_eq_some_iff.mp ha
  exact h _ (Table.mem_entries_iff.mpr hp)

theorem sum_congr (h : ∀ s k a, t.find s k = some a → f s k a = g s k a) : t.sum f = t.sum g :=
  Table.sum_congr fun _ _ hr => h _ _ _ (find_of_rows hr)

theorem sum_add (t : MultiIndex σ α) (f g : σ → Name → α → M) :
    (t.sum fun s k a => f s k a + g s k a) = t.sum f + t.sum g :=
  t.rows.sum_add _ _

theorem sum_zero (t : MultiIndex σ α) : (t.sum fun _ _ _ => (0 : M)) = 0 :=
  t.rows.sum_zero

theorem sum_eq_of_weightAt {u : MultiIndex σ α} (h : ∀ s k, t.weightAt f s k = u.weightAt g s k) :
    t.sum f = u.sum g := by
  refine Table.sum_eq_of_weightAt fun k => ?_
  have hk := h (ofLex k).1 (ofLex k).2
  rw [← weightAt_rows, ← weightAt_rows] at hk
  exact hk

end Sum

/-! ## Tables that differ at one row -/

/-- `u` is `t` with the row at `s`, `k` set to `o`; payers aside. -/
structure Writes (t : MultiIndex σ α) (s : σ) (k : Name) (o : Option α) (u : MultiIndex σ α) :
    Prop where
  find_self : u.find s k = o
  find_of_ne : ∀ {s' k'}, ¬ (s' = s ∧ k' = k) → u.find s' k' = t.find s' k'

namespace Writes

variable {t u v : MultiIndex σ α} {s s' : σ} {k k' : Name} {o o' : Option α}

theorem of_store (t : MultiIndex σ α) (s : σ) (p k : Name) (a : α) :
    t.Writes s k (some a) (t.store s p k a) :=
  ⟨t.find_store_self s p k a, fun h => by rw [find_store, if_neg fun e => h ⟨e.1.symm, e.2.symm⟩]⟩

theorem of_update (t : MultiIndex σ α) (s : σ) (k p : Name) (a : α) :
    t.Writes s k (some a) (t.update s k p a) :=
  ⟨t.find_update_self s p k a,
    fun h => by rw [find_update, if_neg fun e => h ⟨e.1.symm, e.2.symm⟩]⟩

theorem of_remove (t : MultiIndex σ α) (s : σ) (k : Name) : t.Writes s k none (t.remove s k) :=
  ⟨t.find_remove_self s k, fun h => by rw [find_remove, if_neg fun e => h ⟨e.1.symm, e.2.symm⟩]⟩

theorem trans (h : t.Writes s k o u) (h' : u.Writes s k o' v) : t.Writes s k o' v :=
  ⟨h'.find_self, fun hne => by rw [h'.find_of_ne hne, h.find_of_ne hne]⟩

theorem find (h : t.Writes s k o u) (s' : σ) (k' : Name) :
    u.find s' k' = if s' = s ∧ k' = k then o else t.find s' k' := by
  split_ifs with hk
  · obtain ⟨rfl, rfl⟩ := hk
    exact h.find_self
  · exact h.find_of_ne hk

theorem find_ne_none {a : α} (h : t.Writes s k (some a) u) (hne : t.find s' k' ≠ none) :
    u.find s' k' ≠ none := by
  rw [h.find]
  split_ifs
  · exact Option.some_ne_none a
  · exact hne

theorem weightAt [AddCommMonoid M] (h : t.Writes s k o u) (f : σ → Name → α → M) (s' : σ)
    (k' : Name) :
    u.weightAt f s' k' = if s' = s ∧ k' = k then o.elim 0 (f s k) else t.weightAt f s' k' := by
  unfold MultiIndex.weightAt
  rw [h.find]
  split_ifs with hk
  · obtain ⟨rfl, rfl⟩ := hk
    rfl
  · rfl

theorem weightAt_self [AddCommMonoid M] (h : t.Writes s k o u) (f : σ → Name → α → M) :
    u.weightAt f s k = o.elim 0 (f s k) := by
  rw [h.weightAt, if_pos ⟨rfl, rfl⟩]

theorem refl (t : MultiIndex σ α) (s : σ) (k : Name) : t.Writes s k (t.find s k) t :=
  ⟨rfl, fun _ => rfl⟩

theorem sum [AddCommMonoid M] (h : t.Writes s k o u) (f : σ → Name → α → M) :
    u.sum f + t.weightAt f s k = t.sum f + o.elim 0 (f s k) := by
  have hrem : (u.remove s k).sum f = (t.remove s k).sum f := by
    refine sum_eq_of_weightAt fun s' k' => ?_
    unfold MultiIndex.weightAt
    rw [find_remove, find_remove, h.find]
    by_cases hk : s = s' ∧ k = k'
    · rw [if_pos hk, if_pos hk]
    · rw [if_neg hk, if_neg hk, if_neg fun e => hk ⟨e.1.symm, e.2.symm⟩]
  have hu := u.sum_remove f s k
  rw [MultiIndex.weightAt, h.find_self] at hu
  rw [← hu, ← t.sum_remove f s k, hrem]
  abel

theorem sum_eq_add [AddCommGroup M] (h : t.Writes s k o u) {f : σ → Name → α → M} {δ : M}
    (hδ : o.elim 0 (f s k) = t.weightAt f s k + δ) : u.sum f = t.sum f + δ := by
  have hsum := h.sum f
  rw [hδ] at hsum
  rw [eq_sub_of_add_eq hsum]
  abel

end Writes

section Order

variable [AddCommMonoid M] [PartialOrder M] [IsOrderedAddMonoid M]
  {t : MultiIndex σ α} {f g : σ → Name → α → M}

theorem sum_le_sum (h : ∀ s k a, t.find s k = some a → f s k a ≤ g s k a) : t.sum f ≤ t.sum g :=
  Table.sum_le_sum fun _ _ hr => h _ _ _ (find_of_rows hr)

theorem sum_nonneg (h : ∀ s k a, t.find s k = some a → 0 ≤ f s k a) : 0 ≤ t.sum f :=
  Table.sum_nonneg fun _ _ hr => h _ _ _ (find_of_rows hr)

theorem weightAt_le_sum (h : ∀ s k a, t.find s k = some a → 0 ≤ f s k a) (s : σ) (k : Name) :
    t.weightAt f s k ≤ t.sum f := by
  rw [← weightAt_rows]
  exact Table.weightAt_le_sum (fun _ _ hr => h _ _ _ (find_of_rows hr)) _

end Order

end MultiIndex

end BaccChain
