import Mathlib.Data.List.Basic

/-!
# Depth-bounded search

A goal is given, or it is expanded by a rule that looks at its children. `within n` says which goals
hold when at most `n` expansions lie above one another.
-/

namespace Commons

/-- Goals: which of them expand, and to which children. -/
structure Goals (G : Type*) where
  expands : G → Bool
  children : G → List G

namespace Goals

variable {G : Type*} (S : Goals G)

/-- The expanded goals that lie `n` levels below the goal, with repetitions. -/
def reach : Nat → G → List G
  | 0, g => if S.expands g then [g] else []
  | n + 1, g => if S.expands g then (S.children g).flatMap (reach n) else []

/-- A goal that lies below `g` at two depths up to `L` is not cut off by the bound `L` at the deeper
one: nothing is expanded as far below it as the bound. -/
def Consistent (L : Nat) (g : G) : Prop :=
  ∀ d' ≤ L, ∀ d < d', ∀ q ∈ S.reach d' g, q ∈ S.reach d g → S.reach (L - d') q = []

instance [DecidableEq G] (L : Nat) (g : G) : Decidable (S.Consistent L g) :=
  inferInstanceAs (Decidable (∀ d' ≤ L, ∀ d < d', _))

variable {S} {g q h : G} {m n L d : Nat}

theorem mem_reach_zero : q ∈ S.reach 0 g ↔ S.expands g = true ∧ q = g := by
  by_cases he : S.expands g = true <;> simp [reach, he]

theorem mem_reach_succ :
    q ∈ S.reach (n + 1) g ↔ S.expands g = true ∧ ∃ c ∈ S.children g, q ∈ S.reach n c := by
  by_cases he : S.expands g = true <;> simp [reach, he]

theorem self_mem_reach_zero (he : S.expands g = true) : g ∈ S.reach 0 g :=
  mem_reach_zero.mpr ⟨he, rfl⟩

theorem mem_reach_add (hh : h ∈ S.reach m g) (hq : q ∈ S.reach n h) : q ∈ S.reach (m + n) g := by
  induction m generalizing g with
  | zero =>
    obtain ⟨-, rfl⟩ := mem_reach_zero.mp hh
    rwa [Nat.zero_add]
  | succ m ih =>
    obtain ⟨he, c, hc, hh⟩ := mem_reach_succ.mp hh
    rw [Nat.succ_add]
    exact mem_reach_succ.mpr ⟨he, c, hc, ih hh⟩

theorem expands_of_mem_reach (hq : q ∈ S.reach n g) : S.expands q = true := by
  induction n generalizing g with
  | zero =>
    obtain ⟨he, rfl⟩ := mem_reach_zero.mp hq
    exact he
  | succ n ih =>
    obtain ⟨-, c, -, hq⟩ := mem_reach_succ.mp hq
    exact ih hq

theorem mem_reach_child (hh : h ∈ S.reach m g) (hq : q ∈ S.children h)
    (he : S.expands q = true) : q ∈ S.reach (m + 1) g :=
  mem_reach_add hh
    (mem_reach_succ.mpr ⟨expands_of_mem_reach hh, q, hq, self_mem_reach_zero he⟩)

theorem reach_ne_nil_of_le (hmn : m ≤ n) (hg : S.reach n g ≠ []) : S.reach m g ≠ [] := by
  induction m generalizing n g with
  | zero =>
    cases n with
    | zero => exact hg
    | succ =>
      obtain ⟨q, hq⟩ := List.exists_mem_of_ne_nil _ hg
      exact List.ne_nil_of_mem (self_mem_reach_zero (mem_reach_succ.mp hq).1)
  | succ m ih =>
    obtain ⟨n, rfl⟩ : ∃ n', n = n' + 1 := ⟨n - 1, by omega⟩
    obtain ⟨q, hq⟩ := List.exists_mem_of_ne_nil _ hg
    obtain ⟨he, c, hc, hqc⟩ := mem_reach_succ.mp hq
    obtain ⟨q', hq'⟩ :=
      List.exists_mem_of_ne_nil _ (ih (Nat.le_of_succ_le_succ hmn) (List.ne_nil_of_mem hqc))
    exact List.ne_nil_of_mem (mem_reach_succ.mpr ⟨he, c, hc, hq'⟩)

theorem reach_ne_nil_of_mem_self (hq : q ∈ S.reach (m + 1) q) : S.reach n q ≠ [] := by
  have hround : ∀ k, q ∈ S.reach (k * (m + 1)) q := by
    intro k
    induction k with
    | zero => simpa using self_mem_reach_zero (mem_reach_succ.mp hq).1
    | succ k ih => rw [Nat.succ_mul]; exact mem_reach_add ih hq
  exact reach_ne_nil_of_le (Nat.le_mul_of_pos_right n (Nat.succ_pos m))
    (List.ne_nil_of_mem (hround n))

theorem Consistent.not_mem_reach_self (hc : S.Consistent L g) (hd : d + (m + 1) ≤ L)
    (hq : q ∈ S.reach d g) : q ∉ S.reach (m + 1) q := by
  intro hself
  exact reach_ne_nil_of_mem_self hself
    (hc (d + (m + 1)) hd d (by omega) q (mem_reach_add hq hself) hq)

end Goals

/-- Goals with the rule that settles them. -/
structure Search (G : Type*) extends Goals G where
  given : G → Bool
  rule : (G → Bool) → G → Bool
  rule_mono : ∀ {f f' : G → Bool} {g : G}, (∀ c ∈ children g, f c = true → f' c = true) →
    rule f g = true → rule f' g = true

namespace Search

open Goals

variable {G : Type*} (S : Search G)

/-- The goal holds with at most `n` expansions above one another. -/
def within : Nat → G → Bool
  | 0, g => S.given g
  | n + 1, g => S.given g || (S.expands g && S.rule (within n) g)

variable {S} {g q : G} {m n L d d' : Nat}

theorem within_of_given (hg : S.given g = true) : S.within n g = true := by
  cases n <;> simp [within, hg]

theorem within_succ_of_not_given (hg : S.given g = false) :
    S.within (n + 1) g = (S.expands g && S.rule (S.within n) g) := by
  simp [within, hg]

theorem within_of_not_expands (hg : S.given g = false) (he : S.expands g = false) :
    S.within n g = false := by
  cases n <;> simp [within, hg, he]

theorem within_succ (hg : S.within n g = true) : S.within (n + 1) g = true := by
  induction n generalizing g with
  | zero => exact within_of_given hg
  | succ n ih =>
    simp only [within, Bool.or_eq_true, Bool.and_eq_true] at hg ⊢
    rcases hg with hg | ⟨he, hr⟩
    · exact .inl hg
    · exact .inr ⟨he, S.rule_mono (fun c _ hc => ih hc) hr⟩

theorem within_mono (hmn : m ≤ n) (hg : S.within m g = true) : S.within n g = true := by
  induction hmn with
  | refl => exact hg
  | step _ ih => exact within_succ ih

theorem within_of_reach_eq_nil (hnil : S.reach n g = []) (hg : S.within m g = true) :
    S.within n g = true := by
  induction n generalizing m g with
  | zero =>
    have he : S.expands g = false := by
      by_contra he
      exact List.ne_nil_of_mem (self_mem_reach_zero (by simpa using he)) hnil
    by_contra hgiven
    rw [within_of_not_expands (by simpa [within] using hgiven) he] at hg
    exact Bool.false_ne_true hg
  | succ n ih =>
    cases m with
    | zero => exact within_of_given hg
    | succ =>
      simp only [within, Bool.or_eq_true, Bool.and_eq_true] at hg ⊢
      rcases hg with hg | ⟨he, hr⟩
      · exact .inl hg
      · refine .inr ⟨he, S.rule_mono (fun c hc hcm => ih ?_ hcm) hr⟩
        by_contra hne
        obtain ⟨q, hq⟩ := List.exists_mem_of_ne_nil _ hne
        exact List.ne_nil_of_mem (mem_reach_succ.mpr ⟨he, c, hc, hq⟩) hnil

private theorem within_eq_of_lt (hc : S.Consistent L g) (hd' : d' ≤ L) (hlt : d < d')
    (hq : q ∈ S.reach d g) (hq' : q ∈ S.reach d' g) : S.within (L - d) q = S.within (L - d') q := by
  rw [Bool.eq_iff_iff]
  constructor
  · exact within_of_reach_eq_nil (hc d' hd' d hlt q hq' hq)
  · exact within_mono (by omega)

/-- **One answer for all depths**: in a consistent search a goal that occurs at several depths
holds at all of them or at none. -/
theorem within_eq_of_consistent (hc : S.Consistent L g) (hd : d ≤ L) (hd' : d' ≤ L)
    (hq : q ∈ S.reach d g) (hq' : q ∈ S.reach d' g) : S.within (L - d) q = S.within (L - d') q := by
  rcases Nat.lt_trichotomy d d' with hlt | rfl | hlt
  · exact within_eq_of_lt hc hd' hlt hq hq'
  · rfl
  · exact (within_eq_of_lt hc hd hlt hq' hq).symm

end Search

end Commons
