import Mathlib.Algebra.Order.Ring.Int
import Mathlib.Data.List.Basic

/-!
# Runs of a step function that may refuse

A step function takes an input and a state and either moves to a new state or refuses with an error.
A run feeds it a list of inputs; a refused input leaves the state unchanged.
-/

namespace Commons

variable {σ ι ε : Type*}

variable (step : ι → σ → Except ε σ)

/-- The state after one input: unchanged when the step refuses it. -/
def advance (i : ι) (s : σ) : σ :=
  match step i s with
  | .ok s' => s'
  | .error _ => s

def run (s : σ) (l : List ι) : σ := l.foldl (fun s i => advance step i s) s

/-- `P` holds of every accepted input of the run from `s`, in the state before it. -/
def Along (P : σ → ι → Prop) : σ → List ι → Prop
  | _, [] => True
  | s, i :: l => (∀ s', step i s = .ok s' → P s i) ∧ Along P (advance step i s) l

variable {step}

variable {i : ι} {s : σ} {P Q : σ → ι → Prop} {l : List ι} {I : σ → Prop}

theorem advance_of_ok {s' : σ} (h : step i s = .ok s') : advance step i s = s' := by
  rw [advance, h]

theorem advance_of_error {e : ε} (h : step i s = .error e) : advance step i s = s := by
  rw [advance, h]

@[simp] theorem run_nil (s : σ) : run step s [] = s := rfl

@[simp] theorem run_cons (s : σ) (i : ι) (l : List ι) :
    run step s (i :: l) = run step (advance step i s) l := rfl

theorem run_append (s : σ) (l l' : List ι) :
    run step s (l ++ l') = run step (run step s l) l' := by
  simp only [run, List.foldl_append]

theorem advance_induction (I : σ → Prop) (hs : I s) (h : ∀ s', step i s = .ok s' → I s') :
    I (advance step i s) := by
  cases hi : step i s with
  | ok s' => rw [advance_of_ok hi]; exact h s' hi
  | error => rw [advance_of_error hi]; exact hs

/-- **Runs from steps**: an invariant kept by every accepted step at which `P` holds is kept by
every run along which `P` holds. -/
theorem run_induction (I : σ → Prop) (hstep : ∀ s i s', I s → P s i → step i s = .ok s' → I s')
    (hs : I s) (hP : Along step P s l) : I (run step s l) := by
  induction l generalizing s with
  | nil => exact hs
  | cons i l ih =>
    refine ih ?_ hP.2
    exact advance_induction I hs fun s' hi => hstep s i s' hs (hP.1 s' hi) hi

/-- **Runs with a clock**: an invariant that may grow weaker with time, and that every accepted step
keeps at the time of the step, holds after a run whose times do not decrease. -/
theorem run_induction_clock (T : ι → Nat) (I : Nat → σ → Prop)
    (hmono : ∀ n m s, n ≤ m → I n s → I m s)
    (hstep : ∀ s i s', I (T i) s → P s i → step i s = .ok s' → I (T i) s') {n m : Nat}
    (hs : I n s) (hP : Along step P s l) (hT : (n :: l.map T).Pairwise (· ≤ ·)) (hn : n ≤ m)
    (hm : ∀ i ∈ l, T i ≤ m) : I m (run step s l) := by
  induction l generalizing s n with
  | nil => exact hmono n m s hn hs
  | cons i l ih =>
    rw [List.map_cons, List.pairwise_cons] at hT
    rw [List.forall_mem_cons] at hm
    have hi : I (T i) s := hmono n (T i) s (hT.1 _ List.mem_cons_self) hs
    refine ih ?_ hP.2 hT.2 hm.1 hm.2
    exact advance_induction (I (T i)) hi fun s' hs' => hstep s i s' hi (hP.1 s' hs') hs'

theorem along_of_forall {P : ι → Prop} (h : ∀ i ∈ l, P i) : Along step (fun _ i => P i) s l := by
  induction l generalizing s with
  | nil => trivial
  | cons i l ih =>
    rw [List.forall_mem_cons] at h
    exact ⟨fun _ _ => h.1, ih h.2⟩

/-- What is asked of the result of a computation can be tested by running it. -/
instance decidableForallOk {x : Except ε σ} {p : σ → Prop} [DecidablePred p] :
    Decidable (∀ a, x = .ok a → p a) :=
  match x with
  | .error _ => .isTrue fun _ h => by cases h
  | .ok a => decidable_of_iff (p a) ⟨fun h _ ha => by cases ha; exact h, fun h => h a rfl⟩

instance decidableExistsOk {x : Except ε σ} : Decidable (∃ a, x = .ok a) :=
  match x with
  | .error _ => .isFalse fun ⟨_, h⟩ => by cases h
  | .ok a => .isTrue ⟨a, rfl⟩

instance decidableAlong {P : σ → ι → Prop} [∀ s i, Decidable (P s i)] :
    (s : σ) → (l : List ι) → Decidable (Along step P s l)
  | _, [] => .isTrue trivial
  | s, i :: l =>
    haveI := decidableAlong (P := P) (advance step i s) l
    inferInstanceAs (Decidable (_ ∧ _))

theorem along_true : Along step (fun _ _ => True) s l :=
  along_of_forall fun _ _ => trivial

/-- `I` holds in every state of the run from `s`, from the first to the last. -/
def Always (step : ι → σ → Except ε σ) (I : σ → Prop) (s : σ) (l : List ι) : Prop :=
  ∀ l', l' <+: l → I (run step s l')

theorem always_cons : Always step I s (i :: l) ↔ I s ∧ Always step I (advance step i s) l := by
  constructor
  · intro h
    refine ⟨h [] (List.nil_prefix), fun l' hl' => ?_⟩
    exact h (i :: l') (List.prefix_cons_inj i |>.mpr hl')
  · rintro ⟨h₁, h₂⟩ l' hl'
    cases l' with
    | nil => exact h₁
    | cons j l' =>
      obtain ⟨rfl, htail⟩ := List.cons_prefix_cons.mp hl'
      exact h₂ l' htail

/-- **Exact conditions on steps give exact conditions on runs**: if, next to a property `J` that is
kept where `I` holds, a step from a state with `I` leads to a state with `I` exactly when `P` holds
of it, then `I` holds all along a run exactly when `P` does. -/
theorem always_iff_along {J : σ → Prop} (hJ : ∀ s i s', J s → I s → step i s = .ok s' → J s')
    (hI : ∀ s i s', J s → I s → step i s = .ok s' → (I s' ↔ P s i)) (hJs : J s) (hIs : I s) :
    Always step I s l ↔ Along step P s l := by
  induction l generalizing s with
  | nil => exact ⟨fun _ => trivial, fun _ l' hl' => by rwa [List.prefix_nil.mp hl']⟩
  | cons i l ih =>
    rw [always_cons]
    have hJ' : J (advance step i s) := advance_induction J hJs fun s' hs' => hJ s i s' hJs hIs hs'
    constructor
    · rintro ⟨-, h⟩
      have hI' : I (advance step i s) := h [] List.nil_prefix
      refine ⟨fun s' hs' => (hI s i s' hJs hIs hs').mp ?_, (ih hJ' hI').mp h⟩
      rwa [advance_of_ok hs'] at hI'
    · rintro ⟨hP, h⟩
      have hI' : I (advance step i s) :=
        advance_induction I hIs fun s' hs' => (hI s i s' hJs hIs hs').mpr (hP s' hs')
      exact ⟨hIs, (ih hJ' hI').mpr h⟩

theorem Along.append {l' : List ι} (h : Along step P s (l ++ l')) :
    Along step P s l ∧ Along step P (run step s l) l' := by
  induction l generalizing s with
  | nil => exact ⟨trivial, h⟩
  | cons i l ih =>
    obtain ⟨h₁, h₂⟩ := ih h.2
    exact ⟨⟨h.1, h₁⟩, h₂⟩

/-- **Invariants of runs**: what every accepted step keeps holds in every state. -/
theorem always_induction (I : σ → Prop)
    (hstep : ∀ s i s', I s → P s i → step i s = .ok s' → I s') (hs : I s)
    (hP : Along step P s l) : Always step I s l := by
  rintro l' ⟨rest, rfl⟩
  exact run_induction I hstep hs hP.append.1

theorem Along.and (hP : Along step P s l) (hQ : Along step Q s l) :
    Along step (fun s i => P s i ∧ Q s i) s l := by
  induction l generalizing s with
  | nil => trivial
  | cons i l ih => exact ⟨fun s' h => ⟨hP.1 s' h, hQ.1 s' h⟩, ih hP.2 hQ.2⟩

theorem Along.mono (hPQ : ∀ s i s', step i s = .ok s' → P s i → Q s i) (h : Along step P s l) :
    Along step Q s l := by
  induction l generalizing s with
  | nil => trivial
  | cons i l ih => exact ⟨fun s' hs' => hPQ s i s' hs' (h.1 s' hs'), ih h.2⟩

theorem Along.of_invariant (I : σ → Prop)
    (hstep : ∀ s i s', I s → P s i → step i s = .ok s' → I s') (hQ : ∀ s i, I s → P s i → Q s i)
    (hs : I s) (h : Along step P s l) : Along step Q s l := by
  induction l generalizing s with
  | nil => trivial
  | cons i l ih =>
    refine ⟨fun s' hs' => hQ s i hs (h.1 s' hs'), ih ?_ h.2⟩
    exact advance_induction I hs fun s' hs' => hstep s i s' hs (h.1 s' hs') hs'

/-- The sum of `f` over the accepted inputs of a run. -/
def tally (step : ι → σ → Except ε σ) (f : σ → ι → σ → Int) : σ → List ι → Int
  | _, [] => 0
  | s, i :: l =>
    (match step i s with
      | .ok s' => f s i s'
      | .error _ => 0) + tally step f (advance step i s) l

theorem tally_le_tally {f g : σ → ι → σ → Int}
    (h : ∀ s i s', step i s = .ok s' → P s i → f s i s' ≤ g s i s') (hP : Along step P s l) :
    tally step f s l ≤ tally step g s l := by
  induction l generalizing s with
  | nil => exact le_rfl
  | cons i l ih =>
    refine add_le_add ?_ (ih hP.2)
    cases hi : step i s with
    | ok s' => exact h s i s' hi (hP.1 s' hi)
    | error => exact le_rfl

/-- **Telescoping**: a measure that every accepted input changes by `f` has changed by the sum of
`f` at the end of the run. -/
theorem run_eq_add_tally (m : σ → Int) {f : σ → ι → σ → Int}
    (hI : ∀ s i s', I s → P s i → step i s = .ok s' → I s')
    (hm : ∀ s i s', I s → P s i → step i s = .ok s' → m s' = m s + f s i s') (hs : I s)
    (hP : Along step P s l) : m (run step s l) = m s + tally step f s l := by
  induction l generalizing s with
  | nil => exact (add_zero _).symm
  | cons i l ih =>
    have hI' : I (advance step i s) :=
      advance_induction I hs fun s' hi => hI s i s' hs (hP.1 s' hi) hi
    rw [run_cons, ih hI' hP.2, tally]
    cases hi : step i s with
    | ok s' =>
      rw [advance_of_ok hi, hm s i s' hs (hP.1 s' hi) hi, add_assoc]
    | error => rw [advance_of_error hi, zero_add]

theorem tally_sub (f g : σ → ι → σ → Int) (s : σ) (l : List ι) :
    tally step (fun s i s' => f s i s' - g s i s') s l = tally step f s l - tally step g s l := by
  induction l generalizing s with
  | nil => rfl
  | cons i l ih =>
    rw [tally, tally, tally, ih]
    cases step i s <;> simp only <;> omega

/-! ## Ghost state -/

/-- The step function with a state beside it, which records the accepted inputs and does not
influence the step. -/
def withGhost {γ : Type*} (step : ι → σ → Except ε σ) (record : ι → γ → γ) (i : ι) (s : σ × γ) :
    Except ε (σ × γ) :=
  (step i s.1).map fun s' => (s', record i s.2)

theorem withGhost_eq_ok {γ : Type*} {record : ι → γ → γ} {s s' : σ × γ} :
    withGhost step record i s = .ok s' ↔ step i s.1 = .ok s'.1 ∧ s'.2 = record i s.2 := by
  unfold withGhost
  cases step i s.1 with
  | error => simp [Except.map]
  | ok =>
    simp only [Except.map, Except.ok.injEq, Prod.ext_iff]
    exact and_congr_right fun _ => eq_comm

theorem run_withGhost_fst {γ : Type*} (record : ι → γ → γ) (s : σ × γ) (l : List ι) :
    (run (withGhost step record) s l).1 = run step s.1 l := by
  induction l generalizing s with
  | nil => rfl
  | cons i l ih =>
    have hfst : (advance (withGhost step record) i s).1 = advance step i s.1 := by
      unfold advance withGhost
      cases step i s.1 <;> rfl
    rw [run_cons, run_cons, ih, hfst]

/-! ## Traces of a relation -/

/-- A run of a relation from `s`, with the inputs it has taken, oldest first. -/
inductive Trace (R : σ → ι → σ → Prop) (s : σ) : List ι → σ → Prop
  | nil : Trace R s [] s
  | snoc {l : List ι} {i : ι} {t t' : σ} (h : Trace R s l t) (hR : R t i t') :
    Trace R s (l ++ [i]) t'

theorem Trace.cons {R : σ → ι → σ → Prop} {t u : σ} (hR : R s i t) (h : Trace R t l u) :
    Trace R s (i :: l) u := by
  induction h with
  | nil => exact Trace.snoc Trace.nil hR
  | snoc _ hR' ih => exact Trace.snoc ih hR'

end Commons
