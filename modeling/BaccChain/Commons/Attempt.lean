import BaccChain.Commons.Program

/-!
# Programs whose writes survive an error

A program in memory that throws keeps what it has written up to the error, and whoever catches the
error goes on from there. What such programs do to an invariant is read off their constructs.
-/

namespace Commons

/-- A program that reads and writes a state and may stop with an error, after which the state is as
it was left. -/
def Attempt (σ α : Type) : Type := σ → Except String α × σ

namespace Attempt

variable {σ α β : Type}

instance : Monad (Attempt σ) where
  pure a := fun s => (.ok a, s)
  bind x f := fun s =>
    match x s with
    | (.ok a, s') => f a s'
    | (.error e, s') => (.error e, s')

instance : MonadLift (Except String) (Attempt σ) where
  monadLift x := fun s => (x, s)

def read : Attempt σ σ := fun s => (.ok s, s)

def update (f : σ → σ) : Attempt σ Unit := fun s => (.ok (), f s)

def throws (e : String) : Attempt σ α := fun s => (.error e, s)

/-- The handler goes on from the state that the error left. -/
def catching (x : Attempt σ α) (handler : String → Attempt σ α) : Attempt σ α := fun s =>
  match x s with
  | (.ok a, s') => (.ok a, s')
  | (.error e, s') => handler e s'

/-- The program on each element, up to the first error. -/
def each (f : β → Attempt σ Unit) : List β → Attempt σ Unit
  | [] => pure ()
  | b :: l => do
    f b
    each f l

variable {x y : Attempt σ α} {f : α → Attempt σ β} {s s' : σ}

variable {a : α} {e : String} {r : Except String α} {handler : String → Attempt σ α}

theorem bind_of_ok (h : x s = (.ok a, s')) : (x >>= f) s = f a s' := by
  show (match x s with
    | (.ok a, s') => f a s'
    | (.error e, s') => (.error e, s')) = _
  rw [h]

theorem bind_of_error (h : x s = (.error e, s')) : (x >>= f) s = (.error e, s') := by
  show (match x s with
    | (.ok a, s') => f a s'
    | (.error e, s') => (.error e, s')) = _
  rw [h]

@[simp] theorem read_bind (f : σ → Attempt σ β) : (read >>= f) s = f s s := rfl

@[simp] theorem update_bind (g : σ → σ) (f : Unit → Attempt σ β) :
    (update g >>= f) s = f () (g s) := rfl

theorem lift_bind_of_ok (h : r = .ok a) : ((liftM r : Attempt σ α) >>= f) s = f a s := by
  rw [h]
  rfl

theorem lift_bind_of_error (h : r = .error e) :
    ((liftM r : Attempt σ α) >>= f) s = (.error e, s) := by
  rw [h]
  rfl

/-! ## What has succeeded -/

variable {b : β}

theorem bind_eq_ok :
    (x >>= f) s = (.ok b, s') ↔ ∃ a s₁, x s = (.ok a, s₁) ∧ f a s₁ = (.ok b, s') := by
  rcases hx : x s with ⟨r, s₁⟩
  cases r with
  | error =>
    rw [bind_of_error hx]
    simp
  | ok =>
    rw [bind_of_ok hx]
    simp

variable {g : σ → σ}

@[simp] theorem lift_eq_ok : (liftM r : Attempt σ α) s = (.ok a, s') ↔ r = .ok a ∧ s' = s := by
  show (r, s) = (.ok a, s') ↔ _
  simp [eq_comm]

@[simp] theorem update_eq_ok {u : Unit} : update g s = (.ok u, s') ↔ s' = g s := by
  simp [update, eq_comm]

@[simp] theorem throws_ne_ok : ¬ throws e s = (.ok a, s') := by
  simp [throws]

@[simp] theorem pure_eq_ok {b : α} : (pure a : Attempt σ α) s = (.ok b, s') ↔ b = a ∧ s' = s := by
  show (Except.ok a, s) = (Except.ok b, s') ↔ _
  simp [eq_comm]

/-! ## What has failed -/

theorem catching_of_ok (h : x s = (.ok a, s')) : x.catching handler s = (.ok a, s') := by
  rw [catching, h]

theorem catching_of_error (h : x s = (.error e, s')) : x.catching handler s = handler e s' := by
  rw [catching, h]

theorem each_append_of_ok {f : β → Attempt σ Unit} {l : List β} (h : each f l s = (.ok (), s')) :
    each f (l ++ [b]) s = f b s' := by
  induction l generalizing s with
  | nil =>
    obtain ⟨-, rfl⟩ := pure_eq_ok.mp h
    show (f b >>= fun _ => Pure.pure ()) _ = _
    rcases hb : f b s' with ⟨_ | _, s₁⟩
    · rw [bind_of_error hb]
    · rw [bind_of_ok hb]
      rfl
  | cons c l ih =>
    obtain ⟨_, s₁, hc, hl⟩ := bind_eq_ok.mp h
    exact (bind_of_ok hc).trans (ih hl)

/-- The program leads from `s` to the result `r`, and has written nothing if that is an error. -/
def Atomic (x : Attempt σ Unit) (s : σ) (r : Except String σ) : Prop :=
  x s = match r with
    | .ok s' => (.ok (), s')
    | .error e => (.error e, s)

theorem Atomic.lift_bind {f : α → Attempt σ Unit} {g : α → Except String σ}
    (h : ∀ a, (f a).Atomic s (g a)) : (liftM r >>= f : Attempt σ Unit).Atomic s (r >>= g) := by
  cases r with
  | error => rfl
  | ok a => exact h a

theorem ite_run (p : Prop) [Decidable p] : (if p then x else y) s = if p then x s else y s := by
  split_ifs <;> rfl

/-! ## Invariants -/

/-- The program keeps an invariant, whether it succeeds or stops with an error. -/
def Keeps (I : σ → Prop) (x : Attempt σ α) : Prop := ∀ s, I s → I (x s).2

namespace Keeps

variable {I : σ → Prop}

theorem pure (a : α) : Keeps I (Pure.pure a : Attempt σ α) := fun _ h => h

theorem lift (r : Except String α) : Keeps I (liftM r : Attempt σ α) := fun _ h => h

theorem throws (e : String) : Keeps I (Attempt.throws e : Attempt σ α) := fun _ h => h

theorem update (h : ∀ s, I s → I (g s)) : Keeps I (Attempt.update g) := h

theorem bind_of_left (h : I (x s).2) (hf : ∀ a, Keeps I (f a)) : I ((x >>= f) s).2 := by
  rcases hxs : x s with ⟨r, s'⟩
  rw [hxs] at h
  cases r with
  | ok a => rw [bind_of_ok hxs]; exact hf a s' h
  | error => rw [bind_of_error hxs]; exact h

theorem bind (hx : Keeps I x) (hf : ∀ a, Keeps I (f a)) : Keeps I (x >>= f) :=
  fun s hs => bind_of_left (hx s hs) hf

theorem read_bind {f : σ → Attempt σ β} (hf : ∀ s, I s → I (f s s).2) : Keeps I (read >>= f) := hf

theorem catching (hx : Keeps I x) (hh : ∀ e, Keeps I (handler e)) :
    Keeps I (x.catching handler) := by
  intro s hs
  have h := hx s hs
  unfold Attempt.catching
  rcases hxs : x s with ⟨r, s'⟩
  rw [hxs] at h
  cases r with
  | ok => exact h
  | error e => exact hh e s' h

theorem ite {p : Prop} [Decidable p] (hx : p → Keeps I x) (hy : ¬ p → Keeps I y) :
    Keeps I (if p then x else y) := by
  split_ifs with h
  · exact hx h
  · exact hy h

theorem each {f : β → Attempt σ Unit} (h : ∀ b, Keeps I (f b)) (l : List β) :
    Keeps I (Attempt.each f l) := by
  induction l with
  | nil => exact pure ()
  | cons b l ih => exact bind (h b) fun _ => ih

end Keeps

end Attempt

end Commons
