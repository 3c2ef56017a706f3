import Mathlib.Data.List.Basic

/-!
# Programs that may fail

A program reads an environment, reads and writes a state, and stops at the first error. What a
successful run has done is read off the program with one lemma for each construct.
-/

namespace Commons

/-! ## Computations that stop at the first error -/

section Except

universe u

variable {σ ι ε : Type*} {α β : Type u}

variable {x : Except ε α} {c : Prop} {msg : String}

theorem bind_eq_ok {f : α → Except ε β} {b : β} :
    (x >>= f) = .ok b ↔ ∃ a, x = .ok a ∧ f a = .ok b := by
  cases x with
  | error => exact ⟨fun h => (by cases h), fun ⟨_, h, _⟩ => (by cases h)⟩
  | ok a => exact ⟨fun h => ⟨a, rfl, h⟩, fun ⟨_, h, h'⟩ => (by cases h; exact h')⟩

theorem ok_bind (a : α) (f : α → Except ε β) : (Except.ok a >>= f) = f a := rfl

theorem pure_eq_ok {a b : α} : (pure a : Except ε α) = .ok b ↔ b = a :=
  ⟨fun h => (Except.ok.inj h).symm, fun h => congrArg Except.ok h.symm⟩

theorem map_eq_ok {f : α → β} {b : β} : x.map f = .ok b ↔ ∃ a, x = .ok a ∧ f a = b := by
  cases x with
  | error => exact ⟨fun h => (by cases h), fun ⟨_, h, _⟩ => (by cases h)⟩
  | ok a =>
    exact ⟨fun h => ⟨a, rfl, Except.ok.inj h⟩, fun ⟨_, h, h'⟩ => (by cases h; cases h'; rfl)⟩

theorem exists_ok_of_any {p : α → Bool} (h : x.toOption.any p = true) :
    ∃ a, x = .ok a ∧ p a = true := by
  cases x with
  | error => cases h
  | ok a => exact ⟨a, rfl, h⟩

theorem forM_eq_ok {f : α → Except ε Unit} {l : List α} {u : Unit} :
    l.forM f = .ok u ↔ ∀ a ∈ l, f a = .ok () := by
  induction l with
  | nil => simp [List.forM_nil, pure_eq_ok]
  | cons a l ih =>
    show (f a >>= fun _ => l.forM f) = .ok u ↔ _
    rw [bind_eq_ok, List.forall_mem_cons, ← ih]
    exact ⟨fun ⟨_, ha, hl⟩ => ⟨ha, hl⟩, fun ⟨ha, hl⟩ => ⟨(), ha, hl⟩⟩

theorem foldlM_induction {f : σ → ι → Except ε σ} (P : σ → Prop) {l : List ι}
    (step : ∀ i ∈ l, ∀ s s', f s i = .ok s' → P s → P s') {s s' : σ}
    (h : l.foldlM f s = .ok s') (hs : P s) : P s' := by
  induction l generalizing s with
  | nil =>
    obtain rfl : s = s' := by simpa [pure, Except.pure] using h
    exact hs
  | cons i l ih =>
    rw [List.foldlM_cons, bind_eq_ok] at h
    obtain ⟨s₁, h₁, h₂⟩ := h
    exact ih (fun j hj => step j (List.mem_cons_of_mem _ hj)) h₂
      (step i List.mem_cons_self s s₁ h₁ hs)

/-- An assertion: its message when it fails. -/
def check (c : Prop) [Decidable c] (msg : String) : Except String Unit :=
  if c then .ok () else .error msg

@[simp] theorem check_fails [Decidable c] : (∃ e, check c msg = .error e) ↔ ¬ c := by
  unfold check
  split_ifs with h
  · simp [h]
  · simp [h]

theorem check_eq_ok [Decidable c] {u : Unit} : check c msg = .ok u ↔ c := by
  unfold check
  split_ifs with h
  · exact ⟨fun _ => h, fun _ => rfl⟩
  · exact ⟨fun e => (by cases e), fun h' => absurd h' h⟩

theorem ok_iff :
    (∀ (α β ε : Type) (x : Except ε α) (f : α → Except ε β) (b : β),
      (x >>= f) = .ok b ↔ ∃ a, x = .ok a ∧ f a = .ok b) ∧
    (∀ (α ε : Type) (a b : α), (pure a : Except ε α) = .ok b ↔ b = a) ∧
    (∀ (p : Prop) [Decidable p] (msg : String) (u : Unit), check p msg = .ok u ↔ p) ∧
    ∀ p : Unit → Prop, (∃ u, p u) ↔ p () :=
  ⟨fun _ _ _ _ _ _ => bind_eq_ok, fun _ _ _ _ => pure_eq_ok, fun _ _ _ _ => check_eq_ok,
    fun _ => ⟨fun ⟨_, h⟩ => h, fun h => ⟨(), h⟩⟩⟩

/-! ### Errors that do not occur -/

variable {l : List ε} {x : Except ε α}

/-- The computation does not stop with one of the errors `l`. -/
def Avoids (l : List ε) (x : Except ε α) : Prop := ∀ m, x = .error m → m ∉ l

@[simp] theorem avoids_ok (a : α) : Avoids l (.ok a) := fun _ h => by cases h

@[simp] theorem avoids_pure (a : α) : Avoids l (pure a) := avoids_ok a

@[simp] theorem avoids_error {m : ε} : Avoids l (.error m : Except ε α) ↔ m ∉ l := by
  constructor
  · exact fun h => h m rfl
  · rintro h _ ⟨⟩
    exact h

@[simp] theorem avoids_bind {f : α → Except ε β} :
    Avoids l (x >>= f) ↔ Avoids l x ∧ ∀ a, x = .ok a → Avoids l (f a) := by
  cases x with
  | error m =>
    show Avoids l (.error m : Except ε β) ↔ _
    simp
  | ok a =>
    show Avoids l (f a) ↔ _
    simp

@[simp] theorem avoids_map {f : α → β} : Avoids l (f <$> x) ↔ Avoids l x := by
  cases x <;> simp [Functor.map, Except.map]

@[simp] theorem avoids_check [Decidable c] {l : List String} :
    Avoids l (check c msg) ↔ c ∨ msg ∉ l := by
  unfold check
  split_ifs with h <;> simp [h]

/-- Whether a computation avoids errors can be tested by running it. -/
instance decidableAvoids [DecidableEq ε] : Decidable (Avoids l x) :=
  match x with
  | .ok a => .isTrue (avoids_ok a)
  | .error m => decidable_of_iff (m ∉ l) avoids_error.symm

theorem avoids_foldlM {f : α → ι → Except ε α} {is : List ι}
    (hf : ∀ i ∈ is, ∀ a, Avoids l (f a i)) (a : α) : Avoids l (is.foldlM f a) := by
  induction is generalizing a with
  | nil => exact avoids_pure a
  | cons i is ih =>
    rw [List.foldlM_cons]
    rw [List.forall_mem_cons] at hf
    exact avoids_bind.mpr ⟨hf.1 a, fun a' _ => ih hf.2 a'⟩

end Except

/-! ## Programs -/

variable {ρ σ : Type}

/-- A program that reads an environment, reads and writes a state, and may fail. -/
def Program (ρ σ α : Type) : Type := ρ → σ → Except String (α × σ)

namespace Program

instance : Monad (Program ρ σ) where
  pure a := fun _ c => .ok (a, c)
  bind x f := fun e c => x e c >>= fun r => f r.1 e r.2

instance : MonadLift (Except String) (Program ρ σ) where
  monadLift x := fun _ c => x >>= fun a => .ok (a, c)

def fail {α : Type} (msg : String) : Program ρ σ α := fun _ _ => .error msg

/-- Code that runs only under a condition. -/
def whenever (p : Prop) [Decidable p] (x : Program ρ σ Unit) : Program ρ σ Unit :=
  if p then x else pure ()

variable {α β : Type} {e : ρ} {c c' : σ}

variable {x : Program ρ σ α} {f : α → Program ρ σ β} {a : α}

theorem bind_eq_ok {b : β} :
    (x >>= f) e c = .ok (b, c') ↔
      ∃ a c₁, x e c = .ok (a, c₁) ∧ f a e c₁ = .ok (b, c') := by
  show (x e c >>= fun r => f r.1 e r.2) = _ ↔ _
  rw [Commons.bind_eq_ok]
  constructor
  · rintro ⟨⟨a, c₁⟩, hx, hf⟩
    exact ⟨a, c₁, hx, hf⟩
  · rintro ⟨a, c₁, hx, hf⟩
    exact ⟨(a, c₁), hx, hf⟩

theorem bind_of_ok (h : x e c = .ok (a, c')) : (x >>= f) e c = f a e c' := by
  show (x e c >>= fun r => f r.1 e r.2) = _
  rw [h]
  rfl

theorem bind_of_error {m : String} (h : x e c = .error m) : (x >>= f) e c = .error m := by
  show (x e c >>= fun r => f r.1 e r.2) = _
  rw [h]
  rfl

theorem lift_of_error {x : Except String α} {m : String} (h : x = .error m) :
    (liftM x : Program ρ σ α) e c = .error m := by
  show (x >>= fun a => Except.ok (a, c)) = _
  rw [h]
  rfl

theorem exists_unit {p : Unit → Prop} : (∃ u, p u) ↔ p () :=
  ⟨fun ⟨_, h⟩ => h, fun h => ⟨(), h⟩⟩

theorem pure_eq_ok {b : α} : (pure a : Program ρ σ α) e c = .ok (b, c') ↔ b = a ∧ c' = c := by
  show Except.ok (a, c) = Except.ok (b, c') ↔ _
  rw [Except.ok.injEq, Prod.mk.injEq, eq_comm, eq_comm (a := c)]

theorem lift_eq_ok {x : Except String α} :
    (liftM x : Program ρ σ α) e c = .ok (a, c') ↔ x = .ok a ∧ c' = c := by
  show (x >>= fun a => Except.ok (a, c)) = _ ↔ _
  rw [Commons.bind_eq_ok]
  constructor
  · rintro ⟨b, hx, hb⟩
    cases hb
    exact ⟨hx, rfl⟩
  · rintro ⟨hx, rfl⟩
    exact ⟨a, hx, rfl⟩

@[simp] theorem fail_ne_ok {msg : String} :
    ¬ (fail msg : Program ρ σ α) e c = .ok (a, c') := fun h => by cases h

theorem ite_run (p : Prop) [Decidable p] (x y : Program ρ σ α) :
    (if p then x else y) e c = if p then x e c else y e c := by
  split_ifs <;> rfl

theorem whenever_eq_ok {p : Prop} [Decidable p] {x : Program ρ σ Unit} {u : Unit} :
    whenever p x e c = .ok (u, c') ↔ (p ∧ x e c = .ok (u, c')) ∨ (¬ p ∧ c' = c) := by
  unfold whenever
  rw [ite_run]
  split_ifs with h
  · simp [h]
  · rw [pure_eq_ok]
    simp [h]

theorem ran_iff :
    (∀ (ρ σ α β : Type) (x : Program ρ σ α) (f : α → Program ρ σ β) b e c c',
      (x >>= f) e c = .ok (b, c') ↔ ∃ a c₁, x e c = .ok (a, c₁) ∧ f a e c₁ = .ok (b, c')) ∧
    (∀ (ρ σ α : Type) (a b : α) e c c',
      (pure a : Program ρ σ α) e c = .ok (b, c') ↔ b = a ∧ c' = c) ∧
    (∀ (ρ σ α : Type) (x : Except String α) a e c c',
      (liftM x : Program ρ σ α) e c = .ok (a, c') ↔ x = .ok a ∧ c' = c) ∧
    (∀ p : Unit → Prop, (∃ u, p u) ↔ p ()) ∧ (∀ p q r : Prop, (p ∧ q) ∧ r ↔ p ∧ q ∧ r) ∧
    (∀ (α : Type) (q : Prop) (p : α → Prop), (∃ x, q ∧ p x) ↔ q ∧ ∃ x, p x) ∧
    ∀ (α : Type) (a : α) (p : α → Prop), (∃ x, x = a ∧ p x) ↔ p a :=
  ⟨fun _ _ _ _ _ _ _ _ _ _ => bind_eq_ok, fun _ _ _ _ _ _ _ _ => pure_eq_ok,
    fun _ _ _ _ _ _ _ _ => lift_eq_ok, fun _ => exists_unit, fun _ _ _ => and_assoc,
    fun _ _ _ => exists_and_left, fun _ _ _ => exists_eq_left⟩

/-! ## Moving along a preorder -/

section Moves

variable {R : σ → σ → Prop} {x y : Program ρ σ α} {f : α → Program ρ σ β}

/-- A successful run leads from the state to one related by `R`. -/
def Moves (R : σ → σ → Prop) (x : Program ρ σ α) (e : ρ) (c : σ) : Prop :=
  ∀ a c', x e c = .ok (a, c') → R c c'

theorem moves_bind [IsTrans σ R] (hx : Moves R x e c)
    (hf : ∀ a c₁, x e c = .ok (a, c₁) → Moves R (f a) e c₁) : Moves R (x >>= f) e c := by
  intro b c' h
  obtain ⟨a, c₁, h₁, h₂⟩ := bind_eq_ok.mp h
  exact Trans.trans (hx a c₁ h₁) (hf a c₁ h₁ b c' h₂)

theorem moves_bind_iff {p : α → Prop} (hx : ∀ {a c₁}, x e c = .ok (a, c₁) ↔ p a ∧ c₁ = c) :
    Moves R (x >>= f) e c ↔ ∀ a, p a → Moves R (f a) e c := by
  constructor
  · intro h a ha b c' hb
    exact h b c' (bind_eq_ok.mpr ⟨a, c, hx.mpr ⟨ha, rfl⟩, hb⟩)
  · intro h b c' hb
    obtain ⟨a, c₁, h₁, h₂⟩ := bind_eq_ok.mp hb
    obtain ⟨ha, rfl⟩ := hx.mp h₁
    exact h a ha b c' h₂

theorem moves_of_reads [Std.Refl R] {p : α → Prop}
    (hx : ∀ {a c₁}, x e c = .ok (a, c₁) ↔ p a ∧ c₁ = c) : Moves R x e c := by
  intro a c' h
  rw [(hx.mp h).2]
  exact refl c

theorem moves_ite {p : Prop} [Decidable p] :
    Moves R (if p then x else y) e c ↔ (p → Moves R x e c) ∧ (¬ p → Moves R y e c) := by
  split_ifs with h <;> simp [h]

theorem moves_pure [Std.Refl R] (a : α) : Moves R (pure a : Program ρ σ α) e c :=
  moves_of_reads pure_eq_ok

theorem moves_fail (msg : String) : Moves R (fail msg : Program ρ σ α) e c :=
  fun _ _ h => absurd h fail_ne_ok

theorem moves_whenever [Std.Refl R] {p : Prop} [Decidable p] {x : Program ρ σ Unit}
    (hx : p → Moves R x e c) : Moves R (whenever p x) e c :=
  moves_ite.mpr ⟨hx, fun _ => moves_pure ()⟩

theorem moves_iff :
    (∀ (ρ σ α β : Type) (R : σ → σ → Prop) (x : Except String α) (f : α → Program ρ σ β) e c,
      Moves R ((liftM x : Program ρ σ α) >>= f) e c ↔ ∀ a, x = .ok a → Moves R (f a) e c) ∧
    (∀ (ρ σ α : Type) (R : σ → σ → Prop) [Std.Refl R] (x : Except String α) (e : ρ) (c : σ),
      Moves R (liftM x : Program ρ σ α) e c ↔ True) ∧
    (∀ (ρ σ α : Type) (R : σ → σ → Prop) [Std.Refl R] (a : α) (e : ρ) (c : σ),
      Moves R (pure a : Program ρ σ α) e c ↔ True) ∧
    (∀ (ρ σ α : Type) (R : σ → σ → Prop) (msg : String) (e : ρ) (c : σ),
      Moves R (fail msg : Program ρ σ α) e c ↔ True) ∧
    (∀ (ρ σ α : Type) (R : σ → σ → Prop) (p : Prop) [Decidable p] (x y : Program ρ σ α) e c,
      Moves R (if p then x else y) e c ↔ (p → Moves R x e c) ∧ (¬ p → Moves R y e c)) ∧
    (∀ (ρ σ : Type) (R : σ → σ → Prop) [Std.Refl R] (p : Prop) [Decidable p]
      (x : Program ρ σ Unit) (e : ρ) (c : σ), Moves R (whenever p x) e c ↔ (p → Moves R x e c)) ∧
    (∀ α : Type, (α → True) ↔ True) ∧ (∀ p : Prop, (p → True) ↔ True) ∧ ∀ p, p ∧ True ↔ p :=
  ⟨fun _ _ _ _ _ _ _ _ _ => moves_bind_iff lift_eq_ok,
    fun _ _ _ _ _ _ _ _ => iff_true_intro (moves_of_reads lift_eq_ok),
    fun _ _ _ _ _ _ _ _ => iff_true_intro (moves_pure _),
    fun _ _ _ _ _ _ _ => iff_true_intro (moves_fail _),
    fun _ _ _ _ _ _ _ _ _ _ => moves_ite,
    fun _ _ _ _ _ _ _ _ _ => moves_ite.trans (and_iff_left fun _ => moves_pure ()),
    by simp, by simp, by simp⟩

end Moves

/-! ## Errors that do not occur -/

section Avoids

variable {l : List String} {x y : Program ρ σ α} {f : α → Program ρ σ β}

@[simp] theorem avoids_bind : Avoids l ((x >>= f) e c) ↔
    Avoids l (x e c) ∧ ∀ a c₁, x e c = .ok (a, c₁) → Avoids l (f a e c₁) :=
  Commons.avoids_bind.trans (and_congr_right fun _ => Prod.forall)

@[simp] theorem avoids_pure (a : α) : Avoids l ((pure a : Program ρ σ α) e c) := avoids_ok (a, c)

@[simp] theorem avoids_lift {x : Except String α} :
    Avoids l ((liftM x : Program ρ σ α) e c) ↔ Avoids l x :=
  Commons.avoids_bind.trans (and_iff_left fun a _ => avoids_ok (a, c))

@[simp] theorem avoids_fail {msg : String} :
    Avoids l ((fail msg : Program ρ σ α) e c) ↔ msg ∉ l := avoids_error

@[simp] theorem avoids_ite {p : Prop} [Decidable p] : Avoids l ((if p then x else y) e c) ↔
    (p → Avoids l (x e c)) ∧ (¬ p → Avoids l (y e c)) := by
  rw [ite_run]
  split_ifs with h <;> simp [h]

@[simp] theorem avoids_whenever {p : Prop} [Decidable p] {x : Program ρ σ Unit} :
    Avoids l (whenever p x e c) ↔ (p → Avoids l (x e c)) :=
  avoids_ite.trans (and_iff_left fun _ => avoids_pure ())

end Avoids

end Program

end Commons
