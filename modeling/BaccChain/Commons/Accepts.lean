import BaccChain.Commons.Program

/-!
# Programs that accept more

Of two variants of a program, the second accepts what the first accepts if it returns whatever the
first returns. That is kept by sequences of steps, and a step that only checks may be left out.
-/

namespace Commons

variable {ε α β : Type}

def Accepts (x y : Except ε α) : Prop := ∀ a, x = .ok a → y = .ok a

namespace Accepts

variable {x y : Except ε α}

theorem refl (x : Except ε α) : Accepts x x := fun _ h => h

theorem of_error (e : ε) : Accepts (.error e) y := fun _ h => by cases h

theorem bind {f g : α → Except ε β} (hx : Accepts x y) (hf : ∀ a, x = .ok a → Accepts (f a) (g a)) :
    Accepts (x >>= f) (y >>= g) := by
  intro b hb
  obtain ⟨a, ha, hfa⟩ := bind_eq_ok.mp hb
  rw [hx a ha, ok_bind]
  exact hf a ha b hfa

theorem seq {x y : Except ε Unit} {f g : Unit → Except ε β} (hx : Accepts x y)
    (hf : Accepts (f ()) (g ())) : Accepts (x >>= f) (y >>= g) :=
  hx.bind fun _ _ => hf

theorem skip (x : Except ε Unit) : Accepts x (pure ()) := fun _ _ => rfl

theorem check {p q : Prop} [Decidable p] [Decidable q] (msg msg' : String) (h : p → q) :
    Accepts (Commons.check p msg) (Commons.check q msg') := by
  intro u hu
  exact check_eq_ok.mpr (h (check_eq_ok.mp hu))

theorem whenever {p q : Prop} [Decidable p] [Decidable q] {x y : Except ε Unit} (hpq : q → p)
    (hxy : Accepts x y) : Accepts (if p then x else pure ()) (if q then y else pure ()) := by
  by_cases hq : q
  · rw [if_pos hq, if_pos (hpq hq)]
    exact hxy
  · rw [if_neg hq]
    exact skip _

end Accepts

end Commons
