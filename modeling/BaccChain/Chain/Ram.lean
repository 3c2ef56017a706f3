import BaccChain.Chain.ApplyContext

/-!
# RAM billed to an account

Rules by which one shows that some code does not bill more RAM to a given account: one for each
intrinsic, to be put together with the rules for programs.
-/

namespace BaccChain

open Commons.Program

/-! ## Code that starts by reading -/

theorem reads_iff :
    (∀ (β : Type) (R : Ctx → Ctx → Prop) (n : Name) (f : Unit → ContractM β) e c,
      Moves R (requireAuth n >>= f) e c ↔ (e.HasAuth n → Moves R (f ()) e c)) ∧
    (∀ (β : Type) (R : Ctx → Ctx → Prop) (p : Prop) [Decidable p] (msg : String)
      (f : Unit → ContractM β) (e : Env) (c : Ctx),
      Moves R (eosioAssert p msg >>= f) e c ↔ (p → Moves R (f ()) e c)) ∧
    (∀ (R : Ctx → Ctx → Prop) [Std.Refl R] (p : Prop) [Decidable p] (msg : String) (e : Env)
      (c : Ctx), Moves R (eosioAssert p msg) e c ↔ True) ∧
    (∀ (β : Type) (R : Ctx → Ctx → Prop) (f : Nat → ContractM β) e c,
      Moves R (currentBlockNum >>= f) e c ↔ Moves R (f e.world.blockNum) e c) ∧
    (∀ (β : Type) (R : Ctx → Ctx → Prop) (f : Nat → ContractM β) e c,
      Moves R (currentTime >>= f) e c ↔ Moves R (f e.world.now) e c) ∧
    (∀ (σ α β : Type) [LinearOrder σ] (T : TableRef σ α) (R : Ctx → Ctx → Prop)
      (f : MultiIndex σ α → ContractM β) e c,
      Moves R (readTable T >>= f) e c ↔ Moves R (f (T.get c.db)) e c) ∧
    (∀ (σ α β : Type) [LinearOrder σ] (T : TableRef σ α) scope pk (R : Ctx → Ctx → Prop)
      (f : Option α → ContractM β) e c, Moves R (findRow T scope pk >>= f) e c ↔
        ((T.get c.db).find scope pk = none → Moves R (f none) e c) ∧
          ∀ a, (T.get c.db).find scope pk = some a → Moves R (f (some a)) e c) ∧
    ∀ (σ α β : Type) [LinearOrder σ] (T : TableRef σ α) scope pk msg (R : Ctx → Ctx → Prop)
      (f : α → ContractM β) e c, Moves R (getRow T scope pk msg >>= f) e c ↔
        ∀ a, (T.get c.db).find scope pk = some a → Moves R (f a) e c := by
  refine ⟨fun _ _ _ _ _ _ => (moves_bind_iff requireAuth_eq_ok).trans Unique.forall_iff,
    fun _ _ _ _ _ _ _ _ => (moves_bind_iff eosioAssert_eq_ok).trans Unique.forall_iff,
    fun _ _ _ _ _ _ _ => iff_true_intro (moves_of_reads eosioAssert_eq_ok),
    fun _ _ _ _ _ => (moves_bind_iff currentBlockNum_eq_ok).trans forall_eq,
    fun _ _ _ _ _ => (moves_bind_iff currentTime_eq_ok).trans forall_eq,
    fun _ _ _ _ _ _ _ _ _ => (moves_bind_iff readTable_eq_ok).trans forall_eq,
    fun _ _ _ _ _ _ _ _ _ _ _ => (moves_bind_iff findRow_eq_ok).trans ?_,
    fun _ _ _ _ _ _ _ _ _ _ _ _ => moves_bind_iff getRow_eq_ok⟩
  simp only [Option.forall, eq_comm]

/-! ## RAM -/

def Ctx.ram (c : Ctx) (account : Name) : Int :=
  ((c.ramDeltas.filter fun d => d.1 = account).map (·.2)).sum

namespace Billed

def Le (account : Name) (c c' : Ctx) : Prop := c'.ram account ≤ c.ram account

instance (account : Name) : Std.Refl (Le account) := ⟨fun _ => le_rfl⟩
instance (account : Name) : IsTrans Ctx (Le account) := ⟨fun _ _ _ h h' => h'.trans h⟩

variable {A : Name} {e : Env} {c c' : Ctx} {u : Unit}

theorem ram_append (c : Ctx) (payer A : Name) (delta : Int) :
    ({ c with ramDeltas := c.ramDeltas ++ [(payer, delta)] } : Ctx).ram A =
      c.ram A + if payer = A then delta else 0 := by
  by_cases h : payer = A
  · simp [Ctx.ram, h]
  · simp [Ctx.ram, h]

theorem updateDbUsage_ram {payer : Name} {delta : Int}
    (h : updateDbUsage payer delta e c = .ok (u, c')) :
    c'.ram A = c.ram A + if payer = A then delta else 0 := by
  rw [updateDbUsage_eq_ok h, ram_append]

theorem updateDbUsage {payer : Name} {delta : Int} (h : payer ≠ A ∨ delta ≤ 0) :
    Moves (Le A) (updateDbUsage payer delta) e c := by
  intro _ c' hc'
  have hram := updateDbUsage_ram (A := A) hc'
  show c'.ram A ≤ c.ram A
  split_ifs at hram with hp
  · have := h.resolve_left (not_not.mpr hp)
    omega
  · omega

theorem executeInline (a : Action) : Moves (Le A) (executeInline a) e c := by
  intro _ c' h
  rw [executeInline_eq_ok h]
  exact le_rfl

variable {σ α : Type} [LinearOrder σ] {T : TableRef σ α} {scope : σ} {pk payer : Name} {a : α}

theorem writeTable (t : MultiIndex σ α) : Moves (Le A) (writeTable T t) e c := by
  rintro _ _ ⟨rfl⟩
  exact le_rfl

variable [PackSize α]

theorem emplace (h : payer ≠ A) : Moves (Le A) (emplace T scope payer pk a) e c := by
  simp only [BaccChain.emplace, reads_iff]
  refine moves_bind (moves_whenever fun _ => updateDbUsage (Or.inl h)) fun _ c₁ _ => ?_
  simp only [reads_iff]
  intro _ _
  exact moves_bind (writeTable _) fun _ c₂ _ => updateDbUsage (Or.inl h)

theorem billUpdate {row : Row α}
    (h : payer ≠ A ∨ (row.payer = payer ∧ packSize a ≤ packSize row.value)) :
    Moves (Le A) (billUpdate row payer a) e c := by
  simp only [BaccChain.billUpdate, moves_iff, not_not]
  refine ⟨fun hpayer => ?_, fun hpayer _ => ?_⟩
  · have hne : payer ≠ A := h.resolve_right fun h' => hpayer h'.1
    refine moves_bind (updateDbUsage (Or.inr ?_)) fun _ c₁ _ => updateDbUsage (Or.inl hne)
    unfold keyValueBytes
    omega
  · apply updateDbUsage
    rcases h with h | ⟨-, hsize⟩
    · exact Or.inl (hpayer ▸ h)
    · refine Or.inr ?_
      omega

theorem dbUpdate (h : ∀ row, (T.get c.db).findRow scope pk = some row →
      newPayer payer row ≠ A ∨
        (row.payer = newPayer payer row ∧ packSize a ≤ packSize row.value)) :
    Moves (Le A) (dbUpdate T scope pk payer a) e c := by
  simp only [BaccChain.dbUpdate, reads_iff]
  cases hrow : (T.get c.db).findRow scope pk with
  | none => exact moves_fail _
  | some row => exact moves_bind (billUpdate (h row hrow)) fun _ c₁ _ => writeTable _

variable {updater : α → ContractM α}

theorem modifyRow_of_payer (h₀ : payer ≠ 0) (h : payer ≠ A)
    (hu : ∀ b, Moves (Le A) (updater b) e c) :
    Moves (Le A) (modifyRow T scope pk payer updater) e c := by
  simp only [BaccChain.modifyRow, reads_iff]
  refine fun b _ => moves_bind (hu b) fun b' c₁ _ => dbUpdate fun row _ => ?_
  left
  rw [newPayer, if_neg h₀]
  exact h

theorem modifyRow_of_updater
    (hu : ∀ b b' c₁, (T.get c.db).find scope pk = some b → updater b e c = .ok (b', c₁) →
      Le A c c₁ ∧ (T.get c₁.db).findRow scope pk = (T.get c.db).findRow scope pk ∧
        packSize b' ≤ packSize b) : Moves (Le A) (modifyRow T scope pk 0 updater) e c := by
  simp only [BaccChain.modifyRow, reads_iff]
  refine fun b hb => moves_bind (fun b' c₁ h₁ => (hu b b' c₁ hb h₁).1) fun b' c₁ h₁ => ?_
  obtain ⟨-, hkeep, hsize⟩ := hu b b' c₁ hb h₁
  apply dbUpdate
  intro row hrow
  obtain ⟨p, hp⟩ := MultiIndex.find_eq_some_iff.mp hb
  obtain rfl : row = ⟨p, b⟩ := Option.some.inj ((hrow.symm.trans hkeep).trans hp)
  exact Or.inr ⟨rfl, hsize⟩

theorem modifyRow_of_reads (hreads : ∀ b, Moves Eq (updater b) e c)
    (hsize : ∀ b b', updater b e c = .ok (b', c) → packSize b' ≤ packSize b) :
    Moves (Le A) (modifyRow T scope pk 0 updater) e c := by
  apply modifyRow_of_updater
  intro b b' c₁ _ h₁
  obtain rfl := hreads b b' c₁ h₁
  exact ⟨le_rfl, rfl, hsize b b' h₁⟩

theorem modifyRow {updater : α → Except String α}
    (hsize : ∀ b b', updater b = .ok b' → packSize b' ≤ packSize b) :
    Moves (Le A) (modifyRow T scope pk 0 fun b => liftM (updater b)) e c := by
  apply modifyRow_of_reads
  · simp only [moves_iff]
  · exact fun b b' h => hsize b b' (lift_eq_ok.mp h).1

theorem modifyRow_pure {f : α → α} (hsize : ∀ b, packSize (f b) ≤ packSize b) :
    Moves (Le A) (BaccChain.modifyRow T scope pk 0 fun b => pure (f b)) e c := by
  apply modifyRow_of_reads
  · simp only [moves_iff]
  · intro b b' h
    rw [(pure_eq_ok.mp h).1]
    exact hsize b

theorem modifyRow_of_row (hreads : ∀ b, Moves Eq (updater b) e c)
    (hrow : ∀ row, (T.get c.db).findRow scope pk = some row → row.payer ≠ A) :
    Moves (Le A) (BaccChain.modifyRow T scope pk 0 updater) e c := by
  simp only [BaccChain.modifyRow, reads_iff]
  intro b _ b' c' h
  obtain ⟨_, c₁, h₁, h₂⟩ := bind_eq_ok.mp h
  obtain rfl := hreads b _ _ h₁
  refine dbUpdate ?_ _ _ h₂
  exact fun row hr => Or.inl (hrow row hr)

theorem billRemoveTable (tid : Option TableId) :
    Moves (Le A) (billRemoveTable tid) e c := by
  cases tid with
  | none => exact moves_pure ()
  | some => exact moves_whenever fun _ => updateDbUsage (Or.inr (by decide))

theorem eraseRow : Moves (Le A) (eraseRow T scope pk) e c := by
  simp only [BaccChain.eraseRow, reads_iff]
  cases hrow : (T.get c.db).findRow scope pk with
  | none => exact moves_fail _
  | some =>
    apply moves_bind
    · apply updateDbUsage
      right
      unfold keyValueBytes
      omega
    · exact fun _ c₁ _ => moves_bind (billRemoveTable _) fun _ c₂ _ => writeTable _

end Billed

end BaccChain
