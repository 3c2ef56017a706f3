import BaccChain.Chain.Exec
import BaccChain.Chain.Genesis

/-!
# Locked core tokens and other tokens

What an account has staked, is unstaking or has on votes is locked: a payment has to leave that
amount.

## Main definitions

* `PaysByBalance`: only the balance limits a payment

## Main results

* `subBalance_paysByBalance_iff`: when this is so
* `transfer_tok_fails`: a token without locks
-/

namespace BaccChain

open Commons.Program
open Asset (core core_amount)

namespace Token

variable {e : Env} {c c' : Ctx} {owner : Name} {value : Asset} {d : Db} {sym : Nat}

def lock (d : Db) (owner : Name) : Except String Int :=
  match d.freezed.find () owner with
  | none => .ok 0
  | some fts => do
    let frozen ← fts.staked.add fts.unstaking
    let frozen ← frozen.add ((d.voterinfo.find () owner).elim (core 0) (·.voteall))
    return frozen.amount

theorem freezeCoreTokenAmount_eq_ok_iff {balance amount frozen : Int} :
    freezeCoreTokenAmount owner balance amount e c = .ok (frozen, c') ↔
      c' = c ∧ lock c.db owner = .ok frozen ∧ (0 < frozen → amount + frozen ≤ balance) := by
  simp only [freezeCoreTokenAmount, ran_iff, calls_iff, voterTable_get, freezedTable_get]
  unfold lock
  cases c.db.freezed.find () owner with
  | none =>
    rw [pure_eq_ok, Except.ok.injEq]
    constructor
    · rintro ⟨rfl, rfl⟩
      exact ⟨rfl, rfl, fun h => absurd h (lt_irrefl 0)⟩
    · rintro ⟨rfl, rfl, -⟩
      exact ⟨rfl, rfl⟩
  | some =>
    simp only [bind_eq_ok, exists_unit, lift_eq_ok, whenever_eq_ok, eosioAssert_eq_ok, pure_eq_ok,
      Commons.bind_eq_ok, Commons.pure_eq_ok, ge_iff_le]
    constructor
    · rintro ⟨f, c₁, ⟨hf, rfl⟩, g, c₂, ⟨hg, rfl⟩, c₃, h, rfl, rfl⟩
      rcases h with ⟨-, hle, rfl⟩ | ⟨hneg, rfl⟩
      · exact ⟨rfl, ⟨f, hf, g, hg, rfl⟩, fun _ => hle⟩
      · exact ⟨rfl, ⟨f, hf, g, hg, rfl⟩, fun h => absurd h hneg⟩
    · rintro ⟨rfl, ⟨f, hf, g, hg, rfl⟩, hle⟩
      refine ⟨f, c', ⟨hf, rfl⟩, g, c', ⟨hg, rfl⟩, c', ?_, rfl, rfl⟩
      exact (em _).imp (fun h => ⟨h, hle h, rfl⟩) fun h => ⟨h, rfl⟩

theorem lock_of_subBalance (h : subBalance owner value e c = .ok ((), c')) :
    ∃ a frozen, c.db.accounts.find owner (symbolName value.symbol) = some a ∧
      lock c.db owner = .ok frozen ∧ value.amount + frozen ≤ a.balance.amount := by
  simp only [subBalance, bind_eq_ok, exists_unit, getRow_eq_ok, freezeCoreTokenAmount_eq_ok_iff,
    eosioAssert_eq_ok, ge_iff_le] at h
  obtain ⟨a, c₁, ⟨ha, rfl⟩, frozen, c₂, ⟨rfl, hlock, -⟩, c₃, ⟨hle, rfl⟩, -⟩ := h
  exact ⟨a, frozen, ha, hlock, hle⟩

theorem exists_subBalance {a : Account} {frozen : Int} (howner : owner ≠ 0)
    (hauth : e.HasAuth owner) (ha : c.db.accounts.find owner (symbolName value.symbol) = some a)
    (hsym : a.balance.symbol = value.symbol) (hlock : lock c.db owner = .ok frozen)
    (hle : value.amount + frozen ≤ a.balance.amount)
    (hmin : -Asset.maxAmount ≤ a.balance.amount - value.amount)
    (hmax : a.balance.amount - value.amount ≤ Asset.maxAmount) :
    ∃ c', subBalance owner value e c = .ok ((), c') := by
  have hne : (accountsTable.get c.db).find owner (symbolName value.symbol) ≠ none := by simp [ha]
  have hsub : a.balance.sub value = .ok ⟨a.balance.amount - value.amount, a.balance.symbol⟩ :=
    Asset.sub_eq_ok.mpr ⟨hsym.symm, hmin, hmax, rfl⟩
  simp only [subBalance, bind_eq_ok, exists_unit, getRow_eq_ok, freezeCoreTokenAmount_eq_ok_iff,
    eosioAssert_eq_ok, ge_iff_le, ite_run]
  suffices hrest : ∃ c', (if a.balance.amount = value.amount then
      eraseRow accountsTable owner (symbolName value.symbol) e c
    else modifyRow accountsTable owner (symbolName value.symbol) owner (fun a => do
      let balance ← a.balance.sub value
      return { a with balance }) e c) = .ok ((), c') by
    obtain ⟨c', hc'⟩ := hrest
    exact ⟨c', a, c, ⟨ha, rfl⟩, frozen, c, ⟨rfl, hlock, fun _ => hle⟩, c, ⟨hle, rfl⟩, hc'⟩
  split_ifs
  · exact exists_eraseRow hne
  · exact exists_modifyRow (.inr ⟨howner, hauth⟩) ha (bind_of_ok (lift_eq_ok.mpr ⟨hsub, rfl⟩)) hne

/-- A payment succeeds exactly if the balance covers it, and takes just the amount. -/
def PaysByBalance (d : Db) (owner : Name) (sym : Nat) : Prop :=
  ∀ e c (value : Asset), c.db = d → e.HasAuth owner → value.symbol = sym → 0 < value.amount →
    ((∃ c', subBalance owner value e c = .ok ((), c')) ↔
      value.amount ≤ d.balance owner (symbolName sym)) ∧
    ∀ c', subBalance owner value e c = .ok ((), c') → ∃ t, c'.db = { d with accounts := t } ∧
      ∀ o k, c'.db.balance o k = d.balance o k -
        if o = owner ∧ k = symbolName sym then value.amount else 0

/-- **A lock on core tokens locks other tokens**: payments depend on the balance alone exactly if
the owner has no balance of the symbol, or nothing is locked. -/
theorem subBalance_paysByBalance_iff (d : Db) (owner : Name) (sym : Nat) (howner : owner ≠ 0)
    (hrow : ∀ a, d.accounts.find owner (symbolName sym) = some a →
      a.balance.symbol = sym ∧ 0 < a.balance.amount ∧ a.balance.amount ≤ Asset.maxAmount) :
    PaysByBalance d owner sym ↔
      d.accounts.find owner (symbolName sym) = none ∨ lock d owner = .ok 0 := by
  have hmax : Asset.maxAmount = 2 ^ 62 - 1 := rfl
  have hbal {a : Account} (ha : d.accounts.find owner (symbolName sym) = some a) :
      d.balance owner (symbolName sym) = a.balance.amount := MultiIndex.weightAt_of_find ha
  constructor
  · intro h
    rcases Option.eq_none_or_eq_some (d.accounts.find owner (symbolName sym)) with ha | ⟨a, ha⟩
    · exact .inl ha
    obtain ⟨hsym, hpos, hle⟩ := hrow a ha
    let e : Env := ⟨.atHeight 0, tokenAccountName, [⟨owner, activeName⟩]⟩
    have hauth : e.HasAuth owner := by simp [e, Env.HasAuth]
    have hpays (v : Int) (hv : 0 < v) := (h e { db := d } ⟨v, sym⟩ rfl hauth rfl hv).1
    rw [hbal ha] at hpays
    obtain ⟨c', hc'⟩ := (hpays _ hpos).mpr le_rfl
    obtain ⟨b, frozen, hb, hlock, hfrozen⟩ := lock_of_subBalance hc'
    obtain rfl : a = b := Option.some.inj (ha.symm.trans hb)
    by_cases hneg : frozen < 0
    · have hmore :
          ∃ c', subBalance owner ⟨a.balance.amount + 1, sym⟩ e { db := d } = .ok ((), c') :=
        exists_subBalance howner hauth ha hsym hlock (by dsimp only; omega) (by dsimp only; omega)
          (by dsimp only; omega)
      exact absurd ((hpays _ (by omega)).mp hmore) (by dsimp only; omega)
    · rw [show frozen = 0 by dsimp only at hfrozen; omega] at hlock
      exact .inr hlock
  · rintro h e c value rfl hauth rfl hpos
    refine ⟨⟨fun ⟨c', hc'⟩ => ?_, fun hle => ?_⟩, fun c' hc' => ?_⟩
    · obtain ⟨a, frozen, ha, hlock, hle⟩ := lock_of_subBalance hc'
      rw [h.resolve_left (by simp [ha])] at hlock
      obtain rfl := Except.ok.inj hlock
      rw [hbal ha]
      omega
    · cases ha : c.db.accounts.find owner (symbolName value.symbol) with
      | none =>
        have hzero : c.db.balance owner (symbolName value.symbol) = 0 :=
          MultiIndex.weightAt_of_find_none ha
        omega
      | some a =>
        obtain ⟨hsym, -, hamount⟩ := hrow a ha
        have hlock := h.resolve_left (by simp [ha])
        rw [hbal ha] at hle
        exact exists_subBalance howner hauth ha hsym hlock (by omega) (by omega) (by omega)
    · obtain ⟨-, o, t, ram, hw, rfl, hamount, -⟩ := subBalance_eq_ok hc'
      refine ⟨t, rfl, fun o' k => ?_⟩
      simp only [Db.balance] at hamount ⊢
      rw [hw.weightAt]
      split_ifs <;> simp_all

open Genesis (alice bob twoAccounts)

def tokSymbol : Nat := 0x4b4f5404

def holdsTok (frozen : List Int) : Db := Commons.run push twoAccounts.database ([
  .byActor 10 tokenAccountName (.token (.create alice ⟨1000, tokSymbol⟩)),
  .byActor 11 alice (.token (.issue alice ⟨50, tokSymbol⟩ ""))] ++
  frozen.map fun amount => .byActor 12 alice (.system (.freeze alice (core amount))))

/-- With nothing frozen, alice can pay all of the token. -/
theorem subBalance_paysByBalance_alice :
    PaysByBalance (holdsTok []) alice tokSymbol ∧
      (holdsTok []).balance alice (symbolName tokSymbol) = 50 := by
  have hrow : ∀ a ∈ (holdsTok []).accounts.find alice (symbolName tokSymbol),
      a.balance.symbol = tokSymbol ∧ 0 < a.balance.amount ∧ a.balance.amount ≤ Asset.maxAmount := by
    decide +kernel
  exact ⟨(subBalance_paysByBalance_iff _ _ _ (by decide) hrow).mpr (.inr (by decide +kernel)),
    by decide +kernel⟩

/-- With core tokens frozen, alice cannot pay one unit of the 50. -/
theorem transfer_tok_fails :
    (holdsTok [10000000]).balance alice (symbolName tokSymbol) = 50 ∧ tokSymbol ≠ coreSymbol ∧
      (push (.byActor 13 alice (.token (.transfer alice bob ⟨1, tokSymbol⟩ "")))
        (holdsTok [10000000])).map (fun _ => ()) =
          .error "overdrawn balance by freeze lots tokens" ∧
      ¬ PaysByBalance (holdsTok [10000000]) alice tokSymbol := by
  have hbal : (holdsTok [10000000]).balance alice (symbolName tokSymbol) = 50 := by decide +kernel
  refine ⟨hbal, by decide, by decide +kernel, fun h => ?_⟩
  let e : Env := ⟨.atHeight 13, tokenAccountName, [⟨alice, activeName⟩]⟩
  obtain ⟨c', hc'⟩ := (h e { db := holdsTok [10000000] } ⟨1, tokSymbol⟩ rfl
    (by simp [e, Env.HasAuth]) rfl (by decide)).1.mpr (by rw [hbal]; decide)
  obtain ⟨a, frozen, ha, hlock, hle⟩ := lock_of_subBalance hc'
  have hfind : ∀ a ∈ (holdsTok [10000000]).accounts.find alice (symbolName tokSymbol),
      a.balance.amount = 50 := by decide +kernel
  have hfrozen : lock (holdsTok [10000000]) alice = .ok 10000000 := by decide +kernel
  obtain rfl := Except.ok.inj (hfrozen.symm.trans hlock)
  rw [hfind a ha] at hle
  exact absurd hle (by decide)

end Token

end BaccChain
