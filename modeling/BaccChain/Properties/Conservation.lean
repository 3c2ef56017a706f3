import BaccChain.Chain.Effects
import BaccChain.Chain.Genesis

/-!
# Tokens are conserved

The balances of a token add up to its supply, which stays between zero and the maximum, along
every run of actions of both contracts from genesis.

## Main definitions

* `TokenInv`: balances add up to the supply

## Main results

* `totalBalance_eq_supply`: after every run
-/

namespace BaccChain

open Commons (run Along run_induction)
open Asset (core core_amount core_symbol)

/-- The sum of all balances of a token. -/
def Db.totalBalance (d : Db) (symbol : Nat) : Int :=
  d.accounts.sum fun _ _ a => if a.balance.symbol = symbol then a.balance.amount else 0

/-- The recorded supply. -/
def Db.supply (d : Db) (symbol : Nat) : Int :=
  d.stat.weightAt (fun _ _ st => if st.supply.symbol = symbol then st.supply.amount else 0)
    (symbolName symbol) (symbolName symbol)

/-- **The invariant of `noc.token`**: each token has one row, at its symbol's name, whose supply is
in bounds and the sum of the balances at this name; and each balance has the symbol of its token. -/
structure TokenInv (d : Db) : Prop where
  key : ∀ s k st, d.stat.find s k = some st → s = k ∧ symbolName st.supply.symbol = k
  bounds : ∀ s k st, d.stat.find s k = some st →
    0 ≤ st.supply.amount ∧ st.supply.amount ≤ st.maxSupply.amount
  sum : ∀ k st, d.stat.find k k = some st → d.sumBalances k = st.supply.amount
  account : ∀ owner k a, d.accounts.find owner k = some a →
    ∃ st, d.stat.find k k = some st ∧ a.balance.symbol = st.supply.symbol

namespace TokenInv

variable {d d' : Db} {q : Asset}

theorem sumBalances_of_fresh (h : TokenInv d) {k : Name} (hk : d.stat.find k k = none) :
    d.sumBalances k = 0 := by
  rw [← d.accounts.sum_zero]
  refine MultiIndex.sum_congr fun owner k' a ha => if_neg ?_
  rintro rfl
  obtain ⟨st, hst, -⟩ := h.account owner k' a ha
  rw [hk] at hst
  cases hst

theorem moves {fromAccount toAccount : Name} (h : TokenInv d)
    (hm : Token.Moves d d' fromAccount toAccount q) : TokenInv d' := by
  obtain ⟨st, hst, hsym⟩ := hm.stat
  have hsum := hm.sum
  have hsymbol := hm.symbol
  obtain ⟨t, rfl⟩ := hm.frame
  refine ⟨h.key, h.bounds, fun k st hst => by rw [hsum, h.sum k st hst],
    fun owner k a ha => ?_⟩
  rcases hsymbol owner k a ha with ⟨rfl, hasym⟩ | ha
  · exact ⟨st, hst, hasym.trans hsym.symm⟩
  · exact h.account owner k a ha

theorem issues {issuer : Name} (h : TokenInv d) (hi : Token.Issues d d' issuer q) :
    TokenInv d' := by
  obtain ⟨st, hst, -, hsym, hle, hw⟩ := hi.stat
  have hpos := hi.pos
  have hrow : ∀ s k st', d'.stat.find s k = some st' →
      (s = symbolName q.symbol ∧ k = symbolName q.symbol ∧
        st' = { st with supply := ⟨st.supply.amount + q.amount, st.supply.symbol⟩ }) ∨
      (¬ (s = symbolName q.symbol ∧ k = symbolName q.symbol) ∧ d.stat.find s k = some st') := by
    intro s k st' hst'
    rw [hw.find] at hst'
    split_ifs at hst' with hk
    · exact .inl ⟨hk.1, hk.2, (Option.some.inj hst').symm⟩
    · exact .inr ⟨hk, hst'⟩
  refine ⟨fun s k st' hst' => ?_, fun s k st' hst' => ?_, fun k st' hst' => ?_,
    fun owner k a ha => ?_⟩
  · rcases hrow s k st' hst' with ⟨rfl, rfl, rfl⟩ | ⟨-, hold⟩
    · exact ⟨rfl, congrArg symbolName hsym⟩
    · exact h.key s k st' hold
  · rcases hrow s k st' hst' with ⟨rfl, rfl, rfl⟩ | ⟨-, hold⟩
    · have hb := h.bounds _ _ _ hst
      exact ⟨by simp only; omega, hle⟩
    · exact h.bounds s k st' hold
  · rw [hi.sum]
    rcases hrow k k st' hst' with ⟨rfl, -, rfl⟩ | ⟨hne, hold⟩
    · rw [if_pos rfl, h.sum _ st hst]
    · rw [if_neg fun e => hne ⟨e, e⟩, add_zero, h.sum k st' hold]
  · rcases hi.symbol owner k a ha with ⟨rfl, hasym⟩ | ha
    · exact ⟨_, hw.find_self, hasym.trans hsym.symm⟩
    · obtain ⟨st', hst', hasym⟩ := h.account owner k a ha
      by_cases hk : k = symbolName q.symbol
      · subst hk
        obtain rfl : st = st' := Option.some.inj (hst.symm.trans hst')
        exact ⟨_, hw.find_self, hasym⟩
      · exact ⟨st', by rw [hw.find_of_ne fun e => hk e.1, hst'], hasym⟩

theorem creates {issuer : Name} (h : TokenInv d) (hc : Token.Creates d d' issuer q) :
    TokenInv d' := by
  have hw := hc.stat
  have hpos := hc.pos
  have hfresh := hc.fresh
  obtain ⟨t, rfl⟩ := hc.frame
  have hrow : ∀ s k st', t.find s k = some st' →
      (s = symbolName q.symbol ∧ k = symbolName q.symbol ∧ st' = ⟨⟨0, q.symbol⟩, q, issuer⟩) ∨
      d.stat.find s k = some st' := by
    intro s k st' hst'
    rw [hw.find] at hst'
    split_ifs at hst' with hk
    · exact .inl ⟨hk.1, hk.2, (Option.some.inj hst').symm⟩
    · exact .inr hst'
  refine ⟨fun s k st' hst' => ?_, fun s k st' hst' => ?_, fun k st' hst' => ?_,
    fun owner k a ha => ?_⟩
  · rcases hrow s k st' hst' with ⟨rfl, rfl, rfl⟩ | hold
    · exact ⟨rfl, rfl⟩
    · exact h.key s k st' hold
  · rcases hrow s k st' hst' with ⟨rfl, rfl, rfl⟩ | hold
    · exact ⟨le_rfl, hpos.le⟩
    · exact h.bounds s k st' hold
  · rcases hrow k k st' hst' with ⟨rfl, -, rfl⟩ | hold
    · exact h.sumBalances_of_fresh hfresh
    · exact h.sum k st' hold
  · obtain ⟨st', hst', hasym⟩ := h.account owner k a ha
    refine ⟨st', ?_, hasym⟩
    show t.find k k = some st'
    rw [hw.find_of_ne, hst']
    rintro ⟨rfl, -⟩
    rw [hfresh] at hst'
    cases hst'

theorem effect {e : Env} (he : Token.Effect e d d') (h : TokenInv d) : TokenInv d' := by
  cases he with
  | moves fromAccount toAccount q auth hm => exact h.moves hm
  | issues issuer q auth hi => exact h.issues hi
  | creates issuer maximumSupply auth hc => exact h.creates hc

theorem congr (h : TokenInv d) (haccounts : d'.accounts = d.accounts) (hstat : d'.stat = d.stat) :
    TokenInv d' := by
  refine ⟨?_, ?_, ?_, ?_⟩
  · rw [hstat]
    exact h.key
  · rw [hstat]
    exact h.bounds
  · rw [hstat]
    unfold Db.sumBalances
    rw [haccounts]
    exact h.sum
  · rw [hstat, haccounts]
    exact h.account

theorem push {s : Step} (h : TokenInv d) (hs : push s d = .ok d') : TokenInv d' :=
  push_induction TokenInv (fun _ _ _ => effect) (fun _ _ _ hc h =>
    h.congr (SystemContract.handle_frame hc).1.accounts (SystemContract.handle_frame hc).1.stat)
    hs h

theorem initial {g : Genesis} (hg : g.Initial d)
    (hnonneg : 0 ≤ (g.initialAccountList.map (·.asset.amount)).sum)
    (hmax : (g.initialAccountList.map (·.asset.amount)).sum ≤ Genesis.systemTokenMaximumSupply) :
    TokenInv d := by
  have hwrap : wrap64 (g.initialAccountList.map (·.asset.amount)).sum =
      (g.initialAccountList.map (·.asset.amount)).sum := by
    unfold Genesis.systemTokenMaximumSupply at hmax
    exact wrap64_eq (by omega) (by omega)
  have hrow : ∀ s k st, d.stat.find s k = some st →
      s = symbolName coreSymbol ∧ k = symbolName coreSymbol ∧
        st = ⟨core (g.initialAccountList.map (·.asset.amount)).sum,
          core Genesis.systemTokenMaximumSupply, systemAccountName⟩ := by
    intro s k st hst
    rw [hg.stat.find, hwrap] at hst
    split_ifs at hst with hk
    · exact ⟨hk.1, hk.2, (Option.some.inj hst).symm⟩
    · cases hst
  refine ⟨fun s k st hst => ?_, fun s k st hst => ?_, fun k st hst => ?_, fun owner k a ha => ?_⟩
  · obtain ⟨rfl, rfl, rfl⟩ := hrow s k st hst
    exact ⟨rfl, rfl⟩
  · obtain ⟨rfl, rfl, rfl⟩ := hrow s k st hst
    exact ⟨hnonneg, hmax⟩
  · obtain ⟨rfl, -, rfl⟩ := hrow k k st hst
    rw [Db.sumBalances, hg.sum]
    simp
  · obtain ⟨rfl, hsym, -⟩ := hg.account owner k a ha
    exact ⟨_, hg.stat.find_self, hsym⟩

theorem totalBalance_eq (h : TokenInv d) (symbol : Nat) :
    d.totalBalance symbol = d.supply symbol := by
  have hbalance : ∀ owner k a, d.accounts.find owner k = some a → a.balance.symbol = symbol →
      k = symbolName symbol ∧
        ∃ st, d.stat.find (symbolName symbol) (symbolName symbol) = some st ∧
          st.supply.symbol = symbol := by
    intro owner k a ha hsym
    obtain ⟨st, hst, hasym⟩ := h.account owner k a ha
    obtain rfl : k = symbolName symbol := by
      rw [← hsym, hasym]
      exact (h.key k k st hst).2.symm
    exact ⟨rfl, st, hst, hasym.symm.trans hsym⟩
  have hnone : (∀ st, d.stat.find (symbolName symbol) (symbolName symbol) = some st →
      st.supply.symbol ≠ symbol) → d.totalBalance symbol = 0 := by
    intro hst
    rw [← d.accounts.sum_zero]
    refine MultiIndex.sum_congr fun owner k a ha => if_neg fun hsym => ?_
    obtain ⟨-, st, hrow, heq⟩ := hbalance owner k a ha hsym
    exact hst st hrow heq
  unfold Db.supply
  cases hst : d.stat.find (symbolName symbol) (symbolName symbol) with
  | none =>
    rw [MultiIndex.weightAt_of_find_none hst]
    exact hnone fun st hst' => by rw [hst] at hst'; cases hst'
  | some st =>
    rw [MultiIndex.weightAt_of_find hst]
    split_ifs with hsym
    · rw [← h.sum _ st hst]
      refine MultiIndex.sum_congr fun owner k a ha => ?_
      refine if_congr ⟨fun ha' => (hbalance owner k a ha ha').1, ?_⟩ rfl rfl
      rintro rfl
      obtain ⟨st', hst', hasym⟩ := h.account owner _ a ha
      obtain rfl : st = st' := Option.some.inj (hst.symm.trans hst')
      exact hasym.trans hsym
    · refine hnone fun st' hst' => ?_
      obtain rfl : st = st' := Option.some.inj (hst.symm.trans hst')
      exact hsym

end TokenInv

/-- **Token conservation.** From genesis, along every run of actions of both contracts, the
balances of every symbol add up to its supply, and every supply is between zero and its maximum. -/
theorem totalBalance_eq_supply {g : Genesis} {d₀ : Db} (hg : g.initializeDatabase = .ok d₀)
    (hnonneg : ∀ a ∈ g.initialAccountList, 0 ≤ a.asset.amount)
    (hmax : (g.initialAccountList.map (·.asset.amount)).sum ≤ Genesis.systemTokenMaximumSupply)
    (steps : List Step) (symbol : Nat) :
    (run push d₀ steps).totalBalance symbol = (run push d₀ steps).supply symbol ∧
      ∀ st, (run push d₀ steps).stat.find (symbolName symbol) (symbolName symbol) = some st →
        0 ≤ st.supply.amount ∧ st.supply.amount ≤ st.maxSupply.amount := by
  have hsum : 0 ≤ (g.initialAccountList.map (·.asset.amount)).sum :=
    List.sum_nonneg (by simpa using hnonneg)
  have hinv : TokenInv (run push d₀ steps) := by
    refine run_induction (P := fun _ _ => True) TokenInv (fun d s d' h _ hs => h.push hs)
      (.initial (Genesis.initializeDatabase_eq_ok hg) hsum hmax) ?_
    exact Commons.along_true
  exact ⟨hinv.totalBalance_eq symbol, fun st hst => hinv.bounds _ _ st hst⟩

theorem totalBalance_eq_supply_twoAccounts :
    let d := run push Genesis.twoAccounts.database
      [.byActor 1 Genesis.alice (.token (.transfer Genesis.alice Genesis.bob (core 5) "")),
        .byActor 2 Genesis.bob (.token (.fee Genesis.bob (core 7)))]
    d.totalBalance coreSymbol = d.supply coreSymbol ∧
      ∀ st, d.stat.find (symbolName coreSymbol) (symbolName coreSymbol) = some st →
        0 ≤ st.supply.amount ∧ st.supply.amount ≤ st.maxSupply.amount :=
  totalBalance_eq_supply Genesis.twoAccounts_database (by decide) (by decide) _ coreSymbol

end BaccChain
