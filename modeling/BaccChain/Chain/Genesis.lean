import BaccChain.Contracts.Rows
import BaccChain.Commons.Run

/-!
# Genesis

`controller_impl::initialize_database` writes the core token's statistics, the balances of the
genesis accounts and the rows of the genesis producers without running a contract.
-/

namespace BaccChain

open Asset (core core_amount)

/-- An account of the genesis file, with its allocation. -/
structure GenesisAccount where
  name : Name
  asset : Asset

/-- A producer of the genesis file. -/
structure GenesisProducer where
  name : Name
  bpkey : PublicKey
  url : List UInt8

/-- The genesis file. -/
structure Genesis where
  initialAccountList : List GenesisAccount
  initialProducerList : List GenesisProducer
  producers_le : initialProducerList.length ≤ 1024 * 1024

namespace Genesis

def systemTokenMaximumSupply : Int := 63000000 * 10000

def nativeAccounts : List Name :=
  [systemAccountName, nativeAccountName, tokenAccountName, msigAccountName, feeAccountName,
    nullAccountName, producersAccountName]

variable {σ α : Type} [LinearOrder σ]

def insertRow (t : MultiIndex σ α) (scope : σ) (payer pk : Name) (a : α) :
    Except String (MultiIndex σ α) := do
  Commons.check (payer ≠ 0) "must specify a valid account to pay for new record"
  Commons.check (t.find scope pk = none) uniquenessViolated
  return t.store scope payer pk a

/-- `+=` of the chain's `asset`: it compares the symbols, and the 64-bit sum may wrap around. -/
def addAsset (sum a : Asset) : Except String Asset := do
  Commons.check (sum.symbol = a.symbol) "addition between two different asset is not allowed"
  return { sum with amount := wrap64 (sum.amount + a.amount) }

/-- The supply at genesis, the sum of all allocations in 64 bits. -/
def getTokenSum (g : Genesis) : Except String Asset :=
  g.initialAccountList.foldlM (fun sum a => addAsset sum a.asset) (core 0)

def initializeAccount (t : MultiIndex Name Account) (a : GenesisAccount) :
    Except String (MultiIndex Name Account) := do
  Commons.check (a.name ∉ nativeAccounts) uniquenessViolated
  insertRow t a.name a.name (symbolName a.asset.symbol) { balance := a.asset }

def GenesisProducer.bpInfo (p : GenesisProducer) : BpInfo where
  name := p.name
  invite := 0
  blockSigningKey := p.bpkey
  totalStaked := 100000
  voteageUpdateHeight := 0
  url := p.url

def initializeProducer (t : MultiIndex Unit BpInfo) (p : GenesisProducer) :
    Except String (MultiIndex Unit BpInfo) :=
  insertRow t () p.name p.name (GenesisProducer.bpInfo p)

/-- `initialize_database`. -/
def initializeDatabase (g : Genesis) : Except String Db := do
  let tsum ← g.getTokenSum
  let stat ← insertRow .empty (symbolName coreSymbol) tokenAccountName (symbolName coreSymbol)
    { supply := tsum, maxSupply := core systemTokenMaximumSupply, issuer := systemAccountName }
  let accounts ← insertRow .empty systemAccountName systemAccountName (symbolName coreSymbol)
    { balance := core 0 }
  let accounts ← g.initialAccountList.foldlM initializeAccount accounts
  let bps ← g.initialProducerList.foldlM initializeProducer .empty
  return { accounts, stat, bps }

/-- The tables at the start of the chain, none if the genesis file is refused. -/
def database (g : Genesis) : Db :=
  match g.initializeDatabase with
  | .ok d => d
  | .error _ => {}

def alice : Name := 3773036822876127232

def bob : Name := 4399453885987553280

/-- A genesis file with two accounts of a million tokens each, the second of them a producer. -/
def twoAccounts : Genesis where
  initialAccountList := [⟨alice, core 10000000000⟩, ⟨bob, core 10000000000⟩]
  initialProducerList := [⟨bob, 1, []⟩]
  producers_le := by decide

theorem twoAccounts_database : twoAccounts.initializeDatabase = .ok twoAccounts.database := rfl

/-! ## What the tables hold -/

theorem insertRow_eq_ok {t t' : MultiIndex σ α} {scope : σ} {payer pk : Name} {a : α}
    (h : insertRow t scope payer pk a = .ok t') :
    t.find scope pk = none ∧ t' = t.store scope payer pk a := by
  simp only [insertRow, Commons.bind_eq_ok, Commons.pure_eq_ok, Commons.check_eq_ok,
    exists_const] at h
  exact h.2

theorem foldlM_insertRow {ι : Type} (scope : ι → σ) (payer pk : ι → Name) (row : ι → α)
    {f : MultiIndex σ α → ι → Except String (MultiIndex σ α)}
    (hf : ∀ {t x t'}, f t x = .ok t' →
      insertRow t (scope x) (payer x) (pk x) (row x) = .ok t') {l : List ι}
    {t t' : MultiIndex σ α} (h : l.foldlM f t = .ok t') :
    (∀ g : σ → Name → α → Int,
      t'.sum g = t.sum g + (l.map fun x => g (scope x) (pk x) (row x)).sum) ∧
    (∀ s k r, t'.findRow s k = some r → t.findRow s k = some r ∨
      ∃ x ∈ l, s = scope x ∧ k = pk x ∧ r = ⟨payer x, row x⟩) ∧
    ∀ s k a, t.find s k = some a → t'.find s k = some a := by
  induction l generalizing t with
  | nil =>
    obtain rfl : t = t' := Except.ok.inj h
    simp
  | cons x l ih =>
    rw [List.foldlM_cons, Commons.bind_eq_ok] at h
    obtain ⟨t₁, h₁, h₂⟩ := h
    obtain ⟨hnone, rfl⟩ := insertRow_eq_ok (hf h₁)
    obtain ⟨hsum, hfind, hkeep⟩ := ih h₂
    refine ⟨fun g => ?_, fun s k r hr => ?_, fun s k a ha => hkeep s k a ?_⟩
    · have hstore := t.sum_store g (scope x) (payer x) (pk x) (row x)
      rw [MultiIndex.weightAt_of_find_none hnone, add_zero] at hstore
      rw [hsum, hstore, List.map_cons, List.sum_cons, add_assoc]
    · rcases hfind s k r hr with hr | ⟨y, hy, hrow⟩
      · rw [MultiIndex.findRow_store] at hr
        split_ifs at hr with hk
        · cases hr
          exact .inr ⟨x, List.mem_cons_self, hk.1.symm, hk.2.symm, rfl⟩
        · exact .inl hr
      · exact .inr ⟨y, List.mem_cons_of_mem _ hy, hrow⟩
    · rw [MultiIndex.find_store, if_neg]
      · exact ha
      · rintro ⟨rfl, rfl⟩
        rw [hnone] at ha
        cases ha

theorem addAsset_eq_ok {sum a sum' : Asset} (h : addAsset sum a = .ok sum') :
    sum.symbol = a.symbol ∧ sum' = ⟨wrap64 (sum.amount + a.amount), sum.symbol⟩ := by
  simp only [addAsset, Commons.bind_eq_ok, Commons.pure_eq_ok, Commons.check_eq_ok,
    exists_const] at h
  exact h

theorem getTokenSum_eq_ok {g : Genesis} {sum : Asset} (h : g.getTokenSum = .ok sum) :
    sum = core (wrap64 (g.initialAccountList.map (·.asset.amount)).sum) ∧
      ∀ a ∈ g.initialAccountList, a.asset.symbol = coreSymbol := by
  suffices H : ∀ (l : List GenesisAccount) (n : Int) (sum : Asset),
      l.foldlM (fun sum a => addAsset sum a.asset) (core (wrap64 n)) = .ok sum →
        sum = core (wrap64 (n + (l.map (·.asset.amount)).sum)) ∧
          ∀ a ∈ l, a.asset.symbol = coreSymbol by
    simpa using H _ 0 sum h
  intro l
  induction l with
  | nil =>
    intro n sum h
    cases h
    simp
  | cons a l ih =>
    intro n sum h
    rw [List.foldlM_cons, Commons.bind_eq_ok] at h
    obtain ⟨sum₁, h₁, h₂⟩ := h
    obtain ⟨hsym, rfl⟩ := addAsset_eq_ok h₁
    rw [core_amount, wrap64_add_left] at h₂
    obtain ⟨rfl, hl⟩ := ih _ _ h₂
    refine ⟨?_, List.forall_mem_cons.mpr ⟨hsym.symm, hl⟩⟩
    rw [List.map_cons, List.sum_cons, add_assoc]

/-- **The initial tables**: the statistics of the core token with the sum of the allocations in 64
bits as its supply, the core balances, the rows of the genesis producers, and nothing else. -/
structure Initial (g : Genesis) (d : Db) : Prop where
  frame : d = { accounts := d.accounts, stat := d.stat, bps := d.bps }
  stat : MultiIndex.empty.Writes (symbolName coreSymbol) (symbolName coreSymbol)
    (some ⟨core (wrap64 (g.initialAccountList.map (·.asset.amount)).sum),
      core systemTokenMaximumSupply, systemAccountName⟩) d.stat
  account : ∀ owner sym a, d.accounts.find owner sym = some a →
    sym = symbolName coreSymbol ∧ a.balance.symbol = coreSymbol ∧
      (a.balance.amount = 0 ∨ ∃ x ∈ g.initialAccountList, a.balance = x.asset)
  coreBalance_system : d.coreBalance systemAccountName = 0
  sum : ∀ f : Name → Name → Account → Int, d.accounts.sum f =
    f systemAccountName (symbolName coreSymbol) ⟨core 0⟩ +
      (g.initialAccountList.map fun a => f a.name (symbolName coreSymbol) ⟨a.asset⟩).sum
  bps : ∀ k r, d.bps.findRow () k = some r →
    ∃ p ∈ g.initialProducerList, k = p.name ∧ r = ⟨p.name, GenesisProducer.bpInfo p⟩
  sum_bps : ∀ f : Name → BpInfo → Int, (d.bps.sum fun _ k b => f k b) =
    (g.initialProducerList.map fun p => f p.name (GenesisProducer.bpInfo p)).sum

theorem initializeDatabase_eq_ok {g : Genesis} {d : Db} (h : g.initializeDatabase = .ok d) :
    g.Initial d := by
  simp only [initializeDatabase, Commons.bind_eq_ok, Commons.pure_eq_ok] at h
  obtain ⟨tsum, hsum, stat, hstat, acc, hacc, accounts, haccounts, bps, hbps, rfl⟩ := h
  obtain ⟨rfl, hsym⟩ := getTokenSum_eq_ok hsum
  obtain ⟨-, rfl⟩ := insertRow_eq_ok hstat
  obtain ⟨-, rfl⟩ := insertRow_eq_ok hacc
  obtain ⟨hasum, hafind, hakeep⟩ := foldlM_insertRow (fun a => a.name) (fun a => a.name)
    (fun a => symbolName a.asset.symbol) (fun a => ⟨a.asset⟩) (fun {t x t'} ht => by
      simp only [initializeAccount, Commons.bind_eq_ok] at ht
      exact ht.choose_spec.2) haccounts
  obtain ⟨hbsum, hbfind, -⟩ := foldlM_insertRow (fun _ => ()) GenesisProducer.name
    GenesisProducer.name GenesisProducer.bpInfo (f := initializeProducer) (fun ht => ht) hbps
  refine ⟨rfl, .of_store _ _ _ _ _, fun owner sym a ha => ?_, ?_, fun f => ?_,
    fun k r hr => ?_, fun f => ?_⟩
  · obtain ⟨p, hp⟩ := MultiIndex.find_eq_some_iff.mp ha
    rcases hafind _ _ _ hp with hrow | ⟨x, hx, -, rfl, hrow⟩
    · rw [MultiIndex.findRow_store] at hrow
      split_ifs at hrow with hk
      · cases hrow
        exact ⟨hk.2.symm, rfl, .inl rfl⟩
      · cases hrow
    · cases hrow
      exact ⟨congrArg symbolName (hsym x hx), hsym x hx, .inr ⟨x, hx, rfl⟩⟩
  · have hrow := hakeep _ _ _ (MultiIndex.find_store_self _ _ _ _ _)
    show accounts.weightAt (fun _ _ a => a.balance.amount) _ _ = 0
    rw [MultiIndex.weightAt_of_find hrow, core_amount]
  · have hstore := MultiIndex.empty.sum_store f systemAccountName systemAccountName
      (symbolName coreSymbol) (⟨core 0⟩ : Account)
    rw [MultiIndex.weightAt_of_find_none rfl, add_zero, MultiIndex.sum_empty, zero_add] at hstore
    show accounts.sum f = _
    rw [hasum, hstore]
    congr 2
    exact List.map_congr_left fun x hx => by rw [hsym x hx]
  · rcases hbfind _ _ _ hr with hrow | ⟨p, hp, -, rfl, rfl⟩
    · cases hrow
    · exact ⟨p, hp, rfl, rfl⟩
  · show bps.sum _ = _
    rw [hbsum, MultiIndex.sum_empty, zero_add]

end Genesis

end BaccChain
