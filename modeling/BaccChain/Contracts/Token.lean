import BaccChain.Chain.ApplyContext

/-!
# The contract `noc.token`

The four actions of the token contract. Balances of the core symbol that `noc.system` has locked,
frozen or on votes, cannot be spent: `subBalance` reads the two tables of `noc.system`.

## Main definitions

* `issue`, `transfer`, `subBalance`: the actions
-/

namespace BaccChain

open Commons.Program
open Asset (core core_amount)

namespace Token

/-- The core amount of `owner` that `noc.system` has locked: staked, unstaking and on votes. -/
def freezeCoreTokenAmount (owner : Name) (balance value : Int) : ContractM Int := do
  let vt ← findRow voterTable () owner
  match ← findRow freezedTable () owner with
  | none => pure 0
  | some fts => do
    let vtall := vt.elim (core 0) (·.voteall)
    let frozen ← fts.staked.add fts.unstaking
    let frozen ← frozen.add vtall
    whenever (0 < frozen.amount)
      (eosioAssert (balance ≥ value + frozen.amount) "overdrawn balance by freeze lots tokens")
    return frozen.amount

/-- `sub_balance`: what is locked has to stay. -/
def subBalance (owner : Name) (value : Asset) : ContractM Unit := do
  let acnt ← getRow accountsTable owner (symbolName value.symbol) "no balance object found"
  let frozen ← freezeCoreTokenAmount owner acnt.balance.amount value.amount
  eosioAssert (acnt.balance.amount ≥ value.amount + frozen) "overdrawn balance"
  if acnt.balance.amount = value.amount then
    eraseRow accountsTable owner (symbolName value.symbol)
  else
    modifyRow accountsTable owner (symbolName value.symbol) owner fun a => do
      let balance ← a.balance.sub value
      return { a with balance }

/-- Add `value` to the balance of `owner`; a new balance is billed to `ramPayer`. -/
def addBalance (owner : Name) (value : Asset) (ramPayer : Name) : ContractM Unit := do
  match ← findRow accountsTable owner (symbolName value.symbol) with
  | none => emplace accountsTable owner ramPayer (symbolName value.symbol) { balance := value }
  | some _ =>
    modifyRow accountsTable owner (symbolName value.symbol) 0 fun a => do
      let balance ← a.balance.add value
      return { a with balance }

/-- `create`. -/
def create (issuer : Name) (maximumSupply : Asset) : ContractM Unit := do
  requireAuth tokenAccountName
  let sym := maximumSupply.symbol
  eosioAssert (isValidSymbol sym) "invalid symbol name"
  eosioAssert maximumSupply.isValid "invalid supply"
  eosioAssert (0 < maximumSupply.amount) "max-supply must be positive"
  eosioAssert (sym ≠ coreSymbol) "not allow create core symbol token by token contract"
  let existing ← findRow statsTable (symbolName sym) (symbolName sym)
  eosioAssert (existing.isNone) "token with symbol already exists"
  emplace statsTable (symbolName sym) tokenAccountName (symbolName sym)
    { supply := ⟨0, sym⟩, maxSupply := maximumSupply, issuer }

/-- `issue`. -/
def issue (toAccount : Name) (quantity : Asset) (memo : String) : ContractM Unit := do
  let sym := quantity.symbol
  eosioAssert (isValidSymbol sym) "invalid symbol name"
  eosioAssert (memo.utf8ByteSize ≤ 256) "memo has more than 256 bytes"
  let st ← getRow statsTable (symbolName sym) (symbolName sym)
    "token with symbol does not exist, create token before issue"
  requireAuth st.issuer
  eosioAssert quantity.isValid "invalid quantity"
  eosioAssert (0 < quantity.amount) "must issue positive quantity"
  eosioAssert (quantity.symbol = st.supply.symbol) "symbol precision mismatch"
  eosioAssert (quantity.amount ≤ st.maxSupply.amount - st.supply.amount)
    "quantity exceeds available supply"
  modifyRow statsTable (symbolName sym) (symbolName sym) 0 fun s => do
    let supply ← s.supply.add quantity
    return { s with supply }
  addBalance st.issuer quantity st.issuer
  whenever (toAccount ≠ st.issuer) (executeInline
    ⟨[⟨st.issuer, activeName⟩], .token (.transfer st.issuer toAccount quantity memo)⟩)

/-- `transfer`. -/
def transfer (fromAccount toAccount : Name) (quantity : Asset) (memo : String) :
    ContractM Unit := do
  eosioAssert (fromAccount ≠ toAccount) "cannot transfer to self"
  requireAuth fromAccount
  eosioAssert (← isAccount toAccount) "to account does not exist"
  let sym := symbolName quantity.symbol
  let st ← getRow statsTable sym sym "unable to find key"
  requireRecipient fromAccount
  requireRecipient toAccount
  eosioAssert quantity.isValid "invalid quantity"
  eosioAssert (0 < quantity.amount) "must transfer positive quantity"
  eosioAssert (quantity.symbol = st.supply.symbol) "symbol precision mismatch"
  eosioAssert (memo.utf8ByteSize ≤ 256) "memo has more than 256 bytes"
  subBalance fromAccount quantity
  addBalance toAccount quantity fromAccount

/-- `fee`. -/
def fee (payer : Name) (quantity : Asset) : ContractM Unit := do
  requireAuth payer
  let sym := symbolName quantity.symbol
  let st ← getRow statsTable sym sym "unable to find key"
  eosioAssert quantity.isValid "invalid quantity"
  eosioAssert (0 < quantity.amount) "must transfer positive quantity"
  eosioAssert (quantity.symbol = st.supply.symbol) "symbol precision mismatch"
  subBalance payer quantity
  addBalance feeAccountName quantity payer

/-- A transfer authorised by `fromAccount`, as other contracts send it. -/
def transferAction (fromAccount toAccount : Name) (quantity : Asset) (memo : String) : Action :=
  ⟨[⟨fromAccount, activeName⟩], .token (.transfer fromAccount toAccount quantity memo)⟩

def sendTokenInline (fromAccount toAccount : Name) (quantity : Asset) (memo : String) :
    ContractM Unit := do
  let skip ← quantity.le (core 0)
  whenever (¬ skip) (executeInline (transferAction fromAccount toAccount quantity memo))

/-- An issue of tokens to `toAccount`, authorised by that account. -/
def issueAction (toAccount : Name) (quantity : Asset) (memo : String) : Action :=
  ⟨[⟨toAccount, activeName⟩], .token (.issue toAccount quantity memo)⟩

def issueTokenInline (toAccount : Name) (quantity : Asset) (memo : String) : ContractM Unit :=
  executeInline (issueAction toAccount quantity memo)

def handle : TokenAction → ContractM Unit
  | .create issuer maximumSupply => create issuer maximumSupply
  | .issue toAccount quantity memo => issue toAccount quantity memo
  | .transfer fromAccount toAccount quantity memo => transfer fromAccount toAccount quantity memo
  | .fee payer quantity => fee payer quantity

/-! ## What the balances become -/

variable {e : Env} {c c' : Ctx} {u : Unit}

variable {owner fromAccount toAccount : Name} {q : Asset} {memo : String}

theorem freezeCoreTokenAmount_eq_ok {balance value frozen : Int}
    (h : freezeCoreTokenAmount owner balance value e c = .ok (frozen, c')) :
    c' = c ∧ frozen = c.db.locked owner := by
  simp only [freezeCoreTokenAmount, ran_iff, calls_iff, voterTable_get, freezedTable_get] at h
  unfold Db.locked Db.staked Db.unstaking Db.voteall
  cases hf : c.db.freezed.find () owner with
  | none =>
    rw [hf] at h
    obtain ⟨rfl, rfl⟩ := pure_eq_ok.mp h
    exact ⟨rfl, (if_pos rfl).symm⟩
  | some =>
    simp only [hf, ran_iff, calls_iff, whenever_eq_ok, Asset.add_eq_ok] at h
    obtain ⟨-, -, -, -, -, -, c₁, hc₁, rfl, rfl⟩ := h
    refine ⟨by rcases hc₁ with ⟨-, -, rfl⟩ | ⟨-, rfl⟩ <;> rfl, ?_⟩
    rw [if_neg (by simp), MultiIndex.weightAt_of_find hf, MultiIndex.weightAt_of_find hf,
      MultiIndex.weightAt]
    cases c.db.voterinfo.find () owner <;> rfl

theorem subBalance_eq_ok {value : Asset} (h : subBalance owner value e c = .ok (u, c')) :
    value.amount + c.db.locked owner ≤ c.db.balance owner (symbolName value.symbol) ∧
      ∃ o t ram, c.db.accounts.Writes owner (symbolName value.symbol) o t ∧
        c' = { c with db := { c.db with accounts := t }, ramDeltas := ram } ∧
        o.elim 0 (·.balance.amount) =
          c.db.balance owner (symbolName value.symbol) - value.amount ∧
        ∀ a, o = some a → a.balance.symbol = value.symbol := by
  simp only [subBalance, ran_iff, calls_iff, ite_run] at h
  obtain ⟨acnt, hacnt, frozen, c, hfrozen, hge, h⟩ := h
  obtain ⟨rfl, rfl⟩ := freezeCoreTokenAmount_eq_ok hfrozen
  have hbal : c.db.balance owner (symbolName value.symbol) = acnt.balance.amount :=
    MultiIndex.weightAt_of_find hacnt
  rw [hbal]
  refine ⟨hge, ?_⟩
  split_ifs at h with heq
  · obtain ⟨-, t, ram, hw, rfl⟩ := eraseRow_eq_ok h
    refine ⟨none, t, ram, hw, rfl, ?_, fun a ha => by cases ha⟩
    rw [heq, sub_self]
    rfl
  · obtain ⟨b', c₁, hu, t, ram, hw, rfl⟩ := modifyRow_of_find h hacnt
    simp only [ran_iff, Asset.sub_eq_ok] at hu
    obtain ⟨hsym, -, -, rfl, rfl⟩ := hu
    refine ⟨_, t, ram, hw, rfl, rfl, fun a ha => ?_⟩
    cases ha
    exact hsym.symm

theorem addBalance_eq_ok {value : Asset} {ramPayer : Name}
    (h : addBalance owner value ramPayer e c = .ok (u, c')) :
    ∃ a t ram, c.db.accounts.Writes owner (symbolName value.symbol) (some a) t ∧
      c' = { c with db := { c.db with accounts := t }, ramDeltas := ram } ∧
      a.balance.amount = c.db.balance owner (symbolName value.symbol) + value.amount ∧
      a.balance.symbol = value.symbol := by
  simp only [addBalance, ran_iff, calls_iff] at h
  unfold Db.balance
  cases hrow : c.db.accounts.find owner (symbolName value.symbol) with
  | none =>
    simp only [accountsTable_get, hrow] at h
    obtain ⟨-, t, ram, hw, rfl⟩ := emplace_eq_ok h
    rw [MultiIndex.weightAt_of_find_none hrow]
    exact ⟨_, t, ram, hw, rfl, (zero_add _).symm, rfl⟩
  | some acnt =>
    simp only [accountsTable_get, hrow] at h
    obtain ⟨b', c₁, hu, t, ram, hw, rfl⟩ := modifyRow_of_find h hrow
    simp only [ran_iff, Asset.add_eq_ok] at hu
    obtain ⟨hsym, -, -, rfl, rfl⟩ := hu
    rw [MultiIndex.weightAt_of_find hrow]
    exact ⟨_, t, ram, hw, rfl, rfl, hsym.symm⟩

/-- **A payment** of `q`: only balances change, the locked amount of the payer stays with it, and
no tokens are made or lost. -/
structure Moves (d d' : Db) (fromAccount toAccount : Name) (q : Asset) : Prop where
  frame : ∃ t, d' = { d with accounts := t }
  pos : 0 < q.amount
  stat : ∃ st, d.stat.find (symbolName q.symbol) (symbolName q.symbol) = some st ∧
    st.supply.symbol = q.symbol
  spendable : q.amount + d.locked fromAccount ≤ d.balance fromAccount (symbolName q.symbol)
  balance : ∀ owner sym, d'.balance owner sym = d.balance owner sym
    - (if owner = fromAccount ∧ sym = symbolName q.symbol then q.amount else 0)
    + (if owner = toAccount ∧ sym = symbolName q.symbol then q.amount else 0)
  symbol : ∀ owner sym a, d'.accounts.find owner sym = some a →
    (sym = symbolName q.symbol ∧ a.balance.symbol = q.symbol) ∨
      d.accounts.find owner sym = some a
  sum : ∀ sym, d'.sumBalances sym = d.sumBalances sym

theorem moves_of_eq_ok {ramPayer : Name} {c₁ : Ctx} {st : CurrencyStats}
    (hsub : subBalance fromAccount q e c = .ok (u, c₁))
    (hadd : addBalance toAccount q ramPayer e c₁ = .ok (u, c'))
    (hst : c.db.stat.find (symbolName q.symbol) (symbolName q.symbol) = some st)
    (hsym : st.supply.symbol = q.symbol) (hpos : 0 < q.amount) :
    Moves c.db c'.db fromAccount toAccount q ∧ c'.inlineActions = c.inlineActions := by
  obtain ⟨hge, o, t, ram, hw, rfl, hamount, hosym⟩ := subBalance_eq_ok hsub
  obtain ⟨a, t', ram', hw', rfl, hamount', hasym⟩ := addBalance_eq_ok hadd
  refine ⟨⟨⟨t', rfl⟩, hpos, ⟨st, hst, hsym⟩, hge, fun owner sym => ?_, fun owner sym b hb => ?_,
    fun sym => ?_⟩, rfl⟩
  · simp only [Db.balance] at hamount hamount' ⊢
    rw [hw'.weightAt, hw.weightAt]
    rw [hw.weightAt] at hamount'
    simp only [Option.elim_some, hamount', hamount]
    split_ifs <;> simp_all
  · rw [hw'.find] at hb
    split_ifs at hb with h₁
    · cases hb
      exact .inl ⟨h₁.2, hasym⟩
    · rw [hw.find] at hb
      split_ifs at hb with h₂
      · exact .inl ⟨h₂.2, hosym b hb⟩
      · exact .inr hb
  · have h₁ := hw.sum fun _ k a => if k = sym then a.balance.amount else 0
    have h₂ := MultiIndex.Writes.sum (t := t) hw'
      fun _ k a => if k = sym then a.balance.amount else 0
    rw [MultiIndex.weightAt_ite] at h₁ h₂
    show t'.sum _ = c.db.accounts.sum _
    simp only [Db.balance] at hamount hamount'
    by_cases hk : symbolName q.symbol = sym
    · simp only [if_pos hk, Option.elim_some] at h₁ h₂
      omega
    · simp only [if_neg hk, add_zero] at h₁ h₂
      rw [h₂, Option.elim_some, add_zero, h₁]
      cases o <;> simp

/-- **An issue** of `q`: the supply and the balance of the token's issuer grow. -/
structure Issues (d d' : Db) (issuer : Name) (q : Asset) : Prop where
  frame : ∃ ta ts, d' = { d with accounts := ta, stat := ts }
  pos : 0 < q.amount
  stat : ∃ st, d.stat.find (symbolName q.symbol) (symbolName q.symbol) = some st ∧
    st.issuer = issuer ∧ st.supply.symbol = q.symbol ∧
    st.supply.amount + q.amount ≤ st.maxSupply.amount ∧
    d.stat.Writes (symbolName q.symbol) (symbolName q.symbol)
      (some { st with supply := ⟨st.supply.amount + q.amount, st.supply.symbol⟩ }) d'.stat
  balance : ∀ owner sym, d'.balance owner sym = d.balance owner sym
    + (if owner = issuer ∧ sym = symbolName q.symbol then q.amount else 0)
  symbol : ∀ owner sym a, d'.accounts.find owner sym = some a →
    (sym = symbolName q.symbol ∧ a.balance.symbol = q.symbol) ∨
      d.accounts.find owner sym = some a
  sum : ∀ sym, d'.sumBalances sym =
    d.sumBalances sym + if sym = symbolName q.symbol then q.amount else 0

/-- **A new token**, not of the core symbol and without supply. -/
structure Creates (d d' : Db) (issuer : Name) (maximumSupply : Asset) : Prop where
  frame : ∃ ts, d' = { d with stat := ts }
  ne_core : maximumSupply.symbol ≠ coreSymbol
  pos : 0 < maximumSupply.amount
  fresh : d.stat.find (symbolName maximumSupply.symbol) (symbolName maximumSupply.symbol) = none
  stat : d.stat.Writes (symbolName maximumSupply.symbol) (symbolName maximumSupply.symbol)
    (some ⟨⟨0, maximumSupply.symbol⟩, maximumSupply, issuer⟩) d'.stat

/-- **What a token action does** to the tables, and whose authorization it needs. -/
inductive Effect (e : Env) (d d' : Db) : Prop
  | moves (fromAccount toAccount : Name) (q : Asset) (auth : e.HasAuth fromAccount)
      (h : Moves d d' fromAccount toAccount q)
  | issues (issuer : Name) (q : Asset) (auth : e.HasAuth issuer) (h : Issues d d' issuer q)
  | creates (issuer : Name) (maximumSupply : Asset) (auth : e.HasAuth tokenAccountName)
      (h : Creates d d' issuer maximumSupply)

/-! ## What the actions do -/

theorem transfer_eq_ok (h : transfer fromAccount toAccount q memo e c = .ok (u, c')) :
    fromAccount ≠ toAccount ∧ e.HasAuth fromAccount ∧
      Moves c.db c'.db fromAccount toAccount q ∧ c'.inlineActions = c.inlineActions := by
  simp only [transfer, ran_iff, calls_iff, isAccount_eq_ok] at h
  obtain ⟨hne, hauth, -, st, hst, c₁, h₁, c₂, h₂, -, hpos, hsym, -, c₃, hsub, hadd⟩ := h
  obtain ⟨l₁, rfl⟩ := requireRecipient_eq_ok h₁
  obtain ⟨l₂, rfl⟩ := requireRecipient_eq_ok h₂
  obtain ⟨hmoves, hinline⟩ := moves_of_eq_ok hsub hadd hst hsym.symm hpos
  exact ⟨hne, hauth, hmoves, hinline⟩

theorem fee_eq_ok {payer : Name} (h : fee payer q e c = .ok (u, c')) :
    e.HasAuth payer ∧ Moves c.db c'.db payer feeAccountName q ∧
      c'.inlineActions = c.inlineActions := by
  simp only [fee, ran_iff, calls_iff] at h
  obtain ⟨hauth, st, hst, -, hpos, hsym, c₁, hsub, hadd⟩ := h
  obtain ⟨hmoves, hinline⟩ := moves_of_eq_ok hsub hadd hst hsym.symm hpos
  exact ⟨hauth, hmoves, hinline⟩

theorem create_eq_ok {issuer : Name} {maximumSupply : Asset}
    (h : create issuer maximumSupply e c = .ok (u, c')) :
    e.HasAuth tokenAccountName ∧ Creates c.db c'.db issuer maximumSupply ∧
      c'.inlineActions = c.inlineActions := by
  simp only [create, ran_iff, calls_iff] at h
  obtain ⟨hauth, -, -, hpos, hne, -, h⟩ := h
  obtain ⟨hnone, t, ram, hw, rfl⟩ := emplace_eq_ok h
  exact ⟨hauth, ⟨⟨t, rfl⟩, hne, hpos, hnone, hw⟩, rfl⟩

theorem issues_of_writes {d : Db} {st : CurrencyStats} {a : Account}
    {ts : MultiIndex Name CurrencyStats} {ta : MultiIndex Name Account}
    (hst : d.stat.find (symbolName q.symbol) (symbolName q.symbol) = some st)
    (hpos : 0 < q.amount) (hsym : st.supply.symbol = q.symbol)
    (hle : q.amount ≤ st.maxSupply.amount - st.supply.amount)
    (hws : d.stat.Writes (symbolName q.symbol) (symbolName q.symbol)
      (some { st with supply := ⟨st.supply.amount + q.amount, st.supply.symbol⟩ }) ts)
    (hwa : d.accounts.Writes st.issuer (symbolName q.symbol) (some a) ta)
    (hamount : a.balance.amount = d.balance st.issuer (symbolName q.symbol) + q.amount)
    (hasym : a.balance.symbol = q.symbol) :
    Issues d { d with stat := ts, accounts := ta } st.issuer q := by
  refine ⟨⟨ta, ts, rfl⟩, hpos, ⟨st, hst, rfl, hsym, by omega, hws⟩, fun owner sym => ?_,
    fun owner sym b hb => ?_, fun sym => ?_⟩
  · simp only [Db.balance] at hamount ⊢
    rw [hwa.weightAt]
    simp only [Option.elim_some, hamount]
    split_ifs with hk
    · rw [hk.1, hk.2]
    · rw [add_zero]
  · rw [show ({ d with stat := ts, accounts := ta } : Db).accounts = ta from rfl, hwa.find] at hb
    split_ifs at hb with hk
    · cases hb
      exact .inl ⟨hk.2, hasym⟩
    · exact .inr hb
  · have hsum := hwa.sum fun _ k a => if k = sym then a.balance.amount else 0
    rw [MultiIndex.weightAt_ite] at hsum
    show ta.sum _ = d.accounts.sum _ + _
    simp only [Db.balance] at hamount
    by_cases hk : symbolName q.symbol = sym
    · simp only [if_pos hk, if_pos hk.symm, Option.elim_some] at hsum ⊢
      omega
    · simp only [if_neg hk, if_neg (Ne.symm hk), Option.elim_some, add_zero] at hsum ⊢
      exact hsum

theorem issue_eq_ok (h : issue toAccount q memo e c = .ok (u, c')) :
    ∃ issuer, e.HasAuth issuer ∧ Issues c.db c'.db issuer q ∧
      c'.inlineActions = c.inlineActions ++
        if toAccount = issuer then [] else [transferAction issuer toAccount q memo] := by
  simp only [issue, ran_iff, calls_iff, whenever_eq_ok] at h
  obtain ⟨-, -, st, hst, hauth, -, hpos, hsym, hle, c₁, hmod, c₂, hadd, hinline⟩ := h
  obtain ⟨b', c₃, hu, ts, ram, hws, rfl⟩ := modifyRow_of_find hmod hst
  simp only [ran_iff, Asset.add_eq_ok] at hu
  obtain ⟨-, -, -, rfl, rfl⟩ := hu
  obtain ⟨a, ta, ram', hwa, rfl, hamount, hasym⟩ := addBalance_eq_ok hadd
  have hissues : Issues c₃.db { c₃.db with stat := ts, accounts := ta } st.issuer q :=
    issues_of_writes hst hpos hsym.symm hle hws hwa hamount hasym
  refine ⟨st.issuer, hauth, ?_⟩
  rcases hinline with ⟨hne, hinline⟩ | ⟨heq, rfl⟩
  · rw [executeInline_eq_ok hinline, if_neg hne]
    exact ⟨hissues, rfl⟩
  · rw [if_pos (not_not.mp heq), List.append_nil]
    exact ⟨hissues, rfl⟩

theorem handle_eq_ok {a : TokenAction} (h : handle a e c = .ok (u, c')) :
    Effect e c.db c'.db ∧ ∃ sent, c'.inlineActions = c.inlineActions ++ sent ∧
      ∀ x ∈ sent, ∃ fromAccount toAccount q memo, e.HasAuth fromAccount ∧
        x = transferAction fromAccount toAccount q memo := by
  cases a with
  | create =>
    obtain ⟨hauth, hcreates, hinline⟩ := create_eq_ok h
    exact ⟨.creates _ _ hauth hcreates, [], by rw [hinline, List.append_nil], by simp⟩
  | issue toAccount q memo =>
    obtain ⟨issuer, hauth, hissues, hinline⟩ := issue_eq_ok h
    refine ⟨.issues _ _ hauth hissues, _, hinline, fun x hx => ?_⟩
    split_ifs at hx
    · cases hx
    · exact ⟨issuer, toAccount, q, memo, hauth, List.mem_singleton.mp hx⟩
  | transfer =>
    obtain ⟨-, hauth, hmoves, hinline⟩ := transfer_eq_ok h
    exact ⟨.moves _ _ _ hauth hmoves, [], by rw [hinline, List.append_nil], by simp⟩
  | fee =>
    obtain ⟨hauth, hmoves, hinline⟩ := fee_eq_ok h
    exact ⟨.moves _ _ _ hauth hmoves, [], by rw [hinline, List.append_nil], by simp⟩

theorem sendTokenInline_eq_ok (h : sendTokenInline fromAccount toAccount q memo e c = .ok (u, c')) :
    c' = { c with inlineActions := c.inlineActions ++
      if q.amount ≤ 0 then [] else [transferAction fromAccount toAccount q memo] } := by
  simp only [sendTokenInline, ran_iff, Asset.le_eq_ok, core_amount, whenever_eq_ok] at h
  obtain ⟨-, skip, hskip, h⟩ := h
  rw [hskip] at h
  rcases h with ⟨hq, h⟩ | ⟨hq, rfl⟩
  · rw [executeInline_eq_ok h, if_neg hq]
  · rw [if_pos (not_not.mp hq), List.append_nil]

end Token

end BaccChain
