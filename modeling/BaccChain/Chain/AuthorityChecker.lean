import BaccChain.Commons.Search
import BaccChain.Chain.Native
import Mathlib.Data.List.Sort

/-!
# The authority checker

`authority_checker.hpp`: the checker walks the entries of an authority from the heaviest to the
lightest until their weight reaches the threshold.

## Main definitions

* `satisfied`, `visitPermission`, `checkAuthorities`: the search
-/

namespace BaccChain

open Commons (Table check Search Goals)

/-! ## Entries of an authority -/

/-- An entry of an authority. -/
inductive MetaPermission
  | account (entry : PermissionLevelWeight)
  | key (entry : KeyWeight)
  | wait (entry : WaitWeight)

variable {l : List MetaPermission}

namespace MetaPermission

def weight : MetaPermission → Nat
  | account e => e.weight
  | key e => e.weight
  | wait e => e.weight

def which : MetaPermission → Nat
  | account _ => 0
  | key _ => 1
  | wait _ => 2

/-- Heavier entries come first; of entries of the same weight, waits come first and accounts
last. -/
def comesFirst (lhs rhs : MetaPermission) : Prop :=
  rhs.weight < lhs.weight ∨ (rhs.weight = lhs.weight ∧ rhs.which < lhs.which)

instance (lhs rhs : MetaPermission) : Decidable (comesFirst lhs rhs) :=
  inferInstanceAs (Decidable (_ ∨ _))

def totalWeight (l : List MetaPermission) : Nat := (l.map weight).sum

@[simp] theorem totalWeight_nil : totalWeight [] = 0 := rfl

@[simp] theorem totalWeight_cons (e : MetaPermission) (l : List MetaPermission) :
    totalWeight (e :: l) = e.weight + totalWeight l := by
  simp [totalWeight]

@[simp] theorem totalWeight_append (l l' : List MetaPermission) :
    totalWeight (l ++ l') = totalWeight l + totalWeight l' := by
  simp [totalWeight]

theorem totalWeight_le_of_sublist {l' : List MetaPermission} (h : l.Sublist l') :
    totalWeight l ≤ totalWeight l' :=
  (h.map weight).sum_le_sum (fun _ _ => Nat.zero_le _)

end MetaPermission

open MetaPermission (totalWeight)

def Authority.entries (auth : Authority) : List MetaPermission :=
  auth.waits.map .wait ++ auth.keys.map .key ++ auth.accounts.map .account

/-- The entries in the order of the walk. Entries that neither comes first keep the order in which
they are inserted. -/
def Authority.metaPermissions (auth : Authority) : List MetaPermission :=
  auth.entries.insertionSort fun lhs rhs => ¬ rhs.comesFirst lhs

theorem Authority.metaPermissions_perm (auth : Authority) :
    auth.metaPermissions.Perm auth.entries :=
  List.perm_insertionSort _ _

theorem Authority.account_mem_metaPermissions {auth : Authority} {e : PermissionLevelWeight} :
    .account e ∈ auth.metaPermissions ↔ e ∈ auth.accounts := by
  simp [auth.metaPermissions_perm.mem_iff, entries]

/-! ## The permissions -/

/-- The authorities of the permissions: what `get_permission` answers, with `none` where it throws,
which includes levels with an empty name. -/
structure PermissionTable where
  authority : PermissionLevel → Option Authority
  named : ∀ {p auth}, authority p = some auth → p.actor ≠ 0 ∧ p.permission ≠ 0

namespace PermissionTable

variable {table : PermissionTable} {p : PermissionLevel} {auth : Authority}

/-- All authorities are valid, and weights are 16-bit numbers. -/
structure Valid (table : PermissionTable) : Prop where
  validate : ∀ {p auth}, table.authority p = some auth → auth.validate = true
  weights : ∀ {p auth}, table.authority p = some auth → ∀ e ∈ auth.entries, e.weight < 2 ^ 16

def ofList (l : List (PermissionLevel × Authority))
    (hl : ∀ r ∈ l, r.1.actor ≠ 0 ∧ r.1.permission ≠ 0) : PermissionTable where
  authority p := (l.find? fun r => r.1 = p).map (·.2)
  named h := by
    obtain ⟨r, hr, -⟩ := Option.map_eq_some_iff.mp h
    obtain rfl := by simpa using List.find?_some hr
    exact hl r (List.mem_of_find?_eq_some hr)

theorem valid_ofList {l : List (PermissionLevel × Authority)}
    {hl : ∀ r ∈ l, r.1.actor ≠ 0 ∧ r.1.permission ≠ 0}
    (h : ∀ r ∈ l, r.2.validate = true ∧ ∀ e ∈ r.2.entries, e.weight < 2 ^ 16) :
    (ofList l hl).Valid := by
  constructor
  all_goals
    intro p auth hauth
    obtain ⟨r, hr, rfl⟩ := Option.map_eq_some_iff.mp hauth
  · exact (h r (List.mem_of_find?_eq_some hr)).1
  · exact (h r (List.mem_of_find?_eq_some hr)).2

theorem Valid.threshold_pos (htable : table.Valid) (h : table.authority p = some auth) :
    0 < auth.threshold := by
  have hv := htable.validate h
  simp only [Authority.validate, Bool.and_eq_true, decide_eq_true_eq] at hv
  omega

private theorem totalWeight_le_of_lt (hl : ∀ e ∈ l, e.weight < 2 ^ 16) :
    totalWeight l ≤ l.length * (2 ^ 16 - 1) := by
  induction l with
  | nil => simp
  | cons e l ih =>
    have he := hl e List.mem_cons_self
    have htail := ih fun e he => hl e (List.mem_cons_of_mem _ he)
    simp only [MetaPermission.totalWeight_cons, List.length_cons]
    omega

theorem Valid.totalWeight_lt (htable : table.Valid) (h : table.authority p = some auth) :
    totalWeight auth.metaPermissions < 2 ^ 32 := by
  have hlen : auth.metaPermissions.length ≤ 2 ^ 16 := by
    have hv := htable.validate h
    simp only [Authority.validate, Bool.and_eq_true, decide_eq_true_eq] at hv
    have hsum : auth.entries.length =
        auth.keys.length + auth.accounts.length + auth.waits.length := by
      simp only [Authority.entries, List.length_append, List.length_map]
      omega
    rw [auth.metaPermissions_perm.length_eq, hsum]
    omega
  have hle := totalWeight_le_of_lt (l := auth.metaPermissions) fun e he =>
    htable.weights h e (auth.metaPermissions_perm.mem_iff.mp he)
  omega

end PermissionTable

/-! ## The walk -/

/-- What a checker remembers of a permission. -/
inductive PermissionCacheStatus
  | beingEvaluated
  | permissionUnsatisfied
  | permissionSatisfied
  deriving DecidableEq

/-- `permission_cache_type`. -/
abbrev PermissionCache := PermissionLevel → Option PermissionCacheStatus

namespace PermissionCache

def set (cache : PermissionCache) (p : PermissionLevel) (status : PermissionCacheStatus) :
    PermissionCache :=
  fun q => if q = p then some status else cache q

@[simp] theorem set_self (cache : PermissionCache) (p : PermissionLevel)
    (status : PermissionCacheStatus) : cache.set p status p = some status := if_pos rfl

theorem set_of_ne {cache : PermissionCache} {p q : PermissionLevel} (h : q ≠ p)
    (status : PermissionCacheStatus) : cache.set p status q = cache q := if_neg h

/-- The status of a level in the cache, or else the status of its actor without a permission. -/
def permissionStatusInCache (permissions : PermissionCache) (level : PermissionLevel) :
    Option PermissionCacheStatus :=
  match permissions level with
  | some status => some status
  | none => permissions ⟨level.actor, 0⟩

end PermissionCache

/-- What a checker is given. -/
structure AuthorityChecker where
  permissionToAuthority : PermissionTable
  recursionDepthLimit : Nat
  providedKeys : List PublicKey
  providedPermissions : List PermissionLevel := []
  providedDelay : Int := 0

/-- What a checker changes during a call: the cache, and a marker for each key. -/
structure CheckState where
  cachedPermissions : PermissionCache
  usedKeys : PublicKey → Bool

namespace CheckState

/-- The state in which the authority of a permission is walked. -/
def enter (s : CheckState) (p : PermissionLevel) : CheckState :=
  { s with cachedPermissions := s.cachedPermissions.set p .beingEvaluated }

def leave (s : CheckState) (p : PermissionLevel) (r : Bool) : CheckState :=
  let status := if r then .permissionSatisfied else .permissionUnsatisfied
  { s with cachedPermissions := s.cachedPermissions.set p status }

@[simp] theorem enter_cachedPermissions (s : CheckState) (p : PermissionLevel) :
    (s.enter p).cachedPermissions = s.cachedPermissions.set p .beingEvaluated := rfl

@[simp] theorem enter_usedKeys (s : CheckState) (p : PermissionLevel) :
    (s.enter p).usedKeys = s.usedKeys := rfl

@[simp] theorem leave_cachedPermissions (s : CheckState) (p : PermissionLevel) (r : Bool) :
    (s.leave p r).cachedPermissions = s.cachedPermissions.set p
      (if r then .permissionSatisfied else .permissionUnsatisfied) := rfl

@[simp] theorem leave_usedKeys (s : CheckState) (p : PermissionLevel) (r : Bool) :
    (s.leave p r).usedKeys = s.usedKeys := rfl

end CheckState

namespace AuthorityChecker

variable (c : AuthorityChecker)

def initializePermissionCache : PermissionCache :=
  fun p => if p ∈ c.providedPermissions then some .permissionSatisfied else none

/-- One entry: whether its weight counts. The permissions that accounts name are settled by
`visitPermission`. -/
def visit (visitPermission : PermissionLevel → CheckState → Bool × CheckState) :
    MetaPermission → CheckState → Bool × CheckState
  | .wait e, s => (decide ((e.waitSec : Int) * 1000000 ≤ c.providedDelay), s)
  | .key e, s =>
    if e.key ∈ c.providedKeys then
      (true, { s with usedKeys := fun k => if k = e.key then true else s.usedKeys k })
    else (false, s)
  | .account e, s => visitPermission e.permission s

/-- The loop over the entries: it stops when the weight, a 32-bit number, reaches the threshold. -/
def tally (visitPermission : PermissionLevel → CheckState → Bool × CheckState) (threshold : Nat) :
    List MetaPermission → Nat → CheckState → Bool × CheckState
  | [], _, s => (false, s)
  | e :: es, total, s =>
    if threshold ≤ (if (c.visit visitPermission e s).1 then add32 total e.weight else total) then
      (true, (c.visit visitPermission e s).2)
    else
      tally visitPermission threshold es
        (if (c.visit visitPermission e s).1 then add32 total e.weight else total)
        (c.visit visitPermission e s).2

/-- The walk over an authority. If it is not satisfied, the keys newly used for it count as not
used. -/
def satisfiedAuthority (visitPermission : PermissionLevel → CheckState → Bool × CheckState)
    (auth : Authority) (s : CheckState) : Bool × CheckState :=
  if (c.tally visitPermission auth.threshold auth.metaPermissions 0 s).1 then
    (true, (c.tally visitPermission auth.threshold auth.metaPermissions 0 s).2)
  else
    (false, { (c.tally visitPermission auth.threshold auth.metaPermissions 0 s).2 with
      usedKeys := s.usedKeys })

/-- One permission: whether its weight counts. The number is what remains of the depth limit. -/
def visitPermission : Nat → PermissionLevel → CheckState → Bool × CheckState
  | remaining, p, s =>
    match s.cachedPermissions.permissionStatusInCache p with
    | some status => (decide (status = .permissionSatisfied), s)
    | none =>
      match remaining with
      | 0 => (false, s)
      | remaining + 1 =>
        match c.permissionToAuthority.authority p with
        | none => (false, s)
        | some auth =>
          let r := c.satisfiedAuthority (visitPermission remaining) auth (s.enter p)
          (r.1, r.2.leave p r.1)

/-- Whether the permission is satisfied, and the markers afterwards. Every call has its own
cache. -/
def satisfied (p : PermissionLevel) (usedKeys : PublicKey → Bool) :
    Bool × (PublicKey → Bool) :=
  let r := c.visitPermission c.recursionDepthLimit p
    { cachedPermissions := c.initializePermissionCache, usedKeys }
  (r.1, r.2.usedKeys)

def noKeys : PublicKey → Bool := fun _ => false

def filterUsed (usedKeys : PublicKey → Bool) : List PublicKey := c.providedKeys.filter usedKeys

/-! ## The walks for a transaction -/

end AuthorityChecker

def microsecondsMaximum : Int := 2 ^ 63 - 1

/-- What the checks read of an action: the authorizations it declares, and for an action that
cancels a delayed transaction the delay of that transaction. -/
structure DeclaredAction where
  authorization : List PermissionLevel
  canceledDelay : Option Int := none

/-- The keys among the candidates that the walks for the declared authorizations use. -/
def getRequiredKeys (table : PermissionTable) (maxAuthorityDepth : Nat)
    (actions : List DeclaredAction) (candidateKeys : List PublicKey) (providedDelay : Int) :
    Except String (List PublicKey) := do
  let checker : AuthorityChecker := ⟨table, maxAuthorityDepth, candidateKeys, [], providedDelay⟩
  let usedKeys ← (actions.flatMap (·.authorization)).foldlM (fun usedKeys p => do
    check ((checker.satisfied p usedKeys).1 = true)
      "transaction declares authority, but does not have signatures for it."
    return (checker.satisfied p usedKeys).2) AuthorityChecker.noKeys
  return checker.filterUsed usedKeys

def DeclaredAction.delay (act : DeclaredAction) (effectiveProvidedDelay : Int) : Int :=
  match act.canceledDelay with
  | some delay => max effectiveProvidedDelay delay
  | none => effectiveProvidedDelay

/-- A permission declared several times is checked with the shortest of its delays. -/
def addPermission (delay : Int) (permissions : Table (Name ×ₗ Name) Int) (p : PermissionLevel) :
    Table (Name ×ₗ Name) Int :=
  match permissions.find (toLex (p.actor, p.permission)) with
  | some old =>
    if delay < old then permissions.insert (toLex (p.actor, p.permission)) delay else permissions
  | none => permissions.insert (toLex (p.actor, p.permission)) delay

/-- The declared permissions with their delays, except those already satisfied. -/
def permissionsToSatisfy (actions : List DeclaredAction) (effectiveProvidedDelay : Int)
    (satisfiedAuthorizations : List PermissionLevel) : Table (Name ×ₗ Name) Int :=
  actions.foldl (fun permissions act =>
    (act.authorization.filter (· ∉ satisfiedAuthorizations)).foldl
      (addPermission (act.delay effectiveProvidedDelay)) permissions) .empty

/-- The authority checks of `check_authorization`: the declared permissions are satisfied, each
under its delay. -/
def checkAuthorities (table : PermissionTable) (maxAuthorityDepth : Nat) (delayMaxLimit : Int)
    (actions : List DeclaredAction) (providedKeys : List PublicKey)
    (providedPermissions : List PermissionLevel) (providedDelay : Int)
    (satisfiedAuthorizations : List PermissionLevel) : Except String (PublicKey → Bool) := do
  let effectiveProvidedDelay :=
    if delayMaxLimit ≤ providedDelay then microsecondsMaximum else providedDelay
  let checker (delay : Int) : AuthorityChecker :=
    ⟨table, maxAuthorityDepth, providedKeys, providedPermissions, delay⟩
  (permissionsToSatisfy actions effectiveProvidedDelay satisfiedAuthorizations).entries.foldlM
    (fun usedKeys (level, delay) => do
      check (((checker delay).satisfied ⟨(ofLex level).1, (ofLex level).2⟩ usedKeys).1 = true)
        "transaction declares authority, but does not have signatures for it under a provided delay"
      return ((checker delay).satisfied ⟨(ofLex level).1, (ofLex level).2⟩ usedKeys).2)
    AuthorityChecker.noKeys

namespace AuthorityChecker

variable (c : AuthorityChecker)

/-! ## The search behind the walk -/

/-- Provided, directly or through the actor without a permission. -/
def provided (p : PermissionLevel) : Bool :=
  decide (p ∈ c.providedPermissions ∨ ⟨p.actor, 0⟩ ∈ c.providedPermissions)

/-- The permissions that the walk expands are those that exist and are not provided. -/
def goals : Goals PermissionLevel where
  expands p := !c.provided p && (c.permissionToAuthority.authority p).isSome
  children p :=
    (c.permissionToAuthority.authority p).elim [] fun auth => auth.accounts.map (·.permission)

def holds (f : PermissionLevel → Bool) : MetaPermission → Bool
  | .wait e => decide ((e.waitSec : Int) * 1000000 ≤ c.providedDelay)
  | .key e => decide (e.key ∈ c.providedKeys)
  | .account e => f e.permission

variable {c}

variable {e : MetaPermission}

theorem holds_mono {c' : AuthorityChecker} {f f' : PermissionLevel → Bool}
    (hkeys : c.providedKeys ⊆ c'.providedKeys) (hdelay : c.providedDelay ≤ c'.providedDelay)
    (hf : ∀ a, e = .account a → f a.permission = true → f' a.permission = true)
    (h : c.holds f e = true) : c'.holds f' e = true := by
  cases e with
  | account a => exact hf a rfl h
  | key => exact decide_eq_true (hkeys (of_decide_eq_true h))
  | wait => exact decide_eq_true ((of_decide_eq_true h).trans hdelay)

theorem totalWeight_filter_mono {f f' : MetaPermission → Bool}
    (h : ∀ e ∈ l, f e = true → f' e = true) :
    totalWeight (l.filter f) ≤ totalWeight (l.filter f') := by
  refine MetaPermission.totalWeight_le_of_sublist ?_
  have hboth : l.filter f = (l.filter f').filter f := by
    rw [List.filter_filter]
    refine List.filter_congr fun e he => ?_
    cases hf : f e with
    | false => rfl
    | true => rw [h e he hf, Bool.and_self]
  rw [hboth]
  exact List.filter_sublist

variable (c)

/-- A permission that is not provided is satisfied when the satisfied entries of its authority
reach the threshold. -/
def search : Search PermissionLevel where
  toGoals := c.goals
  given := c.provided
  rule f p := (c.permissionToAuthority.authority p).any fun auth =>
    decide (auth.threshold ≤ totalWeight (auth.metaPermissions.filter (c.holds f)))
  rule_mono {f f' p} hf h := by
    rw [Option.any_eq_true] at h ⊢
    obtain ⟨auth, hauth, hle⟩ := h
    refine ⟨auth, hauth, decide_eq_true ((of_decide_eq_true hle).trans ?_)⟩
    refine totalWeight_filter_mono fun e he => holds_mono (fun _ hk => hk) le_rfl ?_
    rintro a rfl
    refine hf _ ?_
    simp only [goals, hauth, Option.elim_some, List.mem_map]
    exact ⟨a, Authority.account_mem_metaPermissions.mp he, rfl⟩

variable {c} {p q : PermissionLevel} {auth : Authority}

theorem expands_iff :
    c.goals.expands p = true ↔
      c.provided p = false ∧ ∃ auth, c.permissionToAuthority.authority p = some auth := by
  simp [goals, Option.isSome_iff_exists]

theorem account_mem_children (hauth : c.permissionToAuthority.authority p = some auth)
    {a : PermissionLevelWeight} (ha : .account a ∈ auth.metaPermissions) :
    a.permission ∈ c.goals.children p := by
  simp only [goals, hauth, Option.elim_some, List.mem_map]
  exact ⟨a, Authority.account_mem_metaPermissions.mp ha, rfl⟩

theorem provided_of_mem (hp : p ∈ c.providedPermissions) : c.provided p = true :=
  decide_eq_true (.inl hp)

theorem rule_eq (hauth : c.permissionToAuthority.authority p = some auth)
    (f : PermissionLevel → Bool) :
    c.search.rule f p =
      decide (auth.threshold ≤ totalWeight (auth.metaPermissions.filter (c.holds f))) := by
  simp [search, hauth]

/-! ## What the walk over an authority has found -/

variable {s' : CheckState} {r : Bool}

section Rule

variable {visitPermission : PermissionLevel → CheckState → Bool × CheckState} {threshold : Nat}
  {I : List MetaPermission → List MetaPermission → CheckState → Prop}

variable {es : List MetaPermission} {total : Nat} {s : CheckState}

theorem tally_cons_of_le
    (h : threshold ≤ (if (c.visit visitPermission e s).1 then add32 total e.weight else total)) :
    c.tally visitPermission threshold (e :: es) total s =
      (true, (c.visit visitPermission e s).2) := by
  rw [tally, if_pos h]

theorem tally_cons_of_lt
    (h : ¬ threshold ≤ (if (c.visit visitPermission e s).1 then add32 total e.weight else total)) :
    c.tally visitPermission threshold (e :: es) total s =
      c.tally visitPermission threshold es
        (if (c.visit visitPermission e s).1 then add32 total e.weight else total)
        (c.visit visitPermission e s).2 := by
  rw [tally, if_neg h]

theorem tally_rule {done hits : List MetaPermission}
    (hstep : ∀ e ∈ es, ∀ done hits s, I done hits s → totalWeight hits < threshold →
      I (done ++ [e]) (if (c.visit visitPermission e s).1 then hits ++ [e] else hits)
        (c.visit visitPermission e s).2) (hI : I done hits s) (htotal : total = totalWeight hits)
    (hlt : total < threshold) (hbound : total + totalWeight es < 2 ^ 32) :
    ∃ done' hits', I done' hits' (c.tally visitPermission threshold es total s).2 ∧
      done' <+: done ++ es ∧
      if (c.tally visitPermission threshold es total s).1 then threshold ≤ totalWeight hits'
      else done' = done ++ es ∧ totalWeight hits' < threshold := by
  induction es generalizing done hits total s with
  | nil => exact ⟨done, hits, hI, by simp, by simp [tally]; omega⟩
  | cons e es ih =>
    have hI' := hstep e List.mem_cons_self done hits s hI (htotal ▸ hlt)
    simp only [MetaPermission.totalWeight_cons] at hbound
    obtain ⟨total', htotal', hle⟩ : ∃ total',
        (if (c.visit visitPermission e s).1 then add32 total e.weight else total) = total' ∧
        total' ≤ total + e.weight ∧ total' =
          totalWeight (if (c.visit visitPermission e s).1 then hits ++ [e] else hits) := by
      refine ⟨_, rfl, ?_⟩
      split
      · rw [add32, Nat.mod_eq_of_lt (by omega)]
        simp [htotal]
      · exact ⟨by omega, htotal⟩
    by_cases hstop : threshold ≤ total'
    · rw [tally_cons_of_le (by rwa [htotal'])]
      refine ⟨_, _, hI', ?_, ?_⟩
      · exact ⟨es, by simp⟩
      · simpa using hle.2 ▸ hstop
    · rw [tally_cons_of_lt (by rwa [htotal']), htotal']
      obtain ⟨done', hits', hdone, hsub, hres⟩ :=
        ih (fun e he => hstep e (List.mem_cons_of_mem _ he)) hI' hle.2 (by omega) (by omega)
      rw [List.append_assoc, List.singleton_append] at hsub hres
      exact ⟨done', hits', hdone, hsub, hres⟩

/-- **The walk over an authority**: either the hits among the visited entries reach the threshold,
or all entries have been visited, the hits are too light and the markers are those from before. -/
theorem satisfiedAuthority_rule (htable : c.permissionToAuthority.Valid)
    (hauth : c.permissionToAuthority.authority p = some auth)
    {s' : CheckState} {r : Bool} (hr : c.satisfiedAuthority visitPermission auth s = (r, s'))
    (hI : I [] [] s) (hstep : ∀ e ∈ auth.metaPermissions, ∀ done hits s, I done hits s →
      totalWeight hits < auth.threshold → I (done ++ [e])
        (if (c.visit visitPermission e s).1 then hits ++ [e] else hits)
        (c.visit visitPermission e s).2) :
    ∃ done hits s'', I done hits s'' ∧ done <+: auth.metaPermissions ∧
      s'.cachedPermissions = s''.cachedPermissions ∧
      if r then s' = s'' ∧ auth.threshold ≤ totalWeight hits
      else s'.usedKeys = s.usedKeys ∧ done = auth.metaPermissions ∧
        totalWeight hits < auth.threshold := by
  have hpos := htable.threshold_pos hauth
  have hbound := htable.totalWeight_lt hauth
  obtain ⟨done, hits, hI', hsub, hres⟩ :=
    tally_rule hstep hI MetaPermission.totalWeight_nil.symm hpos (by omega)
  refine ⟨done, hits, _, hI', by simpa using hsub, ?_⟩
  rw [satisfiedAuthority] at hr
  split_ifs at hres hr with htally
  · cases hr
    exact ⟨rfl, rfl, hres⟩
  · cases hr
    exact ⟨rfl, rfl, by simpa using hres.1, hres.2⟩

end Rule

/-! ## One permission -/

variable {n : Nat} {s : CheckState} {cache cache' : PermissionCache}

variable {status : PermissionCacheStatus}

theorem visitPermission_of_cached {status : PermissionCacheStatus}
    (h : s.cachedPermissions.permissionStatusInCache p = some status) :
    c.visitPermission n p s = (decide (status = .permissionSatisfied), s) := by
  rw [visitPermission.eq_def]
  simp only [h]

theorem visitPermission_zero (h : s.cachedPermissions.permissionStatusInCache p = none) :
    c.visitPermission 0 p s = (false, s) := by
  rw [visitPermission.eq_def]
  simp only [h]

theorem visitPermission_of_missing (h : s.cachedPermissions.permissionStatusInCache p = none)
    (hauth : c.permissionToAuthority.authority p = none) :
    c.visitPermission n p s = (false, s) := by
  cases n with
  | zero => exact visitPermission_zero h
  | succ =>
    rw [visitPermission.eq_def]
    simp only [h, hauth]

theorem visitPermission_succ (h : s.cachedPermissions.permissionStatusInCache p = none)
    (hauth : c.permissionToAuthority.authority p = some auth)
    (hr : c.satisfiedAuthority (c.visitPermission n) auth (s.enter p) = (r, s')) :
    c.visitPermission (n + 1) p s = (r, s'.leave p r) := by
  rw [visitPermission.eq_def]
  simp only [h, hauth, hr]

/-- The cache holds the provided permissions, and otherwise only permissions that expand. -/
structure Primed (c : AuthorityChecker) (cache : PermissionCache) : Prop where
  provided : ∀ q ∈ c.providedPermissions, cache q = some .permissionSatisfied
  expands : ∀ q, cache q ≠ none → q ∉ c.providedPermissions → c.goals.expands q = true

theorem primed_initializePermissionCache : c.Primed c.initializePermissionCache where
  provided _ hq := if_pos hq
  expands _ hne hq := absurd (if_neg hq) hne

namespace Primed

theorem status_eq (h : c.Primed cache) (p : PermissionLevel) :
    cache.permissionStatusInCache p =
      if c.provided p then some .permissionSatisfied else cache p := by
  have hactor : ⟨p.actor, 0⟩ ∉ c.providedPermissions → cache ⟨p.actor, 0⟩ = none := by
    intro hp
    by_contra hne
    obtain ⟨-, auth, hauth⟩ := expands_iff.mp (h.expands _ hne hp)
    exact (c.permissionToAuthority.named hauth).2 rfl
  rw [PermissionCache.permissionStatusInCache]
  split_ifs with hgiven
  · rcases of_decide_eq_true hgiven with hp | hp
    · rw [h.provided p hp]
    · cases hcache : cache p with
      | none => exact h.provided _ hp
      | some =>
        by_cases hmem : p ∈ c.providedPermissions
        · rw [← hcache, h.provided p hmem]
        · have he := (expands_iff.mp (h.expands p (by simp [hcache]) hmem)).1
          rw [hgiven] at he
          cases he
  · have hnot : p ∉ c.providedPermissions ∧ ⟨p.actor, 0⟩ ∉ c.providedPermissions := by
      simpa [AuthorityChecker.provided, not_or] using hgiven
    rw [hactor hnot.2]
    cases cache p <;> rfl

theorem set (h : c.Primed cache) (hp : c.goals.expands p = true)
    (status : PermissionCacheStatus) : c.Primed (cache.set p status) where
  provided q hq := by
    rw [PermissionCache.set_of_ne, h.provided q hq]
    rintro rfl
    exact Bool.false_ne_true ((expands_iff.mp hp).1.symm.trans (provided_of_mem hq))
  expands q hne hq := by
    by_cases hqp : q = p
    · rwa [hqp]
    · exact h.expands q (by rwa [PermissionCache.set_of_ne hqp] at hne) hq

end Primed

/-- **Induction on the walk**: a permission is provided, or in the cache, or beyond the limit, or
does not exist, or its authority is walked. -/
theorem visitPermission_induction
    {P : Nat → PermissionLevel → CheckState → Bool × CheckState → Prop}
    (hgiven : ∀ n p s, c.provided p = true → P n p s (true, s))
    (hcached : ∀ n p s status, c.provided p = false → s.cachedPermissions p = some status →
      P n p s (decide (status = .permissionSatisfied), s))
    (hcut : ∀ p s, c.provided p = false → P 0 p s (false, s))
    (hmissing : ∀ n p s, c.provided p = false → c.permissionToAuthority.authority p = none →
      P n p s (false, s))
    (hwalk : ∀ n p s auth r s', c.Primed s.cachedPermissions → c.goals.expands p = true →
      s.cachedPermissions p = none → c.permissionToAuthority.authority p = some auth →
      (∀ q s, c.Primed s.cachedPermissions → P n q s (c.visitPermission n q s)) →
      c.satisfiedAuthority (c.visitPermission n) auth (s.enter p) = (r, s') →
      P (n + 1) p s (r, s'.leave p r))
    (n : Nat) (p : PermissionLevel) (s : CheckState) (hs : c.Primed s.cachedPermissions) :
    P n p s (c.visitPermission n p s) := by
  have hsettled : ∀ n p s, c.Primed s.cachedPermissions →
      (c.provided p = false → s.cachedPermissions p = none →
        s.cachedPermissions.permissionStatusInCache p = none →
        P n p s (c.visitPermission n p s)) →
      P n p s (c.visitPermission n p s) := by
    intro n p s hs hopen
    have hstatus := hs.status_eq p
    cases hp : c.provided p with
    | true =>
      rw [visitPermission_of_cached (hstatus.trans (if_pos hp))]
      exact hgiven n p s hp
    | false =>
      rw [if_neg (by simp [hp])] at hstatus
      cases hcache : s.cachedPermissions p with
      | some status =>
        rw [visitPermission_of_cached (hstatus.trans hcache)]
        exact hcached n p s status hp hcache
      | none => exact hopen hp hcache (hstatus.trans hcache)
  induction n generalizing p s with
  | zero =>
    refine hsettled 0 p s hs fun hp _ hstatus => ?_
    rw [visitPermission_zero hstatus]
    exact hcut p s hp
  | succ n ih =>
    refine hsettled (n + 1) p s hs fun hp hcache hstatus => ?_
    cases hauth : c.permissionToAuthority.authority p with
    | none =>
      rw [visitPermission_of_missing hstatus hauth]
      exact hmissing (n + 1) p s hp hauth
    | some auth =>
      have hr : c.satisfiedAuthority (c.visitPermission n) auth (s.enter p) = (_, _) := rfl
      rw [visitPermission_succ hstatus hauth hr]
      exact hwalk n p s auth _ _ hs (expands_iff.mpr ⟨hp, auth, hauth⟩) hcache hauth ih hr

/-! ## What the walk leaves in the cache -/

/-- Answers have been added for permissions up to `n` levels below `p`; what was in the cache has
not changed. -/
def Grows (c : AuthorityChecker) (n : Nat) (p : PermissionLevel) (cache cache' : PermissionCache) :
    Prop :=
  ∀ q, cache' q = cache q ∨ (cache q = none ∧
    (cache' q = some .permissionSatisfied ∨ cache' q = some .permissionUnsatisfied) ∧
    ∃ k < n, q ∈ c.goals.reach k p)

theorem grows_refl (c : AuthorityChecker) (n : Nat) (p : PermissionLevel)
    (cache : PermissionCache) : c.Grows n p cache cache :=
  fun _ => .inl rfl

namespace Grows

theorem of_some (h : c.Grows n p cache cache') (hq : cache q = some status) :
    cache' q = some status := by
  rcases h q with heq | ⟨hnone, -⟩
  · rw [heq, hq]
  · rw [hq] at hnone
    cases hnone

theorem beingEvaluated (h : c.Grows n p cache cache') (hq : cache' q = some .beingEvaluated) :
    cache q = some .beingEvaluated := by
  rcases h q with heq | ⟨-, hq' | hq', -⟩
  · rw [← heq, hq]
  all_goals
    rw [hq] at hq'
    cases hq'

theorem primed (h : c.Grows n p cache cache') (hc : c.Primed cache) : c.Primed cache' where
  provided q hq := h.of_some (hc.provided q hq)
  expands q hne hq := by
    rcases h q with heq | ⟨-, -, k, -, hk⟩
    · exact hc.expands q (by rwa [heq] at hne) hq
    · exact Goals.expands_of_mem_reach hk

theorem child {cache'' : PermissionCache} (h : c.Grows (n + 1) p cache cache')
    (hp : c.goals.expands p = true) (hq : q ∈ c.goals.children p)
    (h' : c.Grows n q cache' cache'') : c.Grows (n + 1) p cache cache'' := by
  intro x
  rcases h' x with heq | ⟨hnone, hset, k, hk, hx⟩
  · rw [heq]
    exact h x
  · rcases h x with heq | ⟨-, hset', -⟩
    · exact .inr ⟨heq ▸ hnone, hset, k + 1, by omega, Goals.mem_reach_succ.mpr ⟨hp, q, hq, hx⟩⟩
    · rw [hnone] at hset'
      rcases hset' with hset' | hset' <;> cases hset'

theorem leave (h : c.Grows (n + 1) p (s.enter p).cachedPermissions s'.cachedPermissions)
    (hp : c.goals.expands p = true) (hnone : s.cachedPermissions p = none) (r : Bool) :
    c.Grows (n + 1) p s.cachedPermissions (s'.leave p r).cachedPermissions := by
  intro q
  by_cases hq : q = p
  · subst hq
    refine .inr ⟨hnone, ?_, 0, by omega, Goals.self_mem_reach_zero hp⟩
    cases r <;> simp
  · have := h q
    simpa only [CheckState.leave_cachedPermissions, CheckState.enter_cachedPermissions,
      PermissionCache.set_of_ne hq] using this

end Grows

theorem visit_cases (visitPermission : PermissionLevel → CheckState → Bool × CheckState)
    (e : MetaPermission) (s : CheckState) :
    (∃ a, e = .account a ∧ c.visit visitPermission e s = visitPermission a.permission s) ∨
      ((∀ f, (c.visit visitPermission e s).1 = c.holds f e) ∧
        (c.visit visitPermission e s).2.cachedPermissions = s.cachedPermissions) := by
  cases e with
  | account a => exact .inl ⟨a, rfl, rfl⟩
  | wait => exact .inr ⟨fun _ => rfl, rfl⟩
  | key e =>
    refine .inr ?_
    by_cases hk : e.key ∈ c.providedKeys <;> simp [visit, holds, hk]

theorem Grows.visit (hauth : c.permissionToAuthority.authority p = some auth)
    (hp : c.goals.expands p = true) {e : MetaPermission} (he : e ∈ auth.metaPermissions)
    (hvisit : ∀ q s, c.Primed s.cachedPermissions →
      c.Grows n q s.cachedPermissions (c.visitPermission n q s).2.cachedPermissions)
    (hcache : c.Primed cache) (h : c.Grows (n + 1) p cache s.cachedPermissions) :
    c.Grows (n + 1) p cache (c.visit (c.visitPermission n) e s).2.cachedPermissions := by
  rcases visit_cases (c.visitPermission n) e s with ⟨a, rfl, heq⟩ | ⟨-, heq⟩
  · rw [heq]
    exact h.child hp (account_mem_children hauth he) (hvisit _ _ (h.primed hcache))
  · rwa [heq]

theorem visitPermission_grows (htable : c.permissionToAuthority.Valid) (n : Nat)
    (p : PermissionLevel) (s : CheckState) (hs : c.Primed s.cachedPermissions) :
    c.Grows n p s.cachedPermissions (c.visitPermission n p s).2.cachedPermissions := by
  refine visitPermission_induction
    (P := fun n p s r => c.Grows n p s.cachedPermissions r.2.cachedPermissions)
    ?_ ?_ ?_ ?_ ?_ n p s hs
  case refine_5 =>
    intro n p s auth r s' hs hp hnone hauth ih hr
    have henter : c.Primed (s.enter p).cachedPermissions := hs.set hp _
    obtain ⟨-, -, s'', hgrows, -, hcache, -⟩ := satisfiedAuthority_rule htable hauth hr
      (I := fun _ _ s' => c.Grows (n + 1) p (s.enter p).cachedPermissions s'.cachedPermissions)
      (grows_refl _ _ _ _) (fun e he _ _ s' h _ => h.visit hauth hp he ih henter)
    rw [← hcache] at hgrows
    exact Grows.leave hgrows hp hnone _
  all_goals intros; exact grows_refl _ _ _ _

end AuthorityChecker

end BaccChain
