import BaccChain.Chain.AuthorityChecker

/-!
# What the authority checker decides

The specification of the checker is a derivation: a permission is provided, or satisfied entries of
its authority reach the threshold.

## Main definitions

* `Derives`: satisfaction by a derivation
* `DepthConsistent`: the depth limit cuts nothing off

## Main results

* `derives_of_satisfied`: the checker is sound
* `satisfied_of_derives`: it is complete for consistent searches
* `satisfied_of_subset_keys`: more keys satisfy more
-/

namespace BaccChain

open Commons (Search Goals)
open MetaPermission (totalWeight)

namespace AuthorityChecker

variable {c : AuthorityChecker} {p q : PermissionLevel} {auth : Authority} {n m : Nat}

/-! ## Derivations -/

/-- A derivation tree of height at most `n`. -/
inductive Derives (c : AuthorityChecker) : Nat → PermissionLevel → Prop
  | provided {n : Nat} {p : PermissionLevel}
      (h : p ∈ c.providedPermissions ∨ ⟨p.actor, 0⟩ ∈ c.providedPermissions) : Derives c n p
  | authority {n : Nat} {p : PermissionLevel} {auth : Authority} {entries : List MetaPermission}
      (hauth : c.permissionToAuthority.authority p = some auth)
      (hentries : entries.Sublist auth.entries)
      (hkeys : ∀ e, .key e ∈ entries → e.key ∈ c.providedKeys)
      (hwaits : ∀ e, .wait e ∈ entries → (e.waitSec : Int) * 1000000 ≤ c.providedDelay)
      (haccounts : ∀ e, .account e ∈ entries → Derives c n e.permission)
      (hthreshold : auth.threshold ≤ totalWeight entries) : Derives c (n + 1) p

theorem totalWeight_filter_metaPermissions (auth : Authority) (f : MetaPermission → Bool) :
    totalWeight (auth.metaPermissions.filter f) = totalWeight (auth.entries.filter f) :=
  ((auth.metaPermissions_perm.filter f).map MetaPermission.weight).sum_eq

theorem within_succ_of_expands (hp : c.goals.expands p = true)
    (hauth : c.permissionToAuthority.authority p = some auth) :
    c.search.within (n + 1) p = decide (auth.threshold ≤
      totalWeight (auth.metaPermissions.filter (c.holds (c.search.within n)))) := by
  rw [Search.within_succ_of_not_given (expands_iff.mp hp).1, rule_eq hauth]
  change (c.goals.expands p && _) = _
  rw [hp, Bool.true_and]

variable {hits : List MetaPermission} {f : MetaPermission → Bool}

theorem le_totalWeight_of_hits {threshold : Nat} {l : List MetaPermission}
    (hle : threshold ≤ totalWeight hits) (hsub : hits.Sublist l) (hf : ∀ e ∈ hits, f e = true) :
    threshold ≤ totalWeight (l.filter f) := by
  rw [← List.filter_eq_self.mpr hf] at hle
  exact hle.trans (MetaPermission.totalWeight_le_of_sublist (hsub.filter f))

theorem derives_iff_within : c.Derives n p ↔ c.search.within n p = true := by
  constructor
  · intro h
    induction h with
    | provided h => exact Search.within_of_given (decide_eq_true h)
    | @authority n p auth entries hauth hsub hkeys hwaits _ hthreshold ih =>
      by_cases hp : c.provided p = true
      · exact Search.within_of_given hp
      have hp : c.provided p = false := by simpa using hp
      rw [within_succ_of_expands (expands_iff.mpr ⟨hp, auth, hauth⟩) hauth,
        totalWeight_filter_metaPermissions]
      refine decide_eq_true (le_totalWeight_of_hits hthreshold hsub ?_)
      rintro (e | e | e) he
      · exact ih e he
      · exact decide_eq_true (hkeys e he)
      · exact decide_eq_true (hwaits e he)
  · intro h
    induction n generalizing p with
    | zero => exact .provided (of_decide_eq_true h)
    | succ n ih =>
      by_cases hp : c.provided p = true
      · exact .provided (of_decide_eq_true hp)
      have hp : c.provided p = false := by simpa using hp
      rw [Search.within_succ_of_not_given hp, Bool.and_eq_true] at h
      obtain ⟨-, auth, hauth⟩ := expands_iff.mp h.1
      have hle := h.2
      rw [rule_eq hauth, decide_eq_true_iff, totalWeight_filter_metaPermissions] at hle
      refine .authority hauth List.filter_sublist ?_ ?_ ?_ hle
      · intro e he
        exact of_decide_eq_true (List.mem_filter.mp he).2
      · intro e he
        exact of_decide_eq_true (List.mem_filter.mp he).2
      · intro e he
        exact ih (List.mem_filter.mp he).2

instance : Decidable (c.Derives n p) := decidable_of_iff _ derives_iff_within.symm

theorem Derives.mono {c' : AuthorityChecker}
    (htable : c'.permissionToAuthority = c.permissionToAuthority)
    (hprovided : c'.providedPermissions = c.providedPermissions)
    (hkeys : c.providedKeys ⊆ c'.providedKeys) (hdelay : c.providedDelay ≤ c'.providedDelay)
    (h : c.Derives n p) : c'.Derives n p := by
  induction h with
  | provided => exact .provided (by rwa [hprovided])
  | authority hauth hsub hkeys' hwaits _ hthreshold ih =>
    exact .authority (by rwa [htable]) hsub (fun e he => hkeys (hkeys' e he))
      (fun e he => (hwaits e he).trans hdelay) ih hthreshold

/-! ## Soundness -/

def Supported (c : AuthorityChecker) (cache : PermissionCache) : Prop :=
  ∀ q, cache q = some .permissionSatisfied → ∃ m, c.search.within m q = true

variable {status : PermissionCacheStatus}

theorem Supported.set {cache : PermissionCache} (h : c.Supported cache)
    (hp : status = .permissionSatisfied → ∃ m, c.search.within m p = true) :
    c.Supported (cache.set p status) := by
  intro q hq
  by_cases hqp : q = p
  · subst hqp
    rw [PermissionCache.set_self] at hq
    exact hp (Option.some.inj hq)
  · exact h q (by rwa [PermissionCache.set_of_ne hqp] at hq)

variable {e : MetaPermission}

theorem holds_append (hhits : ∃ m, ∀ e ∈ hits, c.holds (c.search.within m) e = true)
    (he : ∃ m, c.holds (c.search.within m) e = true) :
    ∃ m, ∀ e' ∈ hits ++ [e], c.holds (c.search.within m) e' = true := by
  obtain ⟨m, hm⟩ := hhits
  obtain ⟨m', hm'⟩ := he
  refine ⟨max m m', fun e' he' => ?_⟩
  rcases List.mem_append.mp he' with he' | he'
  · exact holds_mono (fun _ hk => hk) le_rfl
      (fun _ _ => Search.within_mono (Nat.le_max_left m m')) (hm e' he')
  · obtain rfl := List.mem_singleton.mp he'
    exact holds_mono (fun _ hk => hk) le_rfl
      (fun _ _ => Search.within_mono (Nat.le_max_right m m')) hm'

theorem visitPermission_sound (htable : c.permissionToAuthority.Valid) (n : Nat)
    (p : PermissionLevel) (s : CheckState) (hs : c.Primed s.cachedPermissions)
    (hsup : c.Supported s.cachedPermissions) :
    ((c.visitPermission n p s).1 = true → ∃ m, c.search.within m p = true) ∧
      c.Supported (c.visitPermission n p s).2.cachedPermissions := by
  refine visitPermission_induction (P := fun n p s r => c.Supported s.cachedPermissions →
      (r.1 = true → ∃ m, c.search.within m p = true) ∧ c.Supported r.2.cachedPermissions)
    ?_ ?_ ?_ ?_ ?_ n p s hs hsup
  case refine_1 =>
    intro n p s hp hsup
    exact ⟨fun _ => ⟨0, Search.within_of_given hp⟩, hsup⟩
  case refine_2 =>
    intro n p s status _ hcached hsup
    refine ⟨fun hsat => hsup p ?_, hsup⟩
    rw [hcached, of_decide_eq_true hsat]
  case refine_5 =>
    intro n p s auth r s' hs hp _ hauth ih hr hsup
    have henter : c.Primed (s.enter p).cachedPermissions := hs.set hp _
    obtain ⟨done, hits, s'', ⟨-, hsup'', hsub, m, hm⟩, hdone, hcache, hres⟩ :=
      satisfiedAuthority_rule htable hauth hr
        (I := fun done hits s' =>
          c.Grows (n + 1) p (s.enter p).cachedPermissions s'.cachedPermissions ∧
          c.Supported s'.cachedPermissions ∧ hits.Sublist done ∧
          ∃ m, ∀ e ∈ hits, c.holds (c.search.within m) e = true)
        ⟨grows_refl _ _ _ _, hsup.set (by simp), List.Sublist.refl _, 0, by simp⟩
        (by
          rintro e he done hits s' ⟨hgrows, hsup', hsub, hhits⟩ -
          refine ⟨hgrows.visit hauth hp he (visitPermission_grows htable n) henter, ?_⟩
          have hentry : ((c.visit (c.visitPermission n) e s').1 = true →
              ∃ m, c.holds (c.search.within m) e = true) ∧
              c.Supported (c.visit (c.visitPermission n) e s').2.cachedPermissions := by
            rcases visit_cases (c.visitPermission n) e s' with ⟨a, rfl, heq⟩ | ⟨hholds, heq⟩
            · rw [heq]
              exact ih a.permission s' (hgrows.primed henter) hsup'
            · exact ⟨fun h => ⟨0, hholds _ ▸ h⟩, heq ▸ hsup'⟩
          refine ⟨hentry.2, ?_⟩
          split_ifs with hhit
          · exact ⟨hsub.append (List.Sublist.refl _), holds_append hhits (hentry.1 hhit)⟩
          · exact ⟨hsub.trans (List.sublist_append_left _ _), hhits⟩)
    have hwithin : r = true → c.search.within (m + 1) p = true := by
      rintro rfl
      rw [within_succ_of_expands hp hauth]
      exact decide_eq_true
        (le_totalWeight_of_hits hres.2 (hsub.trans hdone.sublist) hm)
    refine ⟨fun h => ⟨m + 1, hwithin h⟩, ?_⟩
    rw [CheckState.leave_cachedPermissions, hcache]
    refine hsup''.set fun hsat => ⟨m + 1, hwithin ?_⟩
    cases r with
    | true => rfl
    | false => cases hsat
  all_goals
    intros
    exact ⟨by simp, by assumption⟩

/-! ## Exactness -/

/-- The limit cuts off no permission that occurs at several depths below `p`: at the deeper of the
two, nothing below it expands as far down as the limit. -/
def DepthConsistent (c : AuthorityChecker) (p : PermissionLevel) : Prop :=
  c.goals.Consistent c.recursionDepthLimit p

instance : Decidable (c.DepthConsistent p) :=
  inferInstanceAs (Decidable (Goals.Consistent _ _ _))

section Exact

variable {root : PermissionLevel} {cache cache' : PermissionCache} {s : CheckState}

/-- What is cached is what the search finds. -/
def Exact (c : AuthorityChecker) (root : PermissionLevel) (cache : PermissionCache) : Prop :=
  ∀ q status, c.provided q = false → cache q = some status → status ≠ .beingEvaluated →
    ∃ d ≤ c.recursionDepthLimit, q ∈ c.goals.reach d root ∧
      decide (status = .permissionSatisfied) = c.search.within (c.recursionDepthLimit - d) q

theorem Exact.set (h : c.Exact root cache) {status : PermissionCacheStatus}
    (hp : status ≠ .beingEvaluated → ∃ d ≤ c.recursionDepthLimit, p ∈ c.goals.reach d root ∧
      decide (status = .permissionSatisfied) = c.search.within (c.recursionDepthLimit - d) p) :
    c.Exact root (cache.set p status) := by
  intro q status' hgiven hq hne
  by_cases hqp : q = p
  · subst hqp
    rw [PermissionCache.set_self] at hq
    cases hq
    exact hp hne
  · exact h q status' hgiven (by rwa [PermissionCache.set_of_ne hqp] at hq) hne

def Above (c : AuthorityChecker) (root : PermissionLevel) (n : Nat) (p : PermissionLevel)
    (cache : PermissionCache) : Prop :=
  ∀ b, cache b = some .beingEvaluated → c.goals.expands p = true →
    ∃ d k, b ∈ c.goals.reach d root ∧ p ∈ c.goals.reach (k + 1) b ∧
      d + (k + 1) + n = c.recursionDepthLimit

def Occurs (c : AuthorityChecker) (root : PermissionLevel) (n : Nat) (p : PermissionLevel) :
    Prop :=
  c.goals.expands p = true → ∃ d, d + n = c.recursionDepthLimit ∧ p ∈ c.goals.reach d root

theorem Occurs.child (h : c.Occurs root (n + 1) p) (hp : c.goals.expands p = true)
    (hq : q ∈ c.goals.children p) : c.Occurs root n q := by
  intro he
  obtain ⟨d, hd, hmem⟩ := h hp
  exact ⟨d + 1, by omega, Goals.mem_reach_child hmem hq he⟩

theorem Above.child (h : c.Above root (n + 1) p s.cachedPermissions)
    (hocc : c.Occurs root (n + 1) p) (hp : c.goals.expands p = true)
    (hq : q ∈ c.goals.children p) : c.Above root n q (s.enter p).cachedPermissions := by
  intro b hb he
  by_cases hbp : b = p
  · subst hbp
    obtain ⟨d, hd, hmem⟩ := hocc hp
    exact ⟨d, 0, hmem, Goals.mem_reach_child (Goals.self_mem_reach_zero hp) hq he, by omega⟩
  · have hb' : s.cachedPermissions b = some .beingEvaluated := by
      rwa [CheckState.enter_cachedPermissions, PermissionCache.set_of_ne hbp] at hb
    obtain ⟨d, k, hmem, hk, hsum⟩ := h b hb' hp
    exact ⟨d, k + 1, hmem, Goals.mem_reach_child hk hq he, by omega⟩

theorem Above.of_grows (h : c.Above root n q cache) (hgrows : c.Grows m p cache cache') :
    c.Above root n q cache' :=
  fun b hb he => h b (hgrows.beingEvaluated hb) he

theorem Exact.answer (hc : c.DepthConsistent root) (h : c.Exact root cache)
    (hocc : c.Occurs root n p) (habove : c.Above root n p cache) (hcache : c.Primed cache)
    (hp : c.provided p = false) (hstatus : cache p = some status) :
    decide (status = .permissionSatisfied) = c.search.within n p := by
  have he : c.goals.expands p = true := by
    refine hcache.expands p (by simp [hstatus]) fun hmem => ?_
    rw [provided_of_mem hmem] at hp
    cases hp
  obtain ⟨d, hd, hmem⟩ := hocc he
  by_cases hbeing : status = .beingEvaluated
  · subst hbeing
    obtain ⟨d', k, hmem', hself, hsum⟩ := habove p hstatus he
    exact absurd hself (hc.not_mem_reach_self (by omega) hmem')
  · obtain ⟨d', hd', hmem', hans⟩ := h p status hp hstatus hbeing
    have heq := Search.within_eq_of_consistent (S := c.search) hc hd' (by omega) hmem' hmem
    rw [hans, heq]
    congr 1
    omega

variable {done : List MetaPermission}

theorem within_eq_of_hits (hp : c.goals.expands p = true)
    (hauth : c.permissionToAuthority.authority p = some auth) {done : List MetaPermission}
    (hdone : done <+: auth.metaPermissions) {r : Bool} {A B : Prop}
    (hres : if r then A ∧ auth.threshold ≤ totalWeight (done.filter (c.holds (c.search.within n)))
      else B ∧ done = auth.metaPermissions ∧
        totalWeight (done.filter (c.holds (c.search.within n))) < auth.threshold) :
    c.search.within (n + 1) p = r := by
  rw [within_succ_of_expands hp hauth]
  cases r with
  | true =>
    refine decide_eq_true (hres.2.trans (MetaPermission.totalWeight_le_of_sublist ?_))
    exact hdone.sublist.filter _
  | false =>
    obtain ⟨-, rfl, hlt⟩ := hres
    exact decide_eq_false (Nat.not_le.mpr hlt)

theorem hits_eq_filter {hit : Bool} (h : hit = f e) :
    (if hit then done.filter f ++ [e] else done.filter f) = (done ++ [e]).filter f := by
  rw [h, List.filter_append]
  split_ifs with hf <;> simp [hf]

theorem visit_exact (hauth : c.permissionToAuthority.authority p = some auth)
    (hp : c.goals.expands p = true) (hs : c.Primed s.cachedPermissions)
    (hocc : c.Occurs root (n + 1) p) (habove : c.Above root (n + 1) p s.cachedPermissions)
    (hvisit : ∀ q s, c.Primed s.cachedPermissions → c.Primed s.cachedPermissions →
      c.Occurs root n q → c.Above root n q s.cachedPermissions → c.Exact root s.cachedPermissions →
      (c.visitPermission n q s).1 = c.search.within n q ∧
        c.Exact root (c.visitPermission n q s).2.cachedPermissions)
    {e : MetaPermission} (he : e ∈ auth.metaPermissions) {s' : CheckState}
    (hgrows : c.Grows (n + 1) p (s.enter p).cachedPermissions s'.cachedPermissions)
    (hexact : c.Exact root s'.cachedPermissions) :
    (c.visit (c.visitPermission n) e s').1 = c.holds (c.search.within n) e ∧
      c.Exact root (c.visit (c.visitPermission n) e s').2.cachedPermissions := by
  have hs' := hgrows.primed (hs.set hp _)
  rcases visit_cases (c.visitPermission n) e s' with ⟨a, rfl, heq⟩ | ⟨hholds, heq⟩
  · rw [heq]
    have hchild := account_mem_children hauth he
    exact hvisit a.permission s' hs' hs' (hocc.child hp hchild)
      ((habove.child hocc hp hchild).of_grows hgrows) hexact
  · exact ⟨hholds _, heq ▸ hexact⟩

/-- **Exactness of the walk**: in a consistent search a visit answers as the search without a cache
does, and leaves only such answers. -/
theorem visitPermission_exact (htable : c.permissionToAuthority.Valid)
    (hc : c.DepthConsistent root) (n : Nat) (p : PermissionLevel) (s : CheckState)
    (hs : c.Primed s.cachedPermissions) (hocc : c.Occurs root n p)
    (habove : c.Above root n p s.cachedPermissions) (hexact : c.Exact root s.cachedPermissions) :
    (c.visitPermission n p s).1 = c.search.within n p ∧
      c.Exact root (c.visitPermission n p s).2.cachedPermissions := by
  refine visitPermission_induction (P := fun n p s r => c.Primed s.cachedPermissions →
      c.Occurs root n p → c.Above root n p s.cachedPermissions →
      c.Exact root s.cachedPermissions →
      r.1 = c.search.within n p ∧ c.Exact root r.2.cachedPermissions)
    ?_ ?_ ?_ ?_ ?_ n p s hs hs hocc habove hexact
  case refine_1 =>
    intro n p s hp _ _ _ hexact
    exact ⟨(Search.within_of_given hp).symm, hexact⟩
  case refine_2 =>
    intro n p s status hp hstatus hs hocc habove hexact
    exact ⟨hexact.answer hc hocc habove hs hp hstatus, hexact⟩
  case refine_3 =>
    intro p s hp _ _ _ hexact
    exact ⟨hp.symm, hexact⟩
  case refine_4 =>
    intro n p s hp hauth _ _ _ hexact
    refine ⟨(Search.within_of_not_expands hp ?_).symm, hexact⟩
    simp [search, goals, hauth]
  case refine_5 =>
    intro n p s auth r s' hs hp _ hauth ih hr _ hocc habove hexact
    have henter : c.Primed (s.enter p).cachedPermissions := hs.set hp _
    obtain ⟨done, hits, s'', ⟨-, hexact'', rfl⟩, hdone, hcache, hres⟩ :=
      satisfiedAuthority_rule htable hauth hr
        (I := fun done hits s' =>
          c.Grows (n + 1) p (s.enter p).cachedPermissions s'.cachedPermissions ∧
          c.Exact root s'.cachedPermissions ∧ hits = done.filter (c.holds (c.search.within n)))
        ⟨grows_refl _ _ _ _, hexact.set (by simp), rfl⟩
        (by
          rintro e he done hits s' ⟨hgrows, hexact', rfl⟩ -
          refine ⟨hgrows.visit hauth hp he (visitPermission_grows htable n) henter, ?_⟩
          have hentry := visit_exact hauth hp hs hocc habove ih he hgrows hexact'
          exact ⟨hentry.2, hits_eq_filter hentry.1⟩)
    have hwithin := within_eq_of_hits hp hauth hdone hres
    refine ⟨hwithin.symm, ?_⟩
    obtain ⟨d, hd, hmem⟩ := hocc hp
    rw [CheckState.leave_cachedPermissions, hcache]
    refine hexact''.set fun _ => ⟨d, by omega, hmem, ?_⟩
    rw [show c.recursionDepthLimit - d = n + 1 by omega, hwithin]
    cases r <;> rfl

end Exact

theorem occurs_self (c : AuthorityChecker) (p : PermissionLevel) :
    c.Occurs p c.recursionDepthLimit p :=
  fun he => ⟨0, Nat.zero_add _, Goals.self_mem_reach_zero he⟩

theorem provided_of_initializePermissionCache (h : c.initializePermissionCache q = some status) :
    c.provided q = true ∧ status = .permissionSatisfied := by
  rw [initializePermissionCache] at h
  split_ifs at h with hq
  exact ⟨provided_of_mem hq, (Option.some.inj h).symm⟩

theorem above_initializePermissionCache (root : PermissionLevel) :
    c.Above root n p c.initializePermissionCache := by
  intro b hb
  cases (provided_of_initializePermissionCache hb).2

theorem exact_initializePermissionCache (root : PermissionLevel) :
    c.Exact root c.initializePermissionCache := by
  intro q status hq hstatus
  rw [(provided_of_initializePermissionCache hstatus).1] at hq
  cases hq

theorem supported_initializePermissionCache : c.Supported c.initializePermissionCache :=
  fun _ hq => ⟨0, Search.within_of_given (provided_of_initializePermissionCache hq).1⟩

/-- **The checker decides the derivations**: in a consistent search a call answers whether there is
a derivation within the limit. -/
theorem satisfied_eq_within (htable : c.permissionToAuthority.Valid)
    (hc : c.DepthConsistent p) (usedKeys : PublicKey → Bool) :
    (c.satisfied p usedKeys).1 = c.search.within c.recursionDepthLimit p :=
  (visitPermission_exact htable hc _ p _ primed_initializePermissionCache (c.occurs_self p)
    (above_initializePermissionCache p) (exact_initializePermissionCache p)).1

/-! ## Calls -/

def withDelay (c : AuthorityChecker) (overrideProvidedDelay : Option Int) : AuthorityChecker :=
  { c with providedDelay := overrideProvidedDelay.getD c.providedDelay }

/-- The answers to a sequence of calls. -/
def answers (c : AuthorityChecker) :
    List (PermissionLevel × Option Int) → (PublicKey → Bool) → List Bool
  | [], _ => []
  | (p, delay) :: calls, usedKeys =>
    ((c.withDelay delay).satisfied p usedKeys).1 ::
      c.answers calls ((c.withDelay delay).satisfied p usedKeys).2

theorem exists_satisfied_of_mem_answers {calls : List (PermissionLevel × Option Int)}
    {usedKeys : PublicKey → Bool} {x : (PermissionLevel × Option Int) × Bool}
    (hx : x ∈ calls.zip (c.answers calls usedKeys)) :
    ∃ usedKeys', ((c.withDelay x.1.2).satisfied x.1.1 usedKeys').1 = x.2 := by
  induction calls generalizing usedKeys with
  | nil => simp [answers] at hx
  | cons call calls ih =>
    rw [answers, List.zip_cons_cons, List.mem_cons] at hx
    rcases hx with rfl | hx
    · exact ⟨usedKeys, rfl⟩
    · exact ih hx

/-- **Soundness**: with valid authorities a call that answers `true` has a derivation, and in a
consistent search one within the limit. -/
theorem derives_of_satisfied (c : AuthorityChecker) (htable : c.permissionToAuthority.Valid)
    (calls : List (PermissionLevel × Option Int))
    (usedKeys : PublicKey → Bool) (p : PermissionLevel) (delay : Option Int)
    (h : ((p, delay), true) ∈ calls.zip (c.answers calls usedKeys)) :
    (∃ n, (c.withDelay delay).Derives n p) ∧
      (c.DepthConsistent p → (c.withDelay delay).Derives c.recursionDepthLimit p) := by
  obtain ⟨usedKeys', hsat⟩ := exists_satisfied_of_mem_answers h
  constructor
  · obtain ⟨m, hm⟩ := (visitPermission_sound (c := c.withDelay delay) htable _ p _
      primed_initializePermissionCache supported_initializePermissionCache).1 hsat
    exact ⟨m, derives_iff_within.mpr hm⟩
  · intro hc
    have hc' : (c.withDelay delay).DepthConsistent p := hc
    rw [satisfied_eq_within (c := c.withDelay delay) htable hc'] at hsat
    exact derives_iff_within.mpr hsat

def level (actor : Name) : PermissionLevel := ⟨actor, 1⟩

def quorum (threshold : Nat) (keys : List (PublicKey × Nat)) (actors : List (Name × Nat)) :
    Authority where
  threshold
  keys := keys.map fun k => ⟨k.1, k.2⟩
  accounts := actors.map fun a => ⟨level a.1, a.2⟩

def ladder : PermissionTable :=
  .ofList
    [(level 9, quorum 3 [] [(1, 1), (2, 1), (3, 1)]), (level 1, quorum 1 [(7, 1)] []),
      (level 2, quorum 1 [] [(1, 1)]), (level 3, quorum 1 [] [(2, 1)])]
    (by decide +kernel)

theorem valid_ladder : ladder.Valid := PermissionTable.valid_ofList (by decide +kernel)

theorem derives_of_satisfied_ladder :
    AuthorityChecker.Derives ⟨ladder, 4, [7], [], 0⟩ 4 (level 9) :=
  (derives_of_satisfied ⟨ladder, 4, [7], [], 0⟩ valid_ladder [(level 9, none)] noKeys (level 9) none
    (by decide +kernel)).2 (by decide +kernel)

/-- With a limit of 2 the derivation is too high, but the walk finds each actor in the cache. -/
theorem satisfied_beyond_limit :
    ladder.Valid ∧
      AuthorityChecker.answers ⟨ladder, 2, [7], [], 0⟩ [(level 9, none)] noKeys = [true] ∧
      ¬ AuthorityChecker.Derives ⟨ladder, 2, [7], [], 0⟩ 2 (level 9) :=
  ⟨valid_ladder, by decide +kernel⟩

/-- **Completeness**: in a consistent search a derivation within the limit is found. -/
theorem satisfied_of_derives (c : AuthorityChecker) (htable : c.permissionToAuthority.Valid)
    (p : PermissionLevel) (hc : c.DepthConsistent p) (h : c.Derives c.recursionDepthLimit p) :
    (c.satisfied p noKeys).1 = true := by
  rw [satisfied_eq_within htable hc]
  exact derives_iff_within.mp h

theorem satisfied_of_derives_ladder :
    (AuthorityChecker.satisfied ⟨ladder, 4, [7], [], 0⟩ (level 9) noKeys).1 = true :=
  satisfied_of_derives ⟨ladder, 4, [7], [], 0⟩ valid_ladder (level 9) (by decide +kernel)
    (by decide +kernel)

def shortcut : PermissionTable :=
  .ofList
    [(level 9, quorum 1 [] [(1, 2), (2, 1)]), (level 1, quorum 1 [] [(2, 1)]),
      (level 2, quorum 1 [] [(3, 1)]), (level 3, quorum 1 [(7, 1)] [])]
    (by decide +kernel)

/-- Actor 2 is first visited below actor 1, where the limit cuts actor 3 off; directly below
actor 9 it is then in the cache as not satisfied. -/
theorem derives_not_satisfied :
    shortcut.Valid ∧ AuthorityChecker.Derives ⟨shortcut, 3, [7], [], 0⟩ 3 (level 9) ∧
      (AuthorityChecker.satisfied ⟨shortcut, 3, [7], [], 0⟩ (level 9) noKeys).1 = false :=
  ⟨PermissionTable.valid_ofList (by decide +kernel), by decide +kernel⟩

/-- **More keys satisfy more**, in a consistent search. -/
theorem satisfied_of_subset_keys (c : AuthorityChecker)
    (htable : c.permissionToAuthority.Valid) (p : PermissionLevel) (hc : c.DepthConsistent p)
    (keys : List PublicKey) (hkeys : c.providedKeys ⊆ keys) (h : (c.satisfied p noKeys).1 = true) :
    (AuthorityChecker.satisfied { c with providedKeys := keys } p noKeys).1 = true := by
  rw [satisfied_eq_within htable hc, ← derives_iff_within] at h
  have hc' : AuthorityChecker.DepthConsistent { c with providedKeys := keys } p := hc
  rw [satisfied_eq_within (c := { c with providedKeys := keys }) htable hc', ← derives_iff_within]
  exact Derives.mono (c := c) rfl rfl hkeys le_rfl h

theorem satisfied_of_subset_keys_ladder :
    (AuthorityChecker.satisfied ⟨ladder, 4, [7, 8], [], 0⟩ (level 9) noKeys).1 = true :=
  satisfied_of_subset_keys ⟨ladder, 4, [7], [], 0⟩ valid_ladder (level 9) (by decide +kernel)
    [7, 8] (by decide) (by decide +kernel)

/-- Two of the actors 1, 2 and 3 satisfy actor 9 together. -/
def detour : PermissionTable :=
  .ofList
    [(level 9, quorum 5 [] [(1, 4), (2, 3), (3, 2)]), (level 1, quorum 2 [(8, 2)] [(4, 1)]),
      (level 2, quorum 1 [] [(5, 1)]), (level 3, quorum 1 [] [(6, 1)]),
      (level 5, quorum 1 [] [(4, 1)]), (level 6, quorum 1 [] [(4, 1)]),
      (level 4, quorum 1 [] [(10, 1)]), (level 10, quorum 1 [(7, 1)] [])]
    (by decide +kernel)

/-- Without key 8, actor 4 is visited below actor 1 and found satisfied. -/
theorem more_keys_not_satisfied :
    detour.Valid ∧
      (AuthorityChecker.satisfied ⟨detour, 4, [7], [], 0⟩ (level 9) noKeys).1 = true ∧
      (AuthorityChecker.satisfied ⟨detour, 4, [7, 8], [], 0⟩ (level 9) noKeys).1 = false :=
  ⟨PermissionTable.valid_ofList (by decide +kernel), by decide +kernel⟩

end AuthorityChecker

end BaccChain
