import BaccChain.Properties.AuthoritySearch

/-!
# The keys that a walk uses

The keys used for an authority that is not satisfied in the end are forgotten, but the permissions
found satisfied on the way stay in the cache. A trail of the walk tells which of them were lost in
this way.

## Main definitions

* `AuthorityChecker.trail`: the permissions that a walk has settled and those it has lost
* `AuthorityChecker.Forgets`: a lost permission counts for the answer

## Main results

* `AuthorityChecker.usedKeys_suffice`: unless that happens, the used keys satisfy the permission
* `AuthorityChecker.usedKeys_not_suffice`: a permission that is satisfied without any used key
-/

namespace BaccChain

open Commons (Table Search Goals bind_eq_ok pure_eq_ok check_eq_ok)
open Commons.Program (exists_unit)
open MetaPermission (totalWeight)

namespace AuthorityChecker

/-! ## What the walk forgets -/

/-- What the marked keys no longer show of a walk: the permissions that were walked, and those that
stay satisfied although the keys marked for them were forgotten. -/
structure Trail where
  seen : List PermissionLevel := []
  lost : List PermissionLevel := []

namespace Trail

def enter (t : Trail) (p : PermissionLevel) : Trail := { t with seen := p :: t.seen }

def lose (t : Trail) (l : List PermissionLevel) : Trail := { t with lost := l ++ t.lost }

/-- An entry of an authority that is counted for a lost permission. -/
def restsOn (t : Trail) : MetaPermission → Bool
  | .account e => decide (e.permission ∈ t.lost)
  | _ => false

def entry (visit : PermissionLevel → Trail → Trail) : MetaPermission → Trail → Trail
  | .account e, t => visit e.permission t
  | _, t => t

/-- More has been walked, and of what had been walked nothing more is lost. -/
structure Extends (t t' : Trail) : Prop where
  seen : t.seen ⊆ t'.seen
  lost : t.lost ⊆ t'.lost
  old : ∀ q ∈ t.seen, q ∈ t'.lost → q ∈ t.lost

theorem Extends.refl (t : Trail) : t.Extends t :=
  ⟨List.Subset.refl _, List.Subset.refl _, fun _ _ h => h⟩

theorem Extends.trans {t t' t'' : Trail} (h : t.Extends t') (h' : t'.Extends t'') :
    t.Extends t'' :=
  ⟨List.Subset.trans h.seen h'.seen, List.Subset.trans h.lost h'.lost,
    fun q hq hlost => h.old q hq (h'.old q (h.seen hq) hlost)⟩

theorem extends_enter (t : Trail) (p : PermissionLevel) : t.Extends (t.enter p) :=
  ⟨List.subset_cons_self _ _, List.Subset.refl _, fun _ _ h => h⟩

theorem Extends.lose {t t' : Trail} {l : List PermissionLevel} (h : t.Extends t')
    (hl : ∀ q ∈ l, q ∉ t.seen) : t.Extends (t'.lose l) := by
  refine ⟨h.seen, List.Subset.trans h.lost (List.subset_append_right _ _), fun q hq hlost => ?_⟩
  rcases List.mem_append.mp hlost with hnew | hlost
  · exact absurd hq (hl q hnew)
  · exact h.old q hq hlost

end Trail

/-- Along the entries of an authority, up to the threshold: whether a lost permission has been
counted, and the trail. -/
def trailEntries (c : AuthorityChecker) (visit : PermissionLevel → Trail → Trail)
    (n threshold : Nat) : List MetaPermission → Nat → Bool → Trail → Bool × Trail
  | [], _, rests, t => (rests, t)
  | e :: es, total, rests, t =>
    let t' := Trail.entry visit e t
    let rests' := rests || (c.holds (c.search.within n) e && t'.restsOn e)
    let total' := if c.holds (c.search.within n) e then total + e.weight else total
    if threshold ≤ total' then (rests', t')
    else trailEntries c visit n threshold es total' rests' t'

/-- Along the walk, in its order. A permission that is satisfied is lost if a lost one is counted
for it; when an authority is not satisfied, everything that was walked for it is lost. -/
def trail (c : AuthorityChecker) : Nat → PermissionLevel → Trail → Trail
  | 0, _, t => t
  | n + 1, p, t =>
    if c.provided p = true ∨ p ∈ t.seen then t
    else match c.permissionToAuthority.authority p with
      | none => t
      | some auth =>
        let r := c.trailEntries (c.trail n) n auth.threshold auth.metaPermissions 0 false
          (t.enter p)
        if c.search.within (n + 1) p then (if r.1 then r.2.lose [p] else r.2)
        else r.2.lose (r.2.seen.filter (· ∉ t.seen))

/-- A permission whose keys were forgotten counts for the answer. -/
def Forgets (c : AuthorityChecker) (p : PermissionLevel) : Prop :=
  p ∈ (c.trail c.recursionDepthLimit p {}).lost

instance (c : AuthorityChecker) (p : PermissionLevel) : Decidable (c.Forgets p) :=
  inferInstanceAs (Decidable (p ∈ _))

/-- The checker with the used keys only. -/
def withUsed (c : AuthorityChecker) (usedKeys : PublicKey → Bool) : AuthorityChecker :=
  { c with providedKeys := c.filterUsed usedKeys }

variable {c : AuthorityChecker} {root p q : PermissionLevel} {auth : Authority} {n d : Nat}
  {s s' : CheckState} {used used' : PublicKey → Bool} {t t' : Trail}

theorem trail_of_settled (h : c.provided p = true ∨ p ∈ t.seen) : c.trail n p t = t := by
  cases n with
  | zero => rfl
  | succ => rw [trail, if_pos h]

theorem trail_of_missing (h : c.permissionToAuthority.authority p = none) :
    c.trail n p t = t := by
  cases n with
  | zero => rfl
  | succ =>
    rw [trail, h]
    exact ite_self t

theorem trail_succ (hp : c.provided p = false) (hseen : p ∉ t.seen)
    (hauth : c.permissionToAuthority.authority p = some auth) {rests : Bool}
    (hr : c.trailEntries (c.trail n) n auth.threshold auth.metaPermissions 0 false (t.enter p) =
      (rests, t')) :
    c.trail (n + 1) p t =
      if c.search.within (n + 1) p then (if rests then t'.lose [p] else t')
      else t'.lose (t'.seen.filter (· ∉ t.seen)) := by
  rw [trail, if_neg (not_or.mpr ⟨by simp [hp], hseen⟩), hauth]
  dsimp only
  rw [hr]

/-! ## Marked keys -/

theorem mem_filterUsed {k : PublicKey} :
    k ∈ c.filterUsed used ↔ k ∈ c.providedKeys ∧ used k = true := by
  simp [filterUsed]

theorem filterUsed_mono (h : ∀ k, used k = true → used' k = true) :
    c.filterUsed used ⊆ c.filterUsed used' := by
  intro k hk
  obtain ⟨hmem, hu⟩ := mem_filterUsed.mp hk
  exact mem_filterUsed.mpr ⟨hmem, h k hu⟩

theorem within_withUsed_mono (h : ∀ k, used k = true → used' k = true)
    (hp : (c.withUsed used).search.within n p = true) :
    (c.withUsed used').search.within n p = true := by
  rw [← derives_iff_within] at hp ⊢
  exact Derives.mono (c := c.withUsed used) rfl rfl (filterUsed_mono h) le_rfl hp

theorem holds_withUsed_mono {e : MetaPermission} (h : ∀ k, used k = true → used' k = true)
    (he : (c.withUsed used).holds ((c.withUsed used).search.within n) e = true) :
    (c.withUsed used').holds ((c.withUsed used').search.within n) e = true :=
  holds_mono (c := c.withUsed used) (filterUsed_mono h) le_rfl
    (fun _ _ => within_withUsed_mono h) he

/-- The trail belongs to the state: what was walked is in the cache, and the marked keys satisfy
what is there as satisfied and is not lost. -/
structure Follows (c : AuthorityChecker) (root : PermissionLevel) (s : CheckState) (t : Trail) :
    Prop where
  seen : ∀ q, c.provided q = false → (q ∈ t.seen ↔ s.cachedPermissions q ≠ none)
  lost_seen : t.lost ⊆ t.seen
  backed : ∀ q d, d ≤ c.recursionDepthLimit → q ∈ c.goals.reach d root → q ∉ t.lost →
    s.cachedPermissions q = some .permissionSatisfied →
    (c.withUsed s.usedKeys).search.within (c.recursionDepthLimit - d) q = true

namespace Follows

theorem mono (h : c.Follows root s t) (hcache : s'.cachedPermissions = s.cachedPermissions)
    (hused : ∀ k, s.usedKeys k = true → s'.usedKeys k = true) : c.Follows root s' t := by
  refine ⟨fun q hq => ?_, h.lost_seen, fun q d hd hq hlost hsat => ?_⟩
  · rw [hcache]
    exact h.seen q hq
  · exact within_withUsed_mono hused (h.backed q d hd hq hlost (hcache ▸ hsat))

theorem enter (h : c.Follows root s t) (p : PermissionLevel) :
    c.Follows root (s.enter p) (t.enter p) := by
  refine ⟨fun q hq => ?_, List.Subset.trans h.lost_seen (List.subset_cons_self _ _),
    fun q d hd hq hlost hsat => ?_⟩
  all_goals by_cases hqp : q = p
  · subst hqp
    simp [Trail.enter]
  · rw [CheckState.enter_cachedPermissions, PermissionCache.set_of_ne hqp, ← h.seen q hq]
    simp [Trail.enter, hqp]
  · subst hqp
    simp at hsat
  · exact h.backed q d hd hq hlost (by
      rwa [CheckState.enter_cachedPermissions, PermissionCache.set_of_ne hqp] at hsat)

/-- The walk of `p` ends: the new trail tells of `p` what the cache now holds, and of the others
what it told before. -/
theorem leave {l : List PermissionLevel} {r : Bool} (h : c.Follows root s t) (hp : p ∈ t.seen)
    (hl : l ⊆ t.seen) (hcache : s'.cachedPermissions = s.cachedPermissions)
    (hself : r = true → p ∉ l → ∀ d ≤ c.recursionDepthLimit, p ∈ c.goals.reach d root →
      (c.withUsed s'.usedKeys).search.within (c.recursionDepthLimit - d) p = true)
    (hothers : ∀ q d, d ≤ c.recursionDepthLimit → q ∈ c.goals.reach d root → q ∉ l → q ∉ t.lost →
      s.cachedPermissions q = some .permissionSatisfied →
      (c.withUsed s'.usedKeys).search.within (c.recursionDepthLimit - d) q = true) :
    c.Follows root (s'.leave p r) (t.lose l) := by
  refine ⟨fun q hq => ?_, List.append_subset.mpr ⟨hl, h.lost_seen⟩,
    fun q d hd hq hlost hsat => ?_⟩
  · rw [CheckState.leave_cachedPermissions, hcache]
    by_cases hqp : q = p
    · subst hqp
      simpa [Trail.lose] using hp
    · rw [PermissionCache.set_of_ne hqp]
      exact h.seen q hq
  · obtain ⟨hnew, hold⟩ := not_or.mp (fun hor => hlost (List.mem_append.mpr hor))
    rw [CheckState.leave_cachedPermissions, hcache] at hsat
    by_cases hqp : q = p
    · subst hqp
      cases r with
      | true => exact hself rfl hnew d hd hq
      | false => simp at hsat
    · exact hothers q d hd hq hnew hold (by rwa [PermissionCache.set_of_ne hqp] at hsat)

end Follows

/-- What a visit with `n` levels left has done to the markers: keys stay marked, the trail goes on,
and the keys for `p` are marked unless `p` is lost. -/
structure Marks (c : AuthorityChecker) (root : PermissionLevel) (n : Nat) (p : PermissionLevel)
    (s : CheckState) (t : Trail) (r : Bool × CheckState) (t' : Trail) : Prop where
  mono : ∀ k, s.usedKeys k = true → r.2.usedKeys k = true
  kept : t.Extends t'
  follows : c.Follows root r.2 t'
  marked : r.1 = true → p ∉ t'.lost → (c.withUsed r.2.usedKeys).search.within n p = true

theorem marks_of_false (h : c.Follows root s t) : c.Marks root n p s t (false, s) t :=
  ⟨fun _ hk => hk, .refl t, h, by simp⟩

theorem marks_of_cached {status : PermissionCacheStatus} (hocc : c.Occurs root n p)
    (he : c.goals.expands p = true) (hstatus : s.cachedPermissions p = some status)
    (h : c.Follows root s t) :
    c.Marks root n p s t (decide (status = .permissionSatisfied), s) t := by
  refine ⟨fun _ hk => hk, .refl t, h, fun hsat hlost => ?_⟩
  obtain ⟨d, hd, hmem⟩ := hocc he
  have hwithin := h.backed p d (by omega) hmem hlost (by rw [hstatus, of_decide_eq_true hsat])
  rwa [show c.recursionDepthLimit - d = n by omega] at hwithin

theorem Marks.entry {e : MetaPermission}
    (hauth : c.permissionToAuthority.authority p = some auth) (he : e ∈ auth.metaPermissions)
    (hfollows : c.Follows root s t)
    (hhit : (c.visit (c.visitPermission n) e s).1 = c.holds (c.search.within n) e)
    (hvisit : ∀ q ∈ c.goals.children p,
      c.Marks root n q s t (c.visitPermission n q s) (c.trail n q t)) :
    (∀ k, s.usedKeys k = true → (c.visit (c.visitPermission n) e s).2.usedKeys k = true) ∧
      t.Extends (Trail.entry (c.trail n) e t) ∧
      c.Follows root (c.visit (c.visitPermission n) e s).2 (Trail.entry (c.trail n) e t) ∧
      ((c.visit (c.visitPermission n) e s).1 = true →
        (Trail.entry (c.trail n) e t).restsOn e = false →
        (c.withUsed (c.visit (c.visitPermission n) e s).2.usedKeys).holds
          ((c.withUsed (c.visit (c.visitPermission n) e s).2.usedKeys).search.within n)
            e = true) := by
  cases e with
  | wait =>
    refine ⟨fun _ h => h, .refl t, hfollows, fun h _ => ?_⟩
    rwa [hhit] at h
  | key e =>
    by_cases hk : e.key ∈ c.providedKeys
    · have hvis : c.visit (c.visitPermission n) (.key e) s =
          (true, { s with usedKeys := fun k => if k = e.key then true else s.usedKeys k }) := by
        rw [visit, if_pos hk]
      have hmark : ∀ k, s.usedKeys k = true →
          (if k = e.key then true else s.usedKeys k) = true := by
        intro k hk
        rw [hk, ite_self]
      rw [hvis]
      refine ⟨hmark, .refl t, hfollows.mono rfl hmark, fun _ _ => ?_⟩
      exact decide_eq_true (mem_filterUsed.mpr ⟨hk, if_pos rfl⟩)
    · have hvis : c.visit (c.visitPermission n) (.key e) s = (false, s) := by
        rw [visit, if_neg hk]
      rw [hvis]
      exact ⟨fun _ h => h, .refl t, hfollows, fun h => (by cases h)⟩
  | account a =>
    have hmarks := hvisit a.permission (account_mem_children hauth he)
    exact ⟨hmarks.mono, hmarks.kept, hmarks.follows,
      fun h hrests => hmarks.marked h (of_decide_eq_false hrests)⟩

/-- The walk over the authority of `p`, with `n` levels left below it: the hits are the entries that
hold, and their keys are marked unless a lost permission has been counted. -/
structure Walking (c : AuthorityChecker) (root : PermissionLevel) (n : Nat) (p : PermissionLevel)
    (s : CheckState) (t : Trail) (done hits : List MetaPermission) (s' : CheckState) (rests : Bool)
    (t' : Trail) : Prop where
  grows : c.Grows (n + 1) p (s.enter p).cachedPermissions s'.cachedPermissions
  answers : c.Exact root s'.cachedPermissions
  hits_eq : hits = done.filter (c.holds (c.search.within n))
  mono : ∀ k, s.usedKeys k = true → s'.usedKeys k = true
  kept : (t.enter p).Extends t'
  follows : c.Follows root s' t'
  marked : rests = false → ∀ e ∈ hits,
    (c.withUsed s'.usedKeys).holds ((c.withUsed s'.usedKeys).search.within n) e = true

namespace Walking

variable {done hits : List MetaPermission} {rests : Bool}

theorem start (hexact : c.Exact root s.cachedPermissions) (hfollows : c.Follows root s t) :
    c.Walking root n p s t [] [] (s.enter p) false (t.enter p) where
  grows := grows_refl _ _ _ _
  answers := hexact.set (by simp)
  hits_eq := rfl
  mono := fun _ hk => hk
  kept := .refl _
  follows := hfollows.enter p
  marked := by simp

theorem step (h : c.Walking root n p s t done hits s' rests t')
    (htable : c.permissionToAuthority.Valid) (hc : c.DepthConsistent root)
    (hauth : c.permissionToAuthority.authority p = some auth) (hp : c.goals.expands p = true)
    (hs : c.Primed s.cachedPermissions) (hocc : c.Occurs root (n + 1) p)
    (habove : c.Above root (n + 1) p s.cachedPermissions) {e : MetaPermission}
    (he : e ∈ auth.metaPermissions)
    (hvisit : ∀ q ∈ c.goals.children p,
      c.Marks root n q s' t' (c.visitPermission n q s') (c.trail n q t')) :
    c.Walking root n p s t (done ++ [e])
      (if (c.visit (c.visitPermission n) e s').1 then hits ++ [e] else hits)
      (c.visit (c.visitPermission n) e s').2
      (rests || (c.holds (c.search.within n) e && (Trail.entry (c.trail n) e t').restsOn e))
      (Trail.entry (c.trail n) e t') := by
  obtain ⟨hgrows, hexact, rfl, hmono, hkept, hfollows, hhits⟩ := h
  obtain ⟨hhit, hexact'⟩ := visit_exact hauth hp hs hocc habove
    (fun q s _ => visitPermission_exact htable hc n q s) he hgrows hexact
  obtain ⟨hmono', hkept', hfollows', hmarked⟩ := Marks.entry hauth he hfollows hhit hvisit
  refine ⟨hgrows.visit hauth hp he (fun q s => visitPermission_grows htable n q s) (hs.set hp _),
    hexact', hits_eq_filter hhit, fun k hk => hmono' k (hmono k hk), hkept.trans hkept',
    hfollows', ?_⟩
  intro hrests e' he'
  obtain ⟨hbefore, hnow⟩ := Bool.or_eq_false_iff.mp hrests
  split_ifs at he' with hholds
  · rcases List.mem_append.mp he' with he' | he'
    · exact holds_withUsed_mono hmono' (hhits hbefore e' he')
    · obtain rfl := List.mem_singleton.mp he'
      rw [← hhit, hholds, Bool.true_and] at hnow
      exact hmarked hholds hnow
  · exact holds_withUsed_mono hmono' (hhits hbefore e' he')

theorem within_marked (h : c.Walking root n p s t done hits s' false t')
    (hp : c.goals.expands p = true) (hauth : c.permissionToAuthority.authority p = some auth)
    (hdone : done <+: auth.metaPermissions) (hle : auth.threshold ≤ totalWeight hits) :
    (c.withUsed s'.usedKeys).search.within (n + 1) p = true := by
  have hsub : hits.Sublist auth.metaPermissions := by
    rw [h.hits_eq]
    exact List.filter_sublist.trans hdone.sublist
  rw [within_succ_of_expands (c := c.withUsed s'.usedKeys) hp hauth]
  exact decide_eq_true (le_totalWeight_of_hits hle hsub (h.marked rfl))

theorem marks_true (h : c.Walking root n p s t done hits s' rests t')
    (hc : c.DepthConsistent root) (hp : c.goals.expands p = true)
    (hocc : c.Occurs root (n + 1) p) (hseen : p ∉ t.seen)
    (hauth : c.permissionToAuthority.authority p = some auth)
    (hdone : done <+: auth.metaPermissions) (hle : auth.threshold ≤ totalWeight hits) :
    c.Marks root (n + 1) p s t (true, s'.leave p true) (if rests then t'.lose [p] else t') := by
  have hkept := (t.extends_enter p).trans h.kept
  have hmem : p ∈ t'.seen := h.kept.seen List.mem_cons_self
  cases rests with
  | true =>
    rw [if_pos rfl]
    refine ⟨h.mono, hkept.lose (by simpa using hseen), h.follows.leave hmem (by simpa using hmem)
      rfl (fun _ hnot => absurd List.mem_cons_self hnot)
      (fun q d hd hq _ hlost => h.follows.backed q d hd hq hlost), fun _ hlost => ?_⟩
    exact absurd List.mem_cons_self hlost
  | false =>
    have hmarked := h.within_marked hp hauth hdone hle
    obtain ⟨d, hd, hreach⟩ := hocc hp
    rw [if_neg (by decide)]
    refine ⟨h.mono, hkept, h.follows.leave (l := []) hmem (List.nil_subset _) rfl
      (fun _ _ d' hd' hreach' => ?_) (fun q d hd hq _ hlost => h.follows.backed q d hd hq hlost),
      fun _ _ => hmarked⟩
    rw [Search.within_eq_of_consistent (S := (c.withUsed s'.usedKeys).search) hc hd' (by omega)
      hreach' hreach, show c.recursionDepthLimit - d = n + 1 by omega]
    exact hmarked

theorem marks_false (h : c.Walking root n p s t done hits s' rests t')
    (hfollows : c.Follows root s t) {s'' : CheckState} (hused : s''.usedKeys = s.usedKeys)
    (hcache : s''.cachedPermissions = s'.cachedPermissions) :
    c.Marks root (n + 1) p s t (false, s''.leave p false)
      (t'.lose (t'.seen.filter (· ∉ t.seen))) := by
  have hkept := (t.extends_enter p).trans h.kept
  refine ⟨fun k hk => ?_, hkept.lose (by simp), h.follows.leave (h.kept.seen List.mem_cons_self)
    List.filter_sublist.subset hcache (by simp)
    fun q d hd hq hnew hlost hsat => ?_, by simp⟩
  · rwa [CheckState.leave_usedKeys, hused]
  · have hgiven := (expands_iff.mp (Goals.expands_of_mem_reach hq)).1
    have hseen' : q ∈ t'.seen := (h.follows.seen q hgiven).mpr (by simp [hsat])
    have hseen : q ∈ t.seen := by
      by_contra hnot
      exact hnew (List.mem_filter.mpr ⟨hseen', decide_eq_true hnot⟩)
    have hcached := (hfollows.seen q hgiven).mp hseen
    obtain ⟨status, hstatus⟩ := Option.ne_none_iff_exists'.mp hcached
    have henter : (s.enter p).cachedPermissions q = s.cachedPermissions q ∨ q = p := by
      by_cases hqp : q = p
      · exact .inr hqp
      · exact .inl (PermissionCache.set_of_ne hqp _)
    rw [hused]
    refine hfollows.backed q d hd hq (fun hin => hlost (hkept.lost hin)) ?_
    rcases henter with henter | rfl
    · rw [← hsat, h.grows.of_some (henter.trans hstatus), hstatus]
    · have hentered : (s.enter q).cachedPermissions q = some .beingEvaluated := by simp
      cases hsat.symm.trans (h.grows.of_some hentered)

end Walking

/-- **The marked keys back the walk**: the keys that are marked after a visit satisfy what the visit
has found, unless it is lost. -/
theorem visitPermission_backed (htable : c.permissionToAuthority.Valid)
    (hc : c.DepthConsistent root) (n : Nat) (p : PermissionLevel) (s : CheckState)
    (hs : c.Primed s.cachedPermissions) (hocc : c.Occurs root n p)
    (habove : c.Above root n p s.cachedPermissions) (hexact : c.Exact root s.cachedPermissions)
    (t : Trail) (hfollows : c.Follows root s t) :
    c.Marks root n p s t (c.visitPermission n p s) (c.trail n p t) := by
  refine visitPermission_induction (P := fun n p s r => c.Primed s.cachedPermissions →
      c.Occurs root n p → c.Above root n p s.cachedPermissions →
      c.Exact root s.cachedPermissions → ∀ t, c.Follows root s t →
      c.Marks root n p s t r (c.trail n p t))
    ?_ ?_ ?_ ?_ ?_ n p s hs hs hocc habove hexact t hfollows
  case refine_1 =>
    intro n p s hp _ _ _ _ t hfollows
    rw [trail_of_settled (.inl hp)]
    exact ⟨fun _ hk => hk, .refl t, hfollows, fun _ _ => Search.within_of_given hp⟩
  case refine_2 =>
    intro n p s status hp hstatus hs hocc _ _ t hfollows
    have he : c.goals.expands p = true := hs.expands p (by simp [hstatus]) fun hmem => by
      rw [provided_of_mem hmem] at hp
      cases hp
    rw [trail_of_settled (.inr ((hfollows.seen p hp).mpr (by simp [hstatus])))]
    exact marks_of_cached hocc he hstatus hfollows
  case refine_3 =>
    intro p s _ _ _ _ _ t hfollows
    exact marks_of_false hfollows
  case refine_4 =>
    intro n p s _ hauth _ _ _ _ t hfollows
    rw [trail_of_missing hauth]
    exact marks_of_false hfollows
  case refine_5 =>
    intro n p s auth r s' hs hp hnone hauth ih hr _ hocc habove hexact t hfollows
    have hgiven := (expands_iff.mp hp).1
    have hseen : p ∉ t.seen := fun hin => (hfollows.seen p hgiven).mp hin hnone
    obtain ⟨done, hits, s'', ⟨rests, t', hwalk, hfull⟩, hdone, hcache, hres⟩ :=
      satisfiedAuthority_rule htable hauth hr
        (I := fun done hits s' => ∃ rests t', c.Walking root n p s t done hits s' rests t' ∧
          ∀ es, auth.metaPermissions = done ++ es →
            c.trailEntries (c.trail n) n auth.threshold auth.metaPermissions 0 false (t.enter p) =
              if auth.threshold ≤ totalWeight hits then (rests, t')
              else c.trailEntries (c.trail n) n auth.threshold es (totalWeight hits) rests t')
        ⟨false, t.enter p, .start hexact hfollows, fun es hes => by
          rw [MetaPermission.totalWeight_nil,
            if_neg (Nat.not_le.mpr (htable.threshold_pos hauth)), hes, List.nil_append]⟩
        (by
          rintro e he done hits s' ⟨rests, t', hwalk, hfull⟩ hlt
          have hs' := hwalk.grows.primed (hs.set hp _)
          have hwalk' := hwalk.step htable hc hauth hp hs hocc habove he fun q hq =>
            ih q s' hs' hs' (hocc.child hp hq)
              ((habove.child hocc hp hq).of_grows hwalk.grows) hwalk.answers t' hwalk.follows
          refine ⟨_, _, hwalk', fun es hes => ?_⟩
          have hhit := (visit_exact hauth hp hs hocc habove
            (fun q s _ => visitPermission_exact htable hc n q s) he hwalk.grows hwalk.answers).1
          have htotal : totalWeight (if (c.visit (c.visitPermission n) e s').1 then hits ++ [e]
              else hits) = if c.holds (c.search.within n) e then totalWeight hits + e.weight
                else totalWeight hits := by
            rw [hhit]
            split_ifs <;> simp
          rw [hfull (e :: es) (by rw [hes, List.append_assoc, List.singleton_append]),
            if_neg (Nat.not_le.mpr hlt), trailEntries, htotal])
    have hwithin := within_eq_of_hits hp hauth hdone (hwalk.hits_eq ▸ hres)
    have hentries : c.trailEntries (c.trail n) n auth.threshold auth.metaPermissions 0 false
        (t.enter p) = (rests, t') := by
      obtain ⟨es, hes⟩ := hdone
      rw [hfull es hes.symm]
      cases r with
      | true => rw [if_pos hres.2]
      | false =>
        obtain ⟨-, hall, hlt⟩ := hres
        rw [hall] at hes
        rw [if_neg (Nat.not_le.mpr hlt), List.append_right_eq_self.mp hes, trailEntries]
    rw [trail_succ hgiven hseen hauth hentries, hwithin]
    cases r with
    | true =>
      obtain ⟨rfl, hle⟩ := hres
      rw [if_pos rfl]
      exact hwalk.marks_true hc hp hocc hseen hauth hdone hle
    | false =>
      rw [if_neg (by decide)]
      exact hwalk.marks_false hfollows (hres.1.trans (s.enter_usedKeys p)) hcache

/-! ## Calls -/

theorem follows_initializePermissionCache (root : PermissionLevel) :
    c.Follows root { cachedPermissions := c.initializePermissionCache, usedKeys := used } {} := by
  have hnone : ∀ q, c.provided q = false → c.initializePermissionCache q = none := by
    intro q hq
    cases hcache : c.initializePermissionCache q with
    | none => rfl
    | some =>
      rw [(provided_of_initializePermissionCache hcache).1] at hq
      cases hq
  refine ⟨fun q hq => by simp [hnone q hq], List.Subset.refl _, fun q d _ hq _ hsat => ?_⟩
  have hgiven := (expands_iff.mp (Goals.expands_of_mem_reach hq)).1
  cases (hnone q hgiven).symm.trans hsat

theorem satisfied_marks (htable : c.permissionToAuthority.Valid) (hc : c.DepthConsistent p)
    (hf : ¬ c.Forgets p) (used : PublicKey → Bool) :
    (∀ k, used k = true → (c.satisfied p used).2 k = true) ∧
      ((c.satisfied p used).1 = true →
        (c.withUsed (c.satisfied p used).2).Derives c.recursionDepthLimit p) := by
  have hmarks := visitPermission_backed htable hc c.recursionDepthLimit p
    { cachedPermissions := c.initializePermissionCache, usedKeys := used }
    primed_initializePermissionCache (c.occurs_self p) (above_initializePermissionCache p)
    (exact_initializePermissionCache p) {} (follows_initializePermissionCache p)
  exact ⟨hmarks.mono, fun h => derives_iff_within.mpr (hmarks.marked h hf)⟩

theorem derives_of_foldlM (htable : c.permissionToAuthority.Valid) {l : List PermissionLevel}
    {msg : String} (hl : ∀ p ∈ l, c.DepthConsistent p ∧ ¬ c.Forgets p)
    (h : l.foldlM (fun used p => do
      Commons.check ((c.satisfied p used).1 = true) msg
      return (c.satisfied p used).2) used = .ok used') :
    (∀ k, used k = true → used' k = true) ∧
      ∀ p ∈ l, (c.withUsed used').Derives c.recursionDepthLimit p := by
  induction l generalizing used with
  | nil =>
    obtain rfl : used = used' := by simpa [pure, Except.pure] using h
    exact ⟨fun _ hk => hk, by simp⟩
  | cons p l ih =>
    simp only [List.foldlM_cons, bind_eq_ok, pure_eq_ok, check_eq_ok, exists_unit] at h
    obtain ⟨_, ⟨hsat, rfl⟩, hrest⟩ := h
    obtain ⟨hmono, hmarks⟩ := satisfied_marks htable (hl p List.mem_cons_self).1
      (hl p List.mem_cons_self).2 used
    obtain ⟨hmono', hder⟩ := ih (fun q hq => hl q (List.mem_cons_of_mem _ hq)) hrest
    refine ⟨fun k hk => hmono' k (hmono k hk), fun q hq => ?_⟩
    rcases List.mem_cons.mp hq with rfl | hq
    · exact Derives.mono (c := c.withUsed (c.satisfied q used).2) rfl rfl
        (filterUsed_mono hmono') le_rfl (hmarks hsat)
    · exact hder q hq

end AuthorityChecker

/-! ## Transactions -/

def Declared (actions : List DeclaredAction) (p : PermissionLevel) : Prop :=
  ∃ act ∈ actions, p ∈ act.authorization

def DeclaredFrom (actions : List DeclaredAction) (delay : Int)
    (permissions : Table (Name ×ₗ Name) Int) : Prop :=
  ∀ e ∈ permissions.entries,
    Declared actions ⟨(ofLex e.1).1, (ofLex e.1).2⟩ ∧ delay ≤ e.2

theorem DeclaredAction.le_delay (act : DeclaredAction) (delay : Int) : delay ≤ act.delay delay := by
  unfold DeclaredAction.delay
  split
  · exact le_max_left _ _
  · exact le_rfl

theorem DeclaredFrom.addPermission {actions : List DeclaredAction} {delay delay' : Int}
    {permissions : Table (Name ×ₗ Name) Int} {p : PermissionLevel}
    (h : DeclaredFrom actions delay permissions) (hp : Declared actions p) (hle : delay ≤ delay') :
    DeclaredFrom actions delay (addPermission delay' permissions p) := by
  have hinsert : DeclaredFrom actions delay
      (permissions.insert (toLex (p.actor, p.permission)) delay') := by
    intro e he
    rcases Table.mem_insertEntry he with rfl | he
    · exact ⟨hp, hle⟩
    · exact h e he
  unfold BaccChain.addPermission
  split
  · split_ifs
    · exact hinsert
    · exact h
  · exact hinsert

theorem declaredFrom_permissionsToSatisfy (actions : List DeclaredAction) (delay : Int)
    (satisfiedAuthorizations : List PermissionLevel) :
    DeclaredFrom actions delay (permissionsToSatisfy actions delay satisfiedAuthorizations) := by
  unfold permissionsToSatisfy
  refine List.foldlRecOn actions _ (motive := DeclaredFrom actions delay) ?_ ?_
  · intro e he
    cases he
  · intro permissions h act hact
    refine List.foldlRecOn _ _ (motive := DeclaredFrom actions delay) h ?_
    intro permissions h p hp
    exact h.addPermission ⟨act, hact, (List.mem_filter.mp hp).1⟩ (act.le_delay delay)

theorem foldlM_check_ok {α β : Type} {test : β → α → Bool × β} {msg : String} {l : List α}
    (h : ∀ a ∈ l, ∀ b, (test b a).1 = true) (b : β) :
    ∃ b', l.foldlM (fun b a => do
      Commons.check ((test b a).1 = true) msg
      return (test b a).2) b = (.ok b' : Except String β) := by
  induction l generalizing b with
  | nil => exact ⟨b, rfl⟩
  | cons a l ih =>
    obtain ⟨b', hb'⟩ := ih (fun a ha => h a (List.mem_cons_of_mem _ ha)) (test b a).2
    refine ⟨b', ?_⟩
    rw [List.foldlM_cons, bind_eq_ok]
    refine ⟨(test b a).2, bind_eq_ok.mpr ⟨(), check_eq_ok.mpr ?_, rfl⟩, hb'⟩
    exact h a List.mem_cons_self b

namespace AuthorityChecker

def ladderChecker : AuthorityChecker := ⟨ladder, 4, [7, 8], [], 0⟩

/-- Actor 9 relies on actor 1 or actor 2, with the given weights. -/
def sharedActor (first second : Nat) : PermissionTable :=
  .ofList
    [(level 9, quorum 1 [] [(1, first), (2, second)]), (level 1, quorum 2 [(8, 1)] [(3, 1)]),
      (level 2, quorum 1 [] [(3, 1)]), (level 3, quorum 1 [(7, 1)] [])]
    (by simp [level])

/-- With the weights exchanged, actor 1 is never visited, and nothing is forgotten. -/
example : ¬ AuthorityChecker.Forgets ⟨sharedActor 1 2, 6, [7], [], 0⟩ (level 9) := by
  decide +kernel

end AuthorityChecker

end BaccChain
