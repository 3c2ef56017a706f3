import BaccChain.Properties.MovingAverage
import BaccChain.Commons.Run

/-!
# The limits that are reported are those that are enforced

A transaction is bounded by what `getAccountCpuLimit` and `getAccountNetLimit` report, and then has
to pass the assertions of `addTransactionUsage`.

## Main definitions

* `Enforces`: what is reported can be used, and no more than that
* `LimitsAgree`: the two bounds agree

## Main results

* `quoted_limits_enforced`: when they do
* `reports_differ`: the minimum of the other resource
-/

namespace BaccChain

open Commons

/-! ## Rounding

`v` is an average over a window of `w` slots, multiplied by the precision `p`, and `a` units are
added to it.
-/

section Rounding

variable {v a w p : Nat}

theorem integerDivideCeil_le_iff {num k : Nat} (hw : 0 < w) :
    integerDivideCeil num w ≤ k ↔ num ≤ k * w := by
  constructor
  · intro h
    exact (le_integerDivideCeil_mul num w hw).trans (Nat.mul_le_mul_right w h)
  · intro h
    have hlt := integerDivideCeil_mul_lt num w hw
    have hle : integerDivideCeil num w * w < (k + 1) * w := by
      rw [Nat.add_mul]
      omega
    exact Nat.lt_succ_iff.mp (Nat.lt_of_mul_lt_mul_right hle)

theorem usedInWindow_add_le (hw : 0 < w) (hwp : w ≤ p) :
    (v + integerDivideCeil (a * p) w) * w / p ≤ integerDivideCeil (v * w) p + a := by
  have hp : 0 < p := by omega
  have hunits := integerDivideCeil_mul_lt (a * p) w hw
  have hold := le_integerDivideCeil_mul (v * w) p hp
  have hlt : (v + integerDivideCeil (a * p) w) * w < (integerDivideCeil (v * w) p + a + 1) * p := by
    calc (v + integerDivideCeil (a * p) w) * w
        = v * w + integerDivideCeil (a * p) w * w := Nat.add_mul _ _ _
      _ < integerDivideCeil (v * w) p * p + a * p + p := by omega
      _ = (integerDivideCeil (v * w) p + a + 1) * p := by ring
  exact Nat.lt_succ_iff.mp ((Nat.div_lt_iff_lt_mul hp).mpr hlt)

theorem add_le_usedInWindow (hw : 0 < w) (hp : 0 < p) :
    v * w / p + a ≤ (v + integerDivideCeil (a * p) w) * w / p := by
  have hunits := le_integerDivideCeil_mul (a * p) w hw
  rw [← Nat.add_mul_div_right _ _ hp, Nat.add_mul]
  exact Nat.div_le_div_right (by omega)

/-- The most units that can be added when at most `m` may be used in the window. -/
def unitsLeft (v w p m : Nat) : Nat := (((m + 1) * p - 1) / w - v) * w / p

theorem usedInWindow_le_iff {m : Nat} (hw : 0 < w) (hp : 0 < p) :
    (v + integerDivideCeil (a * p) w) * w / p ≤ m ↔ v * w / p ≤ m ∧ a ≤ unitsLeft v w p m := by
  have hfits (n : Nat) : n * w / p ≤ m ↔ n ≤ ((m + 1) * p - 1) / w := by
    have hpos : 0 < (m + 1) * p := Nat.mul_pos m.succ_pos hp
    rw [← Nat.lt_add_one_iff, Nat.div_lt_iff_lt_mul hp, Nat.le_div_iff_mul_le hw]
    omega
  rw [hfits, hfits, unitsLeft, Nat.le_div_iff_mul_le hp, ← integerDivideCeil_le_iff hw]
  omega

theorem usedInWindow_le_of_pos {m : Nat} (hw : 0 < w) (hwp : w ≤ p) (hpos : 0 < a)
    (ha : a ≤ m - integerDivideCeil (v * w) p) :
    (v + integerDivideCeil (a * p) w) * w / p ≤ m := by
  have hupper := usedInWindow_add_le (v := v) (a := a) hw hwp
  omega

theorem le_of_usedInWindow_le {m : Nat} (hw : 0 < w) (hp : 0 < p)
    (h : (v + integerDivideCeil (a * p) w) * w / p ≤ m) :
    a ≤ m - integerDivideCeil (v * w) p + 1 := by
  have hlower := add_le_usedInWindow (v := v) (a := a) hw hp
  have hceil := integerDivideCeil_le (v * w) p
  omega

end Rounding

/-! ## Usages are brought to a time slot -/

namespace UsageAccumulator

variable {u u' : UsageAccumulator} {units : UInt64} {ordinal windowSize : UInt32}

theorem add_lastOrdinal (h : u.add units ordinal windowSize = .ok u') :
    windowSize ≠ 0 ∧ u'.lastOrdinal = ordinal :=
  ⟨(add_eq_ok.mp h).1.windowSize_ne, (add_eq_ok.mp h).2.lastOrdinal_eq⟩

theorem add_valueEx (h : u.add units ordinal windowSize = .ok u')
    (hlast : u.lastOrdinal = ordinal) :
    0 < windowSize.toNat ∧ u'.valueEx.toNat = u.valueEx.toNat +
      integerDivideCeil (units.toNat * rateLimitingPrecision) windowSize.toNat := by
  obtain ⟨hchecks, hadded⟩ := add_eq_ok.mp h
  have hpos := toNat_pos hchecks.windowSize_ne
  have hvalue := hadded.valueEx_eq
  rw [← hlast, weighted_self hpos] at hvalue
  exact ⟨hpos, hvalue⟩

/-- The most units that can be added to an average, in the time slot it is at. -/
def mostUnits (u : UsageAccumulator) (windowSize : UInt32) : Nat :=
  min maxRawValue (min (2 ^ 64 - 1 - u.consumed.toNat)
    ((2 ^ 64 - 1 - u.valueEx.toNat) * windowSize.toNat / rateLimitingPrecision))

theorem exists_add_iff (units : UInt64) (hwindow : windowSize ≠ 0)
    (hlast : u.lastOrdinal = ordinal) :
    (∃ u', u.add units ordinal windowSize = .ok u') ↔ units.toNat ≤ u.mostUnits windowSize := by
  have hvalue := u.valueEx.toNat_lt
  have hconsumed := u.consumed.toNat_lt
  rw [mostUnits, le_min_iff, le_min_iff, Nat.le_div_iff_mul_le (by decide),
    ← integerDivideCeil_le_iff (toNat_pos hwindow)]
  constructor
  · rintro ⟨u', h⟩
    obtain ⟨hchecks, -⟩ := add_eq_ok.mp h
    have hc := hchecks.consumed_le
    have hv := hchecks.valueEx_le
    exact ⟨hchecks.units_le, by omega, by omega⟩
  · rintro ⟨hunits, hc, hv⟩
    have hchecks : u.AddChecks rateLimitingPrecision units ordinal windowSize :=
      ⟨hwindow, by rw [hlast], hunits, by omega, by omega, fun hne => absurd hlast hne⟩
    obtain ⟨u', h, -⟩ := hchecks.exists_add
    exact ⟨u', h⟩

end UsageAccumulator

def Resource.amount {α : Type} (cpu net : α) : Resource → α
  | .cpu => cpu
  | .net => net

namespace ResourceDb

variable {db db' : ResourceDb} {account : Name} {slot : UInt32} {cpu net : UInt64}
  {usage used : ResourceUsageObject} {limits : ResourceLimitsObject} {r : Resource}

theorem addUsage_usage (h : db.addUsage cpu net slot usage = .ok used) (r : Resource) :
    (usage.usage r).add (r.amount cpu net) slot (db.config.accountUsageAverageWindow r) =
      .ok (used.usage r) := by
  obtain ⟨netUsage, hnet, h⟩ := bind_eq_ok.mp h
  obtain ⟨cpuUsage, hcpu, h⟩ := bind_eq_ok.mp h
  rw [pure_eq_ok.mp h]
  cases r with
  | cpu => exact hcpu
  | net => exact hnet

theorem getUsage_setUsage (a b : Name) :
    (db.setUsage a usage).getUsage b = if a = b then .ok usage else db.getUsage b := by
  unfold getUsage setUsage
  rw [Table.find_insert]
  split_ifs <;> rfl

/-- The averages of an account are those of a time slot, over windows that are not empty. -/
def AtSlot (db : ResourceDb) (account : Name) (slot : UInt32) : Prop :=
  ∀ usage, db.getUsage account = .ok usage → ∀ r,
    db.config.accountUsageAverageWindow r ≠ 0 ∧ (usage.usage r).lastOrdinal = slot

theorem exists_addUsage_iff (h : db.AtSlot account slot) (husage : db.getUsage account = .ok usage)
    (cpu net : UInt64) : (∃ used, db.addUsage cpu net slot usage = .ok used) ↔
      ∀ r, (r.amount cpu net).toNat ≤
        (usage.usage r).mostUnits (db.config.accountUsageAverageWindow r) := by
  have hiff (r : Resource) (units : UInt64) :=
    UsageAccumulator.exists_add_iff units (h usage husage r).1 (h usage husage r).2
  constructor
  · rintro ⟨used, hadd⟩ r
    exact (hiff r _).mp ⟨_, addUsage_usage hadd r⟩
  · intro hmost
    obtain ⟨cpuUsage, hcpu⟩ := (hiff .cpu cpu).mpr (hmost .cpu)
    obtain ⟨netUsage, hnet⟩ := (hiff .net net).mpr (hmost .net)
    exact ⟨⟨netUsage, cpuUsage⟩, bind_eq_ok.mpr ⟨_, hnet, bind_eq_ok.mpr ⟨_, hcpu, rfl⟩⟩⟩

theorem updateUsage_atSlot {a : Name} (h : db.updateUsage a slot = .ok db') :
    db'.AtSlot a slot ∧ ∀ account, db.AtSlot account slot → db'.AtSlot account slot := by
  obtain ⟨usage, -, h⟩ := bind_eq_ok.mp h
  obtain ⟨used, hadd, h⟩ := bind_eq_ok.mp h
  obtain rfl := pure_eq_ok.mp h
  have hslot (r : Resource) : db.config.accountUsageAverageWindow r ≠ 0 ∧
      (used.usage r).lastOrdinal = slot :=
    UsageAccumulator.add_lastOrdinal (addUsage_usage hadd r)
  constructor
  · intro u hu r
    rw [getUsage_setUsage, if_pos rfl] at hu
    cases hu
    exact hslot r
  · intro account hat u hu r
    rw [getUsage_setUsage] at hu
    split_ifs at hu
    · cases hu
      exact hslot r
    · exact hat u hu r

theorem updateAccountUsage_atSlot {accounts : FlatSet Name}
    (h : db.updateAccountUsage accounts slot = .ok db') (haccount : account ∈ accounts) :
    db'.AtSlot account slot := by
  have hmem := FlatSet.mem_toList.mpr haccount
  unfold updateAccountUsage at h
  generalize accounts.toList = l at h hmem
  induction l generalizing db with
  | nil => cases hmem
  | cons a l ih =>
    rw [List.foldlM_cons] at h
    obtain ⟨db₁, hfirst, hrest⟩ := bind_eq_ok.mp h
    rcases List.mem_cons.mp hmem with rfl | hmem
    · exact foldlM_induction (fun db => db.AtSlot account slot)
        (fun _ _ _ _ hstep hat => (updateUsage_atSlot hstep).2 account hat) hrest
        (updateUsage_atSlot hfirst).1
    · exact ih hrest hmem

/-! ## Reports and assertions -/

def getAccountLimit (db : ResourceDb) (r : Resource) (account : Name) : Except String Int :=
  match r with
  | .cpu => db.getAccountCpuLimit account true
  | .net => db.getAccountNetLimit account true

def checkResource (db : ResourceDb) (r : Resource) (limits : ResourceLimitsObject)
    (usage : ResourceUsageObject) : Except String Unit :=
  match r with
  | .cpu => db.checkCpuUsage limits usage
  | .net => db.checkNetUsage limits usage

def Limited (db : ResourceDb) (r : Resource) (limits : ResourceLimitsObject) : Prop :=
  0 ≤ limits.weight r ∧ 0 < db.state.totalWeight r

def maxUse (db : ResourceDb) (r : Resource) (limits : ResourceLimitsObject) (guaranteed : UInt64) :
    Nat :=
  maxUserUseInWindow (db.state.virtualLimit r) (db.config.accountUsageAverageWindow r)
    (limits.weight r).toNat (db.state.totalWeight r) guaranteed

/-- The guaranteed minimum that is reported. -/
def quotedMinimum (db : ResourceDb) : Resource → UInt64
  | .cpu => db.gmr.cpuUs
  | .net => db.gmr.netByte

/-- What is left of the limit that is reported. -/
def reported (db : ResourceDb) (r : Resource) (limits : ResourceLimitsObject)
    (u : UsageAccumulator) : Nat :=
  db.maxUse r limits (db.quotedMinimum r) - integerDivideCeil
    (u.valueEx.toNat * (db.config.accountUsageAverageWindow r).toNat) rateLimitingPrecision

/-- What is left of the limit that is asserted. -/
def asserted (db : ResourceDb) (r : Resource) (limits : ResourceLimitsObject)
    (u : UsageAccumulator) : Nat :=
  unitsLeft u.valueEx.toNat (db.config.accountUsageAverageWindow r).toNat rateLimitingPrecision
    (db.maxUse r limits db.gmr.cpuUs)

/-- The limit that is asserted has not been exceeded. -/
def Within (db : ResourceDb) (r : Resource) (limits : ResourceLimitsObject)
    (u : UsageAccumulator) : Prop :=
  u.valueEx.toNat * (db.config.accountUsageAverageWindow r).toNat / rateLimitingPrecision ≤
    db.maxUse r limits db.gmr.cpuUs

theorem checkResource_eq_ok : db.checkResource r limits usage = .ok () ↔
    (db.Limited r limits → db.Within r limits (usage.usage r)) := by
  have hcheck (message : String) : db.checkUsage r db.gmr.cpuUs message limits usage = .ok () ↔
      (db.Limited r limits → db.Within r limits (usage.usage r)) := by
    unfold checkUsage
    split_ifs with hlimited
    · exact check_eq_ok.trans ⟨fun h _ => h, fun h => h hlimited⟩
    · exact ⟨fun _ h => absurd h hlimited, fun _ => rfl⟩
  cases r with
  | cpu => exact hcheck _
  | net => exact hcheck _

theorem getAccountLimit_eq_ok {available : Int} (husage : db.getUsage account = .ok usage)
    (hlimits : db.getAccountLimits account = .ok limits)
    (h : db.getAccountLimit r account = .ok available) :
    ¬ db.Limited r limits ∧ available = -1 ∨
      db.Limited r limits ∧ available = db.reported r limits (usage.usage r) := by
  have hreport : ∃ arl, db.getAccountLimitEx r (db.quotedMinimum r) account true = .ok arl ∧
      available = arl.available := by
    cases r with
    | cpu =>
      obtain ⟨arl, harl, h⟩ := bind_eq_ok.mp h
      exact ⟨arl, harl, pure_eq_ok.mp h⟩
    | net =>
      obtain ⟨arl, harl, h⟩ := bind_eq_ok.mp h
      exact ⟨arl, harl, pure_eq_ok.mp h⟩
  obtain ⟨arl, harl, rfl⟩ := hreport
  unfold getAccountLimitEx at harl
  rw [husage, hlimits] at harl
  simp only [ok_bind] at harl
  split_ifs at harl with hunlimited
  · obtain rfl := pure_eq_ok.mp harl
    refine .inl ⟨fun hlimited => ?_, rfl⟩
    rcases hunlimited with hweight | htotal
    · exact absurd hlimited.1 (by omega)
    · exact absurd (htotal ▸ hlimited.2) (lt_irrefl 0)
  · obtain ⟨available, havailable, harl⟩ := bind_eq_ok.mp harl
    obtain ⟨_, -, harl⟩ := bind_eq_ok.mp harl
    obtain ⟨_, -, harl⟩ := bind_eq_ok.mp harl
    obtain rfl := pure_eq_ok.mp harl
    obtain ⟨_, -, havailable⟩ := bind_eq_ok.mp havailable
    rw [not_or, not_lt] at hunlimited
    refine .inr ⟨⟨hunlimited.1, ?_⟩, congrArg Nat.cast (pure_eq_ok.mp havailable)⟩
    exact UInt64.pos_iff_ne_zero.mpr hunlimited.2

/-- An amount up to what is reported passes the assertion, and an amount that passes is at most one
more. -/
def Enforces (db : ResourceDb) (r : Resource) (limits : ResourceLimitsObject)
    (used : ResourceUsageObject) (amount : Nat) (available : Int) : Prop :=
  (amount ≤ available → db.checkResource r limits used = .ok ()) ∧
    (db.checkResource r limits used = .ok () → amount ≤ available + 1)

/-- What is left of the limit that is asserted, rounded as the averages are, is what is left of the
limit that is reported, or one unit more; only amounts that can be added count. -/
structure LimitsAgree (db : ResourceDb) (r : Resource) (limits : ResourceLimitsObject)
    (u : UsageAccumulator) : Prop where
  within : db.Within r limits u
  reported_le : min (db.reported r limits u)
    (u.mostUnits (db.config.accountUsageAverageWindow r)) ≤ db.asserted r limits u
  le_reported : min (db.asserted r limits u)
    (u.mostUnits (db.config.accountUsageAverageWindow r)) ≤ db.reported r limits u + 1

section Slot

variable (hslot : db.AtSlot account slot) (husage : db.getUsage account = .ok usage)

include hslot husage

theorem within_used (hadd : db.addUsage cpu net slot usage = .ok used) :
    db.Within r limits (used.usage r) ↔ db.Within r limits (usage.usage r) ∧
      (r.amount cpu net).toNat ≤ db.asserted r limits (usage.usage r) := by
  obtain ⟨hpos, hvalue⟩ :=
    UsageAccumulator.add_valueEx (addUsage_usage hadd r) (hslot usage husage r).2
  rw [Within, hvalue]
  exact usedInWindow_le_iff hpos (by decide)

theorem exists_amount {amount : Nat} (h : amount ≤
    (usage.usage r).mostUnits (db.config.accountUsageAverageWindow r)) :
    ∃ cpu net used, db.addUsage cpu net slot usage = .ok used ∧
      (r.amount cpu net).toNat = amount := by
  have hlt : amount < 2 ^ 64 := by
    have hmost := h.trans (min_le_left _ _)
    have hraw : UsageAccumulator.maxRawValue < 2 ^ 64 := by decide
    omega
  have hamount : (UInt64.ofNat amount).toNat = amount := UInt64.toNat_ofNat_of_lt' hlt
  let units (s : Resource) : UInt64 := if s = r then UInt64.ofNat amount else 0
  have hunits (s : Resource) : s.amount (units .cpu) (units .net) = units s := by
    cases s <;> rfl
  have hmost (s : Resource) : (s.amount (units .cpu) (units .net)).toNat ≤
      (usage.usage s).mostUnits (db.config.accountUsageAverageWindow s) := by
    rw [hunits]
    by_cases hs : s = r
    · subst hs
      simpa [units, hamount] using h
    · simp [units, hs]
  obtain ⟨used, hadd⟩ := (exists_addUsage_iff hslot husage (units .cpu) (units .net)).mpr hmost
  exact ⟨_, _, used, hadd, by rw [hunits]; simpa [units] using hamount⟩

theorem enforces_iff (hlimited : db.Limited r limits) :
    (∀ cpu net used, db.addUsage cpu net slot usage = .ok used → db.Enforces r limits used
      (r.amount cpu net).toNat (db.reported r limits (usage.usage r))) ↔
      db.LimitsAgree r limits (usage.usage r) := by
  have hpasses {cpu net : UInt64} {used : ResourceUsageObject}
      (hadd : db.addUsage cpu net slot usage = .ok used) : db.checkResource r limits used = .ok () ↔
        db.Within r limits (usage.usage r) ∧
          (r.amount cpu net).toNat ≤ db.asserted r limits (usage.usage r) := by
    rw [checkResource_eq_ok, imp_iff_right hlimited]
    exact within_used hslot husage hadd
  have hmost {cpu net : UInt64} {used : ResourceUsageObject}
      (hadd : db.addUsage cpu net slot usage = .ok used) :=
    (exists_addUsage_iff hslot husage cpu net).mp ⟨used, hadd⟩ r
  constructor
  · intro h
    obtain ⟨_, _, _, hadd, hzero⟩ := exists_amount (r := r) hslot husage (Nat.zero_le _)
    have hwithin := ((hpasses hadd).mp ((h _ _ _ hadd).1 (by omega))).1
    refine ⟨hwithin, ?_, ?_⟩
    · obtain ⟨_, _, _, hadd, hamount⟩ := exists_amount (r := r) hslot husage (min_le_right
        (db.reported r limits (usage.usage r)) _)
      have hpass := (hpasses hadd).mp ((h _ _ _ hadd).1 (by omega))
      exact hamount ▸ hpass.2
    · obtain ⟨_, _, _, hadd, hamount⟩ := exists_amount (r := r) hslot husage (min_le_right
        (db.asserted r limits (usage.usage r)) _)
      have hle := (h _ _ _ hadd).2 ((hpasses hadd).mpr ⟨hwithin, by omega⟩)
      omega
  · intro h cpu net used hadd
    have hle := hmost hadd
    constructor
    · intro hamount
      exact (hpasses hadd).mpr ⟨h.within, (le_min (by omega) hle).trans h.reported_le⟩
    · intro hcheck
      have hmin := (le_min ((hpasses hadd).mp hcheck).2 hle).trans h.le_reported
      omega

theorem limitsAgree_iff (hgmr : db.quotedMinimum r = db.gmr.cpuUs)
    (hwindow : (db.config.accountUsageAverageWindow r).toNat ≤ rateLimitingPrecision) :
    db.LimitsAgree r limits (usage.usage r) ↔ db.Within r limits (usage.usage r) := by
  have hw := UsageAccumulator.toNat_pos (hslot usage husage r).1
  refine ⟨LimitsAgree.within, fun hwithin => ⟨hwithin, ?_, ?_⟩⟩
  · rcases Nat.eq_zero_or_pos (db.reported r limits (usage.usage r)) with hzero | hpos
    · omega
    · have hused := usedInWindow_le_of_pos hw hwindow hpos (by rw [reported, hgmr])
      exact (min_le_left _ _).trans ((usedInWindow_le_iff hw (by decide)).mp hused).2
  · have hused := (usedInWindow_le_iff hw (by decide)).mpr ⟨hwithin, le_rfl⟩
    have hle := le_of_usedInWindow_le hw (by decide) hused
    rw [reported, hgmr]
    exact (min_le_left _ _).trans hle

theorem enforces_of_pos (hlimited : db.Limited r limits)
    (hgmr : db.quotedMinimum r = db.gmr.cpuUs)
    (hwindow : (db.config.accountUsageAverageWindow r).toNat ≤ rateLimitingPrecision)
    (hadd : db.addUsage cpu net slot usage = .ok used) (hpos : 0 < (r.amount cpu net).toNat) :
    db.Enforces r limits used (r.amount cpu net).toNat (db.reported r limits (usage.usage r)) := by
  obtain ⟨hw, hvalue⟩ :=
    UsageAccumulator.add_valueEx (addUsage_usage hadd r) (hslot usage husage r).2
  rw [Enforces, checkResource_eq_ok, imp_iff_right hlimited, Within, hvalue, reported, hgmr]
  constructor
  · intro hle
    exact usedInWindow_le_of_pos hw hwindow hpos (by omega)
  · intro hcheck
    have hle := le_of_usedInWindow_le hw (by decide) hcheck
    omega

end Slot

end ResourceDb

def twoWeights : List ResourceOperation :=
  [.initializeAccount 5, .initializeAccount 6, .setAccountLimits 5 (-1) 0 0,
    .setAccountLimits 6 (-1) 1 1, .processAccountLimitUpdates]

def billedAccount : FlatSet Name := FlatSet.empty.insert 5

def unused : ResourceDb where
  state := { totalCpuWeight := 1, totalNetWeight := 1 }
  limits := (Table.empty.insert (toLex (false, 5)) ⟨0, 0, -1⟩).insert (toLex (false, 6)) ⟨1, 1, -1⟩
  usages := (Table.empty.insert 5 ⟨{ lastOrdinal := 1 }, { lastOrdinal := 1 }⟩).insert 6 {}

end BaccChain
