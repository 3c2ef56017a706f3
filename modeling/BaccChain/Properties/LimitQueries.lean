import BaccChain.Chain.Genesis
import BaccChain.Chain.ResourceSettings
import BaccChain.Contracts.System.BandwidthSpec

/-!
# Settings of resources and the limits of accounts

The limits of accounts are reported as signed 64-bit numbers, so the settings have to leave room for
them. The handlers do not check that.

## Main definitions

* `LimitsAnswer`: queries answer with the exact numbers
* `ResourceSettings.Fit`: the numbers fit

## Main results

* `limit_queries_iff`: when queries answer
* `limit_queries_break`: settings that break them
-/

namespace BaccChain

open Commons

/-! ## The numbers -/

/-- The settings that a query reads. -/
structure ResourceSettings where
  gmr : GmrParameters
  ramRent : Int
  staked : Name → Option Asset

def SettingsState.settings (s : SettingsState) : ResourceSettings where
  gmr := s.resources.gmr
  ramRent := s.ramRent
  staked := fun account => (s.system.vote4ramsum.find () account).map (·.staked)

def ResourceDb.HasAccount (db : ResourceDb) (account : Name) : Prop :=
  (∃ usage, db.getUsage account = .ok usage) ∧ ∃ limits, db.getAccountLimits account = .ok limits

namespace SettingsState

def rentedRam (s : SettingsState) (account : Name) : Int :=
  ((s.settings.staked account).elim 0 fun stake => stake.amount * s.ramRent) / 1000000

/-- The RAM that is reported is right. -/
def RamExact (s : SettingsState) (account : Name) : Prop :=
  s.resources.gmr.ramByte.toNat < 2 ^ 63 ∧
    ∀ stake, s.settings.staked account = some stake →
      -2 ^ 63 ≤ stake.amount * s.ramRent ∧ stake.amount * s.ramRent < 2 ^ 63

/-- The RAM limit of an account is no limit, or it is what the account has from its stake and the
guaranteed RAM, without overflow. -/
def RamAnswers (s : SettingsState) (account : Name) : Prop :=
  if ramUnlimited account then s.getAccountRamLimit account = .ok (-1)
  else s.RamExact account ∧
    ∃ limit, s.getAccountRamLimit account = .ok limit ∧ 0 ≤ limit ∧
      limit = s.rentedRam account + s.resources.gmr.ramByte.toNat

/-- Every query is answered, and rightly. -/
def LimitsAnswer (s : SettingsState) : Prop :=
  ∀ account, s.resources.HasAccount account →
    (∀ elastic, ∃ limit, s.getAccountCpuLimitEx account elastic = .ok limit) ∧
    (∀ elastic, ∃ limit, s.getAccountNetLimitEx account elastic = .ok limit) ∧
    s.RamAnswers account

end SettingsState

/-! ## CPU and NET -/

namespace ResourceDb

variable {db : ResourceDb} {r : Resource} {guaranteed : UInt64} {account : Name} {elastic : Bool}

def shareInWindow (db : ResourceDb) (r : Resource) (elastic : Bool) (weight : Int) : Nat :=
  (if elastic then db.state.virtualLimit r else (db.config.limitParameters r).max).toNat *
    (db.config.accountUsageAverageWindow r).toNat % 2 ^ 128 * weight.toNat % 2 ^ 128 /
    (db.state.totalWeight r).toNat

/-- The share of an account with a weight and the guaranteed minimum fit a signed number, and so
does what it has used. -/
def UsageFits (db : ResourceDb) (r : Resource) (guaranteed : UInt64) (account : Name)
    (elastic : Bool) : Prop :=
  ∀ usage limits, db.getUsage account = .ok usage → db.getAccountLimits account = .ok limits →
    0 ≤ limits.weight r → db.state.totalWeight r ≠ 0 →
    (db.shareInWindow r elastic (limits.weight r) + guaranteed.toNat) % 2 ^ 128 < 2 ^ 63 ∧
      integerDivideCeil ((usage.usage r).valueEx.toNat *
        (db.config.accountUsageAverageWindow r).toNat) rateLimitingPrecision < 2 ^ 63

theorem exists_downgradeCast {max val : Nat} {α : Type} {f : Nat → Except String α} :
    (∃ v, (downgradeCast max val >>= f) = .ok v) ↔ val ≤ max ∧ ∃ v, f val = .ok v := by
  simp only [downgradeCast, ok_iff]
  constructor
  · rintro ⟨v, _, ⟨hle, rfl⟩, h⟩
    exact ⟨hle, v, h⟩
  · rintro ⟨hle, v, h⟩
    exact ⟨v, val, ⟨hle, rfl⟩, h⟩

theorem exists_getAccountLimitEx (h : db.HasAccount account) :
    (∃ limit, db.getAccountLimitEx r guaranteed account elastic = .ok limit) ↔
      db.UsageFits r guaranteed account elastic := by
  obtain ⟨⟨usage, husage⟩, limits, hlimits⟩ := h
  have hfits : db.UsageFits r guaranteed account elastic ↔
      (0 ≤ limits.weight r → db.state.totalWeight r ≠ 0 →
        (db.shareInWindow r elastic (limits.weight r) + guaranteed.toNat) % 2 ^ 128 < 2 ^ 63 ∧
          integerDivideCeil ((usage.usage r).valueEx.toNat *
            (db.config.accountUsageAverageWindow r).toNat) rateLimitingPrecision < 2 ^ 63) := by
    simp only [UsageFits, husage, hlimits, Except.ok.injEq]
    exact ⟨fun h => h usage limits rfl rfl, by rintro h _ _ rfl rfl; exact h⟩
  rw [hfits, getAccountLimitEx, husage, hlimits]
  simp only [ok_bind]
  by_cases hunlimited : limits.weight r < 0 ∨ db.state.totalWeight r = 0
  · rw [if_pos hunlimited]
    refine iff_of_true ⟨_, rfl⟩ fun hweight htotal => ?_
    rcases hunlimited with hneg | hzero
    · omega
    · exact absurd hzero htotal
  · rw [if_neg hunlimited]
    rw [not_or, not_lt] at hunlimited
    rw [imp_iff_right hunlimited.1, imp_iff_right hunlimited.2, exists_downgradeCast,
      exists_downgradeCast, exists_downgradeCast]
    constructor
    · rintro ⟨-, hused, hmax, -⟩
      exact ⟨Nat.lt_of_le_sub_one (by norm_num) hmax, Nat.lt_of_le_sub_one (by norm_num) hused⟩
    · rintro ⟨hmax, hused⟩
      have hmax := Nat.le_sub_one_of_lt hmax
      exact ⟨(Nat.sub_le _ _).trans hmax, Nat.le_sub_one_of_lt hused, hmax, _, rfl⟩

end ResourceDb

/-! ## RAM -/

/-- The stake of an account is an asset that the chain can read, and the limit that follows from it
is a signed number, without a fraction that is rounded up. -/
structure RamStakeFits (ramRent : Int) (ramByte : Nat) (stake : Asset) : Prop where
  readable : stake.reflectorVerify = .ok ()
  product : -2 ^ 63 ≤ stake.amount * ramRent ∧ stake.amount * ramRent < 2 ^ 63
  rounding : 0 ≤ stake.amount * ramRent ∨ 1000000 ∣ stake.amount * ramRent
  limit : 0 ≤ stake.amount * ramRent / 1000000 + ramByte ∧
    stake.amount * ramRent / 1000000 + ramByte < 2 ^ 63

def ResourceSettings.RamFits (x : ResourceSettings) (account : Name) : Prop :=
  ramUnlimited account = true ∨ x.gmr.ramByte.toNat < 2 ^ 63 ∧
    ∀ stake, x.staked account = some stake → RamStakeFits x.ramRent x.gmr.ramByte.toNat stake

/-- What is reported fits its type. -/
def ResourceSettings.Fit (x : ResourceSettings) (db : ResourceDb) : Prop :=
  ∀ account, db.HasAccount account →
    (∀ elastic, db.UsageFits .cpu x.gmr.cpuUs account elastic) ∧
    (∀ elastic, db.UsageFits .net x.gmr.netByte account elastic) ∧
    x.RamFits account

theorem tdiv_eq_ediv_iff {p d : Int} (hd : 0 < d) : p.tdiv d = p / d ↔ 0 ≤ p ∨ d ∣ p := by
  rw [Int.tdiv_eq_ediv, Int.sign_eq_one_of_pos hd]
  split_ifs with h
  · simpa using h
  · simp only [not_or] at h
    exact iff_of_false (by omega) (not_or.mpr h)

theorem wrapped_limit_iff {p : Int} {ramByte : Nat} (hp : -2 ^ 63 ≤ p ∧ p < 2 ^ 63)
    (hram : ramByte < 2 ^ 63) :
    0 ≤ wrap64 (p.tdiv 1000000 + ramByte) ∧
        wrap64 (p.tdiv 1000000 + ramByte) = p / 1000000 + ramByte ↔
      (0 ≤ p ∨ 1000000 ∣ p) ∧ 0 ≤ p / 1000000 + ramByte ∧ p / 1000000 + ramByte < 2 ^ 63 := by
  rw [← tdiv_eq_ediv_iff (show (0 : Int) < 1000000 by omega)]
  constructor
  · rintro ⟨hnonneg, heq⟩
    have hrange := wrap64_range (p.tdiv 1000000 + ramByte)
    refine ⟨?_, heq ▸ hnonneg, heq ▸ hrange.2⟩
    rcases Int.le_total 0 p with hpos | hneg
    · exact Int.tdiv_eq_ediv_of_nonneg hpos
    · have hquot := Int.tdiv_eq_ediv (a := p) (b := 1000000)
      rw [Int.sign_eq_one_of_pos (show (0 : Int) < 1000000 by omega)] at hquot
      have hsmall : p.tdiv 1000000 ≤ 0 ∧ -2 ^ 63 ≤ p.tdiv 1000000 := by
        split_ifs at hquot <;> omega
      rw [wrap64_eq (by omega) (by omega)] at heq
      omega
  · rintro ⟨hquot, hnonneg, hlt⟩
    rw [hquot, wrap64_eq (by omega) hlt]
    exact ⟨hnonneg, rfl⟩

namespace SettingsState

variable {s : SettingsState} {account : Name}

theorem ramAnswers_iff : s.RamAnswers account ↔ s.settings.RamFits account := by
  unfold RamAnswers ResourceSettings.RamFits
  by_cases hunlimited : ramUnlimited account = true
  · rw [if_pos hunlimited, getAccountRamLimit, if_pos hunlimited]
    exact iff_of_true rfl (.inl hunlimited)
  rw [if_neg hunlimited, or_iff_right hunlimited, RamExact, and_assoc]
  refine and_congr_right fun hram => ?_
  have hinit : wrap64 s.resources.gmr.ramByte.toNat = s.resources.gmr.ramByte.toNat :=
    wrap64_eq (by omega) (by exact_mod_cast hram)
  have hstaked : s.settings.staked account =
      (s.system.vote4ramsum.find () account).map (·.staked) := rfl
  rw [getAccountRamLimit, if_neg hunlimited, hinit, rentedRam]
  cases hrow : s.system.vote4ramsum.find () account with
  | none =>
    rw [hrow] at hstaked
    rw [hstaked]
    simp [pure_eq_ok]
  | some v =>
    rw [hrow] at hstaked
    rw [hstaked]
    simp only [Option.map_some, Option.some.injEq, forall_eq', Option.elim_some, ok_iff]
    constructor
    · rintro ⟨hproduct, limit, ⟨hread, rfl⟩, hlimit⟩
      rw [wrap64_eq hproduct.1 hproduct.2] at hlimit
      obtain ⟨hrounding, hfit⟩ := (wrapped_limit_iff hproduct hram).mp hlimit
      exact ⟨hread, hproduct, hrounding, hfit⟩
    · rintro ⟨hread, hproduct, hrounding, hfit⟩
      replace hproduct : -2 ^ 63 ≤ v.staked.amount * s.ramRent ∧
        v.staked.amount * s.ramRent < 2 ^ 63 := hproduct
      refine ⟨hproduct, _, ⟨hread, rfl⟩, ?_⟩
      rw [wrap64_eq hproduct.1 hproduct.2]
      exact (wrapped_limit_iff hproduct hram).mpr ⟨hrounding, hfit⟩

theorem RamAnswers.exists_ok (h : s.RamAnswers account) :
    ∃ limit, s.getAccountRamLimit account = .ok limit := by
  unfold RamAnswers at h
  split_ifs at h
  · exact ⟨_, h⟩
  · obtain ⟨-, limit, hlimit, -⟩ := h
    exact ⟨limit, hlimit⟩

theorem exists_getAccountLimitEx {r : Resource} {guaranteed : UInt64} {elastic : Bool}
    (h : s.resources.HasAccount account) (hram : s.RamAnswers account) :
    (∃ limit, s.getAccountLimitEx r guaranteed account elastic = .ok limit) ↔
      s.resources.UsageFits r guaranteed account elastic := by
  rw [← ResourceDb.exists_getAccountLimitEx h]
  obtain ⟨⟨usage, husage⟩, limits, hlimits⟩ := h
  obtain ⟨limit, hlimit⟩ := hram.exists_ok
  rw [getAccountLimitEx, husage, hlimits, hlimit]
  rfl

theorem limitsAnswer_iff : s.LimitsAnswer ↔ s.settings.Fit s.resources := by
  refine forall_congr' fun account => imp_congr_right fun hacc => ?_
  rw [← ramAnswers_iff, ← and_assoc, ← and_assoc]
  refine and_congr_left fun hram => and_congr ?_ ?_
  · exact forall_congr' fun elastic => exists_getAccountLimitEx hacc hram
  · exact forall_congr' fun elastic => exists_getAccountLimitEx hacc hram

end SettingsState

/-! ## The actions -/

def GmrParameters.set (gmr : GmrParameters) (gt : GmrType) (value : UInt64) : GmrParameters :=
  match gt with
  | .cpuUs => { gmr with cpuUs := value }
  | .ramByte => { gmr with ramByte := value }
  | .netByte => { gmr with netByte := value }

def SettingsAction.set : SettingsAction → ResourceSettings → ResourceSettings
  | .setconfig _ cfg, x => { x with
      gmr := (setconfigGmr cfg.typ).elim x.gmr fun gt =>
        x.gmr.set gt (UInt64.ofNat (cfg.num % 2 ^ 64).toNat)
      ramRent := if cfg.typ = ramRentBPerEos then cfg.num else x.ramRent }
  | .setram _ account stake, x => { x with
      staked := Function.update x.staked account (some stake) }

/-- All copies of the guaranteed minimum are equal. -/
structure SettingsState.Synced (s : SettingsState) : Prop where
  config : s.config.db.gmrParameters = s.config.db.forceProperty.gmr
  resources : s.resources.gmr = s.config.db.gmrParameters.toParameters

theorem GuaranteedMinimumResources.toParameters_set (gmr : GuaranteedMinimumResources)
    (gt : GmrType) (value : Nat) :
    (gmr.set gt value).toParameters = gmr.toParameters.set gt (UInt64.ofNat value) := by
  cases gt <;> rfl

theorem applySystemNativeSetconfig_eq_ok {authorization : List Name} {cfg : Setconfig}
    {s s' : ConfigState} {u : Unit} (hsync : s.db.gmrParameters = s.db.forceProperty.gmr)
    (h : applySystemNativeSetconfig authorization cfg s = (.ok u, s')) :
    s'.db.configData = s.db.configData.insert cfg.typ ⟨cfg.num, cfg.key, cfg.fee⟩ ∧
      s'.db.forceProperty.gmr = (setconfigGmr cfg.typ).elim s.db.forceProperty.gmr
        (fun gt => s.db.forceProperty.gmr.set gt (cfg.num % 2 ^ 64).toNat) ∧
      s'.db.gmrParameters = s'.db.forceProperty.gmr := by
  have hauth : setconfigAuthorized authorization := by
    by_contra hauth
    rw [applySystemNativeSetconfig_of_unauthorized hauth] at h
    cases h
  rw [applySystemNativeSetconfig_of_authorized hauth] at h
  have hlist : (setListConfigOnChain cfg (setConfigOnChain cfg s)).db.configData =
        s.db.configData.insert cfg.typ ⟨cfg.num, cfg.key, cfg.fee⟩ ∧
      (setListConfigOnChain cfg (setConfigOnChain cfg s)).db.forceProperty.gmr =
        s.db.forceProperty.gmr ∧
      (setListConfigOnChain cfg (setConfigOnChain cfg s)).db.gmrParameters =
        s.db.gmrParameters := by
    unfold setListConfigOnChain
    split <;> exact ⟨rfl, rfl, rfl⟩
  generalize setListConfigOnChain cfg (setConfigOnChain cfg s) = s₁ at h hlist
  obtain ⟨hdata, hgmr, hparams⟩ := hlist
  unfold setGuaranteedMinimumConfig at h
  cases htyp : setconfigGmr cfg.typ with
  | none =>
    rw [htyp] at h
    obtain ⟨-, rfl⟩ := Attempt.pure_eq_ok.mp h
    exact ⟨hdata, hgmr, by rw [hparams, hsync, hgmr]⟩
  | some gt =>
    rw [htyp] at h
    simp only [setGmrConfig, Attempt.update_bind, Attempt.read_bind, Attempt.bind_eq_ok,
      Attempt.lift_eq_ok, Attempt.update_eq_ok] at h
    obtain ⟨-, _, ⟨-, rfl⟩, rfl⟩ := h
    refine ⟨hdata, ?_, rfl⟩
    show s₁.db.forceProperty.gmr.set gt _ = s.db.forceProperty.gmr.set gt _
    rw [hgmr]

theorem getNumConfigOnChain_insert (t : Table Name ConfigData) (typ typ' : Name) (d : ConfigData)
    (defaultValue : Int) :
    getNumConfigOnChain (t.insert typ d) typ' defaultValue =
      if typ = typ' then d.num else getNumConfigOnChain t typ' defaultValue := by
  unfold getNumConfigOnChain
  split_ifs with h
  · subst h
    simp
  · rw [Table.find_insert_ne _ _ h]

theorem SettingsAction.settings_exec {a : SettingsAction} {s s' : SettingsState} (hs : s.Synced)
    (h : a.exec s = .ok s') :
    s'.Synced ∧ s'.settings = a.set s.settings ∧
      s'.resources = { s.resources with gmr := s'.resources.gmr } := by
  cases a with
  | setconfig authorization cfg =>
    rcases hconfig : applySystemNativeSetconfig authorization cfg s.config with ⟨r, config⟩
    cases r with
    | error => simp [exec, hconfig] at h
    | ok =>
      simp only [exec, hconfig, Except.ok.injEq] at h
      subst h
      obtain ⟨hdata, hgmr, hparams⟩ := applySystemNativeSetconfig_eq_ok hs.config hconfig
      refine ⟨⟨hparams, rfl⟩, ?_, rfl⟩
      have hset : config.db.gmrParameters.toParameters = (setconfigGmr cfg.typ).elim
          s.resources.gmr fun gt =>
            s.resources.gmr.set gt (UInt64.ofNat (cfg.num % 2 ^ 64).toNat) := by
        rw [hparams, hgmr, hs.resources, hs.config]
        cases setconfigGmr cfg.typ with
        | none => rfl
        | some => exact GuaranteedMinimumResources.toParameters_set _ _ _
      have hrent : getNumConfigOnChain config.db.configData ramRentBPerEos 10240 =
          if cfg.typ = ramRentBPerEos then cfg.num else s.ramRent := by
        rw [hdata, getNumConfigOnChain_insert]
        rfl
      simp only [SettingsState.settings, SettingsState.ramRent, set, hset, hrent]
  | setram e account =>
    obtain ⟨⟨u, c⟩, hc, h⟩ := bind_eq_ok.mp h
    obtain rfl := pure_eq_ok.mp h
    obtain ⟨t, hdb, -, v, hwrites, rfl⟩ := SystemContract.setram_eq_ok hc
    refine ⟨⟨hs.config, hs.resources⟩, ?_, rfl⟩
    have hfind : (fun a => (c.db.vote4ramsum.find () a).map (·.staked)) =
        Function.update (fun a => (s.system.vote4ramsum.find () a).map (·.staked)) account
          (some v.staked) := by
      funext a
      rw [hdb]
      by_cases ha : a = account
      · subst ha
        rw [Function.update_self, hwrites.find_self]
        rfl
      · rw [Function.update_of_ne ha, hwrites.find_of_ne (by simp [ha])]
    simp only [SettingsState.settings, SettingsState.ramRent, set, hfind]

theorem SettingsAction.limitsAnswer_exec {a : SettingsAction} {s s' : SettingsState}
    (hs : s.Synced) (h : a.exec s = .ok s') :
    s'.LimitsAnswer ↔ (a.set s.settings).Fit s.resources := by
  obtain ⟨-, hset, hresources⟩ := settings_exec hs h
  rw [SettingsState.limitsAnswer_iff, hset, hresources]
  exact Iff.rfl

/-- **The queries answer along a run of settings** exactly if the first settings fit, and the
settings that each accepted action asks for do. -/
theorem limit_queries_iff (s₀ : SettingsState) (l : List SettingsAction) (hs : s₀.Synced) :
    Always SettingsAction.exec SettingsState.LimitsAnswer s₀ l ↔
      s₀.settings.Fit s₀.resources ∧
        Along SettingsAction.exec (fun s a => (a.set s.settings).Fit s.resources) s₀ l := by
  have hruns (hfirst : s₀.LimitsAnswer) :
      Always SettingsAction.exec SettingsState.LimitsAnswer s₀ l ↔
        Along SettingsAction.exec (fun s a => (a.set s.settings).Fit s.resources) s₀ l :=
    always_iff_along (fun _ _ _ hs _ h => (SettingsAction.settings_exec hs h).1)
      (fun _ _ _ hs _ h => SettingsAction.limitsAnswer_exec hs h) hs hfirst
  rw [← SettingsState.limitsAnswer_iff]
  constructor
  · intro h
    have hfirst : s₀.LimitsAnswer := h [] List.nil_prefix
    exact ⟨hfirst, (hruns hfirst).mp h⟩
  · rintro ⟨hfirst, h⟩
    exact (hruns hfirst).mpr h

/-! ## Settings that break the queries -/

open Genesis (alice)

/-- A chain with one account, `alice`, which has all the weight of CPU, and the defaults of the
guaranteed minimum. -/
def aliceSettings : SettingsState where
  config := {
    conf := fun _ => .empty
    db := {
      forceProperty := ⟨fun _ => [], ⟨65536, 800000, 32768⟩⟩
      configData := .empty
      gmrParameters := ⟨65536, 800000, 32768⟩ } }
  resources := {
    state := { totalCpuWeight := 1 }
    limits := Table.empty.insert (toLex (false, alice)) { cpuWeight := 1 }
    usages := Table.empty.insert alice {} }
  system := {}

theorem aliceSettings_synced : aliceSettings.Synced := ⟨rfl, rfl⟩

def setMinimum (typ : Name) (num : Int) : SettingsAction :=
  .setconfig [producersAccountName] ⟨typ, num, 0, Asset.core 0⟩

theorem eq_of_getUsage {account : Name} {usage : ResourceUsageObject}
    (h : aliceSettings.resources.getUsage account = .ok usage) :
    account = alice ∧ usage = {} := by
  unfold ResourceDb.getUsage at h
  rw [show aliceSettings.resources.usages = Table.empty.insert alice {} from rfl,
    Table.find_insert] at h
  split_ifs at h with hname
  · exact ⟨hname.symm, (pure_eq_ok.mp h)⟩
  · cases h

theorem fit_aliceSettings {x : ResourceSettings} (hcpu : x.gmr.cpuUs.toNat < 2 ^ 62)
    (hram : x.gmr.ramByte.toNat < 2 ^ 63) (hstaked : x.staked alice = none) :
    x.Fit aliceSettings.resources := by
  rintro account ⟨⟨usage, husage⟩, -⟩
  obtain ⟨rfl, -⟩ := eq_of_getUsage husage
  refine ⟨fun elastic usage limits husage hlimits _ _ => ?_, fun elastic _ _ _ _ _ hzero => ?_,
    .inr ⟨hram, fun stake hstake => ?_⟩⟩
  · obtain ⟨-, rfl⟩ := eq_of_getUsage husage
    obtain rfl : limits = { cpuWeight := 1 } := (Except.ok.inj hlimits).symm
    have hshare : aliceSettings.resources.shareInWindow .cpu elastic 1 = 172800000000 := by
      cases elastic <;> decide
    refine ⟨?_, by decide⟩
    show (aliceSettings.resources.shareInWindow .cpu elastic 1 + _) % _ < _
    rw [hshare]
    omega
  · exact absurd rfl hzero
  · rw [hstaked] at hstake
    cases hstake

theorem limit_queries_raised : aliceSettings.Synced ∧
    Always SettingsAction.exec SettingsState.LimitsAnswer aliceSettings
      [setMinimum gmrCpu 900000] := by
  refine ⟨aliceSettings_synced, (limit_queries_iff _ _ aliceSettings_synced).mpr ⟨?_, ?_, trivial⟩⟩
  · exact fit_aliceSettings (by decide) (by decide) rfl
  · intro _ _
    exact fit_aliceSettings (by decide +kernel) (by decide +kernel) rfl

/-- **Negative minimums break the queries.** The producers may set the guaranteed CPU to `-1`: then
the limit of an account with a weight is not answered. -/
theorem limit_queries_break :
    aliceSettings.Synced ∧ aliceSettings.LimitsAnswer ∧ aliceSettings.resources.HasAccount alice ∧
    (∃ s, (setMinimum gmrCpu (-1)).exec aliceSettings = .ok s ∧ ¬ s.LimitsAnswer ∧
      ¬ ∃ limit, s.getAccountCpuLimitEx alice true = .ok limit) ∧
    ramUnlimited alice = false ∧
    ∃ s, (setMinimum gmrRam (-1)).exec aliceSettings = .ok s ∧ ¬ s.LimitsAnswer ∧
      s.getAccountRamLimit alice = .ok (-1) := by
  have hacc (s : SettingsState) {a : SettingsAction} (h : a.exec aliceSettings = .ok s) :
      s.resources.HasAccount alice := by
    rw [(SettingsAction.settings_exec aliceSettings_synced h).2.2]
    exact ⟨⟨_, rfl⟩, _, rfl⟩
  have hfit : aliceSettings.settings.Fit aliceSettings.resources :=
    fit_aliceSettings (by decide) (by decide) rfl
  refine ⟨aliceSettings_synced, SettingsState.limitsAnswer_iff.mpr hfit,
    ⟨⟨_, rfl⟩, _, rfl⟩, ?_, by decide, ?_⟩
  · obtain ⟨s, hs⟩ : ∃ s, (setMinimum gmrCpu (-1)).exec aliceSettings = .ok s := by decide +kernel
    have hthrows : ¬ ∃ limit, s.getAccountCpuLimitEx alice true = .ok limit := by
      rw [← advance_of_ok hs]
      decide +kernel
    exact ⟨s, hs, fun h => hthrows ((h alice (hacc s hs)).1 true), hthrows⟩
  · obtain ⟨s, hs⟩ : ∃ s, (setMinimum gmrRam (-1)).exec aliceSettings = .ok s := by decide +kernel
    have hlimit : s.getAccountRamLimit alice = .ok (-1) := by
      rw [← advance_of_ok hs]
      decide +kernel
    refine ⟨s, hs, fun h => ?_, hlimit⟩
    have hram := (h alice (hacc s hs)).2.2
    rw [SettingsState.RamAnswers, if_neg (by decide)] at hram
    obtain ⟨-, limit, hok, hnonneg, -⟩ := hram
    rw [hlimit] at hok
    cases hok
    omega

end BaccChain
