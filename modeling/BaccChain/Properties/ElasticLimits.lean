import BaccChain.Chain.ChainConfig
import BaccChain.Properties.QuotedLimits
import Mathlib.Data.List.Chain

/-!
# Elastic limits at the end of a block

At the end of a block its usage is taken into a moving average over 120 blocks, and the virtual
limits grow or shrink, between the maximum of a block and 1000 times that maximum.

## Main definitions

* `History`: the calls of a chain of blocks
* `NeverHalts`: blocks end without an exception

## Main results

* `finalization_safe_iff`: the configurations with this property
* `finalization_halts`: a configuration without it
-/

namespace BaccChain

open Commons

/-- The largest usage whose average fits. -/
def usageBound : Nat := (2 ^ 64 - 1) / (119 * rateLimitingPrecision)

/-! ## The average -/

namespace UsageAccumulator

variable {u : UsageAccumulator} {units : UInt64} {ordinal : UInt32}

def AddFits (units : UInt64) (ordinal windowSize : UInt32) (u : UsageAccumulator) : Prop :=
  ∀ a contrib, u.advanceTo ordinal windowSize = .ok a →
    contribution units windowSize = .ok contrib →
    a.consumed.toNat + units.toNat < 2 ^ 64 ∧ a.valueEx.toNat + contrib < 2 ^ 64

/-- An average that cannot overflow. -/
structure Bounded (u : UsageAccumulator) : Prop where
  valueEx_le : u.valueEx.toNat ≤ usageBound * rateLimitingPrecision
  consumed_le : u.consumed.toNat ≤ 2 * usageBound + 1

theorem Bounded.exists_add (h : u.Bounded) (hlast : u.lastOrdinal.toNat < ordinal.toNat)
    (hunits : units.toNat ≤ usageBound) :
    ∃ u', u.add units ordinal 120 = .ok u' ∧ u'.Bounded ∧ u'.lastOrdinal = ordinal ∧
      u.AddFits units ordinal 120 := by
  have hne : u.lastOrdinal ≠ ordinal := fun h => hlast.ne (congrArg UInt32.toNat h)
  have hvalue := h.valueEx_le
  have hconsumed := h.consumed_le
  have hweighted : u.weighted ordinal 120 + _ ≤ _ * 120 :=
    u.weighted_add_le hlast (by decide) le_rfl
  have hceil := integerDivideCeil_mul_lt (units.toNat * rateLimitingPrecision) 120 (by norm_num)
  have hat := u.toNat_consumedAt_le rateLimitingPrecision ordinal 120
  have hle := integerDivideCeil_le (u.weighted ordinal 120 / 120) rateLimitingPrecision
  have hbound : usageBound = 155014656081 := by decide
  rw [if_neg hne] at hat
  change _ ≤ integerDivideCeil (u.weighted ordinal 120 / 120) _ at hat
  unfold rateLimitingPrecision at hvalue hceil hle
  rw [hbound] at hvalue hconsumed hunits
  have hchecks : u.AddChecks rateLimitingPrecision units ordinal 120 := by
    refine ⟨by decide, hlast.le, ?_, by omega, ?_, fun _ => by omega⟩
    · unfold maxRawValue rateLimitingPrecision
      omega
    · show _ + integerDivideCeil (units.toNat * (1000 * 1000)) 120 ≤ _
      omega
  obtain ⟨u', hadd, hlast', hvalue', hconsumed'⟩ := hchecks.exists_add
  have hconsumedAt : (u.consumedAt rateLimitingPrecision ordinal 120).toNat ≤ 155014656082 :=
    hat.trans (hle.trans (by omega))
  refine ⟨u', hadd, ⟨?_, ?_⟩, hlast', ?_⟩
  · rw [hvalue', hbound]
    show u.weighted ordinal 120 / 120 + integerDivideCeil (units.toNat * (1000 * 1000)) 120 ≤
      155014656081 * (1000 * 1000)
    omega
  · rw [hconsumed', hbound, UInt64.toNat_add]
    exact (Nat.mod_le _ _).trans (by omega)
  · intro a contrib ha hcontrib
    obtain ⟨-, -, -, ha, ha'⟩ := (advanceTo_eq_ok (by decide)).mp ha
    obtain ⟨-, -, rfl⟩ := contribution_eq_ok.mp hcontrib
    rw [ha, ha']
    refine ⟨by omega, ?_⟩
    show u.weighted ordinal 120 / 120 + integerDivideCeil (units.toNat * (1000 * 1000)) 120 < _
    omega

end UsageAccumulator

/-! ## The virtual limit -/

theorem toNat_min (a b : UInt64) : (min a b).toNat = min a.toNat b.toNat := by
  show (if a ≤ b then a else b).toNat = _
  simp only [min_def, apply_ite UInt64.toNat, UInt64.le_iff_toNat_le]

theorem toNat_max (a b : UInt64) : (max a b).toNat = max a.toNat b.toNat := by
  show (if a ≤ b then b else a).toNat = _
  simp only [max_def, apply_ite UInt64.toNat, UInt64.le_iff_toNat_le]

theorem exists_updateElasticLimit {limit maximum : UInt64} (average : UInt64)
    (targetPct : UInt32) (hmax : maximum.toNat ≤ usageBound)
    (hlimit : limit.toNat ≤ 1000 * usageBound) :
    ∃ limit', ResourceDb.updateElasticLimit limit average
        (ChainConfig.limitParameters maximum targetPct) = .ok limit' ∧
      maximum.toNat ≤ limit'.toNat ∧ limit'.toNat ≤ 1000 * maximum.toNat := by
  have hbound : usageBound = 155014656081 := by decide
  rw [hbound] at hmax hlimit
  have hmul : (maximum * (1000 : UInt32).toUInt64).toNat = 1000 * maximum.toNat := by
    rw [UInt64.toNat_mul, Nat.mul_comm]
    exact Nat.mod_eq_of_lt (by show 1000 * maximum.toNat < 2 ^ 64; omega)
  have hscale (r : Ratio) (hr : r = ⟨99, 100⟩ ∨ r = ⟨1000, 999⟩) :
      ∃ result, Ratio.scale limit r = .ok result := by
    refine ⟨UInt64.ofNat (limit.toNat * r.numerator.toNat / r.denominator.toNat), ?_⟩
    rw [Ratio.scale_eq_ok, UInt64.toNat_ofNat']
    rcases hr with rfl | rfl
    · show limit.toNat * 99 ≤ _ ∧ _ ∧ limit.toNat * 99 / 100 % 2 ^ 64 = limit.toNat * 99 / 100
      exact ⟨by omega, by decide, by omega⟩
    · show limit.toNat * 1000 ≤ _ ∧ _ ∧
        limit.toNat * 1000 / 999 % 2 ^ 64 = limit.toNat * 1000 / 999
      exact ⟨by omega, by decide, by omega⟩
  obtain ⟨result, hresult⟩ := hscale
    (if (ChainConfig.limitParameters maximum targetPct).target < average
      then ⟨99, 100⟩ else ⟨1000, 999⟩) (by split_ifs <;> simp)
  refine ⟨_, bind_eq_ok.mpr ⟨result, hresult, rfl⟩, ?_⟩
  show maximum.toNat ≤ (min (max result maximum) (maximum * (1000 : UInt32).toUInt64)).toNat ∧
    (min (max result maximum) (maximum * (1000 : UInt32).toUInt64)).toNat ≤ 1000 * maximum.toNat
  rw [toNat_min, toNat_max, hmul]
  omega

/-! ## The end of a block -/

namespace ResourceLimitsState

def averageBlockUsage (s : ResourceLimitsState) : Resource → UsageAccumulator
  | .cpu => s.averageBlockCpuUsage
  | .net => s.averageBlockNetUsage

def pendingUsage (s : ResourceLimitsState) : Resource → UInt64
  | .cpu => s.pendingCpuUsage
  | .net => s.pendingNetUsage

def endBlock (s : ResourceLimitsState) (average : Resource → UsageAccumulator)
    (virtual : Resource → UInt64) : ResourceLimitsState :=
  { s with
    averageBlockCpuUsage := average .cpu, virtualCpuLimit := virtual .cpu, pendingCpuUsage := 0
    averageBlockNetUsage := average .net, virtualNetLimit := virtual .net, pendingNetUsage := 0 }

variable (s : ResourceLimitsState) (average : Resource → UsageAccumulator)
  (virtual : Resource → UInt64) (r : Resource)

@[simp] theorem endBlock_averageBlockUsage :
    (s.endBlock average virtual).averageBlockUsage r = average r := by cases r <;> rfl

@[simp] theorem endBlock_virtualLimit :
    (s.endBlock average virtual).virtualLimit r = virtual r := by cases r <;> rfl

@[simp] theorem endBlock_pendingUsage :
    (s.endBlock average virtual).pendingUsage r = 0 := by cases r <;> rfl

end ResourceLimitsState

namespace ChainConfig

def maxBlockUsage (c : ChainConfig) : Resource → UInt64
  | .cpu => c.maxBlockCpuUsage.toUInt64
  | .net => c.maxBlockNetUsage

def targetBlockUsagePct (c : ChainConfig) : Resource → UInt32
  | .cpu => c.targetBlockCpuUsagePct
  | .net => c.targetBlockNetUsagePct

def elasticLimitParameters (c : ChainConfig) (r : Resource) : ElasticLimitParameters :=
  limitParameters (c.maxBlockUsage r) (c.targetBlockUsagePct r)

theorem validate_limitParameters (maximum : UInt64) (targetPct : UInt32) :
    (limitParameters maximum targetPct).validate = .ok () := rfl

end ChainConfig

namespace ResourceDb

variable {db db' : ResourceDb} {c : ChainConfig} {n : UInt32}

theorem finalizeBlock_eq_ok :
    db.finalizeBlock c n = .ok db' ↔
      ∃ average virtual,
        (∀ r, (db.state.averageBlockUsage r).add (db.state.pendingUsage r) n 120 =
          .ok (average r)) ∧
        (∀ r, updateElasticLimit (db.state.virtualLimit r) (average r).average
          (c.elasticLimitParameters r) = .ok (virtual r)) ∧
        db' = { db with
          config := { db.config with
            cpuLimitParameters := c.cpuLimitParameters
            netLimitParameters := c.netLimitParameters }
          state := db.state.endBlock average virtual } := by
  have hcpu : c.cpuLimitParameters.validate = .ok () :=
    ChainConfig.validate_limitParameters _ _
  have hnet : c.netLimitParameters.validate = .ok () :=
    ChainConfig.validate_limitParameters _ _
  simp only [finalizeBlock, setBlockParameters, hcpu, hnet, ok_bind, processBlockUsage]
  simp only [ok_iff]
  constructor
  · rintro ⟨_, rfl, cpu, hcpu, virtualCpu, hvirtualCpu, net, hnet, virtualNet, hvirtualNet, rfl⟩
    refine ⟨fun | .cpu => cpu | .net => net, fun | .cpu => virtualCpu | .net => virtualNet,
      ?_, ?_, rfl⟩
    · rintro (_ | _)
      exacts [hcpu, hnet]
    · rintro (_ | _)
      exacts [hvirtualCpu, hvirtualNet]
  · rintro ⟨average, virtual, haverage, hvirtual, rfl⟩
    exact ⟨_, rfl, _, haverage .cpu, _, hvirtual .cpu, _, haverage .net, _, hvirtual .net, rfl⟩

/-- The products and the sums at the end of a block that are not checked fit 64 bits: the target,
the largest virtual limit, and what is added to the averages. -/
structure NoWraparound (c : ChainConfig) (n : UInt32) (db : ResourceDb) : Prop where
  target : ∀ r, (c.maxBlockUsage r).toNat * (c.targetBlockUsagePct r).toNat < 2 ^ 64
  multiplied : ∀ r, (c.maxBlockUsage r).toNat *
    (c.elasticLimitParameters r).maxMultiplier.toNat < 2 ^ 64
  average : ∀ r, (db.state.averageBlockUsage r).AddFits (db.state.pendingUsage r) n 120

/-- Virtual limits are within their range. -/
def InRange (db : ResourceDb) : Prop :=
  ∀ r, (db.config.limitParameters r).max.toNat ≤ (db.state.virtualLimit r).toNat ∧
    (db.state.virtualLimit r).toNat ≤ 1000 * (db.config.limitParameters r).max.toNat

/-- The averages and the pending usage are within their bounds, and the last block was at most
the block `n`. -/
structure Elastic (n : Nat) (db : ResourceDb) : Prop where
  inRange : db.InRange
  max_le : ∀ r, (db.config.limitParameters r).max.toNat ≤ usageBound
  pending_le : ∀ r, db.state.pendingUsage r ≤ (db.config.limitParameters r).max
  average : ∀ r, (db.state.averageBlockUsage r).Bounded
  lastOrdinal_le : ∀ r, (db.state.averageBlockUsage r).lastOrdinal.toNat ≤ n

theorem elastic_default : Elastic 0 {} := by
  refine ⟨?_, ?_, ?_, ?_, ?_⟩ <;> rintro (_ | _)
  any_goals decide
  all_goals exact ⟨by decide, by decide⟩

theorem limitParameters_finalized (config : ResourceLimitsConfig) (r : Resource) :
    ({ config with
      cpuLimitParameters := c.cpuLimitParameters
      netLimitParameters := c.netLimitParameters } : ResourceLimitsConfig).limitParameters r =
        c.elasticLimitParameters r := by
  cases r <;> rfl

/-- **One block** ends without an exception and without wrapping around, if the maximum usage of the
configuration is within the bound. -/
theorem Elastic.finalizeBlock {m : Nat} (h : Elastic m db) (hn : m < n.toNat)
    (hmax : ∀ r, (c.maxBlockUsage r).toNat ≤ usageBound) :
    ∃ db', db.finalizeBlock c n = .ok db' ∧ Elastic n.toNat db' ∧
      ∀ r, (db.state.averageBlockUsage r).AddFits (db.state.pendingUsage r) n 120 := by
  have hadd (r : Resource) := (h.average r).exists_add ((h.lastOrdinal_le r).trans_lt hn)
    ((UInt64.le_iff_toNat_le.mp (h.pending_le r)).trans (h.max_le r))
  choose average haverage hbounded hordinal hfits using hadd
  have hlimit (r : Resource) : (db.state.virtualLimit r).toNat ≤ 1000 * usageBound :=
    (h.inRange r).2.trans (Nat.mul_le_mul_left _ (h.max_le r))
  have hvirtual (r : Resource) := exists_updateElasticLimit (average r).average
    (c.targetBlockUsagePct r) (hmax r) (hlimit r)
  choose virtual hvirtual hrange using hvirtual
  refine ⟨_, finalizeBlock_eq_ok.mpr ⟨average, virtual, haverage, hvirtual, rfl⟩, ?_, hfits⟩
  refine ⟨fun r => ?_, fun r => ?_, fun r => ?_, fun r => ?_, fun r => ?_⟩
  · rw [limitParameters_finalized, ResourceLimitsState.endBlock_virtualLimit]
    exact hrange r
  · rw [limitParameters_finalized]
    exact hmax r
  · rw [ResourceLimitsState.endBlock_pendingUsage]
    exact UInt64.zero_le
  · rw [ResourceLimitsState.endBlock_averageBlockUsage]
    exact hbounded r
  · rw [ResourceLimitsState.endBlock_averageBlockUsage, hordinal r]

/-! ## Calls within a block -/

/-- The limits and averages are as before, and the pending usage is within the maximum. -/
structure SameElastic (db db' : ResourceDb) : Prop where
  config : db'.config = db.config
  average : ∀ r, db'.state.averageBlockUsage r = db.state.averageBlockUsage r
  virtualLimit : ∀ r, db'.state.virtualLimit r = db.state.virtualLimit r
  pending : ∀ r, db'.state.pendingUsage r = db.state.pendingUsage r ∨
    db'.state.pendingUsage r ≤ (db.config.limitParameters r).max

theorem SameElastic.of_state (hconfig : db'.config = db.config) (hstate : db'.state = db.state) :
    SameElastic db db' := by
  refine ⟨hconfig, fun r => ?_, fun r => ?_, fun r => .inl ?_⟩ <;> rw [hstate]

theorem SameElastic.trans {db'' : ResourceDb} (h : SameElastic db db')
    (h' : SameElastic db' db'') : SameElastic db db'' := by
  refine ⟨h'.config.trans h.config, fun r => (h'.average r).trans (h.average r),
    fun r => (h'.virtualLimit r).trans (h.virtualLimit r), fun r => ?_⟩
  rcases h'.pending r with heq | hle
  · rw [heq]
    exact h.pending r
  · rw [h.config] at hle
    exact .inr hle

theorem Elastic.of_same {m : Nat} (h : Elastic m db) (hsame : SameElastic db db') :
    Elastic m db' := by
  refine ⟨fun r => ?_, fun r => ?_, fun r => ?_, fun r => ?_, fun r => ?_⟩
  · rw [hsame.config, hsame.virtualLimit]
    exact h.inRange r
  · rw [hsame.config]
    exact h.max_le r
  · rw [hsame.config]
    rcases hsame.pending r with heq | hle
    · rw [heq]
      exact h.pending_le r
    · exact hle
  · rw [hsame.average]
    exact h.average r
  · rw [hsame.average]
    exact h.lastOrdinal_le r

theorem foldlM_same {α : Type} {f : ResourceDb → α → Except String ResourceDb} {l : List α}
    (hstep : ∀ db a db', f db a = .ok db' → SameElastic db db') (h : l.foldlM f db = .ok db') :
    SameElastic db db' :=
  foldlM_induction (SameElastic db) (fun a _ s s' hs hsame => hsame.trans (hstep s a s' hs)) h
    (.of_state rfl rfl)

theorem updateAccountLimits_same {owner : Name} {pending : ResourceLimitsObject}
    (h : db.updateAccountLimits owner pending = .ok db') : SameElastic db db' := by
  simp only [updateAccountLimits, ok_iff] at h
  obtain ⟨_, -, _, -, _, -, _, -, rfl⟩ := h
  refine ⟨rfl, ?_, ?_, fun r => .inl ?_⟩
  · rintro (_ | _) <;> rfl
  · rintro (_ | _) <;> rfl
  · cases r <;> rfl

theorem addTransactionUsage_same {accounts : FlatSet Name} {cpu net : UInt64} {slot : UInt32}
    (h : db.addTransactionUsage accounts cpu net slot = .ok db') : SameElastic db db' := by
  simp only [addTransactionUsage, ok_iff] at h
  obtain ⟨db₁, hcharge, hcpu, hnet, rfl⟩ := h
  have hsame : SameElastic db db₁ := by
    refine foldlM_same (fun db a db' ha => ?_) hcharge
    simp only [chargeAccount, ok_iff] at ha
    obtain ⟨_, -, rfl⟩ := ha
    exact .of_state rfl rfl
  refine hsame.trans ⟨rfl, ?_, ?_, ?_⟩
  · rintro (_ | _) <;> rfl
  · rintro (_ | _) <;> rfl
  · rintro (_ | _)
    · exact .inr hcpu
    · exact .inr hnet

end ResourceDb

def ResourceOperation.InBlock : ResourceOperation → Prop
  | .setBlockParameters _ _ => False
  | .processBlockUsage _ => False
  | _ => True

theorem ResourceOperation.exec_same {op : ResourceOperation} {db db' : ResourceDb}
    (hop : op.InBlock) (h : op.exec db = .ok db') : db.SameElastic db' := by
  cases op with
  | setBlockParameters => exact hop.elim
  | processBlockUsage => exact hop.elim
  | initializeAccount =>
    simp only [exec, ResourceDb.initializeAccount, ok_iff] at h
    obtain ⟨-, -, rfl⟩ := h
    exact .of_state rfl rfl
  | setGmrParameters =>
    simp only [exec, ResourceDb.setGmrParameters, ok_iff] at h
    obtain ⟨-, rfl⟩ := h
    exact .of_state rfl rfl
  | setAccountLimits =>
    simp only [exec, ResourceDb.setAccountLimits, ok_iff] at h
    obtain ⟨_, ⟨_, -, rfl⟩, rfl⟩ := h
    exact .of_state rfl rfl
  | processAccountLimitUpdates =>
    exact ResourceDb.foldlM_same (fun _ _ _ => ResourceDb.updateAccountLimits_same) h
  | updateAccountUsage =>
    refine ResourceDb.foldlM_same (fun db a db' ha => ?_) h
    simp only [ResourceDb.updateUsage, ok_iff] at ha
    obtain ⟨_, -, _, -, rfl⟩ := ha
    exact .of_state rfl rfl
  | addTransactionUsage => exact ResourceDb.addTransactionUsage_same h

/-! ## Histories -/

namespace BlockOperation

def blockNum? : BlockOperation → Option UInt32
  | .call _ => none
  | .finalize _ blockNum => some blockNum

end BlockOperation

/-- The calls of a chain of blocks, whose numbers grow and whose configurations are all in `S`. -/
structure History (S : ChainConfig → Prop) (l : List BlockOperation) : Prop where
  calls : ∀ op, .call op ∈ l → op.InBlock
  configurations : ∀ c n, .finalize c n ∈ l → S c
  numbers : (0 :: l.filterMap BlockOperation.blockNum?).IsChain (· < ·)

/-- The state after calls. -/
def afterCalls (l : List BlockOperation) : ResourceDb := run BlockOperation.exec {} l

theorem afterCalls_append (l : List BlockOperation) (op : BlockOperation) :
    afterCalls (l ++ [op]) = advance BlockOperation.exec op (afterCalls l) :=
  run_append _ _ _

def lastNumber (l : List BlockOperation) : UInt32 :=
  (l.filterMap BlockOperation.blockNum?).getLastD 0

theorem lastNumber_finalize (l : List BlockOperation) (c : ChainConfig) (n : UInt32) :
    lastNumber (l ++ [.finalize c n]) = n := by
  simp [lastNumber, BlockOperation.blockNum?]

theorem lastNumber_call (l : List BlockOperation) (op : ResourceOperation) :
    lastNumber (l ++ [.call op]) = lastNumber l := by
  simp [lastNumber, BlockOperation.blockNum?]

namespace History

variable {S : ChainConfig → Prop} {l : List BlockOperation} {op : BlockOperation}

def Allowed (S : ChainConfig → Prop) (l : List BlockOperation) : BlockOperation → Prop
  | .call op => op.InBlock
  | .finalize c n => S c ∧ lastNumber l < n

theorem getLast?_numbers (l : List BlockOperation) :
    (0 :: l.filterMap BlockOperation.blockNum?).getLast? = some (lastNumber l) := by
  simp [lastNumber, List.getLast?_cons]

theorem append_iff : History S (l ++ [op]) ↔ History S l ∧ Allowed S l op := by
  have hnumbers : (0 :: (l ++ [op]).filterMap BlockOperation.blockNum?).IsChain (· < ·) ↔
      (0 :: l.filterMap BlockOperation.blockNum?).IsChain (· < ·) ∧
        ∀ n ∈ op.blockNum?, lastNumber l < n := by
    rw [List.filterMap_append, ← List.cons_append, List.isChain_append, getLast?_numbers]
    cases op <;> simp [BlockOperation.blockNum?, List.filterMap]
  constructor
  · intro h
    obtain ⟨hl, hlast⟩ := hnumbers.mp h.numbers
    refine ⟨⟨fun op hop => h.calls op (List.mem_append_left _ hop),
      fun c n hc => h.configurations c n (List.mem_append_left _ hc), hl⟩, ?_⟩
    cases op with
    | call op => exact h.calls op (by simp)
    | finalize c n => exact ⟨h.configurations c n (by simp), hlast n rfl⟩
  · rintro ⟨h, hop⟩
    refine ⟨?_, ?_, hnumbers.mpr ⟨h.numbers, ?_⟩⟩
    · intro op' hop'
      rcases List.mem_append.mp hop' with hop' | hop'
      · exact h.calls op' hop'
      · cases List.mem_singleton.mp hop'
        exact hop
    · intro c n hc
      rcases List.mem_append.mp hc with hc | hc
      · exact h.configurations c n hc
      · cases List.mem_singleton.mp hc
        exact hop.1
    · cases op with
      | call => exact fun n hn => by cases hn
      | finalize =>
        rintro _ ⟨⟩
        exact hop.2

theorem nil : History S [] := ⟨by simp, by simp, List.isChain_singleton 0⟩

theorem elastic (hS : ∀ c, S c → ∀ r, (c.maxBlockUsage r).toNat ≤ usageBound)
    (h : History S l) : (afterCalls l).Elastic (lastNumber l).toNat := by
  induction l using List.reverseRecOn with
  | nil => exact ResourceDb.elastic_default
  | append_singleton l op ih =>
    obtain ⟨hl, hop⟩ := append_iff.mp h
    have helastic := ih hl
    rw [afterCalls_append]
    cases op with
    | call =>
      rw [lastNumber_call]
      exact advance_induction (ResourceDb.Elastic _) helastic fun db' hdb' =>
        helastic.of_same (ResourceOperation.exec_same hop hdb')
    | finalize c n =>
      obtain ⟨db', hdb', helastic', -⟩ :=
        helastic.finalizeBlock (UInt32.lt_iff_toNat_lt.mp hop.2) (hS c hop.1)
      rw [advance_of_ok (show BlockOperation.exec (.finalize c n) _ = _ from hdb'),
        lastNumber_finalize]
      exact helastic'

end History

/-! ## Beyond the bound -/

def fullBlocks (c : ChainConfig) : Nat → List BlockOperation
  | 0 => [.finalize c 1]
  | k + 1 => fullBlocks c k ++
      [.call (.addTransactionUsage .empty 0 c.maxBlockNetUsage 0)] ++
      [.finalize c (UInt32.ofNat (k + 2))]

theorem lastNumber_fullBlocks (c : ChainConfig) (k : Nat) :
    lastNumber (fullBlocks c k) = UInt32.ofNat (k + 1) := by
  cases k with
  | zero => rfl
  | succ => exact lastNumber_finalize _ c _

variable {S : ChainConfig → Prop} {c : ChainConfig} {k : Nat} {db db' : ResourceDb}

theorem ofNat_lt_ofNat (hk : k + 2 < 2 ^ 32) : UInt32.ofNat (k + 1) < UInt32.ofNat (k + 2) := by
  rw [UInt32.lt_iff_toNat_lt, UInt32.toNat_ofNat', UInt32.toNat_ofNat']
  omega

theorem history_fullBlocks (hc : S c) (hk : k + 1 < 2 ^ 32) : History S (fullBlocks c k) := by
  induction k with
  | zero =>
    have hfirst : lastNumber [] < 1 := by decide
    have hallowed : History.Allowed S [] (.finalize c 1) := ⟨hc, hfirst⟩
    exact History.append_iff.mpr ⟨History.nil, hallowed⟩
  | succ k ih =>
    refine History.append_iff.mpr ⟨History.append_iff.mpr ⟨ih (by omega), trivial⟩, hc, ?_⟩
    rw [lastNumber_call, lastNumber_fullBlocks]
    exact ofNat_lt_ofNat hk

/-- After `k` full blocks the average has come close to the maximum `M`: what is missing is at most
`(119 / 120) ^ k * M`, up to rounding. -/
structure Full (c : ChainConfig) (k : Nat) (db : ResourceDb) : Prop where
  parameters : db.config.netLimitParameters = c.netLimitParameters
  pendingCpu : db.state.pendingCpuUsage = 0
  pendingNet : db.state.pendingNetUsage = 0
  lastOrdinal : db.state.averageBlockNetUsage.lastOrdinal = UInt32.ofNat (k + 1)
  valueEx : c.maxBlockNetUsage.toNat * rateLimitingPrecision * 120 ^ k ≤
    119 ^ k * (c.maxBlockNetUsage.toNat * rateLimitingPrecision) +
      (db.state.averageBlockNetUsage.valueEx.toNat + 119) * 120 ^ k

theorem ResourceDb.finalizeBlock_net {n : UInt32} (h : db.finalizeBlock c n = .ok db') :
    db.state.averageBlockNetUsage.AddChecks rateLimitingPrecision db.state.pendingNetUsage n 120 ∧
      UsageAccumulator.Added rateLimitingPrecision db.state.pendingNetUsage n 120
        db.state.averageBlockNetUsage db'.state.averageBlockNetUsage ∧
      db'.config.netLimitParameters = c.netLimitParameters ∧
      db'.state.pendingCpuUsage = 0 ∧ db'.state.pendingNetUsage = 0 := by
  obtain ⟨average, virtual, haverage, -, rfl⟩ := ResourceDb.finalizeBlock_eq_ok.mp h
  obtain ⟨hchecks, hadded⟩ := UsageAccumulator.add_eq_ok.mp (haverage .net)
  exact ⟨hchecks, hadded, rfl, rfl, rfl⟩

theorem Full.exists_call (h : Full c k db) :
    ∃ db₁, db.addTransactionUsage .empty 0 c.maxBlockNetUsage 0 = .ok db₁ ∧
      db₁.state.averageBlockNetUsage = db.state.averageBlockNetUsage ∧
      db₁.state.pendingNetUsage = c.maxBlockNetUsage := by
  have hcpu : db.state.pendingCpuUsage + 0 ≤ db.config.cpuLimitParameters.max := by
    rw [h.pendingCpu]
    exact UInt64.zero_le
  have hpending : db.state.pendingNetUsage + c.maxBlockNetUsage = c.maxBlockNetUsage := by
    rw [h.pendingNet, UInt64.zero_add]
  have hnet : db.state.pendingNetUsage + c.maxBlockNetUsage ≤ db.config.netLimitParameters.max := by
    rw [hpending, h.parameters]
    exact UInt64.le_refl _
  let state := { db.state with
    pendingCpuUsage := db.state.pendingCpuUsage + 0
    pendingNetUsage := db.state.pendingNetUsage + c.maxBlockNetUsage }
  refine ⟨{ db with state }, ?_, rfl, hpending⟩
  refine bind_eq_ok.mpr ⟨db, rfl, bind_eq_ok.mpr ⟨(), check_eq_ok.mpr hcpu, ?_⟩⟩
  exact bind_eq_ok.mpr ⟨(), check_eq_ok.mpr hnet, rfl⟩

theorem Full.finalize (h : Full c k db) (hk : k + 2 < 2 ^ 32) {db₁ : ResourceDb}
    (haverage : db₁.state.averageBlockNetUsage = db.state.averageBlockNetUsage)
    (hpending : db₁.state.pendingNetUsage = c.maxBlockNetUsage)
    (hdb' : db₁.finalizeBlock c (UInt32.ofNat (k + 2)) = .ok db') :
    db.state.averageBlockNetUsage.valueEx.toNat * 119 ≤ 2 ^ 64 - 1 ∧ Full c (k + 1) db' := by
  obtain ⟨hchecks, hadded, hparameters, hcpu, hnet⟩ := ResourceDb.finalizeBlock_net hdb'
  rw [haverage, hpending] at hchecks hadded
  have hweighted : db.state.averageBlockNetUsage.weighted (UInt32.ofNat (k + 2)) 120 =
      db.state.averageBlockNetUsage.valueEx.toNat * 119 := by
    rw [UsageAccumulator.weighted, h.lastOrdinal, UInt32.toNat_ofNat', UInt32.toNat_ofNat']
    congr 1
    show 120 - _ = 119
    omega
  have hdecay := hchecks.decay_le (h.lastOrdinal ▸ UInt32.ne_of_lt (ofNat_lt_ofNat hk))
  have hvalue := hadded.valueEx_eq
  rw [hweighted] at hdecay hvalue
  refine ⟨hdecay, hparameters, hcpu, hnet, hadded.lastOrdinal_eq, ?_⟩
  have hceil := le_integerDivideCeil_mul (c.maxBlockNetUsage.toNat * rateLimitingPrecision) 120
    (by norm_num)
  have hold := h.valueEx
  generalize c.maxBlockNetUsage.toNat * rateLimitingPrecision = U at *
  generalize db.state.averageBlockNetUsage.valueEx.toNat = v at *
  generalize db'.state.averageBlockNetUsage.valueEx.toNat = v' at *
  have hstep : 119 * v + U ≤ 120 * v' + 119 := by
    have hv' : v' = v * 119 / 120 + integerDivideCeil U 120 := hvalue
    omega
  calc U * 120 ^ (k + 1)
      = 119 * (U * 120 ^ k) + U * 120 ^ k := by ring
    _ ≤ 119 * (119 ^ k * U + (v + 119) * 120 ^ k) + U * 120 ^ k := by gcongr
    _ = 119 ^ (k + 1) * U + (119 * v + U + 119 * 119) * 120 ^ k := by ring
    _ ≤ 119 ^ (k + 1) * U + (120 * v' + 119 + 119 * 119) * 120 ^ k := by gcongr
    _ = 119 ^ (k + 1) * U + (v' + 119) * 120 ^ (k + 1) := by ring

/-- With configurations in `S`, and whatever the blocks use: every block ends without an exception,
nothing wraps around, and the virtual limits stay in their range. -/
def NeverHalts (S : ChainConfig → Prop) : Prop :=
  ∀ l, History S l → (afterCalls l).InRange ∧
    ∀ c n, History S (l ++ [.finalize c n]) →
      ResourceDb.NoWraparound c n (afterCalls l) ∧
        ∃ db', (afterCalls l).finalizeBlock c n = .ok db'

namespace NeverHalts

theorem full_zero (h : NeverHalts S) (hc : S c) : Full c 0 (afterCalls (fullBlocks c 0)) := by
  have hone : History S ([] ++ [.finalize c 1]) := history_fullBlocks (k := 0) hc (by omega)
  obtain ⟨db', hdb'⟩ := ((h [] .nil).2 c 1 hone).2
  have hafter : afterCalls (fullBlocks c 0) = db' := by
    refine (afterCalls_append [] (.finalize c 1)).trans (advance_of_ok ?_)
    exact hdb'
  obtain ⟨-, hadded, hparameters, hcpu, hnet⟩ := ResourceDb.finalizeBlock_net hdb'
  rw [hafter]
  refine ⟨hparameters, hcpu, hnet, hadded.lastOrdinal_eq, ?_⟩
  rw [pow_zero, pow_zero, mul_one, one_mul]
  exact Nat.le_add_right _ _

theorem full_succ (h : NeverHalts S) (hc : S c) (hk : k + 2 < 2 ^ 32)
    (hfull : Full c k (afterCalls (fullBlocks c k))) :
    (afterCalls (fullBlocks c k)).state.averageBlockNetUsage.valueEx.toNat * 119 ≤ 2 ^ 64 - 1 ∧
      Full c (k + 1) (afterCalls (fullBlocks c (k + 1))) := by
  obtain ⟨db₁, hcall, haverage, hpending⟩ := hfull.exists_call
  have hmid : afterCalls (fullBlocks c k ++
      [.call (.addTransactionUsage .empty 0 c.maxBlockNetUsage 0)]) = db₁ := by
    rw [afterCalls_append]
    exact advance_of_ok hcall
  have hhistory : History S (fullBlocks c (k + 1)) := history_fullBlocks hc hk
  obtain ⟨db', hdb'⟩ := ((h _ (History.append_iff.mp hhistory).1).2 c _ hhistory).2
  rw [hmid] at hdb'
  have hafter : afterCalls (fullBlocks c (k + 1)) = db' := by
    rw [fullBlocks, afterCalls_append, hmid]
    exact advance_of_ok hdb'
  rw [hafter]
  exact hfull.finalize hk haverage hpending hdb'

theorem full (h : NeverHalts S) (hc : S c) (hk : k + 1 < 2 ^ 32) :
    Full c k (afterCalls (fullBlocks c k)) := by
  induction k with
  | zero => exact h.full_zero hc
  | succ k ih => exact (h.full_succ hc hk (ih (by omega))).2

theorem maxBlockNetUsage_le (h : NeverHalts S) (hc : S c) :
    119 * rateLimitingPrecision * c.maxBlockNetUsage.toNat ≤ 2 ^ 64 - 1 := by
  by_contra hlt
  have hfull : Full c 6000 _ := h.full hc (by omega)
  obtain ⟨hdecay, -⟩ := h.full_succ hc (by omega) hfull
  have hvalue := hfull.valueEx
  have hmax := c.maxBlockNetUsage.toNat_lt
  unfold rateLimitingPrecision at hlt hvalue
  generalize c.maxBlockNetUsage.toNat = M at *
  generalize (afterCalls (fullBlocks c 6000)).state.averageBlockNetUsage.valueEx.toNat = v at *
  have hpow : 2 ^ 84 * 119 ^ 6000 < 407011 * 120 ^ 6000 := by decide +kernel
  generalize 120 ^ 6000 = A at *
  generalize 119 ^ 6000 = B at *
  have hgap : 407011 + (v + 119) ≤ M * (1000 * 1000) := by omega
  have hle : M * (1000 * 1000) ≤ 2 ^ 84 := by omega
  have : 407011 * A + (v + 119) * A ≤ 2 ^ 84 * B + (v + 119) * A := by
    calc 407011 * A + (v + 119) * A
        = (407011 + (v + 119)) * A := by ring
      _ ≤ M * (1000 * 1000) * A := Nat.mul_le_mul_right A hgap
      _ ≤ B * (M * (1000 * 1000)) + (v + 119) * A := hvalue
      _ ≤ B * 2 ^ 84 + (v + 119) * A := by gcongr
      _ = 2 ^ 84 * B + (v + 119) * A := by ring
  omega

end NeverHalts

/-! ## Which configurations are safe -/

theorem ChainConfig.targetBlockUsagePct_le (h : c.validate = .ok ()) (r : Resource) :
    (c.targetBlockUsagePct r).toNat ≤ 10000 := by
  simp only [ChainConfig.validate, ok_iff] at h
  obtain ⟨hnet, -, hcpu, -⟩ := h
  cases r with
  | cpu => exact UInt32.le_iff_toNat_le.mp hcpu
  | net => exact UInt32.le_iff_toNat_le.mp hnet

theorem ChainConfig.maxBlockUsage_le
    (h : 119 * rateLimitingPrecision * c.maxBlockNetUsage.toNat ≤ 2 ^ 64 - 1) (r : Resource) :
    (c.maxBlockUsage r).toNat ≤ usageBound := by
  have hbound : usageBound = 155014656081 := by decide
  rw [hbound]
  cases r with
  | cpu =>
    have hlt := c.maxBlockCpuUsage.toNat_lt
    show c.maxBlockCpuUsage.toUInt64.toNat ≤ _
    rw [UInt32.toNat_toUInt64]
    omega
  | net =>
    show c.maxBlockNetUsage.toNat ≤ _
    unfold rateLimitingPrecision at h
    omega

/-- **No configuration within the bound can halt the end of a block**, and every other one can. For
accepted configurations, every block ends without an exception, nothing wraps around, and the
virtual limits stay between the maximum and 1000 times the maximum, exactly if `119 * 10 ^ 6` times
the maximum NET usage of a block fits 64 bits. -/
theorem finalization_safe_iff (S : ChainConfig → Prop) (hS : ∀ c, S c → c.validate = .ok ()) :
    NeverHalts S ↔
      ∀ c, S c → 119 * rateLimitingPrecision * c.maxBlockNetUsage.toNat ≤ 2 ^ 64 - 1 := by
  constructor
  · intro h c hc
    exact h.maxBlockNetUsage_le hc
  · intro hbound l hl
    have hmax (c : ChainConfig) (hc : S c) (r : Resource) := c.maxBlockUsage_le (hbound c hc) r
    have helastic := hl.elastic hmax
    refine ⟨helastic.inRange, fun c n hnext => ?_⟩
    obtain ⟨-, hc, hn⟩ := History.append_iff.mp hnext
    obtain ⟨db', hdb', -, hfits⟩ :=
      helastic.finalizeBlock (UInt32.lt_iff_toNat_lt.mp hn) (hmax c hc)
    refine ⟨⟨fun r => ?_, fun r => ?_, hfits⟩, db', hdb'⟩
    · have hle := Nat.mul_le_mul (hmax c hc r) (ChainConfig.targetBlockUsagePct_le (hS c hc) r)
      exact hle.trans_lt (by decide)
    · exact (Nat.mul_le_mul_right 1000 (hmax c hc r)).trans_lt (by decide)

def defaultChainConfig : ChainConfig where
  maxBlockNetUsage := 1048576
  targetBlockNetUsagePct := 1000
  maxTransactionNetUsage := 524288
  basePerTransactionNetUsage := 12
  contextFreeDiscountNetUsageNum := 20
  contextFreeDiscountNetUsageDen := 100
  maxBlockCpuUsage := 1000000
  targetBlockCpuUsagePct := 1000
  maxTransactionCpuUsage := 750000
  minTransactionCpuUsage := 100
  maxAuthorityDepth := 6

theorem finalization_safe_default :
    defaultChainConfig.validate = .ok () ∧ NeverHalts (· = defaultChainConfig) := by
  refine ⟨by decide, (finalization_safe_iff _ ?_).mpr ?_⟩
  · rintro _ rfl
    decide
  · rintro _ rfl
    decide

def wideChainConfig : ChainConfig :=
  { defaultChainConfig with maxBlockNetUsage := 18446744073709551615 }

/-- It is accepted. -/
theorem finalization_halts :
    wideChainConfig.validate = .ok () ∧
      (afterCalls [.finalize wideChainConfig 1]).state.virtualNetLimit <
        wideChainConfig.maxBlockNetUsage ∧
      ((afterCalls [.finalize wideChainConfig 1]).finalizeBlock
        wideChainConfig 2).toOption.isNone = true ∧
      ¬ NeverHalts (· = wideChainConfig) := by
  have herror : ((afterCalls [.finalize wideChainConfig 1]).finalizeBlock
      wideChainConfig 2).toOption.isNone = true := by decide +kernel
  refine ⟨by decide, by decide +kernel, herror, fun h => ?_⟩
  have hone : History (· = wideChainConfig) [.finalize wideChainConfig 1] :=
    history_fullBlocks (k := 0) rfl (by omega)
  have hnumber : lastNumber [.finalize wideChainConfig 1] < 2 := by decide
  obtain ⟨-, db', hdb'⟩ :=
    (h _ hone).2 wideChainConfig 2 (History.append_iff.mpr ⟨hone, rfl, hnumber⟩)
  rw [hdb'] at herror
  cases herror

end BaccChain
