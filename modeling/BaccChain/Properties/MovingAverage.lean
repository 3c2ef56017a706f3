import BaccChain.Chain.ResourceLimits
import BaccChain.Commons.Attempt
import Mathlib.Data.List.Induction
import Mathlib.Tactic.Ring

/-!
# The moving average of a usage

The average is kept multiplied by the precision `P`.

## Main definitions

* `weighted`: what is left of an average
* `UsageHistory`: calls with bounded usage

## Main results

* `movingAverage_bounded`: the average stays within a bound
* `movingAverage_overflow`: an addition that throws
-/

namespace BaccChain

open Commons

theorem integerDivideCeil_le_self (num : Nat) {den : Nat} (h : 0 < den) :
    integerDivideCeil num den ≤ num := by
  have hlt := integerDivideCeil_mul_lt num den h
  by_contra hgt
  have hmul : (num + 1) * den ≤ integerDivideCeil num den * den := Nat.mul_le_mul_right _ (by omega)
  have hle : num * 1 ≤ num * den := Nat.mul_le_mul_left _ h
  rw [Nat.add_mul] at hmul
  omega

theorem Ratio.scale_eq_ok {value result : UInt64} {r : Ratio} :
    Ratio.scale value r = .ok result ↔
      value.toNat * r.numerator.toNat ≤ 2 ^ 64 - 1 ∧ r.denominator ≠ 0 ∧
        result.toNat = value.toNat * r.numerator.toNat / r.denominator.toNat := by
  have hfits : (r.numerator = 0 ∨ value.toNat ≤ (2 ^ 64 - 1) / r.numerator.toNat) ↔
      value.toNat * r.numerator.toNat ≤ 2 ^ 64 - 1 := by
    by_cases hzero : r.numerator = 0
    · simp [hzero]
    · have hpos : 0 < r.numerator.toNat :=
        Nat.pos_of_ne_zero fun h => hzero (UInt64.toNat_inj.mp h)
      rw [or_iff_right hzero, Nat.le_div_iff_mul_le hpos]
  simp only [Ratio.scale, ok_iff, hfits]
  refine and_congr_right fun hle => and_congr_right fun _ => ?_
  rw [← UInt64.toNat_inj, UInt64.toNat_div, UInt64.toNat_mul, Nat.mod_eq_of_lt (by omega)]

namespace UsageAccumulator

variable {u u' : UsageAccumulator} {units v : UInt64} {ordinal windowSize : UInt32} {P : Nat}

def weighted (u : UsageAccumulator) (ordinal windowSize : UInt32) : Nat :=
  u.valueEx.toNat * (windowSize.toNat - (ordinal.toNat - u.lastOrdinal.toNat))

theorem weighted_div_le (u : UsageAccumulator) (ordinal windowSize : UInt32) :
    u.weighted ordinal windowSize / windowSize.toNat ≤ u.valueEx.toNat := by
  refine Nat.div_le_of_le_mul ?_
  rw [weighted, Nat.mul_comm]
  exact Nat.mul_le_mul_right _ (Nat.sub_le _ _)

theorem weighted_self (hw : 0 < windowSize.toNat) :
    u.weighted u.lastOrdinal windowSize / windowSize.toNat = u.valueEx.toNat := by
  rw [weighted, Nat.sub_self, Nat.sub_zero, Nat.mul_div_cancel _ hw]

theorem weighted_add_le {B : Nat} (hlast : u.lastOrdinal.toNat < ordinal.toNat)
    (hw : 0 < windowSize.toNat) (hB : u.valueEx.toNat ≤ B) :
    u.weighted ordinal windowSize + B ≤ B * windowSize.toNat := by
  have hmul := Nat.mul_le_mul_right
    (windowSize.toNat - (ordinal.toNat - u.lastOrdinal.toNat)) hB
  have hsucc := Nat.mul_le_mul_left B
    (show windowSize.toNat - (ordinal.toNat - u.lastOrdinal.toNat) + 1 ≤ windowSize.toNat by omega)
  rw [Nat.mul_succ] at hsucc
  exact (Nat.add_le_add_right hmul B).trans hsucc

theorem toNat_lt_of_ne {a b : UInt32} (hle : a.toNat ≤ b.toNat) (hne : a ≠ b) :
    a.toNat < b.toNat :=
  hle.lt_of_ne fun h => hne (UInt32.toNat_inj.mp h)

theorem toNat_pos (hw : windowSize ≠ 0) : 0 < windowSize.toNat :=
  Nat.pos_of_ne_zero fun h => hw (UInt32.toNat_inj.mp h)

theorem decay_eq_ok (hlast : u.lastOrdinal < ordinal) (hw : windowSize ≠ 0) :
    u.decay ordinal windowSize = .ok v ↔ u.weighted ordinal windowSize ≤ 2 ^ 64 - 1 ∧
      v.toNat = u.weighted ordinal windowSize / windowSize.toNat := by
  have hle : u.lastOrdinal.toNat ≤ ordinal.toNat := (UInt32.lt_iff_toNat_lt.mp hlast).le
  unfold decay weighted
  split_ifs with hin
  · have hdelta : (ordinal - u.lastOrdinal).toUInt64.toNat =
        ordinal.toNat - u.lastOrdinal.toNat := by
      rw [UInt32.toNat_toUInt64, UInt32.toNat_sub_of_le _ _ (UInt32.le_iff_toNat_le.mpr hle)]
    have hsub : (windowSize.toUInt64 - (ordinal - u.lastOrdinal).toUInt64).toNat =
        windowSize.toNat - (ordinal.toNat - u.lastOrdinal.toNat) := by
      rw [UInt64.toNat_sub_of_le, hdelta, UInt32.toNat_toUInt64]
      rw [UInt64.le_iff_toNat_le, hdelta, UInt32.toNat_toUInt64]
      omega
    have hne : windowSize.toUInt64 ≠ 0 := by
      intro h
      have hzero := congrArg UInt64.toNat h
      rw [UInt32.toNat_toUInt64] at hzero
      exact (toNat_pos hw).ne' hzero
    rw [Ratio.scale_eq_ok, hsub, UInt32.toNat_toUInt64]
    exact and_congr_right fun _ => and_iff_right hne
  · rw [show windowSize.toNat - (ordinal.toNat - u.lastOrdinal.toNat) = 0 by omega, pure_eq_ok,
      ← UInt64.toNat_inj]
    simp

/-- What an addition checks. -/
structure AddChecks (P : Nat) (units : UInt64) (ordinal windowSize : UInt32)
    (u : UsageAccumulator) : Prop where
  windowSize_ne : windowSize ≠ 0
  ordinal_ge : u.lastOrdinal.toNat ≤ ordinal.toNat
  units_le : units.toNat ≤ maxRawValue P
  consumed_le : u.consumed.toNat + units.toNat ≤ 2 ^ 64 - 1
  valueEx_le : u.valueEx.toNat +
    integerDivideCeil (units.toNat * P) windowSize.toNat ≤ 2 ^ 64 - 1
  decay_le : u.lastOrdinal ≠ ordinal → u.weighted ordinal windowSize ≤ 2 ^ 64 - 1

def consumedAt (P : Nat) (ordinal windowSize : UInt32) (u : UsageAccumulator) : UInt64 :=
  if u.lastOrdinal = ordinal then u.consumed
  else UInt64.ofNat (integerDivideCeil (u.weighted ordinal windowSize / windowSize.toNat) P)

/-- What an addition has done. -/
structure Added (P : Nat) (units : UInt64) (ordinal windowSize : UInt32)
    (u u' : UsageAccumulator) : Prop where
  lastOrdinal_eq : u'.lastOrdinal = ordinal
  valueEx_eq : u'.valueEx.toNat = u.weighted ordinal windowSize / windowSize.toNat +
    integerDivideCeil (units.toNat * P) windowSize.toNat
  consumed_eq : u'.consumed = u.consumedAt P ordinal windowSize + units

theorem advanceTo_eq_ok (hw : windowSize ≠ 0) :
    u.advanceTo ordinal windowSize P = .ok u' ↔ u.lastOrdinal.toNat ≤ ordinal.toNat ∧
      (u.lastOrdinal ≠ ordinal → u.weighted ordinal windowSize ≤ 2 ^ 64 - 1) ∧
      u'.lastOrdinal = ordinal ∧
      u'.valueEx.toNat = u.weighted ordinal windowSize / windowSize.toNat ∧
      u'.consumed = u.consumedAt P ordinal windowSize := by
  obtain ⟨ordinal', valueEx', consumed'⟩ := u'
  unfold advanceTo consumedAt
  split_ifs with hsame
  · subst hsame
    obtain ⟨lastOrdinal, valueEx, consumed⟩ := u
    rw [pure_eq_ok, weighted_self (toNat_pos hw)]
    simp [UInt64.toNat_inj]
  · simp only [ok_iff]
    constructor
    · rintro ⟨hlast, valueEx, hdecay, heq⟩
      obtain ⟨hle, hvalue⟩ := (decay_eq_ok hlast hw).mp hdecay
      cases heq
      refine ⟨(UInt32.lt_iff_toNat_lt.mp hlast).le, fun _ => hle, rfl, hvalue, ?_⟩
      rw [average, hvalue]
    · rintro ⟨hle, hfits, rfl, hvalue, hconsumed⟩
      have hlast := UInt32.lt_iff_toNat_lt.mpr (toNat_lt_of_ne hle hsame)
      refine ⟨hlast, valueEx', (decay_eq_ok hlast hw).mpr ⟨hfits hsame, hvalue⟩, ?_⟩
      rw [average, hvalue, hconsumed]

theorem contribution_eq_ok {contrib : Nat} :
    contribution units windowSize P = .ok contrib ↔ windowSize ≠ 0 ∧ contrib ≤ 2 ^ 64 - 1 ∧
      contrib = integerDivideCeil (units.toNat * P) windowSize.toNat := by
  simp only [contribution, downgradeCast, ok_iff]
  refine and_congr_right fun _ => ⟨?_, ?_⟩
  · rintro ⟨hle, rfl⟩
    exact ⟨hle, rfl⟩
  · rintro ⟨hle, rfl⟩
    exact ⟨hle, rfl⟩

/-- **An addition** succeeds exactly if its checks are passed, and its sums are exact but for the
units that were consumed. -/
theorem add_eq_ok : u.add units ordinal windowSize P = .ok u' ↔
    u.AddChecks P units ordinal windowSize ∧ Added P units ordinal windowSize u u' := by
  have hvalue := u.valueEx.toNat_lt
  have hconsumed := u.consumed.toNat_lt
  simp only [add, ok_iff, contribution_eq_ok]
  constructor
  · rintro ⟨hunits, hc, _, ⟨hw, hcontrib, rfl⟩, hv, a, ha, rfl⟩
    obtain ⟨hle, hdecay, hlast, hvalueEx, hcons⟩ := (advanceTo_eq_ok hw).mp ha
    have hleft := u.weighted_div_le ordinal windowSize
    refine ⟨⟨hw, hle, hunits, by omega, by omega, hdecay⟩, hlast, ?_, ?_⟩
    · rw [UInt64.toNat_add, UInt64.toNat_ofNat', hvalueEx]
      omega
    · rw [← hcons]
  · rintro ⟨hchecks, hadded⟩
    have hroom := hchecks.valueEx_le
    have hc := hchecks.consumed_le
    have hleft := u.weighted_div_le ordinal windowSize
    let a : UsageAccumulator :=
      ⟨ordinal, UInt64.ofNat (u.weighted ordinal windowSize / windowSize.toNat),
        u.consumedAt P ordinal windowSize⟩
    have ha : a.valueEx.toNat = u.weighted ordinal windowSize / windowSize.toNat :=
      UInt64.toNat_ofNat_of_lt' (by rw [UInt64.size]; omega)
    have hadvance : u.advanceTo ordinal windowSize P = .ok a :=
      (advanceTo_eq_ok hchecks.windowSize_ne).mpr
        ⟨hchecks.ordinal_ge, hchecks.decay_le, rfl, ha, rfl⟩
    refine ⟨hchecks.units_le, by omega, _, ⟨hchecks.windowSize_ne, by omega, rfl⟩, by omega, a,
      hadvance, UsageAccumulator.ext hadded.lastOrdinal_eq ?_ hadded.consumed_eq⟩
    rw [← UInt64.toNat_inj, hadded.valueEx_eq, UInt64.toNat_add, ha, UInt64.toNat_ofNat']
    omega

theorem AddChecks.exists_add (h : u.AddChecks P units ordinal windowSize) :
    ∃ u', u.add units ordinal windowSize P = .ok u' ∧ Added P units ordinal windowSize u u' := by
  have hleft := u.weighted_div_le ordinal windowSize
  have hroom := h.valueEx_le
  have hadded : Added P units ordinal windowSize u
      ⟨ordinal, UInt64.ofNat (u.weighted ordinal windowSize / windowSize.toNat +
        integerDivideCeil (units.toNat * P) windowSize.toNat),
        u.consumedAt P ordinal windowSize + units⟩ :=
    ⟨rfl, UInt64.toNat_ofNat_of_lt' (by rw [UInt64.size]; omega), rfl⟩
  exact ⟨_, add_eq_ok.mpr ⟨h, hadded⟩, hadded⟩

theorem toNat_consumedAt_le (P : Nat) (u : UsageAccumulator) (ordinal windowSize : UInt32) :
    (u.consumedAt P ordinal windowSize).toNat ≤ if u.lastOrdinal = ordinal then u.consumed.toNat
      else integerDivideCeil (u.weighted ordinal windowSize / windowSize.toNat) P := by
  unfold consumedAt
  split_ifs
  · exact le_rfl
  · rw [UInt64.toNat_ofNat']
    exact Nat.mod_le _ _

/-! ## Additions in place -/

/-- `add`, on the fields of the object. -/
def addInPlace (units : UInt64) (ordinal windowSize : UInt32) (precision : Nat) :
    Attempt UsageAccumulator Unit := do
  let u ← Attempt.read
  check (units.toNat ≤ maxRawValue precision) usageExceedsMaximum
  check (units.toNat ≤ 2 ^ 64 - 1 - u.consumed.toNat) "Overflow in tracked usage when adding usage!"
  let valueExContrib ← contribution units windowSize precision
  check (valueExContrib ≤ 2 ^ 64 - 1 - u.valueEx.toNat)
    "Overflow in accumulated value when adding usage!"
  if u.lastOrdinal ≠ ordinal then do
    check (u.lastOrdinal < ordinal) "new ordinal cannot be less than the previous ordinal"
    let valueEx ← u.decay ordinal windowSize
    Attempt.update fun u => { u with valueEx }
    Attempt.update fun u => { u with lastOrdinal := ordinal }
    Attempt.update fun u => { u with consumed := u.average precision }
  Attempt.update fun u => { u with consumed := u.consumed + units }
  Attempt.update fun u => { u with valueEx := u.valueEx + UInt64.ofNat valueExContrib }

theorem addInPlace_run : (addInPlace units ordinal windowSize P).Atomic u
    (u.add units ordinal windowSize P) := by
  refine .lift_bind fun _ => .lift_bind fun _ => .lift_bind fun _ => .lift_bind fun _ => ?_
  unfold advanceTo
  by_cases hsame : u.lastOrdinal = ordinal
  · rw [if_pos hsame]
    show Attempt.Atomic (if _ then _ else _) _ _
    rw [if_neg (not_not.mpr hsame)]
    rfl
  · rw [if_neg hsame, bind_assoc]
    show Attempt.Atomic (if _ then _ else _) _ _
    rw [if_pos hsame]
    refine .lift_bind fun _ => ?_
    rw [bind_assoc]
    exact .lift_bind fun _ => rfl

/-! ## Histories of additions -/

end UsageAccumulator

/-- The arguments of an addition. -/
structure UsageCall where
  units : UInt64
  ordinal : UInt32

/-- The units at an ordinal. -/
def unitsAt (l : List UsageCall) (ordinal : UInt32) : Nat :=
  ((l.filter (·.ordinal = ordinal)).map (·.units.toNat)).sum

def callsAt (l : List UsageCall) (ordinal : UInt32) : Nat :=
  l.countP (·.ordinal = ordinal)

/-- Calls whose ordinals do not decrease, with at most `U` units in at most `k` calls at each. -/
structure UsageHistory (U k : Nat) (l : List UsageCall) : Prop where
  ordinals : (l.map (·.ordinal)).Pairwise (· ≤ ·)
  units_le : ∀ ordinal, unitsAt l ordinal ≤ U
  calls_le : ∀ ordinal, callsAt l ordinal ≤ k

section

variable {l : List UsageCall} {call : UsageCall} {U k P : Nat} {windowSize : UInt32}

theorem unitsAt_append (ordinal : UInt32) : unitsAt (l ++ [call]) ordinal =
    unitsAt l ordinal + if call.ordinal = ordinal then call.units.toNat else 0 := by
  by_cases h : call.ordinal = ordinal <;> simp [unitsAt, h]

theorem callsAt_append (ordinal : UInt32) : callsAt (l ++ [call]) ordinal =
    callsAt l ordinal + if call.ordinal = ordinal then 1 else 0 := by
  by_cases h : call.ordinal = ordinal <;> simp [callsAt, h]

theorem UsageHistory.of_append (h : UsageHistory U k (l ++ [call])) : UsageHistory U k l where
  ordinals := by
    have hordinals := h.ordinals
    rw [List.map_append, List.pairwise_append] at hordinals
    exact hordinals.1
  units_le := by
    intro ordinal
    have hle := h.units_le ordinal
    rw [unitsAt_append] at hle
    omega
  calls_le := by
    intro ordinal
    have hle := h.calls_le ordinal
    rw [callsAt_append] at hle
    omega

/-- What holds after some calls: the average of before the last ordinal is within `B`, and its calls
have added their units and at most one more each. -/
structure AverageBound (B P : Nat) (windowSize : UInt32) (l : List UsageCall)
    (u : UsageAccumulator) : Prop where
  lastOrdinal : u.lastOrdinal = 0 ∨ ∃ call ∈ l, u.lastOrdinal = call.ordinal
  valueEx : u.valueEx.toNat * windowSize.toNat + B ≤ B * windowSize.toNat +
    unitsAt l u.lastOrdinal * P + callsAt l u.lastOrdinal * windowSize.toNat
  consumed : u.consumed.toNat ≤ B + unitsAt l u.lastOrdinal

namespace AverageBound

variable {u : UsageAccumulator} {B : Nat}

theorem valueEx_le (h : AverageBound B P windowSize l u) (hB : B = U * P + k * windowSize.toNat)
    (hl : UsageHistory U k l) (hw : 0 < windowSize.toNat) : u.valueEx.toNat ≤ B := by
  have hunits := Nat.mul_le_mul_right P (hl.units_le u.lastOrdinal)
  have hcalls := Nat.mul_le_mul_right windowSize.toNat (hl.calls_le u.lastOrdinal)
  have hvalue := h.valueEx
  exact Nat.le_of_mul_le_mul_right (by omega) hw

theorem lastOrdinal_le (h : AverageBound B P windowSize l u)
    (hl : UsageHistory U k (l ++ [call])) : u.lastOrdinal.toNat ≤ call.ordinal.toNat := by
  have hordinals := hl.ordinals
  rw [List.map_append, List.pairwise_append] at hordinals
  rcases h.lastOrdinal with hzero | ⟨c, hc, heq⟩
  · rw [hzero]
    exact Nat.zero_le _
  · rw [heq]
    exact UInt32.le_iff_toNat_le.mp
      (hordinals.2.2 _ (List.mem_map_of_mem hc) _ (List.mem_singleton_self _))

theorem exists_add (h : AverageBound B P windowSize l u)
    (hB : B = U * P + k * windowSize.toNat) (hl : UsageHistory U k (l ++ [call])) (hP : 0 < P)
    (hw : 2 ≤ windowSize.toNat) (hwP : 3 ≤ windowSize.toNat ∨ 2 ≤ P)
    (hfits : B * windowSize.toNat < 2 ^ 64) :
    ∃ u', u.add call.units call.ordinal windowSize P = .ok u' ∧
      AverageBound B P windowSize (l ++ [call]) u' := by
  have hpos : 0 < windowSize.toNat := by omega
  have hvalue : u.valueEx.toNat ≤ B := h.valueEx_le hB hl.of_append hpos
  have hle := h.lastOrdinal_le hl
  have hconsumed := h.consumed
  have hunits := hl.units_le call.ordinal
  have hold := hl.of_append.units_le u.lastOrdinal
  rw [unitsAt_append, if_pos rfl] at hunits
  have hunitsP : call.units.toNat * P ≤ U * P := Nat.mul_le_mul_right P (by omega)
  have hBw := Nat.mul_le_mul_left B hw
  have htracked : B + 2 * U < 2 ^ 64 := by
    rcases hwP with hw₃ | hP₂
    · have h₁ := Nat.mul_le_mul_left B hw₃
      have h₂ := Nat.mul_le_mul_left U hP
      omega
    · have h₂ := Nat.mul_le_mul_left U hP₂
      omega
  have hchecks : u.AddChecks P call.units call.ordinal windowSize := by
    refine ⟨?_, hle, ?_, by omega, ?_, ?_⟩
    · rintro rfl
      exact absurd hw (by decide)
    · rw [UsageAccumulator.maxRawValue, Nat.le_div_iff_mul_le hP]
      omega
    · have hceil := integerDivideCeil_le_self (call.units.toNat * P) hpos
      omega
    · intro hne
      have hlt := UsageAccumulator.toNat_lt_of_ne hle hne
      have hweighted := u.weighted_add_le hlt hpos hvalue
      omega
  obtain ⟨u', hadd, hlast, hvalueEx, hcons⟩ := hchecks.exists_add
  refine ⟨u', hadd, .inr ⟨call, by simp, hlast⟩, ?_, ?_⟩
  · have hceil := integerDivideCeil_mul_lt (call.units.toNat * P) windowSize.toNat hpos
    rw [hlast, unitsAt_append, callsAt_append, if_pos rfl, if_pos rfl, hvalueEx, Nat.add_mul,
      Nat.add_mul, Nat.add_mul, Nat.one_mul]
    by_cases hsame : u.lastOrdinal = call.ordinal
    · have hvalueEx := h.valueEx
      rw [← hsame, UsageAccumulator.weighted_self hpos]
      omega
    · have hlt := UsageAccumulator.toNat_lt_of_ne hle hsame
      have hweighted := u.weighted_add_le hlt hpos hvalue
      have hdiv := Nat.div_mul_le_self (u.weighted call.ordinal windowSize) windowSize.toNat
      omega
  · have hat := u.toNat_consumedAt_le P call.ordinal windowSize
    have hleft := u.weighted_div_le call.ordinal windowSize
    have hceil := integerDivideCeil_le_self
      (u.weighted call.ordinal windowSize / windowSize.toNat) hP
    rw [hlast, unitsAt_append, if_pos rfl, hcons, UInt64.toNat_add]
    refine (Nat.mod_le _ _).trans ?_
    split_ifs at hat with hsame
    · rw [hsame] at hconsumed
      omega
    · omega

end AverageBound

theorem exists_each_add (hl : UsageHistory U k l) (hP : 0 < P) (hw : 2 ≤ windowSize.toNat)
    (hwP : 3 ≤ windowSize.toNat ∨ 2 ≤ P)
    (hfits : (U * P + k * windowSize.toNat) * windowSize.toNat < 2 ^ 64) :
    ∃ u, Attempt.each (fun call => UsageAccumulator.addInPlace call.units call.ordinal windowSize P)
        l {} = (.ok (), u) ∧
      AverageBound (U * P + k * windowSize.toNat) P windowSize l u := by
  induction l using List.reverseRecOn with
  | nil =>
    refine ⟨{}, rfl, .inl rfl, ?_, Nat.zero_le _⟩
    have hle : (U * P + k * windowSize.toNat) * 1 ≤
        (U * P + k * windowSize.toNat) * windowSize.toNat :=
      Nat.mul_le_mul_left _ (by omega)
    show 0 * _ + _ ≤ _
    omega
  | append_singleton l call ih =>
    obtain ⟨u, hu, hbound⟩ := ih hl.of_append
    obtain ⟨u', hadd, hbound'⟩ := hbound.exists_add rfl hl hP hw hwP hfits
    refine ⟨u', ?_, hbound'⟩
    rw [Attempt.each_append_of_ok hu, UsageAccumulator.addInPlace_run, hadd]

end

/-- **The moving average is bounded**: with at most `U` units in at most `k` calls at each ordinal,
no addition throws and the average stays within `U * P + k * W`, as long as `W` times that fits 64
bits and the window and the precision are not both the smallest. Whatever they are, an addition that
throws writes nothing. -/
theorem movingAverage_bounded (P U k : Nat) (windowSize : UInt32) :
    (0 < P → 2 ≤ windowSize.toNat → 3 ≤ windowSize.toNat ∨ 2 ≤ P →
      (U * P + k * windowSize.toNat) * windowSize.toNat < 2 ^ 64 → ∀ l, UsageHistory U k l →
        ∃ u, Attempt.each
            (fun call => UsageAccumulator.addInPlace call.units call.ordinal windowSize P) l {} =
              (.ok (), u) ∧
          u.valueEx.toNat ≤ U * P + k * windowSize.toNat) ∧
    ∀ units ordinal u u' e,
      UsageAccumulator.addInPlace units ordinal windowSize P u = (.error e, u') → u' = u := by
  constructor
  · intro hP hw hwP hfits l hl
    obtain ⟨u, hu, hbound⟩ := exists_each_add hl hP hw hwP hfits
    exact ⟨u, hu, hbound.valueEx_le rfl hl (by omega)⟩
  · intro units ordinal u u' e h
    rw [UsageAccumulator.addInPlace_run] at h
    cases hadd : u.add units ordinal windowSize P with
    | ok =>
      rw [hadd] at h
      cases h
    | error =>
      rw [hadd] at h
      cases h
      rfl

def steadyUsage (units : UInt64) : List UsageCall := [⟨units, 1⟩, ⟨units, 2⟩, ⟨units, 3⟩]

theorem history_steadyUsage (units : UInt64) : UsageHistory units.toNat 1 (steadyUsage units) where
  ordinals := (by decide : [(1 : UInt32), 2, 3].Pairwise (· ≤ ·))
  units_le := by
    intro ordinal
    show unitsAt ((([] ++ [_]) ++ [_]) ++ [_]) ordinal ≤ _
    rw [unitsAt_append, unitsAt_append, unitsAt_append]
    split_ifs <;> subst_vars <;> simp_all [unitsAt]
  calls_le := by
    intro ordinal
    show callsAt ((([] ++ [_]) ++ [_]) ++ [_]) ordinal ≤ _
    rw [callsAt_append, callsAt_append, callsAt_append]
    split_ifs <;> subst_vars <;> simp_all [callsAt]

theorem movingAverage_bounded_steadyUsage :
    ∃ u, Attempt.each
      (fun call => UsageAccumulator.addInPlace call.units call.ordinal 172800 1000000)
        (steadyUsage 100) {} = (.ok (), u) ∧ u.valueEx.toNat ≤ 100172800 :=
  (movingAverage_bounded 1000000 100 1 172800).1 (by decide) (by decide) (by decide) (by decide) _
    (history_steadyUsage 100)

theorem movingAverage_overflow :
    UsageHistory (2 ^ 63 - 3) 1 (steadyUsage 9223372036854775805) ∧
      ((2 ^ 63 - 3) * 1 + 1 * 2) * 2 < 2 ^ 64 ∧
      ((Attempt.each (fun call => UsageAccumulator.addInPlace call.units call.ordinal 2 1)
        (steadyUsage 9223372036854775805) {}).1 =
          .error "Overflow in tracked usage when adding usage!") :=
  ⟨history_steadyUsage 9223372036854775805, by decide, by decide⟩

end BaccChain
