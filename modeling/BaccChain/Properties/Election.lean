import BaccChain.Chain.Exec
import BaccChain.Commons.OrderStat
import BaccChain.Contracts.System.Distribution

/-!
# `noc.system`: the election of producers

`update_elected_bps` inserts each producer before the first one whose stake is not larger, and cuts
the ranking to 17. The loop compares with slots of the ranking that do not exist.

## Main definitions

* `ElectsSafely`: the loop reads inside the ranking
* `ElectsTop`: the active producers with most stake

## Main results

* `updateElectedBps_electsSafely_iff`: when it is safe
* `proposal_electsTop_iff`: when the right ones are elected
-/

namespace BaccChain

namespace SystemContract

open Commons.Program (bind_of_ok bind_of_error)

variable {spare : Nat → Int} {x : Candidate} {l : List Candidate} {t : MultiIndex Unit BpInfo}
  {n : Nat} {e : Env} {c : Ctx}

def candidate (b : Name × BpInfo) : Candidate := ⟨b.1, b.2.blockSigningKey, b.2.totalStaked⟩

/-- The schedule that an election proposes. -/
def proposal (spare : Nat → Int) (currBlockNum : Nat) (t : MultiIndex Unit BpInfo) :
    Except String (List Candidate) := do
  let elected ← electedBps spare currBlockNum ((bpRows t).map candidate)
  return elected.insertionSort fun x y => x.producerName ≤ y.producerName

theorem updateElectedBps_eq (n : Nat) (e : Env) (c : Ctx) :
    updateElectedBps n e c = proposal e.world.spareStake n c.db.bps >>= fun schedule =>
      setProposedProducers schedule e c := by
  have hread : readTable bpsTable e c = .ok (c.db.bps, c) := rfl
  have hspare : spareStake e c = .ok (e.world.spareStake, c) := rfl
  rw [updateElectedBps, bind_of_ok hread, bind_of_ok hspare, proposal]
  unfold candidate
  cases h : electedBps e.world.spareStake n ((bpRows c.db.bps).map fun b =>
    ⟨b.1, b.2.blockSigningKey, b.2.totalStaked⟩) with
  | error m => exact bind_of_error rfl
  | ok elected => exact bind_of_ok rfl

/-! ## Reads of the ranking -/

def placeReads (spare : Nat → Int) (x : Candidate) (l : List Candidate) : Nat → Nat → List Nat
  | 0, _ => []
  | slots + 1, i =>
    i :: if (l[i]?).elim (spare i) (·.staked) ≤ x.staked then [] else
      placeReads spare x l slots (i + 1)

def rankReads (spare : Nat → Int) (l : List Candidate) (x : Candidate) : List Nat :=
  (if numOfTopBps ≤ l.length then [l.length - 1] else []) ++
    if numOfTopBps ≤ l.length ∧ x.staked < (l.getLast?).elim 0 (·.staked) then []
    else placeReads spare x l numOfTopBps 0

/-- Every slot that is read is there. -/
def ReadsInside (spare : Nat → Int) : List Candidate → List Candidate → Prop
  | _, [] => True
  | l, x :: xs => (∀ i ∈ rankReads spare l x, i < l.length) ∧
    ∀ l', rankCandidate spare l x = .ok l' → ReadsInside spare l' xs

def rankedCandidates (currBlockNum : Nat) (bps : List Candidate) : List Candidate :=
  if currBlockNum ≤ 360 * blockNumPerDay then
    bps.filter fun b => ¬ isGenesisInitBp b.producerName
  else bps

/-- **A safe election** reads no slot outside of the ranking, and the chain accepts the schedule:
its accounts exist and are different, and their keys are valid. -/
structure ElectsSafely (n : Nat) (e : Env) (c : Ctx) : Prop where
  reads : ReadsInside e.world.spareStake [] (rankedCandidates n ((bpRows c.db.bps).map candidate))
  accepted : ∃ c', updateElectedBps n e c = .ok ((), c')

variable {bps : List Candidate}

theorem readsInside_nil_iff : ReadsInside spare [] bps ↔ bps = [] := by
  cases bps with
  | nil => simp [ReadsInside]
  | cons x =>
    have hread : 0 ∈ rankReads spare [] x := List.mem_cons_self
    simp only [ReadsInside, reduceCtorEq, iff_false]
    rintro ⟨hinside, -⟩
    exact absurd (hinside 0 hread) (lt_irrefl 0)

theorem exists_setProposedProducers_iff :
    (∃ c', setProposedProducers l e c = .ok ((), c')) ↔ l.length ≤ numOfTopBps ∧
      (∀ p ∈ l, e.world.isAccount p.producerName = true ∧ p.blockSigningKey ≠ 0) ∧
      (l.map (·.producerName)).Nodup := by
  simp only [setProposedProducers, Commons.bind_eq_ok, Commons.check_eq_ok, Commons.pure_eq_ok,
    Commons.forM_eq_ok, Prod.mk.injEq, true_and]
  constructor
  · rintro ⟨_, -, hlen, -, hrows, -, hnodup, -⟩
    refine ⟨hlen, fun p hp => ?_, hnodup⟩
    obtain ⟨_, haccount, hkey⟩ := hrows p hp
    exact ⟨haccount, hkey⟩
  · rintro ⟨hlen, hrows, hnodup⟩
    exact ⟨c, (), hlen, (), fun p hp => ⟨(), hrows p hp⟩, (), hnodup, rfl⟩

theorem electsSafely_iff : ElectsSafely n e c ↔
    rankedCandidates n ((bpRows c.db.bps).map candidate) = [] ∧
      ∃ elected, electedBps e.world.spareStake n ((bpRows c.db.bps).map candidate) = .ok elected ∧
        elected.length ≤ numOfTopBps ∧
        (∀ p ∈ elected, e.world.isAccount p.producerName = true ∧ p.blockSigningKey ≠ 0) ∧
        (elected.map (·.producerName)).Nodup := by
  have haccepted (elected : List Candidate) : (∃ c', setProposedProducers
      (elected.insertionSort fun x y => x.producerName ≤ y.producerName) e c = .ok ((), c')) ↔
      elected.length ≤ numOfTopBps ∧
        (∀ p ∈ elected, e.world.isAccount p.producerName = true ∧ p.blockSigningKey ≠ 0) ∧
        (elected.map (·.producerName)).Nodup := by
    have hperm := List.perm_insertionSort (fun x y : Candidate => x.producerName ≤ y.producerName)
      elected
    rw [exists_setProposedProducers_iff, hperm.length_eq, (hperm.map _).nodup_iff]
    simp only [List.mem_insertionSort]
  simp only [← haccepted]
  constructor
  · rintro ⟨hreads, c', h⟩
    simp only [updateElectedBps_eq, proposal, Commons.bind_eq_ok, Commons.pure_eq_ok] at h
    obtain ⟨_, ⟨elected, helected, rfl⟩, h⟩ := h
    exact ⟨readsInside_nil_iff.mp hreads, elected, helected, c', h⟩
  · rintro ⟨hnil, elected, helected, c', h⟩
    refine ⟨readsInside_nil_iff.mpr hnil, c', ?_⟩
    rw [updateElectedBps_eq, proposal, helected]
    exact h

theorem electedBps_boot (hn : n ≤ 360 * blockNumPerDay)
    (hgenesis : ∀ p ∈ bps, isGenesisInitBp p.producerName = true) :
    electedBps spare n bps = .ok ((bps.insertionSort (fun x y => y.staked ≤ x.staked) ++
      List.replicate numOfTopBps (Candidate.mk 0 0 0)).take numOfTopBps) := by
  have hall : (bps.filter fun b => isGenesisInitBp b.producerName) = bps :=
    List.filter_eq_self.mpr hgenesis
  have hnone : (bps.filter fun b => ¬ isGenesisInitBp b.producerName) = [] := by
    rw [List.filter_eq_nil_iff]
    intro p hp
    simp [hgenesis p hp]
  rw [electedBps, if_pos hn, hall, hnone, List.foldlM_nil, pure_bind, List.take_nil,
    List.append_nil]
  rfl

/-- **No election is safe as soon as a producer is ranked**: in the boot phase all producers have to
be of genesis, and at least 17, as the schedule is filled up with empty names; afterwards there must
be no producer. -/
theorem updateElectedBps_electsSafely_iff (n : Nat) (e : Env) (c : Ctx)
    (hrows : ∀ k b, c.db.bps.find () k = some b →
      e.world.isAccount k = true ∧ b.blockSigningKey ≠ 0) :
    ElectsSafely n e c ↔
      n ≤ 360 * blockNumPerDay ∧ (∀ k b, c.db.bps.find () k = some b → isGenesisInitBp k = true) ∧
        numOfTopBps ≤ (bpRows c.db.bps).length ∨
      360 * blockNumPerDay < n ∧ bpRows c.db.bps = [] := by
  have hnodup : (((bpRows c.db.bps).map candidate).map (·.producerName)).Nodup := by
    rw [List.map_map]
    exact bpRows_nodup c.db.bps
  have hvalid : ∀ p ∈ (bpRows c.db.bps).map candidate,
      e.world.isAccount p.producerName = true ∧ p.blockSigningKey ≠ 0 := by
    intro p hp
    obtain ⟨b, hb, rfl⟩ := List.mem_map.mp hp
    exact hrows b.1 b.2 (mem_bpRows.mp hb)
  have hgenesis : (∀ k b, c.db.bps.find () k = some b → isGenesisInitBp k = true) ↔
      ∀ p ∈ (bpRows c.db.bps).map candidate, isGenesisInitBp p.producerName = true := by
    simp only [List.forall_mem_map, Prod.forall, mem_bpRows]
    rfl
  rw [hgenesis, ← List.length_map (f := candidate), ← List.map_eq_nil_iff (f := candidate),
    electsSafely_iff]
  generalize (bpRows c.db.bps).map candidate = bps at hnodup hvalid ⊢
  unfold rankedCandidates
  by_cases hn : n ≤ 360 * blockNumPerDay
  · rw [if_pos hn]
    constructor
    · rintro ⟨hnone, elected, helected, -, hpad, -⟩
      have hgen : ∀ p ∈ bps, isGenesisInitBp p.producerName = true := by
        intro p hp
        simpa using List.filter_eq_nil_iff.mp hnone p hp
      refine .inl ⟨hn, hgen, ?_⟩
      rw [electedBps_boot hn hgen] at helected
      obtain rfl := Except.ok.inj helected
      by_contra hlt
      refine (hpad (Candidate.mk 0 0 0) ?_).2 rfl
      rw [List.take_append, List.take_replicate, List.length_insertionSort]
      exact List.mem_append_right _ (List.mem_replicate.mpr ⟨by omega, rfl⟩)
    · rintro (⟨-, hgen, hlen⟩ | ⟨hlt, -⟩)
      · refine ⟨List.filter_eq_nil_iff.mpr fun p hp => by simp [hgen p hp], _,
          electedBps_boot hn hgen, ?_⟩
        rw [List.take_append_of_le_length (by rwa [List.length_insertionSort])]
        have hperm := List.perm_insertionSort (fun x y : Candidate => y.staked ≤ x.staked) bps
        refine ⟨List.length_take_le _ _, fun p hp => ?_, ?_⟩
        · exact hvalid p (hperm.mem_iff.mp (List.mem_of_mem_take hp))
        · exact ((List.take_sublist _ _).map _).nodup ((hperm.map _).nodup_iff.mpr hnodup)
      · exact absurd hn (not_le.mpr hlt)
  · rw [if_neg hn]
    constructor
    · rintro ⟨hnil, -⟩
      exact .inr ⟨not_le.mp hn, hnil⟩
    · rintro (⟨hle, -⟩ | ⟨-, rfl⟩)
      · exact absurd hle hn
      · exact ⟨rfl, [], by rw [electedBps, if_neg hn]; rfl, by simp⟩

def genesisBps (count : Nat) : MultiIndex Unit BpInfo :=
  (List.range count).foldl (fun t i =>
    let name : Name := systemAccountName + (i + 6) * 2 ^ 34
    t.store () name name (bpOf name 0)) MultiIndex.empty

/-- The first election of 17 producers of genesis. -/
theorem electsSafely_genesisBps : ElectsSafely 200 ⟨.atHeight 200, systemAccountName, []⟩
    { db := { bps := genesisBps 17 } } := by
  have hkeys : ∀ b ∈ bpRows (genesisBps 17), b.2.blockSigningKey ≠ 0 := by decide +kernel
  have hgenesis : ∀ b ∈ bpRows (genesisBps 17), isGenesisInitBp b.1 = true := by decide +kernel
  exact (updateElectedBps_electsSafely_iff _ _ _ fun k b hb =>
    ⟨rfl, hkeys (k, b) (mem_bpRows.mpr hb)⟩).mpr (.inl ⟨by decide, fun k b hb =>
      hgenesis (k, b) (mem_bpRows.mpr hb), by decide +kernel⟩)

/-- Two producers after the boot phase: the first one is compared with a slot of the empty ranking.
-/
theorem not_electsSafely :
    (∀ e, ¬ ElectsSafely (360 * blockNumPerDay + 100) e { db := { bps := twoBps 3 } }) ∧
      (updateElectedBps 200 ⟨.atHeight 200, systemAccountName, []⟩
        { db := { bps := genesisBps 1 } }).map (fun _ => ()) =
          .error "producer schedule includes an invalid key" := by
  refine ⟨fun e h => ?_, by decide +kernel⟩
  have hnil := readsInside_nil_iff.mp h.reads
  rw [rankedCandidates, if_neg (by omega)] at hnil
  cases hnil

/-! ## The ranking as an insertion sort -/

theorem placeCandidate_eq (hspare : ∀ i, spare i ≤ x.staked) (hl : l.length ≤ numOfTopBps)
    {slots i : Nat} (hslots : i + slots = numOfTopBps) (hi : i ≤ l.length) :
    placeCandidate spare x l slots i = .ok ((l.take i ++
      (l.drop i).orderedInsert (fun x y => y.staked ≤ x.staked) x).take numOfTopBps) := by
  induction slots generalizing i with
  | zero =>
    have hlen : l.length = i := by omega
    rw [placeCandidate, ← hlen, List.drop_length, List.take_length, List.orderedInsert_nil,
      List.take_append_of_le_length (by omega), List.take_of_length_le hl]
  | succ slots ih =>
    rw [placeCandidate, if_pos hi, Commons.insertIdx_eq_append hi]
    rcases hi.eq_or_lt with rfl | hlt
    · rw [List.getElem?_eq_none le_rfl, Option.elim_none, if_pos (hspare _), List.drop_length,
        List.orderedInsert_nil]
    · rw [List.getElem?_eq_getElem hlt, Option.elim_some, List.drop_eq_getElem_cons hlt,
        List.orderedInsert_cons]
      split_ifs with hle
      · rfl
      · rw [ih (by omega) hlt, List.take_succ_eq_append_getElem hlt, List.append_assoc,
          List.singleton_append]

theorem rankCandidate_eq (hspare : ∀ i, spare i ≤ x.staked) (hl : l.length ≤ numOfTopBps)
    (hsorted : l.Pairwise fun x y => y.staked ≤ x.staked) :
    rankCandidate spare l x =
      .ok ((l.orderedInsert (fun x y => y.staked ≤ x.staked) x).take numOfTopBps) := by
  rw [rankCandidate]
  split_ifs with hfull
  · rcases List.eq_nil_or_concat l with rfl | ⟨init, z, rfl⟩
    · exact absurd hfull.1 (by decide)
    · have hz : x.staked < z.staked := by simpa using hfull.2
      rw [Commons.orderedInsert_eq_append, List.take_append_of_le_length hfull.1,
        List.take_of_length_le hl]
      intro y hy
      have hyz : z.staked ≤ y.staked := by
        rw [List.concat_eq_append, List.pairwise_append] at hsorted
        rcases List.mem_append.mp (List.concat_eq_append ▸ hy) with hy | hy
        · exact hsorted.2.2 y hy z (List.mem_singleton_self z)
        · rw [List.mem_singleton.mp hy]
      exact not_le.mpr (hz.trans_le hyz)
  · rw [placeCandidate_eq hspare hl (zero_add _) (Nat.zero_le _), List.take_zero, List.nil_append,
      List.drop_zero]

theorem foldlM_rankCandidate (hspare : ∀ i, ∀ x ∈ bps, spare i ≤ x.staked) :
    bps.foldlM (rankCandidate spare) [] =
      .ok ((bps.reverse.insertionSort fun x y => y.staked ≤ x.staked).take numOfTopBps) := by
  induction bps using List.reverseRecOn with
  | nil => rfl
  | append_singleton bps x ih =>
    have hsorted :=
      List.pairwise_insertionSort (fun x y : Candidate => y.staked ≤ x.staked) bps.reverse
    rw [List.foldlM_append, ih fun i y hy => hspare i y (List.mem_append_left _ hy),
      Commons.ok_bind, List.foldlM_cons, rankCandidate_eq (fun i => hspare i x (by simp))
        (List.length_take_le _ _) (hsorted.sublist (List.take_sublist _ _)),
      Commons.take_orderedInsert, List.reverse_append]
    rfl

/-- The 17 producers with most stake. -/
def topBps (t : MultiIndex Unit BpInfo) : List (Name × BpInfo) :=
  ((bpRows t).reverse.insertionSort fun x y => y.2.totalStaked ≤ x.2.totalStaked).take numOfTopBps

/-- **The right election**: as many active producers as fit, all different, and none of the others
that are active has a larger stake. -/
structure ElectsTop (t : MultiIndex Unit BpInfo) (schedule : List Candidate) : Prop where
  count : schedule.length = min numOfTopBps ((bpRows t).filter (·.2.isactive)).length
  distinct : (schedule.map (·.producerName)).Nodup
  active : ∀ p ∈ schedule, ∃ b, t.find () p.producerName = some b ∧ b.isactive = true ∧
    p = candidate (p.producerName, b)
  largest : ∀ k b, t.find () k = some b → b.isactive = true →
    k ∉ schedule.map (·.producerName) → ∀ p ∈ schedule, b.totalStaked ≤ p.staked

theorem proposal_eq (hn : 360 * blockNumPerDay < n)
    (hspare : ∀ i k b, t.find () k = some b → spare i ≤ b.totalStaked) :
    proposal spare n t = .ok (((topBps t).map candidate).insertionSort fun x y =>
      x.producerName ≤ y.producerName) := by
  have hcandidates : ∀ i, ∀ p ∈ (bpRows t).map candidate, spare i ≤ p.staked := by
    intro i p hp
    obtain ⟨b, hb, rfl⟩ := List.mem_map.mp hp
    exact hspare i b.1 b.2 (mem_bpRows.mp hb)
  have hsort : ((bpRows t).reverse.insertionSort fun x y => y.2.totalStaked ≤ x.2.totalStaked).map
      candidate = ((bpRows t).map candidate).reverse.insertionSort
        fun x y => y.staked ≤ x.staked := by
    rw [← List.map_reverse]
    exact List.map_insertionSort _ _ _ _ fun _ _ _ _ => Iff.rfl
  rw [proposal, electedBps, if_neg (not_le.mpr hn), foldlM_rankCandidate hcandidates, topBps,
    List.map_take, hsort]
  rfl

theorem electsTop_iff {schedule : List Candidate}
    (hschedule : schedule.Perm ((topBps t).map candidate)) :
    ElectsTop t schedule ↔ ∀ b ∈ topBps t, b.2.isactive = true := by
  let sorted := (bpRows t).reverse.insertionSort fun x y => y.2.totalStaked ≤ x.2.totalStaked
  have hperm : sorted.Perm (bpRows t) := (List.perm_insertionSort _ _).trans (List.reverse_perm _)
  have hrow {b : Name × BpInfo} (hb : b ∈ topBps t) : t.find () b.1 = some b.2 :=
    mem_bpRows.mp (hperm.mem_iff.mp (List.mem_of_mem_take hb))
  have hmem {p : Candidate} : p ∈ schedule ↔ ∃ b ∈ topBps t, candidate b = p := by
    rw [hschedule.mem_iff, List.mem_map]
  constructor
  · intro h b hb
    obtain ⟨b', hb', hactive, -⟩ := h.active _ (hmem.mpr ⟨b, hb, rfl⟩)
    obtain rfl := Option.some.inj ((hrow hb).symm.trans hb')
    exact hactive
  · intro hactive
    refine ⟨?_, ?_, ?_, ?_⟩
    · have hle : (topBps t).length ≤ ((bpRows t).filter (·.2.isactive)).length := by
        rw [← (hperm.filter _).length_eq, ← List.filter_eq_self.mpr hactive]
        exact ((List.take_sublist _ _).filter _).length_le
      have hlen : (topBps t).length = min numOfTopBps (bpRows t).length := by
        rw [topBps, List.length_take, hperm.length_eq]
      have hfilter := List.length_filter_le (fun b : Name × BpInfo => b.2.isactive) (bpRows t)
      rw [hschedule.length_eq, List.length_map]
      omega
    · have hnodup : (sorted.map Prod.fst).Nodup :=
        (hperm.map _).nodup_iff.mpr (bpRows_nodup t)
      rw [(hschedule.map _).nodup_iff, List.map_map]
      exact ((List.take_sublist _ _).map Prod.fst).nodup hnodup
    · intro p hp
      obtain ⟨b, hb, rfl⟩ := hmem.mp hp
      exact ⟨b.2, hrow hb, hactive b hb, rfl⟩
    · intro k b hb _ hout p hp
      obtain ⟨b', hb', rfl⟩ := hmem.mp hp
      have hsorted : sorted.Pairwise fun x y => y.2.totalStaked ≤ x.2.totalStaked :=
        List.pairwise_insertionSort _ _
      rw [← List.take_append_drop numOfTopBps sorted, List.pairwise_append] at hsorted
      refine hsorted.2.2 b' hb' (k, b) ?_
      have hk : (k, b) ∈ sorted.take numOfTopBps ++ sorted.drop numOfTopBps := by
        rw [List.take_append_drop, hperm.mem_iff, mem_bpRows]
        exact hb
      refine (List.mem_append.mp hk).resolve_left fun htop => hout ?_
      exact List.mem_map.mpr ⟨_, hmem.mpr ⟨_, htop, rfl⟩, rfl⟩

/-- **Producers that are not active are elected**: after the boot phase, if a comparison with a slot
behind the last means to insert there, the schedule is the right one exactly if the first 17 rows in
the order of their stakes are active. -/
theorem proposal_electsTop_iff (spare : Nat → Int) (n : Nat) (t : MultiIndex Unit BpInfo)
    (hn : 360 * blockNumPerDay < n)
    (hspare : ∀ i k b, t.find () k = some b → spare i ≤ b.totalStaked) :
    ∃ schedule, proposal spare n t = .ok schedule ∧
      (ElectsTop t schedule ↔ ∀ b ∈ topBps t, b.2.isactive = true) :=
  ⟨_, proposal_eq hn hspare, electsTop_iff (List.perm_insertionSort _ _)⟩

theorem electsTop_twoBps : ∃ schedule,
    proposal (fun _ => 0) (360 * blockNumPerDay + 100) (twoBps 3) = .ok schedule ∧
      ElectsTop (twoBps 3) schedule := by
  have hrows : ∀ b ∈ bpRows (twoBps 3), 0 ≤ b.2.totalStaked := by decide
  obtain ⟨schedule, hschedule, hiff⟩ := proposal_electsTop_iff (fun _ => 0)
    (360 * blockNumPerDay + 100) (twoBps 3) (by omega)
    fun _ k b hb => hrows (k, b) (mem_bpRows.mpr hb)
  exact ⟨schedule, hschedule, hiff.mpr (by decide)⟩

def removedBp : MultiIndex Unit BpInfo :=
  (twoBps 3).store () 2 2 { bpOf 2 5 with isactive := false }

theorem not_electsTop_removedBp : ∃ schedule,
    proposal (fun _ => 0) (360 * blockNumPerDay + 100) removedBp = .ok schedule ∧
      schedule.map (·.producerName) = [1, 2] ∧ ¬ ElectsTop removedBp schedule := by
  have hactive : ((bpRows removedBp).filter (·.2.isactive)).length = 1 := by decide
  refine ⟨_, rfl, by decide, fun h => ?_⟩
  have hcount := h.count
  rw [hactive] at hcount
  exact absurd hcount (by decide)

end SystemContract

end BaccChain
