import BaccChain.Properties.Branches
import BaccChain.Properties.ForkChoice

/-!
# The first block in the order by irreversible block numbers

Blocks of one fork database have different places among equals, so the order by irreversible block
numbers is total on them and has one first block.

## Main definitions

* `Foremost`: no other block is better
* `Chosen`: such a block is the head

## Main results

* `chosen_withHead`: the best block is chosen
-/

namespace BaccChain

open Commons

namespace BlockState

variable {a b d : BlockState} {l : List BlockState}

theorem Better.trans (hab : a.Better b) (hbd : b.Better d) : a.Better d := by
  unfold Better at *
  omega

theorem Better.asymm (hab : a.Better b) : ¬ b.Better a := by
  unfold Better at *
  omega

theorem better_of_not_better (hne : a.arrival ≠ b.arrival) (hab : ¬ a.Better b) : b.Better a := by
  unfold Better at *
  omega

theorem Better.congr {a' b' : BlockState} (ha : a.toBlockHeaderState = a'.toBlockHeaderState)
    (ha' : a.arrival = a'.arrival) (hb : b.toBlockHeaderState = b'.toBlockHeaderState)
    (hb' : b.arrival = b'.arrival) (h : a.Better b) : a'.Better b' := by
  unfold Better at *
  rwa [ha, ha', hb, hb'] at h

theorem best_of_better (hl : (l.map (·.id)).Nodup) (ha : a ∈ l)
    (h : ∀ b ∈ l, b.id ≠ a.id → a.Better b) : best l = some a := by
  induction l with
  | nil => cases ha
  | cons b l ih =>
    rw [List.map_cons, List.nodup_cons] at hl
    rw [best]
    rcases List.mem_cons.mp ha with rfl | ha
    · cases hbest : best l with
      | none => rfl
      | some x =>
        have hx := (best_eq_some hbest).1
        have hne : x.id ≠ a.id := fun hid => hl.1 (hid ▸ List.mem_map_of_mem hx)
        exact if_neg (h x (List.mem_cons_of_mem _ hx) hne).asymm
    · rw [ih hl.2 ha fun x hx => h x (List.mem_cons_of_mem _ hx)]
      have hne : b.id ≠ a.id := fun hid => hl.1 (hid ▸ List.mem_map_of_mem ha)
      exact if_pos (h b List.mem_cons_self hne)

end BlockState

namespace ForkDatabase

open BlockState

variable {db db' db'' : ForkDatabase} {x y : BlockHeaderState} {i id : BlockId} {flag : Bool}
  {n : BlockState}

/-! ## Places -/

def Places (db db' : ForkDatabase) : Prop :=
  ∀ b' ∈ db'.index, ∃ b ∈ db.index,
    b.toBlockHeaderState = b'.toBlockHeaderState ∧ b.arrival = b'.arrival

theorem Places.refl (db : ForkDatabase) : Places db db := fun b hb => ⟨b, hb, rfl, rfl⟩

theorem Places.trans (h : Places db db') (h' : Places db' db'') : Places db db'' := by
  intro b'' hb''
  obtain ⟨b', hb', hh', ha'⟩ := h' b'' hb''
  obtain ⟨b, hb, hh, ha⟩ := h b' hb'
  exact ⟨b, hb, hh.trans hh', ha.trans ha'⟩

theorem Places.of_subset (h : db'.index ⊆ db.index) : Places db db' :=
  fun b hb => ⟨b, h hb, rfl, rfl⟩

theorem Places.mem_headers (h : Places db db') (hx : x ∈ db'.headers) : x ∈ db.headers := by
  obtain ⟨b', hb', rfl⟩ := List.mem_map.mp hx
  obtain ⟨b, hb, hh, -⟩ := h b' hb'
  rw [← hh]
  exact ForkDatabase.mem_headers hb

theorem markInCurrentChain_places (hdb : db.Distinct)
    (h : db.markInCurrentChain id flag = .ok db') :
    Places db db' ∧ Places db' db ∧ db'.head = db.head ∧ db'.arrivals = db.arrivals := by
  unfold markInCurrentChain at h
  split at h
  next => cases h
  next b hb =>
    split_ifs at h
    · cases h
      exact ⟨.refl db, .refl db, rfl, rfl⟩
    · cases h
      refine ⟨fun b' hb' => ?_, fun b hb => ?_, rfl, rfl⟩
      · obtain ⟨b, hb, rfl⟩ := (mem_remark (nodup_index hdb)).mp hb'
        refine ⟨b, hb, ?_⟩
        split_ifs <;> exact ⟨rfl, rfl⟩
      · refine ⟨_, (mem_remark (nodup_index hdb)).mpr ⟨b, hb, rfl⟩, ?_⟩
        split_ifs <;> exact ⟨rfl, rfl⟩

theorem validate_places (db : ForkDatabase) (id : BlockId) :
    Places db (db.validate id) ∧ Places (db.validate id) db := by
  constructor
  · intro b' hb'
    obtain ⟨b, hb, rfl⟩ := List.mem_map.mp hb'
    refine ⟨b, hb, ?_⟩
    split_ifs <;> exact ⟨rfl, rfl⟩
  · intro b hb
    refine ⟨_, List.mem_map_of_mem hb, ?_⟩
    split_ifs <;> exact ⟨rfl, rfl⟩

theorem removed_places (id : BlockId) : Places db (db.removed id) :=
  Places.of_subset sweepFrom_sublist.subset

/-! ## The first block -/

/-- A block that no other, up to one, precedes. -/
def Foremost (db : ForkDatabase) (x : BlockHeaderState) (i : BlockId) : Prop :=
  ∃ a ∈ db.index, a.toBlockHeaderState = x ∧ ∀ b ∈ db.index, b.id ≠ x.id → b.id ≠ i → a.Better b

theorem Foremost.mem (h : Foremost db x i) : x ∈ db.headers := by
  obtain ⟨a, ha, rfl, -⟩ := h
  exact mem_headers ha

theorem Foremost.of_places (hdb : db.Distinct) (h : Foremost db x i)
    (hp : Places db db') (hx : x ∈ db'.headers) : Foremost db' x i := by
  obtain ⟨a, ha, rfl, hbetter⟩ := h
  obtain ⟨a', ha', hh⟩ := List.mem_map.mp hx
  obtain ⟨a₀, ha₀, hh₀, harr⟩ := hp a' ha'
  obtain rfl : a₀ = a := eq_of_key_eq (nodup_index hdb) ha₀ ha (congrArg (·.id) (hh₀.trans hh))
  refine ⟨a', ha', hh, fun b' hb' hne hnot => ?_⟩
  obtain ⟨b, hb, hbh, hbarr⟩ := hp b' hb'
  have hid : b.id = b'.id := congrArg (·.id) hbh
  exact (hbetter b hb (hid ▸ hne) (hid ▸ hnot)).congr hh₀ harr hbh hbarr

theorem Foremost.of_absent (h : Foremost db x i) (hi : ∀ y ∈ db.headers, y.id ≠ i) :
    Foremost db x x.id := by
  obtain ⟨a, ha, rfl, hbetter⟩ := h
  exact ⟨a, ha, rfl, fun b hb hne _ => hbetter b hb hne (hi _ (mem_headers hb))⟩

theorem Foremost.unique (hx : Foremost db x x.id) (hy : Foremost db y y.id)
    (hdb : db.Distinct) : x = y := by
  obtain ⟨a, ha, rfl, hab⟩ := hx
  obtain ⟨b, hb, rfl, hba⟩ := hy
  by_contra hne
  have hid : a.id ≠ b.id := fun hid => hne (eq_of_key_eq hdb (mem_headers ha) (mem_headers hb) hid)
  exact (hab b hb hid.symm hid.symm).asymm (hba a ha hid hid)

/-- The head is the first block. -/
def Chosen (db : ForkDatabase) : Prop := ∀ x, Foremost db x x.id → db.head = some x.id

theorem chosen_withHead (hdb : db.Distinct) : Chosen db.withHead := by
  rintro x ⟨a, ha, rfl, hbetter⟩
  have hbest : best db.index = some a :=
    best_of_better (nodup_index hdb) ha fun b hb hne => hbetter b hb hne hne
  rw [withHead, hbest]
  rfl

theorem chosen_removed (hdb : db.Distinct) : Chosen (db.removed id) :=
  chosen_withHead (nodup_removed hdb)

theorem Chosen.of_head (hdb : db.Distinct) (hx : Foremost db x x.id)
    (hhead : db.head = some x.id) : Chosen db := by
  intro y hy
  rw [hhead, hx.unique hy hdb]

theorem Chosen.of_places (h : Chosen db) (hdb : db'.Distinct)
    (hp : Places db db') (hp' : Places db' db) (hhead : db'.head = db.head) : Chosen db' := by
  intro x hx
  rw [hhead]
  exact h x (hx.of_places hdb hp' (hp.mem_headers hx.mem))

theorem headBlock_of_head (hdb : db.Distinct) (hx : x ∈ db.headers)
    (hhead : db.head = some x.id) :
    ∃ b, db.headBlock = some b ∧ b.toBlockHeaderState = x := by
  obtain ⟨b, hb, rfl⟩ := List.mem_map.mp hx
  refine ⟨b, ?_, rfl⟩
  rw [headBlock, hhead]
  exact getBlock_of_mem hdb hb

/-! ## A block that enters -/

theorem createBlockState_unmarked {c : Crypto} {b : SignedBlockHeader} {trusted : Bool}
    (hn : db.createBlockState c b trusted = .ok n) : n.inCurrentChain = false := by
  simp only [createBlockState, ok_iff] at hn
  obtain ⟨-, p, -, s, -, rfl⟩ := hn
  rfl

theorem insertBlock_chosen {skip : Bool}
    (h : db.insertBlock n skip = .ok db') (hdb : db'.Distinct) :
    db'.index = db.withBlock n ∧ db'.arrivals = db.arrivals + 1 ∧ Chosen db' := by
  simp only [insertBlock, ok_iff, chooseHead_eq_ok] at h
  obtain ⟨-, -, -, -, rfl⟩ := h
  exact ⟨rfl, rfl, chosen_withHead hdb⟩

theorem mem_withBlock {b : BlockState} :
    b ∈ db.withBlock n ↔ b = db.entering n ∨ b ∈ db.index := by
  rw [withBlock, BlockState.place, List.mem_orderedInsert]

theorem exists_foremost_of_insert (hdb : db.Distinct)
    (hx : Foremost db x x.id)
    (hfresh : ∀ b ∈ db.index, b.arrival < db.arrivals) (hindex : db'.index = db.withBlock n) :
    Foremost db' x n.id ∧ ∃ y, (y = x ∨ y = n.toBlockHeaderState) ∧ Foremost db' y y.id := by
  obtain ⟨a, ha, rfl, hbetter⟩ := hx
  have hmem : ∀ b, b ∈ db'.index ↔ b = db.entering n ∨ b ∈ db.index := by
    rw [hindex]
    exact fun b => mem_withBlock
  have hle : Foremost db' a.toBlockHeaderState n.id := by
    refine ⟨a, (hmem a).mpr (.inr ha), rfl, fun b hb hne hnot => ?_⟩
    exact hbetter b (((hmem b).mp hb).resolve_left fun heq => hnot (heq ▸ rfl)) hne hne
  refine ⟨hle, ?_⟩
  by_cases hfirst : (db.entering n).Better a
  · refine ⟨n.toBlockHeaderState, .inr rfl, db.entering n, (hmem _).mpr (.inl rfl), rfl,
      fun b hb hne _ => ?_⟩
    have hb : b ∈ db.index := ((hmem b).mp hb).resolve_left fun heq => hne (heq ▸ rfl)
    by_cases hid : b.id = a.id
    · rw [eq_of_key_eq (nodup_index hdb) hb ha hid]
      exact hfirst
    · exact hfirst.trans (hbetter b hb hid hid)
  · have harr := hfresh a ha
    have hlast : a.Better (db.entering n) := better_of_not_better harr.ne' hfirst
    refine ⟨a.toBlockHeaderState, .inl rfl, a, (hmem a).mpr (.inr ha), rfl, fun b hb hne hnot => ?_⟩
    rcases (hmem b).mp hb with rfl | hb
    · exact hlast
    · exact hbetter b hb hne hne

end ForkDatabase

end BaccChain
