import BaccChain.Commons.Path

/-!
# Removing a subtree with a work list

Items have a key and name the key of their parent. The first key is taken off a work list, the item
with that key is removed, and the keys of its children are put at the end of the list.
-/

namespace Commons

variable {α κ : Type*} (key parent : α → κ)

/-- The item has the key, or is a child of the key, or is a child of an item below it. -/
inductive Below (l : List α) (k : κ) : α → Prop
  | self {a : α} (ha : a ∈ l) (h : key a = k) : Below l k a
  | link {a : α} (ha : a ∈ l) (h : parent a = k) : Below l k a
  | child {a b : α} (hb : b ∈ l) (ha : Below l k a) (h : parent b = key a) : Below l k b

section Definitions

variable [DecidableEq κ]

def without (k : κ) (l : List α) : List α := l.filter (key · ≠ k)

def childrenOf (k : κ) (l : List α) : List α := l.filter (parent · = k)

/-- At most `n` rounds of a work list: an item is removed and its children are put on the list. -/
def sweep : ℕ → List κ → List α → List α
  | 0, _, l => l
  | _ + 1, [], l => l
  | n + 1, k :: queue, l =>
    let rest := without key k l
    sweep n (queue ++ (childrenOf parent k rest).map key) rest

def sweepFrom (k : κ) (l : List α) : List α := sweep key parent (l.length + 1) [k] l

/-- The way up the parents of an item, at most `n` of them, leads to a key. -/
def climbs (l : List α) (k : κ) : ℕ → α → Bool
  | 0, a => key a = k || parent a = k
  | n + 1, a => key a = k || parent a = k ||
    l.any fun b => key b = parent a && climbs l k n b

end Definitions

variable {key parent} {l l' : List α} {k : κ} {a b : α}

theorem Below.mem (h : Below key parent l k a) : a ∈ l := by
  cases h with
  | self ha | link ha | child ha => exact ha

theorem Below.mono (hl : l ⊆ l') (h : Below key parent l k a) : Below key parent l' k a := by
  induction h with
  | self ha h => exact .self (hl ha) h
  | link ha h => exact .link (hl ha) h
  | child hb _ h ih => exact .child (hl hb) ih h

theorem Below.trans {r : α} (h : Below key parent l k r) (ha : Below key parent l (key r) a)
    (hl : (l.map key).Nodup) : Below key parent l k a := by
  induction ha with
  | self ha hk => rwa [List.inj_on_of_nodup_map hl ha h.mem hk]
  | link ha hp => exact .child ha h hp
  | child hb _ hp ih => exact .child hb ih hp

theorem eq_filter_of_sublist {p : α → Prop} [DecidablePred p] (hl : l.Nodup) (hsub : l'.Sublist l)
    (hmem : ∀ a, a ∈ l' ↔ a ∈ l ∧ p a) : l' = l.filter p := by
  have hkept : l'.filter p = l' := List.filter_eq_self.mpr fun a ha =>
    decide_eq_true ((hmem a).mp ha).2
  refine (hkept ▸ hsub.filter p : l'.Sublist (l.filter p)).eq_of_length_le ?_
  refine (hl.filter _ |>.subperm fun a ha => ?_).length_le
  obtain ⟨ha, hp⟩ := List.mem_filter.mp ha
  exact (hmem a).mpr ⟨ha, of_decide_eq_true hp⟩

theorem eq_of_key_eq (hl : (l.map key).Nodup) (ha : a ∈ l) (hb : b ∈ l) (h : key a = key b) :
    a = b :=
  List.inj_on_of_nodup_map hl ha hb h

theorem below_iff_reaches {next : α → Option α} {r : α} (hl : (l.map key).Nodup)
    (hnext : ∀ a p, next a = some p ↔ p ∈ l ∧ key p = parent a) (hr : r ∈ l) (ha : a ∈ l) :
    Below key parent l (key r) a ↔ Reaches next a r := by
  constructor
  · intro hbelow
    clear ha
    induction hbelow with
    | self ha hk =>
      obtain rfl := eq_of_key_eq hl ha hr hk
      exact Reaches.refl _
    | link _ hp => exact ⟨_, .cons ((hnext _ r).mpr ⟨hr, hp.symm⟩) (.nil r)⟩
    | @child a b _ ha hp ih =>
      obtain ⟨m, hm⟩ := ih
      exact ⟨_, .cons ((hnext b a).mpr ⟨ha.mem, hp.symm⟩) hm⟩
  · rintro ⟨m, hm⟩
    induction hm with
    | nil => exact .self ha rfl
    | @cons a p r m hp _ ih =>
      obtain ⟨hmem, hk⟩ := (hnext a p).mp hp
      exact .child ha (ih hr hmem) hk.symm

/-! ## Rounds of the work list -/

variable [DecidableEq κ]

theorem Below.of_climbs (n : ℕ) (ha : a ∈ l) (h : climbs key parent l k n a = true) :
    Below key parent l k a := by
  induction n generalizing a with
  | zero =>
    rw [climbs, Bool.or_eq_true, decide_eq_true_iff, decide_eq_true_iff] at h
    rcases h with h | h
    · exact .self ha h
    · exact .link ha h
  | succ n ih =>
    rw [climbs, Bool.or_eq_true, Bool.or_eq_true, decide_eq_true_iff, decide_eq_true_iff,
      List.any_eq_true] at h
    rcases h with (h | h) | ⟨b, hb, h⟩
    · exact .self ha h
    · exact .link ha h
    · rw [Bool.and_eq_true, decide_eq_true_iff] at h
      exact .child ha (ih hb h.2) h.1.symm

@[simp] theorem mem_without : a ∈ without key k l ↔ a ∈ l ∧ key a ≠ k := by
  simp [without]

@[simp] theorem mem_childrenOf : a ∈ childrenOf parent k l ↔ a ∈ l ∧ parent a = k := by
  simp [childrenOf]

theorem without_sublist : (without key k l).Sublist l := List.filter_sublist

theorem nodup_without (hl : (l.map key).Nodup) : ((without key k l).map key).Nodup :=
  hl.sublist (without_sublist.map key)

theorem sweep_sublist (n : ℕ) (queue : List κ) (l : List α) :
    (sweep key parent n queue l).Sublist l := by
  induction n generalizing queue l with
  | zero => exact List.Sublist.refl l
  | succ n ih =>
    cases queue with
    | nil => exact List.Sublist.refl l
    | cons => exact (ih _ _).trans without_sublist

theorem below_round {queue : List κ} (hl : (l.map key).Nodup) (ha : a ∈ l) :
    (∃ q ∈ k :: queue, Below key parent l q a) ↔
      key a = k ∨ ∃ q ∈ queue ++ (childrenOf parent k (without key k l)).map key,
        Below key parent (without key k l) q a := by
  have hkid {b : α} (hb : b ∈ without key k l) (hp : parent b = k) :
      ∃ q ∈ queue ++ (childrenOf parent k (without key k l)).map key,
        Below key parent (without key k l) q b :=
    ⟨key b, List.mem_append_right _ (List.mem_map_of_mem (mem_childrenOf.mpr ⟨hb, hp⟩)),
      .self hb rfl⟩
  constructor
  · rintro ⟨q, hq, h⟩
    rw [or_iff_not_imp_left]
    induction h with
    | self hb h =>
      intro hk
      have hq' : q ∈ queue := (List.mem_cons.mp hq).resolve_left fun e => hk (h.trans e)
      exact ⟨q, List.mem_append_left _ hq', .self (mem_without.mpr ⟨hb, hk⟩) h⟩
    | link hb h =>
      intro hk
      rcases List.mem_cons.mp hq with rfl | hq'
      · exact hkid (mem_without.mpr ⟨hb, hk⟩) h
      · exact ⟨q, List.mem_append_left _ hq', .link (mem_without.mpr ⟨hb, hk⟩) h⟩
    | @child p b hb hp h ih =>
      intro hk
      by_cases hpk : key p = k
      · exact hkid (mem_without.mpr ⟨hb, hk⟩) (h.trans hpk)
      · obtain ⟨q', hq', hbelow⟩ := ih hp.mem hpk
        exact ⟨q', hq', .child (mem_without.mpr ⟨hb, hk⟩) hbelow h⟩
  · have hsub : without key k l ⊆ l := without_sublist.subset
    rintro (hk | ⟨q, hq, h⟩)
    · exact ⟨k, List.mem_cons_self, .self ha hk⟩
    · rcases List.mem_append.mp hq with hq | hq
      · exact ⟨q, List.mem_cons_of_mem _ hq, h.mono hsub⟩
      · obtain ⟨b, hb, rfl⟩ := List.mem_map.mp hq
        obtain ⟨hb, hp⟩ := mem_childrenOf.mp hb
        have hbelow : Below key parent l k b := .link (hsub hb) hp
        refine ⟨k, List.mem_cons_self, ?_⟩
        clear ha
        induction h with
        | self hc h =>
          obtain rfl := eq_of_key_eq hl (hsub hc) (hsub hb) h
          exact hbelow
        | link hc h => exact .child (hsub hc) hbelow h
        | child hc _ h ih => exact .child (hsub hc) ih h

/-- A work list and the keys that it has dealt with. -/
structure Sweeping (key parent : α → κ) (queue done : List κ) (l : List α) : Prop where
  nodup : (l.map key).Nodup
  queue_nodup : queue.Nodup
  not_done : ∀ q ∈ queue, q ∉ done
  gone : ∀ a ∈ l, key a ∉ done
  parent_done : ∀ a ∈ l, key a ∈ queue.tail → parent a ∈ done

namespace Sweeping

variable {queue done : List κ}

theorem child_not_mem (h : Sweeping key parent (k :: queue) done l)
    (ha : a ∈ childrenOf parent k (without key k l)) : key a ∉ queue := by
  intro hq
  obtain ⟨ha, rfl⟩ := mem_childrenOf.mp ha
  exact h.not_done _ List.mem_cons_self (h.parent_done a (mem_without.mp ha).1 hq)

theorem round (h : Sweeping key parent (k :: queue) done l) :
    Sweeping key parent (queue ++ (childrenOf parent k (without key k l)).map key) (k :: done)
      (without key k l) where
  nodup := nodup_without h.nodup
  queue_nodup := by
    have hkids := (nodup_without (k := k) h.nodup).sublist
      (List.Sublist.map key (List.filter_sublist (p := fun b => decide (parent b = k))))
    refine (List.nodup_cons.mp h.queue_nodup).2.append hkids fun q hq hq' => ?_
    obtain ⟨b, hb, rfl⟩ := List.mem_map.mp hq'
    exact h.child_not_mem hb hq
  not_done q hq := by
    rw [List.mem_cons, not_or]
    rcases List.mem_append.mp hq with hq' | hq'
    · refine ⟨?_, h.not_done q (List.mem_cons_of_mem _ hq')⟩
      rintro rfl
      exact (List.nodup_cons.mp h.queue_nodup).1 hq'
    · obtain ⟨b, hb, rfl⟩ := List.mem_map.mp hq'
      obtain ⟨hb, hk⟩ := mem_without.mp (mem_childrenOf.mp hb).1
      exact ⟨hk, h.gone b hb⟩
  gone b hb := by
    obtain ⟨hb, hk⟩ := mem_without.mp hb
    rw [List.mem_cons, not_or]
    exact ⟨hk, h.gone b hb⟩
  parent_done b hb hq := by
    rcases List.mem_append.mp (List.mem_of_mem_tail hq) with hq | hq
    · exact List.mem_cons_of_mem _ (h.parent_done b (mem_without.mp hb).1 hq)
    · obtain ⟨b', hb', he⟩ := List.mem_map.mp hq
      obtain ⟨hb', hp⟩ := mem_childrenOf.mp hb'
      obtain rfl := eq_of_key_eq (nodup_without h.nodup) hb' hb he
      rw [hp]
      exact List.mem_cons_self

theorem round_length (h : Sweeping key parent (k :: queue) done l) :
    (queue ++ (childrenOf parent k (without key k l)).map key).length +
        ((without key k l).filter
          (key · ∉ queue ++ (childrenOf parent k (without key k l)).map key)).length <
      (k :: queue).length + (l.filter (key · ∉ k :: queue)).length := by
  have hidle : l.filter (key · ∉ k :: queue) = (without key k l).filter (key · ∉ queue) := by
    rw [without, List.filter_filter]
    refine List.filter_congr fun b _ => ?_
    simp [Bool.and_comm]
  have hsplit := List.length_eq_length_filter_add (l := (without key k l).filter (key · ∉ queue))
    fun b => decide (parent b = k)
  have hkids : childrenOf parent k (without key k l) =
      ((without key k l).filter (key · ∉ queue)).filter (parent · = k) := by
    rw [childrenOf, List.filter_filter]
    refine List.filter_congr fun b hb => ?_
    by_cases hp : parent b = k
    · have := h.child_not_mem (mem_childrenOf.mpr ⟨hb, hp⟩)
      simp [hp, this]
    · simp [hp]
  have hothers : ((without key k l).filter
      (key · ∉ queue ++ (childrenOf parent k (without key k l)).map key)).length ≤
      (((without key k l).filter (key · ∉ queue)).filter
        (fun b => !decide (parent b = k))).length := by
    rw [List.filter_filter, ← List.countP_eq_length_filter, ← List.countP_eq_length_filter]
    refine List.countP_mono_left fun b hb hnot => ?_
    rw [decide_eq_true_iff, List.mem_append, not_or] at hnot
    have hp : parent b ≠ k := fun hp =>
      hnot.2 (List.mem_map_of_mem (mem_childrenOf.mpr ⟨hb, hp⟩))
    simp [hnot.1, hp]
  rw [hidle, hsplit, ← hkids, List.length_append, List.length_map, List.length_cons]
  omega

theorem mem_iff (n : ℕ) (h : Sweeping key parent queue done l)
    (hn : queue.length + (l.filter (key · ∉ queue)).length ≤ n) :
    a ∈ sweep key parent n queue l ↔ a ∈ l ∧ ¬ ∃ q ∈ queue, Below key parent l q a := by
  induction n generalizing queue done l with
  | zero =>
    obtain rfl : queue = [] := List.length_eq_zero_iff.mp (by omega)
    simp [sweep]
  | succ n ih =>
    cases queue with
    | nil => simp [sweep]
    | cons =>
      have hlt := h.round_length
      refine (ih h.round (by omega)).trans ?_
      rw [mem_without, and_assoc]
      refine and_congr_right fun ha => ?_
      rw [below_round h.nodup ha, not_or]

theorem sweep_of_le {n m : ℕ} (h : Sweeping key parent queue done l)
    (hn : queue.length + (l.filter (key · ∉ queue)).length ≤ n) (hm : n ≤ m) :
    sweep key parent m queue l = sweep key parent n queue l := by
  induction n generalizing queue done l m with
  | zero =>
    obtain rfl : queue = [] := List.length_eq_zero_iff.mp (by omega)
    cases m <;> rfl
  | succ n ih =>
    obtain ⟨m, rfl⟩ : ∃ m', m = m' + 1 := ⟨m - 1, by omega⟩
    cases queue with
    | nil => rfl
    | cons =>
      have hlt := h.round_length
      exact ih h.round (by omega) (by omega)

omit [DecidableEq κ] in
theorem start (hl : (l.map key).Nodup) (k : κ) : Sweeping key parent [k] [] l :=
  ⟨hl, List.nodup_singleton k, by simp, by simp, by simp⟩

theorem start_length (k : κ) (l : List α) :
    [k].length + (l.filter (key · ∉ [k])).length ≤ l.length + 1 := by
  have := List.length_filter_le (key · ∉ [k]) l
  rw [List.length_singleton]
  omega

end Sweeping

theorem sweepFrom_sublist : (sweepFrom key parent k l).Sublist l := sweep_sublist _ _ _

theorem mem_sweepFrom (hl : (l.map key).Nodup) :
    a ∈ sweepFrom key parent k l ↔ a ∈ l ∧ ¬ Below key parent l k a := by
  rw [sweepFrom, (Sweeping.start hl k).mem_iff _ (Sweeping.start_length k l)]
  simp

open scoped Classical in
theorem sweepFrom_eq_filter (hl : (l.map key).Nodup) :
    sweepFrom key parent k l = l.filter fun a => ¬ Below key parent l k a :=
  eq_filter_of_sublist (hl.of_map key) sweepFrom_sublist fun _ => mem_sweepFrom hl

theorem sweep_eq_sweepFrom {n : ℕ} (hl : (l.map key).Nodup) (hn : l.length < n) :
    sweep key parent n [k] l = sweepFrom key parent k l :=
  (Sweeping.start hl k).sweep_of_le (Sweeping.start_length k l) hn

theorem below_sweepFrom {q : κ} (hl : (l.map key).Nodup) (ha : a ∈ sweepFrom key parent k l) :
    Below key parent (sweepFrom key parent k l) q a ↔ Below key parent l q a := by
  refine ⟨fun h => h.mono sweepFrom_sublist.subset, fun h => ?_⟩
  induction h with
  | self _ h => exact .self ha h
  | link _ h => exact .link ha h
  | @child p b hb hp h ih =>
    have hp' : p ∈ sweepFrom key parent k l := by
      rw [mem_sweepFrom hl] at ha ⊢
      exact ⟨hp.mem, fun hk => ha.2 (.child hb hk h)⟩
    exact .child ha (ih hp') h

theorem foldl_sweepFrom_sublist (ks : List κ) (l : List α) :
    (ks.foldl (fun l k => sweepFrom key parent k l) l).Sublist l := by
  induction ks generalizing l with
  | nil => exact List.Sublist.refl l
  | cons k ks ih => exact (ih _).trans sweepFrom_sublist

theorem mem_foldl_sweepFrom (ks : List κ) (hl : (l.map key).Nodup) :
    a ∈ ks.foldl (fun l k => sweepFrom key parent k l) l ↔
      a ∈ l ∧ ∀ k ∈ ks, ¬ Below key parent l k a := by
  induction ks generalizing l with
  | nil => simp
  | cons k ks ih =>
    rw [List.foldl_cons, ih (hl.sublist (sweepFrom_sublist.map key)), List.forall_mem_cons]
    constructor
    · rintro ⟨ha, h⟩
      obtain ⟨hal, hak⟩ := (mem_sweepFrom hl).mp ha
      exact ⟨hal, hak, fun q hq hb => h q hq ((below_sweepFrom hl ha).mpr hb)⟩
    · rintro ⟨hal, hak, h⟩
      have ha := (mem_sweepFrom hl).mpr ⟨hal, hak⟩
      exact ⟨ha, fun q hq hb => h q hq ((below_sweepFrom hl ha).mp hb)⟩

open scoped Classical in
theorem foldl_sweepFrom_eq_filter (ks : List κ) (hl : (l.map key).Nodup) :
    ks.foldl (fun l k => sweepFrom key parent k l) l =
      l.filter fun a => ∀ k ∈ ks, ¬ Below key parent l k a :=
  eq_filter_of_sublist (hl.of_map key) (foldl_sweepFrom_sublist ks l) fun _ =>
    mem_foldl_sweepFrom ks hl

/-! ## Other items with the same keys -/

section Map

variable {β : Type*} (key parent) (f : β → α)

omit [DecidableEq κ] in
theorem Below.map {m : List β} {b : β} (h : Below (key ∘ f) (parent ∘ f) m k b) :
    Below key parent (m.map f) k (f b) := by
  induction h with
  | self hb h => exact .self (List.mem_map_of_mem hb) h
  | link hb h => exact .link (List.mem_map_of_mem hb) h
  | child hb _ h ih => exact .child (List.mem_map_of_mem hb) ih h

theorem map_sweep (n : ℕ) (queue : List κ) (m : List β) :
    (sweep (key ∘ f) (parent ∘ f) n queue m).map f = sweep key parent n queue (m.map f) := by
  induction n generalizing queue m with
  | zero => rfl
  | succ n ih =>
    cases queue with
    | nil => rfl
    | cons =>
      simp only [sweep, ih, without, childrenOf, List.filter_map, List.map_map]
      rfl

theorem map_sweepFrom (k : κ) (m : List β) :
    (sweepFrom (key ∘ f) (parent ∘ f) k m).map f = sweepFrom key parent k (m.map f) := by
  rw [sweepFrom, map_sweep, sweepFrom, List.length_map]

end Map

end Commons
