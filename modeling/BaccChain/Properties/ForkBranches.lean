import BaccChain.Properties.Branches
import BaccChain.Properties.ForkChoice
import Mathlib.Order.Preorder.Finite

/-!
# Subtrees and branches

A block is removed with all that builds on it, and with nothing else. The source then takes the head
from the blocks that are left, and reads past the end if there are none.

## Main results

* `ForkDatabase.remove_subtree_iff`: a removal returns, with exactly the subtree gone, exactly if a
  block is left
* `ForkDatabase.fetchBranchFrom_branches`: the branches from two blocks to their common ancestor
-/

namespace BaccChain

open Commons

namespace ForkDatabase

variable {db : ForkDatabase}

/-- **Removing a fork** removes exactly the subtree, exactly if that is not all: the work list is
empty after as many rounds as there are blocks and one more, the blocks left are those that do not
descend from the id, one of them is the head, and a block that is left keeps its parent. -/
theorem remove_subtree_iff (db : ForkDatabase) (id : BlockId) (hdb : (db.index.map (·.id)).Nodup) :
    (∃ db', db.remove id = .ok db' ∧
      (∀ n, db.index.length < n →
        sweep (·.id) (·.header.previous) n [id] db.index = db'.index) ∧
      (∀ b, b ∈ db'.index ↔
        b ∈ db.index ∧ ¬ Below (·.id) (·.header.previous) db.index id b) ∧
      (∃ h ∈ db'.index, db'.head = some h.id) ∧
      ∀ root : BlockId, (∀ b ∈ db'.index,
          (∃ p ∈ db.index, p.id = b.header.previous) ∨ b.header.previous = root) →
        ∀ b ∈ db'.index,
          (∃ p ∈ db'.index, p.id = b.header.previous) ∨ b.header.previous = root) ↔
      ∃ b ∈ db.index, ¬ Below (·.id) (·.header.previous) db.index id b := by
  have hmem (b : BlockState) : b ∈ (db.removed id).index ↔
      b ∈ db.index ∧ ¬ Below (·.id) (·.header.previous) db.index id b := mem_sweepFrom hdb
  constructor
  · rintro ⟨db', hremove, -, hmem', -⟩
    obtain ⟨hne, rfl⟩ := remove_eq_ok.mp hremove
    obtain ⟨b, hb⟩ := List.exists_mem_of_ne_nil _ hne
    exact ⟨b, (hmem' b).mp hb⟩
  · rintro ⟨b, hb⟩
    have hne := List.ne_nil_of_mem ((hmem b).mpr hb)
    refine ⟨db.removed id, remove_eq_ok.mpr ⟨hne, rfl⟩, fun n hn => sweep_eq_sweepFrom hdb hn, hmem,
      ?_, fun root hroot b hb => ?_⟩
    · obtain ⟨h, hbest⟩ := BlockState.exists_best hne
      exact ⟨h, (BlockState.best_eq_some hbest).1,
        congrArg (Option.map fun b : BlockState => b.id) hbest⟩
    · refine (hroot b hb).imp_left ?_
      rintro ⟨p, hp, hid⟩
      obtain ⟨hb, hnot⟩ := (hmem b).mp hb
      exact ⟨p, (hmem p).mpr ⟨hp, fun hbelow => hnot (.child hb hbelow hid.symm)⟩, hid⟩

def twoBlocksDb : ForkDatabase :=
  (run (ForkOperation.step toyCrypto) ForkOperation.oneProducerNode ForkOperation.addBlocks).forkDb

theorem remove_subtree_twoBlocks :
    twoBlocksDb.index.length = 3 ∧ ∃ id db', twoBlocksDb.remove id = .ok db' ∧
      db'.index.length = 2 ∧ ∀ b, b ∈ db'.index ↔
        b ∈ twoBlocksDb.index ∧ ¬ Below (·.id) (·.header.previous) twoBlocksDb.index id b := by
  have hdb : (twoBlocksDb.index.map (·.id)).Nodup := by decide +kernel
  obtain ⟨b, hb, hlen⟩ : ∃ b ∈ twoBlocksDb.index, (twoBlocksDb.removed b.id).index.length = 2 := by
    decide +kernel
  obtain ⟨a, ha⟩ := List.exists_mem_of_length_pos (hlen ▸ Nat.two_pos)
  obtain ⟨db', hremove, -, hmem, -⟩ :=
    (remove_subtree_iff twoBlocksDb b.id hdb).mpr ⟨a, (mem_sweepFrom hdb).mp ha⟩
  obtain ⟨-, rfl⟩ := remove_eq_ok.mp hremove
  exact ⟨by decide +kernel, b.id, _, hremove, hlen, hmem⟩

/-- **All is removed**: the head is read from an empty index. -/
theorem remove_only_block : ∃ b ∈ ForkOperation.oneProducerNode.forkDb.index,
    ForkOperation.oneProducerNode.forkDb.head = some b.id ∧
      (ForkOperation.oneProducerNode.forkDb.remove b.id).toOption.isNone = true := by
  decide +kernel

/-! ## Branches -/

/-- **A tree of blocks**: every block but the oldest has its parent, with the number before. -/
structure IsTree (db : ForkDatabase) (oldest : BlockId) : Prop where
  nodup : (db.index.map (·.id)).Nodup
  root : ∀ x ∈ db.index, x.id = oldest → ∀ p ∈ db.index, p.id ≠ x.header.previous
  parent : ∀ x ∈ db.index, x.id ≠ oldest →
    ∃ p ∈ db.index, p.id = x.header.previous ∧ x.blockNum = p.blockNum + 1

theorem exists_lowest {a b r : BlockHeaderState} (hdb : db.Numbered) (ha : a ∈ db.headers)
    (hra : Reaches db.parent a r) (hrb : Reaches db.parent b r) :
    ∃ r, Reaches db.parent a r ∧ Reaches db.parent b r ∧
      ∀ x, Reaches db.parent a x → Reaches db.parent b x → x.blockNum ≤ r.blockNum := by
  have hfinite : { x | Reaches db.parent a x ∧ Reaches db.parent b x }.Finite := by
    refine (List.finite_toSet db.headers).subset ?_
    rintro x ⟨⟨l, hl⟩, -⟩
    exact (mem_of_path hdb.nodup ha hl).1
  obtain ⟨r, ⟨hra, hrb⟩, hmax⟩ := hfinite.exists_maximalFor (·.blockNum) _ ⟨r, hra, hrb⟩
  refine ⟨r, hra, hrb, fun x hxa hxb => ?_⟩
  by_contra hlt
  exact hlt (hmax ⟨hxa, hxb⟩ (not_le.mp hlt).le)

/-- What a branch is: it starts at the block, goes from parent to parent, and ends at a block on top
of `top`. -/
def IsBranch (a : BlockHeaderState) (l : List BlockHeaderState) (top : BlockId) : Prop :=
  l.head? = some a ∧ l.IsChain (fun x y => y.id = x.header.previous) ∧
    l.getLast?.map (·.header.previous) = some top

/-- **Branches to the common ancestor.** In a fork database in which every block but the oldest has
its parent, the search returns two branches to blocks with the same parent. A block on both is the
last of both. -/
theorem fetchBranchFrom_branches (db : ForkDatabase) (oldest : BlockId) (a b : BlockState)
    (htree : db.IsTree oldest) (ha : a ∈ db.index) (hb : b ∈ db.index) :
    ∃ f s top, db.fetchBranchFrom a.id b.id = .ok (f, s) ∧
      IsBranch a.toBlockHeaderState (path f) top ∧ IsBranch b.toBlockHeaderState (path s) top ∧
      ∀ x ∈ path f, x ∈ path s → (path f).getLast? = some x ∧ (path s).getLast? = some x := by
  have hids : db.Distinct := distinct_iff.mpr htree.nodup
  have hdb : db.Numbered := by
    refine ⟨hids, List.forall_mem_map.mpr fun x hx p hp => ?_⟩
    obtain ⟨hmem, hid⟩ := (parent_eq_some hids).mp hp
    obtain ⟨q, hq, rfl⟩ := List.mem_map.mp hmem
    obtain ⟨p, hp, hpid, hnum⟩ := htree.parent x hx fun h => htree.root x hx h q hq hid
    rw [hnum, eq_of_key_eq htree.nodup hq hp (hid.trans hpid.symm)]
  have hroot : ∀ x ∈ db.headers, db.parent x = none → x.id = oldest := by
    refine List.forall_mem_map.mpr fun x hx hnone => ?_
    by_contra hid
    obtain ⟨p, hp, hpid, -⟩ := htree.parent x hx hid
    rw [(parent_eq_some hids).mpr ⟨mem_headers hp, hpid⟩] at hnone
    cases hnone
  obtain ⟨o, ho, hoid, hao⟩ := hdb.ranked.exists_root (mem_headers ha)
  obtain ⟨o', ho', hoid', hbo⟩ := hdb.ranked.exists_root (mem_headers hb)
  obtain rfl := eq_of_key_eq hids ho ho' ((hroot o ho hoid).trans (hroot o' ho' hoid').symm)
  obtain ⟨r, ⟨first, hfirst⟩, ⟨second, hsecond⟩, hlow⟩ := exists_lowest hdb (mem_headers ha) hao hbo
  obtain ⟨f, s, hfetch, hf, hs, hcase⟩ := fetchBranchFrom_spec hdb ha hb hfirst hsecond
  have hlink {x y : BlockHeaderState} (h : db.parent x = some y) : y.id = x.header.previous :=
    ((parent_eq_some hids).mp h).2
  rcases hcase with ⟨hend, hf', hs'⟩ | ⟨m, q, -, -, hf', hs', hm⟩
  · refine ⟨f, s, r.header.previous, hfetch, ?_, ?_, ?_⟩
    · rw [hf']
      exact ⟨hfirst.isChain.2, hfirst.isChain.1.imp fun _ _ => hlink, by simp⟩
    · rw [hs']
      exact ⟨hsecond.isChain.2, hsecond.isChain.1.imp fun _ _ => hlink, by simp⟩
    · rw [hf', hs']
      intro x hx hx'
      obtain rfl : x = r := by
        rcases hend with rfl | rfl
        · simpa using hx
        · simpa using hx'
      simp
  · have hbranch {c : BlockState} {l : List BlockState} (hl : l ≠ [])
        (hpath : Path db.parent c.toBlockHeaderState (path l) q) :
        IsBranch c.toBlockHeaderState (path l) q.id := by
      have hne : path l ≠ [] := List.map_eq_nil_iff.not.mpr hl
      obtain ⟨hchain, hhead⟩ := hpath.isChain
      obtain ⟨hchain, -, hlast⟩ := List.isChain_append.mp hchain
      refine ⟨?_, hchain.imp fun _ _ => hlink, ?_⟩
      · rwa [List.head?_append_of_ne_nil _ hne] at hhead
      · rw [List.getLast?_eq_some_getLast hne]
        simpa using (hlink (hlast _ (List.getLast_mem_getLast? hne) q rfl)).symm
    refine ⟨f, s, q.id, hfetch, hbranch hf hf', hbranch hs hs', fun x hx hx' => ?_⟩
    have hle := hlow x (hf'.reaches_iff.mpr (.inl hx)) (hs'.reaches_iff.mpr (.inl hx'))
    have hlt := (hdb.ranked.of_mem (mem_headers ha) hf' hx).2
    have hq := hdb.ranked.le_of_reaches (hdb.ranked.path (mem_headers ha) hf').1 ⟨m, hm⟩
    omega

theorem fetchBranchFrom_branches_twoBlocks : twoBlocksDb.index.length = 3 ∧
    ∀ a ∈ twoBlocksDb.index, ∀ b ∈ twoBlocksDb.index, ∃ f s top,
      twoBlocksDb.fetchBranchFrom a.id b.id = .ok (f, s) ∧
        IsBranch a.toBlockHeaderState (path f) top ∧
          IsBranch b.toBlockHeaderState (path s) top := by
  refine ⟨by decide +kernel, fun a ha b hb => ?_⟩
  obtain ⟨f, s, top, hfetch, hf, hs, -⟩ := fetchBranchFrom_branches twoBlocksDb
    ForkOperation.oneProducerNode.head.id a b
    ⟨by decide +kernel, by decide +kernel, by decide +kernel⟩ ha hb
  exact ⟨f, s, top, hfetch, hf, hs⟩

end ForkDatabase

end BaccChain
