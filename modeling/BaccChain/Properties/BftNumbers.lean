import BaccChain.Properties.ForkChoice

/-!
# BFT irreversible numbers

The blocks that build on a BFT irreversible block are told. The search for them does not go on from
a block that has a greater number already.

## Main definitions

* `BftOrdered`: a number is between that of the parent and its own

## Main results

* `bft_numbers`: numbers are ordered, and reach all descendants
* `bft_number_wraps`: the last block number
-/

namespace BaccChain

open Commons

namespace ForkDatabase

variable {db db' : ForkDatabase} {b x n o : BlockState} {num : Nat}

/-- **The BFT numbers** are not above the blocks' own, and at least those of their parents. -/
structure BftOrdered (db : ForkDatabase) : Prop extends WellFormed db where
  numbered : ∀ b ∈ db.headers, numFromId b.id = b.blockNum
  numbered_previous : ∀ b ∈ db.headers, b.blockNum = numFromId b.header.previous + 1
  lowest : ∀ b ∈ db.headers, (∃ p ∈ db.headers, p.id = b.header.previous) ∨
    ∀ a ∈ db.headers, b.blockNum ≤ a.blockNum
  le : ∀ b ∈ db.headers, b.bftIrreversibleBlocknum ≤ b.blockNum
  parent_le : ∀ b ∈ db.headers, ∀ p ∈ db.headers, p.id = b.header.previous →
    p.bftIrreversibleBlocknum ≤ b.bftIrreversibleBlocknum

namespace BftOrdered

theorem num_of_parent (h : db.BftOrdered) {b p : BlockHeaderState} (hb : b ∈ db.headers)
    (hp : p ∈ db.headers) (hid : p.id = b.header.previous) : b.blockNum = p.blockNum + 1 := by
  rw [h.numbered_previous b hb, ← hid, h.numbered p hp]

theorem of_sameHeaders (h : db.BftOrdered) (hs : SameHeaders db db') : db'.BftOrdered := by
  have hmem (s : BlockHeaderState) : s ∈ db'.headers ↔ s ∈ db.headers := hs.perm.mem_iff
  refine ⟨⟨(hs.perm.map _).nodup_iff.mpr h.nodup, hs.sorted h.sorted⟩, ?_, ?_, ?_, ?_, ?_⟩
  all_goals simp only [hmem]
  · exact h.numbered
  · exact h.numbered_previous
  · exact h.lowest
  · exact h.le
  · exact h.parent_le

theorem of_map_eq (h : db.BftOrdered) (hwell : db'.WellFormed)
    (hindex : db'.index.map (fun b => (b.id, b.header.previous, b.blockNum)) =
      db.index.map fun b => (b.id, b.header.previous, b.blockNum))
    (hle : ∀ y ∈ db'.index, y.bftIrreversibleBlocknum ≤ y.blockNum)
    (hparent : ∀ y ∈ db'.index, ∀ p ∈ db'.index, p.id = y.header.previous →
      p.bftIrreversibleBlocknum ≤ y.bftIrreversibleBlocknum) : db'.BftOrdered := by
  have same {l l' : List BlockState} {y : BlockState}
      (hl : l.map (fun b => (b.id, b.header.previous, b.blockNum)) =
        l'.map fun b => (b.id, b.header.previous, b.blockNum)) (hy : y ∈ l) :
      ∃ x ∈ l', x.id = y.id ∧ x.header.previous = y.header.previous ∧ x.blockNum = y.blockNum := by
    obtain ⟨x, hx, heq⟩ := List.mem_map.mp (hl ▸ List.mem_map_of_mem hy)
    exact ⟨x, hx, congrArg (·.1) heq, congrArg (·.2.1) heq, congrArg (·.2.2) heq⟩
  refine ⟨hwell, List.forall_mem_map.mpr fun y hy => ?_, List.forall_mem_map.mpr fun y hy => ?_,
    List.forall_mem_map.mpr fun y hy => ?_, List.forall_mem_map.mpr hle,
    List.forall_mem_map.mpr fun y hy => List.forall_mem_map.mpr (hparent y hy)⟩
  all_goals
    obtain ⟨x, hx, hid, hprev, hnum⟩ := same hindex hy
  · rw [← hid, ← hnum, h.numbered _ (mem_headers hx)]
  · rw [← hprev, ← hnum, h.numbered_previous _ (mem_headers hx)]
  · rcases h.lowest _ (mem_headers hx) with ⟨p, hp, hpid⟩ | hlow
    · obtain ⟨p, hp', rfl⟩ := List.mem_map.mp hp
      obtain ⟨q, hq, hqid, -⟩ := same hindex.symm hp'
      exact .inl ⟨_, mem_headers hq, hqid.trans (hpid.trans hprev)⟩
    · refine .inr (List.forall_mem_map.mpr fun a ha => ?_)
      obtain ⟨z, hz, -, -, hznum⟩ := same hindex ha
      rw [← hnum, ← hznum]
      exact hlow _ (mem_headers hz)

/-! ## A block that enters, and a level that goes -/

theorem insertBlock {c : Crypto} {e : SignedBlockHeader} {trusted skip : Bool} (h : db.BftOrdered)
    (hn : db.createBlockState c e trusted = .ok n) (hwrap : numFromId e.previous + 1 < 2 ^ 32)
    (hinsert : db.insertBlock n skip = .ok db') : db'.BftOrdered := by
  obtain ⟨p, hp, hnext⟩ := createBlockState_eq_ok hn
  have hpm := mem_headers (getBlock_eq_some hp).1
  obtain ⟨-, hprev, hnum, hid⟩ := createBlockState_numbered hn hp (h.numbered _ hpm) hwrap
  have hbft := BlockHeaderState.next_bftIrreversibleBlocknum hnext
  obtain ⟨hwell, -, hindex⟩ := insertBlock_headCurrent h.toWellFormed hinsert
  have hmem : ∀ s, s ∈ db'.headers ↔ s = n.toBlockHeaderState ∨ s ∈ db.headers := by
    intro s
    rw [headers, hindex]
    exact ((List.perm_orderedInsert _ _ _).map _).mem_iff.trans List.mem_cons
  have hle := h.le _ hpm
  have hnew : ∀ b ∈ db.headers, n.id ≠ b.header.previous := by
    intro b hb heq
    rcases h.lowest b hb with ⟨q, hq, hqid⟩ | hlow
    · simp only [ForkDatabase.insertBlock, ok_iff] at hinsert
      exact getBlock_isNone hinsert.2.2.1 q hq (hqid.trans heq.symm)
    · have h₁ := hlow _ hpm
      have h₂ := h.numbered_previous b hb
      rw [← heq, hid] at h₂
      omega
  refine ⟨hwell, ?_, ?_, ?_, ?_, ?_⟩
  all_goals simp only [hmem, forall_eq_or_imp, exists_eq_or_imp]
  · exact ⟨hid, h.numbered⟩
  · exact ⟨by rw [hprev, h.numbered _ hpm, hnum], h.numbered_previous⟩
  · refine ⟨.inl (.inr ⟨_, hpm, hprev.symm⟩), fun b hb => (h.lowest b hb).imp .inr fun hlow => ?_⟩
    exact ⟨by have := hlow _ hpm; omega, hlow⟩
  · exact ⟨by omega, h.le⟩
  · refine ⟨⟨fun _ => le_rfl, fun q hq hqid => ?_⟩, fun b hb => ⟨fun heq => ?_, h.parent_le b hb⟩⟩
    · rw [eq_of_key_eq h.nodup hq hpm (hqid.trans hprev), hbft]
    · exact absurd heq (hnew b hb)

theorem withoutLevel (h : db.BftOrdered) (ho : o.toBlockHeaderState ∈ db.headers)
    (hold : ∀ b ∈ db.headers, o.blockNum ≤ b.blockNum) : (db.withoutLevel o).BftOrdered := by
  have hmem (s : BlockHeaderState) : s ∈ (db.withoutLevel o).headers ↔
      (s ∈ db.headers ∧ s.id ≠ o.id) ∧ ∀ x ∈ db.headers, x.id ≠ o.id → x.blockNum = o.blockNum →
        ¬ Descends (without (·.id) o.id db.headers) x.id s := by
    rw [Controller.headers_withoutLevel]
    exact Tree.mem_pruned h.nodup
  have hsub : ∀ s ∈ (db.withoutLevel o).headers, s ∈ db.headers := fun s hs => ((hmem s).mp hs).1.1
  have hlt : ∀ s ∈ (db.withoutLevel o).headers, o.blockNum < s.blockNum := by
    rw [Controller.headers_withoutLevel]
    exact fun s => Tree.lt_of_mem_pruned h.nodup hold
  refine ⟨h.toWellFormed.withoutLevel o, fun b hb => h.numbered b (hsub b hb),
    fun b hb => h.numbered_previous b (hsub b hb), fun b hb => ?_, fun b hb => h.le b (hsub b hb),
    fun b hb p hp => h.parent_le b (hsub b hb) p (hsub p hp)⟩
  obtain ⟨⟨hbm, hbo⟩, hkept⟩ := (hmem b).mp hb
  rcases h.lowest b hbm with ⟨p, hp, hid⟩ | hlow
  · by_cases hpo : p.id = o.id
    · refine .inr fun a ha => ?_
      have := hlt a ha
      have := h.num_of_parent hbm hp hid
      rw [eq_of_key_eq h.nodup hp ho hpo] at this
      omega
    · refine .inl ⟨p, (hmem p).mpr ⟨⟨hp, hpo⟩, fun x hx hxo hnum hdesc => ?_⟩, hid⟩
      exact hkept x hx hxo hnum (.child (mem_without.mpr ⟨hbm, hbo⟩) hdesc hid.symm)
  · have h₁ := hlt b hb
    have h₂ := hlow _ ho
    omega

theorem lost (db : ForkDatabase) : db.lost.BftOrdered :=
  ⟨⟨List.nodup_nil, List.Pairwise.nil⟩, List.forall_mem_nil _, List.forall_mem_nil _,
    List.forall_mem_nil _, List.forall_mem_nil _, List.forall_mem_nil _⟩

/-! ## The spread of a number -/

variable (h : db.BftOrdered)
include h

theorem num_le_of_reached (hb : b ∈ db.index) (hx : Reached db num b.id x) :
    b.blockNum ≤ x.blockNum := by
  induction hx with
  | self hx hid => rw [eq_of_key_eq (nodup_index h.nodup) hx hb hid]
  | next ha hx hprev _ ih =>
    rw [h.num_of_parent (mem_headers hx) (mem_headers ha.mem) hprev.symm]
    exact ih.trans (Nat.le_succ _)

omit h in
theorem below_of_reached (hx : Reached db num b.id x) :
    Below (·.id) (·.header.previous) db.index b.id x := by
  induction hx with
  | self hx hid => exact .self hx hid
  | next _ hx hprev _ ih => exact .child hx ih hprev

theorem reached_or_le (hb : b ∈ db.index)
    (hx : Below (·.id) (·.header.previous) db.index b.id x) :
    Reached db num b.id x ∨ num ≤ x.bftIrreversibleBlocknum := by
  induction hx with
  | self hx hid => exact .inl (.self hx hid)
  | link hx hprev =>
    exact (lt_or_ge _ num).imp_left fun hlt => .next (.self hb rfl) hx hprev hlt
  | @child a x hx ha hprev ih =>
    refine (lt_or_ge _ num).imp_left fun hlt => ?_
    rcases ih with hreach | hle
    · exact .next hreach hx hprev hlt
    · exact absurd hlt (not_lt.mpr
        (hle.trans (h.parent_le _ (mem_headers hx) _ (mem_headers ha.mem) hprev.symm)))

theorem setBftIrreversible_spread (hb : b ∈ db.index) :
    ∃ g : BlockState → BlockState, (db.setBftIrreversible b.id).index = db.index.map g ∧
      ∀ x ∈ db.index, (g x).id = x.id ∧
        (Below (·.id) (·.header.previous) db.index b.id x →
          b.blockNum ≤ (g x).bftIrreversibleBlocknum) ∧
        (¬ Below (·.id) (·.header.previous) db.index b.id x → g x = x) := by
  obtain ⟨R, ⟨-, g, hindex, hg⟩, hR⟩ :=
    setBftIrreversible_raised (nodup_index h.nodup) (getBlock_of_mem h.nodup hb)
  refine ⟨g, hindex, fun x hx => ?_⟩
  by_cases hin : x.id ∈ R
  · obtain ⟨k, hk⟩ := (hg x).1 hin
    rw [hk]
    exact ⟨rfl, fun _ => le_rfl, fun hnot => absurd (below_of_reached ((hR x hx).mp hin)) hnot⟩
  · rw [(hg x).2 hin]
    refine ⟨rfl, fun hbelow => ?_, fun _ => rfl⟩
    exact (h.reached_or_le hb hbelow).resolve_left fun hreach => hin ((hR x hx).mpr hreach)

theorem setBftIrreversible (hb : b ∈ db.index) : (db.setBftIrreversible b.id).BftOrdered := by
  obtain ⟨R, hraised, hR⟩ :=
    setBftIrreversible_raised (nodup_index h.nodup) (getBlock_of_mem h.nodup hb)
  have hone {a x : BlockState} (ha : a ∈ db.index) (hx : x ∈ db.index) (hid : a.id = x.id) :
      a = x :=
    eq_of_key_eq (nodup_index h.nodup) ha hx hid
  refine h.of_map_eq (hraised.wellFormed h.toWellFormed) (hraised.map_eq _ fun _ _ => rfl)
    (fun y hy => ?_) fun y hy p hp hid => ?_
  · obtain ⟨x, hx, ⟨hin, k, rfl⟩ | ⟨-, rfl⟩⟩ := hraised.exists_of_mem hy
    · show b.blockNum ≤ x.blockNum
      exact h.num_le_of_reached hb ((hR x hx).mp hin)
    · exact h.le _ (mem_headers hx)
  · obtain ⟨x, hx, hy⟩ := hraised.exists_of_mem hy
    obtain ⟨w, hw, hp⟩ := hraised.exists_of_mem hp
    have hold (hid : w.id = x.header.previous) :=
      h.parent_le _ (mem_headers hx) _ (mem_headers hw) hid
    rcases hp with ⟨hwin, l, rfl⟩ | ⟨hwout, rfl⟩
    · rcases hy with ⟨-, k, rfl⟩ | ⟨hout, rfl⟩
      · exact le_rfl
      · refine not_lt.mp fun hlt => hout ((hR _ hx).mpr ?_)
        exact .next ((hR w hw).mp hwin) hx hid.symm hlt
    · rcases hy with ⟨hin, k, rfl⟩ | ⟨-, rfl⟩
      · cases (hR x hx).mp hin with
        | self _ hxb =>
          obtain rfl := hone hx hb hxb
          exact (hold hid).trans (h.le _ (mem_headers hx))
        | next ha _ hprev _ =>
          obtain rfl := hone ha.mem hw (hprev.symm.trans hid.symm)
          exact absurd ((hR _ hw).mpr ha) hwout
      · exact hold hid

theorem addConfirmation {c : Crypto} {conf : HeaderConfirmation}
    (hconf : db.addConfirmation c conf = .ok db') : db'.BftOrdered := by
  obtain ⟨b, db₁, hb, hc, rfl⟩ := addConfirmation_eq_ok h.toWellFormed hconf
  have hold {y : BlockState} (hy : y ∈ db₁.index) : ∃ x ∈ db.index, x.id = y.id ∧
      x.header.previous = y.header.previous ∧ x.blockNum = y.blockNum ∧
      x.bftIrreversibleBlocknum = y.bftIrreversibleBlocknum := by
    obtain ⟨x, hx, hxy⟩ := hc.symm.exists_mem hy
    simp only [unconfirmed, BlockState.mk.injEq, BlockHeaderState.mk.injEq] at hxy
    exact ⟨x, hx, by simp [hxy]⟩
  have h₁ : db₁.BftOrdered := by
    refine h.of_map_eq (hc.wellFormed h.toWellFormed) ?_ (fun y hy => ?_) fun y hy p hp hid => ?_
    · have := congrArg (List.map fun b : BlockState => (b.id, b.header.previous, b.blockNum))
        hc.index
      rwa [List.map_map, List.map_map] at this
    · obtain ⟨x, hx, -, -, hnum, hbft⟩ := hold hy
      rw [← hnum, ← hbft]
      exact h.le _ (mem_headers hx)
    · obtain ⟨x, hx, -, hprev, -, hbft⟩ := hold hy
      obtain ⟨w, hw, hwid, -, -, hwbft⟩ := hold hp
      rw [← hbft, ← hwbft]
      exact h.parent_le _ (mem_headers hx) _ (mem_headers hw) (hwid.trans (hid.trans hprev.symm))
  split_ifs
  · obtain ⟨hmem, hid⟩ := getBlock_eq_some hb
    obtain ⟨b₁, hb₁, hbb₁⟩ := hc.exists_mem hmem
    rw [← hid, ← Confirmed.field_eq (·.id) (fun _ => rfl) hbb₁]
    exact h₁.setBftIrreversible hb₁
  · exact h₁

end BftOrdered

end ForkDatabase

namespace ForkOperation

open ForkDatabase Attempt

variable {σ : Type} {c : Crypto} {ctl : Controller σ}

/-- The operation adds the block state of a received block, whose signature may have been checked or
not, or a confirmation. -/
def Received (c : Crypto) (ctl : Controller σ) : ForkOperation σ → Prop
  | add e n _ => (∃ skip, ctl.forkDb.createBlockState c e.block skip = .ok n) ∧
    numFromId e.block.previous + 1 < 2 ^ 32
  | addConfirmation _ => True
  | remove _ | setValidity _ _ => False

theorem exec_bftOrdered {op : ForkOperation σ} (hop : op.Received c ctl)
    (h : ctl.forkDb.BftOrdered) : (op.exec c ctl).2.forkDb.BftOrdered := by
  cases op with
  | add e n skip =>
    rw [exec, Controller.add, read_bind]
    cases hins : ctl.forkDb.insertBlock n skip with
    | error =>
      rw [lift_bind_of_error rfl]
      exact h
    | ok db =>
      obtain ⟨⟨trusted, hn⟩, hwrap⟩ := hop
      have hdb : db.BftOrdered := h.insertBlock hn hwrap hins
      rw [lift_bind_of_ok rfl, Controller.updateForkDb, update_bind]
      cases hprune : db.toPrune with
      | none => exact hdb
      | some o =>
        obtain ⟨hfirst, -⟩ := toPrune_eq_some hprune
        have hsame := Controller.emitIrreversible_sameChoice e o { ctl with forkDb := db }
        dsimp only
        rw [Controller.prune_of_oldest hfirst]
        rcases Controller.pruneLevel_cases e { ctl with forkDb := db } hdb.toWellFormed hfirst with
          ⟨msg, -, herr⟩ | ⟨ctl₁, hemit, ⟨-, hok⟩ | ⟨-, msg, herr⟩⟩
        · rw [herr]
          exact hdb.of_sameHeaders hsame.toSameHeaders
        · rw [hemit] at hsame
          have hold := hdb.sorted.first_le hfirst
          have ho := mem_headers (List.mem_of_mem_head? hfirst)
          rw [hok]
          exact (hdb.of_sameHeaders hsame.toSameHeaders).withoutLevel
            (hsame.perm.mem_iff.mpr ho) fun b hb => hold b (hsame.perm.mem_iff.mp hb)
        · rw [herr]
          exact BftOrdered.lost _
  | addConfirmation conf =>
    rw [exec, read_bind]
    cases hconf : ctl.forkDb.addConfirmation c conf with
    | error =>
      rw [lift_bind_of_error rfl]
      exact h
    | ok =>
      rw [lift_bind_of_ok rfl]
      exact h.addConfirmation hconf
  | remove | setValidity => exact hop.elim

def receive (ctl : Controller Unit) (b : BlockHeaderState) : ForkOperation Unit :=
  add { block := b.header, applyBlock := fun _ _ => .ok () }
    ((ctl.forkDb.createBlockState toyCrypto b.header false).toOption.getD {}) true

theorem received_receive {ctl : Controller Unit} {b : BlockHeaderState}
    (h : (ctl.forkDb.createBlockState toyCrypto b.header false).isOk = true ∧
      numFromId b.header.previous + 1 < 2 ^ 32) : (receive ctl b).Received toyCrypto ctl := by
  refine ⟨⟨false, ?_⟩, h.2⟩
  have hok := h.1
  show ctl.forkDb.createBlockState toyCrypto b.header false = .ok (Option.getD _ _)
  cases hn : ctl.forkDb.createBlockState toyCrypto b.header false with
  | error =>
    rw [hn] at hok
    cases hok
  | ok => rfl

def firstBlock : BlockHeaderState := (oneProducerNode.head.turn 12 0).toOption.getD {}

def secondBlock : BlockHeaderState := (firstBlock.turn 13 0).toOption.getD {}

def firstReceived : Controller Unit :=
  advance (step toyCrypto) (receive oneProducerNode firstBlock) oneProducerNode

/-- Two blocks, one on the other, and the producer's confirmation of the lower one. The second block
makes the first irreversible, and the block they build on leaves the index. -/
def confirmedRun : List (ForkOperation Unit) :=
  [receive oneProducerNode firstBlock, receive firstReceived secondBlock,
    addConfirmation ⟨firstBlock.id, 1, firstBlock.sigDigest toyCrypto + 7⟩]

def lastNumbered : BlockHeaderState :=
  { oneProducerNode.head with
    id := 2 ^ 32 - 1
    blockNum := 2 ^ 32 - 1
    bftIrreversibleBlocknum := 1
    header := { oneProducerNode.head.header with previous := 0xFEFFFFFF } }

end ForkOperation

end BaccChain
