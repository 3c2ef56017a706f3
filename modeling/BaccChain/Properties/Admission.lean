import BaccChain.Chain.BlockBuildingSpec
import BaccChain.Properties.HeaderPath
import Mathlib.Data.List.TakeWhile

/-!
# Which transactions a block admits

The index of recent transactions keeps the id of every transaction until it expires, so that it is
not applied twice.

## Main definitions

* `Remembers`: transactions are known until they expire
* `Summarized`: the ring of recent block ids

## Main results

* `no_replay`: no transaction is applied twice
* `tapos_block`: the block that a transaction refers to
* `tapos_slot_zero`: references to no block
-/

namespace BaccChain

open Commons

/-! ## Recent transactions -/

def Tip.applied (t : Tip) : List Digest := t.blocks.flatMap (·.transactions)

/-- Ids that have been applied are in the index, or the transactions have expired, and the index has
the expirations of the transactions. -/
structure Remembers (trxId : Transaction → Digest) (U : List Transaction) (now : Nat)
    (applied : List Digest) (index : List TransactionObject) : Prop where
  nodup : applied.Nodup
  known : ∀ trx ∈ U, trxId trx ∈ applied →
    (∃ e ∈ index, e.trxId = trxId trx) ∨ expirationTime trx.expiration < now
  expirations : ∀ e ∈ index, ∀ trx ∈ U, trxId trx = e.trxId → trx.expiration = e.expiration

namespace Remembers

variable {trxId : Transaction → Digest} {U : List Transaction} {now now' : Nat}
  {applied : List Digest} {index : List TransactionObject}

theorem mono (h : Remembers trxId U now applied index) (hle : now ≤ now') :
    Remembers trxId U now' applied index :=
  ⟨h.nodup, fun trx ht hid => (h.known trx ht hid).imp id fun hlt => hlt.trans_le hle,
    h.expirations⟩

theorem clear (h : Remembers trxId U now applied index) :
    Remembers trxId U now applied (clearExpiredInputTransactions now index) := by
  have hsub : ∀ e ∈ clearExpiredInputTransactions now index, e ∈ index := fun e he =>
    (List.dropWhile_suffix _).subset he
  refine ⟨h.nodup, fun trx ht hid => ?_, fun e he => h.expirations e (hsub e he)⟩
  rcases h.known trx ht hid with ⟨e, he, heq⟩ | hlt
  · rw [← List.takeWhile_append_dropWhile (p := fun t => decide (expirationTime t.expiration < now))
      (l := index), List.mem_append] at he
    rcases he with he | he
    · right
      have hexp := List.mem_takeWhile_imp he
      rw [h.expirations e ((List.takeWhile_prefix _).subset he) trx ht heq.symm]
      exact of_decide_eq_true hexp
    · exact Or.inl ⟨e, he, heq⟩
  · exact Or.inr hlt

theorem record (hU : ∀ trx ∈ U, ∀ trx' ∈ U, trxId trx = trxId trx' →
      trx.expiration = trx'.expiration) (h : Remembers trxId U now applied index)
    {trx : Transaction} (ht : trx ∈ U) (hnow : now ≤ expirationTime trx.expiration)
    {index' : List TransactionObject}
    (hrec : recordTransaction (trxId trx) trx.expiration index = .ok index') :
    Remembers trxId U now (trxId trx :: applied) index' := by
  simp only [recordTransaction, ok_iff] at hrec
  obtain ⟨hfresh, rfl⟩ := hrec
  have hmem : ∀ e, e ∈ index.orderedInsert (fun t t' => t.expiration < t'.expiration)
      ⟨trxId trx, trx.expiration⟩ ↔ e = ⟨trxId trx, trx.expiration⟩ ∨ e ∈ index := fun e =>
    List.mem_orderedInsert _
  refine ⟨List.nodup_cons.mpr ⟨fun hid => ?_, h.nodup⟩, fun trx' ht' hid => ?_, fun e he => ?_⟩
  · rcases h.known trx ht hid with ⟨e, he, heq⟩ | hlt
    · exact hfresh e he heq
    · exact absurd hnow (Nat.not_le_of_lt hlt)
  · rcases List.mem_cons.mp hid with heq | hid
    · exact Or.inl ⟨_, (hmem _).mpr (Or.inl rfl), heq.symm⟩
    · refine (h.known trx' ht' hid).imp ?_ id
      rintro ⟨e, he, heq⟩
      exact ⟨e, (hmem e).mpr (Or.inr he), heq⟩
  · rcases (hmem e).mp he with rfl | he
    · exact fun trx' ht' heq => hU trx' ht' trx ht heq
    · exact h.expirations e he

end Remembers

def BuilderEvent.pushed : BuilderEvent → Option Transaction
  | .pushTransaction trx _ => some trx
  | _ => none

namespace BlockBuilder

variable {c : Crypto} {trxId : Transaction → Digest}

/-- The transactions of the chain and the pending block. -/
def applied (n : BlockBuilder) : List Digest :=
  n.pending.elim [] (·.transactions) ++ n.tip.applied

/-- Blocks are started at growing times. -/
def Increasing (c : Crypto) (n : BlockBuilder) : BuilderEvent → Prop
  | .startBlock when confirmed incomplete _ =>
    ∀ p, n.tip.head.startBlock c when confirmed (n.proposal incomplete) = .ok p →
      n.tip.head.header.timestamp < p.header.timestamp
  | _ => True

instance (n : BlockBuilder) : (e : BuilderEvent) → Decidable (Increasing c n e)
  | .startBlock _ _ _ _ => decidableForallOk
  | .pushTransaction _ _ | .pushScheduledTransaction _ | .commitBlock _ _ _ | .abortBlock
  | .popBlock => inferInstanceAs (Decidable True)

theorem blockTime_mono {a b : Nat} (h : a ≤ b) : blockTime a ≤ blockTime b :=
  Nat.add_le_add_right (Nat.mul_le_mul_right _ h) _

theorem building_remembers {U : List Transaction} (hU : ∀ trx ∈ U, ∀ trx' ∈ U,
    trxId trx = trxId trx' → trx.expiration = trx'.expiration) :
    Building c trxId (fun n e => Increasing c n e ∧ ∀ trx, e.pushed = some trx → trx ∈ U)
      (fun t => Remembers trxId U (blockTime t.head.header.timestamp) t.applied t.db.transactions)
      (fun t p => Remembers trxId U (blockTime p.blockState.header.timestamp)
        (p.transactions ++ t.applied) p.db.transactions) where
  start := by
    intro n when confirmed incomplete onblock p he ht hp
    have hlater := ht.mono (blockTime_mono (he.1 p hp).le)
    show Remembers _ _ _ n.tip.applied _
    rw [(n.opened_frame incomplete p onblock).1]
    split_ifs
    · exact hlater.clear
    · exact hlater
  input := by
    intro n p trx x s he _ hp hx
    obtain ⟨transactions, hinit, hx⟩ := inputTransaction_eq_ok hx
    obtain ⟨hexp, -, hrec⟩ := initForInputTrx_eq_ok.mp hinit
    simp only [validateExpiration, ok_iff] at hexp
    have h := hp.record hU (he.2 trx rfl) hexp.1 hrec
    have hframe := Execution.of_exec hx (fun call => call.exec_frame _ _) ⟨rfl, rfl⟩
    show Remembers _ _ _ _ s.db.transactions
    rw [hframe.1]
    exact h
  scheduled := by
    intro n p x s _ _ hp hx
    have hframe := Execution.of_exec hx (fun call => call.exec_frame _ _) ⟨rfl, rfl⟩
    show Remembers _ _ _ _ s.db.transactions
    rw [hframe.1]
    exact hp
  commit := fun _ hp => hp

/-- **No replay.** In every run from genesis whose blocks have increasing timestamps, and in which
transactions with one id have one expiration, no id is applied twice as an input transaction. The
maximum lifetime of transactions, which the calls of transactions may change, has no part in
this. -/
theorem no_replay (c : Crypto) (trxId : Transaction → Digest) (producers : List ProducerKey)
    (initialTimestamp : Nat) (chainId : Digest) (speculative : Bool)
    (conf : Lists (FlatSet Name)) (configDb : ConfigDb) (maxTransactionLifetime : Nat)
    (l : List BuilderEvent)
    (hid : ∀ trx ∈ l.filterMap BuilderEvent.pushed, ∀ trx' ∈ l.filterMap BuilderEvent.pushed,
      trxId trx = trxId trx' → trx.expiration = trx'.expiration)
    (htime : Along (step c trxId) (Increasing c) (genesis c producers initialTimestamp chainId
      speculative conf configDb maxTransactionLifetime) l) :
    (run (step c trxId) (genesis c producers initialTimestamp chainId speculative conf configDb
      maxTransactionLifetime) l).applied.Nodup := by
  have hpushed : Along (step c trxId)
      (fun _ e => ∀ trx, e.pushed = some trx → trx ∈ l.filterMap BuilderEvent.pushed)
      (genesis c producers initialTimestamp chainId speculative conf configDb
        maxTransactionLifetime) l :=
    along_of_forall fun e he trx htrx => List.mem_filterMap.mpr ⟨e, he, htrx⟩
  have h := (building_remembers hid).run (holds_genesis ?_) (htime.and hpushed)
  · unfold applied
    cases hp : (run (step c trxId) (genesis c producers initialTimestamp chainId speculative conf
        configDb maxTransactionLifetime) l).pending with
    | none => exact h.tip.nodup
    | some p => exact (h.pending p hp).nodup
  · refine ⟨List.nodup_nil, fun trx _ hid => ?_, fun e he => ?_⟩
    · cases hid
    · cases he

/-- A transaction is pushed twice in one block and once in the next, and applied once. -/
theorem no_replay_twice :
    let trx : Transaction := ⟨946684810, 1, 0, []⟩
    let l : List BuilderEvent := [.startBlock 0 0 false {}, .pushTransaction trx {},
      .pushTransaction trx {}, .commitBlock 0 0 0, .startBlock 0 0 false {},
      .pushTransaction trx {}]
    (run (step toyCrypto (·.expiration.toNat)) toyGenesis l).applied = [946684810] ∧
      (run (step toyCrypto (·.expiration.toNat)) toyGenesis l).applied.Nodup := by
  refine ⟨by decide +kernel, no_replay toyCrypto (·.expiration.toNat) _ _ _ _ _ _ _ _ ?_ ?_⟩
  · decide
  · decide +kernel

end BlockBuilder

/-! ## Reference blocks -/

/-- The id of the block at a height. -/
def Tip.atHeight (t : Tip) (m : Nat) : Option BlockId :=
  if m = 0 then none else t.blocks.reverse[m - 1]?.map (·.state.id)

theorem Tip.atHeight_eq_some {t : Tip} {m : Nat} {id : BlockId} (h : t.atHeight m = some id) :
    1 ≤ m ∧ m ≤ t.blocks.length := by
  unfold Tip.atHeight at h
  split_ifs at h with hm
  obtain ⟨b, hb, -⟩ := Option.map_eq_some_iff.mp h
  obtain ⟨hlt, -⟩ := List.getElem?_eq_some_iff.mp hb
  rw [List.length_reverse] at hlt
  omega

theorem Tip.atHeight_cons (t t' : Tip) {b : ChainBlock} (h : t'.blocks = b :: t.blocks) (m : Nat) :
    t'.atHeight m = if m = t.blocks.length + 1 then some b.state.id else t.atHeight m := by
  unfold Tip.atHeight
  rw [h, List.reverse_cons]
  by_cases hm : m = 0
  · simp [hm]
  · by_cases hlast : m = t.blocks.length + 1
    · simp [hlast]
    · simp only [hm, hlast, if_false]
      rcases Nat.lt_or_ge (m - 1) t.blocks.length with hlt | hge
      · rw [List.getElem?_append_left (by simpa using hlt)]
      · have hout : ∀ l : List ChainBlock, l.length ≤ m - 1 → l[m - 1]? = none := fun l hl =>
          List.getElem?_eq_none hl
        rw [hout _ (by simp; omega), hout _ (by simpa using hge)]

/-- The ring of summaries at the tip of a chain: each slot has the id of the last block with its
number, or it is as it was made if there is no such block. -/
structure Summarized (t : Tip) : Prop where
  head : t.atHeight t.blocks.length = some t.head.id
  blockNum : t.head.blockNum = t.blocks.length % 2 ^ 32
  num : ∀ m id, t.atHeight m = some id → numFromId id = m % 2 ^ 32
  slot : ∀ k < 2 ^ 16, (∃ m, t.blocks.length < m + 2 ^ 16 ∧ m % 2 ^ 16 = k ∧
      t.atHeight m = some (t.db.blockSummaries k)) ∨
    (t.db.blockSummaries k = 0 ∧ ∀ m, m % 2 ^ 16 = k → t.atHeight m = none)

/-- A pending block is built on the tip, with its summaries. -/
structure SummarizedPending (t : Tip) (p : PendingBlock) : Prop where
  previous : p.blockState.header.previous = t.head.id
  blockNum : p.blockState.blockNum = add32 t.head.blockNum 1
  summaries : p.db.blockSummaries = t.db.blockSummaries

theorem Summarized.commit {c : Crypto} {t : Tip} {p : PendingBlock} (ht : Summarized t)
    (hp : SummarizedPending t p) (actionMroot transactionMroot : Digest) (signature : Signature) :
    Summarized (t.commit c p actionMroot transactionMroot signature) := by
  set t' := t.commit c p actionMroot transactionMroot signature with ht'
  have hcons (m : Nat) : t'.atHeight m = if m = t.blocks.length + 1 then some t'.head.id
      else t.atHeight m := Tip.atHeight_cons t t' rfl m
  have hlen : t'.blocks.length = t.blocks.length + 1 := rfl
  have hnum : numFromId t'.head.id = (t.blocks.length + 1) % 2 ^ 32 := by
    have hid : t'.head.id = BlockHeader.id c t'.head.header.toBlockHeader := rfl
    have hprev : t'.head.header.previous = t.head.id := hp.previous
    rw [hid, numFromId_id, BlockHeader.blockNum, hprev, ht.num _ _ ht.head, add32]
    omega
  have hslot : t'.db.blockSummaries =
      Function.update t.db.blockSummaries ((t.blocks.length + 1) % 2 ^ 16) t'.head.id := by
    have hsid : numFromId t'.head.id % 2 ^ 16 = (t.blocks.length + 1) % 2 ^ 16 := by omega
    rw [← hsid, ← hp.summaries]
    rfl
  refine ⟨?_, ?_, fun m id hm => ?_, fun k hk => ?_⟩
  · rw [hlen, hcons, if_pos rfl]
  · have hblockNum : t'.head.blockNum = add32 t.head.blockNum 1 := hp.blockNum
    rw [hblockNum, ht.blockNum, hlen, add32]
    omega
  · rw [hcons] at hm
    split_ifs at hm with hlast
    · rw [← Option.some.inj hm, hnum, hlast]
    · exact ht.num m id hm
  · rw [hslot, hlen]
    by_cases hlast : k = (t.blocks.length + 1) % 2 ^ 16
    · refine Or.inl ⟨t.blocks.length + 1, by omega, hlast.symm, ?_⟩
      rw [hcons, if_pos rfl, hlast, Function.update_self]
    · rw [Function.update_of_ne hlast]
      refine (ht.slot k hk).imp ?_ ?_
      · rintro ⟨m, hrecent, hmod, hm⟩
        have hne : m ≠ t.blocks.length + 1 := fun h => hlast (h ▸ hmod.symm)
        refine ⟨m, by omega, hmod, ?_⟩
        rw [hcons, if_neg hne]
        exact hm
      · rintro ⟨hzero, hnone⟩
        refine ⟨hzero, fun m hmod => ?_⟩
        have hne : m ≠ t.blocks.length + 1 := fun h => hlast (h ▸ hmod.symm)
        rw [hcons, if_neg hne]
        exact hnone m hmod

namespace BlockBuilder

theorem building_summarized (c : Crypto) (trxId : Transaction → Digest) :
    Building c trxId (fun _ _ => True) Summarized SummarizedPending where
  start := by
    intro n when confirmed incomplete onblock p _ _ hp
    obtain ⟨g, newProducers, hg, hadopt, hheader⟩ := BlockHeaderState.startBlock_eq_ok hp
    obtain ⟨time, prokey, merkle, -, -, -, rfl⟩ := BlockHeaderState.generateNext_eq_ok.mp hg
    refine ⟨?_, ?_, (n.opened_frame incomplete p onblock).2⟩
    · rw [hheader]
      rfl
    · rw [BlockHeaderState.adoptNewProducers_blockNum hadopt,
        BlockHeaderState.maybePromotePending_blockNum, BlockHeaderState.setConfirmed_blockNum]
      rfl
  input := by
    intro n p trx x s _ _ hp hx
    obtain ⟨transactions, -, hx⟩ := inputTransaction_eq_ok hx
    have hframe := Execution.of_exec hx (fun call => call.exec_frame _ _) ⟨rfl, rfl⟩
    exact ⟨hp.previous, hp.blockNum, hframe.2.trans hp.summaries⟩
  scheduled := by
    intro n p x s _ _ hp hx
    have hframe := Execution.of_exec hx (fun call => call.exec_frame _ _) ⟨rfl, rfl⟩
    exact ⟨hp.previous, hp.blockNum, hframe.2.trans hp.summaries⟩
  commit := fun ht hp => ht.commit hp _ _ _

theorem summarized_genesis (c : Crypto) (producers : List ProducerKey) (initialTimestamp : Nat)
    (chainId : Digest) (speculative : Bool) (conf : Lists (FlatSet Name)) (configDb : ConfigDb)
    (maxTransactionLifetime : Nat) :
    Summarized (genesis c producers initialTimestamp chainId speculative conf configDb
      maxTransactionLifetime).tip := by
  set t := (genesis c producers initialTimestamp chainId speculative conf configDb
    maxTransactionLifetime).tip with ht
  have hcons (m : Nat) : t.atHeight m = if m = 1 then some t.head.id else none := by
    have hempty : Tip.atHeight ⟨t.head, t.db, []⟩ m = none := by simp [Tip.atHeight]
    rw [Tip.atHeight_cons ⟨t.head, t.db, []⟩ t rfl m, hempty]
    rfl
  have hlen : t.blocks.length = 1 := rfl
  have hblockNum : t.head.header.blockNum = 1 := by
    have hprevious : t.head.header.previous = 0 := rfl
    rw [BlockHeader.blockNum, hprevious]
    decide
  have hnum : numFromId t.head.id = 1 := by
    have hid : t.head.id = BlockHeader.id c t.head.header.toBlockHeader := rfl
    rw [hid, numFromId_id, hblockNum]
  refine ⟨?_, hblockNum, fun m id hm => ?_, fun k _ => ?_⟩
  · rw [hlen, hcons, if_pos rfl]
  · rw [hcons] at hm
    split_ifs at hm with h
    rw [← Option.some.inj hm, hnum, h]
    rfl
  · by_cases h : k = 1
    · refine Or.inl ⟨1, by omega, h.symm, ?_⟩
      rw [hcons, if_pos rfl, h]
      rfl
    · have hzero : t.db.blockSummaries k = 0 := by
        have hring : t.db.blockSummaries = Function.update (fun _ => 0) 1 t.head.id := rfl
        rw [hring, Function.update_of_ne h]
      refine Or.inr ⟨hzero, fun m hmod => ?_⟩
      have hne : m ≠ 1 := by omega
      rw [hcons, if_neg hne]

theorem exists_pending_toyGenesis (refBlockNum : UInt16)
    (h : ((run (step toyCrypto (·.expiration.toNat)) toyGenesis
      [.startBlock 0 0 false {}]).pending.any fun p =>
        decide ((⟨946684810, refBlockNum, 0, []⟩ : Transaction).verifyReferenceBlock
          (p.db.blockSummaries refBlockNum.toNat))) = true) :
    ∃ p, (run (step toyCrypto (·.expiration.toNat)) toyGenesis
        [.startBlock 0 0 false {}]).pending = some p ∧
      validateTapos p.db.blockSummaries ⟨946684810, refBlockNum, 0, []⟩ = .ok () := by
  obtain ⟨p, hp, hverify⟩ := (Option.any_eq_true _ _).mp h
  exact ⟨p, hp, check_eq_ok.mpr (of_decide_eq_true hverify)⟩

/-- **TaPoS binds to the chain.** Let a run from genesis reach a state with a pending block, on a
head of height `n`. A transaction that passes the reference check there names a block of this chain:
one of the last `2^16` blocks up to the head, whose number has the low bits `refBlockNum` and whose
id has `refBlockPrefix` as the lower half of its second 64-bit word. The one exception is slot 0 of
the ring while no block has written it, which a transaction with two zeros matches. -/
theorem tapos_block (c : Crypto) (trxId : Transaction → Digest) (producers : List ProducerKey)
    (initialTimestamp : Nat) (chainId : Digest) (speculative : Bool)
    (conf : Lists (FlatSet Name)) (configDb : ConfigDb) (maxTransactionLifetime : Nat)
    (l : List BuilderEvent) (t : Tip) (p : PendingBlock) (trx : Transaction)
    (ht : (run (step c trxId) (genesis c producers initialTimestamp chainId speculative conf
      configDb maxTransactionLifetime) l).tip = t)
    (hp : (run (step c trxId) (genesis c producers initialTimestamp chainId speculative conf
      configDb maxTransactionLifetime) l).pending = some p)
    (htapos : validateTapos p.db.blockSummaries trx = .ok ()) :
    t.head.blockNum = t.blocks.length % 2 ^ 32 ∧
    ((∃ m id, 1 ≤ m ∧ m ≤ t.blocks.length ∧ t.blocks.length < m + 65536 ∧
        t.atHeight m = some id ∧ numFromId id = m % 2 ^ 32 ∧
        m % 65536 = trx.refBlockNum.toNat ∧ idPrefix id = trx.refBlockPrefix.toNat) ∨
      (t.blocks.length < 65536 ∧ trx.refBlockNum = 0 ∧ trx.refBlockPrefix = 0)) := by
  have h := (building_summarized c trxId).run (l := l) (holds_genesis (summarized_genesis c
    producers initialTimestamp chainId speculative conf configDb maxTransactionLifetime)) along_true
  have htip := h.tip
  have hpending := h.pending p hp
  rw [ht] at htip hpending
  rw [validateTapos, check_eq_ok, hpending.summaries] at htapos
  refine ⟨htip.blockNum, ?_⟩
  rcases htip.slot trx.refBlockNum.toNat trx.refBlockNum.toNat_lt with
    ⟨m, hrecent, hmod, hm⟩ | ⟨hzero, hnone⟩
  · obtain ⟨hpos, hle⟩ := Tip.atHeight_eq_some hm
    exact Or.inl ⟨m, _, hpos, hle, hrecent, hm, htip.num m _ hm, hmod, htapos.2.symm⟩
  · right
    obtain ⟨hnum, hprefix⟩ := htapos
    rw [hzero] at hnum hprefix
    have hslot : trx.refBlockNum = 0 := UInt16.toNat_inj.mp hnum
    refine ⟨?_, hslot, UInt32.toNat_inj.mp hprefix⟩
    by_contra hlong
    have hlast := hnone 65536 (by rw [hslot]; rfl)
    rw [Tip.atHeight, if_neg (by omega), Option.map_eq_none_iff, List.getElem?_eq_none_iff,
      List.length_reverse] at hlast
    omega

/-- The hash that tells blocks apart by their prefixes. -/
def wideCrypto : Crypto :=
  { toyCrypto with hashHeader := fun h => (h.timestamp * 2 ^ 8 + h.producer) * 2 ^ 64 }

/-- Two blocks after genesis, and a third one that is pending. -/
def threeBlocks : BlockBuilder :=
  run (step wideCrypto (·.expiration.toNat)) (genesis wideCrypto [⟨1, 7⟩] 10 5 true
      (fun _ => .empty) ⟨⟨fun _ => [], ⟨0, 1, 1⟩⟩, Table.empty, ⟨0, 1, 1⟩⟩ 3600)
    [.startBlock 0 0 false {}, .commitBlock 0 0 0, .startBlock 0 0 false {}, .commitBlock 0 0 0,
      .startBlock 0 0 false {}]

/-- A transaction that refers to the second block of the chain. -/
theorem tapos_block_threeBlocks :
    (∃ p, threeBlocks.pending = some p ∧
      validateTapos p.db.blockSummaries ⟨946684810, 2, 2817, []⟩ = .ok ()) ∧
    ∃ id, threeBlocks.tip.atHeight 2 = some id ∧ numFromId id = 2 ∧ idPrefix id = 2817 := by
  have hverify : (threeBlocks.pending.any fun p => decide ((⟨946684810, 2, 2817, []⟩ :
      Transaction).verifyReferenceBlock (p.db.blockSummaries 2))) = true := by
    decide +kernel
  obtain ⟨p, hp, hverify⟩ := (Option.any_eq_true _ _).mp hverify
  have htapos : validateTapos p.db.blockSummaries ⟨946684810, 2, 2817, []⟩ = .ok () :=
    check_eq_ok.mpr (of_decide_eq_true hverify)
  have hlength : threeBlocks.tip.blocks.length = 3 := by decide +kernel
  refine ⟨⟨p, hp, htapos⟩, ?_⟩
  obtain ⟨-, ⟨m, id, -, hle, -, hid, hnum, hmod, hprefix⟩ | ⟨-, hzero, -⟩⟩ :=
    tapos_block wideCrypto (·.expiration.toNat) _ _ _ _ _ _ _ _ threeBlocks.tip p
      ⟨946684810, 2, 2817, []⟩ rfl hp htapos
  · obtain rfl : m = 2 := by
      have hmod : m % 65536 = 2 := hmod
      omega
    exact ⟨id, hid, hnum, hprefix⟩
  · cases hzero

/-- While the first block after genesis is built, a transaction with two zeros passes, and no block
of the chain has a number that is a multiple of `2^16`; and one with the number of the genesis block
passes with a prefix that is not the second 32-bit word of any id of the chain. -/
theorem tapos_slot_zero :
    let n := run (step toyCrypto (·.expiration.toNat)) toyGenesis [.startBlock 0 0 false {}]
    (∃ p, n.pending = some p ∧
      validateTapos p.db.blockSummaries ⟨946684810, 0, 0, []⟩ = .ok () ∧
      ∀ m id, n.tip.atHeight m = some id → m % 65536 ≠ 0) ∧
    ∃ p, n.pending = some p ∧
      validateTapos p.db.blockSummaries ⟨946684810, 1, 0, []⟩ = .ok () ∧
      ∀ m id, n.tip.atHeight m = some id → id / 2 ^ 32 % 2 ^ 32 ≠ 0 := by
  intro n
  have hheight (m : Nat) (id : BlockId) (h : n.tip.atHeight m = some id) : m = 1 := by
    obtain ⟨hpos, hle⟩ := Tip.atHeight_eq_some h
    exact Nat.le_antisymm hle hpos
  obtain ⟨p, hp, htapos⟩ := exists_pending_toyGenesis 0 (by decide +kernel)
  obtain ⟨q, hq, htapos'⟩ := exists_pending_toyGenesis 1 (by decide +kernel)
  refine ⟨⟨p, hp, htapos, fun m id h => ?_⟩, q, hq, htapos', fun m id h => ?_⟩
  · rw [hheight m id h]
    decide
  · rw [hheight m id h] at h
    have hid : n.tip.atHeight 1 = some (2560 * 2 ^ 32 + 2 ^ 24) := by decide +kernel
    obtain rfl := Option.some.inj (h.symm.trans hid)
    decide

end BlockBuilder

end BaccChain
