import BaccChain.Chain.BlockHeaderSpec

/-!
# Producers and validators agree on header states

A producer builds the header state of its block from parts as the block fills; a validator computes
it from the signed header alone.

## Main results

* `next_header_of_produce`: both come to the same state
-/

namespace BaccChain

open Commons

namespace BlockHeaderState

variable {c : Crypto} {s p : BlockHeaderState} {when confirmed : Nat}

theorem startBlock_eq_ok {proposed : Option (Nat × ProducerSchedule)}
    (h : s.startBlock c when confirmed proposed = .ok p) :
    ∃ g newProducers, s.generateNext c when = .ok g ∧
      (g.setConfirmed confirmed).maybePromotePending.1.adoptNewProducers c
        (g.setConfirmed confirmed).maybePromotePending.2 newProducers = .ok p ∧
      p.header = { g.header with confirmed := confirmed, newProducers := newProducers } := by
  simp only [startBlock, bind_eq_ok] at h
  obtain ⟨g, hg, h⟩ := h
  have hnone : g.header.newProducers = none := by
    obtain ⟨t, prokey, merkle, -, -, -, rfl⟩ := generateNext_eq_ok.mp hg
    rfl
  have hkeep : (g.setConfirmed confirmed).maybePromotePending.1.header =
      { g.header with confirmed := confirmed, newProducers := none } := by
    rw [maybePromotePending_header, setConfirmed_header, ← hnone]
  cases proposed with
  | none =>
    obtain rfl := pure_eq_ok.mp h
    exact ⟨g, none, hg, adoptNewProducers_eq_ok.mpr (Or.inl ⟨rfl, rfl⟩), hkeep⟩
  | some pr =>
    obtain ⟨num, schedule⟩ := pr
    dsimp only at h
    split_ifs at h with hroom
    · refine ⟨g, some schedule, hg, ?_, ?_⟩
      · exact adoptNewProducers_eq_ok.mpr (Or.inr ⟨schedule, rfl, hroom.2.2, h⟩)
      · rw [setNewProducers_header h, hkeep]
    · obtain rfl := pure_eq_ok.mp h
      exact ⟨g, none, hg, adoptNewProducers_eq_ok.mpr (Or.inl ⟨rfl, rfl⟩), hkeep⟩

@[simp] theorem complete_header (actionMroot transactionMroot : Digest) (sig : Signature) :
    (p.complete c actionMroot transactionMroot sig).header = { p.header with
      actionMroot := actionMroot
      transactionMroot := transactionMroot
      producerSignature := sig } := rfl

theorem complete_eq (actionMroot transactionMroot : Digest) (sig : Signature) :
    p.complete c actionMroot transactionMroot sig =
      { p.finalizeBlock c actionMroot transactionMroot with header.producerSignature := sig } := by
  cases p
  rfl

variable {signer : Digest → Signature} {q : BlockHeaderState}

theorem sign_eq_ok (h : p.sign c signer = .ok q) :
    ∃ sig, q = { p with header.producerSignature := sig } ∧
      c.recover sig (p.sigDigest c) = .ok q.blockSigningKey := by
  simp only [sign, ok_iff] at h
  obtain ⟨key, hkey, hsig, rfl⟩ := h
  exact ⟨_, rfl, hkey.trans (congrArg Except.ok hsig.symm)⟩

theorem sign_finalizeBlock_eq_ok {actionMroot transactionMroot : Digest}
    (h : (p.finalizeBlock c actionMroot transactionMroot).sign c signer = .ok q) :
    ∃ sig, q = p.complete c actionMroot transactionMroot sig ∧
      q.signee c = .ok q.blockSigningKey := by
  obtain ⟨sig, hq, hrecover⟩ := sign_eq_ok h
  rw [← complete_eq] at hq
  refine ⟨sig, hq, ?_⟩
  have hdigest : (p.complete c actionMroot transactionMroot sig).sigDigest c =
      (p.finalizeBlock c actionMroot transactionMroot).sigDigest c := by
    unfold sigDigest
    rfl
  have hsig : q.header.producerSignature = sig := by rw [hq]; rfl
  rw [signee, hsig]
  nth_rewrite 1 [hq]
  rw [hdigest, hrecover]

/-- **The producer's state is the validator's state**: a header built on `s` for a later time, whose
confirmations pass the check for double confirmations, is accepted by `next`, and the state `next`
arrives at is the one the producer has built. -/
theorem next_header_of_produce (c : Crypto) (s p : BlockHeaderState) (when confirmed : Nat)
    (proposed : Option (Nat × ProducerSchedule)) (actionMroot transactionMroot : Digest)
    (signer : Digest → Signature) (skipValidateSignee : Bool) (hwhen : s.header.timestamp < when)
    (hp : s.produce c when confirmed proposed actionMroot transactionMroot signer = .ok p)
    (hconfirmed : s.checkDoubleConfirm p.blockNum p.header = .ok ()) :
    s.next c p.header skipValidateSignee = .ok p := by
  obtain ⟨r, hr, hsign⟩ := bind_eq_ok.mp hp
  obtain ⟨g, newProducers, hg, hadopt, hheader⟩ := startBlock_eq_ok hr
  obtain ⟨sig, rfl, hsignee⟩ := sign_finalizeBlock_eq_ok hsign
  have hnum : r.blockNum = g.blockNum := by
    rw [adoptNewProducers_blockNum hadopt, maybePromotePending_blockNum, setConfirmed_blockNum]
  obtain ⟨t, prokey, merkle, htime, -, -, htemplate⟩ := generateNext_eq_ok.mp hg
  obtain rfl : t = when := by
    rcases nextTime_eq_ok.mp htime with ⟨-, -, rfl⟩ | ⟨rfl, -⟩
    · rfl
    · exact absurd hwhen (Nat.not_lt_zero _)
  have htemp : g.header.timestamp = t ∧ g.header.previous = s.id ∧
      g.header.headerExtensions = [] := by
    rw [htemplate]
    exact ⟨rfl, rfl, rfl⟩
  generalize hh : (r.complete c actionMroot transactionMroot sig).header = h at hconfirmed ⊢
  rw [complete_header, hheader] at hh
  have hts : h.timestamp = t := by rw [← hh]; exact htemp.1
  have hprev : h.previous = s.id := by rw [← hh]; exact htemp.2.1
  have hext : h.headerExtensions = [] := by rw [← hh]; exact htemp.2.2
  have hproducer : g.header.producer = h.producer := by rw [← hh]
  have hversion : g.header.scheduleVersion = h.scheduleVersion := by rw [← hh]
  have hconf : h.confirmed = confirmed := by rw [← hh]
  have hnew : h.newProducers = newProducers := by rw [← hh]
  have hroots : h.actionMroot = actionMroot ∧ h.transactionMroot = transactionMroot ∧
      h.producerSignature = sig := by
    rw [← hh]
    exact ⟨rfl, rfl, rfl⟩
  refine next_eq_ok.mpr ⟨?_, hext, hts ▸ hwhen, hprev, g, hts ▸ hg, hproducer, hversion, ?_, r, ?_,
    ?_, fun _ => hsignee⟩
  · rw [hts]
    exact (Nat.zero_lt_of_lt hwhen).ne'
  · rw [← hnum]
    exact hconfirmed
  · rw [hconf, hnew]
    exact hadopt
  · rw [hroots.1, hroots.2.1, hroots.2.2]

theorem next_header_of_produce_genesis :
    ∃ p, (genesis toyCrypto ⟨0, [⟨1, 7⟩]⟩ 10 5).produce toyCrypto 11 0 none 3 4 (· + 7) = .ok p ∧
      (genesis toyCrypto ⟨0, [⟨1, 7⟩]⟩ 10 5).next toyCrypto p.header false = .ok p := by
  obtain ⟨p, hp, -⟩ := exists_ok_of_any (p := fun _ => true) (x := (genesis toyCrypto
    ⟨0, [⟨1, 7⟩]⟩ 10 5).produce toyCrypto 11 0 none 3 4 (· + 7)) (by decide +kernel)
  exact ⟨p, hp, next_header_of_produce toyCrypto _ p 11 0 none 3 4 (· + 7) false (by decide) hp rfl⟩

end BlockHeaderState

end BaccChain
