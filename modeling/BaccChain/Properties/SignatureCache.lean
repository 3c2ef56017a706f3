import BaccChain.Chain.SignatureKeys

/-!
# When the cache of recovered keys is invisible

An entry of the cache is a key that some earlier call recovered, from its own digest, for a
transaction with the id that the entry has.

## Main definitions

* `SignatureCall.Invisible`: a call that the cache does not change

## Main results

* `cache_invisible`: when all calls are such
* `stale_key`: a key from the cache that is wrong
-/

namespace BaccChain

open Commons

variable {codec : SigningCodec} {trxId digest : Digest} {useCache : Bool} {sig : Signature}
  {cache : RecoveryCache} {k : CachedPubKey}

/-! ## What is put into the cache -/

namespace RecoveryCache

theorem mem_of_findBySig (h : cache.findBySig sig = some k) : k ∈ cache.entries ∧ k.sig = sig :=
  ⟨List.mem_of_find?_eq_some h, by simpa using List.find?_some h⟩

theorem mem_emplaceBack {k' : CachedPubKey} (h : k' ∈ (cache.emplaceBack k).entries) :
    k' ∈ cache.entries ∨ k' = k := by
  unfold emplaceBack at h
  split_ifs at h with hdup
  · exact .inl h
  · exact (List.mem_append.mp h).imp_right List.mem_singleton.mp

theorem mem_trim (h : k ∈ cache.trim.entries) : k ∈ cache.entries := by
  simp only [trim] at h
  exact List.mem_of_mem_drop h

end RecoveryCache

/-- The entry is a key that a call with this transaction id and this digest recovers from one of the
signatures. -/
def RecoveredBy (codec : SigningCodec) (trxId digest : Digest) (signatures : List Signature)
    (k : CachedPubKey) : Prop :=
  k.trxId = trxId ∧ k.sig ∈ signatures ∧ codec.recover k.sig digest = .ok k.pubKey

theorem recoverKey_cases (codec : SigningCodec) (trxId digest : Digest) (useCache : Bool)
    (sig : Signature) (cache : RecoveryCache) :
    (∃ k ∈ cache.entries, k.trxId = trxId ∧ k.sig = sig ∧
      recoverKey codec trxId digest useCache sig cache = (.ok k.pubKey, cache)) ∨
    (∃ e, codec.recover sig digest = .error e ∧
      recoverKey codec trxId digest useCache sig cache = (.error e, cache)) ∨
    ∃ recov, codec.recover sig digest = .ok recov ∧
      recoverKey codec trxId digest useCache sig cache =
        (.ok recov, if useCache then cache.emplaceBack ⟨trxId, recov, sig⟩ else cache) := by
  cases useCache with
  | false =>
    cases hrecov : codec.recover sig digest with
    | error e => exact .inr (.inl ⟨e, rfl, congrArg (·, cache) hrecov⟩)
    | ok recov => exact .inr (.inr ⟨recov, rfl, congrArg (·, cache) hrecov⟩)
  | true =>
    cases hfound : (cache.findBySig sig).filter (·.trxId = trxId) with
    | some k =>
      obtain ⟨hfind, htrx⟩ := Option.filter_eq_some_iff.mp hfound
      obtain ⟨hmem, hsig⟩ := RecoveryCache.mem_of_findBySig hfind
      refine .inl ⟨k, hmem, of_decide_eq_true htrx, hsig, ?_⟩
      rw [recoverKey, if_pos rfl, Attempt.read_bind, hfound]
      rfl
    | none =>
      have hmiss : recoverKey codec trxId digest true sig cache =
          (liftM (codec.recover sig digest) >>= fun recov => do
            Attempt.update (·.emplaceBack ⟨trxId, recov, sig⟩)
            pure recov : Attempt RecoveryCache PublicKey) cache := by
        rw [recoverKey, if_pos rfl, Attempt.read_bind, hfound]
      rw [hmiss]
      cases hrecov : codec.recover sig digest with
      | error e => exact .inr (.inl ⟨e, rfl, Attempt.lift_bind_of_error rfl⟩)
      | ok recov => exact .inr (.inr ⟨recov, rfl, Attempt.lift_bind_of_ok rfl⟩)

theorem recoverKey_mem (h : k ∈ (recoverKey codec trxId digest useCache sig cache).2.entries) :
    k ∈ cache.entries ∨ useCache = true ∧ RecoveredBy codec trxId digest [sig] k := by
  obtain ⟨_, -, -, -, hr⟩ | ⟨e, -, hr⟩ | ⟨recov, hrecov, hr⟩ :=
    recoverKey_cases codec trxId digest useCache sig cache
  · rw [hr] at h
    exact .inl h
  · rw [hr] at h
    exact .inl h
  · rw [hr] at h
    cases useCache with
    | false => exact .inl h
    | true =>
      rcases RecoveryCache.mem_emplaceBack h with h | rfl
      · exact .inl h
      · exact .inr ⟨rfl, rfl, List.mem_singleton.mpr rfl, hrecov⟩

variable {signatures : List Signature} {allowDuplicateKeys : Bool}

theorem collectKeys_mem {allowDuplicateKeys : Bool} {signatures : List Signature}
    {keys : FlatSet PublicKey}
    (h : k ∈ (collectKeys codec trxId digest allowDuplicateKeys useCache signatures keys
      cache).2.entries) :
    k ∈ cache.entries ∨ useCache = true ∧ RecoveredBy codec trxId digest signatures k := by
  induction signatures generalizing cache keys with
  | nil => exact .inl h
  | cons sig signatures ih =>
    have hone : ∀ {cache'}, k ∈ cache'.entries →
        (recoverKey codec trxId digest useCache sig cache).2 = cache' →
        k ∈ cache.entries ∨
          useCache = true ∧ RecoveredBy codec trxId digest (sig :: signatures) k := by
      rintro cache' hk rfl
      refine (recoverKey_mem hk).imp_right ?_
      rintro ⟨huse, htrx, hsig, hrecov⟩
      exact ⟨huse, htrx, List.mem_singleton.mp hsig ▸ List.mem_cons_self, hrecov⟩
    rw [collectKeys] at h
    rcases hr : recoverKey codec trxId digest useCache sig cache with ⟨_ | recov, cache'⟩
    · rw [Attempt.bind_of_error hr] at h
      exact hone h (congrArg Prod.snd hr)
    · rw [Attempt.bind_of_ok hr] at h
      split_ifs at h with hinsert
      · rcases ih h with hk | ⟨huse, htrx, hsig, hrecov⟩
        · exact hone hk (congrArg Prod.snd hr)
        · exact .inr ⟨huse, htrx, List.mem_cons_of_mem _ hsig, hrecov⟩
      · exact hone h (congrArg Prod.snd hr)

variable {c : SignatureCall}

theorem SignatureCall.getSignatureKeys_mem (h : k ∈ (c.getSignatureKeys codec cache).2.entries) :
    k ∈ cache.entries ∨
      c.useCache = true ∧ RecoveredBy codec (c.trxId codec) (c.digest codec) c.signatures k := by
  rw [getSignatureKeys] at h
  rcases hr : collectKeys codec (c.trxId codec) (c.digest codec) c.allowDuplicateKeys c.useCache
    c.signatures FlatSet.empty cache with ⟨_ | keys, cache'⟩
  · rw [Attempt.bind_of_error hr] at h
    exact collectKeys_mem (by rw [hr]; exact h)
  · rw [Attempt.bind_of_ok hr] at h
    have hmem : k ∈ (if c.useCache then cache'.trim else cache').entries := h
    have hmem' : k ∈ cache'.entries := by
      split_ifs at hmem
      · exact RecoveryCache.mem_trim hmem
      · exact hmem
    exact collectKeys_mem (by rw [hr]; exact hmem')

def Derived (codec : SigningCodec) (calls : List SignatureCall) (cache : RecoveryCache) : Prop :=
  ∀ k ∈ cache.entries, ∃ c ∈ calls, c.useCache = true ∧
    RecoveredBy codec (c.trxId codec) (c.digest codec) c.signatures k

theorem derived_cacheAfter (codec : SigningCodec) (calls : List SignatureCall) :
    Derived codec calls (cacheAfter codec calls) := by
  induction calls using List.reverseRecOn with
  | nil =>
    intro k hk
    cases hk
  | append_singleton calls c ih =>
    intro k hk
    rw [cacheAfter, List.foldl_append] at hk
    rcases SignatureCall.getSignatureKeys_mem hk with hk | ⟨huse, hrecovered⟩
    · obtain ⟨c', hc', h⟩ := ih k hk
      exact ⟨c', List.mem_append_left _ hc', h⟩
    · exact ⟨c, List.mem_append_right _ (List.mem_singleton.mpr rfl), huse, hrecovered⟩

/-! ## What is found in the cache -/

def Correct (codec : SigningCodec) (trxId digest : Digest) (signatures : List Signature)
    (cache : RecoveryCache) : Prop :=
  ∀ k ∈ cache.entries, k.trxId = trxId → k.sig ∈ signatures →
    codec.recover k.sig digest = .ok k.pubKey

theorem Correct.fst_recoverKey (h : Correct codec trxId digest signatures cache)
    (hsig : sig ∈ signatures) :
    (recoverKey codec trxId digest useCache sig cache).1 = codec.recover sig digest := by
  obtain ⟨k, hmem, htrx, rfl, hr⟩ | ⟨e, hrecov, hr⟩ | ⟨recov, hrecov, hr⟩ :=
    recoverKey_cases codec trxId digest useCache sig cache
  · rw [hr, h k hmem htrx hsig]
  · rw [hr, hrecov]
  · rw [hr, hrecov]

theorem Correct.snd_recoverKey (h : Correct codec trxId digest signatures cache) :
    Correct codec trxId digest signatures (recoverKey codec trxId digest useCache sig cache).2 := by
  intro k hk htrx hsig
  rcases recoverKey_mem hk with hk | ⟨-, -, -, hrecov⟩
  · exact h k hk htrx hsig
  · exact hrecov

theorem Correct.collectKeys_eq {all : List Signature} (h : Correct codec trxId digest all cache)
    (hall : ∀ sig ∈ signatures, sig ∈ all) (keys : FlatSet PublicKey) (other : RecoveryCache) :
    (collectKeys codec trxId digest allowDuplicateKeys useCache signatures keys cache).1 =
      (collectKeys codec trxId digest allowDuplicateKeys false signatures keys other).1 := by
  induction signatures generalizing cache keys with
  | nil => rfl
  | cons sig signatures ih =>
    obtain ⟨hsig, hall⟩ := List.forall_mem_cons.mp hall
    have hnext : Correct codec trxId digest all
        (recoverKey codec trxId digest useCache sig cache).2 := h.snd_recoverKey
    have heq : (recoverKey codec trxId digest useCache sig cache).1 = codec.recover sig digest :=
      h.fst_recoverKey hsig
    have hplain : recoverKey codec trxId digest false sig other =
        (codec.recover sig digest, other) := rfl
    rw [collectKeys, collectKeys]
    rcases hr : recoverKey codec trxId digest useCache sig cache with ⟨r, cache'⟩
    rw [hr] at hnext heq
    cases hrecov : codec.recover sig digest with
    | error e =>
      rw [hrecov] at heq hplain
      obtain rfl : r = .error e := heq
      rw [Attempt.bind_of_error hr, Attempt.bind_of_error hplain]
    | ok recov =>
      rw [hrecov] at heq hplain
      obtain rfl : r = .ok recov := heq
      rw [Attempt.bind_of_ok hr, Attempt.bind_of_ok hplain]
      by_cases hinsert : allowDuplicateKeys ∨ recov ∉ keys
      · rw [if_pos hinsert, if_pos hinsert]
        exact ih hnext hall _
      · rw [if_neg hinsert, if_neg hinsert]
        rfl

/-- The call returns what it would return without the cache. -/
def SignatureCall.Invisible (codec : SigningCodec) (cache : RecoveryCache) (c : SignatureCall) :
    Prop :=
  (c.getSignatureKeys codec cache).1 =
    ({ c with useCache := false }.getSignatureKeys codec cache).1

theorem SignatureCall.fst_getSignatureKeys (codec : SigningCodec) (cache : RecoveryCache)
    (c : SignatureCall) :
    (c.getSignatureKeys codec cache).1 = (collectKeys codec (c.trxId codec) (c.digest codec)
      c.allowDuplicateKeys c.useCache c.signatures FlatSet.empty cache).1 := by
  rw [getSignatureKeys]
  rcases hr : collectKeys codec (c.trxId codec) (c.digest codec) c.allowDuplicateKeys c.useCache
    c.signatures FlatSet.empty cache with ⟨e | keys, cache'⟩
  · rw [Attempt.bind_of_error hr]
  · rw [Attempt.bind_of_ok hr]
    rfl

theorem Correct.invisible (h : Correct codec (c.trxId codec) (c.digest codec) c.signatures cache) :
    c.Invisible codec cache := by
  rw [SignatureCall.Invisible, SignatureCall.fst_getSignatureKeys,
    SignatureCall.fst_getSignatureKeys]
  exact h.collectKeys_eq (fun _ hsig => hsig) _ _

/-! ## Calls that do not mislead each other -/

/-- Calls with the cache, for the same transaction and with a common signature, are for the same
chain and the same context-free data. -/
def SignatureCall.Agree (c c' : SignatureCall) : Prop :=
  c.useCache = true → c'.useCache = true → c.trx = c'.trx →
    (∃ sig ∈ c.signatures, sig ∈ c'.signatures) → c.chainId = c'.chainId ∧ c.cfd = c'.cfd

/-- **The cache is invisible to calls that agree.** -/
theorem cache_invisible (codec : SigningCodec) (calls : List SignatureCall)
    (hid : ∀ c ∈ calls, ∀ c' ∈ calls, c.trxId codec = c'.trxId codec → c.trx = c'.trx)
    (hagree : calls.Pairwise SignatureCall.Agree) (before : List SignatureCall)
    (c : SignatureCall) (after : List SignatureCall) (hcalls : calls = before ++ c :: after) :
    c.Invisible codec (cacheAfter codec before) := by
  by_cases huse : c.useCache = true
  · refine Correct.invisible fun k hk htrx hsig => ?_
    obtain ⟨c', hc', huse', hid', hsig', hrecov⟩ := derived_cacheAfter codec before k hk
    have htrx' : c'.trx = c.trx :=
      hid c' (by simp [hcalls, hc']) c (by simp [hcalls]) (hid'.symm.trans htrx)
    rw [hcalls] at hagree
    obtain ⟨hchain, hcfd⟩ := (List.pairwise_append.mp hagree).2.2 c' hc' c List.mem_cons_self
      huse' huse htrx' ⟨k.sig, hsig', hsig⟩
    rwa [SignatureCall.digest, htrx', hchain, hcfd] at hrecov
  · obtain ⟨trx, signatures, chainId, cfd, allowDuplicateKeys, useCache⟩ := c
    obtain rfl : useCache = false := Bool.eq_false_of_not_eq_true huse
    rfl

section Example

/-- Packing is the identity on bytes and the digest of bytes is the number with these digits. -/
def plainCodec : SigningCodec where
  updateauth _ := .error "unknown action"
  deleteauth _ := .error "unknown action"
  linkauth _ := .error "unknown action"
  unlinkauth _ := .error "unknown action"
  canceldelay _ := .error "unknown action"
  packTransaction trx := [trx.maxCpuUsageMs]
  unpackTransaction _ := .error "unknown transaction"
  sha256 bytes := bytes.foldl (fun n b => 256 * n + b.toNat) 1
  packDigest d := [UInt8.ofNat d]
  packData data := data.flatten
  recover sig d := .ok (sig + d)

def plainCall (ms : UInt8) (cfd : List (List UInt8)) : SignatureCall :=
  { trx := { maxCpuUsageMs := ms }, signatures := [5], chainId := 3, cfd }

def threeCalls : List SignatureCall := [plainCall 1 [[7]], plainCall 1 [[7]], plainCall 2 []]

theorem cache_invisible_threeCalls :
    (plainCall 1 [[7]]).Invisible plainCodec (cacheAfter plainCodec [plainCall 1 [[7]]]) := by
  refine cache_invisible plainCodec threeCalls (by decide) ?_ [plainCall 1 [[7]]] _
    [plainCall 2 []] rfl
  have htrx : (plainCall 1 [[7]]).trx ≠ (plainCall 2 []).trx := by decide
  refine .cons (List.forall_mem_cons.mpr ⟨fun _ _ _ _ => ⟨rfl, rfl⟩, ?_⟩)
    (.cons ?_ (List.pairwise_singleton _ _))
  all_goals exact List.forall_mem_singleton.mpr fun _ _ heq => absurd heq htrx

/-- **A key from another digest**: the ids and the digests of the two calls collide only where they
must, but the second call gets the key that the first one recovered. -/
theorem stale_key :
    let calls := [plainCall 1 [], plainCall 1 [[7]]]
    (∀ c ∈ calls, ∀ c' ∈ calls, c.trxId plainCodec = c'.trxId plainCodec → c.trx = c'.trx) ∧
    (∀ c ∈ calls, ∀ c' ∈ calls, c.digest plainCodec = c'.digest plainCodec →
      c.trx = c'.trx ∧ c.chainId = c'.chainId ∧ c.cfd = c'.cfd) ∧
    ¬ (plainCall 1 [[7]]).Invisible plainCodec (cacheAfter plainCodec [plainCall 1 []]) := by
  refine ⟨by decide, by decide, fun h => ?_⟩
  have hkeys := congrArg (fun r => r.toOption.map FlatSet.toList) h
  exact absurd hkeys (by decide)

end Example

end BaccChain
