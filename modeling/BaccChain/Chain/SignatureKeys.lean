import BaccChain.Chain.Authorization

/-!
# The keys that have signed a transaction

The keys are recovered from the signatures and the digest that was signed, which is made from the
chain id, the transaction and its context-free data. Each thread has a cache of recovered keys.
-/

namespace BaccChain

open Commons

/-- How what is signed is packed and hashed, and the recovery of a key from a signature and a
digest, which may throw. -/
structure SigningCodec extends Codec where
  packDigest : Digest → List UInt8
  packData : List (List UInt8) → List UInt8
  recover : Signature → Digest → Except String PublicKey

/-- The digest that is signed. Without context-free data, the zero digest stands for theirs. -/
def sigDigest (codec : SigningCodec) (trx : FullTransaction) (chainId : Digest)
    (cfd : List (List UInt8)) : Digest :=
  codec.sha256 (codec.packDigest chainId ++ codec.packTransaction trx ++
    codec.packDigest (if cfd.length ≠ 0 then codec.sha256 (codec.packData cfd) else 0))

/-! ## The cache -/

/-- A recovered key, as it is cached. -/
structure CachedPubKey where
  trxId : Digest
  pubKey : PublicKey
  sig : Signature

/-- The cache, oldest entries first. -/
structure RecoveryCache where
  entries : List CachedPubKey := []
  unique : (entries.map (·.sig)).Nodup := by exact List.nodup_nil

def recoveryCacheSize : Nat := 1000

namespace RecoveryCache

def findBySig (cache : RecoveryCache) (sig : Signature) : Option CachedPubKey :=
  cache.entries.find? (·.sig = sig)

/-- An entry with a signature that is there already is not added. -/
def emplaceBack (cache : RecoveryCache) (k : CachedPubKey) : RecoveryCache :=
  if h : k.sig ∈ cache.entries.map (·.sig) then cache
  else
    { entries := cache.entries ++ [k]
      unique := by
        rw [List.map_append]
        exact cache.unique.append (List.nodup_singleton _) (List.disjoint_singleton.mpr h) }

def trim (cache : RecoveryCache) : RecoveryCache where
  entries := cache.entries.drop (cache.entries.length - recoveryCacheSize)
  unique := by
    rw [List.map_drop]
    exact cache.unique.sublist (List.drop_sublist _ _)

end RecoveryCache

/-! ## Recovering the keys -/

def recoverKey (codec : SigningCodec) (trxId digest : Digest) (useCache : Bool) (sig : Signature) :
    Attempt RecoveryCache PublicKey :=
  if useCache then do
    let cache ← Attempt.read
    match (cache.findBySig sig).filter (·.trxId = trxId) with
    | none => do
      let recov ← codec.recover sig digest
      Attempt.update (·.emplaceBack { trxId, pubKey := recov, sig })
      pure recov
    | some k => pure k.pubKey
  else codec.recover sig digest

/-- The keys of the signatures, added to those that were recovered before. -/
def collectKeys (codec : SigningCodec) (trxId digest : Digest)
    (allowDuplicateKeys useCache : Bool) :
    List Signature → FlatSet PublicKey → Attempt RecoveryCache (FlatSet PublicKey)
  | [], recoveredPubKeys => pure recoveredPubKeys
  | sig :: signatures, recoveredPubKeys => do
    let recov ← recoverKey codec trxId digest useCache sig
    if allowDuplicateKeys ∨ recov ∉ recoveredPubKeys then
      collectKeys codec trxId digest allowDuplicateKeys useCache signatures
        (recoveredPubKeys.insert recov)
    else Attempt.throws ("transaction includes more than one signature signed using the same " ++
      "key associated with public key")

/-- A call of `get_signature_keys`. -/
structure SignatureCall where
  trx : FullTransaction
  signatures : List Signature
  chainId : Digest
  cfd : List (List UInt8) := []
  allowDuplicateKeys : Bool := false
  useCache : Bool := true

namespace SignatureCall

def digest (codec : SigningCodec) (c : SignatureCall) : Digest :=
  sigDigest codec c.trx c.chainId c.cfd

def trxId (codec : SigningCodec) (c : SignatureCall) : Digest := c.trx.id codec.toCodec

def getSignatureKeys (codec : SigningCodec) (c : SignatureCall) :
    Attempt RecoveryCache (FlatSet PublicKey) := do
  let recoveredPubKeys ← collectKeys codec (c.trxId codec) (c.digest codec) c.allowDuplicateKeys
    c.useCache c.signatures FlatSet.empty
  Attempt.update fun cache => if c.useCache then cache.trim else cache
  pure recoveredPubKeys

end SignatureCall

def cacheAfter (codec : SigningCodec) (calls : List SignatureCall) : RecoveryCache :=
  calls.foldl (fun cache c => (c.getSignatureKeys codec cache).2) {}

end BaccChain
