import Mathlib.Data.List.Basic
import Mathlib.Data.Nat.Bitwise
import Mathlib.Data.Nat.Size
import Mathlib.Data.List.Induction

/-!
# The incremental merkle tree of block ids

A header state carries the merkle tree of all block ids before it as the nodes that later appends
still need. Digests are 256-bit values whose first word is the lowest; the hash is a parameter.
-/

namespace BaccChain

/-- A 256-bit digest; the first of its four words is the lowest. -/
abbrev Digest := Nat

/-- A digest whose lowest four bytes are a block number in reverse byte order. -/
abbrev BlockId := Digest

def makeCanonicalLeft (val : Digest) : Digest := if val.testBit 7 then val - 2 ^ 7 else val

def makeCanonicalRight (val : Digest) : Digest := val ||| 2 ^ 7

def nextPowerOf2 (value : Nat) : Nat :=
  let value := (value + 2 ^ 64 - 1) % 2 ^ 64
  let value := value ||| value >>> 1
  let value := value ||| value >>> 2
  let value := value ||| value >>> 4
  let value := value ||| value >>> 8
  let value := value ||| value >>> 16
  let value := value ||| value >>> 32
  (value + 1) % 2 ^ 64

/-- The position of the one bit of a power of two, one mask at a time. -/
def clzPower2 (value : Nat) : Nat :=
  64 - (if value = 0 then 0 else 1)
    - (if value &&& 0x00000000FFFFFFFF = 0 then 0 else 32)
    - (if value &&& 0x0000FFFF0000FFFF = 0 then 0 else 16)
    - (if value &&& 0x00FF00FF00FF00FF = 0 then 0 else 8)
    - (if value &&& 0x0F0F0F0F0F0F0F0F = 0 then 0 else 4)
    - (if value &&& 0x3333333333333333 = 0 then 0 else 2)
    - (if value &&& 0x5555555555555555 = 0 then 0 else 1)

/-- The depth of the smallest full binary tree with room for the nodes. -/
def calcluateMaxDepth (nodeCount : Nat) : Nat :=
  if nodeCount = 0 then 0 else clzPower2 (nextPowerOf2 nodeCount) + 1

/-- The nodes of a merkle tree that later appends need, with the root last. -/
structure IncrementalMerkle where
  nodeCount : Nat := 0
  activeNodes : List Digest := []
  deriving DecidableEq

namespace IncrementalMerkle

/-- The walk of `append` from the new leaf to the root: the nodes kept for later and the root. -/
def collapse (hash : Digest → Digest → Digest) :
    (currentDepth index : Nat) → (partially : Bool) → (top : Digest) →
      (active updated : List Digest) → Option (List Digest)
  | 0, _, _, top, _, updated => some (updated ++ [top])
  | depth + 1, index, partially, top, active, updated =>
    if index % 2 = 0 then
      -- a left node, whose right half is implied to be its copy
      collapse hash depth (index / 2) true (hash (makeCanonicalLeft top) (makeCanonicalRight top))
        active (if partially then updated else updated ++ [top])
    else
      match active with
      | [] => none
      | leftValue :: active =>
        collapse hash depth (index / 2) partially
          (hash (makeCanonicalLeft leftValue) (makeCanonicalRight top)) active
          (if partially then updated ++ [leftValue] else updated)

/-- `append`. -/
def append (hash : Digest → Digest → Digest) (m : IncrementalMerkle) (digest : Digest) :
    Option IncrementalMerkle :=
  (collapse hash (calcluateMaxDepth ((m.nodeCount + 1) % 2 ^ 64) - 1) m.nodeCount false digest
    m.activeNodes []).map fun nodes => ⟨(m.nodeCount + 1) % 2 ^ 64, nodes⟩

/-- `get_root`. -/
def getRoot (m : IncrementalMerkle) : Digest :=
  if 0 < m.nodeCount then m.activeNodes.getLastD 0 else 0

end IncrementalMerkle

/-! ## Appends do not run out of nodes -/

/-- The value with its bits smeared to the right by distances below `2 ^ j`. -/
def SmearedTo (c : Nat) (j x : Nat) : Prop :=
  ∀ i, x.testBit i = true ↔ ∃ a, i ≤ a ∧ a < i + 2 ^ j ∧ c.testBit a = true

theorem SmearedTo.step {c j x : Nat} (h : SmearedTo c j x) (d : Nat) (hd : d = 2 ^ j) :
    SmearedTo c (j + 1) (x ||| x >>> d) := by
  subst hd
  intro i
  rw [Nat.testBit_or, Nat.testBit_shiftRight, Bool.or_eq_true, h, h, pow_succ]
  constructor
  · rintro (⟨a, ha, ha', hbit⟩ | ⟨a, ha, ha', hbit⟩)
    · exact ⟨a, ha, by omega, hbit⟩
    · exact ⟨a, by omega, by omega, hbit⟩
  · rintro ⟨a, ha, ha', hbit⟩
    by_cases hlt : a < i + 2 ^ j
    · exact .inl ⟨a, ha, hlt, hbit⟩
    · exact .inr ⟨a, by omega, by omega, hbit⟩

theorem nextPowerOf2_succ {n : Nat} (h : n < 2 ^ 63) : nextPowerOf2 (n + 1) = 2 ^ n.size := by
  have hwrap : (n + 1 + 2 ^ 64 - 1) % 2 ^ 64 = n := by omega
  have h₀ : SmearedTo n 0 n := by
    intro i
    constructor
    · intro hi
      exact ⟨i, le_rfl, by omega, hi⟩
    · rintro ⟨a, ha, ha', hbit⟩
      obtain rfl : a = i := by omega
      exact hbit
  have hsize : n.size ≤ 63 := Nat.size_le.mpr h
  have hsmeared : ∀ x, SmearedTo n 6 x → x = 2 ^ n.size - 1 := by
    intro x hx
    refine Nat.eq_of_testBit_eq fun i => ?_
    rw [Bool.eq_iff_iff, hx, Nat.testBit_two_pow_sub_one, decide_eq_true_iff, Nat.lt_size]
    constructor
    · rintro ⟨a, ha, -, hbit⟩
      exact (Nat.pow_le_pow_right (by decide) ha).trans (Nat.ge_two_pow_of_testBit hbit)
    · intro hle
      obtain ⟨a, ha, hbit⟩ := Nat.exists_ge_and_testBit_of_ge_two_pow hle
      have hlt : 2 ^ a < 2 ^ 63 := (Nat.ge_two_pow_of_testBit hbit).trans_lt h
      have : a < 63 := (Nat.pow_lt_pow_iff_right (by decide)).mp hlt
      exact ⟨a, ha, by omega, hbit⟩
  have hall := hsmeared _ ((((((h₀.step 1 rfl).step 2 rfl).step 4 rfl).step 8 rfl).step 16 rfl).step
    32 rfl)
  simp only [nextPowerOf2, hwrap]
  rw [hall]
  have hpos : 0 < 2 ^ n.size := Nat.two_pow_pos _
  have hle : 2 ^ n.size ≤ 2 ^ 63 := Nat.pow_le_pow_right (by decide) hsize
  omega

theorem calcluateMaxDepth_succ {n : Nat} (h : n < 2 ^ 63) :
    calcluateMaxDepth (n + 1) = n.size + 1 := by
  have hclz : ∀ k < 64, clzPower2 (2 ^ k) = k := by decide +kernel
  have hsize : n.size ≤ 63 := Nat.size_le.mpr h
  rw [calcluateMaxDepth, if_neg (Nat.succ_ne_zero n), nextPowerOf2_succ h, hclz _ (by omega)]

/-! ## Incremental and batch computation -/

section Batch

variable (hash : Digest → Digest → Digest)

/-- One pass of the loop of `merkle`; the last of an odd number of digests is paired with itself. -/
def pairUp : List Digest → List Digest
  | a :: b :: ids => hash (makeCanonicalLeft a) (makeCanonicalRight b) :: pairUp ids
  | [a] => [hash (makeCanonicalLeft a) (makeCanonicalRight a)]
  | [] => []

/-- Passes until one digest is left. The counter `i` of a pass is a 32-bit `int`, and `2 * i`
overflows in a pass with more than 2^30 pairs. -/
def merklePasses : Nat → List Digest → Option Digest
  | 0, _ => none
  | n + 1, ids =>
    if 1 < ids.length then
      if (ids.length + 1) / 2 ≤ 2 ^ 30 then merklePasses n (pairUp hash ids) else none
    else ids.head?

/-- `merkle`. -/
def merkle (ids : List Digest) : Option Digest :=
  if ids.length = 0 then some 0 else merklePasses hash ids.length ids

namespace IncrementalMerkle

def appendAll (ids : List Digest) : Option IncrementalMerkle := ids.foldlM (append hash) {}

/-- The nodes of the next level whose halves are both there. -/
def halve : List Digest → List Digest
  | a :: b :: ids => hash (makeCanonicalLeft a) (makeCanonicalRight b) :: halve ids
  | [_] => []
  | [] => []

/-- The node without a right half, if there is one. -/
def leftover : List Digest → List Digest
  | _ :: _ :: ids => leftover ids
  | [a] => [a]
  | [] => []

/-- The node above the new last node `x` of a level. -/
def above : List Digest → Digest → Digest
  | _ :: _ :: ids, x => above ids x
  | [a], x => hash (makeCanonicalLeft a) (makeCanonicalRight x)
  | [], x => hash (makeCanonicalLeft x) (makeCanonicalRight x)

/-- The nodes without a right half on the lowest `d` levels. -/
def needed : Nat → List Digest → List Digest
  | 0, _ => []
  | d + 1, ids => leftover ids ++ needed d (halve hash ids)

/-- The node `d` levels above the new last node `x`. -/
def ancestor : Nat → List Digest → Digest → Digest
  | 0, _, x => x
  | d + 1, ids, x => ancestor d (halve hash ids) (above hash ids x)

variable (ids : List Digest) (x : Digest)

theorem length_halve : (halve hash ids).length = ids.length / 2 := by
  induction ids using halve.induct with
  | case1 a b ids ih =>
    rw [halve, List.length_cons, ih, List.length_cons, List.length_cons]
    omega
  | case2 | case3 => simp [halve]

theorem pairUp_concat : pairUp hash (ids ++ [x]) = halve hash ids ++ [above hash ids x] := by
  induction ids using halve.induct with
  | case1 a b ids ih =>
    rw [List.cons_append, List.cons_append, pairUp, ih]
    rfl
  | case2 | case3 => rfl

/-- The new node stays without a right half, or it is the right half of the one that had none. -/
theorem concat_cases : (ids.length % 2 = 0 ∧ leftover ids = [] ∧ leftover (ids ++ [x]) = [x] ∧
      halve hash (ids ++ [x]) = halve hash ids ∧
      above hash ids x = hash (makeCanonicalLeft x) (makeCanonicalRight x)) ∨
    ids.length % 2 ≠ 0 ∧ leftover (ids ++ [x]) = [] ∧
      halve hash (ids ++ [x]) = halve hash ids ++ [above hash ids x] ∧
      ∃ a, leftover ids = [a] ∧
        above hash ids x = hash (makeCanonicalLeft a) (makeCanonicalRight x) := by
  induction ids using halve.induct with
  | case1 a b ids ih =>
    simpa [leftover, halve, above, Nat.add_mod_right, add_assoc] using ih
  | case2 a => exact .inr ⟨Nat.one_ne_zero, rfl, rfl, a, rfl, rfl⟩
  | case3 => exact .inl ⟨rfl, rfl, rfl, rfl, rfl⟩

variable {hash ids x} {d : Nat} {rest updated : List Digest}

theorem collapse_partially :
    collapse hash d ids.length true x (needed hash d ids ++ rest) updated =
      some (updated ++ needed hash d ids ++ [ancestor hash d ids x]) := by
  induction d generalizing ids x updated with
  | zero => simp [collapse, needed, ancestor]
  | succ d ih =>
    unfold collapse
    rw [needed, ancestor, ← length_halve]
    rcases concat_cases hash ids x with ⟨heven, hnone, -, -, habove⟩ | ⟨hodd, -, -, a, ha, habove⟩
    · rw [if_pos heven, hnone, ← habove]
      exact ih
    · rw [if_neg hodd, ha, List.append_assoc, List.singleton_append]
      dsimp only
      rw [← habove, if_pos rfl, ih]
      simp

theorem collapse_eq_some :
    collapse hash d ids.length false x (needed hash d ids ++ rest) updated =
      some (updated ++ needed hash d (ids ++ [x]) ++ [ancestor hash d ids x]) := by
  induction d generalizing ids x updated with
  | zero => simp [collapse, needed, ancestor]
  | succ d ih =>
    unfold collapse
    rw [needed, needed, ancestor, ← length_halve]
    rcases concat_cases hash ids x with ⟨heven, hnone, hx, hsame, habove⟩ |
      ⟨hodd, hx, hnext, a, ha, habove⟩
    · rw [if_pos heven, hnone, hx, hsame, ← habove, List.nil_append, collapse_partially]
      simp
    · rw [if_neg hodd, ha, hx, hnext, List.append_assoc, List.singleton_append]
      dsimp only
      rw [← habove]
      exact ih

theorem needed_succ_of_length (h : (ids ++ [x]).length = 2 ^ d) :
    needed hash (d + 1) (ids ++ [x]) = needed hash d (ids ++ [x]) ++ [ancestor hash d ids x] := by
  induction d generalizing ids x with
  | zero =>
    obtain rfl : ids = [] := by simpa using h
    rfl
  | succ d ih =>
    rcases concat_cases hash ids x with ⟨heven, -⟩ | ⟨-, hx, hnext, -⟩
    · rw [List.length_append, List.length_singleton, pow_succ] at h
      omega
    · show leftover (ids ++ [x]) ++ needed hash (d + 1) (halve hash (ids ++ [x])) =
        leftover (ids ++ [x]) ++ needed hash d (halve hash (ids ++ [x])) ++ _
      rw [hx, hnext]
      apply ih
      rw [← hnext, length_halve, h, pow_succ, Nat.mul_div_cancel _ Nat.two_pos]

/-- The tree holds the leaves `ids`. -/
structure Holds (hash : Digest → Digest → Digest) (m : IncrementalMerkle) (ids : List Digest) :
    Prop where
  nodeCount : m.nodeCount = ids.length
  active : ∃ rest, m.activeNodes = needed hash ids.length.size ids ++ rest

theorem Holds.append {m : IncrementalMerkle} (h : m.Holds hash ids) (hcount : ids.length < 2 ^ 63)
    (x : Digest) : ∃ m', m.append hash x = some m' ∧ m'.Holds hash (ids ++ [x]) ∧
      m'.getRoot = ancestor hash ids.length.size ids x := by
  have hwrap : (ids.length + 1) % 2 ^ 64 = ids.length + 1 := by omega
  obtain ⟨rest, hactive⟩ := h.active
  refine ⟨⟨ids.length + 1, needed hash ids.length.size (ids ++ [x]) ++
    [ancestor hash ids.length.size ids x]⟩, ?_, ⟨by simp, ?_⟩, by simp [getRoot]⟩
  · rw [IncrementalMerkle.append, h.nodeCount, hactive, hwrap, calcluateMaxDepth_succ hcount,
      Nat.add_sub_cancel, collapse_eq_some, List.nil_append]
    rfl
  · have hlt := Nat.lt_size_self ids.length
    rcases Nat.lt_or_eq_of_le (Nat.succ_le_of_lt hlt) with hroom | hfull
    · have hsize : (ids ++ [x]).length.size = ids.length.size := by
        rw [List.length_append, List.length_singleton]
        exact le_antisymm (Nat.size_le.mpr hroom) (Nat.size_le_size (Nat.le_succ _))
      rw [hsize]
      exact ⟨_, rfl⟩
    · have hlength : (ids ++ [x]).length = 2 ^ ids.length.size := by simpa using hfull
      rw [← needed_succ_of_length hlength, hlength, Nat.size_pow]
      exact ⟨[], (List.append_nil _).symm⟩

theorem appendAll_concat {m : IncrementalMerkle} (h : appendAll hash ids = some m) :
    appendAll hash (ids ++ [x]) = m.append hash x := by
  rw [appendAll, List.foldlM_append, ← appendAll, h]
  simp

theorem exists_holds (hash : Digest → Digest → Digest) (hcount : ids.length ≤ 2 ^ 63) :
    ∃ m, appendAll hash ids = some m ∧ m.Holds hash ids := by
  induction ids using List.reverseRecOn with
  | nil => exact ⟨{}, rfl, rfl, [], rfl⟩
  | append_singleton ids x ih =>
    rw [List.length_append, List.length_singleton] at hcount
    obtain ⟨m, hm, hholds⟩ := ih (by omega)
    obtain ⟨m', hm', hholds', -⟩ := hholds.append hcount x
    exact ⟨m', (appendAll_concat hm).trans hm', hholds'⟩

end IncrementalMerkle

open IncrementalMerkle

variable {hash} {ids : List Digest} {x : Digest}

theorem merklePasses_concat {n : Nat} (hn : ids.length < n) (hcount : ids.length < 2 ^ 31) :
    merklePasses hash n (ids ++ [x]) = some (ancestor hash ids.length.size ids x) := by
  induction n generalizing ids x with
  | zero => exact absurd hn (Nat.not_lt_zero _)
  | succ n ih =>
    rw [merklePasses, List.length_append, List.length_singleton]
    by_cases hnil : ids.length = 0
    · obtain rfl := List.length_eq_zero_iff.mp hnil
      rfl
    · have hsize : ids.length.size = (ids.length / 2).size + 1 := by
        have := Nat.size_bit (b := ids.length.bodd) (n := ids.length.div2)
          (by rwa [Nat.bit_bodd_div2])
        rwa [Nat.bit_bodd_div2, Nat.div2_val] at this
      rw [if_pos (by omega), if_pos (by omega), pairUp_concat, hsize, ancestor, ← length_halve hash]
      apply ih
      · rw [length_halve]
        omega
      · rw [length_halve]
        omega

theorem merkle_eq_none (h : 2 ^ 31 < ids.length) : merkle hash ids = none := by
  obtain ⟨n, hn⟩ : ∃ n, ids.length = n + 1 := ⟨ids.length - 1, by omega⟩
  rw [merkle, if_neg (by omega), hn, merklePasses, if_pos (by omega), if_neg (by omega)]

/-- **The incremental root is the batch root** as long as no pass of the batch computation has more
than 2^30 pairs. Up to 2^63 digests can be appended. -/
theorem incremental_eq_batch_iff (hash : Digest → Digest → Digest) (ids : List Digest) :
    (ids.length ≤ 2 ^ 63 → ∃ m, appendAll hash ids = some m) ∧
    ((∃ m, appendAll hash ids = some m ∧ merkle hash ids = some m.getRoot) ↔
      ids.length ≤ 2 ^ 31) := by
  refine ⟨fun hcount => ?_, ?_, ?_⟩
  · obtain ⟨m, hm, -⟩ := exists_holds hash hcount
    exact ⟨m, hm⟩
  · rintro ⟨m, -, hm⟩
    by_contra hcount
    rw [merkle_eq_none (not_le.mp hcount)] at hm
    cases hm
  · intro hcount
    rcases List.eq_nil_or_concat ids with rfl | ⟨ids, x, rfl⟩
    · exact ⟨{}, rfl, rfl⟩
    · rw [List.concat_eq_append] at hcount ⊢
      rw [List.length_append, List.length_singleton] at hcount
      have hle : ids.length ≤ 2 ^ 63 := by omega
      obtain ⟨m, hm, hholds⟩ := exists_holds hash hle
      obtain ⟨m', hm', -, hroot⟩ := hholds.append (by omega) x
      refine ⟨m', (appendAll_concat hm).trans hm', ?_⟩
      rw [merkle, if_neg (by simp), merklePasses_concat (by simp) (by omega), hroot]

/-- With 2^32 digests the first pass overflows. -/
theorem batch_overflows : ∃ ids : List Digest, ids.length = 2 ^ 32 ∧
    merkle (fun left right => left + right) ids = none ∧
      ∃ m, appendAll (fun left right => left + right) ids = some m := by
  have hlength : (List.replicate (2 ^ 32) 0).length = 2 ^ 32 := List.length_replicate
  obtain ⟨m, hm, -⟩ := exists_holds (fun left right => left + right)
    (hlength.trans_le (by decide))
  exact ⟨_, hlength, merkle_eq_none (by omega), m, hm⟩

end Batch

end BaccChain
