import BaccChain.Commons.Program
import BaccChain.Eosiolib.Name
import Mathlib.Algebra.Order.Ring.Int
import Mathlib.Tactic.Ring

/-!
# Assets and machine integers

An asset is a 64-bit amount of a symbol. The operators of `asset.hpp` assert that the symbols agree
and that the result lies within `±(2^62 - 1)`.
-/

namespace BaccChain

open Commons

/-! ## Machine integers -/

def wrap64 (x : Int) : Int := x.bmod (2 ^ 64)

def sub32 (a b : Nat) : Nat := (a + 2 ^ 32 - b) % 2 ^ 32

def add32 (a b : Nat) : Nat := (a + b) % 2 ^ 32

@[simp] theorem wrap64_zero : wrap64 0 = 0 := rfl

theorem wrap64_eq {x : Int} (h₁ : -2 ^ 63 ≤ x) (h₂ : x < 2 ^ 63) : wrap64 x = x := by
  unfold wrap64
  rw [Int.bmod_eq_of_le] <;> norm_num <;> omega

theorem wrap64_range (x : Int) : -2 ^ 63 ≤ wrap64 x ∧ wrap64 x < 2 ^ 63 := by
  have h₁ := Int.le_bmod (x := x) (m := 2 ^ 64) (by norm_num)
  have h₂ := Int.bmod_lt (x := x) (m := 2 ^ 64) (by norm_num)
  unfold wrap64
  norm_num at h₁ h₂ ⊢
  omega

theorem wrap64_emod (x : Int) : wrap64 x % 2 ^ 64 = x % 2 ^ 64 := by
  have h := Int.bmod_emod (x := x) (m := 2 ^ 64)
  exact_mod_cast h

theorem wrap64_eq_add (x : Int) : ∃ k : Int, wrap64 x = x + 2 ^ 64 * k := by
  have h := wrap64_emod x
  exact ⟨(wrap64 x - x) / 2 ^ 64, by omega⟩

theorem wrap64_wrap64 (x : Int) : wrap64 (wrap64 x) = wrap64 x := Int.bmod_bmod

theorem wrap64_add_left (x y : Int) : wrap64 (wrap64 x + y) = wrap64 (x + y) :=
  Int.bmod_add_bmod

theorem sub32_of_le {a b : Nat} (h : b ≤ a) (ha : a < 2 ^ 32) : sub32 a b = a - b := by
  unfold sub32
  omega

theorem sub32_self (a : Nat) : sub32 a a = 0 := by
  unfold sub32
  omega

/-! ## Symbols -/

/-- The name part of a symbol: its letters without the precision. -/
def symbolName (symbol : Nat) : Nat := symbol >>> 8

def onlyZeroBytes : Nat → Nat → Bool
  | 0, _ => true
  | n + 1, sym => (sym >>> 8) &&& 0xff = 0 && onlyZeroBytes n (sym >>> 8)

/-- `n` bytes of upper-case letters, the last ones possibly zero. -/
def validSymbolBytes : Nat → Nat → Bool
  | 0, _ => true
  | n + 1, sym =>
    let c := sym &&& 0xff
    if 65 ≤ c ∧ c ≤ 90 then
      if (sym >>> 8) &&& 0xff = 0 then onlyZeroBytes (n + 1) (sym >>> 8)
      else validSymbolBytes n (sym >>> 8)
    else false

/-- A symbol is valid when its name is one to seven upper-case letters. -/
def isValidSymbol (symbol : Nat) : Bool := validSymbolBytes 7 (symbol >>> 8)

def coreSymbol : Nat := 288891159044

example : isValidSymbol coreSymbol = true := by decide

/-! ## Assets -/

/-- An amount of a token. -/
structure Asset where
  amount : Int
  symbol : Nat
  deriving DecidableEq

namespace Asset

def maxAmount : Int := 2 ^ 62 - 1

def core (amount : Int) : Asset := ⟨amount, coreSymbol⟩

@[simp] theorem core_amount (a : Int) : (core a).amount = a := rfl
@[simp] theorem core_symbol (a : Int) : (core a).symbol = coreSymbol := rfl


def isAmountWithinRange (a : Asset) : Bool := -maxAmount ≤ a.amount ∧ a.amount ≤ maxAmount

def isValid (a : Asset) : Bool := a.isAmountWithinRange && isValidSymbol a.symbol

def ofAmount (amount : Int) : Except String Asset := do
  check (-maxAmount ≤ amount ∧ amount ≤ maxAmount)
    "magnitude of asset amount must be less than 2^62"
  return core amount

def add (a b : Asset) : Except String Asset := do
  check (b.symbol = a.symbol) "attempt to add asset with different symbol"
  check (-maxAmount ≤ a.amount + b.amount) "addition underflow"
  check (a.amount + b.amount ≤ maxAmount) "addition overflow"
  return ⟨a.amount + b.amount, a.symbol⟩

def sub (a b : Asset) : Except String Asset := do
  check (b.symbol = a.symbol) "attempt to subtract asset with different symbol"
  check (-maxAmount ≤ a.amount - b.amount) "subtraction underflow"
  check (a.amount - b.amount ≤ maxAmount) "subtraction overflow"
  return ⟨a.amount - b.amount, a.symbol⟩

def neg (a : Asset) : Asset := ⟨-a.amount, a.symbol⟩

def mul (a : Asset) (n : Int) : Except String Asset := do
  check (a.amount * n ≤ maxAmount) "multiplication overflow"
  check (-maxAmount ≤ a.amount * n) "multiplication underflow"
  return ⟨a.amount * n, a.symbol⟩

def div (a : Asset) (n : Int) : Except String Asset := do
  check (n ≠ 0) "divide by zero"
  check (¬ (a.amount = -2 ^ 63 ∧ n = -1)) "signed division overflow"
  return ⟨a.amount.tdiv n, a.symbol⟩

def compareBy (r : Int → Int → Bool) (a b : Asset) : Except String Bool := do
  check (a.symbol = b.symbol) "comparison of assets with different symbols is not allowed"
  return r a.amount b.amount

def lt (a b : Asset) : Except String Bool := compareBy (fun x y => decide (x < y)) a b
def le (a b : Asset) : Except String Bool := compareBy (fun x y => decide (x ≤ y)) a b
def gt (a b : Asset) : Except String Bool := compareBy (fun x y => decide (x > y)) a b
def ge (a b : Asset) : Except String Bool := compareBy (fun x y => decide (x ≥ y)) a b
def eq (a b : Asset) : Except String Bool := compareBy (fun x y => decide (x = y)) a b
def ne (a b : Asset) : Except String Bool := compareBy (fun x y => decide (x ≠ y)) a b

@[simp] theorem neg_amount (a : Asset) : a.neg.amount = -a.amount := rfl
@[simp] theorem neg_symbol (a : Asset) : a.neg.symbol = a.symbol := rfl

variable {c a b : Asset} {n : Int}

theorem ofAmount_eq_ok {x : Int} :
    ofAmount x = .ok c ↔ (-maxAmount ≤ x ∧ x ≤ maxAmount) ∧ c = core x := by
  simp only [ofAmount, bind_eq_ok, check_eq_ok, exists_const, pure_eq_ok]

theorem add_eq_ok :
    a.add b = .ok c ↔ b.symbol = a.symbol ∧ -maxAmount ≤ a.amount + b.amount ∧
      a.amount + b.amount ≤ maxAmount ∧ c = ⟨a.amount + b.amount, a.symbol⟩ := by
  simp only [add, bind_eq_ok, check_eq_ok, exists_const, pure_eq_ok]

theorem sub_eq_ok :
    a.sub b = .ok c ↔ b.symbol = a.symbol ∧ -maxAmount ≤ a.amount - b.amount ∧
      a.amount - b.amount ≤ maxAmount ∧ c = ⟨a.amount - b.amount, a.symbol⟩ := by
  simp only [sub, bind_eq_ok, check_eq_ok, exists_const, pure_eq_ok]

theorem mul_eq_ok :
    a.mul n = .ok c ↔ a.amount * n ≤ maxAmount ∧ -maxAmount ≤ a.amount * n ∧
      c = ⟨a.amount * n, a.symbol⟩ := by
  simp only [mul, bind_eq_ok, check_eq_ok, exists_const, pure_eq_ok]

theorem div_eq_ok :
    a.div n = .ok c ↔ n ≠ 0 ∧ ¬ (a.amount = -2 ^ 63 ∧ n = -1) ∧
      c = ⟨a.amount.tdiv n, a.symbol⟩ := by
  simp only [div, bind_eq_ok, check_eq_ok, exists_const, pure_eq_ok]

theorem add_of_overflow (hsym : b.symbol = a.symbol) (h : maxAmount < a.amount + b.amount) :
    a.add b = .error "addition overflow" := by
  have hlow : -maxAmount ≤ a.amount + b.amount := by
    have hmax : 0 ≤ maxAmount := by decide
    omega
  simp only [add, check, if_pos hsym, if_pos hlow, if_neg (not_le.mpr h)]
  rfl

theorem mul_of_overflow (h : maxAmount < a.amount * n) :
    a.mul n = .error "multiplication overflow" := by
  simp only [mul, check, if_neg (not_le.mpr h)]
  rfl

theorem compareBy_eq_ok {r : Int → Int → Bool} {x : Bool} :
    compareBy r a b = .ok x ↔ a.symbol = b.symbol ∧ x = r a.amount b.amount := by
  simp only [compareBy, bind_eq_ok, check_eq_ok, exists_const, pure_eq_ok]

section Comparisons

variable {a b : Asset} {x : Bool}

theorem lt_eq_ok : a.lt b = .ok x ↔ a.symbol = b.symbol ∧ (x ↔ a.amount < b.amount) := by
  rw [lt, compareBy_eq_ok, Bool.eq_iff_iff, decide_eq_true_eq]

theorem le_eq_ok : a.le b = .ok x ↔ a.symbol = b.symbol ∧ (x ↔ a.amount ≤ b.amount) := by
  rw [le, compareBy_eq_ok, Bool.eq_iff_iff, decide_eq_true_eq]

theorem gt_eq_ok : a.gt b = .ok x ↔ a.symbol = b.symbol ∧ (x ↔ b.amount < a.amount) := by
  rw [gt, compareBy_eq_ok, Bool.eq_iff_iff, decide_eq_true_eq, gt_iff_lt]

theorem ge_eq_ok : a.ge b = .ok x ↔ a.symbol = b.symbol ∧ (x ↔ b.amount ≤ a.amount) := by
  rw [ge, compareBy_eq_ok, Bool.eq_iff_iff, decide_eq_true_eq, ge_iff_le]

theorem eq_eq_ok : a.eq b = .ok x ↔ a.symbol = b.symbol ∧ (x ↔ a.amount = b.amount) := by
  rw [eq, compareBy_eq_ok, Bool.eq_iff_iff, decide_eq_true_eq]

end Comparisons

end Asset

end BaccChain
