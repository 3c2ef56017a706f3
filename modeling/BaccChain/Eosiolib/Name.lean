import Mathlib.Data.List.Basic

/-!
# Account names

Names are 64-bit values; thirteen characters of five bits each (four for the last) in the alphabet
`.12345a-z`. The contracts compare names and, in one place, look at the text of a name.
-/

namespace BaccChain

/-- A 64-bit account, permission or action name. -/
abbrev Name := Nat

/-- The five-bit symbol of a character; other characters read as a dot. -/
def charToSymbol (c : Char) : Nat :=
  if 'a' ≤ c ∧ c ≤ 'z' then c.toNat - 'a'.toNat + 6
  else if '1' ≤ c ∧ c ≤ '5' then c.toNat - '1'.toNat + 1
  else 0

def stringToName (str : List Char) : Name :=
  (List.range 13).foldl (fun value i =>
    let c := (str[i]?).elim 0 charToSymbol
    value ||| (if i < 12 then (c &&& 0x1f) <<< (64 - 5 * (i + 1)) else c &&& 0x0f)) 0

def charmap : List Char := ".12345abcdefghijklmnopqrstuvwxyz".toList

/-- The first `n` characters of the value `tmp`, five bits each, before the text `str`. -/
def nameChars : Nat → Nat → List Char → List Char
  | 0, _, str => str
  | n + 1, tmp, str => nameChars n (tmp >>> 5) ((charmap[tmp &&& 0x1f]?).getD '.' :: str)

/-- The text without its dots on the right; a text of dots only is kept. -/
def trimRightDots (str : List Char) : List Char :=
  match (str.reverse.dropWhile (· = '.')).reverse with
  | [] => str
  | s => s

def Name.toString (n : Name) : List Char :=
  trimRightDots (nameChars 12 (n >>> 4) [(charmap[n &&& 0x0f]?).getD '.'])

/-! ## The accounts of the chain configuration -/

def systemAccountName : Name := 4147955994296582144
def tokenAccountName : Name := 4147956434804719616
def msigAccountName : Name := 4147956316660301824
def nativeAccountName : Name := 4147956324362540032
def feeAccountName : Name := 4147956188811624448
def vidPoolAccountName : Name := 4147956469773647872
def bpPawnAccountName : Name := 4147956358774784000
def ecosystemAccountName : Name := 4147956120357088768
def powPoolAccountName : Name := 4147956366281015296
def producersAccountName : Name := 4147956367762522112
def nullAccountName : Name := 4147956334966865920
def chainConfigName : Name := 4147956142797723648
def eosioAnyName : Name := 4147956108079661056
def eosioCodeName : Name := 4147956142629191680
def activeName : Name := 3617214756542218240
def ownerName : Name := 12044502819693133824
def vidParamsName : Name := 15821708440905973760

example : systemAccountName = stringToName "bacc".toList := by decide
example : ecosystemAccountName.toString = "bacc.better".toList := by decide

/-- The names of genesis block producers: those whose text starts with `bacc.`. -/
def isGenesisInitBp (bpname : Name) : Bool := ['b', 'a', 'c', 'c', '.'].isPrefixOf bpname.toString

end BaccChain
