import BaccChain.Commons.Program
import Mathlib.Tactic.Ring
import Mathlib.Tactic.NormNum

/-!
# Files as byte sequences

Numbers of fixed width, least significant byte first, and values whose packing tells where it ends.
Records with a pointer back to their start are such values, each followed by its own position.
-/

namespace Commons

/-! ## Numbers -/

/-- The lowest `w` bytes of a number. -/
def littleEndian : ℕ → ℕ → List UInt8
  | 0, _ => []
  | w + 1, n => UInt8.ofNat n :: littleEndian w (n / 256)

def ofLittleEndian : List UInt8 → ℕ
  | [] => 0
  | b :: bytes => b.toNat + 256 * ofLittleEndian bytes

@[simp] theorem length_littleEndian (w n : ℕ) : (littleEndian w n).length = w := by
  induction w generalizing n with
  | zero => rfl
  | succ w ih => rw [littleEndian, List.length_cons, ih]

theorem ofLittleEndian_littleEndian {w n : ℕ} (h : n < 256 ^ w) :
    ofLittleEndian (littleEndian w n) = n := by
  induction w generalizing n with
  | zero =>
    rw [pow_zero] at h
    exact (Nat.lt_one_iff.mp h).symm
  | succ w ih =>
    have hdiv : n / 256 < 256 ^ w := Nat.div_lt_of_lt_mul (by rwa [← pow_succ'])
    rw [littleEndian, ofLittleEndian, ih hdiv, UInt8.toNat_ofNat']
    exact Nat.mod_add_div n 256

/-- The number at the start of the bytes, and what follows. -/
def readNumber (w : ℕ) (bytes : List UInt8) : Except String (ℕ × List UInt8) :=
  if w ≤ bytes.length then .ok (ofLittleEndian (bytes.take w), bytes.drop w)
  else .error "end of file"

def readLastNumber (w : ℕ) (bytes : List UInt8) : Except String ℕ :=
  if w ≤ bytes.length then .ok (ofLittleEndian (bytes.drop (bytes.length - w)))
  else .error "end of file"

theorem readNumber_append {w n : ℕ} (h : n < 256 ^ w) (rest : List UInt8) :
    readNumber w (littleEndian w n ++ rest) = .ok (n, rest) := by
  have hw : (littleEndian w n).length = w := length_littleEndian w n
  rw [readNumber, if_pos (by rw [List.length_append, hw]; omega), List.take_left' hw,
    List.drop_left' hw, ofLittleEndian_littleEndian h]

theorem readLastNumber_append {w n : ℕ} (h : n < 256 ^ w) (before : List UInt8) :
    readLastNumber w (before ++ littleEndian w n) = .ok n := by
  have hw : (before ++ littleEndian w n).length = before.length + w := by
    rw [List.length_append, length_littleEndian]
  rw [readLastNumber, if_pos (by omega), hw, Nat.add_sub_cancel, List.drop_left,
    ofLittleEndian_littleEndian h]

def numbers (w : ℕ) (l : List ℕ) : List UInt8 := l.flatMap (littleEndian w)

@[simp] theorem length_numbers (w : ℕ) (l : List ℕ) : (numbers w l).length = w * l.length := by
  induction l with
  | nil => rfl
  | cons n l ih =>
    rw [numbers, List.flatMap_cons, List.length_append, ← numbers, ih, length_littleEndian,
      List.length_cons]
    ring

theorem numbers_snoc (w : ℕ) (l : List ℕ) (n : ℕ) :
    numbers w (l ++ [n]) = numbers w l ++ littleEndian w n := by
  rw [numbers, List.flatMap_append, List.flatMap_singleton, numbers]

theorem take_numbers (w : ℕ) (l : List ℕ) (k : ℕ) :
    (numbers w l).take (w * k) = numbers w (l.take k) := by
  have hsplit : numbers w l = numbers w (l.take k) ++ numbers w (l.drop k) := by
    rw [numbers, numbers, numbers, ← List.flatMap_append, List.take_append_drop]
  rcases le_or_gt k l.length with hk | hk
  · rw [hsplit, List.take_left' (by rw [length_numbers, List.length_take, min_eq_left hk])]
  · rw [List.take_of_length_le hk.le, List.take_of_length_le]
    rw [length_numbers]
    exact Nat.mul_le_mul_left w hk.le

theorem readNumber_numbers {w i n : ℕ} {l : List ℕ} (hi : l[i]? = some n) (hn : n < 256 ^ w) :
    ∃ rest, readNumber w ((numbers w l).drop (w * i)) = .ok (n, rest) := by
  obtain ⟨hlt, rfl⟩ := List.getElem?_eq_some_iff.mp hi
  have hdrop : (numbers w l).drop (w * i) = littleEndian w l[i] ++ numbers w (l.drop (i + 1)) := by
    conv_lhs => rw [← List.take_append_drop i l, List.drop_eq_getElem_cons hlt]
    rw [numbers, List.flatMap_append, ← numbers, List.drop_left', List.flatMap_cons, ← numbers]
    rw [length_numbers, List.length_take, min_eq_left hlt.le]
  exact ⟨_, by rw [hdrop, readNumber_append hn]⟩

/-! ## Values -/

/-- A format in which what was packed is unpacked, with whatever follows it. -/
structure Packing (α : Type*) where
  pack : α → List UInt8
  unpack : List UInt8 → Except String (α × List UInt8)
  unpack_pack : ∀ a rest, unpack (pack a ++ rest) = .ok (a, rest)

/-! ## Records with a pointer back -/

variable {α : Type*} (p : Packing α)

def record (pos : ℕ) (a : α) : List UInt8 := p.pack a ++ littleEndian 8 pos

/-- Records one after the other, from a position on. -/
def records : ℕ → List α → List UInt8
  | _, [] => []
  | start, a :: l => record p start a ++ records (start + (record p start a).length) l

def positions : ℕ → List α → List ℕ
  | _, [] => []
  | start, a :: l => start :: positions (start + (record p start a).length) l

variable {p} {start i : ℕ} {a : α} {l : List α}

theorem length_record (pos : ℕ) (a : α) :
    (record p pos a).length = (p.pack a).length + 8 := by
  rw [record, List.length_append, length_littleEndian]

theorem records_append (l l' : List α) : records p start (l ++ l') =
    records p start l ++ records p (start + (records p start l).length) l' := by
  induction l generalizing start with
  | nil => rfl
  | cons a l ih =>
    rw [List.cons_append, records, ih, records, List.append_assoc, List.length_append, add_assoc]

theorem records_snoc (l : List α) (a : α) : records p start (l ++ [a]) =
    records p start l ++ record p (start + (records p start l).length) a := by
  rw [records_append, records, records, List.append_nil]

theorem positions_snoc (l : List α) (a : α) :
    positions p start (l ++ [a]) = positions p start l ++ [start + (records p start l).length] := by
  induction l generalizing start with
  | nil => rfl
  | cons b l ih =>
    rw [List.cons_append, positions, ih, positions, List.cons_append, records, List.length_append,
      add_assoc]

@[simp] theorem length_positions (start : ℕ) (l : List α) :
    (positions p start l).length = l.length := by
  induction l generalizing start with
  | nil => rfl
  | cons a l ih => rw [positions, List.length_cons, List.length_cons, ih]

theorem length_le_records (start : ℕ) (l : List α) : 8 * l.length ≤ (records p start l).length := by
  induction l generalizing start with
  | nil => exact le_rfl
  | cons a l ih =>
    rw [records, List.length_append, length_record, List.length_cons]
    have := ih (start + ((p.pack a).length + 8))
    omega

theorem position_bounds {pos : ℕ} (h : pos ∈ positions p start l) :
    start ≤ pos ∧ pos + 8 ≤ start + (records p start l).length := by
  induction l generalizing start with
  | nil => cases h
  | cons a l ih =>
    have hlength := length_record (p := p) start a
    rw [records, List.length_append]
    rcases List.mem_cons.mp h with rfl | h
    · omega
    · obtain ⟨hstart, hend⟩ := ih h
      omega

theorem exists_position (file : List UInt8) (h : l[i]? = some a) :
    ∃ pos rest, (positions p file.length l)[i]? = some pos ∧
      (file ++ records p file.length l).drop pos = p.pack a ++ rest := by
  induction l generalizing file i with
  | nil => simp at h
  | cons b l ih =>
    cases i with
    | zero =>
      obtain rfl : b = a := by simpa using h
      refine ⟨file.length, littleEndian 8 file.length ++
        records p (file.length + (record p file.length b).length) l, rfl, ?_⟩
      rw [List.drop_left, records, record, List.append_assoc]
    | succ =>
      rw [List.getElem?_cons_succ] at h
      obtain ⟨pos, rest, hpos, hrest⟩ := ih (file ++ record p file.length b) h
      rw [List.length_append] at hpos hrest
      rw [List.append_assoc] at hrest
      exact ⟨pos, rest, hpos, hrest⟩

end Commons
