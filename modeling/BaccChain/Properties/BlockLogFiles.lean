import BaccChain.Chain.BlockHeaderSpec
import BaccChain.Chain.BlockLog

/-!
# What a block log holds

The bytes of the two files are those of the header, the blocks and their positions, after any blocks
were appended.

## Main definitions

* `Layout`: the bytes of both files

## Main results

* `reopened_log`: a log is what was appended, also after it is opened again
* `log_from_zero`: a log that is refused
-/

namespace BaccChain

open Commons

namespace BlockLog

variable {γ β : Type} {codec : LogCodec γ β} {v : Nat} {gs : γ} {first : UInt32}
  {blocks : List β} {b : β} {log log' : BlockLog β}

theorem write_eq_ok {file bytes r : List UInt8} :
    write file bytes = .ok r ↔ (file ++ bytes).length < 2 ^ 63 ∧ r = file ++ bytes := by
  simp only [write, ok_iff]

/-! ## The layout of the files -/

def header (codec : LogCodec γ β) (v : Nat) (gs : γ) (first : UInt32) : List UInt8 :=
  littleEndian 4 v ++ (littleEndian 4 first.toNat ++ (codec.genesis.pack gs ++ littleEndian 8 npos))

/-- The file holds a header and the blocks, each with its position after it. -/
structure Stored (codec : LogCodec γ β) (v : Nat) (gs : γ) (first : UInt32)
    (blocks : List β) (file : List UInt8) : Prop where
  bytes : file = header codec v gs first ++
    records codec.block (header codec v gs first).length blocks
  small : file.length < 2 ^ 63

/-- An open log with these blocks, of which the first has the number `first`. -/
structure Layout (codec : LogCodec γ β) (v : Nat) (gs : γ) (first : UInt32)
    (blocks : List β) (log : BlockLog β) : Prop where
  stored : Stored codec v gs first blocks log.blockFile
  indexFile : log.indexFile =
    numbers 8 (positions codec.block (header codec v gs first).length blocks)
  written : log.genesisWrittenToBlockLog = true
  version : log.version = v
  firstBlockNum : log.firstBlockNum = first
  head : ∀ b, blocks.getLast? = some b → log.head = some b ∧ log.headId = codec.id b
  number : ∀ i b, blocks[i]? = some b → codec.blockNum b = (first.toNat + i) % 2 ^ 32

theorem Layout.append (h : Layout codec v gs first blocks log) {pos : Nat}
    (hok : log.append codec b = .ok (log', pos)) :
    Layout codec v gs first (blocks ++ [b]) log' := by
  simp only [BlockLog.append, ok_iff, write_eq_ok] at hok
  obtain ⟨-, hcount, _, ⟨-, rfl⟩, _, ⟨hsmall, rfl⟩, _, ⟨-, rfl⟩, hok⟩ := hok
  obtain ⟨rfl, rfl⟩ := Prod.mk.inj hok
  have hlength : log.blockFile.length = (header codec v gs first).length +
      (records codec.block (header codec v gs first).length blocks).length := by
    rw [h.stored.bytes, List.length_append]
  refine ⟨⟨?_, hsmall⟩, ?_, h.written, h.version, h.firstBlockNum, fun b' hb' => ?_,
    fun i b' hb' => ?_⟩
  · show log.blockFile ++ codec.block.pack b ++ littleEndian 8 log.blockFile.length = _
    rw [records_snoc, ← hlength, record, h.stored.bytes]
    simp only [List.append_assoc]
  · show log.indexFile ++ littleEndian 8 log.blockFile.length = _
    rw [positions_snoc, ← hlength, numbers_snoc, h.indexFile]
  · rw [List.getLast?_concat] at hb'
    cases hb'
    exact ⟨rfl, rfl⟩
  · rw [h.indexFile, length_numbers, length_positions, h.firstBlockNum,
      UInt32.toNat_sub, UInt32.toNat_ofNat'] at hcount
    have hfirst := first.toNat_lt
    have hnum : codec.blockNum b < 2 ^ 32 := Nat.mod_lt _ (by norm_num)
    rcases lt_trichotomy i blocks.length with hi | rfl | hi
    · rw [List.getElem?_append_left hi] at hb'
      exact h.number i b' hb'
    · rw [List.getElem?_concat_length] at hb'
      cases hb'
      omega
    · rw [List.getElem?_eq_none (by rw [List.length_append, List.length_singleton]; omega)] at hb'
      cases hb'

theorem Layout.appendAll (h : Layout codec v gs first blocks log) {more : List β}
    (hok : log.appendAll codec more = .ok log') :
    Layout codec v gs first (blocks ++ more) log' := by
  induction more generalizing blocks log with
  | nil =>
    obtain rfl := pure_eq_ok.mp hok
    rwa [List.append_nil]
  | cons b more ih =>
    rw [BlockLog.appendAll, List.foldlM_cons, bind_eq_ok] at hok
    obtain ⟨log₁, hlog₁, hok⟩ := hok
    obtain ⟨⟨log₂, pos⟩, hlog₂, rfl⟩ := map_eq_ok.mp hlog₁
    rw [← List.singleton_append, ← List.append_assoc]
    exact ih (h.append hlog₂) hok

theorem length_header (v v' : Nat) :
    (header codec v gs first).length = (header codec v' gs first).length := by
  simp only [header, List.length_append, length_littleEndian]

theorem Layout.withVersion (h : Layout codec v gs first blocks log) (v' : Nat) :
    Layout codec v' gs first blocks { log with
      blockFile := littleEndian 4 v' ++ log.blockFile.drop 4
      version := v' } := by
  have hfile : littleEndian 4 v' ++ log.blockFile.drop 4 = header codec v' gs first ++
      records codec.block (header codec v' gs first).length blocks := by
    rw [h.stored.bytes, length_header v v', header, header, List.append_assoc,
      List.drop_left' (length_littleEndian 4 v), ← List.append_assoc]
  refine ⟨⟨hfile, ?_⟩, ?_, h.written, rfl, h.firstBlockNum, h.head, h.number⟩
  · have hsmall := h.stored.small
    rw [h.stored.bytes, List.length_append, length_header v v'] at hsmall
    show (littleEndian 4 v' ++ log.blockFile.drop 4).length < _
    rwa [hfile, List.length_append]
  · rw [← length_header v]
    exact h.indexFile

theorem layout_reset {log₀ : BlockLog β}
    (hok : log₀.reset codec gs (some b) first = .ok log) :
    Layout codec maxSupportedVersion gs first [b] log := by
  simp only [reset, ok_iff, write_eq_ok, map_eq_ok] at hok
  obtain ⟨_, ⟨-, rfl⟩, _, ⟨-, rfl⟩, _, ⟨-, rfl⟩, _, ⟨hsmall, rfl⟩, _, ⟨_, happend, rfl⟩, rfl⟩ := hok
  have hblank : Layout codec 0 gs first [] { log₀ with
      blockFile := [] ++ littleEndian 4 0 ++ littleEndian 4 first.toNat ++ codec.genesis.pack gs ++
        littleEndian 8 npos
      indexFile := []
      genesisWrittenToBlockLog := true
      version := 0
      firstBlockNum := first } := by
    refine ⟨⟨?_, hsmall⟩, rfl, rfl, rfl, rfl, fun b hb => ?_, fun i b hb => ?_⟩
    · simp [header, records]
    · cases hb
    · cases hb
  exact (hblank.append happend).withVersion _

/-! ## Opening a log -/

/-- **The scan finds the positions of all blocks.** It starts before the first one and stops at the
position of the last one. -/
theorem scan_spec {start pos endPos n : Nat} {index : List UInt8} (blocks : List β)
    (hn : blocks.length < n) (hpos : pos < start)
    (hend : (positions codec.block start blocks).getLast?.getD pos = endPos)
    (hsmall : start + (records codec.block start blocks).length < 2 ^ 63)
    (hindex : index.length + 8 * blocks.length < 2 ^ 63) :
    scan codec endPos n pos (records codec.block start blocks) index =
      .ok (index ++ numbers 8 (positions codec.block start blocks)) := by
  induction blocks generalizing start pos n index with
  | nil =>
    obtain ⟨n, rfl⟩ := Nat.exists_eq_add_of_lt hn
    rw [scan, if_neg (by rw [← hend]; exact lt_irrefl _), positions, numbers, List.flatMap_nil,
      List.append_nil]
    rfl
  | cons b blocks ih =>
    obtain ⟨n, rfl⟩ : ∃ m, n = m + 1 := ⟨n - 1, by rw [List.length_cons] at hn; omega⟩
    have hmem : endPos ∈ positions codec.block start (b :: blocks) := by
      rw [positions, List.getLast?_cons, Option.getD_some] at hend
      rw [positions, ← hend]
      cases hlast : (positions codec.block (start + (record codec.block start b).length)
          blocks).getLast? with
      | none => exact List.mem_cons_self
      | some last => exact List.mem_cons_of_mem _ (List.mem_of_getLast? hlast)
    have hlt : pos < endPos := lt_of_lt_of_le hpos (position_bounds hmem).1
    rw [positions, List.getLast?_cons, Option.getD_some] at hend
    rw [records, List.length_append, ← add_assoc] at hsmall
    rw [List.length_cons] at hn hindex
    have hrecord := length_record (p := codec.block) start b
    have hwrite : write index (littleEndian 8 start) = .ok (index ++ littleEndian 8 start) :=
      write_eq_ok.mpr ⟨by rw [List.length_append, length_littleEndian]; omega, rfl⟩
    have hunpack : ∀ rest, codec.block.unpack (record codec.block start b ++ rest) =
        .ok (b, littleEndian 8 start ++ rest) := fun rest => by
      rw [record, List.append_assoc, codec.block.unpack_pack]
    rw [scan, if_pos hlt, records]
    refine bind_eq_ok.mpr ⟨_, hunpack _, bind_eq_ok.mpr
      ⟨_, readNumber_append (by norm_num; omega) _, bind_eq_ok.mpr ⟨_, hwrite, ?_⟩⟩⟩
    rw [positions, numbers, List.flatMap_cons, ← numbers, ← List.append_assoc]
    exact ih (by omega) (by omega) hend hsmall
      (by rw [List.length_append, length_littleEndian]; omega)

section Stored

variable {file : List UInt8}

theorem Stored.readLast (h : Stored codec v gs first (blocks ++ [b]) file) :
    readLastNumber 8 file = .ok ((header codec v gs first).length +
      (records codec.block (header codec v gs first).length blocks).length) := by
  have hsmall := h.small
  rw [h.bytes, records_snoc, record, ← List.append_assoc, ← List.append_assoc] at hsmall ⊢
  refine readLastNumber_append ?_ _
  rw [List.length_append, List.length_append, List.length_append] at hsmall
  omega

theorem Stored.readBlock (h : Stored codec v gs first blocks log.blockFile) {i : Nat}
    (hi : blocks[i]? = some b) :
    ∃ pos next, (positions codec.block (header codec v gs first).length blocks)[i]? = some pos ∧
      pos < 2 ^ 63 ∧ log.readBlock codec pos = .ok (b, next) := by
  obtain ⟨pos, rest, hpos, hrest⟩ := exists_position (header codec v gs first) hi
  have hsmall := h.small
  rw [h.bytes, List.length_append] at hsmall
  have hbounds := position_bounds (List.mem_of_getElem? hpos)
  refine ⟨pos, log.blockFile.length - rest.length + 8, hpos, by omega,
    bind_eq_ok.mpr ⟨(b, rest), ?_, rfl⟩⟩
  rw [h.bytes, hrest, codec.block.unpack_pack]

theorem Stored.readHead (h : Stored codec v gs first (blocks ++ [b]) log.blockFile) :
    log.readHead codec = .ok (some b) := by
  obtain ⟨pos, next, hpos, hlt, hread⟩ := h.readBlock List.getElem?_concat_length
  rw [positions_snoc, List.getElem?_append_right (by rw [length_positions]), length_positions,
    Nat.sub_self] at hpos
  have hlong : ¬ log.blockFile.length ≤ 8 := by
    rw [h.bytes, header]
    simp only [List.length_append, length_littleEndian]
    omega
  rw [BlockLog.readHead, if_neg hlong]
  refine bind_eq_ok.mpr ⟨pos, h.readLast.trans (congrArg _ (by simpa using hpos)), ?_⟩
  rw [if_pos (by rw [npos]; omega)]
  exact bind_eq_ok.mpr ⟨_, hread, rfl⟩

theorem Stored.readVersion (h : Stored codec maxSupportedVersion gs first blocks file)
    (hfirst : first ≠ 0) : BlockLog.readVersion file = .ok (maxSupportedVersion, first) := by
  have hpos : first.toNat > 0 := Nat.pos_of_ne_zero fun hzero => hfirst (UInt32.toNat_inj.mp hzero)
  rw [h.bytes, header, List.append_assoc, List.append_assoc]
  simp only [BlockLog.readVersion, ok_iff]
  refine ⟨_, readNumber_append (by decide) _, ?_⟩
  dsimp only
  refine ⟨by decide, by decide, ?_⟩
  rw [if_pos (by decide)]
  simp only [ok_iff]
  refine ⟨_, readNumber_append first.toNat_lt _, hpos, ?_⟩
  rw [UInt32.ofNat_toNat]

theorem Stored.constructIndex
    (h : Stored codec maxSupportedVersion gs first (blocks ++ [b]) log.blockFile)
    (hversion : log.version = maxSupportedVersion) :
    log.constructIndex codec = .ok { log with indexFile := numbers 8 (positions codec.block
      (header codec maxSupportedVersion gs first).length (blocks ++ [b])) } := by
  have hsmall := h.small
  have hlength : log.blockFile.length = (header codec maxSupportedVersion gs first).length +
      (records codec.block (header codec maxSupportedVersion gs first).length
        (blocks ++ [b])).length := by
    rw [h.bytes, List.length_append]
  rw [hlength] at hsmall
  have hcount := length_le_records (p := codec.block)
    (header codec maxSupportedVersion gs first).length (blocks ++ [b])
  rw [BlockLog.constructIndex, hversion]
  refine bind_eq_ok.mpr ⟨_, h.readLast, ?_⟩
  have hdrop : log.blockFile.drop 8 = codec.genesis.pack gs ++ (littleEndian 8 npos ++
      records codec.block (header codec maxSupportedVersion gs first).length (blocks ++ [b])) := by
    have height : (littleEndian 4 maxSupportedVersion ++
        littleEndian 4 first.toNat).length = 8 := by
      rw [List.length_append, length_littleEndian, length_littleEndian]
    rw [h.bytes, header, ← List.append_assoc, List.append_assoc, List.drop_left' height,
      List.append_assoc]
  refine bind_eq_ok.mpr ⟨_, (congrArg _ hdrop).trans (codec.genesis.unpack_pack gs _), ?_⟩
  have htotem : ∀ rest, skipTotem maxSupportedVersion (littleEndian 8 npos ++ rest) = .ok rest :=
    fun rest => by
      rw [skipTotem, if_pos (by decide), readNumber_append (by decide)]
      rfl
  refine bind_eq_ok.mpr ⟨_, htotem _, ?_⟩
  refine bind_eq_ok.mpr ⟨_, scan_spec (blocks ++ [b]) ?_ ?_ ?_ hsmall ?_, rfl⟩
  · omega
  · simp only [header, List.length_append, length_littleEndian]
    rw [if_neg (by decide)]
    omega
  · rw [positions_snoc, List.getLast?_concat, Option.getD_some]
  · rw [List.length_nil]
    omega

end Stored

theorem checkIndex_of_last {endPos pos : Nat} {entries : List UInt8}
    (hend : readLastNumber 8 log.blockFile = .ok endPos)
    (hindex : log.indexFile = entries ++ littleEndian 8 pos) (hpos : pos < 256 ^ 8) :
    log.checkIndex codec = if endPos = pos then .ok log else log.constructIndex codec := by
  have hne : log.indexFile.length ≠ 0 := by
    rw [hindex, List.length_append, length_littleEndian]
    omega
  have hlast : readLastNumber 8 log.indexFile = .ok pos := hindex ▸ readLastNumber_append hpos _
  rw [checkIndex, if_pos hne, hend, ok_bind, hlast, ok_bind]
  by_cases heq : endPos = pos
  · rw [if_pos heq, if_neg (by omega)]
    rfl
  · rw [if_neg heq, if_pos (by omega)]

def opened (codec : LogCodec γ β) (first : UInt32) (b : β)
    (blockFile indexFile : List UInt8) : BlockLog β :=
  { blockFile, indexFile, firstBlockNum := first
    version := maxSupportedVersion
    genesisWrittenToBlockLog := true
    head := some b
    headId := codec.id b }

theorem Stored.openLog {file : List UInt8} {index : Option (List UInt8)}
    (h : Stored codec maxSupportedVersion gs first (blocks ++ [b]) file) (hfirst : first ≠ 0) :
    BlockLog.openLog codec { blockFile := file, indexFile := index } =
      (opened codec first b file (index.getD [])).checkIndex codec := by
  have hne : file.length ≠ 0 := by
    rw [h.bytes, header]
    simp only [List.length_append, length_littleEndian]
    omega
  rw [BlockLog.openLog, if_pos hne, h.readVersion hfirst, ok_bind]
  show (BlockLog.readHead codec _ >>= _) = _
  rw [Stored.readHead h]
  rfl

theorem Layout.openLog (h : Layout codec maxSupportedVersion gs first (blocks ++ [b]) log)
    (hfirst : first ≠ 0) {index : Option (List UInt8)} (k : Nat)
    (hindex : index.getD [] = log.indexFile.take (8 * k)) :
    ∃ log', BlockLog.openLog codec { blockFile := log.blockFile, indexFile := index } = .ok log' ∧
      Layout codec maxSupportedVersion gs first (blocks ++ [b]) log' := by
  rw [h.stored.openLog hfirst]
  have hend : readLastNumber 8 (opened codec first b log.blockFile (index.getD [])).blockFile = _ :=
    h.stored.readLast
  have hlast : (header codec maxSupportedVersion gs first).length + (records codec.block
      (header codec maxSupportedVersion gs first).length blocks).length < 256 ^ 8 := by
    have hsmall := h.stored.small
    rw [h.stored.bytes, records_snoc, List.length_append, List.length_append] at hsmall
    norm_num
    omega
  have hbefore : ∀ pos ∈ positions codec.block (header codec maxSupportedVersion gs first).length
      blocks, pos < (header codec maxSupportedVersion gs first).length + (records codec.block
        (header codec maxSupportedVersion gs first).length blocks).length := fun pos hpos =>
    lt_of_lt_of_le (Nat.lt_add_of_pos_right (by norm_num)) (position_bounds hpos).2
  rw [h.indexFile, take_numbers, positions_snoc] at hindex
  have hlayout : Layout codec maxSupportedVersion gs first (blocks ++ [b])
      (opened codec first b log.blockFile (numbers 8 (positions codec.block
        (header codec maxSupportedVersion gs first).length (blocks ++ [b])))) := by
    refine ⟨h.stored, rfl, rfl, rfl, rfl, fun b' hb' => ?_, h.number⟩
    rw [List.getLast?_concat] at hb'
    cases hb'
    exact ⟨rfl, rfl⟩
  have hconstruct : (opened codec first b log.blockFile (index.getD [])).constructIndex codec =
      .ok (opened codec first b log.blockFile (numbers 8 (positions codec.block
        (header codec maxSupportedVersion gs first).length (blocks ++ [b])))) :=
    Stored.constructIndex h.stored rfl
  refine ⟨_, ?_, hlayout⟩
  rw [positions_snoc] at hconstruct ⊢
  generalize (header codec maxSupportedVersion gs first).length = start at *
  generalize positions codec.block start blocks = ps at *
  generalize start + (records codec.block start blocks).length = last at *
  rcases lt_or_ge ps.length k with hk | hk
  · rw [List.take_of_length_le (by rw [List.length_append, List.length_singleton]; omega)] at hindex
    rw [checkIndex_of_last hend (hindex.trans (numbers_snoc _ _ _)) hlast, if_pos rfl, hindex]
  · rw [List.take_append_of_le_length hk] at hindex
    cases k with
    | zero =>
      have hempty : (opened codec first b log.blockFile (index.getD [])).indexFile.length = 0 :=
        congrArg List.length hindex
      rw [checkIndex, if_neg (not_not.mpr hempty)]
      exact hconstruct
    | succ k =>
      have hlt := hbefore ps[k] (List.getElem_mem hk)
      rw [List.take_succ_eq_append_getElem hk, numbers_snoc] at hindex
      rw [checkIndex_of_last hend hindex (hlt.trans hlast), if_neg hlt.ne']
      exact hconstruct

/-! ## Reading a block -/

theorem Layout.readBlockByNum (h : Layout codec v gs first (blocks ++ [b]) log) (n : UInt32) :
    (first ≤ n → n.toNat ≤ codec.blockNum b → ∃ x, (blocks ++ [b])[(n - first).toNat]? = some x ∧
      codec.blockNum x = n.toNat ∧ log.readBlockByNum codec n = .ok (some x)) ∧
    (¬ (first ≤ n ∧ n.toNat ≤ codec.blockNum b) → log.readBlockByNum codec n = .ok none) := by
  obtain ⟨hhead, hid⟩ := h.head b List.getLast?_concat
  have hnum : numFromId log.headId = codec.blockNum b := by
    rw [hid]
    exact numFromId_id _ _
  rw [BlockLog.readBlockByNum, getBlockPos, hhead, hnum, h.firstBlockNum]
  constructor
  · intro hge hle
    have hsub : (n - first).toNat = n.toNat - first.toNat := UInt32.toNat_sub_of_le _ _ hge
    have hge' : first.toNat ≤ n.toNat := UInt32.le_iff_toNat_le.mp hge
    have hindex : (n - first).toNat < (blocks ++ [b]).length := by
      have hlast := h.number blocks.length b List.getElem?_concat_length
      have hn := n.toNat_lt
      rw [hsub, List.length_append, List.length_singleton]
      omega
    obtain ⟨x, hx⟩ : ∃ x, (blocks ++ [b])[(n - first).toNat]? = some x :=
      ⟨_, List.getElem?_eq_getElem hindex⟩
    have hxnum : codec.blockNum x = n.toNat := by
      rw [h.number _ x hx, hsub, Nat.add_sub_cancel' hge']
      exact Nat.mod_eq_of_lt n.toNat_lt
    obtain ⟨pos, next, hpos, hlt, hread⟩ := h.stored.readBlock hx
    obtain ⟨rest, hrest⟩ := readNumber_numbers (w := 8) hpos (by norm_num; omega)
    refine ⟨x, hx, hxnum, bind_eq_ok.mpr ⟨pos, ?_, ?_⟩⟩
    · rw [if_pos ⟨rfl, hle, hge⟩, h.indexFile]
      exact bind_eq_ok.mpr ⟨_, hrest, rfl⟩
    · rw [if_pos (by rw [npos]; omega)]
      exact bind_eq_ok.mpr ⟨_, hread, bind_eq_ok.mpr ⟨(), check_eq_ok.mpr hxnum, rfl⟩⟩
  · intro hout
    rw [if_neg fun hin => hout ⟨hin.2.2, hin.2.1⟩]
    rfl

/-! ## Closing and opening -/

/-- **A log that was written, closed and opened.** After a reset with a first block and any blocks
appended, the log can be opened again, with its index as it is, without it or with the last entries
cut off. It has the same head, and returns each block under its number and nothing under other
numbers. -/
theorem reopened_log (codec : LogCodec γ β) (log₀ : BlockLog β) (gs : γ) (b : β)
    (first : UInt32) (hfirst : first ≠ 0) (blocks : List β) (log : BlockLog β)
    (hlog : (log₀.reset codec gs (some b) first >>= (·.appendAll codec blocks)) = .ok log)
    (index : Option (List UInt8))
    (hindex : index = log.close.indexFile ∨ index = none ∨
      ∃ k, index = some (log.indexFile.take (8 * k))) :
    ∃ log' head, openLog codec { log.close with indexFile := index } = .ok log' ∧
      (b :: blocks).getLast? = some head ∧ log.head = some head ∧ log'.head = some head ∧
      ∀ n : UInt32,
        (first ≤ n → n.toNat ≤ codec.blockNum head →
          ∃ x, (b :: blocks)[(n - first).toNat]? = some x ∧ codec.blockNum x = n.toNat ∧
            log'.readBlockByNum codec n = .ok (some x)) ∧
        (¬ (first ≤ n ∧ n.toNat ≤ codec.blockNum head) →
          log'.readBlockByNum codec n = .ok none) := by
  obtain ⟨log₁, hreset, happend⟩ := bind_eq_ok.mp hlog
  have hlayout : Layout codec maxSupportedVersion gs first (b :: blocks) log :=
    (layout_reset hreset).appendAll happend
  obtain ⟨k, hcut⟩ : ∃ k, index.getD [] = log.indexFile.take (8 * k) := by
    rcases hindex with rfl | rfl | ⟨k, rfl⟩
    · refine ⟨log.indexFile.length, ?_⟩
      show log.indexFile = _
      rw [List.take_of_length_le (by omega)]
    · exact ⟨0, rfl⟩
    · exact ⟨k, rfl⟩
  obtain ⟨init, head, hsplit⟩ : ∃ init head, b :: blocks = init ++ [head] :=
    ⟨_, _, (List.dropLast_append_getLast (List.cons_ne_nil b blocks)).symm⟩
  rw [hsplit] at hlayout ⊢
  obtain ⟨log', hopen, hlayout'⟩ := hlayout.openLog hfirst k hcut
  exact ⟨log', head, hopen, List.getLast?_concat, (hlayout.head head List.getLast?_concat).1,
    (hlayout'.head head List.getLast?_concat).1, hlayout'.readBlockByNum⟩

section Example

/-- Blocks of one byte, which is the number of the previous block. -/
def byteCodec : LogCodec Unit UInt8 where
  crypto :=
    { hashHeader := fun h => 2 ^ 32 * h.previous
      hashSchedule := fun _ => 0
      hashPair := fun a b => a + b
      recover := fun _ _ => .error "no signatures" }
  genesis :=
    { pack := fun _ => []
      unpack := fun bytes => .ok ((), bytes)
      unpack_pack := fun _ _ => rfl }
  block :=
    { pack := fun b => [b]
      unpack := fun
        | [] => .error "end of file"
        | b :: bytes => .ok (b, bytes)
      unpack_pack := fun _ _ => rfl }
  header b := { previous := endianReverse32 (if b = 255 then 2 ^ 32 - 1 else b.toNat) }

theorem reopened_log_threeBlocks :
    ∃ log, (({} : BlockLog UInt8).reset byteCodec () (some 4) 5 >>=
        (·.appendAll byteCodec [5, 6])) = .ok log ∧
      ∃ log' head, openLog byteCodec { log.close with indexFile := none } = .ok log' ∧
        [4, 5, 6].getLast? = some head ∧ log.head = some head ∧ log'.head = some head ∧
        ∀ n : UInt32,
          (5 ≤ n → n.toNat ≤ byteCodec.blockNum head →
            ∃ x, [4, 5, 6][(n - 5).toNat]? = some x ∧ byteCodec.blockNum x = n.toNat ∧
              log'.readBlockByNum byteCodec n = .ok (some x)) ∧
          (¬ (5 ≤ n ∧ n.toNat ≤ byteCodec.blockNum head) →
            log'.readBlockByNum byteCodec n = .ok none) := by
  obtain ⟨log, hlog, -⟩ := exists_ok_of_any (p := fun _ => true)
    (x := ({} : BlockLog UInt8).reset byteCodec () (some 4) 5 >>= (·.appendAll byteCodec [5, 6]))
    (by decide +kernel)
  exact ⟨log, hlog, reopened_log byteCodec {} () 4 5 (by decide) [5, 6] log hlog none
    (.inr (.inl rfl))⟩

/-- **A log whose first block has the number zero**, which is one more than the last number of 32
bits, can be written but not opened. -/
theorem log_from_zero :
    ∃ log, (({} : BlockLog UInt8).reset byteCodec () (some 255) 0 >>=
        (·.appendAll byteCodec [])) = .ok log ∧
      ∀ log', openLog byteCodec log.close ≠ .ok log' := by
  obtain ⟨log, hlog, herror⟩ := exists_ok_of_any
    (p := fun log => (openLog byteCodec log.close).toOption.isNone)
    (x := ({} : BlockLog UInt8).reset byteCodec () (some 255) 0 >>= (·.appendAll byteCodec []))
    (by decide +kernel)
  refine ⟨log, hlog, fun log' hopen => ?_⟩
  rw [hopen] at herror
  cases herror

end Example

end BlockLog

end BaccChain
