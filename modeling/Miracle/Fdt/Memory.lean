import Miracle.Fdt.Basic
import Miracle.Memblock.Runs

/-! # The memory that a node adds

Reading the cells gives the entries of the node one by one.  At boot, when the region
arrays cannot grow, an entry adds its whole pages exactly if the last of them ends below
the top of the address space and the array of memory has room for the new regions.
-/

namespace Miracle.Fdt

open Memblock

/-- Every entry with a size is added in turn, with `P` from the state before it to the state
    behind it. -/
def EachEntry (env : Env) (P : State → Nat → Nat → State → Prop) : State → List (Nat × Nat) → Prop
  | _, [] => True
  | mb, (base, size) :: rest =>
      if size = 0 then EachEntry env P mb rest
      else ∃ mb', earlyInitDtAddMemoryArch env mb base size = .ok mb' ∧ P mb base size mb' ∧
        EachEntry env P mb' rest

/-- The number of stretches of absent addresses in `[lo, hi)`. -/
def stretches (mb : State) (lo hi : Nat) : Nat :=
  (Extent.starts (fun a => (mb.map .memory a).isSome = true) lo hi).card

/-- The entry adds the bytes of its whole pages and no others. -/
def Grown (mb : State) (base size : Nat) (mb' : State) : Prop :=
  ∀ a, (mb'.map .memory a).isSome ↔ (mb.map .memory a).isSome ∨ InPages base size a

/-- The whole pages end below the top of the address space and there is room for the new
    regions.  Where already the first page boundary is at the top, the code adds the range
    that the wrapped end leaves, and then only what is memory anyway or finds no room does no
    harm. -/
def Importable (mb : State) (base size : Nat) : Prop :=
  if pageUp base < 2 ^ 64 then
    pageDown (base + size) < 2 ^ 64 ∧
      mb.memory.cnt + stretches mb (pageUp base) (pageDown (base + size)) ≤ mb.memory.max
  else
    (∀ a, a < pageDown (base + size) - 2 ^ 64 → (mb.map .memory a).isSome) ∨
      mb.memory.max < mb.memory.cnt + stretches mb 0 (pageDown (base + size) - 2 ^ 64)

/-! ## Reading numbers -/

theorem foldl_beNumber (bytes : List UInt8) (r : Nat) :
    bytes.foldl (fun r b => r * 256 + b.toNat) r = r * 256 ^ bytes.length + beNumber bytes := by
  unfold beNumber
  induction bytes generalizing r with
  | nil => simp
  | cons b bytes ih =>
      rw [List.foldl_cons, ih, List.foldl_cons, ih (0 * 256 + b.toNat), List.length_cons, Nat.pow_succ]
      ring

theorem beNumber_append (l m : List UInt8) :
    beNumber (l ++ m) = beNumber l * 256 ^ m.length + beNumber m := by
  rw [beNumber, List.foldl_append, foldl_beNumber]
  rfl

theorem beNumber_lt (bytes : List UInt8) : beNumber bytes < 256 ^ bytes.length := by
  induction bytes using List.reverseRecOn with
  | nil => decide
  | append_singleton bytes b ih =>
      have byte : b.toNat < 256 := b.toNat_lt
      have one : beNumber [b] = b.toNat := by simp [beNumber]
      rw [beNumber_append, one, List.length_append, List.length_singleton, pow_one, Nat.pow_succ]
      omega

theorem be32_eq {prop : List UInt8} {cell : Nat} (inside : 4 * cell + 4 ≤ prop.length) :
    be32 prop cell = .ok (beNumber ((prop.drop (4 * cell)).take 4)) := by
  have bytes : (prop.drop (4 * cell)).take 4 =
      [prop[4 * cell], prop[4 * cell + 1], prop[4 * cell + 2], prop[4 * cell + 3]] := by
    rw [List.drop_eq_getElem_cons (by omega), List.drop_eq_getElem_cons (by omega),
      List.drop_eq_getElem_cons (by omega), List.drop_eq_getElem_cons (by omega)]
    rfl
  have first := List.getElem?_eq_getElem (by omega : 4 * cell < prop.length)
  have second := List.getElem?_eq_getElem (by omega : 4 * cell + 1 < prop.length)
  have third := List.getElem?_eq_getElem (by omega : 4 * cell + 2 < prop.length)
  have fourth := List.getElem?_eq_getElem (by omega : 4 * cell + 3 < prop.length)
  simp only [be32, first, second, third, fourth, bytes, beNumber, List.foldl_cons, List.foldl_nil]
  refine congrArg Except.ok ?_
  omega

/-- The loop keeps the low 64 bits of the number that the cells spell. -/
theorem ofReadNumberLoop_eq {prop : List UInt8} {cell n r : Nat} (word : r < 2 ^ 64)
    (inside : 4 * (cell + n) ≤ prop.length) :
    ofReadNumberLoop prop cell n r =
      .ok (u64 (r * 256 ^ (4 * n) + beNumber ((prop.drop (4 * cell)).take (4 * n)))) := by
  induction n generalizing cell r with
  | zero => simp [ofReadNumberLoop, beNumber, u64_of_lt word]
  | succ n ih =>
      have split : (prop.drop (4 * cell)).take (4 * (n + 1)) =
          (prop.drop (4 * cell)).take 4 ++ (prop.drop (4 * (cell + 1))).take (4 * n) := by
        rw [Nat.mul_succ 4 n, Nat.add_comm (4 * n) 4, List.take_add, List.drop_drop]
        rfl
      have head := beNumber_lt ((prop.drop (4 * cell)).take 4)
      have rest : ((prop.drop (4 * (cell + 1))).take (4 * n)).length = 4 * n := by
        rw [List.length_take, List.length_drop]
        omega
      rw [List.length_take_of_le (by rw [List.length_drop]; omega)] at head
      have shifted : u64 (r <<< 32) ||| beNumber ((prop.drop (4 * cell)).take 4) =
          u64 (r * 2 ^ 32 + beNumber ((prop.drop (4 * cell)).take 4)) := by
        have high : u64 (r <<< 32) = (r % 2 ^ 32) <<< 32 := by
          simp only [u64, Nat.shiftLeft_eq]
          omega
        rw [high, ← Nat.shiftLeft_add_eq_or_of_lt (by simpa using head), Nat.shiftLeft_eq, u64]
        omega
      rw [ofReadNumberLoop, be32_eq (by omega), ok_bind, shifted, ih (u64_lt _) (by omega), split,
        beNumber_append, rest]
      refine congrArg Except.ok ?_
      generalize beNumber ((prop.drop (4 * cell)).take 4) = c
      generalize beNumber ((prop.drop (4 * (cell + 1))).take (4 * n)) = t
      calc u64 (u64 (r * 2 ^ 32 + c) * 256 ^ (4 * n) + t)
          = u64 ((r * 2 ^ 32 + c) * 256 ^ (4 * n) + t) := by simp only [u64, Nat.add_mod, Nat.mul_mod, Nat.mod_mod]
        _ = u64 (r * 256 ^ (4 * (n + 1)) + (c * 256 ^ (4 * n) + t)) := by
            congr 1
            rw [Nat.mul_succ, Nat.pow_add]
            ring

theorem dtMemNextCell_two {prop : List UInt8} {cell : Nat} (inside : 4 * cell + 8 ≤ prop.length) :
    dtMemNextCell 2 prop cell = .ok (beNumber ((prop.drop (4 * cell)).take 8), cell + 2) := by
  have small := beNumber_lt ((prop.drop (4 * cell)).take 8)
  rw [List.length_take_of_le (by rw [List.length_drop]; omega)] at small
  rw [dtMemNextCell, ofReadNumber, ofReadNumberLoop_eq (by decide) (by omega), Nat.zero_mul, Nat.zero_add,
    u64_of_lt small]
  rfl

/-! ## The range of an entry -/

theorem inPages_iff {base size a : Nat} :
    InPages base size a ↔ (pageUp base ≤ a ∧ a < pageDown (base + size)) ∧ a ≤ maxMemblockAddr := by
  simp only [InPages, pageUp, pageDown, pageSize, minMemblockAddr]
  constructor
  · rintro ⟨⟨p, low, high, inside⟩, -, top⟩
    omega
  · rintro ⟨inside, top⟩
    exact ⟨⟨a / 4096, by omega⟩, by omega, top⟩

theorem pageUp_le_pow {base : Nat} (word : base < 2 ^ 64) : pageUp base ≤ 2 ^ 64 := by
  simp only [pageUp, pageSize]
  omega

/-- The range in closed form; a first page boundary of `2 ^ 64` comes out as zero. -/
theorem dtAddRange_eq {base size : Nat} (word : base < 2 ^ 64) (small : size < 2 ^ 64) :
    dtAddRange base size =
      if size < pageSize - base % pageSize then none
      else some (u64 (pageUp base), pageDown (base + size) - pageUp base) := by
  have offset : base &&& (pageSize - 1) = base % pageSize := Nat.and_two_pow_sub_one_eq_mod base 12
  have aligned : alignWord 64 base pageSize = u64 (pageUp base) := by
    have round := @alignWord_pow 64 12 base (by decide)
    simp only [u64, pageUp, pageSize] at round ⊢
    rw [show (4096 : Nat) = 2 ^ 12 by rfl, round]
    omega
  have mask {n : Nat} (lt : n < 2 ^ 64) : n &&& pageMask = pageDown n :=
    @and_highMask n 12 64 lt (by decide)
  unfold dtAddRange
  rw [offset]
  by_cases tiny : size < pageSize - base % pageSize
  · simp only [if_pos tiny]
  have start : (if base % pageSize = 0 then base else alignWord 64 base pageSize) = u64 (pageUp base) := by
    rw [aligned]
    split
    · simp only [u64, pageUp, pageSize] at *
      omega
    · rfl
  have length : (if base % pageSize = 0 then size else u64Sub size (pageSize - base % pageSize)) &&& pageMask =
      pageDown (base + size) - pageUp base := by
    split
    · rw [mask small]
      simp only [pageDown, pageUp, pageSize] at *
      omega
    · rw [u64Sub_of_le small (Nat.not_lt.mp tiny), mask (by omega)]
      simp only [pageDown, pageUp, pageSize] at *
      omega
  have bound := u64_lt (pageUp base)
  have fits : ¬ u64 (pageUp base) > maxMemblockAddr := by
    simp only [maxMemblockAddr]
    omega
  have last (n : Nat) : ¬ u64Sub (u64 n) 1 > maxMemblockAddr := by
    simp only [u64Sub, maxMemblockAddr]
    omega
  have low (n : Nat) : ¬ n < minMemblockAddr := Nat.not_lt_zero n
  simp only [if_neg tiny, start, length, if_neg fits, if_neg (last _), if_neg (low _)]

/-! ## One addition at boot -/

theorem missing_eq_stretches {mb : State} (inv : Inv mb) (base size : Nat) :
    missing mb .memory base size = stretches mb base (base + memblockCapSize base size) := by
  obtain ⟨l, contents⟩ := (inv .memory).contents
  rw [missing_eq contents, Extent.pieces_eq_card contents.sound.ordered, stretches]
  refine congrArg Finset.card ?_
  ext x
  simp only [Extent.mem_starts, Extent.Covered, State.map, contents.lookup_eq]

/-- Before the arrays may grow an addition happens whole or not at all. -/
theorem add_boot (env : Env) {mb : State} (h : RunInv mb) (early : mb.canResize = false)
    (base size : Nat) :
    ∃ mb', Memblock.discard (memblockAdd env mb base size) = .ok mb' ∧ RunInv mb' ∧ mb'.canResize = false ∧
      if mb.memory.cnt + missing mb .memory base size ≤ mb.memory.max then
        ∀ a, (mb'.map .memory a).isSome ↔ (mb.map .memory a).isSome ∨ InRange base size a
      else mb' = mb := by
  by_cases fits : mb.memory.cnt + missing mb .memory base size ≤ mb.memory.max
  · obtain ⟨mb', done, edit, inv, -⟩ := addRangeWith_fits (memblockDoubleArray env nesting) h.good.inv .memory
      Flags.none fits
    refine ⟨mb', ?_, h.edit edit inv, (State.canResize_of_settings edit.settings_eq).trans early, ?_⟩
    · rw [memblockAdd, memblockAddRange, done]
      rfl
    · rw [if_pos fits]
      intro a
      rw [edit.map_eq, withRange]
      by_cases inside : InRange base size a <;> cases mb.map .memory a <;> simp [inside]
  · refine ⟨mb, ?_, h, early, ?_⟩
    · rw [memblockAdd, memblockAddRange, nesting,
        @addRangeWith_full env 1 mb h (by simp [early]) .memory base size Flags.none fits]
      rfl
    · rw [if_neg fits]

theorem not_memory_top {mb : State} (inv : Inv mb) {a : Nat} (top : physAddrMax ≤ a) :
    mb.map .memory a = none := by
  obtain ⟨l, contents⟩ := (inv .memory).contents
  rw [State.map, contents.lookup_eq]
  exact contents.sound.lookup_above top

/-! ## One entry -/

theorem stretches_pos {mb : State} {lo hi : Nat} (pos : stretches mb lo hi ≠ 0) :
    ∃ a, lo ≤ a ∧ a < hi ∧ ¬ (mb.map .memory a).isSome = true := by
  obtain ⟨a, start⟩ := Finset.card_ne_zero.mp pos
  obtain ⟨⟨low, high⟩, free, -⟩ := Extent.mem_starts.mp start
  exact ⟨a, low, high, free⟩

theorem stretches_empty (mb : State) {lo hi : Nat} (le : hi ≤ lo) : stretches mb lo hi = 0 := by
  by_contra pos
  obtain ⟨a, low, high, -⟩ := stretches_pos pos
  omega

/-- Bytes in a range that fits below the top. -/
theorem inRange_iff {base size a : Nat} (fits : base + size ≤ physAddrMax) :
    InRange base size a ↔ base ≤ a ∧ a < base + size := by
  have cap : memblockCapSize base size = size := by
    unfold memblockCapSize
    omega
  rw [InRange, cap]

theorem missing_fitting {mb : State} (inv : Inv mb) {base size : Nat} (fits : base + size ≤ physAddrMax) :
    missing mb .memory base size = stretches mb base (base + size) := by
  have cap : memblockCapSize base size = size := by
    unfold memblockCapSize
    omega
  rw [missing_eq_stretches inv, cap]

/-- An addition that asks for the whole pages of an entry adds them if it finds room. -/
theorem grown_iff_room {mb mb' : State} {base size b s : Nat} (inv : Inv mb)
    (fits : b + s ≤ physAddrMax) (pages : ∀ a, InPages base size a ↔ b ≤ a ∧ a < b + s)
    (added : if mb.memory.cnt + missing mb .memory b s ≤ mb.memory.max then
        ∀ a, (mb'.map .memory a).isSome ↔ (mb.map .memory a).isSome ∨ InRange b s a
      else mb' = mb) :
    Grown mb base size mb' ↔ mb.memory.cnt + stretches mb b (b + s) ≤ mb.memory.max := by
  rw [missing_fitting inv fits] at added
  by_cases room : mb.memory.cnt + stretches mb b (b + s) ≤ mb.memory.max
  · rw [if_pos room] at added
    refine iff_of_true (fun a => ?_) room
    rw [added a, inRange_iff fits, pages]
  · rw [if_neg room] at added
    refine iff_of_false (fun grown => ?_) room
    have cnt : mb.memory.cnt ≤ mb.memory.max := (inv .memory).cnt_le
    obtain ⟨a, low, high, free⟩ := @stretches_pos mb b (b + s) (by omega)
    subst added
    exact free ((grown a).mpr (.inr ((pages a).mpr ⟨low, high⟩)))

/-- Where the first page boundary is at the top the code adds a range at address zero. -/
theorem grown_iff_harmless {mb mb' : State} {base size s : Nat} (inv : Inv mb)
    (fits : s ≤ physAddrMax) (pages : ∀ a, ¬ InPages base size a)
    (added : if mb.memory.cnt + missing mb .memory 0 s ≤ mb.memory.max then
        ∀ a, (mb'.map .memory a).isSome ↔ (mb.map .memory a).isSome ∨ InRange 0 s a
      else mb' = mb) :
    Grown mb base size mb' ↔ (∀ a, a < s → (mb.map .memory a).isSome) ∨
      mb.memory.max < mb.memory.cnt + stretches mb 0 s := by
  have fits' : 0 + s ≤ physAddrMax := by omega
  rw [missing_fitting inv fits', Nat.zero_add] at added
  by_cases room : mb.memory.cnt + stretches mb 0 s ≤ mb.memory.max
  · rw [if_pos room] at added
    constructor
    · intro grown
      left
      intro a inside
      have here := (added a).mpr (.inr ((inRange_iff fits').mpr (by omega)))
      exact ((grown a).mp here).resolve_right (pages a)
    · rintro (covered | full)
      · intro a
        rw [added a, inRange_iff fits']
        constructor
        · rintro (old | inside)
          · exact .inl old
          · exact .inl (covered a (by omega))
        · rintro (old | page)
          · exact .inl old
          · exact absurd page (pages a)
      · omega
  · rw [if_neg room] at added
    subst added
    refine iff_of_true (fun a => ?_) (.inr (Nat.not_le.mp room))
    exact ⟨.inl, fun either => either.resolve_right (pages a)⟩

/-- One entry of the scan. -/
theorem add_entry (env : Env) {mb : State} (h : RunInv mb) (early : mb.canResize = false)
    {base size : Nat} (word : base < 2 ^ 64) (small : size < 2 ^ 64) :
    ∃ mb', earlyInitDtAddMemoryArch env mb base size = .ok mb' ∧ RunInv mb' ∧
      mb'.canResize = false ∧ (Grown mb base size mb' ↔ Importable mb base size) := by
  have top := pageUp_le_pow word
  have low : mb.memory.cnt ≤ mb.memory.max := (h.good.inv .memory).cnt_le
  have range := dtAddRange_eq word small
  by_cases tiny : size < pageSize - base % pageSize
  · -- too short for a page boundary and a page behind it
    rw [if_pos tiny] at range
    have none : pageDown (base + size) ≤ pageUp base := by
      simp only [pageDown, pageUp, pageSize] at tiny ⊢
      omega
    refine ⟨mb, by rw [earlyInitDtAddMemoryArch, range], h, early, iff_of_true (fun a => ?_) ?_⟩
    · rw [inPages_iff]
      exact ⟨.inl, fun either => either.resolve_right (by omega)⟩
    · unfold Importable
      split
      · rw [stretches_empty mb none]
        omega
      · exact .inl (fun a inside => absurd inside (by omega))
  rw [if_neg tiny] at range
  obtain ⟨mb', done, inv, early', added⟩ := add_boot env h early (u64 (pageUp base))
    (pageDown (base + size) - pageUp base)
  refine ⟨mb', by rw [earlyInitDtAddMemoryArch, range]; exact done, inv, early', ?_⟩
  unfold Importable
  have ordered : pageUp base ≤ pageDown (base + size) := by
    simp only [pageDown, pageUp, pageSize] at tiny ⊢
    omega
  by_cases inside : pageUp base < 2 ^ 64
  · rw [if_pos inside]
    rw [u64_of_lt inside] at added
    by_cases high : pageDown (base + size) < 2 ^ 64
    · have fits : pageUp base + (pageDown (base + size) - pageUp base) ≤ physAddrMax := by
        simp only [physAddrMax]
        omega
      rw [grown_iff_room h.good.inv fits _ added, Nat.add_sub_cancel' ordered]
      · exact (and_iff_right high).symm
      · intro a
        rw [inPages_iff, Nat.add_sub_cancel' ordered, maxMemblockAddr]
        omega
    · -- the last byte of the address space is never memory
      refine iff_of_false (fun grown => ?_) (fun both => high both.1)
      have page : InPages base size (2 ^ 64 - 1) := by
        rw [inPages_iff, maxMemblockAddr]
        omega
      have absent : mb'.map .memory (2 ^ 64 - 1) = none := not_memory_top inv.good.inv le_rfl
      have last := (grown (2 ^ 64 - 1)).mpr (.inr page)
      rw [absent] at last
      exact absurd last (by decide)
  · have edge : pageUp base = 2 ^ 64 := Nat.le_antisymm top (Nat.not_lt.mp inside)
    rw [if_neg inside]
    rw [edge] at added
    have fits : pageDown (base + size) - 2 ^ 64 ≤ physAddrMax := by
      have := Nat.div_mul_le_self (base + size) pageSize
      simp only [physAddrMax, pageDown]
      omega
    refine grown_iff_harmless h.good.inv fits (fun a => ?_) added
    rw [inPages_iff, maxMemblockAddr]
    omega

/-! ## The scan -/

/-- The scan as a loop over the entries. -/
def addEntries (env : Env) : State → List (Nat × Nat) → Except Bug State
  | mb, [] => .ok mb
  | mb, (base, size) :: rest =>
      if size = 0 then addEntries env mb rest
      else earlyInitDtAddMemoryArch env mb base size >>= fun mb => addEntries env mb rest

/-- The loop reads the entries from the `i`-th on and nothing behind them. -/
theorem scanLoop_eq (env : Env) (prop : List UInt8) {i fuel : Nat} (mb : State)
    (enough : prop.length / 16 - i < fuel) :
    scanLoop env prop (prop.length / 4) fuel (4 * i) mb =
      (addEntries env mb ((List.range' i (prop.length / 16 - i)).map (entry prop))).mapError
        .memblock := by
  induction fuel generalizing i mb with
  | zero => exact absurd enough (Nat.not_lt_zero _)
  | succ fuel ih =>
      by_cases more : i < prop.length / 16
      · have whole : prop.length / 4 - 4 * i ≥ 2 + 2 := by omega
        have base := @dtMemNextCell_two prop (4 * i) (by omega)
        have size := @dtMemNextCell_two prop (4 * i + 2) (by omega)
        rw [show 4 * (4 * i) = 16 * i by omega] at base
        rw [show 4 * (4 * i + 2) = 16 * i + 8 by omega, show 4 * i + 2 + 2 = 4 * (i + 1) by omega] at size
        have first : List.range' i (prop.length / 16 - i) =
            i :: List.range' (i + 1) (prop.length / 16 - (i + 1)) := by
          rw [show prop.length / 16 - i = prop.length / 16 - (i + 1) + 1 by omega, List.range'_succ]
        rw [scanLoop, if_pos whole, base, ok_bind, first, List.map_cons, entry]
        simp only [size, ok_bind, addEntries]
        split
        · exact ih mb (by omega)
        · cases earlyInitDtAddMemoryArch env mb (beNumber ((prop.drop (16 * i)).take 8))
              (beNumber ((prop.drop (16 * i + 8)).take 8)) with
          | error bug => rfl
          | ok mb => exact ih mb (by omega)
      · have whole : ¬ prop.length / 4 - 4 * i ≥ 2 + 2 := by omega
        have none : prop.length / 16 - i = 0 := by omega
        rw [scanLoop, if_neg whole, none]
        rfl

theorem scan_eq (env : Env) (mb : State) (node : Node) :
    earlyInitDtScanMemory env mb node =
      ((addEntries env mb node.entries).mapError .memblock).map (fun mb => (mb, 0)) := by
  unfold earlyInitDtScanMemory Node.entries
  split
  · rfl
  · cases node.usableMemory.or node.reg with
    | none => rfl
    | some prop =>
        have loop := @scanLoop_eq env prop 0 (prop.length / 4 + 1) mb (by omega)
        simp only [Nat.mul_zero, Nat.sub_zero, ← List.range_eq_range'] at loop
        simp only [loop, entries]
        cases (addEntries env mb ((List.range (prop.length / 16)).map (entry prop))).mapError Fault.memblock <;> rfl

/-- The numbers of an entry are words. -/
theorem entry_lt {node : Node} {base size : Nat} (member : (base, size) ∈ node.entries) :
    base < 2 ^ 64 ∧ size < 2 ^ 64 := by
  have word (bytes : List UInt8) : beNumber (bytes.take 8) < 2 ^ 64 := by
    have bound := beNumber_lt (bytes.take 8)
    have short : (256 : Nat) ^ (bytes.take 8).length ≤ 256 ^ 8 :=
      Nat.pow_le_pow_right (by decide) (List.length_take_le 8 bytes)
    omega
  unfold Node.entries at member
  split at member
  · cases member
  · split at member
    · cases member
    · obtain ⟨i, -, same⟩ := List.mem_map.mp member
      cases same
      exact ⟨word _, word _⟩

/-- A run over entries: it returns, and the entries add their pages as long as their conditions hold. -/
theorem addEntries_run (env : Env) {mb : State} (h : RunInv mb) (early : mb.canResize = false)
    (list : List (Nat × Nat)) (words : ∀ e ∈ list, e.1 < 2 ^ 64 ∧ e.2 < 2 ^ 64) :
    ∃ mb', addEntries env mb list = .ok mb' ∧
      (EachEntry env Grown mb list ↔ EachEntry env (fun mb base size _ => Importable mb base size) mb list) ∧
      (EachEntry env (fun mb base size _ => Importable mb base size) mb list →
        ∀ a, (mb'.map .memory a).isSome ↔ (mb.map .memory a).isSome ∨
          ∃ e ∈ list, e.2 ≠ 0 ∧ InPages e.1 e.2 a) := by
  induction list generalizing mb with
  | nil =>
      refine ⟨mb, rfl, Iff.rfl, fun _ a => ?_⟩
      simp
  | cons e list ih =>
      obtain ⟨base, size⟩ := e
      obtain ⟨⟨word, small⟩, words⟩ := List.forall_mem_cons.mp words
      by_cases zero : size = 0
      · obtain ⟨mb', done, iff, union⟩ := ih h early words
        refine ⟨mb', by rw [addEntries, if_pos zero, done], ?_, ?_⟩
        · simpa only [EachEntry, if_pos zero] using iff
        · intro each a
          simp only [EachEntry, if_pos zero] at each
          rw [union each a, List.exists_mem_cons_iff]
          simp only [zero, ne_eq, not_true_eq_false, false_and, false_or]
      · obtain ⟨mid, added, inv, early', one⟩ := add_entry env h early word small
        obtain ⟨mb', done, iff, union⟩ := ih inv early' words
        have step (P : State → Nat → Nat → State → Prop) : EachEntry env P mb ((base, size) :: list) ↔
            P mb base size mid ∧ EachEntry env P mid list := by
          simp only [EachEntry, if_neg zero, added, Except.ok.injEq, exists_eq_left']
        refine ⟨mb', by rw [addEntries, if_neg zero, added, ok_bind, done], ?_, ?_⟩
        · rw [step, step, one, iff]
        · intro each a
          obtain ⟨first, rest⟩ := (step _).mp each
          rw [union rest a, one.mpr first a, List.exists_mem_cons_iff, or_assoc]
          simp only [ne_eq, zero, not_false_eq_true, true_and]

/-- The scan of a node returns and reads no byte outside the property.  Every entry adds exactly its
    whole pages if and only if every entry is importable, and then memory has grown by the union of
    their pages. -/
theorem early_init_dt_scan_memory_ok_iff (env : Env) {mb : State} (h : RunInv mb)
    (early : mb.canResize = false) (node : Node) :
    ∃ mb', earlyInitDtScanMemory env mb node = .ok (mb', 0) ∧
      (EachEntry env Grown mb node.entries ↔
        EachEntry env (fun mb base size _ => Importable mb base size) mb node.entries) ∧
      (EachEntry env (fun mb base size _ => Importable mb base size) mb node.entries →
        ∀ a, (mb'.map .memory a).isSome ↔ (mb.map .memory a).isSome ∨
          ∃ e ∈ node.entries, e.2 ≠ 0 ∧ InPages e.1 e.2 a) := by
  obtain ⟨mb', done, each⟩ := addEntries_run env h early node.entries (fun e member => entry_lt member)
  refine ⟨mb', ?_, each⟩
  rw [scan_eq, done]
  rfl

/-- An entry for one megabyte, an entry without a size and a cell that belongs to none. -/
def bankNode : Node :=
  { deviceType := some "memory", usableMemory := none
    reg := some ([0, 0, 0, 0, 0x40, 0, 0, 0] ++ [0, 0, 0, 0, 0, 0x10, 0, 0] ++ List.replicate 16 0 ++
      [0, 0, 0, 1]) }

theorem bank_importable : EachEntry Env.early (fun mb base size _ => Importable mb base size) State.init
    bankNode.entries := by
  have list : bankNode.entries = [(0x40000000, 0x100000), (0, 0)] := by decide
  rw [list]
  refine ⟨_, rfl, ?_, trivial⟩
  have room := missing_fitting RunInv.init.good.inv
    (by decide : 0x40000000 + 0x100000 ≤ physAddrMax)
  have up : pageUp 0x40000000 = 0x40000000 := by decide
  have down : pageDown (0x40000000 + 0x100000) = 0x40000000 + 0x100000 := by decide
  show Importable State.init 0x40000000 0x100000
  rw [Importable, up, down, if_pos (by decide), ← room]
  decide

theorem bank_imported : ∃ mb', earlyInitDtScanMemory Env.early State.init bankNode = .ok (mb', 0) ∧
    EachEntry Env.early Grown State.init bankNode.entries := by
  obtain ⟨mb', done, each, -⟩ := early_init_dt_scan_memory_ok_iff Env.early RunInv.init rfl bankNode
  exact ⟨mb', done, each.mpr bank_importable⟩

/-- An entry of a page and a byte at the last byte of the address space. -/
def wrapNode : Node :=
  { deviceType := some "memory", usableMemory := none
    reg := some (List.replicate 8 0xff ++ [0, 0, 0, 0, 0, 0, 0x10, 1]) }

/-- The first page of memory is added for an entry that lies elsewhere. -/
theorem top_entry_adds_page_zero :
    wrapNode.entries = [(2 ^ 64 - 1, 0x1001)] ∧
    ∃ mb', earlyInitDtScanMemory Env.early State.init wrapNode = .ok (mb', 0) ∧
      State.init.map .memory 0 = none ∧ (mb'.map .memory 0).isSome = true ∧
      ¬ InPages (2 ^ 64 - 1) 0x1001 0 := by
  have list : wrapNode.entries = [(2 ^ 64 - 1, 0x1001)] := by decide
  have added : earlyInitDtAddMemoryArch Env.early State.init (2 ^ 64 - 1) 0x1001 =
      .ok { State.init with
        memory := { MemblockType.init with regions := [⟨0, 0x1000, Flags.none⟩], totalSize := 0x1000 } } := rfl
  refine ⟨list, _, by rw [scan_eq, list, addEntries, if_neg (by decide), added]; rfl, rfl, by decide, ?_⟩
  have up : pageUp (2 ^ 64 - 1) = 2 ^ 64 := by norm_num [pageUp, pageSize]
  rw [inPages_iff, up]
  omega

end Miracle.Fdt
