import Miracle.Memblock.Minimal

/-! # Runs that keep the arrays minimal

`memblock_is_region_memory` looks at the one region that holds the start of the range.
That it answers for the whole range rests on regions not being split without need.
-/

namespace Miracle.Memblock

open Extent

/-! ## Searching -/

/-- The loop of `memblock_search`; the indices are `unsigned int` and the result is an `int`. -/
def memblockSearchLoop (t : MemblockType) (addr : Nat) : Nat → Nat → Nat → Int
  | 0, _, _ => -1
  | fuel + 1, left, right =>
      let mid := (right + left) % 2 ^ 32 / 2
      if addr < (t.rgn mid).base then
        if left < mid then memblockSearchLoop t addr fuel left mid else -1
      else if addr ≥ (t.rgn mid).limit then
        if mid + 1 < right then memblockSearchLoop t addr fuel (mid + 1) right else -1
      else if mid < 2 ^ 31 then (mid : Int) else (mid : Int) - 2 ^ 32

def memblockSearch (t : MemblockType) (addr : Nat) : Int :=
  memblockSearchLoop t addr (t.cnt % 2 ^ 32 + 1) 0 (t.cnt % 2 ^ 32)

/-- `memblock_is_region_memory`.  An index that the conversion to `int` makes negative would be
    out of bounds. -/
def memblockIsRegionMemory (mb : State) (base size : Nat) : Bool :=
  let idx := memblockSearch mb.memory base
  let end_ := u64 (base + memblockCapSize base size)
  if idx = -1 then false else decide ((mb.memory.rgn idx.toNat).limit ≥ end_)

section

variable {t : MemblockType} (inv : TypeInv t)

include inv

omit inv in
theorem rgn_mem {i : Nat} (lt : i < t.cnt) : t.rgn i ∈ t.regions := by
  have lt : i < t.regions.length := lt
  rw [MemblockType.rgn, List.getD_eq_getElem _ _ lt]
  exact List.getElem_mem lt

omit inv in
theorem exists_rgn {r : Region} (member : r ∈ t.regions) : ∃ i, i < t.cnt ∧ t.rgn i = r := by
  obtain ⟨i, lt, same⟩ := List.getElem_of_mem member
  exact ⟨i, lt, by rw [MemblockType.rgn, List.getD_eq_getElem _ _ lt, same]⟩

theorem rgn_sorted {i j : Nat} (lt : i < j) (le : j < t.cnt) : (t.rgn i).stop ≤ (t.rgn j).base := by
  have le' : j < t.regions.length := le
  have lt' : i < t.regions.length := lt.trans le'
  rw [MemblockType.rgn, MemblockType.rgn, List.getD_eq_getElem _ _ lt', List.getD_eq_getElem _ _ le']
  exact List.pairwise_iff_getElem.mp inv.apart i j lt' le' lt

theorem rgn_limit {i : Nat} (lt : i < t.cnt) : (t.rgn i).limit = (t.rgn i).stop :=
  limit_of_le (inv.bounded _ (rgn_mem lt))

/-- The regions below `left` end before the address and those from `right` on start after it. -/
theorem searchLoop_spec (few : t.cnt ≤ 2 ^ 31) {addr fuel left right : Nat} (lt : left < right)
    (le : right ≤ t.cnt) (rounds : right - left < fuel)
    (below : ∀ i, i < left → i < t.cnt → (t.rgn i).stop ≤ addr)
    (above : ∀ i, right ≤ i → i < t.cnt → addr < (t.rgn i).base) :
    (∃ i, i < t.cnt ∧ memblockSearchLoop t addr fuel left right = i ∧ (t.rgn i).Contains addr) ∨
      (memblockSearchLoop t addr fuel left right = -1 ∧ ∀ r ∈ t.regions, ¬ r.Contains addr) := by
  induction fuel generalizing left right with
  | zero => omega
  | succ fuel ih =>
      have sum : (right + left) % 2 ^ 32 = right + left := Nat.mod_eq_of_lt (by omega)
      rw [memblockSearchLoop, sum]
      generalize half : (right + left) / 2 = mid
      have inside : mid < t.cnt := by omega
      have nobody (low : ∀ i, i < mid + 1 → i < t.cnt → (t.rgn i).stop ≤ addr ∨ addr < (t.rgn i).base)
          (high : ∀ i, mid < i → i < t.cnt → (t.rgn i).stop ≤ addr ∨ addr < (t.rgn i).base) :
          ∀ r ∈ t.regions, ¬ r.Contains addr := by
        intro r member hit
        obtain ⟨i, lt', rfl⟩ := exists_rgn member
        have := hit.1
        have := hit.2
        rcases Nat.lt_or_ge mid i with side | side
        · have := high i side lt'
          omega
        · have := low i (by omega) lt'
          omega
      split
      · rename_i before
        have above' : ∀ i, mid ≤ i → i < t.cnt → addr < (t.rgn i).base := by
          intro i from_ lt'
          rcases from_.eq_or_lt with rfl | from_
          · exact before
          · have := rgn_sorted inv from_ lt'
            simp only [stop] at this
            omega
        split
        · exact ih ‹_› (by omega) (by omega) below above'
        · refine .inr ⟨rfl, nobody (fun i low lt' => ?_) (fun i high lt' => .inr (above' i high.le lt'))⟩
          rcases Nat.lt_or_ge i left with side | side
          · exact .inl (below i side lt')
          · exact .inr (above' i (by omega) lt')
      · rename_i after
        rw [rgn_limit inv inside]
        split
        · rename_i beyond
          have below' : ∀ i, i < mid + 1 → i < t.cnt → (t.rgn i).stop ≤ addr := by
            intro i upto lt'
            rcases (Nat.lt_succ_iff.mp upto).eq_or_lt with rfl | upto
            · exact beyond
            · have := rgn_sorted inv upto inside
              simp only [stop] at *
              omega
          split
          · exact ih ‹_› le (by omega) below' above
          · refine .inr ⟨rfl, nobody (fun i low lt' => .inl (below' i low lt')) (fun i high lt' => ?_)⟩
            exact .inr (above i (by omega) lt')
        · refine .inl ⟨mid, inside, if_pos (by omega), ?_⟩
          simp only [Contains]
          omega

theorem search_spec (few : t.cnt ≤ 2 ^ 31) (addr : Nat) :
    (∃ i, i < t.cnt ∧ memblockSearch t addr = i ∧ (t.rgn i).Contains addr) ∨
      (memblockSearch t addr = -1 ∧ ∀ r ∈ t.regions, ¬ r.Contains addr) := by
  have small : t.cnt % 2 ^ 32 = t.cnt := Nat.mod_eq_of_lt (by omega)
  rw [memblockSearch, small]
  exact searchLoop_spec inv few inv.cnt_pos le_rfl (by omega) (fun i lt => by omega)
    (fun i from_ lt => by omega)

end

theorem lookup_rgn {t : MemblockType} {l : List Region} (h : Contents t l) {i a : Nat} (lt : i < t.cnt)
    (inside : (t.rgn i).Contains a) : lookup t.regions a = some (t.rgn i).tag := by
  have member := rgn_mem lt
  rw [h.regions_eq] at member
  rw [h.lookup_eq]
  by_cases empty : l = []
  · subst l
    obtain same := List.mem_singleton.mp member
    rw [same] at inside
    exact absurd inside (by simp [Contains, stop, Region.dummy])
  · rw [orDummy_of_ne empty] at member
    exact lookup_of_mem h.sound.ordered member inside

/-- The search answers for a whole range because regions are not split without need. -/
theorem Neat.isRegionMemory_iff {mb : State} (h : Neat mb) (few : mb.memory.cnt ≤ 2 ^ 31)
    {base size : Nat} (low : base ≤ physAddrMax) :
    memblockIsRegionMemory mb base size = true ↔
      ∃ flags, mb.map .memory base = some flags ∧
        ∀ a, InRange base size a → mb.map .memory a = some flags := by
  have inv : TypeInv mb.memory := h.inv .memory
  obtain ⟨l, contents⟩ := inv.contents
  have fits : base + memblockCapSize base size ≤ physAddrMax := by
    unfold memblockCapSize
    omega
  have end_ : u64 (base + memblockCapSize base size) = base + memblockCapSize base size :=
    u64_of_lt (by simp only [physAddrMax] at fits; omega)
  unfold memblockIsRegionMemory
  rcases search_spec inv few base with ⟨i, lt, found, inside⟩ | ⟨missing, nobody⟩
  · have ne : ¬ ((i : Int) = -1) := by omega
    have here : mb.map .memory base = some (mb.memory.rgn i).tag := lookup_rgn contents lt inside
    simp only [found, end_, Int.toNat_natCast, rgn_limit inv lt, if_neg ne, decide_eq_true_eq]
    constructor
    · intro covers
      refine ⟨_, here, fun a range => lookup_rgn contents lt ?_⟩
      have := inside.1
      have := range.1
      have := range.2
      exact ⟨by omega, by omega⟩
    · rintro ⟨flags, first, all⟩
      rw [here] at first
      cases first
      by_contra short
      -- the address after the region has the flags of the region
      exact h.tight .memory _ (rgn_mem lt) (all _ ⟨inside.2.le, Nat.not_le.mp short⟩)
  · have none : mb.map .memory base = none := lookup_eq_none_iff.mpr nobody
    simp [missing, none]

theorem Neat.minimal {mb : State} (h : Neat mb) (ty : TypeId) : (mb.type ty).Minimal := by
  rintro i lt ⟨meet, same⟩
  have inv := h.inv ty
  rw [rgn_limit inv (Nat.lt_of_succ_lt lt)] at meet
  have last := rgn_mem lt
  have size : 0 < ((mb.type ty).rgn (i + 1)).size := by
    rcases inv.sized with pos | dummy
    · exact pos _ last
    · have one : (mb.type ty).cnt = 1 := by rw [MemblockType.cnt, dummy]; rfl
      omega
  obtain ⟨l, contents⟩ := inv.contents
  refine h.tight ty _ (rgn_mem (Nat.lt_of_succ_lt lt)) ?_
  rw [lookup_rgn contents lt ⟨by omega, by simp only [stop] at *; omega⟩, same]

/-! ## Runs -/

def NeatRun (mb : State) : List (Env × Op) → Prop
  | [] => True
  | (env, op) :: ops => NeatOk env mb op ∧ ∀ mb', step env mb op = .ok mb' → NeatRun mb' ops

theorem NeatRun.of_append {mb : State} {ops rest : List (Env × Op)} (h : NeatRun mb (ops ++ rest)) :
    NeatRun mb ops := by
  induction ops generalizing mb with
  | nil => trivial
  | cons op ops ih => exact ⟨h.1, fun mb' done => ih (h.2 mb' done)⟩

theorem Neat.run {mb mb' : State} (h : Neat mb) {ops : List (Env × Op)} (ok : NeatRun mb ops)
    (done : run mb ops = .ok mb') : Neat mb' := by
  induction ops generalizing mb with
  | nil =>
      cases done
      exact h
  | cons op ops ih =>
      obtain ⟨env, op⟩ := op
      obtain ⟨mid, first, rest⟩ := bind_eq_ok done
      exact ih (h.step ok.1 first) (ok.2 mid first) rest

theorem Neat.init : Neat State.init := by
  refine ⟨RunInv.init.good.inv, fun ty => ?_, fun ty => by cases ty <;> decide⟩
  have empty : Tight (orDummy []) := tight_orDummy (fun e member => by cases member)
  cases ty <;> exact empty

/-- In every run whose operations meet their condition, neighbours in both arrays do not
    touch or differ in flags, and `memblock_is_region_memory` says whether the whole range is
    memory with one flag value. -/
theorem runs_stay_minimal (ops : List (Env × Op)) (ok : NeatRun State.init ops) :
    ∀ pre rest, ops = pre ++ rest → ∀ mb, run State.init pre = .ok mb →
      (∀ ty, (mb.type ty).Minimal) ∧
      (mb.memory.cnt ≤ 2 ^ 31 → ∀ base size : BitVec 64, 0 < size →
        (memblockIsRegionMemory mb base.toNat size.toNat = true ↔
          ∃ flags, mb.map .memory base.toNat = some flags ∧
            ∀ a, InRange base.toNat size.toNat a → mb.map .memory a = some flags)) := by
  rintro pre rest rfl mb done
  have neat := Neat.init.run ok.of_append done
  refine ⟨neat.minimal, fun few base size _ => neat.isRegionMemory_iff few ?_⟩
  have := base.isLt
  simp only [physAddrMax]
  omega

/-- Four pages, of which the two in the middle are marked, and a cap between these. -/
def capRun (middle : BitVec 64) : List (Env × Op) :=
  [(Env.early, .add 0x4000 0x4000), (Env.early, .mark .nomap 0x5000 0x2000),
    (Env.early, .capMemoryRange 0x4000 middle)]

theorem capRun_reaches {middle : BitVec 64} {P : State → Prop} [DecidablePred P]
    (h : (match run State.init (capRun middle) with
      | .ok mb => decide (P mb)
      | .error _ => false) = true) :
    ∃ mb, run State.init (capRun middle) = .ok mb ∧ P mb := by
  split at h
  · rename_i mb done
    exact ⟨mb, done, of_decide_eq_true h⟩
  · cases h

/-- A cap at the end of the marked pages. -/
theorem capRun_minimal : ∃ mb, run State.init (capRun 0x3000) = .ok mb ∧
    mb.memory.regions = [⟨0x4000, 0x1000, Flags.none⟩, ⟨0x5000, 0x2000, Flags.nomap⟩] ∧
      ∀ ty, (mb.type ty).Minimal := by
  obtain ⟨mb, done, regions⟩ := @capRun_reaches 0x3000
    (fun mb => mb.memory.regions = [⟨0x4000, 0x1000, Flags.none⟩, ⟨0x5000, 0x2000, Flags.nomap⟩])
    inferInstance (by decide +kernel)
  refine ⟨mb, done, regions, (runs_stay_minimal (capRun 0x3000) ?_ _ [] (List.append_nil _).symm mb done).1⟩
  refine ⟨trivial, fun mb1 first => ⟨trivial, fun mb2 second => ⟨fun _ _ => ?_, fun _ _ => trivial⟩⟩⟩
  have marked : (match run State.init ((capRun 0x3000).take 2) with
      | .ok mb => decide (mb.memory.regions = [⟨0x4000, 0x1000, Flags.none⟩,
          ⟨0x5000, 0x2000, Flags.nomap⟩, ⟨0x7000, 0x1000, Flags.none⟩])
      | .error _ => false) = true := by decide +kernel
  have both : run State.init ((capRun 0x3000).take 2) = .ok mb2 := by
    simp only [capRun, List.take_succ_cons, List.take_zero, run, first, ok_bind, second]
  rw [both] at marked
  have regions := of_decide_eq_true marked
  have map (a : Nat) : mb2.map .memory a = lookup _ a := congrArg (lookup · a) regions
  constructor
  · rintro ⟨flags, -, before, -⟩
    rw [map] at before
    exact absurd before (by simp [lookup, Contains, stop])
  · rintro ⟨flags, -, before, after, -⟩
    rw [map] at before after
    exact absurd (before.trans after.symm) (by decide)

/-- A cap between the two marked pages leaves them as two regions, and the range over both
    is no longer found. -/
theorem capRun_splits : ∃ mb, run State.init (capRun 0x2000) = .ok mb ∧
    mb.memory.regions = [⟨0x4000, 0x1000, Flags.none⟩, ⟨0x5000, 0x1000, Flags.nomap⟩,
      ⟨0x6000, 0x1000, Flags.nomap⟩] ∧
    ¬ (mb.type .memory).Minimal ∧ memblockIsRegionMemory mb 0x5000 0x2000 = false := by
  obtain ⟨mb, done, regions, missed⟩ := @capRun_reaches 0x2000
    (fun mb => mb.memory.regions = [⟨0x4000, 0x1000, Flags.none⟩, ⟨0x5000, 0x1000, Flags.nomap⟩,
      ⟨0x6000, 0x1000, Flags.nomap⟩] ∧ memblockIsRegionMemory mb 0x5000 0x2000 = false)
    inferInstance (by decide +kernel)
  refine ⟨mb, done, regions, fun minimal => minimal 1 ?_ ?_, missed⟩
  · simp [State.type, MemblockType.cnt, regions]
  · simp only [State.type, MemblockType.rgn, regions]
    decide

end Miracle.Memblock
