import Miracle.Lib.ExtentCoalesce
import Miracle.Lib.Outcome
import Miracle.Memblock.Ops

/-! # The array loops as functions on region lists

Each loop over a region array is replaced by a function on lists of extents: a
round of `memblock_add_range` is `fill`, `memblock_isolate_range` cuts the list at
the two ends of the range, and `memblock_merge_regions` is `coalesce`.
-/

namespace Miracle.Memblock

open Extent

theorem u64_add_u64 (a b : Nat) : u64 (u64 a + b) = u64 (a + b) := Nat.mod_add_mod ..

/-- No region ends above the last address. -/
def Bounded (l : List Region) : Prop := ∀ r ∈ l, r.stop ≤ physAddrMax

namespace Bounded

theorem cons_iff {r : Region} {l : List Region} :
    Bounded (r :: l) ↔ r.stop ≤ physAddrMax ∧ Bounded l := by
  simp [Bounded]

end Bounded

theorem limit_of_le {r : Region} (h : r.stop ≤ physAddrMax) : r.limit = r.stop :=
  u64_of_lt (by simp only [stop, physAddrMax] at h; omega)

theorem rgn_append_length (t : MemblockType) {pre rest : List Region} {r : Region}
    (h : t.regions = pre ++ r :: rest) : t.rgn pre.length = r := by
  simp [MemblockType.rgn, h]

theorem cnt_of_append (t : MemblockType) {pre rest : List Region} (h : t.regions = pre ++ rest) :
    t.cnt = pre.length + rest.length := by
  simp [MemblockType.cnt, h]

/-! ## One round of `memblock_add_range` -/

/-- The insertion after the loop of a round. -/
def AddRound.finish (insert : Bool) (end_ : Nat) (flags : Flags) (s : AddRound) :
    Except Bug AddRound :=
  if s.base < end_ then s.place insert end_ flags else .ok s

/-- The type after the missing pieces of `[base, end_)` have been placed. -/
def filled (t : MemblockType) (pre rest : List Region) (base end_ : Nat) (flags : Flags) :
    MemblockType :=
  { t with
    regions := pre ++ fill end_ flags rest base
    totalSize := u64 (t.totalSize + (total (fill end_ flags rest base) - total rest)) }

/-- The loop at an index with `r` in the array. -/
theorem addRoundLoop_cons {t : MemblockType} {pre rest : List Region} {r : Region}
    (h : t.regions = pre ++ r :: rest) (high : r.stop ≤ physAddrMax) (insert : Bool)
    (end_ base n fuel : Nat) (flags : Flags) :
    addRoundLoop insert end_ flags (fuel + 1) ⟨t, pre.length, base, n⟩ =
      if end_ ≤ r.base then .ok ⟨t, pre.length, base, n⟩
      else if r.stop ≤ base then addRoundLoop insert end_ flags fuel ⟨t, pre.length + 1, base, n⟩
      else if base < r.base then
        AddRound.place insert r.base flags ⟨t, pre.length, base, n⟩ >>= fun s =>
          addRoundLoop insert end_ flags fuel { s with base := min r.stop end_, idx := s.idx + 1 }
      else addRoundLoop insert end_ flags fuel ⟨t, pre.length + 1, min r.stop end_, n⟩ := by
  have inside : pre.length < t.cnt := by
    rw [cnt_of_append t h, List.length_cons]
    omega
  simp only [addRoundLoop, if_pos inside, rgn_append_length t h, limit_of_le high, ge_iff_le,
    gt_iff_lt, ok_bind]

/-- The type with one more region after `pre`. -/
def placed (t : MemblockType) (pre rest : List Region) (r : Region) : MemblockType :=
  { t with regions := (pre ++ [r]) ++ rest, totalSize := u64 (t.totalSize + r.size) }

theorem addRoundLoop_nil {t : MemblockType} {pre : List Region} (h : t.regions = pre)
    (insert : Bool) (end_ base n fuel : Nat) (flags : Flags) :
    addRoundLoop insert end_ flags (fuel + 1) ⟨t, pre.length, base, n⟩ =
      .ok ⟨t, pre.length, base, n⟩ := by
  have outside : ¬ pre.length < t.cnt := by simp [MemblockType.cnt, h]
  simp only [addRoundLoop, if_neg outside]

theorem finish_count (t : MemblockType) (end_ idx base n : Nat) (flags : Flags) :
    AddRound.finish false end_ flags ⟨t, idx, base, n⟩ =
      .ok ⟨t, idx, base, n + if base < end_ then 1 else 0⟩ := by
  unfold AddRound.finish AddRound.place
  split <;> rfl

/-- A round that only counts leaves the array alone. -/
theorem addRoundLoop_count {t : MemblockType} {pre rest : List Region} (h : t.regions = pre ++ rest)
    (bounded : Bounded rest) (end_ base n : Nat) (flags : Flags) {fuel : Nat}
    (enough : rest.length < fuel) :
    ∃ idx b, (addRoundLoop false end_ flags fuel ⟨t, pre.length, base, n⟩ >>=
      AddRound.finish false end_ flags) = .ok ⟨t, idx, b, n + pieces end_ rest base⟩ := by
  induction rest generalizing pre base n fuel with
  | nil =>
      obtain ⟨fuel, rfl⟩ := Nat.exists_eq_succ_of_ne_zero (by omega : fuel ≠ 0)
      rw [addRoundLoop_nil (by simpa using h), ok_bind, finish_count]
      exact ⟨_, _, rfl⟩
  | cons r rest ih =>
      obtain ⟨fuel, rfl⟩ := Nat.exists_eq_succ_of_ne_zero (by omega : fuel ≠ 0)
      obtain ⟨high, bounded⟩ := Bounded.cons_iff.mp bounded
      have enough' : rest.length < fuel := by simpa using enough
      have h' : t.regions = (pre ++ [r]) ++ rest := by simpa using h
      rw [addRoundLoop_cons h high, pieces]
      have next (base n : Nat) := ih h' bounded base n enough'
      rw [List.length_append, List.length_singleton] at next
      split
      · rw [ok_bind, finish_count]
        exact ⟨_, _, rfl⟩
      · split
        · exact next base n
        · split
          · simpa [AddRound.place, Nat.add_assoc] using next (min r.stop end_) (n + 1)
          · simpa using next (min r.stop end_) n

theorem insertRegion_at {t : MemblockType} {pre rest : List Region} (h : t.regions = pre ++ rest)
    (room : t.cnt < t.max) (base size : Nat) (flags : Flags) :
    memblockInsertRegion t pre.length base size flags =
      .ok (placed t pre rest ⟨base, size, flags⟩) := by
  simp only [placed, memblockInsertRegion, if_neg (Nat.not_le.mpr room), h, ge_iff_le]
  congr 2
  clear h room
  induction pre with
  | nil => simp
  | cons x pre ih => simpa using ih

theorem place_insert {t : MemblockType} {pre rest : List Region} (h : t.regions = pre ++ rest)
    (room : t.cnt < t.max) (stop base n : Nat) (flags : Flags) :
    AddRound.place true stop flags ⟨t, pre.length, base, n⟩ =
      .ok ⟨placed t pre rest ⟨base, stop - base, flags⟩, pre.length + 1, base, n + 1⟩ := by
  simp only [AddRound.place, if_true, insertRegion_at h room, ok_bind, pure_eq_ok]

theorem place_full {t : MemblockType} (full : ¬ t.cnt < t.max) (stop idx base n : Nat)
    (flags : Flags) :
    AddRound.place true stop flags ⟨t, idx, base, n⟩ = .error .insertRegion := by
  simp only [AddRound.place, if_true, memblockInsertRegion, if_pos (Nat.not_lt.mp full), ge_iff_le,
    error_bind]

theorem filled_nil {t : MemblockType} (small : t.totalSize < 2 ^ 64) {pre rest : List Region}
    (h : t.regions = pre ++ rest) {base end_ : Nat} (flags : Flags)
    (same : fill end_ flags rest base = rest) : filled t pre rest base end_ flags = t := by
  cases t
  simp only [filled, same, Nat.sub_self, Nat.add_zero, u64_of_lt small] at *
  rw [h]

theorem filled_skip {t : MemblockType} {pre rest : List Region} {r : Region}
    {base next end_ : Nat} {flags : Flags}
    (skip : fill end_ flags (r :: rest) base = r :: fill end_ flags rest next) :
    filled t (pre ++ [r]) rest next end_ flags = filled t pre (r :: rest) base end_ flags := by
  simp only [filled, skip, total_cons, Nat.add_sub_add_left, List.append_assoc, List.cons_append,
    List.nil_append]

theorem filled_placed {t : MemblockType} {pre rest : List Region} {r new : Region}
    {base next end_ : Nat} {flags : Flags}
    (split : fill end_ flags (r :: rest) base = new :: r :: fill end_ flags rest next) :
    filled (placed t pre (r :: rest) new) (pre ++ [new] ++ [r]) rest next end_ flags =
      filled t pre (r :: rest) base end_ flags := by
  have := total_le_fill end_ flags rest next
  have sum : new.size + (total (fill end_ flags rest next) - total rest) =
      total (fill end_ flags (r :: rest) base) - total (r :: rest) := by
    simp only [split, total_cons]
    omega
  simp only [filled, placed, u64_add_u64, Nat.add_assoc, sum, split, List.append_assoc,
    List.cons_append, List.nil_append]

theorem finish_insert {t : MemblockType} {pre rest : List Region} (h : t.regions = pre ++ rest)
    (small : t.totalSize < 2 ^ 64) {end_ base : Nat} (n : Nat) (flags : Flags)
    (last : fill end_ flags rest base = gap base end_ flags ++ rest)
    (room : t.cnt + (if base < end_ then 1 else 0) ≤ t.max) :
    ∃ idx b, AddRound.finish true end_ flags ⟨t, pre.length, base, n⟩ =
      .ok ⟨filled t pre rest base end_ flags, idx, b, n + if base < end_ then 1 else 0⟩ := by
  unfold AddRound.finish
  by_cases short : base < end_
  · rw [if_pos short] at room
    simp only [if_pos short, place_insert h (by omega)]
    have same : filled t pre rest base end_ flags = placed t pre rest ⟨base, end_ - base, flags⟩ := by
      simp only [filled, placed, last, gap, if_pos short, total_append, total_cons, total_nil,
        List.append_assoc, Nat.add_sub_cancel, Nat.add_zero]
    exact ⟨_, _, by rw [same]⟩
  · simp only [if_neg short]
    have same : fill end_ flags rest base = rest := by simp [last, gap, short]
    exact ⟨_, _, by rw [filled_nil small h flags same]; rfl⟩

theorem finish_full {t : MemblockType} {end_ base idx : Nat} (fits : t.cnt ≤ t.max) (n : Nat)
    (flags : Flags) (full : t.max < t.cnt + if base < end_ then 1 else 0) :
    AddRound.finish true end_ flags ⟨t, idx, base, n⟩ = .error .insertRegion := by
  by_cases short : base < end_
  · rw [if_pos short] at full
    simp only [AddRound.finish, if_pos short, place_full (by omega : ¬ t.cnt < t.max)]
  · rw [if_neg short] at full
    omega

/-- A round that inserts: with enough room the array becomes the filled one. -/
theorem addRoundLoop_insert {t : MemblockType} {pre rest : List Region} (h : t.regions = pre ++ rest)
    (bounded : Bounded rest) (small : t.totalSize < 2 ^ 64) {end_ base : Nat} (n : Nat)
    (flags : Flags) {fuel : Nat} (enough : rest.length < fuel)
    (room : t.cnt + pieces end_ rest base ≤ t.max) :
    ∃ idx b, (addRoundLoop true end_ flags fuel ⟨t, pre.length, base, n⟩ >>=
      AddRound.finish true end_ flags) =
        .ok ⟨filled t pre rest base end_ flags, idx, b, n + pieces end_ rest base⟩ := by
  induction rest generalizing t pre base n fuel with
  | nil =>
      obtain ⟨fuel, rfl⟩ := Nat.exists_eq_succ_of_ne_zero (by omega : fuel ≠ 0)
      rw [addRoundLoop_nil (by simpa using h), ok_bind]
      exact finish_insert h small n flags (by simp [fill]) room
  | cons r rest ih =>
      obtain ⟨fuel, rfl⟩ := Nat.exists_eq_succ_of_ne_zero (by omega : fuel ≠ 0)
      obtain ⟨high, bounded⟩ := Bounded.cons_iff.mp bounded
      have enough' : rest.length < fuel := by simpa using enough
      rw [addRoundLoop_cons h high]
      rw [pieces] at room ⊢
      by_cases above : end_ ≤ r.base
      · simp only [if_pos above, ok_bind] at room ⊢
        exact finish_insert h small n flags (by simp [fill, above]) room
      simp only [if_neg above] at room ⊢
      by_cases below : r.stop ≤ base
      · simp only [if_pos below] at room ⊢
        have h' : t.regions = (pre ++ [r]) ++ rest := by simpa using h
        have skip : fill end_ flags (r :: rest) base = r :: fill end_ flags rest base := by
          simp [fill, above, below]
        simpa [filled_skip skip] using ih h' bounded small n enough' room
      simp only [if_neg below] at room ⊢
      by_cases split : base < r.base
      · simp only [if_pos split] at room ⊢
        rw [place_insert h (by omega), ok_bind]
        have step : fill end_ flags (r :: rest) base =
            ⟨base, r.base - base, flags⟩ :: r :: fill end_ flags rest (min r.stop end_) := by
          simp [fill, above, below, split, gap]
        have cnt : (placed t pre (r :: rest) ⟨base, r.base - base, flags⟩).cnt = t.cnt + 1 := by
          simp [placed, MemblockType.cnt, h]
          omega
        have h' : (placed t pre (r :: rest) ⟨base, r.base - base, flags⟩).regions =
            (pre ++ [⟨base, r.base - base, flags⟩] ++ [r]) ++ rest := by simp [placed]
        have next := ih h' bounded (u64_lt _) (n + 1) enough'
          (by rw [cnt]; exact (by omega : t.cnt + 1 + pieces end_ rest (min r.stop end_) ≤ t.max))
        rw [filled_placed step] at next
        simpa [Nat.add_assoc] using next
      · simp only [if_neg split, Nat.zero_add] at room ⊢
        have h' : t.regions = (pre ++ [r]) ++ rest := by simpa using h
        have skip : fill end_ flags (r :: rest) base =
            r :: fill end_ flags rest (min r.stop end_) := by
          simp [fill, above, below, split, gap]
        simpa [filled_skip skip] using ih h' bounded small n enough' room

/-- Without the room the insertion stops at the `BUG_ON`. -/
theorem addRoundLoop_full {t : MemblockType} {pre rest : List Region} (h : t.regions = pre ++ rest)
    (bounded : Bounded rest) {end_ base : Nat} (n : Nat) (flags : Flags) {fuel : Nat}
    (enough : rest.length < fuel) (fits : t.cnt ≤ t.max)
    (full : t.max < t.cnt + pieces end_ rest base) :
    (addRoundLoop true end_ flags fuel ⟨t, pre.length, base, n⟩ >>=
      AddRound.finish true end_ flags) = .error .insertRegion := by
  induction rest generalizing t pre base n fuel with
  | nil =>
      obtain ⟨fuel, rfl⟩ := Nat.exists_eq_succ_of_ne_zero (by omega : fuel ≠ 0)
      rw [addRoundLoop_nil (by simpa using h), ok_bind]
      exact finish_full fits n flags full
  | cons r rest ih =>
      obtain ⟨fuel, rfl⟩ := Nat.exists_eq_succ_of_ne_zero (by omega : fuel ≠ 0)
      obtain ⟨high, bounded⟩ := Bounded.cons_iff.mp bounded
      have enough' : rest.length < fuel := by simpa using enough
      have h' : t.regions = (pre ++ [r]) ++ rest := by simpa using h
      rw [addRoundLoop_cons h high]
      rw [pieces] at full
      by_cases above : end_ ≤ r.base
      · simp only [if_pos above, ok_bind] at full ⊢
        exact finish_full fits n flags full
      simp only [if_neg above] at full ⊢
      by_cases below : r.stop ≤ base
      · simp only [if_pos below] at full ⊢
        simpa using ih h' bounded n enough' fits full
      simp only [if_neg below] at full ⊢
      by_cases split : base < r.base
      · simp only [if_pos split] at full ⊢
        by_cases room : t.cnt < t.max
        · rw [place_insert h room, ok_bind]
          have cnt : (placed t pre (r :: rest) ⟨base, r.base - base, flags⟩).cnt = t.cnt + 1 := by
            simp [placed, MemblockType.cnt, h]
            omega
          have h' : (placed t pre (r :: rest) ⟨base, r.base - base, flags⟩).regions =
              (pre ++ [⟨base, r.base - base, flags⟩] ++ [r]) ++ rest := by simp [placed]
          have next := ih h' bounded (n + 1) enough' (by rw [cnt]; exact room) (by
            rw [cnt]
            exact (by omega : t.max < t.cnt + 1 + pieces end_ rest (min r.stop end_)))
          simpa using next
        · rw [place_full room, error_bind, error_bind]
      · simp only [if_neg split, Nat.zero_add] at full ⊢
        simpa using ih h' bounded n enough' fits full

theorem addRound_eq (insert : Bool) (t : MemblockType) (base end_ : Nat) (flags : Flags) :
    addRound insert t base end_ flags =
      (addRoundLoop insert end_ flags (t.cnt + 1) ⟨t, ([] : List Region).length, base, 0⟩ >>=
        AddRound.finish insert end_ flags) := rfl

theorem addRound_count {t : MemblockType} (bounded : Bounded t.regions) (base end_ : Nat)
    (flags : Flags) :
    ∃ idx b, addRound false t base end_ flags = .ok ⟨t, idx, b, pieces end_ t.regions base⟩ := by
  have enough : t.regions.length < t.cnt + 1 := Nat.lt_succ_self _
  simpa [addRound_eq] using
    addRoundLoop_count (List.nil_append _).symm bounded end_ base 0 flags enough

theorem addRound_insert {t : MemblockType} (bounded : Bounded t.regions)
    (small : t.totalSize < 2 ^ 64) {base end_ : Nat} (flags : Flags)
    (room : t.cnt + pieces end_ t.regions base ≤ t.max) :
    ∃ idx b, addRound true t base end_ flags =
      .ok ⟨filled t [] t.regions base end_ flags, idx, b, pieces end_ t.regions base⟩ := by
  have enough : t.regions.length < t.cnt + 1 := Nat.lt_succ_self _
  simpa [addRound_eq] using
    addRoundLoop_insert (List.nil_append _).symm bounded small 0 flags enough room

theorem addRound_full {t : MemblockType} (bounded : Bounded t.regions) {base end_ : Nat}
    (flags : Flags) (fits : t.cnt ≤ t.max) (full : t.max < t.cnt + pieces end_ t.regions base) :
    addRound true t base end_ flags = .error .insertRegion := by
  have enough : t.regions.length < t.cnt + 1 := Nat.lt_succ_self _
  simpa [addRound_eq] using
    addRoundLoop_full (List.nil_append _).symm bounded 0 flags enough fits full

/-! ## `memblock_merge_regions` -/

theorem set_eraseIdx {α : Type} (pre rest : List α) (x y z : α) :
    ((pre ++ x :: y :: rest).set pre.length z).eraseIdx (pre.length + 1) = pre ++ z :: rest := by
  induction pre with
  | nil => rfl
  | cons a pre ih => simpa using ih

theorem mergeLoop_eq {t : MemblockType} {pre rest : List Region} {r : Region}
    (h : t.regions = pre ++ r :: rest)
    (apart : (r :: rest).Pairwise (fun x y => x.stop ≤ y.base)) (bounded : Bounded (r :: rest))
    {fuel : Nat} (enough : rest.length < fuel) :
    memblockMergeLoop fuel t pre.length =
      .ok { t with regions := pre ++ coalesceFrom r rest } := by
  induction rest generalizing t pre r fuel with
  | nil =>
      obtain ⟨fuel, rfl⟩ := Nat.exists_eq_succ_of_ne_zero (by omega : fuel ≠ 0)
      have last : ¬ pre.length + 1 < t.cnt := by simp [cnt_of_append t h]
      cases t
      simp only [memblockMergeLoop, if_neg last, coalesceFrom] at *
      rw [h]
  | cons y rest ih =>
      obtain ⟨fuel, rfl⟩ := Nat.exists_eq_succ_of_ne_zero (by omega : fuel ≠ 0)
      obtain ⟨high, bounded⟩ := Bounded.cons_iff.mp bounded
      obtain ⟨after, apart⟩ := List.pairwise_cons.mp apart
      have enough' : rest.length < fuel := by simpa using enough
      have more : pre.length + 1 < t.cnt := by simp [cnt_of_append t h]
      have h' : t.regions = (pre ++ [r]) ++ y :: rest := by simpa using h
      have second : t.rgn (pre.length + 1) = y := by simpa using rgn_append_length t h'
      simp only [memblockMergeLoop, if_pos more, rgn_append_length t h, second, limit_of_le high]
      obtain ⟨after', apart'⟩ := List.pairwise_cons.mp apart
      have order := after y (by simp)
      by_cases same : r.stop = y.base ∧ r.tag = y.tag
      · obtain ⟨meet, tag⟩ := same
        have high' := (Bounded.cons_iff.mp bounded).1
        have joined : (join r y).stop = y.stop := by simp only [join, stop] at *; omega
        have size : u64 (r.size + y.size) = r.size + y.size := by
          refine u64_of_lt ?_
          simp only [stop, physAddrMax] at *
          omega
        rw [if_neg (by simp [meet, tag]), size, h, set_eraseIdx]
        have apart' : (join r y :: rest).Pairwise (fun x y => x.stop ≤ y.base) :=
          List.pairwise_cons.mpr ⟨by simpa only [joined] using after', apart'⟩
        have bounded' : Bounded (join r y :: rest) :=
          Bounded.cons_iff.mpr ⟨joined.symm ▸ high', (Bounded.cons_iff.mp bounded).2⟩
        refine (ih rfl apart' bounded' enough').trans ?_
        simp only [coalesceFrom, meet, tag, and_self, if_true]
      · rw [if_pos (by tauto), if_neg (by omega)]
        simpa [coalesceFrom, same] using ih h' apart bounded enough'

/-- Disjoint sorted regions never reach the `BUG_ON` of the merging loop. -/
theorem mergeRegions_eq {t : MemblockType} (apart : t.regions.Pairwise (fun x y => x.stop ≤ y.base))
    (bounded : Bounded t.regions) :
    memblockMergeRegions t = .ok { t with regions := coalesce t.regions } := by
  cases h : t.regions with
  | nil =>
      cases t
      simp only [memblockMergeRegions, MemblockType.cnt, memblockMergeLoop] at *
      simp [h, coalesce]
  | cons r rest =>
      rw [h] at apart bounded
      have cnt : t.cnt = rest.length + 1 := by simp [MemblockType.cnt, h]
      exact @mergeLoop_eq t [] rest r h apart bounded (t.cnt + 1) (by omega)

/-! ## `memblock_isolate_range` -/

theorem u64_u64Sub_add {a b : Nat} (ha : a < 2 ^ 64) (hb : b < 2 ^ 64) :
    u64 (u64Sub a b + b) = a := by
  unfold u64 u64Sub
  omega

theorem splitRegion_eq {t : MemblockType} {pre rest : List Region} {r : Region}
    (h : t.regions = pre ++ r :: rest) (high : r.stop ≤ physAddrMax) (small : t.totalSize < 2 ^ 64)
    (room : t.cnt < t.max) {cut : Nat} (low : r.base < cut) (below : cut < r.stop) :
    splitRegion t pre.length cut =
      .ok { t with regions :=
        (pre ++ [⟨r.base, cut - r.base, r.tag⟩]) ++ ⟨cut, r.stop - cut, r.tag⟩ :: rest } := by
  have size : u64Sub r.size (cut - r.base) = r.stop - cut := by
    rw [u64Sub_of_le] <;> simp only [stop, physAddrMax] at * <;> omega
  have sum : u64 (u64Sub t.totalSize (cut - r.base) + (cut - r.base)) = t.totalSize := by
    refine u64_u64Sub_add small ?_
    simp only [stop, physAddrMax] at *
    omega
  have set : t.regions.set pre.length ⟨cut, u64Sub r.size (cut - r.base), r.tag⟩ =
      pre ++ ⟨cut, r.stop - cut, r.tag⟩ :: rest := by
    simp [h, size]
  simp only [splitRegion, rgn_append_length t h]
  rw [insertRegion_at set (by simpa [MemblockType.cnt, h] using room)]
  simp only [placed, sum]

/-- Start and end index after `n` regions from index `k` on have been recorded. -/
def recorded (se : Nat × Nat) (k n : Nat) : Nat × Nat :=
  if n = 0 then se else (if se.2 = 0 then k else se.1, k + n)

theorem recorded_succ (se : Nat × Nat) (k n : Nat) :
    recorded (recorded se k 1) (k + 1) n = recorded se k (n + 1) := by
  unfold recorded
  by_cases done : n = 0
  · simp [done]
  · simp only [if_neg done, Nat.succ_ne_zero, if_false, Nat.add_right_comm, Nat.add_assoc]

theorem isolateLoop_cons {t : MemblockType} {pre rest : List Region} {r : Region}
    (h : t.regions = pre ++ r :: rest) (high : r.stop ≤ physAddrMax) (base end_ fuel : Nat)
    (se : Nat × Nat) :
    isolateLoop base end_ (fuel + 1) ⟨t, pre.length, se.1, se.2⟩ =
      if end_ ≤ r.base then .ok ⟨t, pre.length, se.1, se.2⟩
      else if r.stop ≤ base then isolateLoop base end_ fuel ⟨t, pre.length + 1, se.1, se.2⟩
      else if r.base < base then
        splitRegion t pre.length base >>= fun t =>
          isolateLoop base end_ fuel ⟨t, pre.length + 1, se.1, se.2⟩
      else if end_ < r.stop then
        splitRegion t pre.length end_ >>= fun t =>
          isolateLoop base end_ fuel ⟨t, pre.length, se.1, se.2⟩
      else isolateLoop base end_ fuel
        ⟨t, pre.length + 1, (recorded se pre.length 1).1, (recorded se pre.length 1).2⟩ := by
  have inside : pre.length < t.cnt := by
    rw [cnt_of_append t h, List.length_cons]
    omega
  simp only [isolateLoop, if_pos inside, rgn_append_length t h, limit_of_le high, ge_iff_le,
    gt_iff_lt, recorded, Nat.one_ne_zero, if_false]

theorem isolateLoop_nil {t : MemblockType} {pre : List Region} (h : t.regions = pre)
    (base end_ fuel : Nat) (se : Nat × Nat) :
    isolateLoop base end_ (fuel + 1) ⟨t, pre.length, se.1, se.2⟩ =
      .ok ⟨t, pre.length, se.1, se.2⟩ := by
  have outside : ¬ pre.length < t.cnt := by simp [MemblockType.cnt, h]
  simp only [isolateLoop, if_neg outside]

/-- The type of an isolation with its regions at `pre` and behind. -/
def isolated (t : MemblockType) (pre : List Region) (base end_ : Nat) (rest : List Region) :
    MemblockType :=
  { t with regions := pre ++ (clip base end_ rest ++ clip end_ physAddrMax rest) }

theorem isolated_above {t : MemblockType} {pre rest : List Region} (h : t.regions = pre ++ rest)
    (ordered : Ordered rest) (bounded : Bounded rest) {base end_ : Nat}
    (above : ∀ r ∈ rest, end_ ≤ r.base) :
    clip base end_ rest = [] ∧ isolated t pre base end_ rest = t := by
  have empty : clip base end_ rest = [] := clip_of_outside (fun r hr => .inr (above r hr))
  refine ⟨empty, ?_⟩
  cases t
  simp only [isolated, empty, clip_of_within ordered.pos above bounded, List.nil_append] at *
  rw [h]

/-- The last region of the range, which ends with it, followed by one behind the range. -/
theorem isolateLoop_last {t : MemblockType} {pre rest : List Region} {r u : Region}
    (h : t.regions = (pre ++ [r]) ++ u :: rest) {base end_ : Nat} (low : base ≤ r.base)
    (pos : r.base < r.stop) (last : r.stop = end_) (high : end_ ≤ physAddrMax)
    (behind : end_ ≤ u.base) (high' : u.stop ≤ physAddrMax) (fuel : Nat) (se : Nat × Nat) :
    isolateLoop base end_ (fuel + 1 + 1) ⟨t, pre.length, se.1, se.2⟩ =
      .ok ⟨t, pre.length + 1, (recorded se pre.length 1).1, (recorded se pre.length 1).2⟩ := by
  have h' : t.regions = pre ++ r :: u :: rest := by simpa using h
  have next := isolateLoop_cons h high' base end_ fuel (recorded se pre.length 1)
  rw [List.length_append, List.length_singleton, if_pos behind] at next
  rw [isolateLoop_cons h' (by omega), if_neg (by omega), if_neg (by omega), if_neg (by omega),
    if_neg (by omega), next]

/-- The loop once all regions below the range are behind it. -/
theorem isolateLoop_inside {t : MemblockType} {pre rest : List Region} (h : t.regions = pre ++ rest)
    (ordered : Ordered rest) (bounded : Bounded rest) (small : t.totalSize < 2 ^ 64)
    (room : t.cnt < t.max) {base : Nat} (end_ : Nat) (low : ∀ r ∈ rest, base ≤ r.base)
    (se : Nat × Nat) {fuel : Nat} (enough : rest.length + 2 ≤ fuel) :
    ∃ idx, isolateLoop base end_ fuel ⟨t, pre.length, se.1, se.2⟩ =
      .ok ⟨isolated t pre base end_ rest, idx,
        (recorded se pre.length (clip base end_ rest).length).1,
        (recorded se pre.length (clip base end_ rest).length).2⟩ := by
  induction rest generalizing t pre se fuel with
  | nil =>
      obtain ⟨fuel, rfl⟩ := Nat.exists_eq_succ_of_ne_zero (by omega : fuel ≠ 0)
      obtain ⟨empty, same⟩ := @isolated_above t pre [] h ordered bounded base end_ (by simp)
      rw [isolateLoop_nil (by simpa using h), same, empty]
      exact ⟨_, rfl⟩
  | cons r rest ih =>
      obtain ⟨fuel, rfl⟩ := Nat.exists_eq_succ_of_ne_zero (by omega : fuel ≠ 0)
      obtain ⟨high, bounded'⟩ := Bounded.cons_iff.mp bounded
      obtain ⟨pos, after, ordered'⟩ := Ordered.cons_iff.mp ordered
      have first := low r (by simp)
      have pos' : r.base < r.stop := by simp only [stop]; omega
      rw [isolateLoop_cons h high]
      by_cases above : end_ ≤ r.base
      · have above' : ∀ x ∈ r :: rest, end_ ≤ x.base := by
          intro x member
          rcases List.mem_cons.mp member with rfl | member
          · exact above
          · have := after x member
            omega
        obtain ⟨empty, same⟩ := isolated_above h ordered bounded above'
        rw [if_pos above, same, empty]
        exact ⟨_, rfl⟩
      rw [if_neg above, if_neg (by omega), if_neg (by omega)]
      by_cases cut : end_ < r.stop
      · -- the lower part is split off and recorded, its upper part ends the loop
        have behind : ∀ x ∈ rest, end_ ≤ x.base := fun x hx => by
          have := after x hx
          omega
        rw [if_pos cut, splitRegion_eq h high small room (by omega) cut, ok_bind]
        obtain ⟨fuel, rfl⟩ := Nat.exists_eq_add_of_le
          (by simp only [List.length_cons] at enough; omega : 2 ≤ fuel)
        have stop_lower : (⟨r.base, end_ - r.base, r.tag⟩ : Region).stop = end_ := by
          simp only [stop]
          omega
        have stop_upper : (⟨end_, r.stop - end_, r.tag⟩ : Region).stop = r.stop := by
          simp only [stop] at *
          omega
        have pos_lower : (⟨r.base, end_ - r.base, r.tag⟩ : Region).base <
            (⟨r.base, end_ - r.base, r.tag⟩ : Region).stop := by
          rw [stop_lower]
          exact Nat.not_le.mp above
        have split : ({ t with regions := (pre ++ [⟨r.base, end_ - r.base, r.tag⟩]) ++
            ⟨end_, r.stop - end_, r.tag⟩ :: rest } : MemblockType).regions =
            (pre ++ [⟨r.base, end_ - r.base, r.tag⟩]) ++ ⟨end_, r.stop - end_, r.tag⟩ :: rest := rfl
        rw [Nat.add_comm 2 fuel, isolateLoop_last split first pos_lower stop_lower (by omega) le_rfl
          (by omega)]
        refine ⟨pre.length + 1, ?_⟩
        simp only [isolated, clip_cons, clip1_lower first (Nat.not_le.mp above) cut.le,
          clip1_upper (Nat.not_le.mp above).le cut high, Option.toList_some,
          clip_of_outside (fun x hx => .inr (behind x hx)),
          clip_of_within ordered'.pos behind bounded', List.append_assoc, List.cons_append,
          List.nil_append, List.length_singleton]
      · rw [if_neg cut]
        have h' : t.regions = (pre ++ [r]) ++ rest := by simpa using h
        obtain ⟨idx, done⟩ := ih h' ordered' bounded' small room (fun x hx => low x (by simp [hx]))
          (recorded se pre.length 1) (by simpa using enough)
        refine ⟨idx, ?_⟩
        simp only [List.length_append, List.length_singleton, recorded_succ] at done
        rw [done]
        simp only [isolated, clip_cons, clip1_of_within pos first (Nat.not_lt.mp cut),
          clip1_of_outside (.inl (Nat.not_lt.mp cut)), Option.toList_some, Option.toList_none,
          List.nil_append, List.append_assoc, List.cons_append, List.length_cons]

/-- The isolation loop cuts the array at both ends of the range. -/
theorem isolateLoop_eq {t : MemblockType} {pre rest : List Region} (h : t.regions = pre ++ rest)
    (ordered : Ordered rest) (bounded : Bounded rest) (small : t.totalSize < 2 ^ 64)
    (room : t.cnt + 2 ≤ t.max) {base end_ : Nat} (lt : base < end_) {fuel : Nat}
    (enough : rest.length + 3 ≤ fuel) :
    ∃ idx, isolateLoop base end_ fuel ⟨t, pre.length, 0, 0⟩ =
      .ok ⟨isolated t (pre ++ clip 0 base rest) base end_ rest, idx,
        (recorded (0, 0) (pre ++ clip 0 base rest).length (clip base end_ rest).length).1,
        (recorded (0, 0) (pre ++ clip 0 base rest).length (clip base end_ rest).length).2⟩ := by
  induction rest generalizing pre fuel with
  | nil =>
      obtain ⟨fuel, rfl⟩ := Nat.exists_eq_succ_of_ne_zero (by omega : fuel ≠ 0)
      obtain ⟨idx, done⟩ := isolateLoop_inside h ordered bounded small (by omega) end_ (by simp) (0, 0)
        (by omega : ([] : List Region).length + 2 ≤ fuel + 1)
      exact ⟨idx, by simpa using done⟩
  | cons r rest ih =>
      obtain ⟨fuel, rfl⟩ := Nat.exists_eq_succ_of_ne_zero (by omega : fuel ≠ 0)
      obtain ⟨high, bounded'⟩ := Bounded.cons_iff.mp bounded
      obtain ⟨pos, after, ordered'⟩ := Ordered.cons_iff.mp ordered
      have pos' : r.base < r.stop := by simp only [stop]; omega
      by_cases low : base ≤ r.base
      · have low' : ∀ x ∈ r :: rest, base ≤ x.base := by
          intro x member
          rcases List.mem_cons.mp member with rfl | member
          · exact low
          · have := after x member
            omega
        rw [clip_of_outside (fun x hx => .inr (low' x hx)), List.append_nil]
        exact isolateLoop_inside h ordered bounded small (by omega) end_ low' (0, 0) (by omega)
      rw [isolateLoop_cons h high base end_ fuel (0, 0), if_neg (by omega)]
      by_cases below : r.stop ≤ base
      · rw [if_pos below]
        have h' : t.regions = (pre ++ [r]) ++ rest := by simpa using h
        obtain ⟨idx, done⟩ := ih h' ordered' bounded' (by simpa using enough)
        refine ⟨idx, ?_⟩
        simp only [List.append_assoc, List.singleton_append] at done
        simpa only [isolated, clip_cons, clip1_of_within pos (Nat.zero_le _) below,
          clip1_of_outside (.inl below), clip1_of_outside (.inl (below.trans lt.le)),
          Option.toList_some, Option.toList_none, List.nil_append, List.singleton_append,
          List.length_append, List.length_singleton] using done
      · rw [if_neg below, if_pos (by omega), splitRegion_eq h high small (by omega) (by omega)
          (by omega), ok_bind]
        have stop_upper : (⟨base, r.stop - base, r.tag⟩ : Region).stop = r.stop :=
          Nat.add_sub_of_le (Nat.not_le.mp below).le
        have ordered'' : Ordered (⟨base, r.stop - base, r.tag⟩ :: rest) :=
          Ordered.cons_iff.mpr ⟨by simp only; omega, by rwa [stop_upper], ordered'⟩
        have bounded'' : Bounded (⟨base, r.stop - base, r.tag⟩ :: rest) :=
          Bounded.cons_iff.mpr ⟨by rwa [stop_upper], bounded'⟩
        have behind : ∀ x ∈ rest, base ≤ x.base := fun x hx => by
          have := after x hx
          omega
        have low' : ∀ x ∈ (⟨base, r.stop - base, r.tag⟩ : Region) :: rest, base ≤ x.base := by
          simpa using behind
        have split : ({ t with regions := (pre ++ [⟨r.base, base - r.base, r.tag⟩]) ++
            ⟨base, r.stop - base, r.tag⟩ :: rest } : MemblockType).regions =
            (pre ++ [⟨r.base, base - r.base, r.tag⟩]) ++ ⟨base, r.stop - base, r.tag⟩ :: rest := rfl
        obtain ⟨idx, done⟩ := isolateLoop_inside split ordered'' bounded'' small (by
          simp only [MemblockType.cnt, h, List.length_append, List.length_cons,
            List.length_nil] at room ⊢
          omega) end_ low' (0, 0) (by simpa using enough : _ ≤ fuel)
        refine ⟨idx, ?_⟩
        simpa only [isolated, clip_cons, clip1_lower (Nat.zero_le _) (Nat.not_le.mp low)
          (Nat.not_le.mp below).le, clip1_cut (Nat.not_le.mp low).le le_rfl
          (Nat.not_le.mp below).le, clip1_cut (Nat.not_le.mp low).le lt.le
          (Nat.not_le.mp below).le, clip_of_outside (fun x hx => .inr (behind x hx)),
          Option.toList_some, List.append_nil, List.length_append, List.length_singleton] using done

end Miracle.Memblock
