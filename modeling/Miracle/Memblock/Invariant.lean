import Miracle.Memblock.Regions

/-! # The representation invariant of one region array

What the invariant says, and one lemma for each way an operation changes the array.
`Contents t l` separates the regions `l` of an array from the dummy entry that an
array without regions keeps.
-/

namespace Miracle.Memblock

open Extent

/-- The representation invariant of a `struct memblock_type`. -/
structure TypeInv (t : MemblockType) : Prop where
  cnt_pos : 1 ≤ t.cnt
  cnt_le : t.cnt ≤ t.max
  apart : t.regions.Pairwise (fun x y => x.stop ≤ y.base)
  sized : (∀ r ∈ t.regions, 0 < r.size) ∨ t.regions = [Region.dummy]
  bounded : Bounded t.regions
  totalSize_eq : t.totalSize = total t.regions

def orDummy (l : List Region) : List Region := if l = [] then [Region.dummy] else l

theorem orDummy_of_ne {l : List Region} (h : l ≠ []) : orDummy l = l := if_neg h

@[simp] theorem lookup_orDummy (l : List Region) (a : Nat) : lookup (orDummy l) a = lookup l a := by
  unfold orDummy
  split
  · subst l
    rw [lookup_cons, if_neg]
    simp only [Contains, stop, Region.dummy]
    omega
  · rfl

@[simp] theorem total_orDummy (l : List Region) : total (orDummy l) = total l := by
  unfold orDummy
  split
  · subst l
    rfl
  · rfl

theorem length_orDummy (l : List Region) : (orDummy l).length = max l.length 1 := by
  unfold orDummy
  split
  · subst l
    rfl
  · have : 0 < l.length := List.length_pos_iff.mpr ‹_›
    omega

/-- Disjoint sorted regions below the end of the address space. -/
structure Sound (l : List Region) : Prop where
  ordered : Ordered l
  bounded : Bounded l

theorem Sound.nil : Sound [] := ⟨.nil, by simp [Bounded]⟩

theorem Sound.total_le {l : List Region} (h : Sound l) : total l ≤ physAddrMax := by
  simpa using h.ordered.total_le (fun _ _ => Nat.zero_le _) h.bounded (Nat.zero_le _)

theorem Sound.total_lt {l : List Region} (h : Sound l) : total l < 2 ^ 64 := by
  have := h.total_le
  simp only [physAddrMax] at this
  omega

/-- The array holds exactly the regions `l`. -/
structure Contents (t : MemblockType) (l : List Region) : Prop where
  sound : Sound l
  regions_eq : t.regions = orDummy l
  totalSize_eq : t.totalSize = total l

theorem TypeInv.contents {t : MemblockType} (inv : TypeInv t) : ∃ l, Contents t l := by
  rcases inv.sized with pos | dummy
  · have ne : t.regions ≠ [] := List.ne_nil_of_length_pos inv.cnt_pos
    exact ⟨t.regions, ⟨⟨pos, inv.apart⟩, inv.bounded⟩, (orDummy_of_ne ne).symm, inv.totalSize_eq⟩
  · exact ⟨[], .nil, dummy, by rw [inv.totalSize_eq, dummy]; rfl⟩

theorem TypeInv.max_pos {t : MemblockType} (inv : TypeInv t) : 1 ≤ t.max :=
  inv.cnt_pos.trans inv.cnt_le

namespace Contents

variable {t : MemblockType} {l : List Region} (h : Contents t l)

include h

theorem cnt_eq : t.cnt = max l.length 1 := by rw [MemblockType.cnt, h.regions_eq, length_orDummy]

theorem length_le_cnt : l.length ≤ t.cnt := by
  rw [h.cnt_eq]
  exact le_max_left _ _

theorem typeInv (fits : l.length ≤ t.max) (pos : 1 ≤ t.max) : TypeInv t := by
  have cnt := h.cnt_eq
  by_cases empty : l = []
  · subst l
    have regions : t.regions = [Region.dummy] := h.regions_eq
    refine ⟨by omega, by rw [cnt]; simpa using pos, ?_, .inr regions, ?_, ?_⟩
    · rw [regions]
      exact List.pairwise_singleton _ _
    · simp [regions, Bounded, Region.dummy, stop]
    · rw [h.totalSize_eq, regions]
      rfl
  · have regions : t.regions = l := h.regions_eq.trans (orDummy_of_ne empty)
    refine ⟨by omega, by omega, ?_, .inl ?_, ?_, ?_⟩
    · exact regions ▸ h.sound.ordered.apart
    · exact regions ▸ h.sound.ordered.pos
    · exact regions ▸ h.sound.bounded
    · rw [h.totalSize_eq, regions]

theorem lookup_eq (a : Nat) : lookup t.regions a = lookup l a := by
  rw [h.regions_eq, lookup_orDummy]

theorem totalSize_lt : t.totalSize < 2 ^ 64 := by
  rw [h.totalSize_eq]
  exact h.sound.total_lt

end Contents

/-! ## Isolation and removal -/

/-- The regions cut at both ends of `[base, end_)`. -/
def cutAt (base end_ : Nat) (l : List Region) : List Region :=
  clip 0 base l ++ (clip base end_ l ++ clip end_ physAddrMax l)

/-- The indices that an isolation returns. -/
def cutIndices (base end_ : Nat) (l : List Region) : Nat × Nat :=
  recorded (0, 0) (clip 0 base l).length (clip base end_ l).length

theorem Sound.clip {l : List Region} (h : Sound l) (lo hi : Nat) : Sound (clip lo hi l) := by
  refine ⟨h.ordered.clip lo hi, ?_⟩
  intro c member
  obtain ⟨e, he, part⟩ := mem_clip member
  have := h.bounded e he
  have := clip1_eq_some part
  omega

theorem Sound.append {l m : List Region} (hl : Sound l) (hm : Sound m)
    (between : ∀ x ∈ l, ∀ y ∈ m, x.stop ≤ y.base) : Sound (l ++ m) := by
  refine ⟨hl.ordered.append hm.ordered between, ?_⟩
  intro e member
  rcases List.mem_append.mp member with member | member
  · exact hl.bounded e member
  · exact hm.bounded e member

/-- Parts of adjacent intervals follow each other. -/
theorem clip_between {l m : List Region} {lo hi lo' hi' : Nat} (le : hi ≤ lo') :
    ∀ x ∈ clip lo hi l, ∀ y ∈ clip lo' hi' m, x.stop ≤ y.base := by
  intro x hx y hy
  obtain ⟨_, _, hx⟩ := mem_clip hx
  obtain ⟨_, _, hy⟩ := mem_clip hy
  have := clip1_eq_some hx
  have := clip1_eq_some hy
  omega

theorem Sound.cutAt {l : List Region} (h : Sound l) {base end_ : Nat} (le : base ≤ end_) :
    Sound (cutAt base end_ l) := by
  refine (h.clip 0 base).append ((h.clip _ _).append (h.clip _ _) (clip_between le_rfl)) ?_
  intro x hx y hy
  rcases List.mem_append.mp hy with hy | hy
  · exact clip_between le_rfl x hx y hy
  · exact clip_between le x hx y hy

theorem total_cutAt {l : List Region} (h : Sound l) {base end_ : Nat} (le : base ≤ end_) :
    total (cutAt base end_ l) = total l := by
  simp only [cutAt, total_append, ← Nat.add_assoc]
  exact total_clip le h.bounded

/-- Each of the two cuts adds at most one region. -/
theorem length_cutAt {l : List Region} (h : Sound l) {base end_ : Nat} (le : base ≤ end_)
    (high : end_ ≤ physAddrMax) : (cutAt base end_ l).length ≤ l.length + 2 := by
  have lower := length_clip_outside h.ordered (le_refl base) physAddrMax
  have upper := length_clip_outside (h.clip base physAddrMax).ordered (le_refl end_)
    physAddrMax
  rw [clip_clip, clip_clip, Nat.zero_max, Nat.min_eq_left high, Nat.max_eq_left le,
    Nat.min_self] at upper
  simp only [cutAt, List.length_append]
  omega

theorem Sound.lookup_above {l : List Region} (h : Sound l) {a : Nat} (above : physAddrMax ≤ a) :
    lookup l a = none := by
  rw [lookup_eq_none_iff]
  intro e member inside
  have := h.bounded e member
  simp only [Contains] at inside
  omega

theorem lookup_cutAt {l : List Region} (h : Sound l) {base end_ : Nat} (le : base ≤ end_)
    (a : Nat) : lookup (cutAt base end_ l) a = lookup l a := by
  simp only [cutAt, lookup_append, lookup_clip, Nat.zero_le, true_and]
  by_cases low : a < base
  · have : ¬ end_ ≤ a := by omega
    have : ¬ base ≤ a := by omega
    simp [*]
  · by_cases mid : a < end_
    · have : base ≤ a := by omega
      have : ¬ end_ ≤ a := by omega
      simp [*]
    · by_cases high : a < physAddrMax
      · have : end_ ≤ a := by omega
        simp [*]
      · simp [low, mid, high, h.lookup_above (Nat.not_lt.mp high)]

theorem cutAt_eq_nil {l : List Region} (h : Sound l) {base end_ : Nat} (le : base ≤ end_) :
    cutAt base end_ l = [] ↔ l = [] := by
  constructor
  · intro empty
    cases l with
    | nil => rfl
    | cons e l =>
        have sum := total_cutAt h le
        have pos := h.ordered.pos e (by simp)
        simp only [empty, total_nil, total_cons] at sum
        omega
  · rintro rfl
    rfl

/-- The isolation loop on an array with the regions `l`. -/
theorem isolateLoop_contents {t : MemblockType} {l : List Region} (h : Contents t l)
    (room : t.cnt + 2 ≤ t.max) {base end_ : Nat} (lt : base < end_) :
    ∃ idx, isolateLoop base end_ (t.cnt + 3) ⟨t, 0, 0, 0⟩ =
      .ok ⟨{ t with regions := orDummy (cutAt base end_ l) }, idx,
        (cutIndices base end_ l).1, (cutIndices base end_ l).2⟩ := by
  by_cases empty : l = []
  · -- the dummy entry ends at zero and is skipped
    subst l
    have regions : t.regions = [Region.dummy] := h.regions_eq
    refine ⟨1, ?_⟩
    have first := isolateLoop_cons (show t.regions = [] ++ Region.dummy :: [] from regions)
      (by simp [Region.dummy, stop]) base end_ (t.cnt + 2) (0, 0)
    have second := isolateLoop_nil regions base end_ (t.cnt + 1) (0, 0)
    rw [if_neg (by simp only [Region.dummy]; omega), if_pos (by simp [Region.dummy, stop])] at first
    have same : ({ t with regions := orDummy (cutAt base end_ []) } : MemblockType) = t := by
      cases t
      simp only at regions
      rw [regions]
      rfl
    rw [same]
    exact first.trans second
  · have regions : t.regions = [] ++ l := h.regions_eq.trans (orDummy_of_ne empty)
    obtain ⟨idx, done⟩ := isolateLoop_eq regions h.sound.ordered h.sound.bounded h.totalSize_lt room
      lt (by rw [h.cnt_eq]; omega : l.length + 3 ≤ t.cnt + 3)
    refine ⟨idx, ?_⟩
    rw [orDummy_of_ne (mt (cutAt_eq_nil h.sound lt.le).mp empty)]
    simpa [isolated, cutAt, cutIndices] using done

theorem Contents.isolated {t : MemblockType} {l : List Region} (h : Contents t l) {base end_ : Nat}
    (le : base ≤ end_) :
    Contents { t with regions := orDummy (cutAt base end_ l) } (cutAt base end_ l) :=
  ⟨h.sound.cutAt le, rfl, h.totalSize_eq.trans (total_cutAt h.sound le).symm⟩

theorem removeRegion_at {t : MemblockType} {pre rest : List Region} {r : Region}
    (h : t.regions = pre ++ r :: rest) (le : r.size ≤ t.totalSize) (small : t.totalSize < 2 ^ 64) :
    memblockRemoveRegion t pre.length =
      { t with regions := orDummy (pre ++ rest), totalSize := t.totalSize - r.size } := by
  have erase : t.regions.eraseIdx pre.length = pre ++ rest := by
    rw [h, List.eraseIdx_append_of_length_le le_rfl]
    simp
  simp only [memblockRemoveRegion, rgn_append_length t h, erase, u64Sub_of_le small le,
    List.length_eq_zero_iff, orDummy]

/-- Removal of the regions `mid`, from the last to the first. -/
theorem removeRegions_eq {t : MemblockType} {pre mid rest : List Region}
    (h : t.regions = orDummy (pre ++ mid ++ rest)) (le : total mid ≤ t.totalSize)
    (small : t.totalSize < 2 ^ 64) :
    removeRegions t pre.length mid.length =
      { t with regions := orDummy (pre ++ rest), totalSize := t.totalSize - total mid } := by
  induction mid using List.reverseRecOn generalizing t with
  | nil =>
      cases t
      simp_all [removeRegions]
  | append_singleton mid r ih =>
      have h' : t.regions = (pre ++ mid) ++ r :: rest := by
        rw [h, orDummy_of_ne (by simp)]
        simp
      rw [total_append, total_cons, total_nil, Nat.add_zero] at le ⊢
      rw [List.length_append, List.length_singleton, removeRegions, ← List.length_append,
        removeRegion_at h' (by omega) small, ih rfl (by simp only; omega) (by simp only; omega)]
      simp only [Nat.sub_sub, Nat.add_comm]

/-- The regions without the addresses of `[base, end_)`. -/
def outside (base end_ : Nat) (l : List Region) : List Region :=
  clip 0 base l ++ clip end_ physAddrMax l

theorem Sound.outside {l : List Region} (h : Sound l) {base end_ : Nat} (le : base ≤ end_) :
    Sound (outside base end_ l) :=
  (h.clip _ _).append (h.clip _ _) (clip_between le)

theorem lookup_outside {l : List Region} (h : Sound l) {base end_ : Nat} (le : base ≤ end_)
    (a : Nat) :
    lookup (outside base end_ l) a = if base ≤ a ∧ a < end_ then none else lookup l a := by
  simp only [outside, lookup_append, lookup_clip, Nat.zero_le, true_and]
  by_cases low : a < base
  · have : ¬ end_ ≤ a := by omega
    have : ¬ base ≤ a := by omega
    simp [*]
  · by_cases mid : a < end_
    · have : base ≤ a := by omega
      have : ¬ end_ ≤ a := by omega
      simp [*]
    · by_cases high : a < physAddrMax
      · have : end_ ≤ a := by omega
        simp [*]
      · simp [low, mid, high, h.lookup_above (Nat.not_lt.mp high)]

theorem length_outside {l : List Region} (h : Sound l) {base end_ : Nat} (le : base ≤ end_) :
    (outside base end_ l).length ≤ l.length + 1 := by
  rw [outside, List.length_append]
  exact length_clip_outside h.ordered le _

/-- Removal from the bottom of memory splits no region. -/
theorem length_outside_zero (l : List Region) (end_ : Nat) : (outside 0 end_ l).length ≤ l.length := by
  have empty : clip 0 0 l = [] := clip_of_outside (fun _ _ => .inr (Nat.zero_le _))
  rw [outside, empty, List.nil_append]
  exact List.length_filterMap_le _ _

/-- The removal that follows an isolation. -/
theorem removeRegions_isolated {t : MemblockType} {l : List Region} (h : Contents t l)
    {base end_ : Nat} (le : base ≤ end_) :
    removeRegions { t with regions := orDummy (cutAt base end_ l) } (cutIndices base end_ l).1
        ((cutIndices base end_ l).2 - (cutIndices base end_ l).1) =
      { t with
        regions := orDummy (outside base end_ l)
        totalSize := total (outside base end_ l) } := by
  have sum := total_cutAt h.sound le
  simp only [cutAt, total_append] at sum
  have size : t.totalSize - total (clip base end_ l) = total (outside base end_ l) := by
    rw [h.totalSize_eq, outside, total_append]
    omega
  by_cases empty : clip base end_ l = []
  · rw [empty, total_nil, Nat.sub_zero] at size
    simp only [cutIndices, cutAt, recorded, empty, List.length_nil, if_true, List.nil_append, ← size]
    rfl
  · have pos : (clip base end_ l).length ≠ 0 := by simpa using empty
    simp only [cutIndices, recorded, if_neg pos, if_true, Nat.add_sub_cancel_left]
    have parts : ({ t with regions := orDummy (cutAt base end_ l) } : MemblockType).regions =
        orDummy (clip 0 base l ++ clip base end_ l ++ clip end_ physAddrMax l) := by simp [cutAt]
    have le : total (clip base end_ l) ≤ t.totalSize := by
      rw [h.totalSize_eq]
      omega
    rw [removeRegions_eq parts le h.totalSize_lt, size]
    rfl

theorem Contents.removed {t : MemblockType} {l : List Region} (h : Contents t l) {base end_ : Nat}
    (le : base ≤ end_) :
    Contents { t with
      regions := orDummy (outside base end_ l)
      totalSize := total (outside base end_ l) } (outside base end_ l) :=
  ⟨h.sound.outside le, rfl, rfl⟩

theorem Contents.typeInv_removed {t : MemblockType} {l : List Region} (h : Contents t l)
    (room : t.cnt + 1 ≤ t.max) {base end_ : Nat} (le : base ≤ end_) :
    TypeInv { t with
      regions := orDummy (outside base end_ l)
      totalSize := total (outside base end_ l) } := by
  have := h.length_le_cnt
  have := length_outside h.sound le
  exact (h.removed le).typeInv (by simp only; omega) (by simp only; omega)

/-! ## The mapped regions outside a range -/

/-- Removal of the mapped regions among `mid`. -/
theorem removeMapped_eq {t : MemblockType} {pre mid rest : List Region}
    (h : t.regions = orDummy (pre ++ mid ++ rest))
    (size : t.totalSize = total (pre ++ mid ++ rest)) (small : t.totalSize < 2 ^ 64) :
    removeMapped t pre.length mid.length =
      { t with
        regions := orDummy (pre ++ mid.filter memblockIsNomap ++ rest)
        totalSize := total (pre ++ mid.filter memblockIsNomap ++ rest) } := by
  induction mid using List.reverseRecOn generalizing t rest with
  | nil =>
      cases t
      simp_all [removeMapped]
  | append_singleton mid r ih =>
      have h' : t.regions = (pre ++ mid) ++ r :: rest := by
        rw [h, orDummy_of_ne (by simp)]
        simp
      rw [List.length_append, List.length_singleton, removeMapped, ← List.length_append,
        rgn_append_length t h']
      simp only [total_append, total_cons, total_nil] at size
      by_cases keep : memblockIsNomap r
      · have again : t.regions = orDummy (pre ++ mid ++ r :: rest) := by
          rw [h]
          simp
        rw [if_pos keep, ih again (by simp only [size, total_append, total_cons]; omega) small]
        simp [keep]
      · rw [if_neg keep, removeRegion_at h' (by omega) small,
          ih rfl (by simp only [size, total_append]; omega) (by simp only; omega)]
        simp [keep]

/-- With no region in the array the dummy entry is removed and put back. -/
theorem removeMapped_dummy {t : MemblockType} (h : t.regions = [Region.dummy])
    (size : t.totalSize = 0) : removeMapped t 0 1 = t := by
  cases t
  simp only at h size
  subst h size
  simp [removeMapped, memblockRemoveRegion, MemblockType.rgn, memblockIsNomap, Region.dummy,
    Flags.none, u64Sub]

theorem Sound.sublist {l m : List Region} (sub : l.Sublist m) (h : Sound m) : Sound l :=
  ⟨h.ordered.sublist sub, fun e member => h.bounded e (sub.subset member)⟩

theorem removeMapped_all {t : MemblockType} {l : List Region} (h : Contents t l) :
    removeMapped t 0 t.cnt =
      { t with
        regions := orDummy (l.filter memblockIsNomap)
        totalSize := total (l.filter memblockIsNomap) } := by
  by_cases none : l = []
  · subst l
    have one : t.cnt = 1 := h.cnt_eq
    have dummy := removeMapped_dummy h.regions_eq h.totalSize_eq
    rw [one, dummy]
    obtain ⟨-, regions, size⟩ := h
    cases t
    simp only at regions size
    subst regions size
    rfl
  · have cnt : t.cnt = l.length := by rw [MemblockType.cnt, h.regions_eq, orDummy_of_ne none]
    have all := @removeMapped_eq t [] l [] (by simpa using h.regions_eq)
      (by simpa using h.totalSize_eq) h.totalSize_lt
    simp only [List.length_nil, List.nil_append, List.append_nil] at all
    rw [cnt, all]

/-- The regions inside `[base, end_)` and the parts without mapping outside it. -/
def capped (base end_ : Nat) (l : List Region) : List Region :=
  (clip 0 base l).filter memblockIsNomap ++
    (clip base end_ l ++ (clip end_ physAddrMax l).filter memblockIsNomap)

theorem capped_sublist (base end_ : Nat) (l : List Region) :
    (capped base end_ l).Sublist (cutAt base end_ l) :=
  List.filter_sublist.append ((List.Sublist.refl _).append List.filter_sublist)

/-- Addresses of the range keep their flags, the others only where they say nomap. -/
theorem lookup_capped {l : List Region} (h : Sound l) {base end_ : Nat} (le : base ≤ end_) (a : Nat) :
    lookup (capped base end_ l) a =
      if base ≤ a ∧ a < end_ then lookup l a
      else (lookup l a).filter (fun flags => flags &&& Flags.nomap != 0) := by
  have cut := lookup_cutAt h le a
  have mapped (m : List Region) (ordered : Ordered m) :
      lookup (m.filter memblockIsNomap) a =
        (lookup m a).filter (fun flags => flags &&& Flags.nomap != 0) :=
    lookup_filter ordered (fun flags : Flags => flags &&& Flags.nomap != 0) a
  simp only [capped, cutAt, lookup_append, mapped _ (h.clip _ _).ordered, lookup_clip] at cut ⊢
  by_cases inside : base ≤ a ∧ a < end_
  · have : ¬ end_ ≤ a := by omega
    have : ¬ a < base := by omega
    simp [*]
  · by_cases low : a < base
    · have : ¬ end_ ≤ a := by omega
      simp [low, inside, this]
    · simp only [low, inside, and_false, if_false, Option.none_or] at cut ⊢
      rw [cut]
      rfl

/-- The two removal loops of `memblock_cap_memory_range` after the isolation. -/
theorem removeMapped_isolated {t : MemblockType} {l : List Region} (h : Contents t l)
    {base end_ : Nat} (le : base ≤ end_) {iso : MemblockType}
    (cut : iso = { t with regions := orDummy (cutAt base end_ l) }) :
    removeMapped (removeMapped iso (cutIndices base end_ l).2 (iso.cnt - (cutIndices base end_ l).2))
        0 (cutIndices base end_ l).1 =
      { t with
        regions := orDummy (capped base end_ l)
        totalSize := total (capped base end_ l) } := by
  have contents : Contents iso (cutAt base end_ l) := cut ▸ h.isolated le
  by_cases mid : clip base end_ l = []
  · -- nothing is isolated: both indices are zero and all mapped regions go
    simp only [cutIndices, recorded, mid, List.length_nil, if_true, Nat.sub_zero,
      removeMapped_all contents, removeMapped]
    simp [capped, cutAt, mid, cut]
  · have pos : (clip base end_ l).length ≠ 0 := by simpa using mid
    have cnt : iso.cnt = (cutAt base end_ l).length := by
      rw [MemblockType.cnt, contents.regions_eq, orDummy_of_ne (by simp [cutAt, mid])]
    have small := contents.totalSize_lt
    simp only [cutIndices, recorded, if_neg pos, if_true]
    have above := @removeMapped_eq iso (clip 0 base l ++ clip base end_ l)
      (clip end_ physAddrMax l) []
      (by simpa [cutAt] using contents.regions_eq) (by simpa [cutAt] using contents.totalSize_eq) small
    have rounds : iso.cnt - ((clip 0 base l).length + (clip base end_ l).length) =
        (clip end_ physAddrMax l).length := by
      rw [cnt]
      simp only [cutAt, List.length_append]
      omega
    have le : total (clip 0 base l ++ clip base end_ l ++
        (clip end_ physAddrMax l).filter memblockIsNomap) < 2 ^ 64 := by
      refine (Sound.sublist ?_ contents.sound).total_lt
      simp only [cutAt, List.append_assoc]
      exact (List.Sublist.refl _).append ((List.Sublist.refl _).append List.filter_sublist)
    rw [rounds, ← List.length_append, above, List.append_nil]
    have below := @removeMapped_eq
      { iso with
        regions := orDummy (clip 0 base l ++ clip base end_ l ++
          (clip end_ physAddrMax l).filter memblockIsNomap)
        totalSize := total (clip 0 base l ++ clip base end_ l ++
          (clip end_ physAddrMax l).filter memblockIsNomap) }
      [] (clip 0 base l) (clip base end_ l ++ (clip end_ physAddrMax l).filter memblockIsNomap)
      (by simp) (by simp) le
    simp only [List.length_nil, List.nil_append] at below
    rw [below, cut]
    rfl

/-! ## Changing flags -/

theorem modify_at {α : Type} (pre rest : List α) (x : α) (f : α → α) :
    (pre ++ x :: rest).modify pre.length f = pre ++ f x :: rest := by
  induction pre with
  | nil => rfl
  | cons a pre ih => simpa using ih

theorem setclrRegions_eq {t : MemblockType} {pre mid rest : List Region} (set : Bool) (flag : Flags)
    (h : t.regions = pre ++ mid ++ rest) :
    setclrRegions set flag t pre.length mid.length =
      { t with regions := pre ++ mid.map (setclr set flag) ++ rest } := by
  induction mid generalizing t pre with
  | nil =>
      cases t
      simp_all [setclrRegions]
  | cons r mid ih =>
      have modify : t.regions.modify pre.length (setclr set flag) =
          (pre ++ [setclr set flag r]) ++ mid ++ rest := by
        rw [h, List.append_assoc, List.cons_append, modify_at]
        simp
      rw [List.length_cons, setclrRegions, modify]
      have next := ih (t := { t with regions := (pre ++ [setclr set flag r]) ++ mid ++ rest }) rfl
      rw [List.length_append, List.length_singleton] at next
      rw [next]
      simp

/-- What setting or clearing a flag makes of the old flags. -/
def newFlags (set : Bool) (flag old : Flags) : Flags :=
  if set then old ||| flag else old &&& ~~~flag

theorem lookup_map_setclr (set : Bool) (flag : Flags) (l : List Region) (a : Nat) :
    lookup (l.map (setclr set flag)) a = (lookup l a).map (newFlags set flag) := by
  induction l with
  | nil => rfl
  | cons r l ih =>
      have same : (setclr set flag r).Contains a ↔ r.Contains a := Iff.rfl
      rw [List.map_cons, lookup_cons, lookup_cons, ih]
      by_cases inside : r.Contains a
      · rw [if_pos inside, if_pos (same.mpr inside)]
        rfl
      · rw [if_neg inside, if_neg (mt same.mp inside)]

theorem total_map_setclr (set : Bool) (flag : Flags) (l : List Region) :
    total (l.map (setclr set flag)) = total l := by
  rw [total, List.map_map]
  rfl

theorem Sound.map_setclr {l : List Region} (h : Sound l) (set : Bool) (flag : Flags) :
    Sound (l.map (setclr set flag)) := by
  refine ⟨⟨?_, ?_⟩, ?_⟩
  · intro e member
    obtain ⟨r, hr, rfl⟩ := List.mem_map.mp member
    exact h.ordered.pos r hr
  · exact List.pairwise_map.mpr h.ordered.apart
  · intro e member
    obtain ⟨r, hr, rfl⟩ := List.mem_map.mp member
    exact h.bounded r hr

/-- The regions with the flag changed inside `[base, end_)`. -/
def reflagged (set : Bool) (flag : Flags) (base end_ : Nat) (l : List Region) : List Region :=
  clip 0 base l ++ ((clip base end_ l).map (setclr set flag) ++ clip end_ physAddrMax l)

theorem Sound.reflagged {l : List Region} (h : Sound l) (set : Bool) (flag : Flags)
    {base end_ : Nat} (le : base ≤ end_) : Sound (reflagged set flag base end_ l) := by
  have between : ∀ x ∈ (Extent.clip base end_ l).map (setclr set flag),
      ∀ y ∈ Extent.clip end_ physAddrMax l, x.stop ≤ y.base := by
    intro x hx
    obtain ⟨r, hr, rfl⟩ := List.mem_map.mp hx
    exact clip_between le_rfl r hr
  refine (h.clip 0 base).append (((h.clip _ _).map_setclr _ _).append (h.clip _ _) between) ?_
  intro x hx y hy
  rcases List.mem_append.mp hy with hy | hy
  · obtain ⟨r, hr, rfl⟩ := List.mem_map.mp hy
    exact clip_between le_rfl x hx r hr
  · exact clip_between le x hx y hy

theorem total_reflagged {l : List Region} (h : Sound l) (set : Bool) (flag : Flags)
    {base end_ : Nat} (le : base ≤ end_) : total (reflagged set flag base end_ l) = total l := by
  rw [← total_cutAt h le]
  simp only [reflagged, cutAt, total_append, total_map_setclr]

theorem lookup_reflagged {l : List Region} (h : Sound l) (set : Bool) (flag : Flags)
    {base end_ : Nat} (le : base ≤ end_) (a : Nat) :
    lookup (reflagged set flag base end_ l) a =
      if base ≤ a ∧ a < end_ then (lookup l a).map (newFlags set flag) else lookup l a := by
  have cut := lookup_cutAt h le a
  simp only [reflagged, cutAt, lookup_append, lookup_map_setclr, lookup_clip] at cut ⊢
  by_cases inside : base ≤ a ∧ a < end_
  · have : ¬ end_ ≤ a := by omega
    have : ¬ a < base := by omega
    simp [*]
  · simpa [inside] using cut

/-- The flag changes that follow an isolation. -/
theorem setclrRegions_isolated {t : MemblockType} (l : List Region) (set : Bool) (flag : Flags)
    (base end_ : Nat) :
    setclrRegions set flag { t with regions := orDummy (cutAt base end_ l) }
        (cutIndices base end_ l).1 ((cutIndices base end_ l).2 - (cutIndices base end_ l).1) =
      { t with regions := orDummy (reflagged set flag base end_ l) } := by
  by_cases empty : clip base end_ l = []
  · simp [cutIndices, cutAt, recorded, empty, setclrRegions, reflagged]
  · have pos : (clip base end_ l).length ≠ 0 := by simpa using empty
    have parts : ({ t with regions := orDummy (cutAt base end_ l) } : MemblockType).regions =
        clip 0 base l ++ clip base end_ l ++ clip end_ physAddrMax l := by
      simp [cutAt, orDummy, empty]
    simp only [cutIndices, recorded, if_neg pos, if_true, Nat.add_sub_cancel_left]
    have ne : reflagged set flag base end_ l ≠ [] := by simp [reflagged, empty]
    rw [setclrRegions_eq set flag parts, orDummy_of_ne ne]
    simp [reflagged]

theorem Contents.reflagged {t : MemblockType} {l : List Region} (h : Contents t l) (set : Bool)
    (flag : Flags) {base end_ : Nat} (le : base ≤ end_) :
    Contents { t with regions := orDummy (reflagged set flag base end_ l) }
      (reflagged set flag base end_ l) :=
  ⟨h.sound.reflagged set flag le, rfl, h.totalSize_eq.trans (total_reflagged h.sound set flag le).symm⟩

/-! ## Merging and adding -/

theorem coalesce_orDummy (l : List Region) : coalesce (orDummy l) = orDummy (coalesce l) := by
  by_cases empty : l = []
  · subst l
    rfl
  · rw [orDummy_of_ne empty, orDummy_of_ne (coalesce_ne_nil empty)]

theorem Contents.merge {t : MemblockType} {l : List Region} (h : Contents t l) :
    memblockMergeRegions t = .ok { t with regions := orDummy (coalesce l) } := by
  have inv : TypeInv { t with max := l.length + 1 } :=
    Contents.typeInv ⟨h.sound, h.regions_eq, h.totalSize_eq⟩ (by simp) (by simp)
  have apart : t.regions.Pairwise (fun x y => x.stop ≤ y.base) := inv.apart
  have bounded : Bounded t.regions := inv.bounded
  rw [mergeRegions_eq apart bounded, h.regions_eq, coalesce_orDummy]

theorem Sound.coalesce {l : List Region} (h : Sound l) : Sound (coalesce l) := by
  refine ⟨h.ordered.coalesce, ?_⟩
  intro e member
  obtain ⟨y, hy, same⟩ := mem_coalesce_stop h.ordered member
  exact same ▸ h.bounded y hy

theorem Contents.merged {t : MemblockType} {l : List Region} (h : Contents t l) :
    Contents { t with regions := orDummy (coalesce l) } (coalesce l) :=
  ⟨h.sound.coalesce, rfl, h.totalSize_eq.trans (total_coalesce l).symm⟩

theorem Contents.typeInv_merged {t : MemblockType} {l : List Region} (h : Contents t l)
    (fits : l.length ≤ t.max) (pos : 1 ≤ t.max) :
    TypeInv { t with regions := orDummy (coalesce l) } :=
  h.merged.typeInv ((length_coalesce_le l).trans fits) pos

theorem length_reflagged (set : Bool) (flag : Flags) (base end_ : Nat) (l : List Region) :
    (reflagged set flag base end_ l).length = (cutAt base end_ l).length := by
  simp [reflagged, cutAt]

theorem Sound.fill {l : List Region} (h : Sound l) {end_ : Nat} (le : end_ ≤ physAddrMax)
    (flags : Flags) (base : Nat) : Sound (fill end_ flags l base) := by
  refine ⟨h.ordered.fill end_ flags base, ?_⟩
  intro e member
  rcases mem_fill member with old | new
  · exact h.bounded e old
  · omega

/-- The regions after the missing parts of `[base, end_)` have been added; the
    array is only merged when something was missing. -/
def addedTo (base end_ : Nat) (flags : Flags) (l : List Region) : List Region :=
  if pieces end_ l base = 0 then l else coalesce (fill end_ flags l base)

theorem Sound.addedTo {l : List Region} (h : Sound l) (base : Nat) {end_ : Nat}
    (le : end_ ≤ physAddrMax) (flags : Flags) : Sound (addedTo base end_ flags l) := by
  unfold Memblock.addedTo
  split
  · exact h
  · exact (h.fill le flags base).coalesce

theorem length_addedTo (base end_ : Nat) (flags : Flags) (l : List Region) :
    (addedTo base end_ flags l).length ≤ l.length + pieces end_ l base := by
  unfold addedTo
  split
  · omega
  · rw [← length_fill end_ flags l base]
    exact length_coalesce_le _

theorem lookup_addedTo {l : List Region} (h : Sound l) (base end_ : Nat) (flags : Flags) (a : Nat) :
    lookup (addedTo base end_ flags l) a =
      (lookup l a).or (if base ≤ a ∧ a < end_ then some flags else none) := by
  rw [← lookup_fill h.ordered]
  unfold addedTo
  split
  · rw [fill_of_pieces_eq_zero flags ‹_›]
  · exact lookup_coalesce _ a

/-- The type after the missing parts of `[base, end_)` have been added. -/
def addedType (t : MemblockType) (base end_ : Nat) (flags : Flags) (l : List Region) : MemblockType :=
  { t with
    regions := orDummy (addedTo base end_ flags l)
    totalSize := total (addedTo base end_ flags l) }

theorem Contents.added {t : MemblockType} {l : List Region} (h : Contents t l) (base : Nat)
    {end_ : Nat} (le : end_ ≤ physAddrMax) (flags : Flags) :
    Contents (addedType t base end_ flags l) (addedTo base end_ flags l) :=
  ⟨h.sound.addedTo base le flags, rfl, rfl⟩

theorem Contents.typeInv_added {t : MemblockType} {l : List Region} (h : Contents t l) {base end_ : Nat}
    (le : end_ ≤ physAddrMax) (flags : Flags) (pos : 1 ≤ t.max)
    (fits : l.length + pieces end_ l base ≤ t.max) : TypeInv (addedType t base end_ flags l) :=
  (h.added base le flags).typeInv ((length_addedTo base end_ flags l).trans fits) pos

theorem Contents.addedType_eq_self {t : MemblockType} {l : List Region} (h : Contents t l)
    {base end_ : Nat} (flags : Flags) (done : pieces end_ l base = 0) :
    addedType t base end_ flags l = t := by
  simp only [addedType, addedTo, if_pos done, ← h.regions_eq, ← h.totalSize_eq]

/-- The inserting round on an array that has regions and room. -/
theorem Contents.addInsert {t : MemblockType} {l : List Region} (h : Contents t l) (ne : l ≠ [])
    {base end_ : Nat} (le : end_ ≤ physAddrMax) (flags : Flags)
    (room : t.cnt + pieces end_ l base ≤ t.max) :
    addInsert t base end_ flags = .ok (addedType t base end_ flags l) := by
  have regions : t.regions = l := h.regions_eq.trans (orDummy_of_ne ne)
  have bounded : Bounded t.regions := regions ▸ h.sound.bounded
  obtain ⟨idx, b, round⟩ := addRound_insert bounded h.totalSize_lt flags (by rwa [regions])
  rw [regions] at round
  rw [Memblock.addInsert, round, ok_bind]
  by_cases done : pieces end_ l base = 0
  · have same : filled t [] l base end_ flags = t :=
      @filled_nil t h.totalSize_lt [] l regions base end_ flags (fill_of_pieces_eq_zero flags done)
    rw [if_pos done, same, h.addedType_eq_self flags done]
    rfl
  · have sound := h.sound.fill le flags base
    have size : u64 (t.totalSize + (total (fill end_ flags l base) - total l)) =
        total (fill end_ flags l base) := by
      have := total_le_fill end_ flags l base
      rw [h.totalSize_eq, Nat.add_sub_cancel' this]
      exact u64_of_lt sound.total_lt
    have ne' : fill end_ flags l base ≠ [] := by
      refine List.ne_nil_of_length_pos ?_
      rw [length_fill]
      omega
    have filled : Contents (filled t [] l base end_ flags) (fill end_ flags l base) :=
      ⟨sound, (orDummy_of_ne ne').symm, size⟩
    simp only [if_neg done, filled.merge, addedType, addedTo, total_coalesce]
    simp only [Memblock.filled, size]

/-- The inserting round on an array whose regions leave too little room. -/
theorem Contents.addInsert_full {t : MemblockType} {l : List Region} (h : Contents t l) (ne : l ≠ [])
    {base end_ : Nat} (flags : Flags) (fits : t.cnt ≤ t.max)
    (full : t.max < t.cnt + pieces end_ l base) :
    Memblock.addInsert t base end_ flags = .error .insertRegion := by
  have regions : t.regions = l := h.regions_eq.trans (orDummy_of_ne ne)
  have bounded : Bounded t.regions := regions ▸ h.sound.bounded
  rw [Memblock.addInsert, addRound_full bounded flags fits (by rwa [regions]), error_bind]

/-- The inserting round on an array that a doubling has emptied: the dummy entry
    stays in front of the new region. -/
theorem Contents.addInsert_empty {t : MemblockType} (h : Contents t []) {base end_ : Nat}
    (lt : base < end_) (le : end_ ≤ physAddrMax) (flags : Flags) (room : 2 ≤ t.max) :
    Memblock.addInsert t base end_ flags =
      .ok { t with
        regions := coalesce [Region.dummy, ⟨base, end_ - base, flags⟩]
        totalSize := end_ - base } := by
  have regions : t.regions = [Region.dummy] := h.regions_eq
  have bounded : Bounded t.regions := by simp [regions, Bounded, Region.dummy, stop]
  have zero : t.totalSize = 0 := h.totalSize_eq
  have skip : ¬ end_ ≤ Region.dummy.base := by simp only [Region.dummy]; omega
  have low : Region.dummy.stop ≤ base := by simp [Region.dummy, stop]
  have one : pieces end_ [Region.dummy] base = 1 := by simp [pieces, skip, low, lt]
  have filling : fill end_ flags [Region.dummy] base = [Region.dummy, ⟨base, end_ - base, flags⟩] := by
    simp [fill, skip, low, gap, lt]
  have room' : t.cnt + pieces end_ t.regions base ≤ t.max := by
    rw [regions, one, MemblockType.cnt, regions]
    exact room
  obtain ⟨idx, b, round⟩ := addRound_insert bounded h.totalSize_lt flags room'
  rw [regions, one] at round
  have size : u64 (end_ - base) = end_ - base := by
    refine u64_of_lt ?_
    simp only [physAddrMax] at le
    omega
  have result : filled t [] [Region.dummy] base end_ flags =
      { t with
        regions := [Region.dummy, ⟨base, end_ - base, flags⟩]
        totalSize := end_ - base } := by
    simp only [filled, filling, zero, total_cons, total_nil, Nat.zero_add, Nat.add_zero,
      Nat.add_sub_cancel_left, size, List.nil_append]
  rw [Memblock.addInsert, round, ok_bind, result, if_neg Nat.one_ne_zero, mergeRegions_eq]
  · simp [stop, Region.dummy]
  · simp only [Bounded, List.mem_cons, List.not_mem_nil, or_false, forall_eq_or_imp, forall_eq, stop,
      Region.dummy]
    omega

end Miracle.Memblock
