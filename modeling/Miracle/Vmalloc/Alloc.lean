import Miracle.Vmalloc.Invariant

/-! # The search for a free range

The search begins at the cached area or at the first area that ends at or above `vstart`, and
walks up the list.  No area before the one it is at reaches above the address it holds, so
where it stops there is room.  An address that was rounded up past the end of the address
space is zero, which the check of the result catches.
-/

namespace Miracle.Vmalloc

open SearchTree

/-! ## Rounding -/

section Align

variable {x a : Nat}

/-- The rounding is not below the address, unless it wraps to zero. -/
theorem alignUp_ge (unit : a ∣ 2 ^ 64) (word : x ≤ 2 ^ 64) : alignUp x a = 0 ∨ x ≤ alignUp x a := by
  have pos : 0 < a := Nat.pos_of_dvd_of_pos unit (by decide)
  have split := Nat.div_add_mod (x + (a - 1)) a
  have rest := Nat.mod_lt (x + (a - 1)) pos
  rw [Nat.mul_comm] at split
  have above : x ≤ (x + (a - 1)) / a * a := by omega
  have within : (x + (a - 1)) / a * a ≤ 2 ^ 64 := by
    obtain ⟨k, power⟩ := unit
    rw [power, Nat.mul_comm a k]
    apply Nat.mul_le_mul_right
    apply Nat.le_of_lt_succ
    rw [Nat.div_lt_iff_lt_mul pos, Nat.succ_mul, Nat.mul_comm k, ← power]
    omega
  unfold alignUp u64
  rcases Nat.eq_or_lt_of_le within with whole | part
  · left
    rw [whole, Nat.mod_self]
  · right
    rwa [Nat.mod_eq_of_lt part]

theorem isPowerOf2_dvd {n : Nat} (h : isPowerOf2 n = true) (word : n < 2 ^ 64) : n ∣ 2 ^ 64 := by
  simp only [isPowerOf2, Bool.and_eq_true, decide_eq_true_eq, beq_iff_eq] at h
  obtain ⟨k, rfl⟩ := (Nat.and_sub_one_eq_zero_iff_isPowerOfTwo h.1).mp h.2
  exact pow_dvd_pow 2 ((Nat.pow_lt_pow_iff_right (by decide)).mp word).le

end Align

/-! ## The walk -/

theorem walkAreas_spec {size a vend : Nat} {pre l : List VmapArea} {addr hole found : Nat} (unit : a ∣ 2 ^ 64)
    (nonempty : ∀ va ∈ pre ++ l, va.vaStart < va.vaEnd) (word : ∀ va ∈ pre ++ l, va.vaEnd < 2 ^ 64)
    (sorted : (pre ++ l).Pairwise Before) (reached : addr = 0 ∨ ∀ va ∈ pre, va.vaEnd ≤ addr)
    (room : addr + size < 2 ^ 64) (result : (walkAreas size a vend l addr hole).1 = some found) :
    found + size < 2 ^ 64 ∧
      (found + size ≤ vend → found = 0 ∨ ∀ va ∈ pre ++ l, Apart va ⟨found, found + size⟩) := by
  induction l generalizing pre addr hole with
  | nil =>
      obtain rfl := Option.some.inj result
      refine ⟨room, fun _ => reached.imp_right fun below va mem => .inl ?_⟩
      exact below va (by simpa using mem)
  | cons first rest ih =>
      have properFirst := nonempty first (by simp)
      have wordFirst := word first (by simp)
      have shape : pre ++ first :: rest = (pre ++ [first]) ++ rest := by simp
      simp only [walkAreas] at result
      split at result
      · -- the hole before `first` is too small: go on behind it
        split at result
        · exact absurd result.symm (Option.some_ne_none found)
        · rename_i fits
          have reached' : alignUp first.vaEnd a = 0 ∨ ∀ va ∈ pre ++ [first], va.vaEnd ≤ alignUp first.vaEnd a := by
            refine (alignUp_ge unit wordFirst.le).imp_right fun above va mem => ?_
            rcases List.mem_append.mp mem with inPre | last
            · have before := before_of_pre sorted rfl inPre
              unfold Before at before
              omega
            · rw [List.mem_singleton.mp last]
              exact above
          split at result
          · rename_i ended
            subst ended
            obtain rfl := Option.some.inj result
            refine ⟨not_le.mp fits, fun _ => reached'.imp_right fun below va mem => .inl (below va mem)⟩
          · rw [shape] at nonempty word sorted ⊢
            exact ih nonempty word sorted reached' (not_le.mp fits) result
      · rename_i stops
        obtain rfl := Option.some.inj result
        refine ⟨room, fun below => reached.imp_right fun under va mem => ?_⟩
        have above : addr + size ≤ first.vaStart := by omega
        rcases List.mem_append.mp mem with inPre | later
        · exact .inl (under va inPre)
        · right
          rcases List.mem_cons.mp later with rfl | after
          · exact above
          · have before := before_of_post sorted rfl after
            unfold Before at before ⊢
            simp only
            omega

/-! ## The starting point -/

/-- What a search leaves as it was. -/
structure SameAreas (s s' : Vmap) : Prop where
  root : s'.root = s.root
  areaList : s'.areaList = s.areaList
  vmFlag : s'.vmFlag = s.vmFlag
  purgeList : s'.purgeList = s.purgeList
  freeCache : s'.freeCache = none ∨ s'.freeCache = s.freeCache

theorem SameAreas.ok {s s' : Vmap} (same : SameAreas s s') (ok : AreasOk s) : AreasOk s' := by
  refine ⟨?_, ?_, ?_, ?_, ?_, ?_, ?_⟩
  · rw [same.areaList]
    exact ok.nonempty
  · rw [same.areaList]
    exact ok.word
  · rw [same.areaList]
    exact ok.sorted
  · rw [same.areaList, same.root]
    exact ok.tree
  · intro va cached
    rw [same.areaList]
    rcases same.freeCache with empty | kept
    · rw [empty] at cached
      exact absurd cached.symm (Option.some_ne_none va)
    · exact ok.cache va (kept ▸ cached)
  · rw [same.purgeList]
    exact ok.purgeNodup
  · rw [same.purgeList, same.areaList, same.vmFlag]
    exact ok.purge

/-- A place that a search may return: there is room, or it is the start of the address space. -/
def RoomAt (s : Vmap) (size vend : Nat) (found : Option Nat) : Prop :=
  ∀ addr, found = some addr → addr + size < 2 ^ 64 ∧
    (addr + size ≤ vend → addr = 0 ∨ ∀ va ∈ s.areaList, Apart va ⟨addr, addr + size⟩)

theorem searchNocache_room {s : Vmap} {size a vstart vend : Nat} (ok : AreasOk s) (unit : a ∣ 2 ^ 64) :
    SameAreas s (searchNocache s size a vstart vend).2 ∧
      RoomAt s size vend (searchNocache s size a vstart vend).1 := by
  unfold searchNocache
  simp only
  split
  · exact ⟨⟨rfl, rfl, rfl, rfl, .inl rfl⟩, nofun⟩
  · rename_i fits
    have mono : s.root.inorder.Pairwise fun x y =>
        decide (alignUp vstart a ≤ x.vaEnd) = true → decide (alignUp vstart a ≤ y.vaEnd) = true := by
      rw [ok.tree]
      apply ok.sorted.imp_of_mem
      intro x y _ memY before
      have proper := ok.nonempty y memY
      unfold Before at before
      simp only [decide_eq_true_eq]
      omega
    split
    · rename_i nothing
      rcases @firstKept_spec _ _ (fun tmp => decide (tmp.vaStart ≤ alignUp vstart a)) _ none mono with
        ⟨-, below⟩ | ⟨pre, v, post, -, found, -⟩
      · refine ⟨⟨rfl, rfl, rfl, rfl, .inl rfl⟩, ?_⟩
        intro addr here
        obtain rfl := Option.some.inj here
        refine ⟨not_le.mp fits, fun _ => .inr fun va mem => .inl ?_⟩
        have under := below va (ok.tree ▸ mem)
        simp only [decide_eq_false_iff_not, not_le] at under
        exact under.le
      · exact absurd (nothing.symm.trans found) (Option.some_ne_none v).symm
    · rename_i first isFirst
      refine ⟨⟨rfl, rfl, rfl, rfl, .inl rfl⟩, ?_⟩
      rcases @firstKept_spec _ _ (fun tmp => decide (tmp.vaStart ≤ alignUp vstart a)) _ none mono with
        ⟨nothing, -⟩ | ⟨pre, v, post, shape, found, place⟩
      · exact absurd (nothing.symm.trans isFirst) (Option.some_ne_none first).symm
      · obtain rfl := Option.some.inj (found.symm.trans isFirst)
        rw [ok.tree] at shape
        obtain ⟨freshPre, -⟩ := not_mem_parts ok.nonempty ok.sorted shape
        intro addr here
        simp only [shape, suffixFrom_append freshPre] at here
        have reached : ∀ va ∈ pre, va.vaEnd ≤ alignUp vstart a := by
          intro va mem
          rcases place with covers | below
          · have before := before_of_pre ok.sorted shape mem
            unfold Before at before
            simp only [decide_eq_true_eq] at covers
            omega
          · have under := below va mem
            simp only [decide_eq_false_iff_not, not_le] at under
            exact under.le
        rw [shape]
        exact walkAreas_spec unit (shape ▸ ok.nonempty) (shape ▸ ok.word) (shape ▸ ok.sorted) (.inr reached)
          (not_le.mp fits) here

theorem searchAreas_room {s : Vmap} {size a vstart vend : Nat} (ok : AreasOk s) (unit : a ∣ 2 ^ 64) :
    SameAreas s (searchAreas s size a vstart vend).2 ∧
      RoomAt s size vend (searchAreas s size a vstart vend).1 := by
  unfold searchAreas
  split
  · exact searchNocache_room ok unit
  · rename_i first cached
    split
    · exact searchNocache_room ok unit
    · simp only
      split
      · exact searchNocache_room ok unit
      · split
        · exact ⟨⟨rfl, rfl, rfl, rfl, .inr rfl⟩, nofun⟩
        · rename_i fits
          refine ⟨⟨rfl, rfl, rfl, rfl, .inr rfl⟩, ?_⟩
          obtain ⟨pre, post, shape⟩ := List.append_of_mem (ok.cache first cached)
          obtain ⟨freshPre, -⟩ := not_mem_parts ok.nonempty ok.sorted shape
          have word := ok.word first (ok.cache first cached)
          have proper := ok.nonempty first (ok.cache first cached)
          intro addr here
          simp only [shape, suffixFrom_append freshPre] at here
          have reached : alignUp first.vaEnd a = 0 ∨ ∀ va ∈ pre, va.vaEnd ≤ alignUp first.vaEnd a := by
            refine (alignUp_ge unit word.le).imp_right fun above va mem => ?_
            have before := before_of_pre ok.sorted shape mem
            unfold Before at before
            omega
          rw [shape]
          exact walkAreas_spec unit (shape ▸ ok.nonempty) (shape ▸ ok.word) (shape ▸ ok.sorted) reached
            (not_le.mp fits) here

/-! ## Allocation -/

/-- An area that was returned is aligned, inside the range and in the set. -/
structure Returned (s : Vmap) (size a vstart vend : Nat) (va : VmapArea) : Prop where
  size : va.vaEnd = va.vaStart + size
  aligned : a ∣ va.vaStart
  lower : vstart ≤ va.vaStart
  upper : va.vaEnd ≤ vend
  present : va ∈ s.areaList
  unlisted : va ∉ s.purgeList

theorem tryAllocVmapArea_ok (rb : Rebalancing) {s s' : Vmap} {size a vstart vend : Nat} {result : Option VmapArea}
    (ok : AreasOk s) (unit : a ∣ 2 ^ 64) (pos : 0 < size) (start : 0 < vstart)
    (done : tryAllocVmapArea rb s size a vstart vend = .ok (result, s')) :
    AreasOk s' ∧ ∀ va, result = some va → Returned s' size a vstart vend va := by
  obtain ⟨same, room⟩ := @searchAreas_room s size a vstart vend ok unit
  unfold tryAllocVmapArea at done
  split at done
  · rename_i mid searched
    obtain ⟨rfl, rfl⟩ := Prod.mk.inj (Except.ok.inj done)
    rw [searched] at same
    exact ⟨same.ok ok, nofun⟩
  · rename_i addr mid searched
    rw [searched] at same room
    have midOk := same.ok ok
    split at done
    · obtain ⟨rfl, rfl⟩ := Prod.mk.inj (Except.ok.inj done)
      exact ⟨midOk, nofun⟩
    · rename_i below
      obtain ⟨inserted, insertion, rest⟩ := bind_eq_ok done
      simp only at rest
      split at rest
      · exact absurd rest nofun
      · rename_i good
        push Not at good
        obtain ⟨aligned, lower, upper⟩ := good
        obtain ⟨rfl, rfl⟩ := Prod.mk.inj (Except.ok.inj rest)
        obtain ⟨word, clear⟩ := room addr rfl
        have apart := (clear (not_lt.mp below)).resolve_left (by omega)
        rw [← same.areaList] at apart
        obtain ⟨next, insertion', nextOk, members, flags, purge, -⟩ := insertVmapArea_ok rb midOk
          (show addr < addr + size by omega) word apart
        obtain rfl := Except.ok.inj (insertion.symm.trans insertion')
        have present : (⟨addr, addr + size⟩ : VmapArea) ∈ inserted.areaList := (members _).mpr (.inl rfl)
        have fresh : (⟨addr, addr + size⟩ : VmapArea) ∉ mid.areaList := fun mem => by
          rcases apart _ mem with first | first <;> (unfold Before at first; simp only at first; omega)
        have unlisted : (⟨addr, addr + size⟩ : VmapArea) ∉ inserted.purgeList := fun listed => by
          rw [purge] at listed
          exact fresh (midOk.purge _ listed).1
        refine ⟨⟨nextOk.nonempty, nextOk.word, nextOk.sorted, nextOk.tree, ?_, nextOk.purgeNodup, ?_⟩, ?_⟩
        · intro va cached
          obtain rfl := Option.some.inj cached
          exact present
        · intro va listed
          obtain ⟨inList, unset⟩ := nextOk.purge va listed
          refine ⟨inList, ?_⟩
          change Function.update inserted.vmFlag _ false va = false
          rw [Function.update_of_ne (fun equal : va = ⟨addr, addr + size⟩ => unlisted (equal ▸ listed))]
          exact unset
        · intro va isVa
          obtain rfl := Option.some.inj isVa
          exact ⟨rfl, Nat.dvd_of_mod_eq_zero aligned, lower, upper, present, unlisted⟩

theorem allocVmapArea_ok (rb : Rebalancing) {s s' : Vmap} {size a vstart vend : Nat} {mem : Bool}
    {result : Except Errno VmapArea} (ok : AreasOk s) (word : a < 2 ^ 64) (start : 0 < vstart)
    (done : allocVmapArea rb s size a vstart vend mem = .ok (result, s')) :
    AreasOk s' ∧ ∀ va, result = .ok va → Returned s' size a vstart vend va := by
  unfold allocVmapArea at done
  split at done
  · exact absurd done nofun
  · rename_i valid
    push Not at valid
    obtain ⟨nonzero, -, power⟩ := valid
    have unit := isPowerOf2_dvd (Bool.eq_true_of_not_eq_false power) word
    have pos := Nat.pos_of_ne_zero nonzero
    split at done
    · obtain ⟨rfl, rfl⟩ := Prod.mk.inj (Except.ok.inj done)
      exact ⟨ok, nofun⟩
    · obtain ⟨⟨first, mid⟩, tried, rest⟩ := bind_eq_ok done
      obtain ⟨midOk, firstReturned⟩ := tryAllocVmapArea_ok rb ok unit pos start tried
      cases first with
      | some va =>
          obtain ⟨rfl, rfl⟩ := Prod.mk.inj (Except.ok.inj rest)
          refine ⟨midOk, fun other same => ?_⟩
          obtain rfl := Except.ok.inj same
          exact firstReturned va rfl
      | none =>
          obtain ⟨purged, purging, rest⟩ := bind_eq_ok rest
          obtain ⟨purged', purging', purgedOk, -⟩ := purgeVmapAreaLazy_ok rb midOk
          obtain rfl := Except.ok.inj (purging.symm.trans purging')
          obtain ⟨⟨second, last⟩, tried', rest⟩ := bind_eq_ok rest
          obtain ⟨lastOk, secondReturned⟩ := tryAllocVmapArea_ok rb purgedOk unit pos start tried'
          cases second with
          | some va =>
              obtain ⟨rfl, rfl⟩ := Prod.mk.inj (Except.ok.inj rest)
              refine ⟨lastOk, fun other same => ?_⟩
              obtain rfl := Except.ok.inj same
              exact secondReturned va rfl
          | none =>
              obtain ⟨rfl, rfl⟩ := Prod.mk.inj (Except.ok.inj rest)
              exact ⟨lastOk, nofun⟩

end Miracle.Vmalloc
