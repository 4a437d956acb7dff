import Miracle.Vmalloc.Basic

/-! # The array of an area's pages

`__vmalloc_area_node` counts the pages of an area in 32 bits, and the bytes of the array that
holds their addresses as well.  An array of more than a page comes from `vmalloc` again, so
an allocation has several levels, each with an area and an array for it.
-/

namespace Miracle.Vmalloc

/-- `PAGE_ALIGN`. -/
def pageAlign (size : Nat) : Nat := alignUp size pageSize

/-- `nr_pages` for an area of so many bytes, an `unsigned int`. -/
def pageCount (bytes : Nat) : Nat := u32 (bytes / pageSize)

/-- `array_size`, an `unsigned int`; a pointer has eight bytes. -/
def arraySize (bytes : Nat) : Nat := u32 (pageCount bytes * 8)

/-- The check of `__vmalloc_node_range`. -/
def admitted (totalram size : Nat) : Bool := decide (pageAlign size ≠ 0) && decide (pageAlign size / pageSize ≤ totalram)

/-- The bytes of the array, where `ksize n` is the size of the object that `kmalloc n` gives. -/
def arrayRoom (ksize : Nat → Nat) (bytes : Nat) : Nat :=
  if pageSize < arraySize bytes then pageAlign (arraySize bytes) else ksize (arraySize bytes)

/-- `kmalloc` gives at least what is asked for, and for up to a page at most two pages. -/
structure KmallocRoom (ksize : Nat → Nat) : Prop where
  enough : ∀ n, n ≤ pageSize → n ≤ ksize n
  atMost : ∀ n, n ≤ pageSize → ksize n ≤ 2 * pageSize

/-! ## Sizes -/

theorem pageAlign_dvd (size : Nat) : pageSize ∣ pageAlign size := by
  unfold pageAlign alignUp u64 pageSize
  omega

theorem pageAlign_lt (size : Nat) : pageAlign size < 2 ^ 64 := u64_lt _

/-- Rounding does not pass a multiple of the page. -/
theorem pageAlign_le {size bound : Nat} (whole : pageSize ∣ bound) (below : size ≤ bound) : pageAlign size ≤ bound := by
  unfold pageAlign alignUp u64 pageSize at *
  omega

theorem le_pageAlign {size : Nat} (small : size < 2 ^ 32) : size ≤ pageAlign size := by
  unfold pageAlign alignUp u64 pageSize
  omega

theorem arraySize_lt (bytes : Nat) : arraySize bytes < 2 ^ 32 := Nat.mod_lt _ (by decide)

theorem arraySize_le (bytes : Nat) : arraySize bytes ≤ bytes / 512 := by
  unfold arraySize pageCount u32 pageSize
  omega

/-- The area for an array of more than a page is smaller than the area the array is for. -/
theorem pageAlign_arraySize_lt {bytes : Nat} (large : pageSize < arraySize bytes) : pageAlign (arraySize bytes) < bytes := by
  have less := arraySize_le bytes
  have near : pageAlign (arraySize bytes) ≤ arraySize bytes + 4095 := by
    unfold pageAlign alignUp u64 pageSize
    omega
  unfold pageSize at large
  omega

/-! ## Levels -/

/-- The sizes of the areas that get an array: the one that was asked for, and while arrays
    are larger than a page, those of the arrays.  `areas` says at which depth
    `__get_vm_area_node` gives an area. -/
def levels (totalram : Nat) (areas : Nat → Bool) (size depth : Nat) : List Nat :=
  if admitted totalram size = true ∧ areas depth = true then
    pageAlign size ::
      if pageSize < arraySize (pageAlign size) then levels totalram areas (arraySize (pageAlign size)) (depth + 1) else []
  else []
termination_by pageAlign size
decreasing_by exact pageAlign_arraySize_lt (by assumption)

theorem levels_length {totalram : Nat} {areas : Nat → Bool} {size depth : Nat} (n : Nat)
    (small : pageAlign size ≤ 2 ^ 21 * 512 ^ n) : (levels totalram areas size depth).length ≤ n + 1 := by
  induction n generalizing size depth with
  | zero =>
      have less := arraySize_le (pageAlign size)
      have page : ¬pageSize < arraySize (pageAlign size) := by
        unfold pageSize
        omega
      rw [levels, if_neg page]
      split <;> simp
  | succ n ih =>
      rw [levels]
      split
      · split
        · have less := arraySize_le (pageAlign size)
          have nested : pageAlign (arraySize (pageAlign size)) ≤ 2 ^ 21 * 512 ^ n := by
            apply pageAlign_le
            · exact Dvd.dvd.mul_right (by decide) _
            · rw [pow_succ] at small
              omega
          exact Nat.succ_le_succ (ih nested)
        · simp
      · simp

theorem levels_bounded (totalram : Nat) (areas : Nat → Bool) (size depth : Nat) :
    (levels totalram areas size depth).length ≤ 4 := by
  rw [levels]
  split
  · split
    · apply Nat.succ_le_succ
      apply levels_length 2
      exact pageAlign_le (by decide) ((arraySize_lt _).le.trans (by decide))
    · simp
  · simp

/-! ## Where the array fits -/

/-- The pages are all counted, and the array has room for them. -/
structure ArrayFits (ksize : Nat → Nat) (bytes : Nat) : Prop where
  counted : pageCount bytes * pageSize = bytes
  room : pageCount bytes * 8 ≤ arrayRoom ksize bytes

section Fits

variable {ksize : Nat → Nat} {bytes : Nat}

/-- The array has room for the pages where their number, times eight, is still a value of 32
    bits. -/
theorem room_iff (k : KmallocRoom ksize) : pageCount bytes * 8 ≤ arrayRoom ksize bytes ↔ pageCount bytes < 2 ^ 29 := by
  have word : pageCount bytes < 2 ^ 32 := Nat.mod_lt _ (by decide)
  have array : arraySize bytes = pageCount bytes * 8 % 2 ^ 32 := rfl
  have lower := arraySize_lt bytes
  unfold arrayRoom
  split
  · have above := le_pageAlign lower
    have near : pageAlign (arraySize bytes) ≤ arraySize bytes + 4095 := by
      unfold pageAlign alignUp u64 pageSize
      omega
    omega
  · rename_i page
    have above := k.enough _ (not_lt.mp page)
    have near := k.atMost _ (not_lt.mp page)
    unfold pageSize at *
    omega

theorem arrayFits_iff (k : KmallocRoom ksize) (whole : pageSize ∣ bytes) :
    ArrayFits ksize bytes ↔ bytes < 2 ^ 41 := by
  have room : pageCount bytes * 8 ≤ arrayRoom ksize bytes ↔ pageCount bytes < 2 ^ 29 := room_iff k
  have count : pageCount bytes = bytes / 4096 % 2 ^ 32 := rfl
  unfold pageSize at whole
  constructor
  · rintro ⟨counted, fits⟩
    rw [room] at fits
    unfold pageSize at counted
    omega
  · intro small
    refine ⟨?_, room.mpr ?_⟩
    · unfold pageSize
      omega
    · omega

theorem levels_nested_fit (k : KmallocRoom ksize) {totalram : Nat} {areas : Nat → Bool} {size depth : Nat}
    (small : pageAlign size < 2 ^ 41) : ∀ bytes ∈ levels totalram areas size depth, ArrayFits ksize bytes := by
  fun_induction levels totalram areas size depth with
  | case1 size depth given ih =>
      intro bytes mem
      rcases List.mem_cons.mp mem with rfl | deeper
      · exact (arrayFits_iff k (pageAlign_dvd size)).mpr small
      · by_cases large : pageSize < arraySize (pageAlign size)
        · rw [if_pos large] at deeper
          exact ih large ((pageAlign_arraySize_lt large).trans small) bytes deeper
        · rw [if_neg large] at deeper
          exact absurd deeper List.not_mem_nil
  | case2 size depth missing => exact nofun

end Fits

/-- The recursion is bounded; and at all its levels the pages are counted and fit into the
    array exactly for less than two tebibytes, unless there is no area at all. -/
theorem page_arrays_fit_iff {ksize : Nat → Nat} (k : KmallocRoom ksize) {totalram size : Nat}
    (legal : admitted totalram size = true) (areas : Nat → Bool) :
    (levels totalram areas size 0).length ≤ 4 ∧
      ((∀ bytes ∈ levels totalram areas size 0, ArrayFits ksize bytes) ↔
        (pageAlign size < 2 ^ 41 ∨ areas 0 = false)) := by
  refine ⟨levels_bounded totalram areas size 0, ?_⟩
  constructor
  · intro fits
    cases given : areas 0 with
    | false => exact .inr rfl
    | true =>
        left
        rw [← arrayFits_iff k (pageAlign_dvd size)]
        apply fits
        rw [levels, if_pos ⟨legal, given⟩]
        exact List.mem_cons_self
  · rintro (small | none)
    · exact levels_nested_fit k small
    · rw [levels, none, if_neg (by simp)]
      exact nofun

/-- The sizes of `kmalloc`'s objects for up to two pages. -/
def classKsize (n : Nat) : Nat :=
  if n = 0 then 0
  else if 64 < n ∧ n ≤ 96 then 96
  else if 128 < n ∧ n ≤ 192 then 192
  else max 8 (2 ^ Nat.clog 2 n)

theorem classKsize_room : KmallocRoom classKsize := by
  refine ⟨fun n _ => ?_, fun n small => ?_⟩
  · unfold classKsize
    have power := Nat.le_pow_clog (b := 2) (by decide) n
    split_ifs <;> omega
  · unfold classKsize
    have page : Nat.clog 2 n ≤ 13 := by
      apply Nat.clog_le_of_le_pow
      exact small.trans (by decide)
    have power : 2 ^ Nat.clog 2 n ≤ 2 ^ 13 := Nat.pow_le_pow_right (by decide) page
    unfold pageSize
    split_ifs <;> omega

/-- Two tebibytes have so many pages that the array is of no bytes. -/
theorem two_tebibytes_overflow :
    admitted (2 ^ 29) (2 ^ 41) = true ∧ arraySize (2 ^ 41) = 0 ∧ pageCount (2 ^ 41) = 2 ^ 29 ∧
      2 ^ 41 ∈ levels (2 ^ 29) (fun _ => true) (2 ^ 41) 0 ∧ ¬ArrayFits classKsize (2 ^ 41) := by
  refine ⟨by decide, by decide, by decide, ?_, ?_⟩
  · rw [levels, if_pos (by decide)]
    exact List.mem_cons_self
  · rw [arrayFits_iff classKsize_room (by decide)]
    decide

/-- A gibibyte takes two levels, and both arrays fit. -/
theorem gibibyte_fits :
    (levels (2 ^ 18) (fun _ => true) (2 ^ 30) 0).length ≤ 4 ∧
      ((∀ bytes ∈ levels (2 ^ 18) (fun _ => true) (2 ^ 30) 0, ArrayFits classKsize bytes) ↔
        (pageAlign (2 ^ 30) < 2 ^ 41 ∨ (fun _ => true) 0 = false)) :=
  page_arrays_fit_iff classKsize_room (by decide) (fun _ => true)

end Miracle.Vmalloc
