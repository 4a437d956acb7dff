import Miracle.Slub.KmallocBoot

/-! # The two paths of `kmalloc`

At run time the class comes from `size_index` or from the highest bit of the size, at compile
time from the ladder of `kmalloc_index`.  They agree and find a cache that is large enough,
but for the smallest object of 256 bytes the patches of `size_index` overwrite each other.
-/

namespace Miracle.Slub

/-- What the allocation goes to has room for the size, and `ksize` says so.  An order that the
    page allocator has gives a block whose length fits in a word. -/
def Chosen.Suffices (caches : List KmemCache) (size : Nat) : Chosen → Prop
  | .zeroSize => size = 0
  | .large order => 0 < size ∧ size ≤ pageSize * 2 ^ order ∧ (order < maxOrder → size ≤ u64 (pageSize <<< order))
  | .cache i => 0 < size ∧ ∃ s, caches[i]? = some s ∧ size ≤ s.objectSize ∧ size ≤ slabKsize s
  | .null => False
  | .nullCache => False
  | .bug => False

/-- Boot ends, both paths choose the same, and the choice suffices whatever caches are created
    and merged later. -/
def KmallocAgrees (cfg : Config) (size : Nat) (gfp : BitVec 32) : Prop :=
  ∃ st, kmemCacheInit cfg = .ok st ∧ st.kmallocConstant cfg size gfp = st.kmallocRunTime size gfp ∧
    ∀ later, CacheRun cfg { caches := st.caches, slabs := [], users := [] } later →
      (st.kmallocRunTime size gfp).Suffices later.caches size

/-! ## The indices -/

theorem fls_eq {x k : Nat} (low : 2 ^ k ≤ x) (high : x < 2 ^ (k + 1)) : fls x = k + 1 := by
  have upper : fls x ≤ k + 1 := fls_le_iff.mpr high
  have lower : ¬fls x ≤ k := fun le => by
    have less := fls_le_iff.mp le
    omega
  omega

/-- The index that `size_index` has for a size up to 192. -/
def smallIndex (shiftLow size : Nat) : Nat := (setupKmallocCacheIndexTable shiftLow).getD (sizeIndexElem size) 0

/-- With a smallest object of 256 bytes the patch for 64 bytes leads to a class that does not exist. -/
theorem smallIndex_missing : ∀ size : Fin 97, 64 < size.val → ¬Created 8 (smallIndex 8 size) := by decide +kernel

/-- With a smallest object below a word the ladder takes a class that is not a power of two. -/
theorem smallIndex_tiny : ∀ low : Fin 3, 1 ≤ low.val → ∀ size : Fin 5, 0 < size.val → size.val ≤ 1 <<< low.val →
    smallIndex low size = 3 ∧ kmallocIndex low size = some low.val := by decide +kernel

/-- A class that serves a size on both paths. -/
def ServesSize (shiftLow size index : Nat) : Prop :=
  kmallocIndex shiftLow size = some index ∧ index ≠ 0 ∧ Created shiftLow index ∧
    size ≤ classSize shiftLow .normal index ∧ size ≤ classSize shiftLow .dma index

instance (shiftLow size index : Nat) : Decidable (ServesSize shiftLow size index) := inferInstanceAs (Decidable (_ ∧ _))

theorem smallIndex_serves : ∀ low : Fin 9, 1 ≤ low.val → ∀ size : Fin 193, 0 < size.val →
    ¬(low.val = 8 ∧ 64 < size.val ∧ size.val ≤ 96) → ¬(low.val < 3 ∧ size.val ≤ 1 <<< low.val) →
    ServesSize low size (smallIndex low size) := by decide +kernel

/-- The classes above 192 bytes are the powers of two. -/
theorem classSize_pow {shiftLow i : Nat} (low : 3 ≤ i) (high : i ≤ kmallocShiftHigh) (t : KmallocType) :
    classSize shiftLow t i = 2 ^ i := by
  have table : ∀ i : Fin 14, 3 ≤ i.val → kmallocInfo.getD i 0 = 2 ^ i.val ∧ u32 (1 <<< i.val) = 2 ^ i.val := by decide
  have here := table ⟨i, by unfold kmallocShiftHigh at high; omega⟩ low
  cases t with
  | normal => exact here.1
  | dma =>
      rw [classSize, kmallocSize, if_pos (by omega)]
      exact here.2

theorem kmallocIndex_above {shiftLow size k : Nat} (small : shiftLow ≤ 8) (more : 192 < size) (low : 2 ^ k < size)
    (high : size ≤ 2 ^ (k + 1)) (seven : 7 ≤ k) (twelve : k ≤ 12) : kmallocIndex shiftLow size = some (k + 1) := by
  have nonzero : ¬size = 0 := by omega
  by_cases minSize : size ≤ 1 <<< shiftLow
  · -- the smallest object is that large only when it has 256 bytes
    have eight : shiftLow = 8 := by
      by_contra other
      rw [Nat.shiftLeft_eq, Nat.one_mul] at minSize
      have le := Nat.pow_le_pow_right (by decide : 0 < 2) (by omega : shiftLow ≤ 7)
      omega
    have seven' : k = 7 := by
      by_contra other
      rw [eight] at minSize
      have le := Nat.pow_le_pow_right (by decide : 0 < 2) (by omega : 8 ≤ k)
      omega
    simp only [kmallocIndex, if_neg nonzero, if_pos minSize]
    rw [eight, seven']
  · have mid : ¬(1 <<< shiftLow ≤ 32 ∧ 64 < size ∧ size ≤ 96) := by omega
    have mid' : ¬(1 <<< shiftLow ≤ 64 ∧ 128 < size ∧ size ≤ 192) := by omega
    simp only [kmallocIndex, if_neg nonzero, if_neg minSize, if_neg mid, if_neg mid']
    rw [if_neg (show ¬size ≤ 8 by omega), if_neg (show ¬size ≤ 16 by omega), if_neg (show ¬size ≤ 32 by omega),
      if_neg (show ¬size ≤ 64 by omega), if_neg (show ¬size ≤ 128 by omega)]
    obtain rfl | rfl | rfl | rfl | rfl | rfl : k = 7 ∨ k = 8 ∨ k = 9 ∨ k = 10 ∨ k = 11 ∨ k = 12 := by omega
    · rw [if_pos (show size ≤ 256 by omega)]
    · rw [if_neg (show ¬size ≤ 256 by omega), if_pos (show size ≤ 512 by omega)]
    · rw [if_neg (show ¬size ≤ 256 by omega), if_neg (show ¬size ≤ 512 by omega), if_pos (show size ≤ 1024 by omega)]
    · rw [if_neg (show ¬size ≤ 256 by omega), if_neg (show ¬size ≤ 512 by omega), if_neg (show ¬size ≤ 1024 by omega),
        if_pos (show size ≤ 2 * 1024 by omega)]
    · rw [if_neg (show ¬size ≤ 256 by omega), if_neg (show ¬size ≤ 512 by omega), if_neg (show ¬size ≤ 1024 by omega),
        if_neg (show ¬size ≤ 2 * 1024 by omega), if_pos (show size ≤ 4 * 1024 by omega)]
    · rw [if_neg (show ¬size ≤ 256 by omega), if_neg (show ¬size ≤ 512 by omega), if_neg (show ¬size ≤ 1024 by omega),
        if_neg (show ¬size ≤ 2 * 1024 by omega), if_neg (show ¬size ≤ 4 * 1024 by omega),
        if_pos (show size ≤ 8 * 1024 by omega)]

/-- Above 192 bytes the highest bit gives the class. -/
theorem fls_serves {shiftLow size : Nat} (small : shiftLow ≤ 8) (more : 192 < size) (most : size ≤ kmallocMaxCacheSize) :
    ServesSize shiftLow size (fls (size - 1)) := by
  have bound : size ≤ 2 ^ 13 := most
  obtain ⟨k, low, high⟩ : ∃ k, 2 ^ k ≤ size - 1 ∧ size - 1 < 2 ^ (k + 1) :=
    ⟨(size - 1).log2, Nat.log2_self_le (by omega), Nat.lt_log2_self⟩
  have seven : 7 ≤ k := by
    by_contra! less
    have le := Nat.pow_le_pow_right (by decide : 0 < 2) (by omega : k + 1 ≤ 7)
    omega
  have twelve : k ≤ 12 := by
    by_contra! more'
    have le := Nat.pow_le_pow_right (by decide : 0 < 2) (by omega : 13 ≤ k)
    omega
  have last : k + 1 ≤ kmallocShiftHigh := by
    unfold kmallocShiftHigh
    omega
  rw [fls_eq low high]
  refine ⟨kmallocIndex_above small more (by omega) (by omega) seven twelve, by omega, Or.inl ⟨by omega, last⟩, ?_, ?_⟩
  · rw [classSize_pow (by omega) last]
    omega
  · rw [classSize_pow (by omega) last]
    omega

/-- The order of a constant size is computed differently and is the same. -/
theorem getOrderConst_eq {size : Nat} (pos : 0 < size) (word : size < 2 ^ 64) : getOrderConst size = getOrder size := by
  have less : u64Sub size 1 = size - 1 := u64Sub_of_le word pos
  have page : 1 <<< 12 = 4096 := rfl
  rw [getOrderConst, if_neg (by omega), getOrder, less, page, Nat.shiftRight_eq_div_pow]
  rcases Nat.lt_or_ge (size - 1) 4096 with short | long
  · have zero : (size - 1) / 2 ^ 12 = 0 := Nat.div_eq_of_lt short
    rw [zero]
    split
    · rfl
    · have exact_page : size = 4096 := by omega
      rw [exact_page]
      decide
  · rw [if_neg (by omega)]
    have twelve : 12 ≤ (size - 1).log2 := (Nat.le_log2 (by omega)).mpr long
    obtain ⟨k, top⟩ := Nat.exists_eq_add_of_le twelve
    have low : 2 ^ (12 + k) ≤ size - 1 := by
      rw [← top]
      exact Nat.log2_self_le (by omega)
    have high : size - 1 < 2 ^ (12 + k + 1) := by
      rw [← top]
      exact Nat.lt_log2_self
    rw [top, fls_eq (k := k)]
    · omega
    · rw [Nat.le_div_iff_mul_le (by decide), ← Nat.pow_add, Nat.add_comm]
      exact low
    · rw [Nat.div_lt_iff_lt_mul (by decide), ← Nat.pow_add, Nat.add_comm, ← Nat.add_assoc]
      exact high

/-! ## The paths -/

section Paths

variable {cfg : Config} {st : KmallocState} {size : Nat} {gfp : BitVec 32}

theorem KmallocInv.found (inv : KmallocInv cfg st) {t : KmallocType} {x : Nat} (entered : Entered st t x) :
    ∃ i s, st.kmallocCaches t x = some i ∧ st.caches[i]? = some s ∧
      s.objectSize = classSize cfg.kmallocShiftLow t x ∧ ¬s.Relocates := by
  obtain ⟨i, here⟩ := Option.ne_none_iff_exists'.mp entered
  obtain ⟨s, there, facts⟩ := inv.entries t x i here
  exact ⟨i, s, here, there, facts⟩

/-- A cache of boot stays large enough. -/
theorem KmallocInv.suffices (inv : KmallocInv cfg st) {i : Nat} {s : KmemCache} (here : st.caches[i]? = some s)
    (plain : ¬s.Relocates) (pos : 0 < size) (large : size ≤ s.objectSize) {later : CacheSystem}
    (run : CacheRun cfg { caches := st.caches, slabs := [], users := [] } later) :
    (Chosen.cache i).Suffices later.caches size := by
  obtain ⟨users, boot⟩ := inv.run
  obtain ⟨ok, -⟩ := CacheRun.keeps CachesInv.init boot
  have start : CachesInv cfg { caches := st.caches, slabs := [], users := [] } := ⟨ok.caches, nofun, nofun⟩
  obtain ⟨ok', extended⟩ := CacheRun.keeps start run
  obtain ⟨s', there, kept⟩ := extended i s here
  obtain ⟨covers, room⟩ := (ok'.caches i s' there).covers (fun moved => plain (kept.relocates moved))
  have grown := kept.objectSize
  refine ⟨pos, s', there, by omega, ?_⟩
  unfold slabKsize
  split <;> omega

theorem kmallocRunTime_small (cfg : Config) (pos : 0 < size) (small : size ≤ 192)
    (index : st.sizeIndex = setupKmallocCacheIndexTable cfg.kmallocShiftLow) :
    st.kmallocRunTime size gfp = st.entry (kmallocType gfp) (smallIndex cfg.kmallocShiftLow size) .null := by
  have direct : ¬kmallocMaxCacheSize < size := by
    have most : kmallocMaxCacheSize = 8192 := rfl
    omega
  have nonzero : ¬size = 0 := by omega
  rw [KmallocState.kmallocRunTime, if_neg direct, KmallocState.kmallocSlab, if_pos small, if_neg nonzero, index]
  rfl

theorem kmallocRunTime_middle (more : 192 < size) (most : size ≤ kmallocMaxCacheSize) :
    st.kmallocRunTime size gfp = st.entry (kmallocType gfp) (fls (size - 1)) .null := by
  have direct : ¬kmallocMaxCacheSize < size := Nat.not_lt.mpr most
  have large : ¬size ≤ 192 := by omega
  rw [KmallocState.kmallocRunTime, if_neg direct, KmallocState.kmallocSlab, if_neg large, if_neg direct]

theorem kmallocConstant_index {index : Nat} (most : size ≤ kmallocMaxCacheSize)
    (ladder : kmallocIndex cfg.kmallocShiftLow size = some index) (nonzero : index ≠ 0) :
    st.kmallocConstant cfg size gfp = st.entry (kmallocType gfp) index .nullCache := by
  have direct : ¬kmallocMaxCacheSize < size := Nat.not_lt.mpr most
  obtain ⟨n, rfl⟩ := Nat.exists_eq_succ_of_ne_zero nonzero
  simp only [KmallocState.kmallocConstant, if_neg direct, ladder]

/-- Where a class serves the size, both paths take its cache. -/
theorem KmallocInv.agrees (inv : KmallocInv cfg st) (init : kmemCacheInit cfg = .ok st)
    (entered : ∀ t x, Entered st t x ↔ Created cfg.kmallocShiftLow x) (pos : 0 < size) (most : size ≤ kmallocMaxCacheSize)
    {index : Nat} (serves : ServesSize cfg.kmallocShiftLow size index)
    (path : st.kmallocRunTime size gfp = st.entry (kmallocType gfp) index .null) : KmallocAgrees cfg size gfp := by
  obtain ⟨ladder, nonzero, created, normal, dma⟩ := serves
  obtain ⟨i, s, here, there, objectSize, plain⟩ := inv.found ((entered (kmallocType gfp) index).mpr created)
  have large : size ≤ s.objectSize := by
    rw [objectSize]
    cases kmallocType gfp with
    | normal => exact normal
    | dma => exact dma
  have runTime : st.kmallocRunTime size gfp = .cache i := by
    simp only [path, KmallocState.entry, here]
  have constant : st.kmallocConstant cfg size gfp = .cache i := by
    rw [kmallocConstant_index most ladder nonzero]
    simp only [KmallocState.entry, here]
  refine ⟨st, init, constant.trans runTime.symm, fun later run => ?_⟩
  rw [runTime]
  exact inv.suffices there plain pos large run

theorem large_suffices (large : kmallocMaxCacheSize < size) (word : size < 2 ^ 64) (caches : List KmemCache) :
    (Chosen.large (getOrder size)).Suffices caches size := by
  have pos : 0 < size := by omega
  have fits := le_getOrder_size pos word
  rw [Nat.shiftLeft_eq] at fits
  refine ⟨pos, fits, fun order => ?_⟩
  have block : pageSize <<< getOrder size ≤ pageSize <<< maxOrder := pageSize_shift_mono order.le
  have small : pageSize <<< maxOrder < 2 ^ 64 := by decide
  rw [u64_of_lt (by omega), Nat.shiftLeft_eq]
  exact fits

/-- A cache for an object of no bytes divides by zero. -/
theorem createKmallocCache_empty {s : KmemCache} : createKmallocCache cfg bootMemory 0 0 0 0 ≠ .ok s := by
  intro created
  have memory : ¬bootMemory.cache = false := by decide
  rw [createKmallocCache, if_neg memory] at created
  obtain ⟨s', booted, -⟩ := bind_eq_ok created
  obtain ⟨align, computed, opens⟩ := bind_eq_ok booted
  obtain ⟨found, opened, -⟩ := bind_eq_ok opens
  obtain ⟨r, sized, -⟩ := bind_eq_ok opened
  have pow := calculateAlignment_pow cfg (Or.inr cfg.archKmallocMinalign_pow) computed
  have plain : ¬(newCache 0 align false 0 0).Relocates := by
    rintro (poison | ctor)
    · exact poison BitVec.zero_and
    · cases ctor
  have inner : align32 (newCache 0 align false 0 0).objectSize wordSize = 0 := align32_zero powAlign_word
  have empty : (newCache 0 align false 0 0).slotSize = 0 := by
    rw [KmemCache.slotSize, inner, if_neg plain]
    exact align32_zero pow
  have faults : (Except.error .divideByZero : Except Fault (KmemCache × Bool)) = .ok r :=
    (calculateSizes_zero cfg.nrPossibleCpuIds empty).symm.trans sized
  cases faults

/-- Where the loop starts at the class of no bytes boot does not end. -/
theorem kmemCacheInit_zero (zero : cfg.kmallocShiftLow = 0) : kmemCacheInit cfg ≠ .ok st := by
  intro init
  obtain ⟨node, -, init⟩ := bind_eq_ok init
  obtain ⟨cache, -, init⟩ := bind_eq_ok init
  obtain ⟨st₁, loop, -⟩ := bind_eq_ok init
  have range : List.range' cfg.kmallocShiftLow (kmallocShiftHigh + 1 - cfg.kmallocShiftLow) = 0 :: List.range' 1 13 := by
    rw [zero]
    rfl
  rw [range, List.foldlM_cons] at loop
  obtain ⟨st₂, first, -⟩ := bind_eq_ok loop
  obtain ⟨st₃, made, -⟩ := bind_eq_ok first
  have wanted : true = true ∧ (none : Option Nat) = none := ⟨rfl, rfl⟩
  rw [ensureCache, if_pos wanted] at made
  obtain ⟨s, created, -⟩ := bind_eq_ok made
  exact createKmallocCache_empty created

end Paths

/-- The sizes for which `kmalloc` works: boot must end, with the smallest object of 256 bytes the
    sizes from 65 to 96 fail, and with one of two or four bytes the sizes up to it. -/
def KmallocWorks (cfg : Config) (size : Nat) : Prop :=
  cfg.kmallocShiftLow ≠ 0 ∧ ¬(cfg.kmallocMinSize = 256 ∧ 64 < size ∧ size ≤ 96) ∧
    ¬(cfg.kmallocMinSize < 8 ∧ 0 < size ∧ size ≤ cfg.kmallocMinSize)

theorem minSize_eq_iff (cfg : Config) : cfg.kmallocMinSize = 256 ↔ cfg.kmallocShiftLow = 8 := by
  have le := cfg.shiftLow_le
  have table : ∀ low : Fin 9, 1 <<< low.val = 256 ↔ low.val = 8 := by decide
  exact table ⟨cfg.kmallocShiftLow, by omega⟩

theorem minSize_lt_iff (cfg : Config) : cfg.kmallocMinSize < 8 ↔ cfg.kmallocShiftLow < 3 := by
  have le := cfg.shiftLow_le
  have table : ∀ low : Fin 9, 1 <<< low.val < 8 ↔ low.val < 3 := by decide
  exact table ⟨cfg.kmallocShiftLow, by omega⟩

theorem kmallocAgrees_of_works {cfg : Config} {size : Nat} (word : size < 2 ^ 64) (gfp : BitVec 32)
    (works : KmallocWorks cfg size) : KmallocAgrees cfg size gfp := by
  obtain ⟨low, patched, tiny⟩ := works
  rw [minSize_eq_iff] at patched
  rw [minSize_lt_iff] at tiny
  have high := cfg.shiftLow_le
  obtain ⟨st, init, inv, index, entered⟩ := kmemCacheInit_spec cfg (Nat.pos_of_ne_zero low)
  rcases Nat.eq_zero_or_pos size with rfl | pos
  · have constant : st.kmallocConstant cfg 0 gfp = .zeroSize := rfl
    have runTime : st.kmallocRunTime 0 gfp = .zeroSize := rfl
    exact ⟨st, init, constant.trans runTime.symm, fun later _ => rfl⟩
  · rcases Nat.lt_or_ge kmallocMaxCacheSize size with large | most
    · have runTime : st.kmallocRunTime size gfp = .large (getOrder size) := if_pos large
      have constant : st.kmallocConstant cfg size gfp = .large (getOrder size) := by
        rw [KmallocState.kmallocConstant, if_pos large, getOrderConst_eq pos word]
      refine ⟨st, init, constant.trans runTime.symm, fun later _ => ?_⟩
      rw [runTime]
      exact large_suffices large word later.caches
    · rcases Nat.lt_or_ge 192 size with middle | small
      · exact inv.agrees init entered pos most (fls_serves high middle most) (kmallocRunTime_middle middle most)
      · have serves := smallIndex_serves ⟨cfg.kmallocShiftLow, by omega⟩ (Nat.pos_of_ne_zero low) ⟨size, by omega⟩ pos patched
          (fun bad => tiny ⟨bad.1, pos, bad.2⟩)
        exact inv.agrees init entered pos most serves (kmallocRunTime_small cfg pos small index)

theorem works_of_kmallocAgrees {cfg : Config} {size : Nat} {gfp : BitVec 32} (agrees : KmallocAgrees cfg size gfp) :
    KmallocWorks cfg size := by
  obtain ⟨st, init, equal, enough⟩ := agrees
  have low : cfg.kmallocShiftLow ≠ 0 := fun zero => kmemCacheInit_zero zero init
  have high := cfg.shiftLow_le
  obtain ⟨st', init', inv, index, entered⟩ := kmemCacheInit_spec cfg (Nat.pos_of_ne_zero low)
  cases init.symm.trans init'
  have here := enough _ Relation.ReflTransGen.refl
  refine ⟨low, ?_, ?_⟩
  · rintro ⟨min, more, most⟩
    rw [minSize_eq_iff] at min
    have missing : ¬Entered st (kmallocType gfp) (smallIndex cfg.kmallocShiftLow size) := by
      rw [entered, min]
      exact smallIndex_missing ⟨size, by omega⟩ more
    rw [kmallocRunTime_small cfg (by omega) (by omega) index, KmallocState.entry, not_not.mp missing] at here
    exact here
  · rintro ⟨min, pos, most⟩
    rw [minSize_lt_iff] at min
    have four : cfg.kmallocMinSize ≤ 4 := by
      have table : ∀ low : Fin 3, 1 <<< low.val ≤ 4 := by decide
      exact table ⟨cfg.kmallocShiftLow, min⟩
    obtain ⟨three, ladder⟩ := smallIndex_tiny ⟨cfg.kmallocShiftLow, min⟩ (Nat.pos_of_ne_zero low) ⟨size, by omega⟩ pos most
    have three' : smallIndex cfg.kmallocShiftLow size = 3 := three
    have maxSize : kmallocMaxCacheSize = 8192 := rfl
    rw [kmallocRunTime_small cfg pos (by omega) index, three', kmallocConstant_index (by omega) ladder low] at equal
    have class3 : Created cfg.kmallocShiftLow 3 := Or.inl ⟨by omega, by decide⟩
    have classLow : Created cfg.kmallocShiftLow cfg.kmallocShiftLow := Or.inl ⟨le_rfl, by unfold kmallocShiftHigh; omega⟩
    obtain ⟨i, s, here₃, there₃, size₃, -⟩ := inv.found ((entered (kmallocType gfp) 3).mpr class3)
    obtain ⟨j, s', hereLow, thereLow, sizeLow, -⟩ := inv.found ((entered (kmallocType gfp) _).mpr classLow)
    simp only [KmallocState.entry, here₃, hereLow, Chosen.cache.injEq] at equal
    rw [equal, there₃] at thereLow
    cases thereLow
    -- one cache cannot have the sizes of both classes
    have differ : ∀ (t : KmallocType) (low : Fin 3), 1 ≤ low.val → classSize low t low ≠ classSize low t 3 := by
      intro t
      cases t <;> decide
    exact differ (kmallocType gfp) ⟨cfg.kmallocShiftLow, min⟩ (Nat.pos_of_ne_zero low) (sizeLow.symm.trans size₃)

/-- The smallest object is one of 256 bytes. -/
def coarseMachine : Config := { smallMachine with kmallocShiftLow := 8, shiftLow_le := le_rfl }

end Miracle.Slub
