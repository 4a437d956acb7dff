import Miracle.Slub.Kmalloc

/-! # What boot leaves in `kmalloc_caches`

Every cache of boot can be made when its object is not empty.  The first loop enters the
powers of two from the smallest object on and the two sizes between them; the second loop
enters a cache for DMA wherever there is a normal one.
-/

namespace Miracle.Slub

/-! ## Caches that can be made -/

section Made

variable (cfg : Config) (size : Nat) (flags : SlabFlags) (useroffset usersize : Nat)

omit cfg size useroffset usersize in
/-- A cache that is not empty and not too large is accepted. -/
theorem calculateSizes_made (nrPossibleCpuIds : Nat) {s : KmemCache} (pow : PowAlign s.align) (some : 0 < s.objectSize)
    (small : s.objectSize + 16 ≤ 2 ^ 20) (limit : s.align ≤ 2 ^ 20) (plain : ¬s.Relocates) :
    ∃ oo min, calculateSizes nrPossibleCpuIds s (-1) = .ok (s.ordered oo min, true) ∧ Packs oo s.slotSize ∧
      Packs min s.slotSize := by
  have ⟨used, room⟩ := KmemCache.slotSize_room pow (by omega)
  have near := KmemCache.slotSize_near pow plain
  have pos : 0 < s.slotSize := by omega
  have bound : s.slotSize ≤ pageSize <<< 10 := by
    have block : pageSize <<< 10 = 2 ^ 22 := by decide
    unfold wordSize at near
    omega
  have fits : getOrder s.slotSize < maxOrder :=
    Nat.lt_of_le_of_lt ((getOrder_le_iff pos (by have := s.slotSize_lt; omega)).mpr bound) (by decide)
  obtain ⟨r, sized, cases⟩ := (calculateSizes_spec nrPossibleCpuIds pow (Nat.ne_of_gt pos)).exists_ok
  rcases cases with ⟨-, large⟩ | ⟨oo, min, rfl, packs, packsMin⟩
  · exact absurd fits large
  · exact ⟨oo, min, sized, packs, packsMin⟩

theorem kmemCacheOpen_made {s : KmemCache} (pow : PowAlign s.align) (some : 0 < s.objectSize)
    (small : s.objectSize + 16 ≤ 2 ^ 20) (limit : s.align ≤ 2 ^ 20) (plain : ¬({ s with flags := flags } : KmemCache).Relocates) :
    ∃ s', kmemCacheOpen cfg bootMemory s flags = .ok (.some s') := by
  obtain ⟨oo, min, sized, -⟩ :=
    calculateSizes_made cfg.nrPossibleCpuIds (s := { s with flags := flags }) pow some small limit plain
  simp only [kmemCacheOpen, sized, ok_bind, Bool.true_eq_false, if_false, bootMemory]
  exact ⟨_, rfl⟩

theorem createBootCache_made (some : 0 < size) (small : size + 16 ≤ 2 ^ 20) (plain : flags &&& slabPoison = 0) :
    ∃ s, createBootCache cfg bootMemory size flags useroffset usersize = .ok s := by
  obtain ⟨a, computed, -, pow, -, short⟩ :=
    calculateAlignment_spec cfg flags (Or.inr cfg.archKmallocMinalign_pow) some le_rfl (fun _ _ le => le)
  have line : cfg.cacheLineSize ≤ 2 ^ 17 := by
    obtain ⟨m, le, eq⟩ := cfg.cacheLineSize_pow
    rw [eq]
    exact Nat.pow_le_pow_right (by decide) le
  have minalign := cfg.archKmallocMinalign_le
  obtain ⟨s, made⟩ := kmemCacheOpen_made cfg flags
    (s := newCache size a false useroffset usersize) pow some small (by show a ≤ _; omega)
    (by rintro (poison | ctor)
        · exact poison plain
        · cases ctor)
  refine ⟨{ s with refcount := -1 }, ?_⟩
  simp only [createBootCache, computed, made, ok_bind, pure_eq_ok]

theorem createKmallocCache_made (some : 0 < size) (small : size + 16 ≤ 2 ^ 20) (plain : flags &&& slabPoison = 0) :
    ∃ s, createKmallocCache cfg bootMemory size flags useroffset usersize = .ok s := by
  obtain ⟨s, made⟩ := createBootCache_made cfg size flags useroffset usersize some small plain
  refine ⟨{ s with refcount := 1 }, ?_⟩
  have memory : ¬bootMemory.cache = false := by decide
  rw [createKmallocCache, if_neg memory, made]
  rfl

end Made

/-! ## The two loops -/

/-- The size of a class. -/
def classSize (shiftLow : Nat) : KmallocType → Nat → Nat
  | .normal, i => kmallocInfo.getD i 0
  | .dma, i => kmallocSize shiftLow i

/-- The caches come from a run, and an entry is a cache of its class. -/
structure KmallocInv (cfg : Config) (st : KmallocState) : Prop where
  run : ∃ users, CacheRun cfg CacheSystem.empty { caches := st.caches, slabs := [], users := users }
  entries : ∀ t i j, st.kmallocCaches t i = some j →
    ∃ s, st.caches[j]? = some s ∧ s.objectSize = classSize cfg.kmallocShiftLow t i ∧ ¬s.Relocates

variable {cfg : Config} {st : KmallocState}

/-- A cache that is made for a class is entered. -/
theorem KmallocInv.enter (inv : KmallocInv cfg st) (t : KmallocType) (i usersize : Nat) (flags : SlabFlags)
    (some : 0 < classSize cfg.kmallocShiftLow t i) (small : classSize cfg.kmallocShiftLow t i ≤ kmallocMaxCacheSize)
    (plain : flags &&& slabPoison = 0) :
    ∃ s, createKmallocCache cfg bootMemory (classSize cfg.kmallocShiftLow t i) flags 0 usersize = .ok s ∧
      KmallocInv cfg (st.enter t i s) := by
  have bound : classSize cfg.kmallocShiftLow t i ≤ 2 ^ 13 := small
  obtain ⟨s, made⟩ := createKmallocCache_made cfg _ flags 0 usersize some
    (by omega) plain
  have boot := createKmallocCache_ok (by omega) made
  obtain ⟨users, run⟩ := inv.run
  refine ⟨s, made, ⟨_, run.tail (CacheStep.kmalloc bootMemory _ flags 0 usersize (by omega) made)⟩, ?_⟩
  intro t' i' j here
  simp only [KmallocState.enter] at here ⊢
  split at here
  · rename_i same
    obtain ⟨rfl, rfl⟩ := same
    cases here
    exact ⟨s, List.getElem?_concat_length, boot.objectSize, boot.plain plain⟩
  · obtain ⟨s', there, facts⟩ := inv.entries t' i' j here
    have lt : j < st.caches.length := (List.getElem?_eq_some_iff.mp there).1
    exact ⟨s', by rw [List.getElem?_append_left lt, there], facts⟩

/-- The classes that are entered. -/
def Entered (st : KmallocState) (t : KmallocType) (i : Nat) : Prop := st.kmallocCaches t i ≠ none

theorem entered_enter {s : KmemCache} {t t' : KmallocType} {i i' : Nat} :
    Entered (st.enter t i s) t' i' ↔ Entered st t' i' ∨ (t' = t ∧ i' = i) := by
  simp only [Entered, KmallocState.enter]
  split
  · rename_i same
    simp [same]
  · rename_i other
    simp [other]

theorem ensureCache_spec (inv : KmallocInv cfg st) (idx : Nat) (some : 0 < kmallocInfo.getD idx 0)
    (small : kmallocInfo.getD idx 0 ≤ kmallocMaxCacheSize) (wanted : Bool) :
    ∃ st', ensureCache cfg 0 st idx wanted = .ok st' ∧ KmallocInv cfg st' ∧ st'.sizeIndex = st.sizeIndex ∧
      ∀ t i, Entered st' t i ↔ Entered st t i ∨ (wanted = true ∧ t = .normal ∧ i = idx) := by
  by_cases new : wanted = true ∧ st.kmallocCaches .normal idx = none
  · obtain ⟨s, made, inv'⟩ := inv.enter .normal idx (kmallocInfo.getD idx 0) 0 some small rfl
    have made' : createKmallocCache cfg bootMemory (kmallocInfo.getD idx 0) 0 0 (kmallocInfo.getD idx 0) = .ok s := made
    refine ⟨st.enter .normal idx s, ?_, inv', rfl, fun t i => ?_⟩
    · rw [ensureCache, if_pos new, newKmallocCache, made']
      rfl
    · rw [entered_enter]
      simp [new.1]
  · refine ⟨st, by rw [ensureCache, if_neg new], inv, rfl, fun t i => ?_⟩
    constructor
    · exact Or.inl
    · rintro (old | ⟨wants, rfl, rfl⟩)
      · exact old
      · exact fun none => new ⟨wants, none⟩

/-- What a round of the first loop enters. -/
def RoundEnters (cfg : Config) (i x : Nat) : Prop :=
  x = i ∨ (cfg.kmallocMinSize ≤ 32 ∧ i = 6 ∧ x = 1) ∨ (cfg.kmallocMinSize ≤ 64 ∧ i = 7 ∧ x = 2)

theorem kmallocInfo_class : ∀ i, 1 ≤ i → i ≤ kmallocShiftHigh →
    0 < kmallocInfo.getD i 0 ∧ kmallocInfo.getD i 0 ≤ kmallocMaxCacheSize := by
  intro i one last
  have table : ∀ i : Fin 14, 1 ≤ i.val → 0 < kmallocInfo.getD i 0 ∧ kmallocInfo.getD i 0 ≤ kmallocMaxCacheSize := by decide
  unfold kmallocShiftHigh at last
  exact table ⟨i, by omega⟩ one

theorem createClass_spec (inv : KmallocInv cfg st) {i : Nat} (one : 1 ≤ i) (last : i ≤ kmallocShiftHigh) :
    ∃ st', createClass cfg 0 st i = .ok st' ∧ KmallocInv cfg st' ∧ st'.sizeIndex = st.sizeIndex ∧
      ∀ t x, Entered st' t x ↔ Entered st t x ∨ (t = .normal ∧ RoundEnters cfg i x) := by
  obtain ⟨some, small⟩ := kmallocInfo_class i one last
  obtain ⟨st₁, done₁, inv₁, index₁, entered₁⟩ := ensureCache_spec inv i some small true
  obtain ⟨st₂, done₂, inv₂, index₂, entered₂⟩ := ensureCache_spec inv₁ 1 (by decide) (by decide)
    (decide (cfg.kmallocMinSize ≤ 32) && decide (i = 6))
  obtain ⟨st₃, done₃, inv₃, index₃, entered₃⟩ := ensureCache_spec inv₂ 2 (by decide) (by decide)
    (decide (cfg.kmallocMinSize ≤ 64) && decide (i = 7))
  refine ⟨st₃, ?_, inv₃, index₃.trans (index₂.trans index₁), fun t x => ?_⟩
  · rw [createClass, done₁, ok_bind, done₂, ok_bind, done₃]
  · rw [entered₃, entered₂, entered₁]
    simp only [RoundEnters, Bool.and_eq_true, decide_eq_true_eq, true_and]
    tauto

theorem createClasses_spec (l : List Nat) (inv : KmallocInv cfg st) (range : ∀ i ∈ l, 1 ≤ i ∧ i ≤ kmallocShiftHigh) :
    ∃ st', l.foldlM (createClass cfg 0) st = .ok st' ∧ KmallocInv cfg st' ∧ st'.sizeIndex = st.sizeIndex ∧
      ∀ t x, Entered st' t x ↔ Entered st t x ∨ (t = .normal ∧ ∃ i ∈ l, RoundEnters cfg i x) := by
  induction l generalizing st with
  | nil => exact ⟨st, rfl, inv, rfl, by simp⟩
  | cons i l ih =>
      obtain ⟨one, last⟩ := range i List.mem_cons_self
      obtain ⟨st₁, done₁, inv₁, index₁, entered₁⟩ := createClass_spec inv one last
      obtain ⟨st₂, done₂, inv₂, index₂, entered₂⟩ := ih inv₁ (fun j mem => range j (List.mem_cons_of_mem _ mem))
      refine ⟨st₂, ?_, inv₂, index₂.trans index₁, fun t x => ?_⟩
      · rw [List.foldlM_cons, done₁, ok_bind, done₂]
      · have each : (∃ j ∈ i :: l, RoundEnters cfg j x) ↔ RoundEnters cfg i x ∨ ∃ j ∈ l, RoundEnters cfg j x := by simp
        rw [entered₂, entered₁, each]
        tauto

theorem createDmaClass_spec (inv : KmallocInv cfg st) {i : Nat}
    (sized : Entered st .normal i → 0 < kmallocSize cfg.kmallocShiftLow i ∧
      kmallocSize cfg.kmallocShiftLow i ≤ kmallocMaxCacheSize) :
    ∃ st', createDmaClass cfg 0 st i = .ok st' ∧ KmallocInv cfg st' ∧ st'.sizeIndex = st.sizeIndex ∧
      ∀ t x, Entered st' t x ↔ Entered st t x ∨ (t = .dma ∧ x = i ∧ Entered st .normal i) := by
  cases here : st.kmallocCaches .normal i with
  | none =>
      refine ⟨st, by simp only [createDmaClass, here], inv, rfl, fun t x => ?_⟩
      simp [Entered, here]
  | some j =>
      have entered : Entered st .normal i := by simp [Entered, here]
      obtain ⟨some, small⟩ := sized entered
      obtain ⟨s, made, inv'⟩ := inv.enter .dma i 0 (slabCacheDma ||| 0) some small rfl
      have made' : createKmallocCache cfg bootMemory (kmallocSize cfg.kmallocShiftLow i) (slabCacheDma ||| 0) 0 0 = .ok s := made
      refine ⟨st.enter .dma i s, ?_, inv', rfl, fun t x => ?_⟩
      · simp only [createDmaClass, here, made', ok_bind, pure_eq_ok]
      · rw [entered_enter]
        tauto

theorem createDmaClasses_spec (l : List Nat) (inv : KmallocInv cfg st)
    (sized : ∀ i, Entered st .normal i → 0 < kmallocSize cfg.kmallocShiftLow i ∧
      kmallocSize cfg.kmallocShiftLow i ≤ kmallocMaxCacheSize) :
    ∃ st', l.foldlM (createDmaClass cfg 0) st = .ok st' ∧ KmallocInv cfg st' ∧ st'.sizeIndex = st.sizeIndex ∧
      ∀ t x, Entered st' t x ↔ Entered st t x ∨ (t = .dma ∧ x ∈ l ∧ Entered st .normal x) := by
  induction l generalizing st with
  | nil => exact ⟨st, rfl, inv, rfl, by simp⟩
  | cons i l ih =>
      obtain ⟨st₁, done₁, inv₁, index₁, entered₁⟩ := createDmaClass_spec inv (sized i)
      -- the second loop leaves the normal classes alone
      have normal : ∀ x, Entered st₁ .normal x ↔ Entered st .normal x := by
        intro x
        rw [entered₁]
        simp
      obtain ⟨st₂, done₂, inv₂, index₂, entered₂⟩ := ih inv₁ (fun j entered => sized j ((normal j).mp entered))
      refine ⟨st₂, ?_, inv₂, index₂.trans index₁, fun t x => ?_⟩
      · rw [List.foldlM_cons, done₁, ok_bind, done₂]
      · rw [entered₂, entered₁, normal, List.mem_cons]
        constructor
        · rintro ((old | ⟨dma, rfl, entered⟩) | ⟨dma, mem, entered⟩)
          · exact Or.inl old
          · exact Or.inr ⟨dma, Or.inl rfl, entered⟩
          · exact Or.inr ⟨dma, Or.inr mem, entered⟩
        · rintro (old | ⟨dma, rfl | mem, entered⟩)
          · exact Or.inl (Or.inl old)
          · exact Or.inl (Or.inr ⟨dma, rfl, entered⟩)
          · exact Or.inr ⟨dma, mem, entered⟩

/-! ## `kmem_cache_init` -/

/-- The classes that exist after boot. -/
def Created (shiftLow x : Nat) : Prop :=
  (shiftLow ≤ x ∧ x ≤ kmallocShiftHigh) ∨ (1 <<< shiftLow ≤ 32 ∧ x = 1) ∨ (1 <<< shiftLow ≤ 64 ∧ x = 2)

instance (shiftLow x : Nat) : Decidable (Created shiftLow x) := inferInstanceAs (Decidable (_ ∨ _))

theorem kmallocSize_class {shiftLow x : Nat} (low : 1 ≤ shiftLow) (small : shiftLow ≤ 8) (created : Created shiftLow x) :
    0 < kmallocSize shiftLow x ∧ kmallocSize shiftLow x ≤ kmallocMaxCacheSize := by
  have table : ∀ low : Fin 9, 1 ≤ low.val → ∀ x : Fin 14, Created low x →
      0 < kmallocSize low x ∧ kmallocSize low x ≤ kmallocMaxCacheSize := by decide +kernel
  have bound : x < 14 := by
    unfold Created kmallocShiftHigh at created
    omega
  exact table ⟨shiftLow, by omega⟩ low ⟨x, bound⟩ created

/-- Boot ends, and it enters the classes of both types. -/
theorem kmemCacheInit_spec (cfg : Config) (low : 1 ≤ cfg.kmallocShiftLow) :
    ∃ st, kmemCacheInit cfg = .ok st ∧ KmallocInv cfg st ∧
      st.sizeIndex = setupKmallocCacheIndexTable cfg.kmallocShiftLow ∧
      ∀ t x, Entered st t x ↔ Created cfg.kmallocShiftLow x := by
  have small := cfg.shiftLow_le
  obtain ⟨node, madeNode⟩ := createBootCache_made cfg 32 slabHwcacheAlign 0 0 (by decide) (by decide) rfl
  obtain ⟨cache, madeCache⟩ := createBootCache_made cfg 120 slabHwcacheAlign 0 0 (by decide) (by decide) rfl
  let start : KmallocState :=
    { caches := [cache, node], kmallocCaches := fun _ _ => none
      sizeIndex := setupKmallocCacheIndexTable cfg.kmallocShiftLow }
  have first : CacheStep cfg CacheSystem.empty { caches := [cache], slabs := [], users := [] } :=
    CacheStep.boot bootMemory _ _ _ _ (by decide) madeCache
  have second : CacheStep cfg { caches := [cache], slabs := [], users := [] } { caches := [cache, node], slabs := [], users := [] } :=
    CacheStep.boot bootMemory _ _ _ _ (by decide) madeNode
  have run : CacheRun cfg CacheSystem.empty { caches := [cache, node], slabs := [], users := [] } :=
    (Relation.ReflTransGen.single first).tail second
  have inv : KmallocInv cfg start := ⟨⟨[], run⟩, nofun⟩
  obtain ⟨st₁, done₁, inv₁, index₁, entered₁⟩ := createClasses_spec
    (List.range' cfg.kmallocShiftLow (kmallocShiftHigh + 1 - cfg.kmallocShiftLow)) inv (by
      intro i mem
      rw [List.mem_range'_1] at mem
      unfold kmallocShiftHigh at mem ⊢
      omega)
  have normal : ∀ x, Entered st₁ .normal x ↔ Created cfg.kmallocShiftLow x := by
    intro x
    rw [entered₁]
    have none : ¬Entered start .normal x := fun entered => entered rfl
    simp only [none, false_or, true_and, List.mem_range'_1, RoundEnters, Created, Config.kmallocMinSize]
    constructor
    · rintro ⟨i, range, rfl | ⟨fits, rfl, rfl⟩ | ⟨fits, rfl, rfl⟩⟩
      · unfold kmallocShiftHigh at range ⊢
        omega
      · exact Or.inr (Or.inl ⟨fits, rfl⟩)
      · exact Or.inr (Or.inr ⟨fits, rfl⟩)
    · have six : 1 <<< cfg.kmallocShiftLow ≤ 32 → cfg.kmallocShiftLow ≤ 6 := by
        intro fits
        rw [Nat.shiftLeft_eq, Nat.one_mul] at fits
        by_contra! more
        have large := Nat.pow_le_pow_right (by decide : 0 < 2) more
        omega
      have seven : 1 <<< cfg.kmallocShiftLow ≤ 64 → cfg.kmallocShiftLow ≤ 7 := by
        intro fits
        rw [Nat.shiftLeft_eq, Nat.one_mul] at fits
        by_contra! more
        have large := Nat.pow_le_pow_right (by decide : 0 < 2) more
        omega
      unfold kmallocShiftHigh
      rintro (range | ⟨fits, rfl⟩ | ⟨fits, rfl⟩)
      · exact ⟨x, by omega, Or.inl rfl⟩
      · have le := six fits
        exact ⟨6, by omega, Or.inr (Or.inl ⟨fits, rfl, rfl⟩)⟩
      · have le := seven fits
        exact ⟨7, by omega, Or.inr (Or.inr ⟨fits, rfl, rfl⟩)⟩
  obtain ⟨st₂, done₂, inv₂, index₂, entered₂⟩ := createDmaClasses_spec (List.range (kmallocShiftHigh + 1)) inv₁
    (fun i entered => kmallocSize_class low small ((normal i).mp entered))
  refine ⟨st₂, ?_, inv₂, index₂.trans index₁, fun t x => ?_⟩
  · simp only [kmemCacheInit, madeNode, madeCache, ok_bind, createKmallocCaches]
    rw [done₁, ok_bind, done₂]
  · rw [entered₂, normal]
    cases t with
    | normal =>
        rw [normal]
        simp
    | dma =>
        have fresh : ¬Entered st₁ .dma x := by
          rw [entered₁]
          simp [Entered, start]
        have bound : Created cfg.kmallocShiftLow x → x < kmallocShiftHigh + 1 := by
          unfold Created kmallocShiftHigh
          omega
        simp only [fresh, false_or, true_and, List.mem_range]
        exact ⟨fun h => h.2, fun created => ⟨bound created, created⟩⟩

end Miracle.Slub
