import Miracle.Slub.Layout
import Miracle.PageAlloc.Ops

/-! # Creating and merging caches

`kmem_cache_create` looks for a cache that can serve the request and makes a new one when
there is none.  A cache that serves another request takes over the larger object size; its
slabs stay as they are.
-/

namespace Miracle.Slub

scoped instance sixteen : NeZero 16 := ⟨by decide⟩

/-- What the configuration and the machine decide.  `cwg` is the cache writeback granule of
    `CTR_EL0`, `nomerge` is `slab_nomerge` and `kmallocShiftLow` is `KMALLOC_SHIFT_LOW`, with the
    build check of `setup_kmalloc_cache_index_table`. -/
structure Config where
  cwg : Fin 16
  nomerge : Bool
  nrPossibleCpuIds : Nat
  cmpxchgDouble : Bool
  kmallocShiftLow : Nat
  shiftLow_le : kmallocShiftLow ≤ 8

namespace Config

/-- `cache_line_size`. -/
def cacheLineSize (cfg : Config) : Nat := if cfg.cwg = 0 then 128 else 4 <<< cfg.cwg.val

def kmallocMinSize (cfg : Config) : Nat := 1 <<< cfg.kmallocShiftLow

/-- `ARCH_KMALLOC_MINALIGN`. -/
def archKmallocMinalign (cfg : Config) : Nat := if 8 < cfg.kmallocMinSize then cfg.kmallocMinSize else 8

end Config

/-- Which allocations of a creation succeed: the name, the cache, and its node and cpu data. -/
structure Memory where
  name : Bool
  cache : Bool
  nodes : Bool

/-- The arguments of `kmem_cache_create_usercopy`. -/
structure Request where
  size : Nat
  align : Nat
  flags : SlabFlags
  useroffset : Nat
  usersize : Nat
  ctor : Bool
  deriving DecidableEq, Repr

def slabCoreFlags : SlabFlags := slabHwcacheAlign ||| slabCacheDma ||| slabPanic

def cacheCreateMask : SlabFlags := slabCoreFlags

def slabFlagsPermitted : SlabFlags := slabCoreFlags ||| slabPoison ||| slabStoreUser ||| slabConsistencyChecks

def slabNeverMerge : SlabFlags := slabPoison ||| slabStoreUser

def slabMergeSame : SlabFlags := slabCacheDma

def slabNoCmpxchg : SlabFlags := slabConsistencyChecks ||| slabStoreUser

/-- `__CMPXCHG_DOUBLE`. -/
def cmpxchgDoubleFlag : SlabFlags := 0x40000000

/-! ## Creation -/

/-- `set_min_partial(s, ilog2(s->size) / 2)`. -/
def minPartialOf (size : Nat) : Nat :=
  let min := size.log2 / 2
  if min < 5 then 5 else if 10 < min then 10 else min

/-- `kmem_cache_open`; `none` is `-EINVAL`. -/
def kmemCacheOpen (cfg : Config) (mem : Memory) (s : KmemCache) (flags : SlabFlags) : Except Fault (Option KmemCache) := do
  let s := { s with flags := flags }
  let (s, accepted) ← calculateSizes cfg.nrPossibleCpuIds s (-1)
  if accepted = false then
    if flags &&& slabPanic ≠ 0 then throw .panic else return none
  else
    let s := { s with
      flags := if cfg.cmpxchgDouble = true ∧ s.flags &&& slabNoCmpxchg = 0 then s.flags ||| cmpxchgDoubleFlag else s.flags
      minPartial := minPartialOf s.size }
    if mem.nodes = false then
      if flags &&& slabPanic ≠ 0 then throw .panic else return none
    else return some s

/-- A `struct kmem_cache` from `kmem_cache_zalloc` with the fields that are set before it is opened. -/
def newCache (objectSize align : Nat) (ctor : Bool) (useroffset usersize : Nat) : KmemCache :=
  { flags := 0, minPartial := 0, size := objectSize, objectSize := objectSize, offset := 0, oo := ⟨0⟩, max := ⟨0⟩,
    min := ⟨0⟩, allocflags := 0, refcount := 0, ctor := ctor, inuse := 0, align := align, useroffset := useroffset,
    usersize := usersize }

/-- `create_boot_cache`. -/
def createBootCache (cfg : Config) (mem : Memory) (size : Nat) (flags : SlabFlags) (useroffset usersize : Nat) :
    Except Fault KmemCache := do
  let align ← calculateAlignment cfg.cacheLineSize flags cfg.archKmallocMinalign size
  match ← kmemCacheOpen cfg mem (newCache size align false useroffset usersize) flags with
  | none => throw .panic
  | some s => return { s with refcount := -1 }

/-- `create_kmalloc_cache`. -/
def createKmallocCache (cfg : Config) (mem : Memory) (size : Nat) (flags : SlabFlags) (useroffset usersize : Nat) :
    Except Fault KmemCache := do
  if mem.cache = false then throw .panic
  else
    let s ← createBootCache cfg mem size flags useroffset usersize
    return { s with refcount := 1 }

/-- `create_cache`; `none` is an error. -/
def createCache (cfg : Config) (mem : Memory) (objectSize align : Nat) (flags : SlabFlags)
    (useroffset usersize : Nat) (ctor : Bool) : Except Fault (Option KmemCache) := do
  let wrong := objectSize < u32 (useroffset + usersize)
  let useroffset := if wrong then 0 else useroffset
  let usersize := if wrong then 0 else usersize
  if mem.cache = false then return none
  else
    match ← kmemCacheOpen cfg mem (newCache objectSize align ctor useroffset usersize) flags with
    | none => return none
    | some s => return some { s with refcount := 1 }

/-! ## Merging -/

def slabUnmergeable (cfg : Config) (s : KmemCache) : Bool :=
  cfg.nomerge || decide (s.flags &&& slabNeverMerge ≠ 0) || s.ctor || decide (s.usersize ≠ 0) || decide (s.refcount < 0)

/-- The tests of `find_mergeable` on one cache; `size` and `align` are the rounded values. -/
def mergeable (cfg : Config) (size align : Nat) (flags : SlabFlags) (s : KmemCache) : Bool :=
  !slabUnmergeable cfg s && decide (size ≤ s.size) &&
    decide (flags &&& slabMergeSame = s.flags &&& slabMergeSame) &&
    decide (s.size &&& (2 ^ 32 - 1 - (align - 1)) = s.size) &&
    decide (s.size - size < wordSize)

/-- `find_mergeable`: the position of the first cache that serves the request.  The caches are
    in the order of their creation, which is the order of the walk from the end of the list. -/
def findMergeable (cfg : Config) (caches : List KmemCache) (size align : Nat) (flags : SlabFlags) (ctor : Bool) :
    Except Fault (Option Nat) := do
  if cfg.nomerge = true then return none
  else if ctor = true then return none
  else
    let size := align32 size wordSize
    let align ← calculateAlignment cfg.cacheLineSize flags align size
    let size := align32 size align
    if flags &&& slabNeverMerge ≠ 0 then return none
    else return caches.findIdx? (mergeable cfg size align flags)

/-- `refcount++` on an `int`. -/
def incRefcount (n : Int) : Int := if n = 2 ^ 31 - 1 then -2 ^ 31 else n + 1

/-- What `__kmem_cache_alias` does to the cache that serves a request of this size. -/
def KmemCache.merged (s : KmemCache) (size : Nat) : KmemCache :=
  { s with
    refcount := incRefcount s.refcount
    objectSize := Max.max s.objectSize size
    inuse := Max.max s.inuse (align32 size wordSize) }

/-- `__kmem_cache_alias`, with the position of the cache that it returns. -/
def kmemCacheAlias (cfg : Config) (caches : List KmemCache) (size align : Nat) (flags : SlabFlags) (ctor : Bool) :
    Except Fault (List KmemCache × Option Nat) := do
  match ← findMergeable cfg caches size align flags ctor with
  | none => return (caches, none)
  | some i => return (caches.modify i (fun s => s.merged size), some i)

/-- The error path of `kmem_cache_create_usercopy`. -/
def createFailed (flags : SlabFlags) (caches : List KmemCache) : Except Fault (List KmemCache × Option Nat) :=
  if flags &&& slabPanic ≠ 0 then .error .panic else .ok (caches, none)

/-- `kmem_cache_create_usercopy`: the caches afterwards and the position of the one that it
    returns, or `none` for `NULL`. -/
def kmemCacheCreateUsercopy (cfg : Config) (mem : Memory) (caches : List KmemCache) (r : Request) :
    Except Fault (List KmemCache × Option Nat) := do
  if r.flags &&& ~~~slabFlagsPermitted ≠ 0 then createFailed r.flags caches
  else
    let flags := r.flags &&& cacheCreateMask
    -- Fail closed on bad values of usersize or useroffset.
    let bad := (r.usersize = 0 ∧ r.useroffset ≠ 0) ∨ r.size < r.usersize ∨ r.size - r.usersize < r.useroffset
    let useroffset := if bad then 0 else r.useroffset
    let usersize := if bad then 0 else r.usersize
    let search := if usersize = 0 then kmemCacheAlias cfg caches r.size r.align flags r.ctor else .ok (caches, none)
    match ← search with
    | (caches, some i) => return (caches, some i)
    | (caches, none) =>
        if mem.name = false then createFailed flags caches
        else
          let align ← calculateAlignment cfg.cacheLineSize flags r.align r.size
          match ← createCache cfg mem r.size align flags useroffset usersize r.ctor with
          | none => createFailed flags caches
          | some s => return (caches ++ [s], some caches.length)

/-- `kmem_cache_create`. -/
def kmemCacheCreate (cfg : Config) (mem : Memory) (caches : List KmemCache) (size align : Nat) (flags : SlabFlags)
    (ctor : Bool) : Except Fault (List KmemCache × Option Nat) :=
  kmemCacheCreateUsercopy cfg mem caches ⟨size, align, flags, 0, 0, ctor⟩

/-! ## Slabs -/

/-- A slab as `allocate_slab` sets it up: its block, the zone of its memory and its objects. -/
structure Slab where
  cache : Nat
  oo : OrderObjects
  start : Nat
  gfp : BitVec 32
  zone : PageAlloc.ZoneType
  objects : List Nat

/-- `allocate_slab` for the block at `start`, with the minimum order when `fallback` is set. -/
def slabAt (s : KmemCache) (cache : Nat) (fallback : Bool) (gfp : BitVec 32) (start : Nat) : Slab :=
  let oo := if fallback then s.min else s.oo
  { cache := cache
    oo := oo
    start := start
    gfp := gfp
    zone := PageAlloc.gfpZone (gfp ||| s.allocflags)
    objects := slabFreelist s oo start }

/-! ## The alignment that `calculate_alignment` computes

It is a power of two, and it is the same for the size of a request and for that size rounded
to words: `find_mergeable` computes it from the rounded size and `kmem_cache_create` from the
size itself.
-/

/-- An alignment that a caller may ask for: none or a power of two. -/
def AskedAlign (a : Nat) : Prop := a = 0 ∨ PowAlign a

theorem PowAlign.max {a b : Nat} (left : AskedAlign a) (right : PowAlign b) : PowAlign (max a b) := by
  rcases Nat.le_total a b with le | le
  · rw [Nat.max_eq_right le]
    exact right
  · rw [Nat.max_eq_left le]
    rcases left with rfl | pow
    · have zero : b = 0 := Nat.le_zero.mp le
      rw [← zero]
      exact right
    · exact pow

theorem PowAlign.pos {a : Nat} (pow : PowAlign a) : 0 < a := by
  obtain ⟨k, -, rfl⟩ := pow
  exact Nat.two_pow_pos k

theorem powAlign_two_pow {k : Nat} (le : k ≤ 31) : PowAlign (2 ^ k) := ⟨k, le, rfl⟩

theorem Config.cacheLineSize_pow (cfg : Config) : ∃ m, m ≤ 17 ∧ cfg.cacheLineSize = 2 ^ m := by
  unfold cacheLineSize
  split
  · exact ⟨7, by decide, rfl⟩
  · refine ⟨2 + cfg.cwg.val, by omega, ?_⟩
    rw [Nat.shiftLeft_eq, Nat.pow_add]

theorem Config.archKmallocMinalign_pow (cfg : Config) : PowAlign cfg.archKmallocMinalign := by
  unfold archKmallocMinalign
  split
  · have le := cfg.shiftLow_le
    exact ⟨cfg.kmallocShiftLow, by omega, by rw [kmallocMinSize, Nat.shiftLeft_eq, Nat.one_mul]⟩
  · exact powAlign_two_pow (k := 3) (by decide)

theorem Config.archKmallocMinalign_le (cfg : Config) : cfg.archKmallocMinalign ≤ 2 ^ 8 := by
  unfold archKmallocMinalign
  split
  · rw [kmallocMinSize, Nat.shiftLeft_eq, Nat.one_mul]
    exact Nat.pow_le_pow_right (by decide) cfg.shiftLow_le
  · decide

/-- Halving the line gives the same for a size and for its words, except below a word. -/
theorem halveLine_words {size words : Nat} (pos : 0 < size) (le : size ≤ words)
    (least : ∀ m, 3 ≤ m → size ≤ 2 ^ m → words ≤ 2 ^ m) (m : Nat) :
    ∃ j j', halveLine size (2 ^ m) = .ok (2 ^ j) ∧ halveLine words (2 ^ m) = .ok (2 ^ j') ∧ j ≤ m ∧
      (j = j' ∨ (j ≤ 3 ∧ j' ≤ 3)) := by
  induction m with
  | zero =>
      refine ⟨0, 0, ?_, ?_, le_rfl, Or.inl rfl⟩
      · rw [halveLine, if_neg (by omega)]
        rfl
      · rw [halveLine, if_neg (by omega)]
        rfl
  | succ m ih =>
      obtain ⟨j, j', here, rounded, bound, same⟩ := ih
      have half : 2 ^ (m + 1) / 2 = 2 ^ m := by rw [Nat.pow_succ, Nat.mul_div_cancel _ (by decide)]
      have nonzero : 2 ^ (m + 1) ≠ 0 := Nat.ne_of_gt (Nat.two_pow_pos _)
      have unfolded : ∀ n, halveLine n (2 ^ (m + 1)) = if n ≤ 2 ^ m then halveLine n (2 ^ m) else .ok (2 ^ (m + 1)) := by
        intro n
        rw [halveLine, half, if_neg nonzero]
        rfl
      rw [unfolded, unfolded]
      by_cases fits : size ≤ 2 ^ m
      · rw [if_pos fits, here]
        by_cases fitsWords : words ≤ 2 ^ m
        · rw [if_pos fitsWords, rounded]
          exact ⟨j, j', rfl, rfl, by omega, same⟩
        · -- rounding to words leaves the half only when the half is below a word
          have low : ¬3 ≤ m := fun high => fitsWords (least m high fits)
          rw [if_neg fitsWords]
          exact ⟨j, m + 1, rfl, rfl, by omega, Or.inr ⟨by omega, by omega⟩⟩
      · rw [if_neg fits, if_neg (by omega)]
        exact ⟨m + 1, m + 1, rfl, rfl, le_rfl, Or.inl rfl⟩

/-- The end of `calculate_alignment`. -/
theorem finishAlignment_eq {a : Nat} (asked : AskedAlign a) :
    align32 (if a < archSlabMinalign then archSlabMinalign else a) wordSize = max a 8 := by
  have raised : (if a < archSlabMinalign then archSlabMinalign else a) = max a 8 := by
    unfold archSlabMinalign
    split <;> omega
  obtain ⟨k, le, eq⟩ := PowAlign.max asked (powAlign_two_pow (k := 3) (by decide))
  have eq' : max a 8 = 2 ^ k := eq
  have coarse : 2 ^ 3 ≤ 2 ^ k := by
    rw [← eq']
    exact Nat.le_max_right _ _
  have unit : 2 ^ 3 ∣ 2 ^ k := pow_dvd_pow 2 ((Nat.pow_le_pow_iff_right (by decide)).mp coarse)
  rw [raised, eq']
  exact alignWord_self (k := 3) (by decide) (Nat.pow_lt_pow_right (by decide) (by omega)) unit

/-- What `calculate_alignment` computes, also when it is given the size rounded to words. -/
theorem calculateAlignment_spec (cfg : Config) (flags : SlabFlags) {align size words : Nat} (asked : AskedAlign align)
    (pos : 0 < size) (le : size ≤ words) (least : ∀ m, 3 ≤ m → size ≤ 2 ^ m → words ≤ 2 ^ m) :
    ∃ a, calculateAlignment cfg.cacheLineSize flags align size = .ok a ∧
      calculateAlignment cfg.cacheLineSize flags align words = .ok a ∧ PowAlign a ∧ align ≤ a ∧
      a ≤ max (max align cfg.cacheLineSize) 8 := by
  have word : PowAlign 8 := powAlign_two_pow (k := 3) (by decide)
  by_cases lined : flags &&& slabHwcacheAlign ≠ 0
  · obtain ⟨m, small, line⟩ := cfg.cacheLineSize_pow
    obtain ⟨j, j', here, rounded, bound, same⟩ := halveLine_words pos le least m
    have agree : max (2 ^ j) 8 = max (2 ^ j') 8 := by
      rcases same with rfl | ⟨low, low'⟩
      · rfl
      · have left : 2 ^ j ≤ 2 ^ 3 := Nat.pow_le_pow_right (by decide) low
        have right : 2 ^ j' ≤ 2 ^ 3 := Nat.pow_le_pow_right (by decide) low'
        omega
    have bound' : j' ≤ 31 := by omega
    have raised : ∀ i, i ≤ 31 → AskedAlign (max align (2 ^ i)) := fun i le =>
      Or.inr (PowAlign.max asked (powAlign_two_pow le))
    have short : 2 ^ j ≤ cfg.cacheLineSize := by
      rw [line]
      exact Nat.pow_le_pow_right (by decide) bound
    refine ⟨max (max align (2 ^ j)) 8, ?_, ?_, PowAlign.max (raised j (by omega)) word, by omega, by omega⟩
    · simp only [calculateAlignment, if_pos lined, line, here, ok_bind, pure_eq_ok, finishAlignment_eq (raised j (by omega))]
    · have equal : max (max align (2 ^ j)) 8 = max (max align (2 ^ j')) 8 := by
        rw [Nat.max_assoc, Nat.max_assoc, agree]
      simp only [calculateAlignment, if_pos lined, line, rounded, ok_bind, pure_eq_ok, finishAlignment_eq (raised j' bound'),
        equal]
  · refine ⟨max align 8, ?_, ?_, PowAlign.max asked word, by omega, by omega⟩
    · simp only [calculateAlignment, if_neg lined, pure_eq_ok, ok_bind, finishAlignment_eq asked]
    · simp only [calculateAlignment, if_neg lined, pure_eq_ok, ok_bind, finishAlignment_eq asked]

theorem halveLine_zero (line : Nat) : halveLine 0 line = .error .endless := by
  induction line using Nat.strong_induction_on with
  | _ line ih =>
      rw [halveLine, if_pos (Nat.zero_le _)]
      split
      · rfl
      · exact ih (line / 2) (by omega)

/-- An alignment that is computed is a power of two; with a size of zero the line is never found. -/
theorem calculateAlignment_pow (cfg : Config) {flags : SlabFlags} {align size a : Nat} (asked : AskedAlign align)
    (done : calculateAlignment cfg.cacheLineSize flags align size = .ok a) : PowAlign a := by
  rcases Nat.eq_zero_or_pos size with rfl | pos
  · by_cases lined : flags &&& slabHwcacheAlign ≠ 0
    · simp only [calculateAlignment, if_pos lined, halveLine_zero, error_bind] at done
      cases done
    · simp only [calculateAlignment, if_neg lined, pure_eq_ok, ok_bind, finishAlignment_eq asked] at done
      cases done
      exact PowAlign.max asked (powAlign_two_pow (k := 3) (by decide))
  · obtain ⟨b, computed, -, pow, -⟩ := calculateAlignment_spec cfg flags asked pos le_rfl (fun m _ le => le)
    rw [computed] at done
    cases done
    exact pow

/-- Only the flag for cache lines counts. -/
theorem calculateAlignment_masked (line : Nat) (flags : SlabFlags) (align size : Nat) :
    calculateAlignment line (flags &&& cacheCreateMask) align size = calculateAlignment line flags align size := by
  have kept : flags &&& cacheCreateMask &&& slabHwcacheAlign = flags &&& slabHwcacheAlign := by
    rw [BitVec.and_assoc]
    rfl
  simp only [calculateAlignment, kept]

end Miracle.Slub
