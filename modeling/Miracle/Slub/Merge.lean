import Miracle.Slub.Caches

/-! # Merged caches serve their users

A cache keeps its slot size and its orders for ever, so slabs of any age have the same
layout.  Merging only raises the object size, up to the slot size.
-/

namespace Miracle.Slub

open Sizing

/-- What holds of a cache from its creation on.  A cache with its free pointer behind the object
    never serves a second request. -/
structure CacheOk (s : KmemCache) : Prop where
  pow : PowAlign s.align
  unit : s.align ∣ s.size
  words : wordSize ∣ s.size
  pos : 0 < s.size
  word : s.size < 2 ^ 32
  packs : Packs s.oo s.size
  packsMin : Packs s.min s.size
  dma : s.allocflags = if s.flags &&& slabCacheDma ≠ 0 then gfpDma else 0
  covers : ¬s.Relocates → s.objectSize ≤ s.inuse ∧ s.inuse ≤ s.size

/-- What creation keeps of the structure that it opens. -/
structure Opened (s : KmemCache) (flags : SlabFlags) (s' : KmemCache) : Prop where
  objectSize : s'.objectSize = s.objectSize
  align : s'.align = s.align
  ctor : s'.ctor = s.ctor
  usersize : s'.usersize = s.usersize
  dma : s'.flags &&& slabCacheDma = flags &&& slabCacheDma
  poison : s'.flags &&& slabPoison = flags &&& slabPoison

/-! ## Creation -/

theorem align32_zero {a : Nat} (pow : PowAlign a) : align32 0 a = 0 := by
  obtain ⟨k, le, rfl⟩ := pow
  exact Nat.le_zero.mp (alignWord_le (by omega) le_rfl (dvd_zero _))

theorem align32_covers {x a : Nat} (pow : PowAlign a) (word : x < 2 ^ 32) (nonzero : align32 x a ≠ 0) :
    x ≤ align32 x a := by
  obtain ⟨k, le, rfl⟩ := pow
  by_contra short
  have wrap : 2 ^ 32 ≤ x + (2 ^ k - 1) := by
    by_contra room
    exact short (le_alignWord (by omega) (by omega))
  exact nonzero (alignWord_wrap (by omega) word wrap)

theorem powAlign_word : PowAlign wordSize := powAlign_two_pow (k := 3) (by decide)

/-- A sum that wraps leaves no size at all. -/
theorem KmemCache.slotSize_covers {s : KmemCache} (pow : PowAlign s.align) (word : s.objectSize < 2 ^ 32)
    (nonzero : s.slotSize ≠ 0) (plain : ¬s.Relocates) : s.objectSize ≤ s.sized.inuse ∧ s.sized.inuse ≤ s.slotSize := by
  have slot : s.slotSize = align32 (align32 s.objectSize wordSize) s.align := by
    simp only [slotSize, if_neg plain]
  rw [slot] at nonzero ⊢
  have inner : align32 s.objectSize wordSize ≠ 0 := by
    intro zero
    rw [zero, align32_zero pow] at nonzero
    exact nonzero rfl
  exact ⟨align32_covers powAlign_word word inner, align32_covers pow (align32_lt _ _) nonzero⟩

theorem flag_kept (flags : SlabFlags) (p : Prop) [Decidable p] {mask : SlabFlags} (apart : cmpxchgDoubleFlag &&& mask = 0) :
    (if p then flags ||| cmpxchgDoubleFlag else flags) &&& mask = flags &&& mask := by
  split
  · rw [BitVec.and_or_distrib_right, apart]
    exact BitVec.or_zero
  · rfl

theorem kmemCacheOpen_ok {cfg : Config} {mem : Memory} {s s' : KmemCache} {flags : SlabFlags} (pow : PowAlign s.align)
    (word : s.objectSize < 2 ^ 32) (done : kmemCacheOpen cfg mem s flags = .ok (some s')) :
    CacheOk s' ∧ Opened s flags s' := by
  have pow' : PowAlign ({ s with flags := flags } : KmemCache).align := pow
  unfold kmemCacheOpen at done
  obtain ⟨r, sized, done⟩ := bind_eq_ok done
  have nonzero : ({ s with flags := flags } : KmemCache).slotSize ≠ 0 := by
    intro zero
    rw [calculateSizes_zero _ zero] at sized
    cases sized
  have spec := calculateSizes_spec cfg.nrPossibleCpuIds pow' nonzero
  rw [sized] at spec
  rcases spec with ⟨rfl, -⟩ | ⟨oo, min, rfl, packs, packsMin⟩
  · simp only [if_true] at done
    split at done <;> cases done
  · simp only [Bool.true_eq_false, if_false] at done
    split at done
    · split at done <;> cases done
    · cases done
      have kept : ∀ mask : SlabFlags, cmpxchgDoubleFlag &&& mask = 0 →
          (if cfg.cmpxchgDouble = true ∧ flags &&& slabNoCmpxchg = 0 then flags ||| cmpxchgDoubleFlag else flags) &&& mask =
            flags &&& mask := fun _ apart => flag_kept flags _ apart
      refine ⟨?_, rfl, rfl, rfl, rfl, kept _ rfl, kept _ rfl⟩
      constructor
      case pow => exact pow
      case unit => exact KmemCache.align_dvd_slotSize pow'
      case words => exact KmemCache.word_dvd_slotSize pow'
      case pos => exact Nat.pos_of_ne_zero nonzero
      case word => exact KmemCache.slotSize_lt _
      case packs => exact packs
      case packsMin => exact packsMin
      case dma =>
          show (if flags &&& slabCacheDma ≠ 0 then gfpDma else 0) = _
          rw [← kept slabCacheDma rfl]
          rfl
      case covers =>
          intro plain
          have plain' : ¬({ s with flags := flags } : KmemCache).Relocates := by
            rintro (poison | ctor)
            · apply plain
              left
              rw [← kept slabPoison rfl] at poison
              exact poison
            · exact plain (Or.inr ctor)
          exact KmemCache.slotSize_covers pow' word nonzero plain'

/-- The cache serves the request: its objects have the size and the alignment, from the same memory. -/
structure Serves (cfg : Config) (s : KmemCache) (r : Request) : Prop where
  size : r.size ≤ s.objectSize
  align : ∃ a, calculateAlignment cfg.cacheLineSize r.flags r.align r.size = .ok a ∧ PowAlign a ∧ a ∣ s.size
  dma : s.flags &&& slabCacheDma = r.flags &&& slabCacheDma

/-- A reference count takes no part in the layout. -/
theorem CacheOk.recount {s : KmemCache} (ok : CacheOk s) (n : Int) : CacheOk { s with refcount := n } :=
  { ok with }

/-- A cache that is made at boot. -/
structure BootMade (cfg : Config) (size : Nat) (flags : SlabFlags) (useroffset usersize : Nat) (s : KmemCache) : Prop where
  ok : CacheOk s
  objectSize : s.objectSize = size
  serves : Serves cfg s ⟨size, cfg.archKmallocMinalign, flags, useroffset, usersize, false⟩
  plain : flags &&& slabPoison = 0 → ¬s.Relocates

section Boot

variable {cfg : Config} {mem : Memory} {size useroffset usersize : Nat} {flags : SlabFlags} {s : KmemCache}

theorem createBootCache_ok (word : size < 2 ^ 32) (done : createBootCache cfg mem size flags useroffset usersize = .ok s) :
    BootMade cfg size flags useroffset usersize s := by
  obtain ⟨align, computed, done⟩ := bind_eq_ok done
  obtain ⟨found, made, done⟩ := bind_eq_ok done
  cases found with
  | none => cases done
  | some s' =>
      cases done
      have pow := calculateAlignment_pow cfg (Or.inr cfg.archKmallocMinalign_pow) computed
      obtain ⟨ok, opened⟩ := kmemCacheOpen_ok (s := newCache size align false useroffset usersize) pow word made
      constructor
      case ok => exact ok.recount (-1)
      case objectSize => exact opened.objectSize
      case serves =>
          have unit := ok.unit
          rw [opened.align] at unit
          exact ⟨opened.objectSize.ge, ⟨align, computed, pow, unit⟩, opened.dma⟩
      case plain =>
          rintro clear (poison | ctor)
          · exact poison (opened.poison.trans clear)
          · cases opened.ctor.symm.trans ctor

theorem createKmallocCache_ok (word : size < 2 ^ 32)
    (done : createKmallocCache cfg mem size flags useroffset usersize = .ok s) :
    BootMade cfg size flags useroffset usersize s := by
  unfold createKmallocCache at done
  split at done
  · cases done
  · obtain ⟨s', made, done⟩ := bind_eq_ok done
    cases done
    obtain ⟨ok, objectSize, serves, plain⟩ := createBootCache_ok word made
    exact ⟨ok.recount 1, objectSize, ⟨serves.size, serves.align, serves.dma⟩, plain⟩

end Boot

theorem createCache_ok {cfg : Config} {mem : Memory} {r : Request} {align useroffset usersize : Nat} {s : KmemCache}
    (asked : AskedAlign r.align) (word : r.size < 2 ^ 32)
    (computed : calculateAlignment cfg.cacheLineSize (r.flags &&& cacheCreateMask) r.align r.size = .ok align)
    (done : createCache cfg mem r.size align (r.flags &&& cacheCreateMask) useroffset usersize r.ctor = .ok (some s)) :
    CacheOk s ∧ Serves cfg s r := by
  by_cases cache : mem.cache = false
  · simp only [createCache, if_pos cache] at done
    cases done
  · simp only [createCache, if_neg cache] at done
    obtain ⟨found, made, done⟩ := bind_eq_ok done
    cases found with
    | none => cases done
    | some s' =>
        cases done
        have pow := calculateAlignment_pow cfg asked computed
        obtain ⟨ok, opened⟩ := kmemCacheOpen_ok (s := newCache r.size align r.ctor _ _) pow word made
        refine ⟨ok.recount 1, opened.objectSize.ge, ?_, ?_⟩
        · have unit := ok.unit
          rw [opened.align] at unit
          rw [calculateAlignment_masked] at computed
          exact ⟨align, computed, pow, unit⟩
        · show s'.flags &&& slabCacheDma = r.flags &&& slabCacheDma
          rw [opened.dma, BitVec.and_assoc]
          rfl

/-! ## Merging -/

theorem findMergeable_some {cfg : Config} {caches : List KmemCache} {size align i : Nat} {flags : SlabFlags} {ctor : Bool}
    (found : findMergeable cfg caches size align flags ctor = .ok (some i)) :
    ∃ a s, calculateAlignment cfg.cacheLineSize flags align (align32 size wordSize) = .ok a ∧ caches[i]? = some s ∧
      mergeable cfg (align32 (align32 size wordSize) a) a flags s = true := by
  unfold findMergeable at found
  split at found
  · cases found
  · split at found
    · cases found
    · obtain ⟨a, computed, found⟩ := bind_eq_ok found
      split at found
      · cases found
      · have first := Except.ok.inj found
        obtain ⟨lt, holds, -⟩ := List.findIdx?_eq_some_iff_getElem.mp first
        exact ⟨a, caches[i], computed, List.getElem?_eq_getElem lt, holds⟩

/-- The tests of `find_mergeable` let a cache serve the request. -/
structure Fits (cfg : Config) (s : KmemCache) (size align : Nat) (flags : SlabFlags) : Prop where
  plain : ¬s.Relocates
  covers : size ≤ align32 size wordSize
  room : align32 size wordSize ≤ s.size
  aligned : ∃ a, calculateAlignment cfg.cacheLineSize flags align size = .ok a ∧ PowAlign a ∧ a ∣ s.size
  dma : s.flags &&& slabCacheDma = flags &&& slabCacheDma

theorem CacheOk.fits {cfg : Config} {s : KmemCache} {size align a : Nat} {flags : SlabFlags} (ok : CacheOk s)
    (asked : AskedAlign align) (word : size < 2 ^ 32)
    (computed : calculateAlignment cfg.cacheLineSize flags align (align32 size wordSize) = .ok a)
    (test : mergeable cfg (align32 (align32 size wordSize) a) a flags s = true) : Fits cfg s size align flags := by
  have pow := calculateAlignment_pow cfg asked computed
  simp only [mergeable, slabUnmergeable, Bool.and_eq_true, Bool.not_eq_true', Bool.or_eq_false_iff, decide_eq_true_eq,
    decide_eq_false_iff_not] at test
  obtain ⟨⟨⟨⟨⟨⟨⟨⟨-, keeps⟩, noCtor⟩, -⟩, -⟩, room⟩, same⟩, mask⟩, slack⟩ := test
  -- a request that wraps around would leave a cache with less than a word
  have outer : align32 (align32 size wordSize) a ≠ 0 := by
    intro zero
    rw [zero] at slack
    have := Nat.le_of_dvd ok.pos ok.words
    omega
  have inner : align32 size wordSize ≠ 0 := by
    intro zero
    rw [zero, align32_zero pow] at outer
    exact outer rfl
  have pos : 0 < size := by
    rcases Nat.eq_zero_or_pos size with rfl | pos
    · exact absurd (align32_zero powAlign_word) inner
    · exact pos
  have covers := align32_covers powAlign_word word inner
  have least : ∀ m, 3 ≤ m → size ≤ 2 ^ m → align32 size wordSize ≤ 2 ^ m := fun m high le =>
    alignWord_le (k := 3) (by decide) le (pow_dvd_pow 2 high)
  obtain ⟨b, direct, rounded, -⟩ := calculateAlignment_spec cfg flags asked pos covers least
  have equal : b = a := Except.ok.inj (rounded.symm.trans computed)
  subst equal
  constructor
  case plain =>
      rintro (poison | ctor)
      · have sub : s.flags &&& slabPoison = s.flags &&& slabNeverMerge &&& slabPoison := by
          rw [BitVec.and_assoc]
          rfl
        have clear : s.flags &&& slabNeverMerge = 0 := not_not.mp keeps
        rw [sub, clear] at poison
        exact poison BitVec.zero_and
      · rw [noCtor] at ctor
        cases ctor
  case covers => exact covers
  case room => exact (align32_covers pow (align32_lt _ _) outer).trans room
  case aligned =>
      obtain ⟨k, le, rfl⟩ := pow
      refine ⟨2 ^ k, direct, powAlign_two_pow le, ?_⟩
      have high : 2 ^ 32 - 1 - (2 ^ k - 1) = 2 ^ 32 - 2 ^ k := by
        have := Nat.two_pow_pos k
        omega
      rw [high, and_highMask ok.word (by omega)] at mask
      exact Dvd.intro_left _ mask
  case dma => exact same.symm

end Miracle.Slub
