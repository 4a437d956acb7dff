import Miracle.Memblock.FirstFit
import Miracle.Memblock.Cap

/-! # The window of the linear map

`arm64_memblock_init` selects the physical address that the linear map starts at and removes
the memory that the map cannot cover.  Low memory is kept, unless the kernel image lies too
high for that; then the window ends with the image.
-/

namespace Miracle.Arm64

open Memblock

/-- The numbers of a configuration: `CONFIG_ARM64_VA_BITS`, `CONFIG_ARM64_PA_BITS` and the
    binary logarithm of `ARM64_MEMSTART_ALIGN`. -/
structure Config where
  vaBits : Nat
  paBits : Nat
  memstartShift : Nat
  va_le : vaBits ≤ 52
  pa_le : paBits ≤ 52
  shift_lt : memstartShift < vaBits

/-- `ULLONG_MAX`. -/
def ullongMax : Nat := 2 ^ 64 - 1

/-- The conversions between `u64` and `s64`. -/
def toU64 (x : Int) : Nat := (x % 2 ^ 64).toNat
def toS64 (x : Nat) : Int := Int.bmod x (2 ^ 64)

namespace Config

variable (c : Config)

def pageOffset : Nat := 2 ^ 64 - 1 - 2 ^ (c.vaBits - 1) + 1

def linearRegionSize : Int := -toS64 c.pageOffset

def memstartAlign : Nat := 2 ^ c.memstartShift

def physMaskShift : Nat := c.paBits

end Config

/-- The first part of `arm64_memblock_init`: it selects the window and clips memory to it.  The
    result has `memstart_addr` besides the state of memblock. -/
def clipMemory (c : Config) (env : Env) (end_ : Nat) (mb : State) : Except Bug (State × Int) := do
  let (mb, _) ← memblockRemove env mb (2 ^ c.physMaskShift) ullongMax
  let memstartAddr := toS64 (roundDown (memblockStartOfDRAM mb) c.memstartAlign)
  let (mb, _) ← memblockRemove env mb (max (toU64 (memstartAddr + c.linearRegionSize)) end_) ullongMax
  if toU64 (memstartAddr + c.linearRegionSize) < memblockEndOfDRAM mb then do
    let memstartAddr :=
      toS64 (roundUp (u64Sub (memblockEndOfDRAM mb) (toU64 c.linearRegionSize)) c.memstartAlign)
    let (mb, _) ← memblockRemove env mb 0 (toU64 memstartAddr)
    pure (mb, memstartAddr)
  else pure (mb, memstartAddr)

/-- The second part: it applies `memory_limit` and adds the kernel image back. -/
def limitMemory (env : Env) (text end_ memoryLimit : Nat) (mb : State) : Except Bug State :=
  if memoryLimit ≠ physAddrMax then do
    let mb ← memblockMemLimitRemoveMap env mb memoryLimit
    let (mb, _) ← memblockAdd env mb text (u64Sub end_ text)
    pure mb
  else pure mb

/-- `text` and `end_` are the physical addresses of `_text` and `_end`. -/
def arm64MemblockInit (c : Config) (env : Env) (text end_ memoryLimit : Nat) (mb : State) :
    Except Bug (State × Int) := do
  let (mb, memstartAddr) ← clipMemory c env end_ mb
  let mb ← limitMemory env text end_ memoryLimit mb
  let (mb, _) ← memblockReserve env mb text (u64Sub end_ text)
  return (mb, memstartAddr)

/-! ## Conversions -/

theorem toU64_of_lt {n : Nat} (h : n < 2 ^ 64) : toU64 n = n := by
  unfold toU64
  omega

theorem toS64_of_lt {n : Nat} (h : n < 2 ^ 63) : toS64 n = n := by
  unfold toS64
  rw [Int.bmod_def]
  omega

theorem linearRegionSize_eq (c : Config) : c.linearRegionSize = (2 ^ (c.vaBits - 1) : Nat) := by
  have small : 2 ^ (c.vaBits - 1) ≤ 2 ^ 51 := Nat.pow_le_pow_right (by decide) (by have := c.va_le; omega)
  have pos := Nat.two_pow_pos (c.vaBits - 1)
  unfold Config.linearRegionSize toS64 Config.pageOffset
  generalize 2 ^ (c.vaBits - 1) = s at *
  rw [Int.bmod_def]
  omega

/-- The size of the linear map as a number of bytes. -/
def Config.window (c : Config) : Nat := 2 ^ (c.vaBits - 1)

theorem align_dvd_window (c : Config) : c.memstartAlign ∣ c.window :=
  pow_dvd_pow 2 (by have := c.shift_lt; omega)

theorem window_le (c : Config) : c.window ≤ 2 ^ 51 :=
  Nat.pow_le_pow_right (by decide) (by have := c.va_le; omega)

theorem physMask_le (c : Config) : 2 ^ c.physMaskShift ≤ 2 ^ 52 := Nat.pow_le_pow_right (by decide) c.pa_le

/-- Rounding up moves an address by less than the alignment. -/
theorem roundUp_near (c : Config) {x : Nat} (pos : 0 < x) (room : x + c.memstartAlign ≤ 2 ^ 64)
    (small : c.memstartShift < 64) :
    c.memstartAlign ∣ roundUp x c.memstartAlign ∧ x ≤ roundUp x c.memstartAlign ∧
      roundUp x c.memstartAlign < x + c.memstartAlign := by
  unfold Config.memstartAlign at *
  have unit := Nat.two_pow_pos c.memstartShift
  have low : (x - 1) / 2 ^ c.memstartShift * 2 ^ c.memstartShift ≤ x - 1 := Nat.div_mul_le_self _ _
  have high := Nat.lt_div_mul_add unit (a := x - 1)
  have word : ((x - 1) / 2 ^ c.memstartShift + 1) * 2 ^ c.memstartShift < 2 ^ 64 := by
    rw [Nat.succ_mul]
    omega
  refine ⟨roundUp_dvd pos (by omega) small, ?_⟩
  rw [roundUp_eq pos (by omega) small, u64_of_lt word, Nat.succ_mul]
  omega

/-! ## The two clippings -/

/-- The window starts at `memstart`, and all memory lies in it, the kernel image included. -/
structure Windowed (c : Config) (text end_ : Nat) (mb : State) (memstart : Nat) : Prop where
  inv : Inv mb
  aligned : c.memstartAlign ∣ memstart
  low : memstart < 2 ^ 63
  covered : ∀ a, IsMemory mb a → memstart ≤ a ∧ a < memstart + c.window ∧ a < 2 ^ c.physMaskShift
  image : ∀ a, text ≤ a → a < end_ → IsMemory mb a

section

variable {c : Config} {text end_ : Nat} {mb : State}

/-- The removal of the memory from an address on. -/
theorem memblockRemove_top (env : Env) (inv : Inv mb) (room : mb.memory.cnt + 2 ≤ mb.memory.max) {base : Nat}
    (low : base ≤ physAddrMax) :
    ∃ mb', memblockRemove env mb base ullongMax = .ok (mb', 0) ∧ Inv mb' ∧
      mb'.memory.cnt + 2 ≤ mb'.memory.max ∧ mb'.reserved = mb.reserved ∧
      ∀ a, IsMemory mb' a ↔ IsMemory mb a ∧ a < base := by
  obtain ⟨mb', done, out⟩ := removeTop_fits (memblockDoubleArray env nesting) inv .memory room low
  have same := out.edit.type_of_ne (by decide : TypeId.reserved ≠ .memory)
  have max : mb'.memory.max = mb.memory.max := out.edit.max_eq .memory
  have cnt : mb'.memory.cnt ≤ mb.memory.cnt := out.cnt_le
  refine ⟨mb', done, out.inv, by omega, same, fun a => ?_⟩
  have top := inRange_top base a
  rw [IsMemory, IsMemory, out.edit.map_eq, withoutRange]
  by_cases high : physAddrMax ≤ a
  · simp [map_above inv .memory high]
  · by_cases cut : base ≤ a
    · rw [if_pos (top.mpr ⟨cut, by omega⟩)]
      simp [cut]
    · rw [if_neg (fun h => cut (top.mp h).1)]
      simp [Nat.not_le.mp cut]

/-- The removal of the memory below an address. -/
theorem memblockRemove_bottom (env : Env) (inv : Inv mb) (room : mb.memory.cnt + 2 ≤ mb.memory.max) {end_ : Nat}
    (low : end_ ≤ physAddrMax) :
    ∃ mb', memblockRemove env mb 0 end_ = .ok (mb', 0) ∧ Inv mb' ∧
      mb'.memory.cnt + 2 ≤ mb'.memory.max ∧ mb'.reserved = mb.reserved ∧
      ∀ a, IsMemory mb' a ↔ IsMemory mb a ∧ end_ ≤ a := by
  obtain ⟨mb', done, edit, inv', cnt⟩ :=
    removeRangeWith_fits (memblockDoubleArray env nesting) inv .memory room 0 end_
  have same := edit.type_of_ne (by decide : TypeId.reserved ≠ .memory)
  have max : mb'.memory.max = mb.memory.max := edit.max_eq .memory
  have cnt : mb'.memory.cnt ≤ mb.memory.cnt := cnt
  refine ⟨mb', done, inv', by omega, same, fun a => ?_⟩
  have range : InRange 0 end_ a ↔ a < end_ := by
    unfold InRange memblockCapSize
    omega
  rw [IsMemory, IsMemory, edit.map_eq, withoutRange]
  by_cases cut : a < end_
  · rw [if_pos (range.mpr cut)]
    simp [Nat.not_le.mpr cut]
  · rw [if_neg (fun h => cut (range.mp h))]
    simp [Nat.not_lt.mp cut]

variable (env : Env) (inv : Inv mb) (room : mb.memory.cnt + 2 ≤ mb.memory.max) (some : text < end_)
  (phys : end_ ≤ 2 ^ c.physMaskShift) (small : end_ - text ≤ c.window - c.memstartAlign)
  (image : ∀ a, text ≤ a → a < end_ → IsMemory mb a)

include inv room some phys small image

/-- Below the lowest address of memory starts a window of low memory; if the image sticks out of
    it, the window that ends with the image takes its place. -/
theorem clipMemory_windowed : ∃ (mb' : State) (memstart : Nat),
    clipMemory c env end_ mb = .ok (mb', memstart) ∧ Windowed c text end_ mb' memstart ∧
      mb'.memory.cnt + 2 ≤ mb'.memory.max ∧ mb'.reserved = mb.reserved := by
  have mask := physMask_le c
  have window := window_le c
  have shift : c.memstartShift < 64 := by
    have := c.shift_lt
    have := c.va_le
    omega
  have unit : c.memstartAlign ≤ c.window := Nat.le_of_dvd (Nat.two_pow_pos _) (align_dvd_window c)
  have pos : 0 < c.memstartAlign := Nat.two_pow_pos _
  obtain ⟨mb1, done1, inv1, room1, same1, mem1⟩ := @memblockRemove_top mb env inv room (2 ^ c.physMaskShift)
    (by simp only [physAddrMax]; omega)
  have image1 (a : Nat) (lo : text ≤ a) (hi : a < end_) : IsMemory mb1 a := by
    exact (mem1 a).mpr ⟨image a lo hi, by omega⟩
  -- the window of low memory
  have least := startOfDRAM_least inv1 (image1 text le_rfl some)
  have startLow : memblockStartOfDRAM mb1 < 2 ^ c.physMaskShift := ((mem1 _).mp least.1).2
  obtain ⟨m, hm⟩ : ∃ m, m = roundDown (memblockStartOfDRAM mb1) c.memstartAlign := ⟨_, rfl⟩
  have below : m ≤ memblockStartOfDRAM mb1 := hm ▸ roundDown_le _ _
  have aligned : c.memstartAlign ∣ m := hm ▸ roundDown_dvd (by omega) shift
  obtain ⟨mb2, done2, inv2, room2, same2, mem2⟩ := @memblockRemove_top mb1 env inv1 room1
    (max (m + c.window) end_) (by simp only [physAddrMax]; omega)
  have image2 (a : Nat) (lo : text ≤ a) (hi : a < end_) : IsMemory mb2 a :=
    (mem2 a).mpr ⟨image1 a lo hi, lt_max_of_lt_right hi⟩
  obtain ⟨last, endPos, top⟩ := endOfDRAM_greatest inv2 (image2 text le_rfl some)
  have covered2 (a : Nat) (memory : IsMemory mb2 a) : m ≤ a ∧ a < 2 ^ c.physMaskShift := by
    have first := ((mem2 a).mp memory).1
    exact ⟨below.trans (least.2 first), ((mem1 a).mp first).2⟩
  have unfolded : clipMemory c env end_ mb =
      if m + c.window < memblockEndOfDRAM mb2 then
        memblockRemove env mb2 0 (toU64 (toS64 (roundUp (u64Sub (memblockEndOfDRAM mb2) c.window) c.memstartAlign)))
          >>= fun r => .ok (r.1, toS64 (roundUp (u64Sub (memblockEndOfDRAM mb2) c.window) c.memstartAlign))
      else .ok (mb2, (m : Int)) := by
    have word : m + c.window < 2 ^ 64 := by omega
    have start : toS64 m = (m : Int) := toS64_of_lt (by omega)
    have width : toU64 (c.window : Int) = c.window := toU64_of_lt (by omega)
    have size : c.linearRegionSize = (c.window : Nat) := linearRegionSize_eq c
    have limit : toU64 ((m : Int) + (c.window : Int)) = m + c.window := by
      rw [← Nat.cast_add, toU64_of_lt word]
    rw [clipMemory, done1, ok_bind]
    simp only [← hm, start, size, limit]
    rw [done2, ok_bind]
    simp only [width, pure_eq_ok]
  rw [unfolded]
  by_cases high : m + c.window < memblockEndOfDRAM mb2
  · -- the image ends above the window, and it is the last of memory
    have image_end : end_ - 1 < memblockEndOfDRAM mb2 := last _ (image2 (end_ - 1) (by omega) (by omega))
    have atEnd : memblockEndOfDRAM mb2 = end_ := by
      have := ((mem2 _).mp top).2
      omega
    have diff : u64Sub (memblockEndOfDRAM mb2) c.window = end_ - c.window := by
      rw [atEnd]
      exact u64Sub_of_le (by omega) (by omega)
    obtain ⟨m', hm'⟩ : ∃ m', m' = roundUp (end_ - c.window) c.memstartAlign := ⟨_, rfl⟩
    obtain ⟨aligned', up, near⟩ := @roundUp_near c (end_ - c.window) (by omega) (by omega) shift
    rw [← hm'] at aligned' up near
    have inside : m' ≤ text := by
      clear * - near small unit some high atEnd
      omega
    have low' : m' < 2 ^ 63 := by
      clear * - inside some phys mask
      omega
    obtain ⟨mb3, done3, inv3, room3, same3, mem3⟩ := @memblockRemove_bottom mb2 env inv2 room2 m'
      (by clear * - low'; simp only [physAddrMax]; omega)
    have start : toS64 m' = (m' : Int) := toS64_of_lt low'
    have back : toU64 (m' : Int) = m' := toU64_of_lt (low'.trans (by decide))
    refine ⟨mb3, m', ?_, ⟨inv3, aligned', low', fun a memory => ?_, fun a lo hi => ?_⟩, room3,
      same3.trans (same2.trans same1)⟩
    · rw [if_pos high, diff, ← hm', start, back, done3, ok_bind]
    · obtain ⟨here, above⟩ := (mem3 a).mp memory
      have top := last a here
      rw [atEnd] at top
      refine ⟨above, ?_, (covered2 a here).2⟩
      clear * - top up
      omega
    · exact (mem3 a).mpr ⟨image2 a lo hi, inside.trans lo⟩
  · rw [if_neg high]
    refine ⟨mb2, m, rfl, ⟨inv2, aligned, by omega, fun a memory => ?_, image2⟩, room2, same2.trans same1⟩
    obtain ⟨lo, hi⟩ := covered2 a memory
    have := last a memory
    omega

end

/-! ## The limit and the kernel image -/

section

variable {c : Config} {text end_ : Nat} {mb : State}

theorem image_range (some : text < end_) (phys : end_ ≤ 2 ^ c.physMaskShift) (a : Nat) :
    InRange text (u64Sub end_ text) a ↔ text ≤ a ∧ a < end_ := by
  have mask := physMask_le c
  have size : u64Sub end_ text = end_ - text := u64Sub_of_le (by omega) some.le
  rw [size, InRange, memblockCapSize, physAddrMax]
  omega

/-- The limit and the image that is added back stay in the window. -/
theorem limitMemory_windowed (env : Env) {memstart : Nat} (windowed : Windowed c text end_ mb memstart)
    (some : text < end_) (phys : end_ ≤ 2 ^ c.physMaskShift) (room : RoomToIsolate mb)
    (place : demand mb .reserved text (u64Sub end_ text) + 1 ≤ mb.reserved.max) (memoryLimit : Nat) :
    ∃ mb', limitMemory env text end_ memoryLimit mb = .ok mb' ∧ Windowed c text end_ mb' memstart ∧
      demand mb' .reserved text (u64Sub end_ text) ≤ mb'.reserved.max := by
  unfold limitMemory
  by_cases unset : memoryLimit = physAddrMax
  · exact ⟨mb, if_neg (not_not.mpr unset), windowed, (Nat.le_succ _).trans place⟩
  have range := image_range some phys
  obtain ⟨mb1, done1, inv1, max1, sub1, demand1⟩ := memLimitRemoveMap_room env windowed.inv room memoryLimit
  have whole : missing mb .memory text (u64Sub end_ text) = 0 :=
    missing_of_covered windowed.inv (fun a inside => windowed.image a ((range a).mp inside).1 ((range a).mp inside).2)
  have fits : (mb1.type .memory).cnt + missing mb1 .memory text (u64Sub end_ text) ≤ (mb1.type .memory).max := by
    have := demand1 .memory text (u64Sub end_ text)
    have := room .memory
    have := max1 .memory
    simp only [demand, whole] at *
    omega
  obtain ⟨mb2, done2, edit, inv2, -⟩ := addRangeWith_fits (memblockDoubleArray env nesting) inv1 .memory
    Flags.none fits
  have memory (a : Nat) : IsMemory mb2 a ↔ IsMemory mb1 a ∨ (text ≤ a ∧ a < end_) := by
    rw [IsMemory, IsMemory, edit.map_eq, withRange, ← range a]
    by_cases inside : InRange text (u64Sub end_ text) a <;> cases mb1.map .memory a <;> simp [inside]
  have same := edit.type_of_ne (by decide : TypeId.reserved ≠ .memory)
  refine ⟨mb2, ?_, ⟨inv2, windowed.aligned, windowed.low, fun a here => ?_, fun a lo hi => ?_⟩, ?_⟩
  · rw [if_pos unset, done1, ok_bind, memblockAdd, memblockAddRange, done2]
    rfl
  · rcases (memory a).mp here with kept | image
    · exact windowed.covered a (sub1 a kept)
    · exact windowed.covered a (windowed.image a image.1 image.2)
  · exact (memory a).mpr (.inr ⟨lo, hi⟩)
  · have := demand1 .reserved text (u64Sub end_ text)
    have max : mb2.reserved.max = mb.reserved.max := (edit.max_eq .reserved).trans (max1 .reserved)
    rw [demand_congr same, max]
    omega

/-- From every memory that holds the kernel image, and for every limit, memory ends up in a
    window of the linear map that starts at `memstart_addr`, and the image is memory and reserved. -/
theorem arm64_memblock_init_covers (env : Env) (inv : Inv mb) (some : text < end_)
    (phys : end_ ≤ 2 ^ c.physMaskShift) (small : end_ - text ≤ c.window - c.memstartAlign)
    (image : ∀ a, text ≤ a → a < end_ → IsMemory mb a) (room : RoomToIsolate mb)
    (place : demand mb .reserved text (u64Sub end_ text) + 1 ≤ mb.reserved.max) (memoryLimit : Nat) :
    ∃ (mb' : State) (memstartAddr : Int),
      arm64MemblockInit c env text end_ memoryLimit mb = .ok (mb', memstartAddr) ∧
      (c.memstartAlign : Int) ∣ memstartAddr ∧
      (∀ a : Nat, IsMemory mb' a → memstartAddr ≤ a ∧ a < memstartAddr + c.linearRegionSize ∧
        a < 2 ^ c.physMaskShift) ∧
      ∀ a, text ≤ a → a < end_ → IsMemory mb' a ∧ IsReserved mb' a := by
  obtain ⟨mb1, memstart, done1, windowed1, room1, same1⟩ :=
    clipMemory_windowed env inv (room .memory) some phys small image
  have isolate : RoomToIsolate mb1 := by
    intro ty
    cases ty with
    | memory => exact room1
    | reserved =>
        have same : mb1.type .reserved = mb.type .reserved := same1
        rw [same]
        exact room .reserved
  have reserved : mb1.type .reserved = mb.type .reserved := same1
  obtain ⟨mb2, done2, windowed2, place2⟩ := limitMemory_windowed env windowed1 some phys isolate
    (by rw [demand_congr reserved, same1]; exact place) memoryLimit
  obtain ⟨mb3, done3, edit, -, -⟩ := addRangeWith_fits (memblockDoubleArray env nesting) windowed2.inv .reserved
    Flags.none place2
  have memory : mb3.map .memory = mb2.map .memory := edit.map_of_ne (by decide)
  refine ⟨mb3, memstart, ?_, Int.natCast_dvd_natCast.mpr windowed2.aligned, fun a here => ?_, fun a lo hi => ⟨?_, ?_⟩⟩
  · rw [arm64MemblockInit, done1, ok_bind]
    simp only [done2, ok_bind, memblockReserve, memblockAddRange, done3, pure_eq_ok]
  · rw [IsMemory, memory] at here
    have covered := windowed2.covered a here
    have size : c.linearRegionSize = (c.window : Nat) := linearRegionSize_eq c
    rw [size]
    exact ⟨Int.ofNat_le.mpr covered.1, by exact_mod_cast covered.2.1, covered.2.2⟩
  · rw [IsMemory, memory]
    exact windowed2.image a lo hi
  · have inside := (image_range some phys a).mpr ⟨lo, hi⟩
    rw [IsReserved, edit.map_eq, withRange, if_pos inside]
    cases mb2.map .reserved a <;> rfl

end

/-- Pages of 4 KiB and addresses of 48 bits. -/
def Config.default : Config :=
  { vaBits := 48, paBits := 48, memstartShift := 30, va_le := by decide, pa_le := by decide, shift_lt := by decide }

/-- A gigabyte of low memory and one that lies too high for the same window. -/
def twoBanks : State :=
  { State.init with
    memory := { MemblockType.init with
      regions := [⟨0x40000000, 0x40000000, Flags.none⟩, ⟨0x880000000000, 0x40000000, Flags.none⟩]
      totalSize := 0x80000000 } }

theorem twoBanks_inv : Memblock.Inv twoBanks := by
  intro ty
  cases ty with
  | memory =>
      refine ⟨by decide, by decide, by decide, .inl (by decide), ?_, by decide⟩
      unfold Bounded
      decide
  | reserved => exact RunInv.init.good.inv .reserved

/-- The image lies in the high bank and the limit keeps one page of the low one. -/
theorem twoBanks_covered : ∃ (mb' : State) (memstartAddr : Int),
    arm64MemblockInit .default Env.early 0x880000080000 0x880001000000 0x1000 twoBanks = .ok (mb', memstartAddr) ∧
      ∀ a, 0x880000080000 ≤ a → a < 0x880001000000 → IsMemory mb' a ∧ IsReserved mb' a := by
  have image (a : Nat) (lo : 0x880000080000 ≤ a) (hi : a < 0x880001000000) : IsMemory twoBanks a := by
    have low : ¬ a < 0x80000000 := by omega
    have high : 0x880000000000 ≤ a ∧ a < 0x880040000000 := by omega
    simp [IsMemory, State.map, State.type, twoBanks, Extent.lookup, Extent.Contains, Extent.stop, low, high]
  have room : RoomToIsolate twoBanks := by
    intro ty
    cases ty <;> decide
  obtain ⟨mb', memstart, done, -, -, kept⟩ := @arm64_memblock_init_covers .default 0x880000080000 0x880001000000
    twoBanks Env.early twoBanks_inv (by decide) (by decide) (by decide) image room (by decide) 0x1000
  exact ⟨mb', memstart, done, kept⟩

end Miracle.Arm64
