import Mathlib.Logic.Function.Basic
import Mathlib.Tactic

/-! # Page tables

Four levels of tables with pages of 4096 bytes.  An entry without the table bit is a block or
is empty; a table is stored with the entry that points to it, so tables are not shared.
Addresses are numbers below 2^64 and entries are words.  Tables are written through the
fixmap, which is left out.
-/

namespace Miracle.Mmu

abbrev U64 := BitVec 64

def pageSize : Nat := 2 ^ 12
def contPteSize : Nat := 2 ^ 16
def pmdSize : Nat := 2 ^ 21
def contPmdSize : Nat := 2 ^ 25
def pudSize : Nat := 2 ^ 30
def pgdirSize : Nat := 2 ^ 39

/-- `PTRS_PER_PTE` and the like. -/
def ptrsPerTable : Nat := 512

def pteRdonly : U64 := 1 <<< 7
def pteNg : U64 := 1 <<< 11
def pteWrite : U64 := 1 <<< 51
def pteCont : U64 := 1 <<< 52
def ptePxn : U64 := 1 <<< 53
def pteTableBit : U64 := 2
def typeTable : U64 := 3
def typeSect : U64 := 1
def typeMask : U64 := 3
def pteAddrMask : U64 := 0x0000fffffffff000

/-- A word without the table bit. -/
abbrev Leaf := { v : U64 // v &&& pteTableBit = 0 }

/-- An entry of one of the upper levels, with the table below it. -/
inductive Entry (α : Type) where
  | leaf (v : Leaf)
  | table (pa : U64) (below : Nat → α)

abbrev Pte := U64
abbrev Pmd := Entry Pte
abbrev Pud := Entry Pmd
abbrev Pgd := Entry Pud

namespace Entry

variable {α : Type}

/-- `pmd_val`, `pud_val` and `pgd_val`. -/
def val : Entry α → U64
  | .leaf v => v
  | .table pa _ => pa ||| typeTable

def empty : Entry α := .leaf ⟨0, by decide⟩

end Entry

/-- The `BUG_ON`s, and a loop that does not end. -/
inductive Bug where
  | changeUnsafe
  | unaligned
  | changed
  | sect
  | noAlloc
  | bad
  | endless
  deriving DecidableEq, Repr

/-- `NO_BLOCK_MAPPINGS` and `NO_CONT_MAPPINGS`. -/
structure Flags where
  noBlock : Bool
  noCont : Bool
  deriving DecidableEq, Repr

/-- The page that `pgtable_alloc` gives for the table of an entry of the given size at an
    address, or no allocator. -/
abbrev Alloc := Option (Nat → Nat → U64)

/-! ## Entries -/

def pgattrChangeIsSafe (old new : U64) : Bool :=
  let mask := ptePxn ||| pteRdonly ||| pteWrite ||| pteNg
  if old = 0 ∨ new = 0 then true
  else if (old ||| new) &&& pteCont ≠ 0 then false
  else if old &&& ~~~new &&& pteNg ≠ 0 then false
  else (old ^^^ new) &&& ~~~mask = 0

/-- `pfn_pte(__phys_to_pfn(phys), prot)`, `pfn_pmd` and `pfn_pud`. -/
def pfnEntry (phys : Nat) (prot : U64) : U64 := BitVec.ofNat 64 (phys >>> 12 <<< 12) ||| prot

def mkSectProt (prot : U64) : U64 := prot &&& ~~~pteTableBit

/-- The entry that `pmd_set_huge` and `pud_set_huge` write. -/
def sectEntry (phys : Nat) (prot : U64) : U64 := pfnEntry phys (typeSect ||| mkSectProt prot)

theorem ofNat_shift_and_low (n : Nat) {low : U64} (small : low.toNat < 2 ^ 12) :
    BitVec.ofNat 64 (n >>> 12 <<< 12) &&& low = 0 := by
  apply BitVec.eq_of_getLsbD_eq
  intro i inside
  rw [BitVec.getLsbD_and, BitVec.getLsbD_ofNat, Nat.testBit_shiftLeft]
  by_cases below : i < 12
  · simp [Nat.not_le.mpr below]
  · have zero : low.getLsbD i = false := by
      rw [BitVec.getLsbD]
      exact Nat.testBit_lt_two_pow (lt_of_lt_of_le small (Nat.pow_le_pow_right (by omega) (by omega)))
    simp [zero]

theorem sectEntry_leaf (phys : Nat) (prot : U64) : sectEntry phys prot &&& pteTableBit = 0 := by
  have low : typeSect &&& pteTableBit = 0 := by decide
  have cleared : mkSectProt prot &&& pteTableBit = 0 := by
    rw [mkSectProt, BitVec.and_assoc, BitVec.and_comm (~~~pteTableBit)]
    simp
  have page : BitVec.ofNat 64 (phys >>> 12 <<< 12) &&& pteTableBit = 0 :=
    ofNat_shift_and_low phys (by decide)
  simp only [sectEntry, pfnEntry, BitVec.and_comm _ pteTableBit, BitVec.and_or_distrib_left] at *
  simp [low, cleared, page]

/-- `pmd_set_huge` and `pud_set_huge`: the entry stays as it is when the change is not safe. -/
def Entry.setHuge {α : Type} (size : Nat) (e : Entry α) (phys : Nat) (prot : U64) : Except Bug (Entry α) :=
  if pgattrChangeIsSafe e.val (sectEntry phys prot) = false then .ok e
  else if phys % size ≠ 0 then .error .unaligned
  else .ok (.leaf ⟨sectEntry phys prot, sectEntry_leaf phys prot⟩)

def pmdSetHuge (e : Pmd) (phys : Nat) (prot : U64) : Except Bug Pmd := e.setHuge pmdSize phys prot

def pudSetHuge (e : Pud) (phys : Nat) (prot : U64) : Except Bug Pud := e.setHuge pudSize phys prot

/-- The table below an entry, which is allocated when the entry is empty.  The levels that may
    hold blocks are checked for them first. -/
def Entry.tableOf {α : Type} (blocks : Bool) (e : Entry α) (pa : Option U64) (zero : Nat → α) :
    Except Bug (U64 × (Nat → α)) :=
  if blocks ∧ e.val &&& typeMask = typeSect then .error .sect
  else
    match e with
    | .table pa below => .ok (pa, below)
    | .leaf v =>
        if v.val = 0 then
          match pa with
          | none => .error .noAlloc
          | some pa => .ok (pa, zero)
        else .error .bad

/-! ## Loops over a range -/

/-- `pgd_addr_end` and the like. -/
def addrEnd (size addr finish : Nat) : Nat :=
  let boundary := (addr + size) % 2 ^ 64 / size * size
  if (boundary + (2 ^ 64 - 1)) % 2 ^ 64 < (finish + (2 ^ 64 - 1)) % 2 ^ 64 then boundary else finish

/-- The loops over a range: the body is given the index of the entry, the part of the range and
    its physical address. -/
def rangeLoop {σ : Type} (nextOf : Nat → Nat → Nat) (body : Nat → Nat → Nat → Nat → σ → Except Bug σ) :
    Nat → Nat → Nat → Nat → Nat → σ → Except Bug σ
  | 0, _, _, _, _, _ => .error .endless
  | rounds + 1, i, addr, finish, phys, st => do
      let next := nextOf addr finish
      let st ← body i addr next phys st
      let phys := (phys + (next + 2 ^ 64 - addr)) % 2 ^ 64
      if next = finish then return st
      else rangeLoop nextOf body rounds (i + 1) next finish phys st

def pteIndex (addr : Nat) : Nat := addr / pageSize % ptrsPerTable
def pmdIndex (addr : Nat) : Nat := addr / pmdSize % ptrsPerTable
def pudIndex (addr : Nat) : Nat := addr / pudSize % ptrsPerTable
def pgdIndex (addr : Nat) : Nat := addr / pgdirSize % ptrsPerTable

/-! ## Creating a mapping -/

/-- The body of the loop of `init_pte`. -/
def ptePart (prot : U64) (i _addr _next phys : Nat) (ptes : Nat → Pte) : Except Bug (Nat → Pte) :=
  let new := pfnEntry phys prot
  if pgattrChangeIsSafe (ptes i) new then .ok (Function.update ptes i new) else .error .changeUnsafe

def initPte (ptes : Nat → Pte) (addr finish phys : Nat) (prot : U64) : Except Bug (Nat → Pte) :=
  rangeLoop (fun addr _ => (addr + pageSize) % 2 ^ 64) (ptePart prot) ptrsPerTable (pteIndex addr) addr finish phys ptes

/-- The attributes for a part of the range: contiguous when it is aligned and that is allowed. -/
def contProt (size : Nat) (flags : Flags) (addr next phys : Nat) (prot : U64) : U64 :=
  if (addr ||| next ||| phys) % size = 0 ∧ flags.noCont = false then prot ||| pteCont else prot

/-- The body of the loop of `alloc_init_cont_pte`. -/
def contPtePart (flags : Flags) (prot : U64) (_i addr next phys : Nat) (ptes : Nat → Pte) : Except Bug (Nat → Pte) :=
  initPte ptes addr next phys (contProt contPteSize flags addr next phys prot)

def allocInitContPte (alloc : Alloc) (flags : Flags) (addr finish phys : Nat) (prot : U64) (pmd : Pmd) :
    Except Bug Pmd := do
  let (pa, ptes) ← pmd.tableOf true (alloc.map (fun f => f pmdSize addr)) (fun _ => 0)
  let ptes ← rangeLoop (addrEnd contPteSize) (contPtePart flags prot) ptrsPerTable 0 addr finish phys ptes
  return .table pa ptes

/-- A part of the range becomes a block when it is aligned and that is allowed. -/
def tryBlock (size : Nat) (flags : Flags) (addr next phys : Nat) : Bool :=
  (addr ||| next ||| phys) % size = 0 ∧ flags.noBlock = false

/-- The body of the loop of `init_pmd`. -/
def pmdPart (alloc : Alloc) (flags : Flags) (prot : U64) (i addr next phys : Nat) (pmds : Nat → Pmd) :
    Except Bug (Nat → Pmd) :=
  let old := pmds i
  if tryBlock pmdSize flags addr next phys then do
    let new ← pmdSetHuge old phys prot
    if pgattrChangeIsSafe old.val new.val then return Function.update pmds i new
    else throw .changeUnsafe
  else do
    let new ← allocInitContPte alloc flags addr next phys prot old
    if old.val ≠ 0 ∧ old.val ≠ new.val then throw .changed
    else return Function.update pmds i new

def initPmd (alloc : Alloc) (flags : Flags) (pmds : Nat → Pmd) (addr finish phys : Nat) (prot : U64) :
    Except Bug (Nat → Pmd) :=
  rangeLoop (addrEnd pmdSize) (pmdPart alloc flags prot) ptrsPerTable (pmdIndex addr) addr finish phys pmds

/-- The body of the loop of `alloc_init_cont_pmd`. -/
def contPmdPart (alloc : Alloc) (flags : Flags) (prot : U64) (_i addr next phys : Nat) (pmds : Nat → Pmd) :
    Except Bug (Nat → Pmd) :=
  initPmd alloc flags pmds addr next phys (contProt contPmdSize flags addr next phys prot)

def allocInitContPmd (alloc : Alloc) (flags : Flags) (addr finish phys : Nat) (prot : U64) (pud : Pud) :
    Except Bug Pud := do
  let (pa, pmds) ← pud.tableOf true (alloc.map (fun f => f pudSize addr)) (fun _ => .empty)
  let pmds ← rangeLoop (addrEnd contPmdSize) (contPmdPart alloc flags prot) ptrsPerTable 0 addr finish phys pmds
  return .table pa pmds

/-- The body of the loop of `alloc_init_pud`. -/
def pudPart (alloc : Alloc) (flags : Flags) (prot : U64) (i addr next phys : Nat) (puds : Nat → Pud) :
    Except Bug (Nat → Pud) :=
  let old := puds i
  if tryBlock pudSize flags addr next phys then do
    let new ← pudSetHuge old phys prot
    if pgattrChangeIsSafe old.val new.val then return Function.update puds i new
    else throw .changeUnsafe
  else do
    let new ← allocInitContPmd alloc flags addr next phys prot old
    if old.val ≠ 0 ∧ old.val ≠ new.val then throw .changed
    else return Function.update puds i new

def allocInitPud (alloc : Alloc) (flags : Flags) (addr finish phys : Nat) (prot : U64) (pgd : Pgd) :
    Except Bug Pgd := do
  let (pa, puds) ← pgd.tableOf false (alloc.map (fun f => f pgdirSize addr)) (fun _ => .empty)
  let puds ← rangeLoop (addrEnd pudSize) (pudPart alloc flags prot) ptrsPerTable (pudIndex addr) addr finish phys puds
  return .table pa puds

/-- The body of the loop of `__create_pgd_mapping`. -/
def pgdPart (alloc : Alloc) (flags : Flags) (prot : U64) (i addr next phys : Nat) (pgdir : Nat → Pgd) :
    Except Bug (Nat → Pgd) := do
  let new ← allocInitPud alloc flags addr next phys prot (pgdir i)
  return Function.update pgdir i new

/-- `__create_pgd_mapping`; a range whose offsets in the page differ is warned about and left. -/
def createPgdMapping (alloc : Alloc) (flags : Flags) (pgdir : Nat → Pgd) (phys virt size : Nat) (prot : U64) :
    Except Bug (Nat → Pgd) :=
  if (phys ^^^ virt) % pageSize ≠ 0 then .ok pgdir
  else
    let phys := phys / pageSize * pageSize
    let addr := virt / pageSize * pageSize
    let length := ((size + virt % pageSize) % 2 ^ 64 + (pageSize - 1)) % 2 ^ 64 / pageSize * pageSize
    let finish := (addr + length) % 2 ^ 64
    rangeLoop (addrEnd pgdirSize) (pgdPart alloc flags prot) ptrsPerTable (pgdIndex virt) addr finish phys pgdir

/-! ## Translation -/

/-- The attributes of an entry: what is neither address nor type, nor the hint that its
    neighbours continue it. -/
def attrs (v : U64) : U64 := v &&& ~~~(pteAddrMask ||| typeMask ||| pteCont)

abbrev Translation := Option (Nat × U64)

def pteWalk (v : Pte) (va : Nat) : Translation :=
  if v &&& typeMask = typeTable then some ((v &&& pteAddrMask).toNat + va % pageSize, attrs v) else none

/-- A block of the given size at an upper level. -/
def blockWalk (size : Nat) (v : U64) (va : Nat) : Translation :=
  if v &&& typeMask = typeSect then some ((v &&& pteAddrMask).toNat / size * size + va % size, attrs v) else none

def pmdWalk : Pmd → Nat → Translation
  | .leaf v, va => blockWalk pmdSize v va
  | .table _ ptes, va => pteWalk (ptes (pteIndex va)) va

def pudWalk : Pud → Nat → Translation
  | .leaf v, va => blockWalk pudSize v va
  | .table _ pmds, va => pmdWalk (pmds (pmdIndex va)) va

def pgdWalk : Pgd → Nat → Translation
  | .leaf _, _ => none
  | .table _ puds, va => pudWalk (puds (pudIndex va)) va

/-- What the hardware finds for a virtual address. -/
def walk (pgdir : Nat → Pgd) (va : Nat) : Translation := pgdWalk (pgdir (pgdIndex va)) va

end Miracle.Mmu
