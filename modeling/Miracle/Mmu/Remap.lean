import Miracle.Mmu.Mapping

/-! # When a mapping is as requested

A block entry that may not be changed in place is left as it is, and the caller is not told.
-/

namespace Miracle.Mmu

/-- The range has a page, does not wrap and is in one half of the address space, the physical
    addresses have 48 bits and agree in the offset in the page, and `prot` describes a page. -/
structure Mappable (phys virt size : Nat) (prot : U64) : Prop where
  congruent : phys % pageSize = virt % pageSize
  top : virt + size ≤ 2 ^ 64
  window : virt / 2 ^ 48 = (virt + size - 1) / 2 ^ 48
  phys_top : phys + size ≤ 2 ^ 48
  pos : 0 < size + virt % pageSize
  prot_page : prot &&& typeMask = typeTable
  prot_attrs : prot &&& pteAddrMask = 0

/-- The addresses of `[virt & PAGE_MASK, PAGE_ALIGN(virt + size))`. -/
def InRange (virt size va : Nat) : Prop :=
  virt / pageSize * pageSize ≤ va ∧ va < (virt + size + (pageSize - 1)) / pageSize * pageSize

variable {phys virt size : Nat} {prot : U64}

theorem pageStart_page (a : Nat) : a / pageSize * pageSize % pageSize = 0 := Nat.mul_mod_left _ _

theorem pageEnd_page (virt size : Nat) : (virt + size + (pageSize - 1)) / pageSize * pageSize % pageSize = 0 :=
  pageStart_page _

theorem Mappable.pages_lt (h : Mappable phys virt size prot) :
    virt / pageSize * pageSize < (virt + size + (pageSize - 1)) / pageSize * pageSize := by
  have := h.pos
  simp only [pageSize] at *
  omega

theorem Mappable.pages_top (h : Mappable phys virt size prot) :
    (virt + size + (pageSize - 1)) / pageSize * pageSize ≤ 2 ^ 64 := by
  have := h.top
  simp only [pageSize]
  omega

theorem Mappable.pages_window (h : Mappable phys virt size prot) : virt / pageSize * pageSize / 2 ^ 48 =
    ((virt + size + (pageSize - 1)) / pageSize * pageSize - 1) / 2 ^ 48 := by
  have := h.window
  have := h.pos
  simp only [pageSize] at *
  omega

theorem Mappable.pages_phys_top (h : Mappable phys virt size prot) : phys / pageSize * pageSize +
    ((virt + size + (pageSize - 1)) / pageSize * pageSize - virt / pageSize * pageSize) ≤ 2 ^ 48 := by
  have := h.phys_top
  have := h.congruent
  have := h.pos
  simp only [pageSize] at *
  omega

def Mappable.request (h : Mappable phys virt size prot) (flags : Flags) : Request where
  addr := virt / pageSize * pageSize
  finish := (virt + size + (pageSize - 1)) / pageSize * pageSize
  phys := phys / pageSize * pageSize
  prot := prot
  flags := flags
  addr_page := pageStart_page virt
  finish_page := pageEnd_page virt size
  phys_page := pageStart_page phys
  lt := h.pages_lt
  top := h.pages_top
  window := h.pages_window
  phys_top := h.pages_phys_top
  prot_page := h.prot_page
  prot_attrs := h.prot_attrs

theorem Mappable.createPgdMapping_eq (h : Mappable phys virt size prot) (alloc : Alloc) (flags : Flags)
    (pgdir : Nat → Pgd) : createPgdMapping alloc flags pgdir phys virt size prot =
      rangeLoop (addrEnd pgdirSize) (pgdPart alloc (h.request flags).flags (h.request flags).prot) ptrsPerTable
        (pgdIndex (h.request flags).addr) (h.request flags).addr ((h.request flags).finish % 2 ^ 64)
        (h.request flags).phys pgdir := by
  have agree : ¬ (phys ^^^ virt) % pageSize ≠ 0 := by
    have same := h.congruent
    rw [pageSize] at same
    rw [not_not, pageSize, Nat.xor_mod_two_pow, same, Nat.xor_self]
  have index : pgdIndex virt = pgdIndex (virt / pageSize * pageSize) := by
    have : virt / 2 ^ 12 * 2 ^ 12 / 2 ^ 39 = virt / 2 ^ 39 := by omega
    simp only [pgdIndex, pgdirSize, pageSize, this]
  have finish : (virt / pageSize * pageSize + ((size + virt % pageSize) % 2 ^ 64 + (pageSize - 1)) % 2 ^ 64 / pageSize *
      pageSize) % 2 ^ 64 = (virt + size + (pageSize - 1)) / pageSize * pageSize % 2 ^ 64 := by
    have := h.phys_top
    simp only [pageSize]
    omega
  simp only [createPgdMapping, if_neg agree, finish, index]
  rfl

theorem Mappable.physAt_eq (h : Mappable phys virt size prot) (flags : Flags) {va : Nat} (inside : InRange virt size va) :
    (h.request flags).physAt va = phys + va - virt := by
  obtain ⟨low, -⟩ := inside
  have := h.congruent
  simp only [Request.physAt, request, pageSize] at *
  omega

theorem Mappable.want_eq (h : Mappable phys virt size prot) (flags : Flags) {va : Nat} (inside : InRange virt size va) :
    (h.request flags).want va = some (phys + va - virt, attrs prot) := by
  rw [Request.want, h.physAt_eq flags inside]
  rfl

theorem Mappable.window_eq (h : Mappable phys virt size prot) (flags : Flags) :
    (h.request flags).addr / 2 ^ 48 = virt / 2 ^ 48 := by
  simp only [request, pageSize]
  omega

theorem InRange.window (h : Mappable phys virt size prot) {va : Nat} (inside : InRange virt size va) :
    va / 2 ^ 48 = virt / 2 ^ 48 := by
  obtain ⟨low, high⟩ := inside
  have := h.window
  have := h.pos
  simp only [pageSize] at *
  omega

theorem Mappable.step (h : Mappable phys virt size prot) {alloc : Alloc} {flags : Flags} {pgdir pgdir' : Nat → Pgd}
    (done : createPgdMapping alloc flags pgdir phys virt size prot = .ok pgdir') :
    Step (h.request flags) alloc.isSome (fun va => va / 2 ^ 48 = virt / 2 ^ 48) (pgdirView (h.request flags) pgdir)
      (pgdirView (h.request flags) pgdir') (h.request flags).addr (h.request flags).finish := by
  rw [h.createPgdMapping_eq] at done
  have made := ((h.request flags).maps alloc).step pgdir pgdir' done
  rwa [h.window_eq flags] at made

/-- The address is in a block that the code would write as one entry, and the entry that is
    there may not be changed to it. -/
def Mappable.Dropped (h : Mappable phys virt size prot) (flags : Flags) (pgdir : Nat → Pgd) (va : Nat) : Prop :=
  (h.request flags).Refuses va (stop (h.request flags) pgdir va)

/-- After a call that returns, the range translates as requested if and only if the addresses
    in blocks that were refused did so before. -/
theorem remapped_iff (alloc : Alloc) (flags : Flags) (pgdir pgdir' : Nat → Pgd) (h : Mappable phys virt size prot)
    (done : createPgdMapping alloc flags pgdir phys virt size prot = .ok pgdir') :
    (∀ va, InRange virt size va → walk pgdir' va = some (phys + va - virt, attrs prot)) ↔
      ∀ va, InRange virt size va → h.Dropped flags pgdir va → walk pgdir va = some (phys + va - virt, attrs prot) := by
  have made := h.step done
  constructor
  · intro translated va inside dropped
    rw [← translated va inside]
    exact (made.refused va (inside.window h) inside.1 inside.2 dropped).symm
  · intro already va inside
    by_cases dropped : h.Dropped flags pgdir va
    · rw [← already va inside dropped]
      exact made.refused va (inside.window h) inside.1 inside.2 dropped
    · rw [← h.want_eq flags inside]
      exact made.written va (inside.window h) inside.1 inside.2 dropped

/-- `PAGE_KERNEL` and `PAGE_KERNEL_RO`. -/
def pageKernel : U64 := 0x00e8000000000713

def pageKernelRo : U64 := 0x00e0000000000793

/-- A table of pages for the first 2 MB, with the tables above it. -/
def pageTables (ptes : Nat → Pte) : Nat → Pgd := fun i =>
  if i = 0 then .table 0x41000000 (fun j =>
    if j = 0 then .table 0x41001000 (fun k => if k = 0 then .table 0x41002000 ptes else .empty) else .empty)
  else .empty

/-- The first address that the upper table translates. -/
def kernelBase : Nat := 0xffff000000000000

/-- Pages of normal memory that can be written. -/
def writablePages : Nat → Pte := fun i => pfnEntry (0x40000000 + i * 4096) pageKernel

/-- Making one page read-only does what was asked. -/
theorem page_made_readonly :
    ∃ pgdir', createPgdMapping none { noBlock := false, noCont := true } (pageTables writablePages) 0x40000000
        kernelBase 4096 pageKernelRo = .ok pgdir' ∧
      ∀ va, InRange kernelBase 4096 va → walk pgdir' va = some (0x40000000 + va - kernelBase, attrs pageKernelRo) := by
  have mappable : Mappable 0x40000000 kernelBase 4096 pageKernelRo := by
    constructor <;> decide
  have returns : (createPgdMapping none { noBlock := false, noCont := true } (pageTables writablePages) 0x40000000
      kernelBase 4096 pageKernelRo).isOk = true := by decide +kernel
  cases done : createPgdMapping none { noBlock := false, noCont := true } (pageTables writablePages) 0x40000000
      kernelBase 4096 pageKernelRo with
  | error bug =>
      rw [done] at returns
      cases returns
  | ok pgdir' =>
      refine ⟨pgdir', rfl, (remapped_iff none { noBlock := false, noCont := true } _ pgdir' mappable done).mpr ?_⟩
      -- one page is no block
      intro va inside dropped
      obtain block | section_ := dropped.1
      · have fits := (of_decide_eq_true block).2.2.1
        simp only [Mappable.request, InRange, kernelBase, pageSize, pudSize] at *
        omega
      · have fits := (of_decide_eq_true section_).2.2.1
        simp only [Mappable.request, InRange, kernelBase, pageSize, pmdSize] at *
        omega

/-- Making 2 MB of such pages read-only returns and leaves them as they are. -/
theorem section_made_readonly_dropped :
    Mappable 0x40000000 kernelBase (2 ^ 21) pageKernelRo ∧
    ∃ pgdir', createPgdMapping none { noBlock := false, noCont := true } (pageTables writablePages) 0x40000000
        kernelBase (2 ^ 21) pageKernelRo = .ok pgdir' ∧ InRange kernelBase (2 ^ 21) kernelBase ∧
      walk pgdir' kernelBase ≠ some (0x40000000 + kernelBase - kernelBase, attrs pageKernelRo) := by
  refine ⟨by constructor <;> decide, ?_⟩
  have left : (createPgdMapping none { noBlock := false, noCont := true } (pageTables writablePages) 0x40000000
      kernelBase (2 ^ 21) pageKernelRo).toOption.map (fun pgdir' => walk pgdir' kernelBase) =
      some (some (0x40000000, attrs pageKernel)) := by decide +kernel
  cases done : createPgdMapping none { noBlock := false, noCont := true } (pageTables writablePages) 0x40000000
      kernelBase (2 ^ 21) pageKernelRo with
  | error bug =>
      rw [done] at left
      cases left
  | ok pgdir' =>
      rw [done] at left
      have still : walk pgdir' kernelBase = some (0x40000000, attrs pageKernel) := Option.some.inj left
      refine ⟨pgdir', rfl, ⟨by decide, by decide⟩, ?_⟩
      rw [still]
      decide

/-! ## Tables in which nothing is mapped -/

theorem type_of_safe {old new : U64} (safe : pgattrChangeIsSafe old new = true) (some : old ≠ 0) (entry : new ≠ 0) :
    old &&& typeMask = new &&& typeMask := by
  simp only [pgattrChangeIsSafe] at safe
  rw [if_neg (not_or.mpr ⟨some, entry⟩)] at safe
  split at safe
  · cases safe
  split at safe
  · cases safe
  have same := of_decide_eq_true safe
  have low : typeMask &&& ~~~(ptePxn ||| pteRdonly ||| pteWrite ||| pteNg) = typeMask := by decide
  have zero : (old ^^^ new) &&& typeMask = 0 := by
    rw [← low, BitVec.and_comm typeMask, ← BitVec.and_assoc, same]
    simp
  apply BitVec.eq_of_getLsbD_eq
  intro i _
  have bit := congrArg (fun v => BitVec.getLsbD v i) zero
  simp only [BitVec.getLsbD_and, BitVec.getLsbD_xor] at bit ⊢
  cases first : old.getLsbD i <;> cases second : new.getLsbD i <;> cases third : typeMask.getLsbD i <;> simp_all

theorem Request.entry_type {r : Request} {va : Nat} (high : va < r.finish) :
    (r.Blocky va → r.entry va &&& typeMask = typeSect) ∧ (¬ r.Blocky va → r.entry va &&& typeMask = typeTable) := by
  have block {size : Nat} {q : U64} (pos : 0 < size) (pages : pageSize ∣ size) (fits : r.Fits size va)
      (page : q &&& typeMask = typeTable) : sectEntry (r.physAt (va / size * size)) q &&& typeMask = typeSect := by
    obtain ⟨start, inside, aligned⟩ := fits
    have paged : r.physAt (va / size * size) % pageSize = 0 := by
      rw [← Nat.mod_mod_of_dvd _ pages, aligned, Nat.zero_mod]
    rw [sectEntry, pfnEntry_and paged (r.physAt_lt (by omega)) (by decide)]
    exact sectProt_type page
  refine ⟨fun blocky => ?_, fun pages => ?_⟩
  · rw [entry]
    split
    next yes => exact block (by decide) (by decide) (of_decide_eq_true yes).2 r.prot_page
    next no =>
      have chosen : r.useSection va = true := blocky.resolve_left no
      rw [if_pos chosen]
      exact block (by decide) (by decide) (of_decide_eq_true chosen).2 (r.pmdProt_ok va).1
  · simp only [Blocky, not_or] at pages
    rw [entry, if_neg pages.1, if_neg pages.2, pfnEntry_and r.physAt_page (r.physAt_lt ?_) (by decide)]
    · exact (r.pteProt_ok va).1
    · have := Nat.div_mul_le_self va pageSize
      omega

/-- An entry that may be changed to the one asked for translates the address already. -/
theorem walk_of_placed {r : Request} {pgdir : Nat → Pgd} {va : Nat} (placed : (stop r pgdir va).placed = true)
    (type : (stop r pgdir va).value &&& typeMask = r.entry va &&& typeMask)
    (high : va < r.finish) : walk pgdir va ≠ none := by
  obtain ⟨sect, page⟩ := Request.entry_type high
  have table (pa : U64) : (pa ||| typeTable) &&& typeMask ≠ typeSect := by
    intro same
    have bit := congrArg (fun v => BitVec.getLsbD v 1) same
    simp [typeTable, typeMask, typeSect] at bit
  simp only [stop, walk] at *
  generalize pgdir (pgdIndex va) = pgd at *
  cases pgd with
  | leaf v => cases placed
  | table pa puds =>
      simp only [pgdStop, pgdWalk] at *
      generalize puds (pudIndex va) = pud at *
      cases pud with
      | leaf v =>
          simp only [pudStop, pudWalk] at *
          simp [blockWalk, type, sect (.inl placed)]
      | table pa pmds =>
          simp only [pudStop, pudWalk] at *
          split at type
          next block => exact absurd (type.trans (sect (.inl block))) (table pa)
          next noBlock =>
            rw [if_neg noBlock] at placed
            generalize pmds (pmdIndex va) = pmd at *
            cases pmd with
            | leaf v =>
                simp only [pmdStop, pmdWalk] at *
                simp [blockWalk, type, sect (.inr placed)]
            | table pa ptes =>
                simp only [pmdStop, pmdWalk] at *
                split at type
                next chosen => exact absurd (type.trans (sect (.inr chosen))) (table pa)
                next noSection =>
                  simp only [pteStop] at type
                  simp [pteWalk, type, page (not_or.mpr ⟨noBlock, noSection⟩)]

/-- Where nothing of the range is mapped, the mapping is made as requested and nothing else
    changes if and only if the way down for each address ends at an empty entry, which is the
    one to write when there is no allocator. -/
theorem created_iff (alloc : Alloc) (flags : Flags) (pgdir : Nat → Pgd) (h : Mappable phys virt size prot)
    (unmapped : ∀ va, InRange virt size va → walk pgdir va = none) :
    (∃ pgdir', createPgdMapping alloc flags pgdir phys virt size prot = .ok pgdir' ∧
      (∀ va, InRange virt size va → walk pgdir' va = some (phys + va - virt, attrs prot)) ∧
      ∀ va, va / 2 ^ 48 = virt / 2 ^ 48 → ¬ InRange virt size va → walk pgdir' va = walk pgdir va) ↔
    ∀ va, InRange virt size va → (stop (h.request flags) pgdir va).value = 0 ∧
      (alloc.isSome = true ∨ (stop (h.request flags) pgdir va).placed = true) := by
  constructor
  · rintro ⟨pgdir', done, translated, -⟩ va inside
    have made := h.step done
    have passed := made.passed va (inside.window h) inside.1 inside.2
    have safe : pgattrChangeIsSafe (stop (h.request flags) pgdir va).value ((h.request flags).entry va) = true := by
      by_cases blocky : (h.request flags).Blocky va
      · by_contra refused
        have kept := made.refused va (inside.window h) inside.1 inside.2 ⟨blocky, (Bool.not_eq_true _).mp refused⟩
        have after := translated va inside
        have before := unmapped va inside
        simp only [pgdirView, tableView] at kept
        simp only [walk] at after before
        rw [pgdIndex] at after before
        rw [kept, before] at after
        cases after
      · exact passed.page blocky
    cases placed : (stop (h.request flags) pgdir va).placed with
    | false =>
        obtain ⟨zero, given⟩ := passed.missing placed
        exact ⟨zero, .inl given⟩
    | true =>
        refine ⟨?_, .inr rfl⟩
        by_contra some
        have entry : (h.request flags).entry va ≠ 0 := by
          intro zero
          obtain ⟨sect, page⟩ := Request.entry_type (r := h.request flags) inside.2
          rw [zero] at sect page
          by_cases blocky : (h.request flags).Blocky va
          · exact absurd (sect blocky) (by decide)
          · exact absurd (page blocky) (by decide)
        exact walk_of_placed placed (type_of_safe safe some entry) inside.2 (unmapped va inside)
  · intro ready
    obtain ⟨pgdir', done⟩ := ((h.request flags).maps alloc).total pgdir (fun va low high => ready va ⟨low, high⟩)
    rw [← h.createPgdMapping_eq] at done
    have made := h.step done
    refine ⟨pgdir', done, fun va inside => ?_, fun va same out => ?_⟩
    · rw [← h.want_eq flags inside]
      refine made.written va (inside.window h) inside.1 inside.2 (fun refuses => ?_)
      have zero : ((pgdirView (h.request flags) pgdir).stop va).value = 0 := (ready va inside).1
      rw [Request.Refuses, zero, safe_zero] at refuses
      exact absurd refuses.2 (by decide)
    · refine made.walk va same ?_
      simp only [InRange, not_and_or, not_le, not_lt] at out
      exact out

theorem walk_empty (va : Nat) : walk (fun _ => .empty) va = none := rfl

/-- Two megabytes in an empty table. -/
theorem section_created :
    ∃ pgdir', createPgdMapping (some (fun _ _ => 0x41000000)) { noBlock := false, noCont := false } (fun _ => .empty)
        0x40000000 kernelBase (2 ^ 21) pageKernel = .ok pgdir' ∧
      (∀ va, InRange kernelBase (2 ^ 21) va → walk pgdir' va = some (0x40000000 + va - kernelBase, attrs pageKernel)) ∧
      ∀ va, va / 2 ^ 48 = kernelBase / 2 ^ 48 → ¬ InRange kernelBase (2 ^ 21) va →
        walk pgdir' va = walk (fun _ => .empty) va := by
  have mappable : Mappable 0x40000000 kernelBase (2 ^ 21) pageKernel := by
    constructor <;> decide
  refine (created_iff _ _ _ mappable (fun va _ => walk_empty va)).mpr (fun va _ => ⟨?_, .inl rfl⟩)
  rfl

/-- A table of empty page entries is in the way: the call returns and nothing is mapped. -/
theorem section_over_empty_table_dropped :
    Mappable 0x40000000 kernelBase (2 ^ 21) pageKernel ∧
    (∀ va, InRange kernelBase (2 ^ 21) va → walk (pageTables (fun _ => 0)) va = none) ∧
    ∃ pgdir', createPgdMapping (some (fun _ _ => 0x42000000)) { noBlock := false, noCont := false }
        (pageTables (fun _ => 0)) 0x40000000 kernelBase (2 ^ 21) pageKernel = .ok pgdir' ∧
      InRange kernelBase (2 ^ 21) kernelBase ∧ walk pgdir' kernelBase = none := by
  refine ⟨by constructor <;> decide, fun va _ => ?_, ?_⟩
  · simp only [walk, pageTables]
    split
    · simp only [pgdWalk]
      split
      · simp only [pudWalk]
        split
        · exact pteWalk_zero va
        · exact blockWalk_zero _ va
      · exact blockWalk_zero _ va
    · rfl
  · have left : (createPgdMapping (some (fun _ _ => 0x42000000)) { noBlock := false, noCont := false }
        (pageTables (fun _ => 0)) 0x40000000 kernelBase (2 ^ 21) pageKernel).toOption.map
        (fun pgdir' => walk pgdir' kernelBase) = some none := by decide +kernel
    cases done : createPgdMapping (some (fun _ _ => 0x42000000)) { noBlock := false, noCont := false }
        (pageTables (fun _ => 0)) 0x40000000 kernelBase (2 ^ 21) pageKernel with
    | error bug =>
        rw [done] at left
        cases left
    | ok pgdir' =>
        rw [done] at left
        exact ⟨pgdir', rfl, ⟨by decide, by decide⟩, Option.some.inj left⟩

end Miracle.Mmu
