import Miracle.Mmu.Range

/-! # What a mapping request asks for

A request gives, for each address of its range, the entry that the code writes for it and the
translation that should result.
-/

namespace Miracle.Mmu

/-! ## Words -/

theorem or_and_eq {x y m : U64} : (x ||| y) &&& m = (x &&& m) ||| (y &&& m) := by
  rw [BitVec.and_comm, BitVec.and_or_distrib_left, BitVec.and_comm m x, BitVec.and_comm m y]

/-- A physical page address is all in the address field. -/
theorem page_and_mask {p : Nat} (aligned : p % pageSize = 0) (small : p < 2 ^ 48) :
    BitVec.ofNat 64 p &&& pteAddrMask = BitVec.ofNat 64 p := by
  have mask : pteAddrMask = BitVec.ofNat 64 ((2 ^ 36 - 1) <<< 12) := by decide
  apply BitVec.eq_of_getLsbD_eq
  intro i inside
  rw [BitVec.getLsbD_and, mask, BitVec.getLsbD_ofNat, BitVec.getLsbD_ofNat, Nat.testBit_shiftLeft,
    Nat.testBit_two_pow_sub_one]
  by_cases low : i < 12
  · have zero : p.testBit i = false := by
      obtain ⟨q, rfl⟩ := Nat.dvd_of_mod_eq_zero aligned
      rw [pageSize, Nat.testBit_two_pow_mul]
      simp [Nat.not_le.mpr low]
    simp [zero]
  · by_cases high : i < 48
    · have : i - 12 < 36 := by omega
      simp [this, inside, Nat.not_lt.mp low]
    · have zero : p.testBit i = false :=
        Nat.testBit_lt_two_pow (lt_of_lt_of_le small (Nat.pow_le_pow_right (by omega) (Nat.not_lt.mp high)))
      simp [zero]

theorem page_and_other {p : Nat} (aligned : p % pageSize = 0) (small : p < 2 ^ 48) {m : U64}
    (apart : pteAddrMask &&& m = 0) : BitVec.ofNat 64 p &&& m = 0 := by
  rw [← page_and_mask aligned small, BitVec.and_assoc, apart]
  simp

theorem shift_page {p : Nat} (aligned : p % pageSize = 0) : p >>> 12 <<< 12 = p := by
  rw [Nat.shiftRight_eq_div_pow, Nat.shiftLeft_eq]
  simp only [pageSize] at aligned
  omega

section

variable {p : Nat} {q : U64}

theorem pfnEntry_and (aligned : p % pageSize = 0) (small : p < 2 ^ 48) {m : U64} (apart : pteAddrMask &&& m = 0) :
    pfnEntry p q &&& m = q &&& m := by
  rw [pfnEntry, shift_page aligned, or_and_eq, page_and_other aligned small apart]
  simp

theorem pfnEntry_addr (aligned : p % pageSize = 0) (small : p < 2 ^ 48) (attr : q &&& pteAddrMask = 0) :
    (pfnEntry p q &&& pteAddrMask).toNat = p := by
  rw [pfnEntry, shift_page aligned, or_and_eq, page_and_mask aligned small, attr]
  have same : BitVec.ofNat 64 p ||| 0 = BitVec.ofNat 64 p := by simp
  rw [same, BitVec.toNat_ofNat]
  omega

theorem attrs_pfnEntry (aligned : p % pageSize = 0) (small : p < 2 ^ 48) : attrs (pfnEntry p q) = attrs q :=
  pfnEntry_and aligned small (by decide)

theorem attrs_or_cont : attrs (q ||| pteCont) = attrs q := by
  have zero : pteCont &&& ~~~(pteAddrMask ||| typeMask ||| pteCont) = 0 := by decide
  rw [attrs, or_and_eq, zero]
  simp [attrs]

theorem attrs_sectProt : attrs (typeSect ||| mkSectProt q) = attrs q := by
  have zero : typeSect &&& ~~~(pteAddrMask ||| typeMask ||| pteCont) = 0 := by decide
  have same : ~~~pteTableBit &&& ~~~(pteAddrMask ||| typeMask ||| pteCont) =
      ~~~(pteAddrMask ||| typeMask ||| pteCont) := by decide
  rw [attrs, or_and_eq, zero, mkSectProt, BitVec.and_assoc, same]
  simp [attrs]

theorem sectProt_type (page : q &&& typeMask = typeTable) : (typeSect ||| mkSectProt q) &&& typeMask = typeSect := by
  have swap : ~~~pteTableBit &&& typeMask = typeMask &&& ~~~pteTableBit := by decide
  rw [or_and_eq, mkSectProt, BitVec.and_assoc, swap, ← BitVec.and_assoc, page]
  decide

theorem sectProt_addr (attr : q &&& pteAddrMask = 0) : (typeSect ||| mkSectProt q) &&& pteAddrMask = 0 := by
  have swap : ~~~pteTableBit &&& pteAddrMask = pteAddrMask := by decide
  have zero : typeSect &&& pteAddrMask = 0 := by decide
  rw [or_and_eq, mkSectProt, BitVec.and_assoc, swap, attr, zero]
  simp

theorem pteWalk_pfnEntry (aligned : p % pageSize = 0) (small : p < 2 ^ 48) (page : q &&& typeMask = typeTable)
    (attr : q &&& pteAddrMask = 0) (va : Nat) :
    pteWalk (pfnEntry p q) va = some (p + va % pageSize, attrs q) := by
  rw [pteWalk, pfnEntry_and aligned small (by decide), if_pos page, pfnEntry_addr aligned small attr,
    attrs_pfnEntry aligned small]

theorem blockWalk_sectEntry {size : Nat} (aligned : p % pageSize = 0) (small : p < 2 ^ 48)
    (block : p % size = 0) (page : q &&& typeMask = typeTable) (attr : q &&& pteAddrMask = 0) (va : Nat) :
    blockWalk size (sectEntry p q) va = some (p + va % size, attrs q) := by
  rw [blockWalk, sectEntry, pfnEntry_and aligned small (by decide), if_pos (sectProt_type page),
    pfnEntry_addr aligned small (sectProt_addr attr), attrs_pfnEntry aligned small, attrs_sectProt,
    Nat.div_mul_cancel (Nat.dvd_of_mod_eq_zero block)]

end

/-! ## Requests -/

/-- A range of pages in one table, with the physical pages and the attributes asked for. -/
structure Request where
  addr : Nat
  finish : Nat
  phys : Nat
  prot : U64
  flags : Flags
  addr_page : addr % pageSize = 0
  finish_page : finish % pageSize = 0
  phys_page : phys % pageSize = 0
  lt : addr < finish
  top : finish ≤ 2 ^ 64
  window : addr / 2 ^ 48 = (finish - 1) / 2 ^ 48
  phys_top : phys + (finish - addr) ≤ 2 ^ 48
  prot_page : prot &&& typeMask = typeTable
  prot_attrs : prot &&& pteAddrMask = 0

namespace Request

/-- The physical address asked for at an address of the range. -/
def physAt (r : Request) (va : Nat) : Nat := r.phys + (va - r.addr)

def want (r : Request) (va : Nat) : Translation := some (r.physAt va, attrs r.prot)

/-- The block of an address is inside the range and its physical address is aligned. -/
def Fits (r : Request) (size va : Nat) : Prop :=
  r.addr ≤ va / size * size ∧ va / size * size + size ≤ r.finish ∧ r.physAt (va / size * size) % size = 0

instance (r : Request) (size va : Nat) : Decidable (r.Fits size va) := by
  unfold Fits
  infer_instance

def useBlock (r : Request) (va : Nat) : Bool := r.flags.noBlock = false ∧ r.Fits pudSize va

def useSection (r : Request) (va : Nat) : Bool := r.flags.noBlock = false ∧ r.Fits pmdSize va

def pmdProt (r : Request) (va : Nat) : U64 :=
  if r.Fits contPmdSize va ∧ r.flags.noCont = false then r.prot ||| pteCont else r.prot

def pteProt (r : Request) (va : Nat) : U64 :=
  if r.Fits contPteSize va ∧ r.flags.noCont = false then r.pmdProt va ||| pteCont else r.pmdProt va

/-- The entry that the code writes for an address. -/
def entry (r : Request) (va : Nat) : U64 :=
  if r.useBlock va then sectEntry (r.physAt (va / pudSize * pudSize)) r.prot
  else if r.useSection va then sectEntry (r.physAt (va / pmdSize * pmdSize)) (r.pmdProt va)
  else pfnEntry (r.physAt (va / pageSize * pageSize)) (r.pteProt va)

variable {r : Request} {va : Nat}

theorem pmdProt_cases (r : Request) (va : Nat) : r.pmdProt va = r.prot ∨ r.pmdProt va = r.prot ||| pteCont := by
  simp only [pmdProt]
  split <;> simp

theorem pmdProt_ok (r : Request) (va : Nat) : r.pmdProt va &&& typeMask = typeTable ∧
    r.pmdProt va &&& pteAddrMask = 0 ∧ attrs (r.pmdProt va) = attrs r.prot := by
  have low : pteCont &&& typeMask = 0 := by decide
  have out : pteCont &&& pteAddrMask = 0 := by decide
  obtain same | same := r.pmdProt_cases va
  · rw [same]
    exact ⟨r.prot_page, r.prot_attrs, rfl⟩
  · rw [same, or_and_eq, or_and_eq, low, out, r.prot_page, r.prot_attrs]
    exact ⟨by decide, by decide, attrs_or_cont⟩

theorem pteProt_ok (r : Request) (va : Nat) : r.pteProt va &&& typeMask = typeTable ∧
    r.pteProt va &&& pteAddrMask = 0 ∧ attrs (r.pteProt va) = attrs r.prot := by
  have low : pteCont &&& typeMask = 0 := by decide
  have out : pteCont &&& pteAddrMask = 0 := by decide
  obtain ⟨page, attr, same⟩ := r.pmdProt_ok va
  simp only [pteProt]
  split
  · rw [or_and_eq, or_and_eq, low, out, page, attr]
    exact ⟨by decide, by decide, attrs_or_cont.trans same⟩
  · exact ⟨page, attr, same⟩

theorem physAt_lt (high : va < r.finish) : r.physAt va < 2 ^ 48 := by
  have := r.phys_top
  have := r.lt
  simp only [physAt]
  omega

theorem physAt_add {x : Nat} (start : r.addr ≤ x) (low : x ≤ va) : r.physAt x + (va - x) = r.physAt va := by
  simp only [physAt]
  omega

theorem page_start (low : r.addr ≤ va) : r.addr ≤ va / pageSize * pageSize := by
  have := r.addr_page
  simp only [pageSize] at *
  omega

theorem physAt_page : r.physAt (va / pageSize * pageSize) % pageSize = 0 := by
  have := r.addr_page
  have := r.phys_page
  simp only [physAt, pageSize] at *
  omega

/-- A page entry as asked for translates as asked for. -/
theorem want_of_page (r : Request) (va : Nat) (low : r.addr ≤ va) (high : va < r.finish) :
    pteWalk (pfnEntry (r.physAt (va / pageSize * pageSize)) (r.pteProt va)) va = r.want va := by
  obtain ⟨page, attr, same⟩ := r.pteProt_ok va
  have start := page_start low
  have down := Nat.div_mul_le_self va pageSize
  rw [pteWalk_pfnEntry (physAt_page) (physAt_lt (by omega)) page attr, same, want]
  have split := Nat.div_add_mod va pageSize
  rw [Nat.mul_comm] at split
  have : r.physAt (va / pageSize * pageSize) + va % pageSize = r.physAt va := by
    simp only [physAt]
    omega
  rw [this]

theorem want_of_block (r : Request) (size va : Nat) (pos : 0 < size) (pages : pageSize ∣ size) (fits : r.Fits size va) {q : U64}
    (page : q &&& typeMask = typeTable) (attr : q &&& pteAddrMask = 0) (same : attrs q = attrs r.prot) :
    blockWalk size (sectEntry (r.physAt (va / size * size)) q) va = r.want va := by
  obtain ⟨start, inside, aligned⟩ := fits
  have split := Nat.div_add_mod va size
  rw [Nat.mul_comm] at split
  rw [blockWalk_sectEntry ?_ (physAt_lt (by omega)) aligned page attr, same, want]
  · have : r.physAt (va / size * size) + va % size = r.physAt va := by
      simp only [physAt]
      omega
    rw [this]
  · rw [← Nat.mod_mod_of_dvd _ pages, aligned, Nat.zero_mod]

end Request

end Miracle.Mmu
