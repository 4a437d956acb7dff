import Miracle.Mmu.Levels

/-! # The functions of the levels

From the page entries up, each function maps its part of the request.
-/

namespace Miracle.Mmu

variable {r : Request} {oracle : Alloc}

theorem contProt_eq {k x n va : Nat} (prot : U64) (small : k ≤ 64) (piece : Piece (2 ^ k) r.addr r.finish x n)
    (low : x ≤ va) (high : va < n) : contProt (2 ^ k) r.flags x (n % 2 ^ 64) (r.physAt x) prot =
      if r.Fits (2 ^ k) va ∧ r.flags.noCont = false then prot ||| pteCont else prot := by
  simp only [contProt, r.aligned_iff_fits small piece low high]

theorem tryBlock_eq {k x n : Nat} (small : k ≤ 64) (piece : Piece (2 ^ k) r.addr r.finish x n) :
    tryBlock (2 ^ k) r.flags x (n % 2 ^ 64) (r.physAt x) = decide (r.flags.noBlock = false ∧ r.Fits (2 ^ k) x) := by
  simp only [tryBlock, r.aligned_iff_fits small piece le_rfl piece.lt]
  exact decide_eq_decide.mpr and_comm

theorem useSection_congr {va va' : Nat} (same : va / pmdSize = va' / pmdSize) : r.useSection va = r.useSection va' := by
  simp only [Request.useSection, Request.fits_congr same]

theorem useBlock_congr {va va' : Nat} (same : va / pudSize = va' / pudSize) : r.useBlock va = r.useBlock va' := by
  simp only [Request.useBlock, Request.fits_congr same]

theorem addrEnd_piece {k T a e x n : Nat} (small : k < 64) (piece : Piece T r.addr r.finish a e)
    (here : Piece (2 ^ k) a e x n) : addrEnd (2 ^ k) x (e % 2 ^ 64) = n % 2 ^ 64 := by
  rw [here.ends]
  exact addrEnd_eq small (lt_of_lt_of_le here.lt here.finish) (r.piece_top piece)

/-! ## Page tables and sections -/

def pmdView (r : Request) : Pmd → View := entryView pmdWalk (pmdStop r)

def pmdsView (r : Request) : (Nat → Pmd) → View := tableView pmdSize pmdWalk (pmdStop r)

theorem allocInitContPte_maps {a e : Nat} {prot : U64} (piece : Piece pmdSize r.addr r.finish a e)
    (prots : ∀ va, a ≤ va → va < e → prot = r.pmdProt va)
    (noBlock : ∀ va, a ≤ va → va < e → r.useBlock va = false) (noSection : r.useSection a = false) :
    Maps r oracle.isSome (fun va => va / pmdSize = a / pmdSize) (pmdView r)
      (allocInitContPte oracle r.flags a (e % 2 ^ 64) (r.physAt a) prot) a e := by
  have sections {va : Nat} (d : va / pmdSize = a / pmdSize) : r.useSection va = false :=
    (useSection_congr d).trans noSection
  refine Maps.below ptesView (f := rangeLoop (addrEnd contPteSize) (contPtePart r.flags prot) ptrsPerTable 0 a
    (e % 2 ^ 64) (r.physAt a)) ?_ piece.lt (fun va low high => piece.div_eq low high) (fun pa t va d => ⟨rfl, ?_⟩)
    (fun v va d => ?_) (fun v zero va => ⟨?_, rfl⟩)
  · refine r.loop_maps (S := contPteSize) piece (by decide) (by decide) (by decide) (by decide)
      (fun x n _ here => addrEnd_piece (k := 16) (by decide) piece here) (fun x n inner low high => ?_)
      (fun va low high => piece.div_eq low high)
    have block := piece.div_eq low (lt_of_lt_of_le inner.lt high)
    rw [← block]
    refine initPte_maps inner (fun va start finish => ?_) (fun va start finish => ?_)
    · rw [prots va (low.trans start) (lt_of_lt_of_le finish high)]
      exact contProt_eq (k := 16) (r.pmdProt va) (by decide) inner start finish
    · have block := piece.div_eq (low.trans start) (lt_of_lt_of_le finish high)
      simp [Request.Blocky, noBlock va (low.trans start) (lt_of_lt_of_le finish high), sections block]
  · simp only [pmdStop, sections d, Bool.false_eq_true, if_false]
    rfl
  · simp only [pmdStop, sections d]
  · simp only [pmdWalk, zero, ptesView, tableView]
    rw [blockWalk_zero, pteWalk_zero]

theorem pmdPart_maps {x n : Nat} {prot : U64} (piece : Piece pmdSize r.addr r.finish x n)
    (prots : ∀ va, x ≤ va → va < n → prot = r.pmdProt va)
    (noBlock : ∀ va, x ≤ va → va < n → r.useBlock va = false) :
    Maps r oracle.isSome (fun va => va / pudSize = x / pudSize) (pmdsView r)
      (pmdPart oracle r.flags prot (x / pmdSize % ptrsPerTable) x (n % 2 ^ 64) (r.physAt x)) x n := by
  have test : tryBlock pmdSize r.flags x (n % 2 ^ 64) (r.physAt x) = r.useSection x :=
    tryBlock_eq (k := 21) (by decide) piece
  have sections (chosen : r.useSection x = true) {va : Nat} (d : va / pmdSize = x / pmdSize) : r.useSection va = true :=
    (useSection_congr d).trans chosen
  have at_block (chosen : r.useSection x = true) (e : Pmd) {va : Nat} (d : va / pmdSize = x / pmdSize) :
      pmdStop r e va = { value := e.val, placed := true } := by
    cases e with
    | leaf v => simp only [pmdStop, sections chosen d, Entry.val]
    | table pa t => simp only [pmdStop, sections chosen d, Entry.val, if_true]
  have huge (chosen : r.useSection x = true) : Maps r oracle.isSome (fun va => va / pmdSize = x / pmdSize) (pmdView r)
      (fun e => e.setHuge pmdSize (r.physAt x) prot) x n := by
    have fits : r.Fits pmdSize x := (of_decide_eq_true chosen).2
    have whole {va : Nat} (d : va / pmdSize = x / pmdSize) := r.whole_of_fits (by decide) piece fits d
    refine setHuge_maps piece.lt ?_ (fun va d => ⟨(whole d).1, (whole d).2.1⟩) (fun _ _ => rfl)
      (fun e va d => at_block chosen e d) (fun va d => .inr (sections chosen d)) (fun va d => ?_) (fun va d => ?_)
    · have := fits.2.2
      rwa [(whole rfl).2.2] at this
    · obtain ⟨low, high, start⟩ := whole d
      rw [Request.entry, noBlock va low high, sections chosen d, start, prots va low high]
      simp
    · obtain ⟨low, high, start⟩ := whole d
      obtain ⟨page, attr, same⟩ := r.pmdProt_ok va
      have want := r.want_of_block pmdSize va (by decide) (by decide) ((Request.fits_congr d).mpr fits) page attr same
      rwa [start, ← prots va low high] at want
  have round := entryRound_maps prot (r.useSection x) (allocInitContPte oracle r.flags x (n % 2 ^ 64) (r.physAt x) prot)
    (fun va low high => piece.div_eq low high) piece.lt huge (fun chosen e => at_block chosen e rfl)
    (fun pages => allocInitContPte_maps piece prots noBlock pages) (fun e e' made => through_val made)
  rw [← test] at round
  exact round

theorem initPmd_maps {a e : Nat} {prot : U64} (piece : Piece contPmdSize r.addr r.finish a e)
    (prots : ∀ va, a ≤ va → va < e → prot = r.pmdProt va)
    (noBlock : ∀ va, a ≤ va → va < e → r.useBlock va = false) :
    Maps r oracle.isSome (fun va => va / pudSize = a / pudSize) (pmdsView r)
      (fun pmds => initPmd oracle r.flags pmds a (e % 2 ^ 64) (r.physAt a) prot) a e := by
  have window {va : Nat} (low : a ≤ va) (high : va < e) : va / pudSize = a / pudSize := by
    have block := piece.div_eq low high
    simp only [contPmdSize, pudSize] at *
    omega
  refine r.loop_maps (S := pmdSize) piece (by decide) (by decide) (by decide) (by decide)
    (fun x n _ here => addrEnd_piece (k := 21) (by decide) piece here) (fun x n inner low high => ?_)
    (fun va low high => window low high)
  have block := window low (lt_of_lt_of_le inner.lt high)
  rw [← block, pmdIndex, index_add block low]
  exact pmdPart_maps inner (fun va start finish => prots va (low.trans start) (lt_of_lt_of_le finish high))
    (fun va start finish => noBlock va (low.trans start) (lt_of_lt_of_le finish high))

/-! ## Blocks -/

def pudView (r : Request) : Pud → View := entryView pudWalk (pudStop r)

def pudsView (r : Request) : (Nat → Pud) → View := tableView pudSize pudWalk (pudStop r)

theorem allocInitContPmd_maps {a e : Nat} (piece : Piece pudSize r.addr r.finish a e) (noBlock : r.useBlock a = false) :
    Maps r oracle.isSome (fun va => va / pudSize = a / pudSize) (pudView r)
      (allocInitContPmd oracle r.flags a (e % 2 ^ 64) (r.physAt a) r.prot) a e := by
  have blocks {va : Nat} (d : va / pudSize = a / pudSize) : r.useBlock va = false :=
    (useBlock_congr d).trans noBlock
  refine Maps.below (pmdsView r) (f := rangeLoop (addrEnd contPmdSize) (contPmdPart oracle r.flags r.prot) ptrsPerTable 0 a
    (e % 2 ^ 64) (r.physAt a)) ?_ piece.lt (fun va low high => piece.div_eq low high) (fun pa t va d => ⟨rfl, ?_⟩)
    (fun v va d => ?_) (fun v zero va => ⟨?_, rfl⟩)
  · refine r.loop_maps (S := contPmdSize) piece (by decide) (by decide) (by decide) (by decide)
      (fun x n _ here => addrEnd_piece (k := 25) (by decide) piece here) (fun x n inner low high => ?_)
      (fun va low high => piece.div_eq low high)
    have block := piece.div_eq low (lt_of_lt_of_le inner.lt high)
    rw [← block]
    exact initPmd_maps inner (fun va start finish => contProt_eq (k := 25) r.prot (by decide) inner start finish)
      (fun va start finish => blocks (piece.div_eq (low.trans start) (lt_of_lt_of_le finish high)))
  · simp only [pudStop, blocks d, Bool.false_eq_true, if_false]
    rfl
  · simp only [pudStop, blocks d]
  · simp only [pudWalk, zero, pmdsView, tableView, Entry.empty, pmdWalk]
    rw [blockWalk_zero, blockWalk_zero]

theorem pudPart_maps {x n : Nat} (piece : Piece pudSize r.addr r.finish x n) :
    Maps r oracle.isSome (fun va => va / pgdirSize = x / pgdirSize) (pudsView r)
      (pudPart oracle r.flags r.prot (x / pudSize % ptrsPerTable) x (n % 2 ^ 64) (r.physAt x)) x n := by
  have test : tryBlock pudSize r.flags x (n % 2 ^ 64) (r.physAt x) = r.useBlock x :=
    tryBlock_eq (k := 30) (by decide) piece
  have blocks (chosen : r.useBlock x = true) {va : Nat} (d : va / pudSize = x / pudSize) : r.useBlock va = true :=
    (useBlock_congr d).trans chosen
  have at_block (chosen : r.useBlock x = true) (e : Pud) {va : Nat} (d : va / pudSize = x / pudSize) :
      pudStop r e va = { value := e.val, placed := true } := by
    cases e with
    | leaf v => simp only [pudStop, blocks chosen d, Entry.val]
    | table pa t => simp only [pudStop, blocks chosen d, Entry.val, if_true]
  have huge (chosen : r.useBlock x = true) : Maps r oracle.isSome (fun va => va / pudSize = x / pudSize) (pudView r)
      (fun e => e.setHuge pudSize (r.physAt x) r.prot) x n := by
    have fits : r.Fits pudSize x := (of_decide_eq_true chosen).2
    have whole {va : Nat} (d : va / pudSize = x / pudSize) := r.whole_of_fits (by decide) piece fits d
    refine setHuge_maps piece.lt ?_ (fun va d => ⟨(whole d).1, (whole d).2.1⟩) (fun _ _ => rfl)
      (fun e va d => at_block chosen e d) (fun va d => .inl (blocks chosen d)) (fun va d => ?_) (fun va d => ?_)
    · have := fits.2.2
      rwa [(whole rfl).2.2] at this
    · rw [Request.entry, blocks chosen d, (whole d).2.2]
      simp
    · have want := r.want_of_block pudSize va (by decide) (by decide) ((Request.fits_congr d).mpr fits) r.prot_page
        r.prot_attrs rfl
      rwa [(whole d).2.2] at want
  have round := entryRound_maps r.prot (r.useBlock x) (allocInitContPmd oracle r.flags x (n % 2 ^ 64) (r.physAt x) r.prot)
    (fun va low high => piece.div_eq low high) piece.lt huge (fun chosen e => at_block chosen e rfl)
    (fun tables => allocInitContPmd_maps piece tables) (fun e e' made => through_val made)
  rw [← test] at round
  exact round

/-! ## The whole table -/

def pgdView (r : Request) : Pgd → View := entryView pgdWalk (pgdStop r)

def pgdirView (r : Request) : (Nat → Pgd) → View := tableView pgdirSize pgdWalk (pgdStop r)

theorem allocInitPud_maps {a e : Nat} (piece : Piece pgdirSize r.addr r.finish a e) :
    Maps r oracle.isSome (fun va => va / pgdirSize = a / pgdirSize) (pgdView r)
      (allocInitPud oracle r.flags a (e % 2 ^ 64) (r.physAt a) r.prot) a e := by
  refine Maps.below (pudsView r) (f := rangeLoop (addrEnd pudSize) (pudPart oracle r.flags r.prot) ptrsPerTable
    (pudIndex a) a (e % 2 ^ 64) (r.physAt a)) ?_ piece.lt (fun va low high => piece.div_eq low high)
    (fun pa t va d => ⟨rfl, rfl⟩) (fun v va d => rfl) (fun v zero va => ⟨?_, rfl⟩)
  · refine r.loop_maps (S := pudSize) piece (by decide) (by decide) (by decide) (by decide)
      (fun x n _ here => addrEnd_piece (k := 30) (by decide) piece here) (fun x n inner low high => ?_)
      (fun va low high => piece.div_eq low high)
    have block := piece.div_eq low (lt_of_lt_of_le inner.lt high)
    rw [← block, pudIndex, index_add block low]
    exact pudPart_maps inner
  · simp only [pgdWalk, pudsView, tableView, Entry.empty, pudWalk]
    rw [blockWalk_zero]

theorem pgdPart_maps {x n : Nat} (piece : Piece pgdirSize r.addr r.finish x n) :
    Maps r oracle.isSome (fun va => va / 2 ^ 48 = x / 2 ^ 48) (pgdirView r)
      (pgdPart oracle r.flags r.prot (x / pgdirSize % ptrsPerTable) x (n % 2 ^ 64) (r.physAt x)) x n := by
  refine (allocInitPud_maps piece).update (fun va low high => piece.div_eq low high) (fun t t' made => ?_)
    (fun t e _ made => ?_)
  · simp only [pgdPart] at made
    cases new : allocInitPud oracle r.flags x (n % 2 ^ 64) (r.physAt x) r.prot (t (x / pgdirSize % ptrsPerTable)) with
    | error bug =>
        rw [new] at made
        cases made
    | ok e =>
        rw [new] at made
        exact ⟨e, rfl, (Except.ok.inj made).symm⟩
  · exact ⟨_, by simp only [pgdPart, made]; rfl⟩

theorem Request.range_piece (r : Request) : Piece (2 ^ 48) r.addr r.finish r.addr r.finish := by
  refine ⟨le_rfl, r.lt, le_rfl, ?_, .inl rfl⟩
  have window := r.window
  have := r.lt
  simp only [pieceEnd]
  omega

/-- The loop of `__create_pgd_mapping` maps the range of the request. -/
theorem Request.maps (r : Request) (oracle : Alloc) :
    Maps r oracle.isSome (fun va => va / 2 ^ 48 = r.addr / 2 ^ 48) (pgdirView r)
      (rangeLoop (addrEnd pgdirSize) (pgdPart oracle r.flags r.prot) ptrsPerTable (pgdIndex r.addr) r.addr
        (r.finish % 2 ^ 64) r.phys) r.addr r.finish := by
  have piece := r.range_piece
  have start : r.phys = r.physAt r.addr := by simp [physAt]
  rw [start]
  refine r.loop_maps (S := pgdirSize) piece (by decide) (by decide) (by decide) (by decide)
    (fun x n _ here => addrEnd_piece (k := 39) (by decide) piece here) (fun x n inner low high => ?_)
    (fun va low high => piece.div_eq low high)
  have block := piece.div_eq low (lt_of_lt_of_le inner.lt high)
  rw [← block, pgdIndex, index_add block low]
  exact pgdPart_maps inner

end Miracle.Mmu
