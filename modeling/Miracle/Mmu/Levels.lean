import Miracle.Mmu.Step

/-! # The levels of the tables

Each function that writes a part of the range makes a step, from the page entries up.
-/

namespace Miracle.Mmu

variable {r : Request} {alloc : Bool} {D : Nat → Prop}

/-! ## Positions -/

theorem index_add {S a x : Nat} (window : x / (S * ptrsPerTable) = a / (S * ptrsPerTable)) (le : a ≤ x) :
    a / S % ptrsPerTable + (x / S - a / S) = x / S % ptrsPerTable := by
  have mono : a / S ≤ x / S := Nat.div_le_div_right le
  rw [← Nat.div_div_eq_div_mul, ← Nat.div_div_eq_div_mul] at window
  have first := Nat.div_add_mod (a / S) ptrsPerTable
  have second := Nat.div_add_mod (x / S) ptrsPerTable
  rw [window] at second
  omega

/-- The parts of a request start and end at pages. -/
theorem Request.piece_pages {S x n : Nat} (pages : pageSize ∣ S) (piece : Piece S r.addr r.finish x n) :
    x % pageSize = 0 ∧ n % pageSize = 0 := by
  refine ⟨?_, ?_⟩
  · obtain rfl | aligned := piece.starts
    · exact r.addr_page
    · exact Nat.mod_eq_zero_of_dvd (pages.trans (Nat.dvd_of_mod_eq_zero aligned))
  · rw [piece.ends, pieceEnd]
    obtain low | high := Nat.le_total ((x / S + 1) * S) r.finish
    · rw [Nat.min_eq_left low]
      exact Nat.mod_eq_zero_of_dvd (pages.trans (Nat.dvd_mul_left S _))
    · rw [Nat.min_eq_right high]
      exact r.finish_page

theorem Request.piece_phys {S x n : Nat} (piece : Piece S r.addr r.finish x n) :
    r.physAt x + (n - x) < 2 ^ 64 := by
  have := r.phys_top
  have := piece.start
  have := piece.lt
  have := piece.finish
  simp only [physAt]
  omega

theorem Request.piece_top {S x n : Nat} (piece : Piece S r.addr r.finish x n) : n ≤ 2 ^ 64 :=
  piece.finish.trans r.top

/-- A loop over a part of the request makes no more rounds than a table has entries. -/
theorem Request.piece_enough {S T a e : Nat} (pos : 0 < T) (dvd : S ∣ T) (small : T ≤ ptrsPerTable * S)
    (piece : Piece T r.addr r.finish a e) : e ≤ (a / S + ptrsPerTable) * S := by
  have ends : e ≤ (a / T + 1) * T := piece.ends ▸ Nat.min_le_left _ _
  have down : a / T * T ≤ a / S * S := by
    obtain ⟨q, rfl⟩ := dvd
    rw [← Nat.div_div_eq_div_mul]
    calc a / S / q * (S * q) = a / S / q * q * S := by ring
      _ ≤ a / S * S := Nat.mul_le_mul_right S (Nat.div_mul_le_self _ _)
  rw [Nat.add_one_mul] at ends
  rw [Nat.add_mul]
  omega

/-! ## Page entries -/

def ptesView : (Nat → Pte) → View := tableView pageSize pteWalk (fun v _ => { value := v, placed := true })

/-- A part that is a block of the request is a whole block. -/
theorem Request.whole_of_fits {S x n : Nat} (pos : 0 < S) (piece : Piece S r.addr r.finish x n) (fits : r.Fits S x)
    {va : Nat} (d : va / S = x / S) : x ≤ va ∧ va < n ∧ va / S * S = x := by
  obtain ⟨start, inside, -⟩ := fits
  obtain ⟨first, last⟩ := (piece.aligned_iff pos).mpr ⟨start, inside⟩
  have ends : n = x / S * S + S := by
    rw [piece.ends, pieceEnd, Nat.add_one_mul]
    omega
  have begins : x / S * S = x := Nat.div_mul_cancel (Nat.dvd_of_mod_eq_zero first)
  have split := Nat.div_add_mod va S
  have := Nat.mod_lt va pos
  rw [Nat.mul_comm, d, begins] at split
  rw [d, begins]
  omega

theorem Request.fits_page {x n : Nat} (piece : Piece pageSize r.addr r.finish x n) : r.Fits pageSize x := by
  obtain ⟨first, last⟩ := r.piece_pages (dvd_refl _) piece
  obtain ⟨start, inside⟩ := (piece.aligned_iff (by decide)).mp ⟨first, last⟩
  exact ⟨start, inside, r.physAt_page⟩

theorem safe_zero (new : U64) : pgattrChangeIsSafe 0 new = true := by
  simp [pgattrChangeIsSafe]

/-- One page entry. -/
theorem ptePart_maps {x n : Nat} {prot : U64} (piece : Piece pageSize r.addr r.finish x n)
    (prots : ∀ va, x ≤ va → va < n → prot = r.pteProt va) (pages : ∀ va, x ≤ va → va < n → ¬ r.Blocky va) :
    Maps r alloc (fun va => va / pmdSize = x / pmdSize) ptesView
      (ptePart prot (x / pageSize % ptrsPerTable) x (n % 2 ^ 64) (r.physAt x)) x n := by
  have whole {va : Nat} (d : va / pageSize = x / pageSize) := r.whole_of_fits (by decide) piece (r.fits_page piece) d
  have entry {va : Nat} (low : x ≤ va) (high : va < n) : r.entry va = pfnEntry (r.physAt x) prot := by
    have not := pages va low high
    simp only [Request.Blocky, not_or, Bool.not_eq_true] at not
    rw [Request.entry, not.1, not.2, (whole (piece.div_eq low high)).2.2, ← prots va low high]
    simp
  refine Maps.update (S := pageSize) (f := fun old => if pgattrChangeIsSafe old (pfnEntry (r.physAt x) prot) then
    .ok (pfnEntry (r.physAt x) prot) else .error .changeUnsafe) ⟨fun old new made => ?_, fun old ready => ?_⟩
    (fun va low high => piece.div_eq low high) (fun t t' made => ?_) (fun t e ready made => ?_)
  · split at made
    next safe =>
      obtain rfl := Except.ok.inj made
      refine ⟨fun va d low high refuses => ?_, fun va d low high _ => ?_, fun va d low high => ⟨fun _ => ?_, nofun⟩,
        fun va d out => ?_, fun va d out => ?_⟩
      · exact absurd refuses.1 (pages va low high)
      · have want := r.want_of_page va (piece.start.trans low) (lt_of_lt_of_le high piece.finish)
        rwa [(whole d).2.2, ← prots va low high] at want
      · rw [entry low high]
        exact safe
      · have := whole d
        omega
      · have := whole d
        omega
    next => cases made
  · have zero : old = 0 := (ready x le_rfl piece.lt).1
    exact ⟨_, by rw [zero, if_pos (safe_zero _)]⟩
  · simp only [ptePart] at made
    split at made
    next safe => exact ⟨_, if_pos safe, (Except.ok.inj made).symm⟩
    next => cases made
  · split at made
    next safe => exact ⟨_, if_pos safe⟩
    next => cases made

/-- A loop over a part of the request, from the rounds on its parts. -/
theorem Request.loop_maps {σ : Type} {view : σ → View} {nextOf : Nat → Nat → Nat}
    {body : Nat → Nat → Nat → Nat → σ → Except Bug σ} {S T a e i : Nat} (piece : Piece T r.addr r.finish a e)
    (pos : 0 < S) (dvd : S ∣ T) (posT : 0 < T) (small : T ≤ ptrsPerTable * S)
    (next : ∀ x n, Piece S r.addr r.finish x n → Piece S a e x n → nextOf x (e % 2 ^ 64) = n % 2 ^ 64)
    (parts : ∀ x n, Piece S r.addr r.finish x n → a ≤ x → n ≤ e →
      Maps r alloc D view (body (i + (x / S - a / S)) x (n % 2 ^ 64) (r.physAt x)) x n)
    (inside : ∀ va, a ≤ va → va < e → D va) :
    Maps r alloc D view (rangeLoop nextOf body ptrsPerTable i a (e % 2 ^ 64) (r.physAt a)) a e := by
  refine Maps.loop pos (fun x n here => ?_) (fun x n here => next x n (Piece.nested dvd posT piece here) here)
    inside piece.lt (r.piece_top piece) (r.piece_phys piece) (r.piece_enough posT dvd small piece)
  have part := parts x n (Piece.nested dvd posT piece here) here.start here.finish
  rw [← Request.physAt_add piece.start here.start] at part
  exact part

theorem initPte_maps {a e : Nat} {prot : U64} (piece : Piece contPteSize r.addr r.finish a e)
    (prots : ∀ va, a ≤ va → va < e → prot = r.pteProt va) (pages : ∀ va, a ≤ va → va < e → ¬ r.Blocky va) :
    Maps r alloc (fun va => va / pmdSize = a / pmdSize) ptesView
      (fun ptes => initPte ptes a (e % 2 ^ 64) (r.physAt a) prot) a e := by
  have window {va : Nat} (low : a ≤ va) (high : va < e) : va / pmdSize = a / pmdSize := by
    have block := piece.div_eq low high
    simp only [contPteSize, pmdSize] at *
    omega
  refine r.loop_maps (S := pageSize) piece (by decide) (by decide) (by decide) (by decide) (fun x n inner here => ?_)
    (fun x n inner low high => ?_) (fun va low high => window low high)
  · rw [here.ends]
    exact page_next_eq (r.piece_pages (dvd_refl _) inner).1 (r.piece_pages (by decide) piece).2
      (lt_of_lt_of_le here.lt here.finish)
  · have block := window low (lt_of_lt_of_le inner.lt high)
    rw [← block, pteIndex, index_add block low]
    exact ptePart_maps inner (fun va start finish => prots va (low.trans start) (lt_of_lt_of_le finish high))
      (fun va start finish => pages va (low.trans start) (lt_of_lt_of_le finish high))

/-! ## Tables below an entry -/

/-- Filling in a missing table first. -/
theorem Step.after_fill {v v' v'' : View} {a n : Nat} (same : ∀ va, D va → v'.walk va = v.walk va)
    (kept : ∀ va, D va → Kept alloc (v.stop va) (v'.stop va)) (h : Step r alloc D v' v'' a n) :
    Step r alloc D v v'' a n := by
  refine ⟨fun va d low high refuses => ?_, fun va d low high accepts => ?_, fun va d low high => ?_,
    fun va d out => ?_, fun va d out => ?_⟩
  · exact (h.refused va d low high (((kept va d).refuses_iff va).mpr refuses)).trans (same va d)
  · exact h.written va d low high (fun refuses => accepts (((kept va d).refuses_iff va).mp refuses))
  · exact (kept va d).passed (h.passed va d low high)
  · exact (h.walk va d out).trans (same va d)
  · exact (kept va d).trans (h.kept va d out)

theorem blockWalk_zero (size va : Nat) : blockWalk size 0 va = none := by
  rw [blockWalk, if_neg (by decide)]

theorem pteWalk_zero (va : Nat) : pteWalk 0 va = none := by
  rw [pteWalk, if_neg (by decide)]

section

variable {α : Type} {walk : Entry α → Nat → Translation} {stop : Entry α → Nat → Stop}

theorem tableOf_ok {blocks : Bool} {e : Entry α} {pa : Option U64} {zero : Nat → α} {pa' : U64}
    {below : Nat → α} (done : e.tableOf blocks pa zero = .ok (pa', below)) :
    e = .table pa' below ∨ (∃ v : Leaf, e = .leaf v ∧ v.val = 0) ∧ below = zero ∧ pa = some pa' := by
  simp only [Entry.tableOf] at done
  split at done
  next => cases done
  next =>
    cases e with
    | table pa t =>
        obtain ⟨rfl, rfl⟩ := Prod.mk.inj (Except.ok.inj done)
        exact .inl rfl
    | leaf v =>
        dsimp only at done
        split at done
        next zero =>
          cases pa with
          | none => cases done
          | some pa =>
              obtain ⟨rfl, rfl⟩ := Prod.mk.inj (Except.ok.inj done)
              exact .inr ⟨⟨v, rfl, zero⟩, rfl, rfl⟩
        next => cases done

theorem tableOf_table (blocks : Bool) (pa : U64) (t : Nat → α) (new : Option U64) (zero : Nat → α) :
    (Entry.table pa t).tableOf blocks new zero = .ok (pa, t) := by
  have type : (pa ||| typeTable) &&& typeMask ≠ typeSect := by
    have all : typeTable &&& typeMask = typeMask := by decide
    intro sect
    have bit := congrArg (· &&& pteTableBit) sect
    simp only [or_and_eq, all, BitVec.and_assoc] at bit
    have mask : typeMask &&& pteTableBit = pteTableBit := by decide
    have zero : typeSect &&& pteTableBit = 0 := by decide
    have or_self : pa &&& pteTableBit ||| pteTableBit = pteTableBit := by
      rw [BitVec.or_comm]
      exact BitVec.eq_of_getLsbD_eq (fun i _ => by simp [BitVec.getLsbD_or, BitVec.getLsbD_and])
    rw [mask, or_self, zero] at bit
    exact absurd bit (by decide)
  simp [Entry.tableOf, Entry.val, type]

/-- A function that writes in the table below an entry, which is allocated when it is missing. -/
def Entry.through (blocks : Bool) (pa : Option U64) (zero : Nat → α) (f : (Nat → α) → Except Bug (Nat → α))
    (e : Entry α) : Except Bug (Entry α) := do
  let (pa, below) ← e.tableOf blocks pa zero
  let below ← f below
  return .table pa below

theorem through_ok {blocks : Bool} {new : Option U64} {zero : Nat → α} {f : (Nat → α) → Except Bug (Nat → α)}
    {e e' : Entry α} (done : e.through blocks new zero f = .ok e') :
    ∃ pa below below', e.tableOf blocks new zero = .ok (pa, below) ∧ f below = .ok below' ∧ e' = .table pa below' := by
  simp only [Entry.through] at done
  cases given : e.tableOf blocks new zero with
  | error bug =>
      rw [given] at done
      cases done
  | ok found =>
      obtain ⟨pa, below⟩ := found
      rw [given] at done
      simp only [bind, Except.bind] at done
      split at done
      next => cases done
      next below' wrote => exact ⟨pa, below, below', rfl, wrote, (Except.ok.inj done).symm⟩

/-- The entry points to the same table as before, if it pointed to one. -/
theorem through_val {blocks : Bool} {new : Option U64} {zero : Nat → α} {f : (Nat → α) → Except Bug (Nat → α)}
    {e e' : Entry α} (done : e.through blocks new zero f = .ok e') : ¬ (e.val ≠ 0 ∧ e.val ≠ e'.val) := by
  obtain ⟨pa, below, below', given, -, rfl⟩ := through_ok done
  obtain rfl | ⟨⟨v, rfl, zero⟩, -⟩ := tableOf_ok given
  · simp [Entry.val]
  · simp [Entry.val, zero]

theorem Maps.below (view : (Nat → α) → View) {oracle : Alloc} {blocks : Bool} {zero : Nat → α}
    {f : (Nat → α) → Except Bug (Nat → α)} {S x a n : Nat} (h : Maps r oracle.isSome D view f a n) (lt : a < n)
    (inside : ∀ va, a ≤ va → va < n → D va)
    (table : ∀ pa t va, D va → walk (.table pa t) va = (view t).walk va ∧ stop (.table pa t) va = (view t).stop va)
    (leaf : ∀ v va, D va → stop (.leaf v) va = { value := v, placed := false })
    (fresh : ∀ v : Leaf, v.val = 0 → ∀ va, walk (.leaf v) va = (view zero).walk va ∧ ((view zero).stop va).value = 0) :
    Maps r oracle.isSome D (entryView walk stop) (Entry.through blocks (oracle.map (fun g => g S x)) zero f) a n := by
  refine ⟨fun e e' done => ?_, fun e ready => ?_⟩
  · obtain ⟨pa, below, below', given, wrote, rfl⟩ := through_ok done
    have made := h.step below below' wrote
    have whole : Step r oracle.isSome D (entryView walk stop (.table pa below)) (entryView walk stop (.table pa below'))
        a n := by
      refine ⟨fun va d low high refuses => ?_, fun va d low high accepts => ?_, fun va d low high => ?_,
        fun va d out => ?_, fun va d out => ?_⟩
      · simp only [entryView, (table pa _ va d).1, (table pa _ va d).2] at *
        exact made.refused va d low high refuses
      · simp only [entryView, (table pa _ va d).1, (table pa _ va d).2] at *
        exact made.written va d low high accepts
      · simp only [entryView, (table pa _ va d).2]
        exact made.passed va d low high
      · simp only [entryView, (table pa _ va d).1]
        exact made.walk va d out
      · simp only [entryView, (table pa _ va d).2]
        exact made.kept va d out
    obtain rfl | ⟨⟨v, rfl, none⟩, rfl, allocated⟩ := tableOf_ok given
    · exact whole
    · have some : oracle.isSome = true := by
        cases oracle with
        | none => cases allocated
        | some f => rfl
      refine whole.after_fill (fun va d => ?_) (fun va d => ⟨?_, .inr ⟨?_, ?_, some⟩⟩)
      · simp only [entryView, (table pa _ va d).1, (fresh v none va).1]
      · simp only [entryView, (table pa _ va d).2, leaf v va d, (fresh v none va).2, none]
      · simp only [entryView, leaf v va d]
      · simp only [entryView, leaf v va d, none]
  · have returns (pa : U64) (below : Nat → α) (given : e.tableOf blocks (oracle.map (fun g => g S x)) zero = .ok (pa, below))
        (ready : ∀ va, a ≤ va → va < n → Ready oracle.isSome ((view below).stop va)) :
        ∃ e', e.through blocks (oracle.map (fun g => g S x)) zero f = .ok e' := by
      obtain ⟨below', wrote⟩ := h.total below ready
      exact ⟨.table pa below', by simp only [Entry.through, given, bind, Except.bind, wrote, pure, Except.pure]⟩
    cases e with
    | table pa t =>
        refine returns pa t (tableOf_table blocks pa t _ zero) (fun va low high => ?_)
        rw [← (table pa t va (inside va low high)).2]
        exact ready va low high
    | leaf v =>
        have first := ready a le_rfl lt
        simp only [entryView, leaf v a (inside a le_rfl lt), Ready, Bool.false_eq_true, or_false] at first
        obtain ⟨none, given⟩ := first
        cases oracle with
        | none => cases given
        | some g =>
            refine returns (g S x) zero ?_ (fun va low high => ⟨(fresh v none va).2, .inl rfl⟩)
            have type : (0 : U64) &&& typeMask ≠ typeSect := by decide
            simp only [Entry.tableOf, Entry.val, none, type, and_false, if_false, if_true, Option.map_some]

/-- A round on an entry that may become a block. -/
def entryRound (S : Nat) (block : Bool) (below : Entry α → Except Bug (Entry α)) (i phys : Nat) (prot : U64)
    (t : Nat → Entry α) : Except Bug (Nat → Entry α) :=
  if block then do
    let new ← (t i).setHuge S phys prot
    if pgattrChangeIsSafe (t i).val new.val then return Function.update t i new
    else throw .changeUnsafe
  else do
    let new ← below (t i)
    if (t i).val ≠ 0 ∧ (t i).val ≠ new.val then throw .changed
    else return Function.update t i new

theorem entryRound_ok {S : Nat} {block : Bool} {below : Entry α → Except Bug (Entry α)} {i phys : Nat} {prot : U64}
    {t t' : Nat → Entry α} (made : entryRound S block below i phys prot t = .ok t') :
    ∃ e, (if block then (t i).setHuge S phys prot else below (t i)) = .ok e ∧ t' = Function.update t i e := by
  simp only [entryRound] at made
  split at made
  next yes =>
    cases new : (t i).setHuge S phys prot with
    | error bug =>
        rw [new] at made
        cases made
    | ok e =>
        rw [new] at made
        simp only [bind, Except.bind] at made
        split at made
        · exact ⟨e, if_pos yes, (Except.ok.inj made).symm⟩
        · cases made
  next no =>
    cases new : below (t i) with
    | error bug =>
        rw [new] at made
        cases made
    | ok e =>
        rw [new] at made
        simp only [bind, Except.bind] at made
        split at made
        · cases made
        · exact ⟨e, if_neg no, (Except.ok.inj made).symm⟩

/-- A whole block becomes a block entry, or is refused. -/
theorem setHuge_maps {S x n : Nat} {prot : U64} (lt : x < n) (aligned : r.physAt x % S = 0)
    (whole : ∀ va, va / S = x / S → x ≤ va ∧ va < n)
    (leaf : ∀ (v : Leaf) va, walk (.leaf v) va = blockWalk S v va)
    (at_block : ∀ (e : Entry α) va, va / S = x / S → stop e va = { value := e.val, placed := true })
    (blocky : ∀ va, va / S = x / S → r.Blocky va)
    (entry : ∀ va, va / S = x / S → r.entry va = sectEntry (r.physAt x) prot)
    (want : ∀ va, va / S = x / S → blockWalk S (sectEntry (r.physAt x) prot) va = r.want va) :
    Maps r alloc (fun va => va / S = x / S) (entryView walk stop) (fun e => e.setHuge S (r.physAt x) prot) x n := by
  refine ⟨fun e e' made => ?_, fun e ready => ?_⟩
  · have refuses {va : Nat} (d : va / S = x / S) : r.Refuses va ((entryView walk stop e).stop va) ↔
        pgattrChangeIsSafe e.val (sectEntry (r.physAt x) prot) = false := by
      simp only [Request.Refuses, entryView, at_block e va d, entry va d, blocky va d, true_and]
    refine ⟨fun va d low high refused => ?_, fun va d low high accepts => ?_, fun va d low high => ⟨?_, ?_⟩,
      fun va d out => ?_, fun va d out => ?_⟩
    · rw [Entry.setHuge, if_pos ((refuses d).mp refused)] at made
      rw [Except.ok.inj made]
    · rw [Entry.setHuge, if_neg (fun refused => accepts ((refuses d).mpr refused))] at made
      split at made
      · cases made
      · rw [← Except.ok.inj made]
        exact (leaf _ va).trans (want va d)
    · exact fun page => absurd (blocky va d) page
    · simp [entryView, at_block e va d]
    · have := whole va d
      omega
    · have := whole va d
      omega
  · have zero : e.val = 0 := by
      have := (ready x le_rfl lt).1
      simpa only [entryView, at_block e x rfl] using this
    have accepts : ¬ pgattrChangeIsSafe 0 (sectEntry (r.physAt x) prot) = false := by
      rw [safe_zero]
      decide
    exact ⟨_, by rw [Entry.setHuge, zero, if_neg accepts, if_neg (by simp [aligned])]⟩

/-- The round maps its part when the two ways to write an entry do. -/
theorem entryRound_maps {S x n : Nat} (prot : U64) (block : Bool) (below : Entry α → Except Bug (Entry α))
    (inside : ∀ va, x ≤ va → va < n → va / S = x / S) (lt : x < n)
    (huge : block = true → Maps r alloc (fun va => va / S = x / S) (entryView walk stop)
      (fun e => e.setHuge S (r.physAt x) prot) x n)
    (at_block : block = true → ∀ (e : Entry α), stop e x = { value := e.val, placed := true })
    (deep : block = false → Maps r alloc (fun va => va / S = x / S) (entryView walk stop) below x n)
    (same : ∀ e e', below e = .ok e' → ¬ (e.val ≠ 0 ∧ e.val ≠ e'.val)) :
    Maps r alloc (fun va => va / (S * ptrsPerTable) = x / (S * ptrsPerTable)) (tableView S walk stop)
      (entryRound S block below (x / S % ptrsPerTable) (r.physAt x) prot) x n := by
  cases block with
  | true =>
      refine (huge rfl).update inside (fun t t' made => entryRound_ok made) (fun t e ready made => ?_)
      have zero : (t (x / S % ptrsPerTable)).val = 0 := by
        have := (ready x le_rfl lt).1
        simp only [tableView] at this
        rwa [at_block rfl] at this
      exact ⟨_, by simp only [entryRound, if_true, made, bind, Except.bind, zero, safe_zero]; rfl⟩
  | false =>
      refine (deep rfl).update inside (fun t t' made => entryRound_ok made) (fun t e _ made => ?_)
      exact ⟨_, by
        simp only [entryRound, Bool.false_eq_true, if_false, made, bind, Except.bind, if_neg (same _ _ made)]
        rfl⟩

end

end Miracle.Mmu
