import Miracle.Mmu.Target

/-! # The effect of a part of a mapping

For an address the code goes down the tables to the entry that it writes, or to an empty entry
above it.  Writing a part of the range changes the translation there, unless the change of a
block entry is refused, and nothing elsewhere.
-/

namespace Miracle.Mmu

/-- The entry where the way down for an address ends, and whether it is the one to write. -/
structure Stop where
  value : U64
  placed : Bool

def pteStop (ptes : Nat → Pte) (va : Nat) : Stop := { value := ptes (pteIndex va), placed := true }

def pmdStop (r : Request) : Pmd → Nat → Stop
  | .leaf v, va => { value := v, placed := r.useSection va }
  | .table pa ptes, va =>
      if r.useSection va then { value := pa ||| typeTable, placed := true } else pteStop ptes va

def pudStop (r : Request) : Pud → Nat → Stop
  | .leaf v, va => { value := v, placed := r.useBlock va }
  | .table pa pmds, va =>
      if r.useBlock va then { value := pa ||| typeTable, placed := true } else pmdStop r (pmds (pmdIndex va)) va

def pgdStop (r : Request) : Pgd → Nat → Stop
  | .leaf v, _ => { value := v, placed := false }
  | .table _ puds, va => pudStop r (puds (pudIndex va)) va

def stop (r : Request) (pgdir : Nat → Pgd) (va : Nat) : Stop := pgdStop r (pgdir (pgdIndex va)) va

/-- The entry for the address is a block. -/
def Request.Blocky (r : Request) (va : Nat) : Prop := r.useBlock va = true ∨ r.useSection va = true

/-- The change of a block entry is not one that the code makes. -/
def Request.Refuses (r : Request) (va : Nat) (s : Stop) : Prop :=
  r.Blocky va ∧ pgattrChangeIsSafe s.value (r.entry va) = false

/-- What is known of an address once its part of the range was written. -/
structure Passed (r : Request) (alloc : Bool) (va : Nat) (s : Stop) : Prop where
  page : ¬ r.Blocky va → pgattrChangeIsSafe s.value (r.entry va) = true
  missing : s.placed = false → s.value = 0 ∧ alloc = true

/-- The way down for other addresses may only get longer, through a table that was missing. -/
structure Kept (alloc : Bool) (s s' : Stop) : Prop where
  value : s'.value = s.value
  placed : s'.placed = s.placed ∨ (s.placed = false ∧ s.value = 0 ∧ alloc = true)

/-- A state as it is seen from the addresses. -/
structure View where
  walk : Nat → Translation
  stop : Nat → Stop

/-- The part `[a, n)` was written; `D` are the addresses that the state is about. -/
structure Step (r : Request) (alloc : Bool) (D : Nat → Prop) (v v' : View) (a n : Nat) : Prop where
  refused : ∀ va, D va → a ≤ va → va < n → r.Refuses va (v.stop va) → v'.walk va = v.walk va
  written : ∀ va, D va → a ≤ va → va < n → ¬ r.Refuses va (v.stop va) → v'.walk va = r.want va
  passed : ∀ va, D va → a ≤ va → va < n → Passed r alloc va (v.stop va)
  walk : ∀ va, D va → va < a ∨ n ≤ va → v'.walk va = v.walk va
  kept : ∀ va, D va → va < a ∨ n ≤ va → Kept alloc (v.stop va) (v'.stop va)

variable {r : Request} {alloc : Bool} {D : Nat → Prop}

theorem Kept.refl (alloc : Bool) (s : Stop) : Kept alloc s s := ⟨rfl, .inl rfl⟩

theorem Kept.trans {s s' s'' : Stop} (h : Kept alloc s s') (h' : Kept alloc s' s'') : Kept alloc s s'' := by
  refine ⟨h'.value.trans h.value, ?_⟩
  obtain same | ⟨before, zero, given⟩ := h.placed
  · obtain same' | ⟨before, zero, given⟩ := h'.placed
    · exact .inl (same'.trans same)
    · exact .inr ⟨same ▸ before, h.value ▸ zero, given⟩
  · exact .inr ⟨before, zero, given⟩

theorem Kept.refuses_iff {s s' : Stop} (h : Kept alloc s s') (va : Nat) : r.Refuses va s' ↔ r.Refuses va s := by
  simp only [Request.Refuses, h.value]

theorem Kept.passed {s s' : Stop} (h : Kept alloc s s') {va : Nat} (after : Passed r alloc va s') :
    Passed r alloc va s := by
  refine ⟨fun page => h.value ▸ after.page page, fun missing => ?_⟩
  obtain same | ⟨-, zero, given⟩ := h.placed
  · obtain ⟨zero, given⟩ := after.missing (same.trans missing)
    exact ⟨h.value ▸ zero, given⟩
  · exact ⟨zero, given⟩

/-- Two parts that meet. -/
theorem Step.trans {v v' v'' : View} {a m n : Nat} (h : Step r alloc D v v' a m) (h' : Step r alloc D v' v'' m n)
    (low : a ≤ m) (high : m ≤ n) : Step r alloc D v v'' a n := by
  refine ⟨fun va d start finish refuses => ?_, fun va d start finish accepts => ?_, fun va d start finish => ?_,
    fun va d out => ?_, fun va d out => ?_⟩
  · by_cases first : va < m
    · exact (h'.walk va d (.inl first)).trans (h.refused va d start first refuses)
    · have kept := h.kept va d (.inr (Nat.not_lt.mp first))
      exact (h'.refused va d (Nat.not_lt.mp first) finish ((kept.refuses_iff va).mpr refuses)).trans
        (h.walk va d (.inr (Nat.not_lt.mp first)))
  · by_cases first : va < m
    · exact (h'.walk va d (.inl first)).trans (h.written va d start first accepts)
    · have kept := h.kept va d (.inr (Nat.not_lt.mp first))
      exact h'.written va d (Nat.not_lt.mp first) finish (fun refuses => accepts ((kept.refuses_iff va).mp refuses))
  · by_cases first : va < m
    · exact h.passed va d start first
    · exact (h.kept va d (.inr (Nat.not_lt.mp first))).passed (h'.passed va d (Nat.not_lt.mp first) finish)
  · exact (h'.walk va d (by omega)).trans (h.walk va d (by omega))
  · exact (h.kept va d (by omega)).trans (h'.kept va d (by omega))

/-! ## Functions that write a part -/

/-- Nothing stands in the way of an address. -/
def Ready (alloc : Bool) (s : Stop) : Prop := s.value = 0 ∧ (alloc = true ∨ s.placed = true)

theorem Kept.ready {s s' : Stop} (h : Kept alloc s s') (ready : Ready alloc s) : Ready alloc s' := by
  refine ⟨h.value.trans ready.1, ?_⟩
  obtain same | ⟨-, -, given⟩ := h.placed
  · rw [same]
    exact ready.2
  · exact .inl given

/-- A function writes the part `[a, n)`, and returns when nothing stands in the way. -/
structure Maps {σ : Type} (r : Request) (alloc : Bool) (D : Nat → Prop) (view : σ → View) (f : σ → Except Bug σ)
    (a n : Nat) : Prop where
  step : ∀ st st', f st = .ok st' → Step r alloc D (view st) (view st') a n
  total : ∀ st, (∀ va, a ≤ va → va < n → Ready alloc ((view st).stop va)) → ∃ st', f st = .ok st'

/-- A loop over the parts of a range. -/
theorem Maps.loop {σ : Type} {view : σ → View} {nextOf : Nat → Nat → Nat}
    {body : Nat → Nat → Nat → Nat → σ → Except Bug σ} {S a e i p : Nat} (pos : 0 < S)
    (parts : ∀ x n, Piece S a e x n → Maps r alloc D view (round body S a i p x n) x n)
    (next : ∀ x n, Piece S a e x n → nextOf x (e % 2 ^ 64) = n % 2 ^ 64)
    (inside : ∀ va, a ≤ va → va < e → D va) (lt : a < e) (le : e ≤ 2 ^ 64) (fits : p + (e - a) < 2 ^ 64)
    (enough : e ≤ (a / S + ptrsPerTable) * S) :
    Maps r alloc D view (rangeLoop nextOf body ptrsPerTable i a (e % 2 ^ 64) p) a e := by
  refine ⟨fun st st' done => ?_, fun st ready => ?_⟩
  · exact rangeLoop_ok (fun x n st st' => Step r alloc D (view st) (view st') x n) pos next
      (fun x n st st' here made => (parts x n here).step st st' made)
      (fun x m n _ _ _ low high h h' => h.trans h' low.le high.le) lt le fits done
  · refine rangeLoop_total (fun x st => ∀ va, x ≤ va → va < e → Ready alloc ((view st).stop va)) pos next
      (fun x n st here ready => ?_) lt le fits enough ready
    obtain ⟨st', made⟩ := (parts x n here).total st
      (fun va low high => ready va low (lt_of_lt_of_le high here.finish))
    refine ⟨st', made, fun va low high => ?_⟩
    have kept := ((parts x n here).step st st' made).kept va
      (inside va (here.start.trans (here.lt.le.trans low)) high) (.inr low)
    exact kept.ready (ready va (here.lt.le.trans low) high)

/-! ## Entries of a table -/

section

variable {α : Type}

/-- A table of entries as it is seen from the addresses. -/
def tableView (size : Nat) (walk : α → Nat → Translation) (stop : α → Nat → Stop) (t : Nat → α) : View where
  walk va := walk (t (va / size % ptrsPerTable)) va
  stop va := stop (t (va / size % ptrsPerTable)) va

def entryView (walk : α → Nat → Translation) (stop : α → Nat → Stop) (e : α) : View where
  walk := walk e
  stop := stop e

theorem block_of_index {size va a : Nat} (window : va / (size * ptrsPerTable) = a / (size * ptrsPerTable))
    (index : va / size % ptrsPerTable = a / size % ptrsPerTable) : va / size = a / size := by
  rw [← Nat.div_div_eq_div_mul, ← Nat.div_div_eq_div_mul] at window
  rw [← Nat.div_add_mod (va / size) ptrsPerTable, ← Nat.div_add_mod (a / size) ptrsPerTable, window, index]

/-- Writing an entry of a table. -/
theorem Step.update {size : Nat} {walk : α → Nat → Translation} {stop : α → Nat → Stop} {t : Nat → α} {e : α}
    {a n : Nat} (h : Step r alloc (fun va => va / size = a / size) (entryView walk stop (t (a / size % ptrsPerTable)))
      (entryView walk stop e) a n)
    (inside : ∀ va, a ≤ va → va < n → va / size = a / size) :
    Step r alloc (fun va => va / (size * ptrsPerTable) = a / (size * ptrsPerTable)) (tableView size walk stop t)
      (tableView size walk stop (Function.update t (a / size % ptrsPerTable) e)) a n := by
  have here {va : Nat} (index : va / size % ptrsPerTable = a / size % ptrsPerTable) {f : Nat → α} :
      f (va / size % ptrsPerTable) = f (a / size % ptrsPerTable) := by rw [index]
  have same {va : Nat} (low : a ≤ va) (high : va < n) : va / size % ptrsPerTable = a / size % ptrsPerTable := by
    rw [inside va low high]
  have elsewhere {va : Nat} (other : va / size % ptrsPerTable ≠ a / size % ptrsPerTable) :
      Function.update t (a / size % ptrsPerTable) e (va / size % ptrsPerTable) = t (va / size % ptrsPerTable) :=
    Function.update_of_ne other _ _
  refine ⟨fun va d low high => ?_, fun va d low high => ?_, fun va d low high => ?_, fun va d out => ?_,
    fun va d out => ?_⟩
  · simp only [tableView, here (same low high), Function.update_self]
    exact h.refused va (inside va low high) low high
  · simp only [tableView, here (same low high), Function.update_self]
    exact h.written va (inside va low high) low high
  · simp only [tableView, here (same low high)]
    exact h.passed va (inside va low high) low high
  · simp only [tableView]
    by_cases index : va / size % ptrsPerTable = a / size % ptrsPerTable
    · simp only [here index, Function.update_self]
      exact h.walk va (block_of_index d index) out
    · rw [elsewhere index]
  · simp only [tableView]
    by_cases index : va / size % ptrsPerTable = a / size % ptrsPerTable
    · simp only [here index, Function.update_self]
      exact h.kept va (block_of_index d index) out
    · rw [elsewhere index]
      exact .refl alloc _

end

/-- A function on an entry, applied to an entry of a table. -/
theorem Maps.update {α : Type} {S : Nat} {walk : α → Nat → Translation} {stop : α → Nat → Stop}
    {f : α → Except Bug α} {g : (Nat → α) → Except Bug (Nat → α)} {a n : Nat}
    (h : Maps r alloc (fun va => va / S = a / S) (entryView walk stop) f a n)
    (inside : ∀ va, a ≤ va → va < n → va / S = a / S)
    (made : ∀ t t', g t = .ok t' → ∃ e, f (t (a / S % ptrsPerTable)) = .ok e ∧
      t' = Function.update t (a / S % ptrsPerTable) e)
    (returns : ∀ t e, (∀ va, a ≤ va → va < n → Ready alloc ((tableView S walk stop t).stop va)) →
      f (t (a / S % ptrsPerTable)) = .ok e → ∃ t', g t = .ok t') :
    Maps r alloc (fun va => va / (S * ptrsPerTable) = a / (S * ptrsPerTable)) (tableView S walk stop) g a n := by
  refine ⟨fun t t' done => ?_, fun t ready => ?_⟩
  · obtain ⟨e, wrote, rfl⟩ := made t t' done
    exact (h.step _ _ wrote).update inside
  · obtain ⟨e, wrote⟩ := h.total (t (a / S % ptrsPerTable)) (fun va low high => by
      have := ready va low high
      simp only [tableView, inside va low high] at this
      exact this)
    exact returns t e ready wrote

/-! ## Parts of the range -/

theorem Piece.nested {S T A E a e x n : Nat} (dvd : S ∣ T) (pos : 0 < T) (outer : Piece T A E a e) (inner : Piece S a e x n) :
    Piece S A E x n := by
  obtain ⟨q, rfl⟩ := dvd
  refine ⟨outer.start.trans inner.start, inner.lt, inner.finish.trans outer.finish, ?_, ?_⟩
  · rw [inner.ends, pieceEnd, pieceEnd, outer.ends, pieceEnd]
    have same : x / (S * q) = a / (S * q) := outer.div_eq inner.start (lt_of_lt_of_le inner.lt inner.finish)
    have le : (x / S + 1) * S ≤ (a / (S * q) + 1) * (S * q) := by
      have lt : x / S + 1 ≤ (x / S / q + 1) * q := by
        have := Nat.div_add_mod (x / S) q
        have := Nat.mod_lt (x / S) (Nat.pos_of_mul_pos_left pos)
        rw [Nat.add_one_mul, Nat.mul_comm]
        omega
      calc (x / S + 1) * S ≤ (x / S / q + 1) * q * S := Nat.mul_le_mul_right S lt
        _ = (a / (S * q) + 1) * (S * q) := by
          rw [← same, Nat.div_div_eq_div_mul]
          ring
    omega
  · obtain rfl | aligned := inner.starts
    · obtain same | aligned := outer.starts
      · exact .inl same
      · exact .inr (Nat.mod_eq_zero_of_dvd ((Nat.dvd_mul_right S q).trans (Nat.dvd_of_mod_eq_zero aligned)))
    · exact .inr aligned

/-- The test of the code on a part of the range, where `n` may have wrapped. -/
theorem Request.aligned_iff_fits {k x n va : Nat} (small : k ≤ 64) (piece : Piece (2 ^ k) r.addr r.finish x n)
    (low : x ≤ va) (high : va < n) :
    (x ||| n % 2 ^ 64 ||| r.physAt x) % 2 ^ k = 0 ↔ r.Fits (2 ^ k) va := by
  have dvd : 2 ^ k ∣ 2 ^ 64 := Nat.pow_dvd_pow 2 small
  have pos := Nat.two_pow_pos k
  rw [Nat.or_mod_two_pow, Nat.or_mod_two_pow, Nat.or_eq_zero_iff, Nat.or_eq_zero_iff, Nat.mod_mod_of_dvd _ dvd,
    piece.aligned_iff pos, Fits, piece.div_eq low high, and_assoc]
  refine and_congr_right (fun start => and_congr_right (fun _ => ?_))
  have first : x / 2 ^ k * 2 ^ k = x := by
    obtain rfl | aligned := piece.starts
    · have := Nat.div_mul_le_self r.addr (2 ^ k)
      omega
    · exact Nat.div_mul_cancel (Nat.dvd_of_mod_eq_zero aligned)
  rw [first]

theorem Request.fits_congr {size va va' : Nat} (same : va / size = va' / size) : r.Fits size va ↔ r.Fits size va' := by
  simp only [Fits, same]

end Miracle.Mmu
