import Miracle.Idr.Lookup

/-! # Finding the next id

`radix_tree_next_chunk` finds the next slot that is not empty, so ids with the pointer `NULL` are passed.
-/

namespace Miracle.Idr

open RadixTree BitScan

/-- The id is in use with a pointer that is not `NULL`. -/
def Populated (e : Entry) (i : Nat) : Prop := ∃ ptr, contents e i = some ptr ∧ ptr ≠ 0

theorem not_populated_null (i : Nat) : ¬ Populated .null i := nofun

theorem Good.populated_slot {k : Nat} {e : Entry} (good : Good (k + 1) e) (i : Nat) :
    Populated e i ↔ Populated (e.slot (i / span (k + 1) % radixTreeMapSize)) i := by
  rw [Populated, Populated, good.contents_slot]

/-- What a walk from `i` in a node of level `k` finds. -/
def ChunkOk (k n : Nat) (e : Entry) (i : Nat) : Chunk → Prop
  | .found j slot => i ≤ j ∧ j / span (k + 1) = i / span (k + 1) ∧ slot = digits (n + k + 1) j ∧ Populated e j ∧
      ∀ x, i ≤ x → x < j → ¬ Populated e x
  | .restart j => i < j ∧ j ≤ (i / span (k + 1) + 1) * span (k + 1) ∧ ∀ x, i ≤ x → x < j → ¬ Populated e x
  | .ended => False
  | .wild => False

/-- The next filled slot of a node. -/
theorem nextFilled_spec (slots : Nat → Entry) {offset : Nat} (lt : offset < radixTreeMapSize) :
    nextFilled slots (offset + 1) ≤ radixTreeMapSize ∧ offset < nextFilled slots (offset + 1) ∧
      (nextFilled slots (offset + 1) < radixTreeMapSize → slots (nextFilled slots (offset + 1)) ≠ .null) ∧
      ∀ j, offset < j → j < nextFilled slots (offset + 1) → slots j = .null := by
  obtain ⟨upper, lower, found, before⟩ :=
    findNext_spec (fun o => !(slots o).isNull) true radixTreeMapSize (offset + 1)
  refine ⟨upper, lower lt, ?_, ?_⟩
  · intro inside null
    have filled := found inside
    rw [nextFilled, findNextBit] at null
    simp only [null] at filled
    cases filled
  · intro j low high
    have empty := before j low high
    simpa [Entry.isNull_iff] using empty

/-- The slots of a node before `next` hold no pointer, from the one of `i` on. -/
theorem Good.hole {k i next : Nat} {e : Entry} (good : Good k e) (le : next ≤ radixTreeMapSize)
    (empty : ∀ o, i / span k % radixTreeMapSize ≤ o → o < next → e.slot o = .null) :
    ∀ x, i ≤ x → x < (i / span (k + 1) * radixTreeMapSize + next) * span k → ¬ Populated e x := by
  intro x low high populated
  have lowSlot : i / span k ≤ x / span k := Nat.div_le_div_right low
  have highSlot : x / span k < i / span (k + 1) * radixTreeMapSize + next :=
    (Nat.div_lt_iff_lt_mul (span_pos k)).mpr high
  rw [div_span_succ] at highSlot
  have digit : i / span k % radixTreeMapSize ≤ x / span k % radixTreeMapSize ∧ x / span k % radixTreeMapSize < next := by
    simp only [radixTreeMapSize] at *
    omega
  have null := empty _ digit.1 digit.2
  cases good with
  | null => exact not_populated_null x populated
  | leaf items counted =>
      obtain ⟨ptr, used, nonzero⟩ := populated
      rw [contents_leaf] at used
      rw [span, Nat.pow_zero, Nat.div_one, Entry.slot] at null
      split at used
      · cases used
      · rw [null] at used
        cases used
        exact nonzero rfl
  | inner below shown counted =>
      obtain ⟨ptr, used, -⟩ := populated
      rw [contents, if_neg (by simp [radixTreeMapShift]), descend_eq] at used
      rw [Entry.slot] at null
      rw [null] at used
      cases used

/-- A walk goes on in a child. -/
theorem ChunkOk.parent {k n i i' : Nat} {e : Entry} {chunk : Chunk} (good : Good (k + 1) e) (le : i ≤ i')
    (same : i' / span (k + 1 + 1) = i / span (k + 1 + 1)) (passed : ∀ x, i ≤ x → x < i' → ¬ Populated e x)
    (ok : ChunkOk k (n + 1) (e.slot (i' / span (k + 1) % radixTreeMapSize)) i' chunk) : ChunkOk (k + 1) n e i chunk := by
  have inChild {x : Nat} (low : i' ≤ x) (high : x / span (k + 1) ≤ i' / span (k + 1)) :
      Populated e x ↔ Populated (e.slot (i' / span (k + 1) % radixTreeMapSize)) x := by
    have low' : i' / span (k + 1) ≤ x / span (k + 1) := Nat.div_le_div_right low
    rw [good.populated_slot, Nat.le_antisymm high low']
  cases chunk with
  | found j slot =>
      obtain ⟨first, high, path, populated, before⟩ := ok
      refine ⟨le.trans first, ?_, ?_, (inChild first high.le).mpr populated, ?_⟩
      · rw [div_span_succ, high, ← div_span_succ, same]
      · rw [path]
        congr 1
        omega
      · intro x low less
        by_cases early : x < i'
        · exact passed x low early
        · have low' := Nat.not_lt.mp early
          rw [inChild low' ((Nat.div_le_div_right less.le).trans high.le)]
          exact before x low' less
  | restart j =>
      obtain ⟨more, bound, before⟩ := ok
      refine ⟨le.trans_lt more, ?_, ?_⟩
      · rw [← same, div_span_succ i', span_succ (k + 1), ← Nat.mul_assoc]
        refine bound.trans (Nat.mul_le_mul_right _ ?_)
        simp only [radixTreeMapSize]
        omega
      · intro x low less
        by_cases early : x < i'
        · exact passed x low early
        · have low' := Nat.not_lt.mp early
          have high : x / span (k + 1) ≤ i' / span (k + 1) := by
            apply Nat.le_of_lt_succ
            exact (Nat.div_lt_iff_lt_mul (span_pos _)).mpr (less.trans_le bound)
          rw [inChild low' high]
          exact before x low' less
  | ended => exact ok
  | wild => exact ok

theorem span_le {k : Nat} (low : k ≤ 5) : span (k + 1) ≤ 2 ^ 36 := by
  have le : span (k + 1) ≤ span 6 := Nat.pow_le_pow_right (by decide) (by omega)
  exact le.trans (by decide)

/-- The index after a hole does not overflow. -/
theorem next_bounds {k i next : Nat} (low : k ≤ 5) (small : i < 2 ^ 40) (le : next ≤ radixTreeMapSize)
    (later : i / span k % radixTreeMapSize < next) :
    nextIndex i (radixTreeMapShift * k) next % 2 ^ 64 = (i / span (k + 1) * radixTreeMapSize + next) * span k ∧
      i < (i / span (k + 1) * radixTreeMapSize + next) * span k := by
  have eq := nextIndex_eq i k next
  rw [← div_span_succ] at eq
  have more : i < nextIndex i (radixTreeMapShift * k) next := lt_nextIndex (by rwa [descend_eq])
  have bound := span_le low
  have top : nextIndex i (radixTreeMapShift * k) next ≤ i + span (k + 1) := by
    rw [eq]
    calc (i / span (k + 1) * radixTreeMapSize + next) * span k
        ≤ (i / span (k + 1) * radixTreeMapSize + radixTreeMapSize) * span k := by gcongr
      _ = i / span (k + 1) * span (k + 1) + span (k + 1) := by rw [span_succ]; ring
      _ ≤ i + span (k + 1) := by
          have floor := Nat.div_mul_le_self i (span (k + 1))
          omega
  rw [Nat.mod_eq_of_lt (by omega), ← eq]
  exact ⟨rfl, more⟩

/-- A slot of a leaf that is not empty. -/
theorem Good.populated_leaf {count i : Nat} {tags : Nat → Bitmap} {slots : Nat → Entry}
    (good : Good 0 (.node (radixTreeMapShift * 0) count tags slots)) (filled : slots (i % radixTreeMapSize) ≠ .null) :
    Populated (.node (radixTreeMapShift * 0) count tags slots) i := by
  cases good with
  | leaf items counted =>
      obtain ⟨p, item, zero⟩ := items _ (Nat.mod_lt i (by decide))
      have nonzero : p ≠ 0 := by
        rintro rfl
        exact filled item
      refine ⟨p, ?_, nonzero⟩
      rw [contents_leaf, if_neg (mt zero nonzero), item]
      rfl

theorem descend_leaf (i : Nat) : descend (radixTreeMapShift * 0) i = i % radixTreeMapSize := by
  rw [descend_eq, span, Nat.pow_zero, Nat.div_one]

/-- The walk in a leaf. -/
theorem chunkWalk_leaf {n i count : Nat} {tags : Nat → Bitmap} {slots : Nat → Entry}
    (good : Good 0 (.node (radixTreeMapShift * 0) count tags slots)) (small : i < 2 ^ 40) :
    ChunkOk 0 n (.node (radixTreeMapShift * 0) count tags slots) i
      (chunkWalk i (.node (radixTreeMapShift * 0) count tags slots) (digits n (i / span (0 + 1)))) := by
  have lt := Nat.mod_lt i (show radixTreeMapSize > 0 by decide)
  have last (child : Entry) : lastNode (radixTreeMapShift * 0) child = true := rfl
  have zero : span 0 = 1 := rfl
  rw [chunkWalk, descend_leaf]
  by_cases null : (slots (i % radixTreeMapSize)).isNull = true
  · rw [if_pos null]
    obtain ⟨le, later, found, empty⟩ := nextFilled_spec slots lt
    obtain ⟨index, more⟩ := @next_bounds 0 i _ (by decide) small le (by rwa [zero, Nat.div_one])
    have hole := good.hole (i := i) le (by
      intro o low high
      rw [zero, Nat.div_one] at low
      rcases Nat.eq_or_lt_of_le low with rfl | above
      · exact Entry.isNull_iff.mp null
      · exact empty o above high)
    simp only [index, zero, span_one, Nat.mul_one] at more hole ⊢
    rw [if_neg (by omega)]
    split
    · rename_i full
      refine ⟨more, ?_, hole⟩
      rw [full, span_one]
      simp only [radixTreeMapSize]
      omega
    · rename_i room
      have inside : nextFilled slots (i % radixTreeMapSize + 1) < radixTreeMapSize := by omega
      have filled := found inside
      rw [if_pos (last _), nextIndex_eq, zero, Nat.mul_one, Nat.div_one, Nat.add_zero]
      have high : (i / radixTreeMapSize * radixTreeMapSize + nextFilled slots (i % radixTreeMapSize + 1)) /
          radixTreeMapSize = i / radixTreeMapSize := by
        simp only [radixTreeMapSize] at inside ⊢
        omega
      rw [high]
      refine ⟨more.le, by rw [span_one, high], ?_, ?_, hole⟩
      · rw [Nat.add_zero, digits_succ n _ _ inside]
      · apply good.populated_leaf
        rwa [Nat.mul_add_mod_self_right, Nat.mod_eq_of_lt inside]
  · rw [if_neg null, if_pos (last _), nextIndex_eq, zero, Nat.mul_one, Nat.div_one, Nat.add_zero, Nat.div_add_mod']
    refine ⟨le_rfl, rfl, ?_, good.populated_leaf (mt Entry.isNull_iff.mpr null), fun x low high => absurd low (by omega)⟩
    rw [Nat.add_zero, span_one]
    rfl

/-- The loop goes on at a child above the leaves. -/
theorem lastNode_inner {k : Nat} {child : Entry} (isNode : child.IsNode) :
    lastNode (radixTreeMapShift * (k + 1)) child = false := by
  obtain ⟨shift, count, tags, slots, rfl⟩ := isNode
  have positive : radixTreeMapShift * (k + 1) ≠ 0 := by simp [radixTreeMapShift]
  simp [lastNode, positive]

theorem chunkWalk_ok {k : Nat} : ∀ {n i : Nat} {e : Entry}, Good k e → e.IsNode → k ≤ 5 →
    (i / span (k + 1) + 1) * span (k + 1) ≤ 2 ^ 40 → ChunkOk k n e i (chunkWalk i e (digits n (i / span (k + 1)))) := by
  have below {k i : Nat} (bound : (i / span (k + 1) + 1) * span (k + 1) ≤ 2 ^ 40) : i < 2 ^ 40 := by
    exact (Nat.lt_mul_of_div_lt (Nat.lt_succ_self _) (span_pos _)).trans_le bound
  induction k with
  | zero =>
      intro n i e good isNode _ bound
      cases good with
      | null => exact absurd rfl isNode.ne_null
      | leaf items counted => exact chunkWalk_leaf (.leaf items counted) (below bound)
  | succ k ih =>
      intro n i e good isNode low bound
      have whole := good
      cases good with
      | null => exact absurd rfl isNode.ne_null
      | @inner _ count tags slots children shown counted =>
          have lt := Nat.mod_lt (i / span (k + 1)) (show radixTreeMapSize > 0 by decide)
          -- the child at `o` is walked from `i'` on
          have enter {i' o : Nat} (le : i ≤ i') (slot : i' / span (k + 1) = i / span (k + 1 + 1) * radixTreeMapSize + o)
              (small : o < radixTreeMapSize) (filled : slots o ≠ .null)
              (passed : ∀ x, i ≤ x → x < i' → ¬ Populated (.node (radixTreeMapShift * (k + 1)) count tags slots) x) :
              ChunkOk (k + 1) n (.node (radixTreeMapShift * (k + 1)) count tags slots) i
                (if lastNode (radixTreeMapShift * (k + 1)) (slots o) then
                    .found (nextIndex i' (radixTreeMapShift * (k + 1)) 0 + o) (o :: digits n (i / span (k + 1 + 1)))
                  else chunkWalk i' (slots o) (o :: digits n (i / span (k + 1 + 1)))) := by
            have child := (children o small).null_or_isNode.resolve_left filled
            have offset : i' / span (k + 1) % radixTreeMapSize = o := by
              rw [slot, Nat.mul_add_mod_self_right, Nat.mod_eq_of_lt small]
            have high : i' / span (k + 1 + 1) = i / span (k + 1 + 1) := by
              rw [div_span_succ i', slot]
              simp only [radixTreeMapSize] at small ⊢
              omega
            rw [if_neg (by rw [lastNode_inner child]; decide)]
            have bound' : (i' / span (k + 1) + 1) * span (k + 1) ≤ 2 ^ 40 := by
              refine le_trans ?_ bound
              rw [slot]
              generalize i / span (k + 1 + 1) = q
              rw [span_succ (k + 1), ← Nat.mul_assoc]
              apply Nat.mul_le_mul_right
              simp only [radixTreeMapSize] at small ⊢
              omega
            have walked := @ih (n + 1) i' (slots o) (children o small) child (by omega) bound'
            rw [slot, digits_succ n _ o small] at walked
            apply ChunkOk.parent whole le high passed
            rw [offset]
            exact walked
          rw [chunkWalk, descend_eq]
          by_cases null : (slots (i / span (k + 1) % radixTreeMapSize)).isNull = true
          · rw [if_pos null]
            obtain ⟨le, later, found, empty⟩ := nextFilled_spec slots lt
            obtain ⟨index, more⟩ := @next_bounds (k + 1) i _ low (below bound) le later
            have hole := whole.hole (i := i) le (by
              intro o low high
              rcases Nat.eq_or_lt_of_le low with rfl | above
              · exact Entry.isNull_iff.mp null
              · exact empty o above high)
            simp only [index]
            rw [if_neg (by omega)]
            split
            · rename_i full
              refine ⟨more, ?_, hole⟩
              rw [full, span_succ (k + 1), ← Nat.mul_assoc]
              apply le_of_eq
              ring
            · rename_i room
              have inside : nextFilled slots (i / span (k + 1) % radixTreeMapSize + 1) < radixTreeMapSize := by omega
              exact enter more.le (Nat.mul_div_cancel _ (span_pos _)) inside (found inside) hole
          · rw [if_neg null]
            apply enter le_rfl _ lt (mt Entry.isNull_iff.mpr null) (fun x low high => absurd low (by omega))
            rw [div_span_succ i (k + 1), Nat.div_add_mod']

/-! ## The whole tree -/

def RootPopulated (root : Root) (i : Nat) : Prop := ∃ ptr, rootContents root i = some ptr ∧ ptr ≠ 0

theorem TreeOk.populated_iff {n i : Nat} {root : Root} (ok : TreeOk n root) :
    RootPopulated root i ↔ i < span (n + 1) ∧ Populated root.head i := by
  rw [RootPopulated, Populated]
  simp only [ok.contents_eq]
  constructor
  · rintro ⟨ptr, used, nonzero⟩
    split at used
    · rename_i inside
      exact ⟨inside, ptr, used, nonzero⟩
    · cases used
  · rintro ⟨inside, ptr, used, nonzero⟩
    exact ⟨ptr, by rw [if_pos inside, used], nonzero⟩

/-- The next id with a pointer, or none. -/
def NextOk (n : Nat) (root : Root) (i : Nat) : Option (Nat × Path) → Prop
  | none => ∀ x, i ≤ x → ¬ RootPopulated root x
  | some (j, slot) => i ≤ j ∧ slot = digits (n + 1) j ∧ RootPopulated root j ∧ ∀ x, i ≤ x → x < j → ¬ RootPopulated root x

theorem radixTreeNextChunk_ok {n : Nat} {root : Root} (ok : TreeOk n root) : ∀ rounds i : Nat, 0 < rounds →
    span (n + 1) < rounds + i → ∃ found, radixTreeNextChunk root rounds i = some found ∧ NextOk n root i found := by
  intro rounds
  induction rounds with
  | zero =>
      intro i running
      omega
  | succ rounds ih =>
      intro i _ enough
      rw [radixTreeNextChunk]
      by_cases beyond : i > maxindex root.head
      · rw [if_pos beyond]
        refine ⟨none, rfl, ?_⟩
        rintro x low ⟨ptr, used, -⟩
        rw [rootContents, if_neg (by omega)] at used
        cases used
      · rw [if_neg beyond]
        rcases ok.good.null_or_isNode with null | isNode
        · rw [null]
          refine ⟨none, rfl, ?_⟩
          intro x low populated
          rw [ok.populated_iff, null] at populated
          exact not_populated_null x populated.2
        · have last := ok.good.maxindex isNode
          have pos := span_pos (n + 1)
          have inside : i < span (n + 1) := by omega
          have high : i / span (n + 1) = 0 := Nat.div_eq_of_lt inside
          have walked := @chunkWalk_ok n 0 i root.head ok.good isNode ok.low (by
            have le := span_le ok.low
            rw [high]
            omega)
          rw [digits] at walked
          cases chunk : chunkWalk i root.head [] with
          | found j slot =>
              rw [chunk] at walked
              obtain ⟨low, same, path, populated, before⟩ := walked
              have inside' : j < span (n + 1) := by
                rw [high] at same
                exact (Nat.div_eq_zero_iff.mp same).resolve_left pos.ne'
              refine ⟨some (j, slot), ?_, low, ?_, ok.populated_iff.mpr ⟨inside', populated⟩, ?_⟩
              · obtain ⟨shift, count, tags, slots, head⟩ := isNode
                rw [head]
              · rw [path, Nat.zero_add]
              · intro x above below populated'
                exact before x above below (ok.populated_iff.mp populated').2
          | restart j =>
              rw [chunk] at walked
              obtain ⟨more, bound, before⟩ := walked
              obtain ⟨found, done, next⟩ := ih j (by omega) (by omega)
              refine ⟨found, ?_, ?_⟩
              · obtain ⟨shift, count, tags, slots, head⟩ := isNode
                rw [head]
                exact done
              have passed (x : Nat) (above : i ≤ x) (below : x < j) : ¬ RootPopulated root x := by
                intro populated
                exact before x above below (ok.populated_iff.mp populated).2
              cases found with
              | none =>
                  intro x above
                  by_cases early : x < j
                  · exact passed x above early
                  · exact next x (Nat.not_lt.mp early)
              | some found =>
                  obtain ⟨low, path, populated, before'⟩ := next
                  refine ⟨by omega, path, populated, ?_⟩
                  intro x above below
                  by_cases early : x < j
                  · exact passed x above early
                  · exact before' x (Nat.not_lt.mp early) below
          | ended =>
              rw [chunk] at walked
              exact walked.elim
          | wild =>
              rw [chunk] at walked
              exact walked.elim

end Miracle.Idr
