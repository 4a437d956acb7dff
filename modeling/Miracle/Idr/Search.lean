import Miracle.Idr.Grow

/-! # The search for a free id

The search passes only ids that are in use.  Its path is always the path of the id it has reached.
-/

namespace Miracle.Idr

open RadixTree BitScan

/-! ## Ids that are passed -/

/-- An entry with a free id says so. -/
theorem Good.hasFree {k : Nat} {e : Entry} (good : Good k e) {i : Nat} (free : contents e i = none) : HasFree e := by
  induction good with
  | null k => exact trivial
  | leaf items counted =>
      rw [contents, if_pos (Nat.mul_zero _)] at free
      split at free
      · rename_i tagged
        exact ⟨_, descend_lt _ i, tagged⟩
      · cases free
  | inner below shown counted ih =>
      rw [contents, if_neg (by simp [radixTreeMapShift])] at free
      exact ⟨_, descend_lt _ i, shown _ (descend_lt _ i) (ih _ (descend_lt _ i) free)⟩

/-- The ids below a slot without the tag are in use. -/
theorem Good.used {k : Nat} {e : Entry} (good : Good k e) (isNode : e.IsNode) {i : Nat}
    (untagged : e.tagGet idrFree (i / span k % radixTreeMapSize) = false) : contents e i ≠ none := by
  intro free
  cases good with
  | null => exact isNode.ne_null rfl
  | leaf items counted =>
      rw [contents, if_pos (Nat.mul_zero _), descend_eq] at free
      rw [Entry.tagGet] at untagged
      rw [untagged] at free
      cases free
  | inner below shown counted =>
      rw [contents, if_neg (by simp [radixTreeMapShift]), descend_eq] at free
      have tagged := shown _ (Nat.mod_lt _ (by decide)) ((below _ (Nat.mod_lt _ (by decide))).hasFree free)
      rw [Entry.tagGet, tagged] at untagged
      cases untagged

/-! ## The way back -/

theorem digits_succ (n q offset : Nat) (lt : offset < radixTreeMapSize) :
    digits (n + 1) (q * radixTreeMapSize + offset) = offset :: digits n q := by
  have low : (q * radixTreeMapSize + offset) % radixTreeMapSize = offset := by
    simp only [radixTreeMapSize] at *
    omega
  have high : (q * radixTreeMapSize + offset) / radixTreeMapSize = q := by
    simp only [radixTreeMapSize] at *
    omega
  rw [digits, low, high]

/-- The loop is at the path of `start`. -/
structure Walking (k : Nat) (root : Root) (start : Nat) (slot : Path) (shift : Nat) : Prop where
  ok : TreeOk k root
  lt : start < span (k + 1)
  place : ∃ j m, j + m = k + 1 ∧ shift = radixTreeMapShift * j ∧ slot = digits m (start / span j)
  inside : ∀ o p, slot = o :: p → (root.head.atPath p).IsNode
  tagged : shift = 0 → nodeTagGet root idrFree slot = true

/-- What the way back from an offset of a node of level `k` leads to, where the slot begins at `start`. -/
def Climbed (k n start offset : Nat) (root : Root) : Option (Path × Nat) → Prop
  | none => start = span (k + n + 1)
  | some (slot, shift) => start < span (k + n + 1) ∧ ∃ j m, j + (m + 1) = k + n + 1 ∧ k ≤ j ∧
      (k = j → offset < radixTreeMapSize) ∧ shift = radixTreeMapShift * j ∧ slot = digits (m + 1) (start / span j) ∧
      (root.head.atPath (digits m (start / span (j + 1)))).IsNode

theorem climb_ok {root : Root} {n : Nat} : ∀ {k q offset : Nat}, TreeOk (k + n) root →
    (root.head.atPath (digits n q)).IsNode → q < span n → offset ≤ radixTreeMapSize →
    Climbed k n ((q * radixTreeMapSize + offset) * span k) offset root
      (climb root (radixTreeMapShift * k) offset (digits n q)) := by
  have here {k n q offset : Nat} (isNode : (root.head.atPath (digits n q)).IsNode) (small : q < span n)
      (lt : offset < radixTreeMapSize) :
      Climbed k n ((q * radixTreeMapSize + offset) * span k) offset root
        (some (offset :: digits n q, radixTreeMapShift * k)) := by
    have slot : (q * radixTreeMapSize + offset) * span k / span k = q * radixTreeMapSize + offset :=
      Nat.mul_div_cancel _ (span_pos k)
    have high : (q * radixTreeMapSize + offset) * span k / span (k + 1) = q := by
      rw [div_span_succ, slot]
      simp only [radixTreeMapSize] at *
      omega
    refine ⟨lt_span (by rwa [high]), k, n, by omega, le_rfl, fun _ => lt, rfl, ?_, ?_⟩
    · rw [slot, digits_succ n q offset lt]
    · rwa [high]
  induction n with
  | zero =>
      intro k q offset ok isNode small le
      have first : q = 0 := Nat.lt_one_iff.mp small
      subst first
      rw [digits, climb]
      split
      · rename_i full
        rw [full]
        simp only [Climbed, Nat.zero_mul, Nat.zero_add, Nat.add_zero]
        rw [span_succ]
      · rename_i room
        exact here isNode small (by omega)
  | succ n ih =>
      intro k q offset ok isNode small le
      rw [digits, climb]
      split
      · rename_i full
        rw [← Nat.add_assoc, Nat.add_right_comm] at ok
        have above : (root.head.atPath (digits n (q / radixTreeMapSize))).IsNode := Entry.isNode_of_slot isNode.ne_null
        have parent := @Good.atPath n (k + 1) (q / radixTreeMapSize) root.head ok.good
        rw [parent.shift above]
        have small' : q / radixTreeMapSize < span n := by
          rw [span_succ] at small
          exact Nat.div_lt_of_lt_mul small
        have climbed := @ih (k + 1) (q / radixTreeMapSize) (q % radixTreeMapSize + 1) ok above small'
          (Nat.mod_lt _ (by decide))
        have next : (q / radixTreeMapSize * radixTreeMapSize + (q % radixTreeMapSize + 1)) * span (k + 1) =
            (q * radixTreeMapSize + offset) * span k := by
          rw [full, span_succ, ← Nat.add_assoc, Nat.div_add_mod']
          ring
        have levels : k + 1 + n + 1 = k + (n + 1) + 1 := by omega
        revert climbed
        generalize climb root (radixTreeMapShift * (k + 1)) (q % radixTreeMapSize + 1) _ = result
        cases result with
        | none =>
            intro climbed
            rw [Climbed, next, levels] at climbed
            exact climbed
        | some found =>
            obtain ⟨slot, shift⟩ := found
            rintro ⟨lt, j, m, sum, low, -, rest⟩
            rw [next, levels] at lt
            rw [next] at rest
            exact ⟨lt, j, m, by omega, by omega, fun same => by omega, rest⟩
      · rename_i room
        exact here isNode small (by omega)

/-! ## A round -/

/-- All indices from `start` to `stop` are in use. -/
def Used (root : Root) (start stop : Nat) : Prop := ∀ i, start ≤ i → i < stop → rootContents root i ≠ none

/-- What a round at a node does. -/
def TurnOk (k : Nat) (root : Root) (start max : Nat) : Turn → Prop
  | .nospc => ∃ stop, max < stop ∧ Used root start stop
  | .grow start' => start < start' ∧ start' ≤ max ∧ span (k + 1) ≤ start' ∧ Used root start start'
  | .walk start' slot shift => (start = start' ∨ start < start' ∧ start' ≤ max) ∧ Used root start start' ∧
      Walking k root start' slot shift

/-- The ids below the slots without the tag, from the one of `start` on, are in use. -/
theorem Used.slots {k n start offset : Nat} {root : Root} (ok : TreeOk (k + n) root) (lt : start < span (k + n + 1))
    (isNode : (root.head.atPath (digits n (start / span (k + 1)))).IsNode) (le : offset ≤ radixTreeMapSize)
    (untagged : ∀ o, start / span k % radixTreeMapSize ≤ o → o < offset →
      (root.head.atPath (digits n (start / span (k + 1)))).tagGet idrFree o = false) :
    Used root start ((start / span (k + 1) * radixTreeMapSize + offset) * span k) := by
  intro i low high
  have lowSlot : start / span k ≤ i / span k := Nat.div_le_div_right low
  have highSlot : i / span k < start / span (k + 1) * radixTreeMapSize + offset :=
    (Nat.div_lt_iff_lt_mul (span_pos k)).mpr high
  rw [div_span_succ] at highSlot
  have node : i / span (k + 1) = start / span (k + 1) := by
    rw [div_span_succ, div_span_succ]
    simp only [radixTreeMapSize] at *
    omega
  have inside : i < span (k + n + 1) := by
    apply lt_span
    rw [node]
    apply (Nat.div_lt_iff_lt_mul (span_pos _)).mpr
    rwa [span, span, ← Nat.pow_add, show n + (k + 1) = k + n + 1 by omega]
  rw [ok.contents_eq, if_pos inside, ok.good.contents_atPath node]
  apply ok.good.atPath.used isNode
  apply untagged
  · rw [div_span_succ, div_span_succ] at node
    simp only [radixTreeMapSize] at *
    omega
  · rw [div_span_succ, div_span_succ] at node
    simp only [radixTreeMapSize] at *
    omega

theorem turn_ok {k n start max : Nat} {root : Root} (ok : TreeOk (k + n) root) (lt : start < span (k + n + 1))
    (isNode : (root.head.atPath (digits n (start / span (k + 1)))).IsNode) :
    TurnOk (k + n) root start max
      (turn root (digits n (start / span (k + 1))) (radixTreeMapShift * k) start max) := by
  have later := turn_later root (digits n (start / span (k + 1))) (radixTreeMapShift * k) start max
  have good := @Good.atPath n k (start / span (k + 1)) root.head ok.good
  have shift := good.shift isNode
  have small : start / span (k + 1) < span n := by
    apply (Nat.div_lt_iff_lt_mul (span_pos _)).mpr
    rwa [span, span, ← Nat.pow_add, show n + (k + 1) = k + n + 1 by omega]
  revert later
  simp only [turn, shift, descend_eq, nextIndex_eq, ← div_span_succ]
  split
  · rename_i tagged
    intro _
    refine ⟨.inl rfl, fun i low high => absurd low (by omega), ok, lt, ⟨k, n + 1, by omega, rfl, ?_⟩, ?_, fun _ => tagged⟩
    · rw [digits, div_span_succ]
    · intro o p same
      cases same
      exact isNode
  · rename_i untagged
    obtain ⟨le, lower, found, before⟩ := findNext_spec
      ((root.head.atPath (digits n (start / span (k + 1)))).tagGet idrFree) true radixTreeMapSize
      (start / span k % radixTreeMapSize + 1)
    unfold findNextBit
    generalize findNext _ true radixTreeMapSize _ = offset at *
    have used : Used root start ((start / span (k + 1) * radixTreeMapSize + offset) * span k) := by
      apply Used.slots ok lt isNode le
      intro o low high
      rcases Nat.eq_or_lt_of_le low with rfl | above
      · exact Bool.eq_false_of_not_eq_true untagged
      · exact before o above high
    have climbed := climb_ok ok isNode small le
    split
    · rename_i past
      intro _
      exact ⟨_, past, used⟩
    · rename_i fits
      cases result : climb root (radixTreeMapShift * k) offset (digits n (start / span (k + 1))) with
      | none =>
          intro later
          rw [result] at climbed
          exact ⟨later.1, later.2, Nat.le_of_eq climbed.symm, used⟩
      | some found' =>
          obtain ⟨slot, shift'⟩ := found'
          intro later
          rw [result] at climbed
          obtain ⟨lt', j, m, sum, low, room, rfl, rfl, isNode'⟩ := climbed
          refine ⟨?_, used, ok, lt', ⟨j, m + 1, sum, rfl, rfl⟩, ?_, ?_⟩
          · rcases later with ⟨same, -⟩ | later
            · exact .inl same
            · exact .inr later
          · intro o p same
            rw [digits, ← div_span_succ] at same
            cases same
            exact isNode'
          · intro last
            have level : k = j := by
              simp only [radixTreeMapShift] at last
              omega
            subst level
            obtain rfl : m = n := by omega
            rw [Nat.mul_div_cancel _ (span_pos k), digits_succ m _ offset (room rfl)]
            exact found (room rfl)

/-! ## The whole search -/

/-- What a search from `start` returns: the error of a full range, the error of a failed allocation, or the least free
    index with its slot. -/
def FreeOk (mem : Memory) (root : Root) (start max : Nat) : FreeSlot → Prop
  | .error root' err => (∃ k, TreeOk k root') ∧ rootContents root' = rootContents root ∧
      (err = -enospc ∧ Used root start (max + 1) ∨
        err = -enomem ∧ Fails mem ∧ ∃ i, start ≤ i ∧ i ≤ max ∧ rootContents root i = none)
  | .slot root' slot index => ∃ k, TreeOk k root' ∧ rootContents root' = rootContents root ∧ start ≤ index ∧ index ≤ max ∧
      Used root start index ∧ index < span (k + 1) ∧ slot = digits (k + 1) index ∧
      (root'.head.atPath (digits k (index / radixTreeMapSize))).IsNode ∧ nodeTagGet root' idrFree slot = true

theorem Used.trans {root : Root} {start mid stop : Nat} (first : Used root start mid) (second : Used root mid stop) :
    Used root start stop := by
  intro i low high
  by_cases early : i < mid
  · exact first i low early
  · exact second i (Nat.not_lt.mp early) high

/-- A search that goes on after some ids in use, in a tree of the same ids. -/
theorem FreeOk.before {mem mem' : Memory} {root root' : Root} {start start' max : Nat} {result : FreeSlot}
    (ok : FreeOk mem' root' start' max result) (same : rootContents root' = rootContents root)
    (memory : Fails mem' → Fails mem) (le : start ≤ start') (used : Used root start start') :
    FreeOk mem root start max result := by
  have used' {stop : Nat} (rest : Used root' start' stop) : Used root start stop := by
    apply used.trans
    simpa only [Used, same] using rest
  cases result with
  | error root'' err =>
      obtain ⟨ok', same', outcome⟩ := ok
      refine ⟨ok', same'.trans same, ?_⟩
      rcases outcome with ⟨full, all⟩ | ⟨none, fails, i, low, high, free⟩
      · exact .inl ⟨full, used' all⟩
      · refine .inr ⟨none, memory fails, i, le.trans low, high, ?_⟩
        rw [← same]
        exact free
  | slot root'' slot index =>
      obtain ⟨k, ok', same', low, high, all, rest⟩ := ok
      exact ⟨k, ok', same'.trans same, le.trans low, high, used' all, rest⟩

/-- Above the leaves the loop is at a slot of some level. -/
theorem Walking.above {k start shift : Nat} {root : Root} {slot : Path} (walking : Walking k root start slot shift)
    (pos : ¬ shift = 0) :
    ∃ j m, k = j + m ∧ shift - radixTreeMapShift = radixTreeMapShift * j ∧ slot = digits m (start / span (j + 1)) := by
  obtain ⟨j, m, sum, rfl, rfl⟩ := walking.place
  cases j with
  | zero => exact absurd (Nat.mul_zero _) pos
  | succ j => exact ⟨j, m, by omega, rfl, rfl⟩

theorem Walking.turn {k start shift : Nat} {root : Root} {slot : Path} (walking : Walking k root start slot shift)
    (pos : ¬ shift = 0) (isNode : (root.head.atPath slot).IsNode) (max : Nat) :
    TurnOk k root start max (turn root slot (shift - radixTreeMapShift) start max) := by
  obtain ⟨j, m, rfl, lower, rfl⟩ := walking.above pos
  rw [lower]
  exact turn_ok walking.ok walking.lt isNode

theorem Walking.addChild {k start shift : Nat} {root : Root} {slot : Path} (walking : Walking k root start slot shift)
    (pos : ¬ shift = 0) (empty : root.head.atPath slot = .null) :
    Walking k (addChild root slot (shift - radixTreeMapShift)) start slot shift ∧
      rootContents (Idr.addChild root slot (shift - radixTreeMapShift)) = rootContents root ∧
      ((Idr.addChild root slot (shift - radixTreeMapShift)).head.atPath slot).IsNode := by
  obtain ⟨j, m, rfl, lower, rfl⟩ := walking.above pos
  have small : start / span (j + 1) < span m := by
    apply (Nat.div_lt_iff_lt_mul (span_pos _)).mpr
    have lt := walking.lt
    rwa [span, show j + m + 1 = m + (j + 1) by omega, Nat.pow_add] at lt
  rw [lower]
  obtain ⟨ok, same, isNode⟩ := addChild_ok walking.ok small empty walking.inside
  refine ⟨⟨ok, walking.lt, walking.place, ?_, fun zero => absurd zero pos⟩, same, isNode⟩
  intro o p eq
  rw [eq] at isNode ⊢
  exact Entry.isNode_of_slot isNode.ne_null

/-- The id that the loop has reached is free if its slot is empty. -/
theorem Walking.free {k start shift : Nat} {root : Root} {slot : Path} (walking : Walking k root start slot shift)
    (pos : ¬ shift = 0) (empty : root.head.atPath slot = .null) : rootContents root start = none := by
  obtain ⟨j, m, rfl, lower, rfl⟩ := walking.above pos
  rw [walking.ok.contents_eq, if_pos walking.lt, walking.ok.good.contents_atPath rfl, empty]
  rfl

/-- Without the tag at the root the whole tree is in use. -/
theorem TreeOk.used {k : Nat} {root : Root} (ok : TreeOk k root) (start : Nat) :
    Used root start (if root.tags idrFree then start else Nat.max start (maxindex root.head + 1)) := by
  intro i low high free
  split at high
  · omega
  · rename_i untagged
    have inside : i ≤ maxindex root.head := by
      have high : i < max start (maxindex root.head + 1) := high
      omega
    rw [rootContents, if_pos inside] at free
    exact untagged (ok.shown (ok.good.hasFree free))

theorem le_begin (root : Root) (start last : Nat) :
    start ≤ if root.tags idrFree then start else Nat.max start (last + 1) := by
  split
  · exact le_rfl
  · exact Nat.le_max_left ..

theorem Walking.top {k start : Nat} {root : Root} (ok : TreeOk k root) (lt : start < span (k + 1)) :
    Walking k root start [] (radixTreeMapShift * (k + 1)) := by
  refine ⟨ok, lt, ⟨k + 1, 0, rfl, rfl, rfl⟩, nofun, ?_⟩
  intro zero
  simp only [radixTreeMapShift] at zero
  omega

theorem TreeOk.walking {k start : Nat} {root : Root} (ok : TreeOk k root) (inside : start ≤ maxindex root.head) :
    ∃ l, Walking l root start []
      (if start = 0 ∧ rootShift root.head = 0 then radixTreeMapShift else rootShift root.head) := by
  rcases ok.good.null_or_isNode with null | isNode
  · rw [null] at inside
    obtain rfl : start = 0 := Nat.le_zero.mp inside
    rw [null, if_pos ⟨rfl, rfl⟩]
    refine ⟨0, Walking.top ⟨?_, ok.shown, ok.isIdr, by decide⟩ (span_pos 1)⟩
    rw [null]
    exact .null 0
  · rw [rootShift_eq ok.good isNode, if_neg (by simp [radixTreeMapShift])]
    rw [ok.good.maxindex isNode] at inside
    have pos := span_pos (k + 1)
    exact ⟨k, Walking.top ok (by omega)⟩

/-- Where the search stands. -/
def Placed (root : Root) (start max : Nat) : Label → Prop
  | .grow => ∃ k, TreeOk k root
  | .walk slot shift => start ≤ max ∧ ∃ k, Walking k root start slot shift

theorem idrGetFreeFrom_ok {mem : Memory} {root : Root} {start max : Nat} {label : Label} (small : max < span 6)
    (placed : Placed root start max label) : FreeOk mem root start max (idrGetFreeFrom mem root start max label) := by
  fun_induction idrGetFreeFrom mem root start max label with
  | case1 mem root start last start' past =>
      obtain ⟨k, ok⟩ := placed
      have used : Used root start start' := ok.used start
      refine ⟨⟨k, ok⟩, rfl, .inl ⟨rfl, ?_⟩⟩
      intro i low high
      exact used i low (by omega)
  | case2 mem root start last start' fits root' mem' failed =>
      obtain ⟨k, ok⟩ := placed
      have le : start ≤ start' := le_begin root start last
      split at failed
      · rename_i beyond
        obtain ⟨root1, shift, mem1, l, result, grown, -, fails⟩ := @radixTreeExtend_ok mem root k start' ok beyond (by omega)
        cases failed.symm.trans result
        refine ⟨⟨l, grown.ok⟩, grown.same, .inr ⟨rfl, fails rfl, start', le, Nat.not_lt.mp fits, ?_⟩⟩
        rw [rootContents, if_neg (Nat.not_le.mpr beyond)]
      · cases failed
  | case3 mem root start last start' fits root' shift mem' done ih =>
      obtain ⟨k, ok⟩ := placed
      have le : start ≤ start' := le_begin root start last
      have used : Used root start start' := ok.used start
      split at done
      · rename_i beyond
        obtain ⟨root1, shift1, mem1, l, result, grown, reached, -⟩ := @radixTreeExtend_ok mem root k start' ok beyond (by omega)
        cases done.symm.trans result
        obtain ⟨rfl, lt⟩ := reached shift rfl
        refine (ih ⟨Nat.not_lt.mp fits, l, ?_⟩).before grown.same grown.memory le used
        rw [dif_neg (by simp [radixTreeMapShift])]
        exact Walking.top grown.ok lt
      · rename_i inside
        cases done
        exact (ih ⟨Nat.not_lt.mp fits, ok.walking (Nat.not_lt.mp inside)⟩).before rfl id le used
  | case4 mem root start slot =>
      obtain ⟨le, k, walking⟩ := placed
      obtain ⟨j, m, sum, zero, rfl⟩ := walking.place
      obtain rfl : j = 0 := by
        simp only [radixTreeMapShift] at zero
        omega
      obtain rfl : m = k + 1 := by omega
      have whole : start / span 0 = start := Nat.div_one start
      have inside := walking.inside _ _ rfl
      have tagged := walking.tagged rfl
      rw [whole] at inside tagged ⊢
      exact ⟨k, walking.ok, rfl, le_rfl, le, fun i low high => absurd low (by omega), walking.lt, rfl, inside, tagged⟩
  | case5 mem root start slot shift pos p entry filled =>
      obtain ⟨le, k, walking⟩ := placed
      obtain ⟨j, m, rfl, -, rfl⟩ := walking.above pos
      have good := @Good.atPath m j (start / span (j + 1)) root.head walking.ok.good
      rw [entry] at good
      cases good
      exact absurd rfl filled
  | case6 mem root start slot shift pos p entry zero memory root' result =>
      obtain ⟨le, k, walking⟩ := placed
      obtain rfl := not_not.mp zero
      obtain ⟨walking', same, isNode⟩ := walking.addChild pos entry
      have turned := walking'.turn pos isNode max
      rw [result] at turned
      obtain ⟨stop, past, used⟩ := turned
      refine ⟨⟨k, walking'.ok⟩, same, .inl ⟨rfl, ?_⟩⟩
      intro i low high
      rw [← same]
      exact used i low (by omega)
  | case7 mem root start slot shift pos p entry zero memory root' start' result ih =>
      obtain ⟨le, k, walking⟩ := placed
      obtain rfl := not_not.mp zero
      obtain ⟨walking', same, isNode⟩ := walking.addChild pos entry
      have turned := walking'.turn pos isNode max
      rw [result] at turned
      obtain ⟨lt, -, -, used⟩ := turned
      exact (ih ⟨k, walking'.ok⟩).before same fails_of_rest lt.le (by simpa only [Used, same] using used)
  | case8 mem root start slot shift pos p entry zero memory root' start' slot' shift' result ih =>
      obtain ⟨le, k, walking⟩ := placed
      obtain rfl := not_not.mp zero
      obtain ⟨walking', same, isNode⟩ := walking.addChild pos entry
      have turned := walking'.turn pos isNode max
      rw [result] at turned
      obtain ⟨later, used, walking''⟩ := turned
      refine (ih ⟨?_, k, walking''⟩).before same fails_of_rest ?_ (by simpa only [Used, same] using used)
      · omega
      · omega
  | case9 mem root start slot shift pos p entry zero memory =>
      obtain ⟨le, k, walking⟩ := placed
      obtain rfl := not_not.mp zero
      have fails : Fails mem := ⟨0, Bool.eq_false_of_not_eq_true memory⟩
      exact ⟨⟨k, walking.ok⟩, rfl, .inr ⟨rfl, fails, start, le_rfl, le, walking.free pos entry⟩⟩
  | case10 mem root start slot shift pos shift1 count tags slots entry result =>
      obtain ⟨le, k, walking⟩ := placed
      have turned := walking.turn pos ⟨_, _, _, _, entry⟩ max
      rw [result] at turned
      obtain ⟨stop, past, used⟩ := turned
      exact ⟨⟨k, walking.ok⟩, rfl, .inl ⟨rfl, fun i low high => used i low (by omega)⟩⟩
  | case11 mem root start slot shift pos shift1 count tags slots entry start' result ih =>
      obtain ⟨le, k, walking⟩ := placed
      have turned := walking.turn pos ⟨_, _, _, _, entry⟩ max
      rw [result] at turned
      obtain ⟨lt, -, -, used⟩ := turned
      exact (ih ⟨k, walking.ok⟩).before rfl id lt.le used
  | case12 mem root start slot shift pos shift1 count tags slots entry start' slot' shift' result ih =>
      obtain ⟨le, k, walking⟩ := placed
      have turned := walking.turn pos ⟨_, _, _, _, entry⟩ max
      rw [result] at turned
      obtain ⟨later, used, walking'⟩ := turned
      refine (ih ⟨?_, k, walking'⟩).before rfl id ?_ used
      · omega
      · omega

theorem idrGetFree_ok {k : Nat} {root : Root} (ok : TreeOk k root) (mem : Memory) (start : Nat) {max : Nat}
    (small : max < span 6) : FreeOk mem root start max (idrGetFree mem root start max) :=
  idrGetFreeFrom_ok small ⟨k, ok⟩

end Miracle.Idr
