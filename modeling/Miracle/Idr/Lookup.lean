import Miracle.Idr.Search
import Miracle.Idr.Leaf

/-! # Looking up ids

A walk to an id in use ends at its slot, unless the slot holds the retry entry.  A walk to a free id ends at an empty slot
with the tag.
-/

namespace Miracle.Idr

open RadixTree BitScan

/-! ## The slot of an id -/

/-- The slot of an id in use. -/
structure SlotOf (n index : Nat) (root : Root) (ptr : Pointer) : Prop where
  lt : index < span (n + 1)
  isNode : (root.head.atPath (leafPath n index)).IsNode
  used : nodeTagGet root idrFree (digits (n + 1) index) = false
  item : root.head.atPath (digits (n + 1) index) = .item ptr

theorem TreeOk.slotOf {n index : Nat} {root : Root} {ptr : Pointer} (ok : TreeOk n root)
    (used : rootContents root index = some ptr) : SlotOf n index root ptr := by
  rw [ok.contents_eq] at used
  split at used
  · rename_i lt
    have atLeaf := @Good.contents_atPath n 0 (index / radixTreeMapSize) index root.head
      (by rw [Nat.zero_add]; exact ok.good) (by rw [span_one])
    rw [atLeaf, ← leafPath] at used
    have isNode : (root.head.atPath (leafPath n index)).IsNode := by
      cases entry : root.head.atPath (leafPath n index) with
      | item p =>
          rw [entry] at used
          cases used
      | node => exact ⟨_, _, _, _, rfl⟩
    obtain ⟨count, tags, slots, leaf, items, -⟩ := ok.leaf isNode
    rw [leaf, contents_leaf] at used
    split at used
    · cases used
    · rename_i untagged
      obtain ⟨p, item, -⟩ := items _ (Nat.mod_lt index (by decide))
      rw [item] at used
      cases used
      refine ⟨lt, isNode, ?_, ?_⟩
      · rw [digits_index, nodeTagGet, leaf]
        exact Bool.eq_false_of_not_eq_true untagged
      · rw [digits_index, Entry.atPath, leaf]
        exact item
  · cases used

/-! ## Walks -/

theorem Good.pointer {k : Nat} {e : Entry} (good : Good k e) : e.pointer = 0 := by
  cases good with
  | null => rfl
  | leaf => rfl
  | inner => rfl

theorem lookupWalk_used {k : Nat} {e : Entry} {i : Nat} {ptr : Pointer} (good : Good k e) (used : contents e i = some ptr)
    (valid : ptr ≠ radixTreeRetry) : ∀ n, lookupWalk i e (digits n (i / span (k + 1))) =
      .stop (digits (n + k + 1) i) (.item ptr) := by
  induction good with
  | null => cases used
  | leaf items counted =>
      intro n
      rw [contents_leaf] at used
      split at used
      · cases used
      · obtain ⟨p, item, -⟩ := items _ (Nat.mod_lt i (by decide))
        rw [item] at used
        cases used
        have offset : descend (radixTreeMapShift * 0) i = i % radixTreeMapSize := by
          rw [descend_eq, span, Nat.pow_zero, Nat.div_one]
        rw [lookupWalk, offset, item, if_neg valid, if_pos (Nat.mul_zero _), span_one]
        rfl
  | @inner k count tags slots below shown counted ih =>
      intro n
      have lt := Nat.mod_lt (i / span (k + 1)) (show radixTreeMapSize > 0 by decide)
      rw [contents, if_neg (by simp [radixTreeMapShift]), descend_eq] at used
      have deeper := ih _ lt used (n + 1)
      rw [lookupWalk, descend_eq, (below _ lt).pointer, if_neg (by decide), if_neg (by simp [radixTreeMapShift]),
        div_span_succ i (k + 1)]
      rw [digits, show n + 1 + k + 1 = n + (k + 1) + 1 by omega] at deeper
      exact deeper

theorem lookupWalk_retry {k : Nat} {e : Entry} {i : Nat} (good : Good k e) (retry : contents e i = some radixTreeRetry) :
    ∀ p, lookupWalk i e p = .retry := by
  induction good with
  | null => cases retry
  | leaf items counted =>
      intro p
      rw [contents_leaf] at retry
      split at retry
      · cases retry
      · have offset : descend (radixTreeMapShift * 0) i = i % radixTreeMapSize := by
          rw [descend_eq, span, Nat.pow_zero, Nat.div_one]
        rw [lookupWalk, offset, if_pos (Option.some.inj retry)]
  | @inner k count tags slots below shown counted ih =>
      intro p
      have lt := descend_lt (radixTreeMapShift * (k + 1)) i
      rw [contents, if_neg (by simp [radixTreeMapShift])] at retry
      rw [lookupWalk, (below _ lt).pointer, if_neg (by decide), if_neg (by simp [radixTreeMapShift])]
      exact ih _ lt retry _

/-- The slot on the path to a free id has the tag. -/
theorem TreeOk.tagged {k n i : Nat} {root : Root} (ok : TreeOk (k + n) root)
    (inside : ∀ o p, digits n (i / span (k + 1)) = o :: p → (root.head.atPath p).IsNode)
    (free : contents (root.head.atPath (digits n (i / span (k + 1)))) i = none) :
    nodeTagGet root idrFree (digits n (i / span (k + 1))) = true := by
  cases n with
  | zero => exact ok.shown (ok.good.hasFree free)
  | succ n =>
      rw [← Nat.add_assoc, Nat.add_right_comm] at ok
      have above := inside _ _ rfl
      have parent := @Good.atPath n (k + 1) (i / span (k + 1) / radixTreeMapSize) root.head ok.good
      have lt := Nat.mod_lt (i / span (k + 1)) (show radixTreeMapSize > 0 by decide)
      have has := (parent.slot lt).hasFree free
      rw [digits, nodeTagGet]
      generalize root.head.atPath (digits n (i / span (k + 1) / radixTreeMapSize)) = e at *
      cases parent with
      | null => exact absurd rfl above.ne_null
      | inner below shown counted => exact shown _ lt has

theorem lookupWalk_free {k : Nat} {root : Root} {i : Nat} : ∀ {n : Nat}, TreeOk (k + n) root →
    (∀ o p, digits n (i / span (k + 1)) = o :: p → (root.head.atPath p).IsNode) →
    contents (root.head.atPath (digits n (i / span (k + 1)))) i = none →
    ∃ slot, lookupWalk i (root.head.atPath (digits n (i / span (k + 1)))) (digits n (i / span (k + 1))) =
      .stop slot .null ∧ nodeTagGet root idrFree slot = true := by
  induction k with
  | zero =>
      intro n ok inside free
      have tagged := ok.tagged inside free
      have good := @Good.atPath n 0 (i / span (0 + 1)) root.head ok.good
      cases entry : root.head.atPath (digits n (i / span (0 + 1))) with
      | item p =>
          rw [entry] at good
          cases good
          exact ⟨_, rfl, tagged⟩
      | node shift count tags slots =>
          rw [entry] at good free
          cases good with
          | leaf items counted =>
              rw [contents_leaf] at free
              split at free
              · rename_i slotTagged
                obtain ⟨p, item, zero⟩ := items _ (Nat.mod_lt i (by decide))
                rw [zero slotTagged] at item
                have offset : descend (radixTreeMapShift * 0) i = i % radixTreeMapSize := by
                  rw [descend_eq, span, Nat.pow_zero, Nat.div_one]
                rw [lookupWalk, offset, item, if_neg (by decide), if_pos (Nat.mul_zero _)]
                refine ⟨_, rfl, ?_⟩
                rw [nodeTagGet, entry]
                exact slotTagged
              · cases free
  | succ k ih =>
      intro n ok inside free
      have tagged := ok.tagged inside free
      have good := @Good.atPath n (k + 1) (i / span (k + 1 + 1)) root.head ok.good
      cases entry : root.head.atPath (digits n (i / span (k + 1 + 1))) with
      | item p =>
          rw [entry] at good
          cases good
          exact ⟨_, rfl, tagged⟩
      | node shift count tags slots =>
          rw [entry] at good free
          cases good with
          | inner below shown counted =>
              have lt := Nat.mod_lt (i / span (k + 1)) (show radixTreeMapSize > 0 by decide)
              have child : root.head.atPath (digits (n + 1) (i / span (k + 1))) =
                  slots (i / span (k + 1) % radixTreeMapSize) := by
                rw [digits, Entry.atPath, ← div_span_succ, entry]
                rfl
              rw [contents, if_neg (by simp [radixTreeMapShift]), descend_eq] at free
              rw [lookupWalk, descend_eq, (below _ lt).pointer, if_neg (by decide),
                if_neg (by simp [radixTreeMapShift])]
              rw [show k + 1 + n = k + (n + 1) by omega] at ok
              have deeper := @ih (n + 1) ok (by
                intro o p same
                rw [digits, ← div_span_succ] at same
                cases same
                exact ⟨_, _, _, _, entry⟩) (by rwa [child])
              rw [child, digits, ← div_span_succ] at deeper
              exact deeper

/-- `__radix_tree_lookup` -/
theorem radixTreeLookup_ok {n : Nat} {root : Root} (ok : TreeOk n root) (i : Nat) :
    (rootContents root i = none → radixTreeLookup root i = some (none, .null) ∨
      ∃ slot, radixTreeLookup root i = some (some slot, .null) ∧ nodeTagGet root idrFree slot = true ∧
        i ≤ maxindex root.head) ∧
    ∀ ptr ≠ radixTreeRetry, rootContents root i = some ptr →
      radixTreeLookup root i = some (some (digits (n + 1) i), .item ptr) := by
  unfold radixTreeLookup rootContents
  by_cases beyond : i > maxindex root.head
  · rw [if_pos beyond, if_neg (Nat.not_le.mpr beyond)]
    exact ⟨fun _ => .inl rfl, nofun⟩
  · rw [if_neg beyond, if_pos (Nat.not_lt.mp beyond)]
    constructor
    · intro free
      obtain ⟨slot, walk, tagged⟩ := @lookupWalk_free n root i 0 ok nofun free
      change lookupWalk i root.head [] = _ at walk
      rw [walk]
      exact .inr ⟨slot, rfl, tagged, Nat.not_lt.mp beyond⟩
    · intro ptr valid used
      have walk := lookupWalk_used ok.good used valid 0
      rw [digits, Nat.zero_add] at walk
      rw [walk]

theorem radixTreeLookup_retry {n : Nat} {root : Root} (ok : TreeOk n root) {i : Nat}
    (retry : rootContents root i = some radixTreeRetry) : radixTreeLookup root i = none := by
  unfold rootContents at retry
  split at retry
  · rename_i inside
    rw [radixTreeLookup, if_neg (Nat.not_lt.mpr inside), lookupWalk_retry ok.good retry]
  · cases retry

theorem tagGetLoop_ok {k : Nat} {e : Entry} (good : Good k e) (i : Nat) :
    tagGetLoop idrFree i e = some (contents e i).isNone := by
  induction good with
  | null => rfl
  | @leaf count tags slots items counted =>
      have offset : descend (radixTreeMapShift * 0) i = i % radixTreeMapSize := by
        rw [descend_eq, span, Nat.pow_zero, Nat.div_one]
      rw [contents_leaf, tagGetLoop, offset]
      split
      · rename_i tagged
        obtain ⟨p, item, zero⟩ := items _ (Nat.mod_lt i (by decide))
        rw [item, zero tagged]
        rfl
      · rfl
  | @inner k count tags slots below shown counted ih =>
      have lt := descend_lt (radixTreeMapShift * (k + 1)) i
      rw [contents, if_neg (by simp [radixTreeMapShift]), tagGetLoop]
      split
      · exact ih _ lt
      · rename_i untagged
        cases used : contents (slots (descend (radixTreeMapShift * (k + 1)) i)) i with
        | none => exact absurd (shown _ lt ((below _ lt).hasFree used)) untagged
        | some ptr => rfl

/-- `radix_tree_tag_get` tells whether an id below the head is free. -/
theorem radixTreeTagGet_ok {n : Nat} {root : Root} (ok : TreeOk n root) {i : Nat} (inside : i ≤ maxindex root.head) :
    radixTreeTagGet root i idrFree = some (rootContents root i).isNone := by
  rw [radixTreeTagGet, rootContents, if_pos inside, if_neg (Nat.not_lt.mpr inside), tagGetLoop_ok ok.good]
  split
  · rfl
  · rename_i untagged
    cases used : contents root.head i with
    | none => exact absurd (ok.shown (ok.good.hasFree used)) untagged
    | some ptr => rfl

end Miracle.Idr
