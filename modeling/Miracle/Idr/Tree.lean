import Miracle.Idr.Basic

/-! # The tree of an IDR

What every node of the tree keeps: a slot with a free id below it has the tag, and the count is the number of slots that
are in use.
-/

namespace Miracle.Idr

open RadixTree BitScan

/-- Some slot of the node has the tag.  An empty slot has all its ids free. -/
def HasFree : Entry → Prop
  | .item _ => True
  | .node _ _ tags _ => ∃ o < radixTreeMapSize, tags idrFree o = true

/-- The entries of level `k` -/
inductive Good : Nat → Entry → Prop where
  | null (k : Nat) : Good k .null
  | leaf {count : Nat} {tags : Nat → Bitmap} {slots : Nat → Entry}
      (items : ∀ o < radixTreeMapSize, ∃ p, slots o = .item p ∧ (tags idrFree o = true → p = 0))
      (counted : count = slotsWith fun o => !tags idrFree o) : Good 0 (.node (radixTreeMapShift * 0) count tags slots)
  | inner {k count : Nat} {tags : Nat → Bitmap} {slots : Nat → Entry} (below : ∀ o < radixTreeMapSize, Good k (slots o))
      (shown : ∀ o < radixTreeMapSize, HasFree (slots o) → tags idrFree o = true)
      (counted : count = slotsWith fun o => !(slots o).isNull) :
      Good (k + 1) (.node (radixTreeMapShift * (k + 1)) count tags slots)

/-- The ids in use below an entry, with their pointers. -/
def contents : Entry → Nat → Option Pointer
  | .item _, _ => none
  | .node shift _ tags slots, i =>
      if shift = 0 then if tags idrFree (descend shift i) then none else some (slots (descend shift i)).pointer
      else contents (slots (descend shift i)) i

/-! ## Entries of a level -/

theorem Good.slot {k : Nat} {e : Entry} (good : Good (k + 1) e) {o : Nat} (lt : o < radixTreeMapSize) : Good k (e.slot o) := by
  cases good with
  | null => exact .null k
  | inner below shown counted => exact below o lt

theorem Good.atPath {n : Nat} : ∀ {k q : Nat} {head : Entry}, Good (k + n) head → Good k (head.atPath (digits n q)) := by
  induction n with
  | zero =>
      intro k q head good
      exact good
  | succ n ih =>
      intro k q head good
      rw [← Nat.add_assoc, Nat.add_right_comm] at good
      exact (ih good).slot (Nat.mod_lt _ (by decide))

theorem Good.contents_slot {k : Nat} {e : Entry} (good : Good (k + 1) e) (i : Nat) :
    contents e i = contents (e.slot (i / span (k + 1) % radixTreeMapSize)) i := by
  cases good with
  | null => rfl
  | inner below shown counted =>
      rw [contents, if_neg (by simp [radixTreeMapShift]), descend_eq]
      rfl

/-- The ids with the same high digits are below the entry on their path. -/
theorem Good.contents_atPath {n : Nat} : ∀ {k q i : Nat} {head : Entry}, Good (k + n) head → i / span (k + 1) = q →
    contents head i = contents (head.atPath (digits n q)) i := by
  induction n with
  | zero =>
      intro k q i head _ _
      rfl
  | succ n ih =>
      intro k q i head good high
      rw [← Nat.add_assoc, Nat.add_right_comm] at good
      have above := @ih (k + 1) (q / radixTreeMapSize) i head good (by rw [div_span_succ, high])
      rw [above, good.atPath.contents_slot, high]
      rfl

theorem contents_setSlot {k count : Nat} {tags : Nat → Bitmap} {slots : Nat → Entry} {o : Nat} {e : Entry} (i : Nat) :
    contents ((Entry.node (radixTreeMapShift * (k + 1)) count tags slots).setSlot o e) i =
      if i / span (k + 1) % radixTreeMapSize = o then contents e i
      else contents (slots (i / span (k + 1) % radixTreeMapSize)) i := by
  rw [Entry.setSlot, contents, if_neg (by simp [radixTreeMapShift]), descend_eq]
  split
  · rename_i here
    rw [here, Function.update_self]
  · rename_i there
    rw [Function.update_of_ne there]

theorem Good.contents_put {n : Nat} : ∀ {k q : Nat} {head e : Entry}, Good (k + n) head → q < span n →
    (head.atPath (digits n q)).IsNode → ∀ i < span (k + n + 1),
    contents (head.put (digits n q) e) i = if i / span (k + 1) = q then contents e i else contents head i := by
  induction n with
  | zero =>
      intro k q head e _ small _ i lt
      have first : q = 0 := Nat.lt_one_iff.mp small
      rw [if_pos (by rw [first, Nat.div_eq_of_lt lt])]
      rfl
  | succ n ih =>
      intro k q head e good small isNode i lt
      rw [← Nat.add_assoc, Nat.add_right_comm] at good
      have above : (head.atPath (digits n (q / radixTreeMapSize))).IsNode := Entry.isNode_of_slot isNode.ne_null
      have small' : q / radixTreeMapSize < span n := by
        rw [span_succ] at small
        exact Nat.div_lt_of_lt_mul small
      have lt' : i < span (k + 1 + n + 1) := by
        rwa [Nat.add_right_comm k 1 n]
      rw [digits, Entry.put, ih good small' above i lt']
      by_cases high : i / span (k + 1 + 1) = q / radixTreeMapSize
      · rw [if_pos high, good.contents_atPath high]
        have good' := @Good.atPath n (k + 1) (q / radixTreeMapSize) head good
        rw [div_span_succ] at high
        cases entry : head.atPath (digits n (q / radixTreeMapSize)) with
        | item p =>
            rw [entry] at above
            exact absurd above (by rintro ⟨_, _, _, _, same⟩; cases same)
        | node shift count tags slots =>
            rw [entry] at good'
            have inner := good'.contents_slot i
            cases good' with
            | inner below shown counted =>
                rw [contents_setSlot, inner]
                have same : i / span (k + 1) % radixTreeMapSize = q % radixTreeMapSize ↔ i / span (k + 1) = q := by
                  simp only [radixTreeMapSize] at high ⊢
                  omega
                simp only [same]
                rfl
      · rw [if_neg high, if_neg]
        rintro rfl
        exact high (div_span_succ i (k + 1))

theorem hasFree_setSlot {e e' : Entry} {o : Nat} : HasFree (e.setSlot o e') ↔ HasFree e := by
  cases e with
  | item p => exact Iff.rfl
  | node => exact Iff.rfl

/-- Another child at a slot that shows its free ids. -/
theorem Good.setSlot {k o : Nat} {e e' : Entry} (good : Good (k + 1) e) (isNode : (e.slot o).IsNode) (good' : Good k e')
    (isNode' : e'.IsNode)
    (tagged : HasFree e' → e.tagGet idrFree o = true) : Good (k + 1) (e.setSlot o e') := by
  cases good with
  | null => exact absurd rfl isNode.ne_null
  | inner below shown counted =>
      refine .inner ?_ ?_ ?_
      · intro j small
        by_cases here : j = o
        · rw [here, Function.update_self]
          exact good'
        · rw [Function.update_of_ne here]
          exact below j small
      · intro j small
        by_cases here : j = o
        · rw [here, Function.update_self]
          exact tagged
        · rw [Function.update_of_ne here]
          exact shown j small
      · rw [counted]
        apply slotsWith_congr
        intro j _
        by_cases here : j = o
        · rw [Entry.slot] at isNode
          rw [here, Function.update_self, isNode.isNull, isNode'.isNull]
        · rw [Function.update_of_ne here]

theorem Good.tagged {k o : Nat} {e : Entry} (good : Good (k + 1) e) (lt : o < radixTreeMapSize) (has : HasFree (e.slot o))
    (filled : e.slot o ≠ .null) : e.tagGet idrFree o = true := by
  cases good with
  | null => exact absurd rfl filled
  | inner below shown counted => exact shown o lt has

/-- A node may be replaced by one that has free ids only if it had some. -/
theorem Good.put {n : Nat} : ∀ {k q : Nat} {head e : Entry}, Good (k + n) head → (head.atPath (digits n q)).IsNode →
    Good k e → e.IsNode → (HasFree e → HasFree (head.atPath (digits n q))) →
    Good (k + n) (head.put (digits n q) e) ∧ (head.put (digits n q) e).IsNode ∧
      (HasFree (head.put (digits n q) e) → HasFree head) := by
  induction n with
  | zero =>
      intro k q head e _ _ good' isNode' free
      exact ⟨good', isNode', free⟩
  | succ n ih =>
      intro k q head e good isNode good' isNode' free
      rw [← Nat.add_assoc, Nat.add_right_comm] at good ⊢
      have above : (head.atPath (digits n (q / radixTreeMapSize))).IsNode := Entry.isNode_of_slot isNode.ne_null
      have parent := @Good.atPath n (k + 1) (q / radixTreeMapSize) head good
      have lt : q % radixTreeMapSize < radixTreeMapSize := Nat.mod_lt _ (by decide)
      apply ih good above
      · apply parent.setSlot isNode good' isNode'
        exact fun has => parent.tagged lt (free has) isNode.ne_null
      · obtain ⟨shift, count, tags, slots, same⟩ := above
        rw [same]
        exact ⟨_, _, _, _, rfl⟩
      · exact hasFree_setSlot.mp

/-! ## The whole tree -/

/-- The tree has at most six levels, enough for the ids of 32 bits. -/
structure TreeOk (k : Nat) (root : Root) : Prop where
  good : Good k root.head
  shown : HasFree root.head → root.tags idrFree = true
  isIdr : root.isIdr = true
  low : k ≤ 5

/-- The indices in use, with their pointers. -/
def rootContents (root : Root) (i : Nat) : Option Pointer :=
  if i ≤ maxindex root.head then contents root.head i else none

theorem Good.shift {k : Nat} {e : Entry} (good : Good k e) (isNode : e.IsNode) : e.shift = radixTreeMapShift * k := by
  cases good with
  | null => exact absurd rfl isNode.ne_null
  | leaf => rfl
  | inner => rfl

theorem Good.null_or_isNode {k : Nat} {e : Entry} (good : Good k e) : e = .null ∨ e.IsNode := by
  cases good with
  | null => exact .inl rfl
  | leaf => exact .inr ⟨_, _, _, _, rfl⟩
  | inner => exact .inr ⟨_, _, _, _, rfl⟩

theorem Good.maxindex {k : Nat} {e : Entry} (good : Good k e) (isNode : e.IsNode) :
    maxindex e = span (k + 1) - 1 := by
  have shift := good.shift isNode
  obtain ⟨_, count, tags, slots, rfl⟩ := isNode
  rw [Entry.shift] at shift
  rw [RadixTree.maxindex, shift, shiftMaxindex_eq]

theorem TreeOk.contents_eq {k : Nat} {root : Root} (ok : TreeOk k root) (i : Nat) :
    rootContents root i = if i < span (k + 1) then contents root.head i else none := by
  rcases ok.good.null_or_isNode with null | isNode
  · simp [rootContents, null, Entry.null, contents]
  · rw [rootContents, ok.good.maxindex isNode]
    have pos := span_pos (k + 1)
    have same : i ≤ span (k + 1) - 1 ↔ i < span (k + 1) := by omega
    simp only [same]

/-- Replacing a node, see `Good.put`. -/
theorem TreeOk.put {k n q : Nat} {root : Root} {e : Entry} (ok : TreeOk (k + n) root)
    (isNode : (root.head.atPath (digits n q)).IsNode) (good : Good k e) (isNode' : e.IsNode)
    (free : HasFree e → HasFree (root.head.atPath (digits n q))) :
    TreeOk (k + n) (root.put (digits n q) e) := by
  obtain ⟨good', -, free'⟩ := ok.good.put isNode good isNode' free
  exact ⟨good', fun has => ok.shown (free' has), ok.isIdr, ok.low⟩

theorem TreeOk.contents_put {k n q : Nat} {root : Root} {e : Entry} (ok : TreeOk (k + n) root) (small : q < span n)
    (isNode : (root.head.atPath (digits n q)).IsNode)
    (ok' : TreeOk (k + n) (root.put (digits n q) e)) (i : Nat) :
    rootContents (root.put (digits n q) e) i =
      if i / span (k + 1) = q then contents e i else rootContents root i := by
  rw [ok'.contents_eq, ok.contents_eq]
  by_cases inside : i < span (k + n + 1)
  · rw [if_pos inside, if_pos inside]
    exact ok.good.contents_put small isNode i inside
  · rw [if_neg inside, if_neg inside, if_neg]
    rintro rfl
    exact inside (lt_span small)

/-- Replacing a node by one with the same ids. -/
theorem TreeOk.contents_put_same {k n q : Nat} {root : Root} {e : Entry} (ok : TreeOk (k + n) root) (small : q < span n)
    (isNode : (root.head.atPath (digits n q)).IsNode)
    (ok' : TreeOk (k + n) (root.put (digits n q) e))
    (same : ∀ i, contents e i = contents (root.head.atPath (digits n q)) i) :
    rootContents (root.put (digits n q) e) = rootContents root := by
  funext i
  rw [ok.contents_put small isNode ok']
  split
  · rename_i high
    rw [same, ← ok.good.contents_atPath high, ok.contents_eq, if_pos (lt_span (high ▸ small))]
  · rfl

end Miracle.Idr
