import Miracle.Idr.Tree

/-! # Writing an id

An id is taken, changed or given back by writing the slot of its leaf, its tag and the count.  The tags above follow.
-/

namespace Miracle.Idr

open RadixTree BitScan

/-! ## One leaf -/

theorem contents_leaf {count : Nat} {tags : Nat → Bitmap} {slots : Nat → Entry} (i : Nat) :
    contents (.node (radixTreeMapShift * 0) count tags slots) i =
      if tags idrFree (i % radixTreeMapSize) then none else some (slots (i % radixTreeMapSize)).pointer := by
  rw [contents, if_pos (Nat.mul_zero _), descend_eq, span, Nat.pow_zero, Nat.div_one]

theorem span_one : span (0 + 1) = radixTreeMapSize := Nat.pow_one _

/-- The leaf of an index. -/
def leafPath (n index : Nat) : Path := digits n (index / radixTreeMapSize)

theorem digits_index (n index : Nat) : digits (n + 1) index = index % radixTreeMapSize :: leafPath n index := rfl

section

variable {n index : Nat} {root : Root} (ok : TreeOk n root)

include ok

theorem TreeOk.leaf (isNode : (root.head.atPath (leafPath n index)).IsNode) :
    ∃ count tags slots, root.head.atPath (leafPath n index) = .node (radixTreeMapShift * 0) count tags slots ∧
      (∀ o < radixTreeMapSize, ∃ p, slots o = .item p ∧ (tags idrFree o = true → p = 0)) ∧
      count = slotsWith fun o => !tags idrFree o := by
  have good := ok.good
  rw [← Nat.zero_add n] at good
  have leaf := @Good.atPath n 0 (index / radixTreeMapSize) root.head good
  rw [leafPath] at *
  generalize root.head.atPath (digits n (index / radixTreeMapSize)) = e at *
  cases leaf with
  | null => exact absurd rfl isNode.ne_null
  | leaf items counted => exact ⟨_, _, _, rfl, items, counted⟩

theorem TreeOk.putLeaf {e : Entry} (isNode : (root.head.atPath (leafPath n index)).IsNode) (good : Good 0 e) (isNode' : e.IsNode)
    (free : HasFree e → HasFree (root.head.atPath (leafPath n index))) :
    TreeOk n (root.put (leafPath n index) e) := by
  rw [← Nat.zero_add n] at ok ⊢
  have put := ok.put isNode good isNode' free
  rwa [Nat.zero_add] at put ⊢

/-- The ids after one slot of a leaf has been written. -/
theorem TreeOk.contents_putLeaf {count count' : Nat} {tags tags' : Nat → Bitmap} {slots slots' : Nat → Entry}
    (lt : index < span (n + 1))
    (leaf : root.head.atPath (leafPath n index) = .node (radixTreeMapShift * 0) count tags slots)
    (ok' : TreeOk n (root.put (leafPath n index) (.node (radixTreeMapShift * 0) count' tags' slots')))
    (others : ∀ o ≠ index % radixTreeMapSize, tags' idrFree o = tags idrFree o ∧ slots' o = slots o) :
    rootContents (root.put (leafPath n index) (.node (radixTreeMapShift * 0) count' tags' slots')) =
      Function.update (rootContents root) index (if tags' idrFree (index % radixTreeMapSize) then none
        else some (slots' (index % radixTreeMapSize)).pointer) := by
  funext i
  have small : index / radixTreeMapSize < span n := by
    rw [span_succ] at lt
    exact Nat.div_lt_of_lt_mul lt
  have written := @TreeOk.contents_put 0 n (index / radixTreeMapSize) root _ (by rwa [Nat.zero_add]) small
    ⟨_, _, _, _, leaf⟩ (by rwa [Nat.zero_add]) i
  rw [leafPath] at *
  rw [written, span_one]
  by_cases here : i = index
  · rw [here, if_pos rfl, contents_leaf, Function.update_self]
  · rw [Function.update_of_ne here]
    split
    · rename_i high
      have ne : i % radixTreeMapSize ≠ index % radixTreeMapSize := by
        simp only [radixTreeMapSize] at *
        omega
      obtain ⟨sameTag, sameSlot⟩ := others _ ne
      have inside : i < span (n + 1) := by
        have lt := @lt_span i 0 n (by rwa [span_one, high])
        rwa [Nat.zero_add] at lt
      have atLeaf := @Good.contents_atPath n 0 (index / radixTreeMapSize) i root.head (by rw [Nat.zero_add]; exact ok.good)
        (by rw [span_one, high])
      rw [contents_leaf, sameTag, sameSlot, ok.contents_eq, if_pos inside, atLeaf, leaf, contents_leaf]
    · rfl

end

/-! ## Clearing the tags above -/

theorem anyTagSet_iff {e : Entry} : e.anyTagSet idrFree = true ↔ ∃ o < radixTreeMapSize, e.tagGet idrFree o = true := by
  rw [Entry.anyTagSet, List.any_eq_true]
  simp only [List.mem_range]

/-- Clearing the tag of a slot without free ids. -/
theorem Good.tagClear {k o : Nat} {e : Entry} (good : Good (k + 1) e) (isNode : e.IsNode) (full : ¬ HasFree (e.slot o)) :
    Good (k + 1) (e.tagClear idrFree o) ∧ (e.tagClear idrFree o).IsNode ∧ (HasFree (e.tagClear idrFree o) → HasFree e) ∧
      ∀ i, contents (e.tagClear idrFree o) i = contents e i := by
  cases good with
  | null => exact absurd rfl isNode.ne_null
  | inner below shown counted =>
      refine ⟨.inner below ?_ counted, ⟨_, _, _, _, rfl⟩, ?_, fun i => rfl⟩
      · intro j lt has
        rw [Function.update_self, bitmapClear_true]
        refine ⟨?_, shown j lt has⟩
        intro here
        obtain rfl : j = o := by omega
        exact full has
      · rintro ⟨j, lt, set⟩
        rw [Function.update_self] at set
        exact ⟨j, lt, (bitmapClear_true.mp set).2⟩

theorem hasFree_iff {e : Entry} (isNode : e.IsNode) : HasFree e ↔ e.anyTagSet idrFree = true := by
  obtain ⟨shift, count, tags, slots, rfl⟩ := isNode
  rw [anyTagSet_iff]
  rfl

theorem nodeTagClear_cons {root root' : Root} {p : Path} {o : Nat} (tagged : (root.head.atPath p).tagGet idrFree o = true)
    (modified : root.modify p (Entry.tagClear idrFree o) = root') :
    nodeTagClear root idrFree (o :: p) =
      if (root'.head.atPath p).anyTagSet idrFree then root' else nodeTagClear root' idrFree p := by
  rw [nodeTagClear, if_pos tagged, ← modified]

/-- `node_tag_clear` from the slot of an entry without free ids on -/
theorem nodeTagClear_ok {n : Nat} : ∀ {k q : Nat} {root : Root}, TreeOk (k + n) root → q < span n →
    (root.head.atPath (digits n q)).IsNode → ¬ HasFree (root.head.atPath (digits n q)) →
    TreeOk (k + n) (nodeTagClear root idrFree (digits n q)) ∧
      rootContents (nodeTagClear root idrFree (digits n q)) = rootContents root := by
  induction n with
  | zero =>
      intro k q root ok _ _ full
      rw [digits, nodeTagClear]
      split
      · exact ⟨⟨ok.good, fun has => absurd has full, ok.isIdr, ok.low⟩, rfl⟩
      · exact ⟨ok, rfl⟩
  | succ n ih =>
      intro k q root ok small isNode full
      rw [← Nat.add_assoc, Nat.add_right_comm] at ok ⊢
      have above : (root.head.atPath (digits n (q / radixTreeMapSize))).IsNode := Entry.isNode_of_slot isNode.ne_null
      have parent := @Good.atPath n (k + 1) (q / radixTreeMapSize) root.head ok.good
      have small' : q / radixTreeMapSize < span n := by
        rw [span_succ] at small
        exact Nat.div_lt_of_lt_mul small
      obtain ⟨good, isNode', free, contents⟩ := parent.tagClear above full
      have ok' : TreeOk (k + 1 + n) (root.modify (digits n (q / radixTreeMapSize))
          (Entry.tagClear idrFree (q % radixTreeMapSize))) := ok.put above good isNode' free
      have same := ok.contents_put_same small' above ok' contents
      have there : (root.modify (digits n (q / radixTreeMapSize))
          (Entry.tagClear idrFree (q % radixTreeMapSize))).head.atPath (digits n (q / radixTreeMapSize)) = _ :=
        Entry.atPath_put (.of_isNode above)
      rw [digits]
      by_cases tagged : (root.head.atPath (digits n (q / radixTreeMapSize))).tagGet idrFree (q % radixTreeMapSize) = true
      · rw [nodeTagClear_cons tagged rfl, there]
        split
        · exact ⟨ok', same⟩
        · rename_i unset
          rw [← hasFree_iff isNode'] at unset
          have rest := ih ok' small' (by rwa [there]) (by rwa [there])
          exact ⟨rest.1, rest.2.trans same⟩
      · rw [nodeTagClear, if_neg tagged]
        exact ⟨ok, rfl⟩

/-! ## Taking an id and changing its pointer -/

theorem shrinkLoop_leaf {count : Nat} {tags : Nat → Bitmap} {slots : Nat → Entry} (rootTags : Nat → Bool) :
    shrinkLoop true (.node (radixTreeMapShift * 0) count tags slots) rootTags =
      (.node (radixTreeMapShift * 0) count tags slots, rootTags) := by
  rw [shrinkLoop]
  split
  · rfl
  · split
    · rfl
    · exact if_pos rfl

/-- A leaf that is in use stays, and it is not shrunk into the root. -/
theorem deleteNode_leaf {root : Root} {p : Path} {count : Nat} {tags : Nat → Bitmap} {slots : Nat → Entry}
    (isIdr : root.isIdr = true) (leaf : root.head.atPath p = .node (radixTreeMapShift * 0) count tags slots)
    (used : count ≠ 0) : deleteNode root p = root := by
  cases p with
  | nil =>
      rw [Entry.atPath] at leaf
      rw [deleteNode, leaf, Entry.count, if_pos used, radixTreeShrink, leaf, isIdr, shrinkLoop_leaf, ← leaf, ← isIdr]
  | cons o q =>
      rw [deleteNode, leaf, Entry.count, if_pos used]

theorem replaceSlot_leaf {root : Root} {p : Path} {o count : Nat} {tags : Nat → Bitmap} {slots : Nat → Entry}
    (leaf : root.head.atPath p = .node (radixTreeMapShift * 0) count tags slots) (item : Entry) (change : Int) :
    replaceSlot root item change (o :: p) = root.put p
      (.node (radixTreeMapShift * 0) ((count + change) % 256).toNat tags (Function.update slots o item)) := by
  rw [replaceSlot, Root.modify, leaf]
  rfl

theorem radixTreeReplace_leaf {root : Root} {p : Path} {o count : Nat} {tags : Nat → Bitmap} {slots : Nat → Entry}
    (isIdr : root.isIdr = true) (leaf : root.head.atPath p = .node (radixTreeMapShift * 0) count tags slots) {item : Entry}
    {change : Int} (counted : calculateCount root (o :: p) item (slots o) = change)
    (used : ((count + change) % 256).toNat ≠ 0) :
    radixTreeReplace root (o :: p) item = root.put p
      (.node (radixTreeMapShift * 0) ((count + change) % 256).toNat tags (Function.update slots o item)) := by
  have old : root.head.atPath (o :: p) = slots o := by
    rw [Entry.atPath, leaf]
    rfl
  rw [radixTreeReplace, old, counted, replaceSlot_leaf leaf]
  exact deleteNode_leaf isIdr (Entry.atPath_put (.of_isNode ⟨_, _, _, _, leaf⟩)) used

section

variable {n index : Nat} {root : Root} (ok : TreeOk n root) (lt : index < span (n + 1))
  (isNode : (root.head.atPath (leafPath n index)).IsNode)

include ok lt isNode

theorem take_ok (ptr : Pointer) (free : nodeTagGet root idrFree (digits (n + 1) index) = true) :
    TreeOk n (nodeTagClear (radixTreeReplace root (digits (n + 1) index) (.item ptr)) idrFree (digits (n + 1) index)) ∧
      rootContents (nodeTagClear (radixTreeReplace root (digits (n + 1) index) (.item ptr)) idrFree
        (digits (n + 1) index)) = Function.update (rootContents root) index (some ptr) := by
  obtain ⟨count, tags, slots, leaf, items, counted⟩ := ok.leaf isNode
  have small : index % radixTreeMapSize < radixTreeMapSize := Nat.mod_lt _ (by decide)
  rw [digits_index] at *
  rw [nodeTagGet, leaf, Entry.tagGet] at free
  have empty : slots (index % radixTreeMapSize) = .null := by
    obtain ⟨p, item, zero⟩ := items _ small
    rw [item, zero free]
    rfl
  have cleared : slotsWith (fun o => !bitmapClear (tags idrFree) (index % radixTreeMapSize) 1 o) = count + 1 := by
    rw [counted]
    apply slotsWith_insert small
    · rw [free]
      rfl
    · rw [bitmapClear_inside (by omega)]
      rfl
    · intro o ne
      rw [bitmapClear_outside (by omega)]
  have room : count < radixTreeMapSize := by
    have le := slotsWith_le fun o => !bitmapClear (tags idrFree) (index % radixTreeMapSize) 1 o
    omega
  have one : calculateCount root (index % radixTreeMapSize :: leafPath n index) (.item ptr)
      (slots (index % radixTreeMapSize)) = 1 := by
    rw [calculateCount, nodeTagGet, leaf, Entry.tagGet, free, ok.isIdr, empty]
    rfl
  have more : ((count + 1 : Int) % 256).toNat = count + 1 := by
    simp only [radixTreeMapSize] at room
    omega
  have written : ∀ o < radixTreeMapSize, ∃ p, Function.update slots (index % radixTreeMapSize) (.item ptr) o = .item p ∧
      (bitmapClear (tags idrFree) (index % radixTreeMapSize) 1 o = true → p = 0) := by
    intro o lt
    by_cases here : o = index % radixTreeMapSize
    · rw [here, Function.update_self, bitmapClear_inside (by omega)]
      exact ⟨ptr, rfl, fun set => absurd set Bool.false_ne_true⟩
    · rw [Function.update_of_ne here, bitmapClear_outside (by omega)]
      exact items o lt
  rw [radixTreeReplace_leaf ok.isIdr leaf one (by rw [more]; omega), more]
  have there := @Entry.atPath_put root.head (.node (radixTreeMapShift * 0) (count + 1) tags
    (Function.update slots (index % radixTreeMapSize) (.item ptr))) _ (.of_isNode isNode)
  -- the leaf as the two writes leave it
  generalize leafEq : Entry.node (radixTreeMapShift * 0) (count + 1)
    (Function.update tags idrFree (bitmapClear (tags idrFree) (index % radixTreeMapSize) 1))
    (Function.update slots (index % radixTreeMapSize) (.item ptr)) = leaf2
  have good : Good 0 leaf2 := by
    rw [← leafEq]
    refine .leaf ?_ ?_
    · simpa only [Function.update_self] using written
    · simpa only [Function.update_self] using cleared.symm
  have isNode2 : leaf2.IsNode := ⟨_, _, _, _, leafEq.symm⟩
  have ok2 : TreeOk n (root.put (leafPath n index) leaf2) := by
    apply ok.putLeaf isNode good isNode2
    rw [← leafEq, leaf]
    rintro ⟨o, lt, set⟩
    rw [Function.update_self] at set
    exact ⟨o, lt, (bitmapClear_true.mp set).2⟩
  have contents2 : rootContents (root.put (leafPath n index) leaf2) =
      Function.update (rootContents root) index (some ptr) := by
    rw [← leafEq] at ok2 ⊢
    rw [ok.contents_putLeaf lt leaf ok2]
    · rw [Function.update_self, bitmapClear_inside (by omega), Function.update_self]
      rfl
    · intro o ne
      rw [Function.update_self, bitmapClear_outside (by omega), Function.update_of_ne ne]
      exact ⟨rfl, rfl⟩
  have there2 : (root.put (leafPath n index) leaf2).head.atPath (leafPath n index) = leaf2 := Entry.atPath_put (.of_isNode isNode)
  have modified : (root.put (leafPath n index) (.node (radixTreeMapShift * 0) (count + 1) tags
      (Function.update slots (index % radixTreeMapSize) (.item ptr)))).modify (leafPath n index)
      (Entry.tagClear idrFree (index % radixTreeMapSize)) = root.put (leafPath n index) leaf2 := by
    rw [Root.modify, Root.put, Root.put, there, Entry.put_put (.of_isNode isNode), ← leafEq]
    rfl
  rw [nodeTagClear_cons (by rw [Root.put, there]; exact free) modified, there2]
  split
  · exact ⟨ok2, contents2⟩
  · rename_i unset
    rw [← hasFree_iff isNode2] at unset
    have small' : index / radixTreeMapSize < span n := by
      rw [span_succ] at lt
      exact Nat.div_lt_of_lt_mul lt
    have rest := @nodeTagClear_ok n 0 (index / radixTreeMapSize) (root.put (leafPath n index) leaf2)
      (by rwa [Nat.zero_add]) small' (by rw [← leafPath, there2]; exact isNode2)
      (by rw [← leafPath, there2]; exact unset)
    rw [Nat.zero_add] at rest
    exact ⟨rest.1, rest.2.trans contents2⟩

omit ok lt isNode in
/-- A leaf with an id in use has a count. -/
theorem leaf_used {count : Nat} {tags : Nat → Bitmap} {slots : Nat → Entry}
    (leaf : root.head.atPath (leafPath n index) = .node (radixTreeMapShift * 0) count tags slots)
    (counted : count = slotsWith fun o => !tags idrFree o)
    (used : nodeTagGet root idrFree (digits (n + 1) index) = false) : 0 < count ∧ count ≤ radixTreeMapSize := by
  rw [digits_index, nodeTagGet, leaf, Entry.tagGet] at used
  constructor
  · apply Nat.pos_of_ne_zero
    rw [counted, Ne, slotsWith_eq_zero]
    intro none
    have clear := none (index % radixTreeMapSize) (Nat.mod_lt _ (by decide))
    rw [used] at clear
    cases clear
  · rw [counted]
    exact slotsWith_le _

theorem change_ok (ptr : Pointer) (used : nodeTagGet root idrFree (digits (n + 1) index) = false) :
    TreeOk n (radixTreeReplace root (digits (n + 1) index) (.item ptr)) ∧
      rootContents (radixTreeReplace root (digits (n + 1) index) (.item ptr)) =
        Function.update (rootContents root) index (some ptr) := by
  obtain ⟨count, tags, slots, leaf, items, counted⟩ := ok.leaf isNode
  obtain ⟨pos, le⟩ := leaf_used leaf counted used
  rw [digits_index] at *
  have same : ((count + 0 : Int) % 256).toNat = count := by
    simp only [radixTreeMapSize] at le
    omega
  have zero : calculateCount root (index % radixTreeMapSize :: leafPath n index) (.item ptr)
      (slots (index % radixTreeMapSize)) = 0 := by
    rw [calculateCount, used, ok.isIdr]
    rfl
  rw [nodeTagGet, leaf, Entry.tagGet] at used
  rw [radixTreeReplace_leaf ok.isIdr leaf zero (by rw [same]; omega), same]
  have good : Good 0 (.node (radixTreeMapShift * 0) count tags
      (Function.update slots (index % radixTreeMapSize) (.item ptr))) := by
    refine .leaf ?_ counted
    intro o lt
    by_cases here : o = index % radixTreeMapSize
    · rw [here, Function.update_self, used]
      exact ⟨ptr, rfl, fun set => absurd set Bool.false_ne_true⟩
    · rw [Function.update_of_ne here]
      exact items o lt
  have ok' := ok.putLeaf isNode good ⟨_, _, _, _, rfl⟩ (by rw [leaf]; exact id)
  refine ⟨ok', ?_⟩
  rw [ok.contents_putLeaf lt leaf ok', used, Function.update_self]
  · rfl
  · intro o ne
    rw [Function.update_of_ne ne]
    exact ⟨rfl, rfl⟩

end

end Miracle.Idr
