import Miracle.Idr.Grow
import Miracle.Idr.Leaf

/-! # Giving an id back

The tags on the way to the root are set first, then the slot is emptied, and the nodes that are left without use are
freed.
-/

namespace Miracle.Idr

open RadixTree BitScan

/-! ## Setting the tags above -/

/-- `node_tag_set` from the slot of a node on sees and writes only what is above the node. -/
theorem nodeTagSet_put {tag : Nat} {p : Path} : ∀ {root : Root}, (root.head.atPath p).IsNode →
    (nodeTagSet root tag p).head.atPath p = root.head.atPath p ∧
      ∀ e, nodeTagSet (root.put p e) tag p = (nodeTagSet root tag p).put p e := by
  induction p with
  | nil =>
      intro root _
      simp only [nodeTagSet]
      constructor
      · split
        · rfl
        · rfl
      · intro e
        change (if root.tags tag then root.put [] e else (root.put [] e).tagSet tag) = _
        split
        · rfl
        · rfl
  | cons o q ih =>
      intro root isNode
      have above : (root.head.atPath q).IsNode := Entry.isNode_of_slot isNode.ne_null
      obtain ⟨kept, commutes⟩ := @ih root above
      have above' : ((nodeTagSet root tag q).head.atPath q).IsNode := by rwa [kept]
      simp only [nodeTagSet]
      constructor
      · split
        · rfl
        · rw [Root.modify, commutes, Entry.atPath, Entry.atPath, Root.atPath_put above', slot_tagSet]
      · intro e
        have below : root.put (o :: q) e = root.put q ((root.head.atPath q).setSlot o e) := rfl
        rw [below, Root.atPath_put above, tagGet_setSlot]
        split
        · rfl
        · rw [Root.modify, Root.modify, Root.atPath_put above, Root.put_put above, commutes, commutes]
          change _ = ((nodeTagSet root tag q).put q _).put q (((((nodeTagSet root tag q).put q _)).head.atPath q).setSlot o e)
          rw [Root.atPath_put above', Root.put_put above', tagSet_setSlot]

theorem Good.tagSet {k o : Nat} {e : Entry} (good : Good (k + 1) e) : Good (k + 1) (e.tagSet idrFree o) := by
  cases good with
  | null => exact .null (k + 1)
  | inner below shown counted =>
      refine .inner below ?_ counted
      intro j lt has
      rw [Function.update_self]
      exact bitmapSet_true.mpr (.inr (shown j lt has))

theorem contents_tagSet {k o : Nat} {e : Entry} (good : Good (k + 1) e) (i : Nat) :
    contents (e.tagSet idrFree o) i = contents e i := by
  cases good with
  | null => rfl
  | inner below shown counted => simp only [Entry.tagSet, contents, if_neg (show ¬ radixTreeMapShift * (_ + 1) = 0 by simp [radixTreeMapShift])]

theorem tagGet_tagSet {e : Entry} (isNode : e.IsNode) (o : Nat) : (e.tagSet idrFree o).tagGet idrFree o = true := by
  obtain ⟨shift, count, tags, slots, rfl⟩ := isNode
  rw [Entry.tagSet, Entry.tagGet, Function.update_self]
  exact bitmapSet_inside (by omega)

/-- After `node_tag_set` from the slot of a node on, the node may have any free ids. -/
theorem nodeTagSet_ok {n : Nat} : ∀ {k q : Nat} {root : Root}, TreeOk (k + n) root → q < span n →
    (root.head.atPath (digits n q)).IsNode →
    TreeOk (k + n) (nodeTagSet root idrFree (digits n q)) ∧
      rootContents (nodeTagSet root idrFree (digits n q)) = rootContents root ∧
      ∀ e, Good k e → e.IsNode → TreeOk (k + n) ((nodeTagSet root idrFree (digits n q)).put (digits n q) e) := by
  induction n with
  | zero =>
      intro k q root ok _ _
      rw [digits, nodeTagSet]
      split
      · rename_i tagged
        exact ⟨ok, rfl, fun e good _ => ⟨good, fun _ => tagged, ok.isIdr, ok.low⟩⟩
      · have tagged : (root.tagSet idrFree).tags idrFree = true := by simp [Root.tagSet]
        exact ⟨⟨ok.good, fun _ => tagged, ok.isIdr, ok.low⟩, rfl, fun e good _ => ⟨good, fun _ => tagged, ok.isIdr, ok.low⟩⟩
  | succ n ih =>
      intro k q root ok small isNode
      rw [← Nat.add_assoc, Nat.add_right_comm] at ok ⊢
      have above : (root.head.atPath (digits n (q / radixTreeMapSize))).IsNode := Entry.isNode_of_slot isNode.ne_null
      have parent := @Good.atPath n (k + 1) (q / radixTreeMapSize) root.head ok.good
      have small' : q / radixTreeMapSize < span n := by
        rw [span_succ] at small
        exact Nat.div_lt_of_lt_mul small
      rw [digits, nodeTagSet]
      split
      · rename_i tagged
        refine ⟨ok, rfl, ?_⟩
        intro e good isNode'
        exact ok.put above (parent.setSlot isNode good isNode' fun _ => tagged) (isNode_setSlot above) hasFree_setSlot.mp
      · obtain ⟨ok', same, allowed⟩ := ih ok small' above
        obtain ⟨kept, commutes⟩ := @nodeTagSet_put idrFree (digits n (q / radixTreeMapSize)) root above
        have above' : ((nodeTagSet root idrFree (digits n (q / radixTreeMapSize))).head.atPath
            (digits n (q / radixTreeMapSize))).IsNode := by rwa [kept]
        rw [Root.modify, commutes]
        have ok2 := allowed _ (@Good.tagSet k (q % radixTreeMapSize) _ parent) (isNode_tagSet above)
        refine ⟨ok2, ?_, ?_⟩
        · rw [ok'.contents_put_same small' above' ok2, same]
          intro i
          rw [kept]
          exact contents_tagSet parent i
        · intro e good isNode'
          change TreeOk _ ((Root.put _ _ _).put _ ((Entry.atPath _ _).setSlot _ e))
          rw [Root.atPath_put above', Root.put_put above']
          apply allowed
          · apply parent.tagSet.setSlot _ good isNode' fun _ => tagGet_tagSet above _
            rwa [slot_tagSet]
          · exact isNode_setSlot (isNode_tagSet above)

/-! ## Freeing nodes -/

/-- The head may give way to its only child. -/
theorem TreeOk.shrunk {k : Nat} {tags : Nat → Bitmap} {slots : Nat → Entry} {rootTags : Nat → Bool}
    (ok : TreeOk (k + 1) ⟨.node (radixTreeMapShift * (k + 1)) 1 tags slots, rootTags, true⟩)
    (filled : (slots 0).isNull = false) {rootTags' : Nat → Bool}
    (kept : tags idrFree 0 = true → rootTags' idrFree = rootTags idrFree) :
    TreeOk k ⟨slots 0, rootTags', true⟩ ∧ rootContents ⟨slots 0, rootTags', true⟩ =
      rootContents ⟨.node (radixTreeMapShift * (k + 1)) 1 tags slots, rootTags, true⟩ := by
  have whole := ok.good
  cases whole with
  | inner below shown counted =>
      have others := slotsWith_one counted.symm (o := 0) (by decide) (by rw [filled]; rfl)
      have ok' : TreeOk k ⟨slots 0, rootTags', true⟩ := by
        refine ⟨below 0 (by decide), ?_, rfl, Nat.le_of_succ_le ok.low⟩
        intro has
        have tagged := shown 0 (by decide) has
        exact (kept tagged).trans (ok.shown ⟨0, by decide, tagged⟩)
      refine ⟨ok', ?_⟩
      funext i
      rw [ok'.contents_eq, ok.contents_eq, ok.good.contents_slot]
      by_cases low : i < span (k + 1)
      · have inside : i < span (k + 1 + 1) := by
          rw [span_succ]
          simp only [radixTreeMapSize]
          omega
        rw [if_pos low, if_pos inside, Nat.div_eq_of_lt low]
        rfl
      · rw [if_neg low]
        split
        · rename_i inside
          have small : i / span (k + 1) < radixTreeMapSize := by
            rw [span_succ] at inside
            exact Nat.div_lt_of_lt_mul (by rwa [Nat.mul_comm])
          have pos := Nat.div_pos (Nat.not_lt.mp low) (span_pos (k + 1))
          rw [Nat.mod_eq_of_lt small]
          have empty := others _ small (by omega)
          rw [Bool.not_eq_false', Entry.isNull_iff] at empty
          rw [Entry.slot, empty]
          rfl
        · rfl

theorem radixTreeShrink_ok {k : Nat} : ∀ {root : Root}, TreeOk k root →
    ∃ l, TreeOk l (radixTreeShrink root) ∧ rootContents (radixTreeShrink root) = rootContents root := by
  induction k with
  | zero =>
      rintro ⟨head, tags, isIdr⟩ ok
      obtain rfl : isIdr = true := ok.isIdr
      have good := ok.good
      cases good with
      | null => exact ⟨0, ok, rfl⟩
      | leaf items counted =>
          rw [radixTreeShrink, shrinkLoop_leaf]
          exact ⟨0, ok, rfl⟩
  | succ k ih =>
      rintro ⟨head, tags, isIdr⟩ ok
      obtain rfl : isIdr = true := ok.isIdr
      have good := ok.good
      cases good with
      | null => exact ⟨k + 1, ok, rfl⟩
      | @inner _ count tags' slots below shown counted =>
          rw [radixTreeShrink, shrinkLoop]
          by_cases one : count = 1
          · rw [if_neg (not_not.mpr one)]
            by_cases empty : (slots 0).isNull = true
            · rw [if_pos empty]
              exact ⟨k + 1, ok, rfl⟩
            · rw [if_neg empty, if_neg (by simp [radixTreeMapShift])]
              subst one
              have filled := Bool.eq_false_of_not_eq_true empty
              obtain ⟨ok', same⟩ := @TreeOk.shrunk k tags' slots tags ok filled
                (if true && !tags' idrFree 0 then Function.update tags idrFree false else tags) (by
                  intro tagged
                  rw [tagged]
                  rfl)
              obtain ⟨l, done, rest⟩ := ih ok'
              exact ⟨l, done, rest.trans same⟩
          · rw [if_pos one]
            exact ⟨k + 1, ok, rfl⟩

/-- A node without use has all its ids free. -/
theorem Good.unused {k : Nat} {e : Entry} (good : Good k e) (isNode : e.IsNode) (zero : e.count = 0) :
    HasFree e ∧ ∀ i, contents e i = none := by
  cases good with
  | null => exact absurd rfl isNode.ne_null
  | leaf items counted =>
      rw [Entry.count, counted, slotsWith_eq_zero] at zero
      simp only [Bool.not_eq_false'] at zero
      refine ⟨⟨0, by decide, zero 0 (by decide)⟩, ?_⟩
      intro i
      rw [contents_leaf, if_pos (zero _ (Nat.mod_lt _ (by decide)))]
  | inner below shown counted =>
      rw [Entry.count, counted, slotsWith_eq_zero] at zero
      simp only [Bool.not_eq_false', Entry.isNull_iff] at zero
      refine ⟨⟨0, by decide, shown 0 (by decide) (by rw [zero 0 (by decide)]; exact trivial)⟩, ?_⟩
      intro i
      rw [contents, if_neg (by simp [radixTreeMapShift]), zero _ (descend_lt _ i)]
      rfl

/-- A child is taken out of a slot with the tag, see `deleteNode`. -/
theorem Good.removeChild {k o : Nat} {e : Entry} (good : Good (k + 1) e) (lt : o < radixTreeMapSize)
    (isNode : (e.slot o).IsNode) (free : HasFree (e.slot o)) (none : ∀ i, contents (e.slot o) i = none) :
    Good (k + 1) ((e.setSlot o .null).addCount (-1)) ∧ ((e.setSlot o .null).addCount (-1)).IsNode ∧
      ∀ i, contents ((e.setSlot o .null).addCount (-1)) i = contents e i := by
  have slots := good.contents_slot
  cases good with
  | null => exact absurd rfl isNode.ne_null
  | @inner _ count tags slots' below shown counted =>
      rw [Entry.slot] at isNode free none
      refine ⟨.inner ?_ ?_ ?_, ⟨_, _, _, _, rfl⟩, ?_⟩
      · intro j small
        by_cases here : j = o
        · rw [here, Function.update_self]
          exact .null k
        · rw [Function.update_of_ne here]
          exact below j small
      · intro j small
        by_cases here : j = o
        · rw [here]
          exact fun _ => shown o lt free
        · rw [Function.update_of_ne here]
          exact shown j small
      · have more := @slotsWith_insert (fun j => !(Function.update slots' o Entry.null j).isNull)
          (fun j => !(slots' j).isNull) o lt (by rw [Function.update_self]; rfl) (by rw [isNode.isNull]; rfl)
          (fun j ne => by rw [Function.update_of_ne ne])
        have le := slotsWith_le fun j => !(slots' j).isNull
        simp only [radixTreeMapSize] at le
        rw [← counted] at more le
        omega
      · intro i
        rw [contents_addCount, contents_setSlot, slots]
        split
        · rename_i here
          rw [here, Entry.slot, none]
          rfl
        · rfl

/-- `delete_node` keeps the ids. -/
theorem deleteNode_ok {n : Nat} : ∀ {k q : Nat} {root : Root}, TreeOk (k + n) root → q < span n →
    (root.head.atPath (digits n q)).IsNode →
    ∃ l, TreeOk l (deleteNode root (digits n q)) ∧ rootContents (deleteNode root (digits n q)) = rootContents root := by
  induction n with
  | zero =>
      intro k q root ok _ isNode
      rw [digits, deleteNode]
      split
      · exact radixTreeShrink_ok ok
      · rename_i zero
        obtain ⟨free, none⟩ := ok.good.unused isNode (not_not.mp zero)
        rw [if_pos ok.isIdr]
        have ok' : TreeOk k { root with head := .null } := ⟨.null k, fun _ => ok.shown free, ok.isIdr, ok.low⟩
        refine ⟨k, ok', ?_⟩
        funext i
        rw [ok'.contents_eq, ok.contents_eq, none]
        rfl
  | succ n ih =>
      intro k q root ok small isNode
      rw [← Nat.add_assoc, Nat.add_right_comm] at ok
      have above : (root.head.atPath (digits n (q / radixTreeMapSize))).IsNode := Entry.isNode_of_slot isNode.ne_null
      have parent := @Good.atPath n (k + 1) (q / radixTreeMapSize) root.head ok.good
      have small' : q / radixTreeMapSize < span n := by
        rw [span_succ] at small
        exact Nat.div_lt_of_lt_mul small
      have lt : q % radixTreeMapSize < radixTreeMapSize := Nat.mod_lt _ (by decide)
      rw [digits, deleteNode]
      split
      · exact ⟨_, ok, rfl⟩
      · rename_i zero
        obtain ⟨free, none⟩ := (parent.slot lt).unused isNode (not_not.mp zero)
        obtain ⟨good, isNode', contents⟩ := parent.removeChild lt isNode free none
        have ok' := ok.put above good isNode' fun has => hasFree_setSlot.mp (hasFree_addCount.mp has)
        have same := ok.contents_put_same small' above ok' contents
        obtain ⟨l, done, rest⟩ := ih ok' small' (by rw [Root.atPath_put above]; exact isNode')
        exact ⟨l, done, rest.trans same⟩

/-- `__radix_tree_delete` of an id in use -/
theorem give_ok {n index : Nat} {root : Root} (ok : TreeOk n root) (lt : index < span (n + 1))
    (isNode : (root.head.atPath (leafPath n index)).IsNode)
    (used : nodeTagGet root idrFree (digits (n + 1) index) = false) :
    ∃ l, TreeOk l (radixTreeDelete root (digits (n + 1) index)) ∧
      rootContents (radixTreeDelete root (digits (n + 1) index)) = Function.update (rootContents root) index none := by
  obtain ⟨count, tags, slots, leaf, items, counted⟩ := ok.leaf isNode
  obtain ⟨pos, le⟩ := leaf_used leaf counted used
  have small : index % radixTreeMapSize < radixTreeMapSize := Nat.mod_lt _ (by decide)
  have small' : index / radixTreeMapSize < span n := by
    rw [span_succ] at lt
    exact Nat.div_lt_of_lt_mul lt
  rw [digits_index] at *
  obtain ⟨okT, sameT, allowed⟩ := @nodeTagSet_ok n 0 (index / radixTreeMapSize) root (by rwa [Nat.zero_add]) small' isNode
  obtain ⟨kept, commutes⟩ := @nodeTagSet_put idrFree (leafPath n index) root isNode
  rw [Nat.zero_add, ← leafPath] at okT allowed
  rw [← leafPath] at sameT
  have first : nodeTagSet root idrFree (index % radixTreeMapSize :: leafPath n index) =
      (nodeTagSet root idrFree (leafPath n index)).put (leafPath n index)
        (Entry.tagSet idrFree (index % radixTreeMapSize) (root.head.atPath (leafPath n index))) := by
    rw [nodeTagGet] at used
    rw [nodeTagSet, if_neg (by rw [used]; decide), Root.modify, commutes]
  rw [radixTreeDelete, if_pos ok.isIdr, first]
  generalize nodeTagSet root idrFree (leafPath n index) = rootT at *
  have isNodeT : (rootT.head.atPath (leafPath n index)).IsNode := by rwa [kept]
  have less : ((count + (-1) : Int) % 256).toNat = count - 1 := by
    simp only [radixTreeMapSize] at le
    omega
  have written : replaceSlot (rootT.put (leafPath n index)
      (Entry.tagSet idrFree (index % radixTreeMapSize) (root.head.atPath (leafPath n index)))) .null (-1)
      (index % radixTreeMapSize :: leafPath n index) = rootT.put (leafPath n index) (.node (radixTreeMapShift * 0) (count - 1)
        (Function.update tags idrFree (setBit (tags idrFree) (index % radixTreeMapSize)))
        (Function.update slots (index % radixTreeMapSize) .null)) := by
    rw [replaceSlot_leaf (by rw [Root.atPath_put isNodeT, leaf]; rfl), less, Root.put_put isNodeT]
  rw [written]
  rw [nodeTagGet, leaf, Entry.tagGet] at used
  have good : Good 0 (.node (radixTreeMapShift * 0) (count - 1)
      (Function.update tags idrFree (setBit (tags idrFree) (index % radixTreeMapSize)))
      (Function.update slots (index % radixTreeMapSize) .null)) := by
    refine .leaf ?_ ?_
    · intro o lt
      by_cases here : o = index % radixTreeMapSize
      · rw [here, Function.update_self]
        exact ⟨0, rfl, fun _ => rfl⟩
      · rw [Function.update_of_ne here, Function.update_self, setBit, bitmapSet_outside (by omega)]
        exact items o lt
    · rw [Function.update_self]
      have more := @slotsWith_insert (fun o => !setBit (tags idrFree) (index % radixTreeMapSize) o)
        (fun o => !tags idrFree o) _ small (by rw [setBit, bitmapSet_inside (by omega)]; rfl) (by rw [used]; rfl)
        (fun o ne => by rw [setBit, bitmapSet_outside (by omega)])
      omega
  have ok2 := allowed _ good ⟨_, _, _, _, rfl⟩
  have contents2 := okT.contents_putLeaf lt (kept.trans leaf) ok2 (by
    intro o ne
    rw [Function.update_self, setBit, bitmapSet_outside (by omega), Function.update_of_ne ne]
    exact ⟨rfl, rfl⟩)
  rw [Function.update_self, setBit, bitmapSet_inside (by omega), if_pos rfl, sameT] at contents2
  obtain ⟨l, done, rest⟩ := @deleteNode_ok n 0 (index / radixTreeMapSize) _ (by rwa [Nat.zero_add]) small'
    (by rw [← leafPath, Root.atPath_put isNodeT]; exact ⟨_, _, _, _, rfl⟩)
  exact ⟨l, done, rest.trans contents2⟩

end Miracle.Idr
