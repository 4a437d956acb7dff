import Miracle.Idr.Tree

/-! # Growing the tree of an IDR

New nodes at the top and new children do not change the ids.  If there is no memory for one, what has been built so far
stays, and it is a tree of the same ids.
-/

namespace Miracle.Idr

open RadixTree BitScan

/-! ## New nodes at the top -/

theorem maxShift_spec {index l : Nat} (enough : index < span (l + 1)) :
    ∀ {k : Nat}, k ≤ l → ∃ m, maxShift index (radixTreeMapShift * k) = radixTreeMapShift * m ∧ k ≤ m ∧ m ≤ l ∧
      index < span (m + 1) := by
  intro k le
  induction distance : l - k generalizing k with
  | zero =>
      obtain rfl : k = l := by omega
      refine ⟨k, ?_, le_rfl, le_rfl, enough⟩
      rw [maxShift, if_neg]
      rw [shiftMaxindex_eq]
      omega
  | succ d ih =>
      rw [maxShift]
      split
      · obtain ⟨m, eq, low, high, lt⟩ := @ih (k + 1) (by omega) (by omega)
        exact ⟨m, eq, by omega, high, lt⟩
      · rename_i fits
        rw [shiftMaxindex_eq] at fits
        have pos := span_pos (k + 1)
        exact ⟨k, rfl, le_rfl, le, by omega⟩

/-- Some allocation of a node fails. -/
def Fails (mem : Memory) : Prop := ∃ n, mem n = false

theorem fails_of_rest {mem : Memory} (fails : Fails mem.rest) : Fails mem := by
  obtain ⟨n, none⟩ := fails
  exact ⟨n + 1, none⟩

theorem extendedNode_eq {root : Root} (isIdr : root.isIdr = true) (shift : Nat) :
    ∃ tags : Nat → Bitmap, extendedNode root shift = .node shift 1 tags (Function.update (fun _ => .null) 0 root.head) ∧
      (∀ o < radixTreeMapSize, o ≠ 0 → tags idrFree o = true) ∧ (root.tags idrFree = true → tags idrFree 0 = true) := by
  have inside {o : Nat} (lt : o < radixTreeMapSize) : bitmapSet (fun _ => false) 0 radixTreeMapSize o = true :=
    bitmapSet_inside ⟨Nat.zero_le o, by omega⟩
  unfold extendedNode radixTreeNodeAlloc
  simp only [isIdr, if_true, Entry.allTagSet]
  by_cases tagged : root.tags idrFree = true
  · rw [if_pos tagged]
    refine ⟨_, rfl, ?_, ?_⟩
    · intro o lt _
      rw [Function.update_self]
      exact inside lt
    · intro _
      rw [Function.update_self]
      exact inside (by decide)
  · rw [if_neg tagged]
    refine ⟨_, rfl, ?_, fun set => absurd set tagged⟩
    intro o lt ne
    rw [Function.update_self, bitmapClear_outside (by omega), Function.update_self]
    exact inside lt

/-- One node more at the top. -/
theorem TreeOk.extended {k : Nat} {root : Root} (ok : TreeOk k root) (isNode : root.head.IsNode) (low : k < 5)
    {tags : Nat → Bool} (tagged : tags idrFree = true) :
    TreeOk (k + 1) ⟨extendedNode root (radixTreeMapShift * (k + 1)), tags, root.isIdr⟩ ∧
      rootContents ⟨extendedNode root (radixTreeMapShift * (k + 1)), tags, root.isIdr⟩ = rootContents root := by
  obtain ⟨tags', eq, others, first⟩ := extendedNode_eq ok.isIdr (radixTreeMapShift * (k + 1))
  have filled : root.head.isNull = false := isNode.isNull
  have ok' : TreeOk (k + 1) ⟨extendedNode root (radixTreeMapShift * (k + 1)), tags, root.isIdr⟩ := by
    refine ⟨?_, fun _ => tagged, ok.isIdr, low⟩
    rw [eq]
    refine .inner ?_ ?_ ?_
    · intro o _
      by_cases here : o = 0
      · rw [here, Function.update_self]
        exact ok.good
      · rw [Function.update_of_ne here]
        exact .null k
    · intro o lt
      by_cases here : o = 0
      · rw [here, Function.update_self]
        exact fun has => first (ok.shown has)
      · exact fun _ => others o lt here
    · rw [@slotsWith_insert (fun _ => false) _ 0 (by decide) rfl, slotsWith_eq_zero.mpr fun _ _ => rfl]
      · rw [Function.update_self, filled]
        rfl
      · intro o ne
        rw [Function.update_of_ne ne]
        rfl
  refine ⟨ok', ?_⟩
  funext i
  rw [ok'.contents_eq, ok.contents_eq, ok'.good.contents_slot, eq]
  by_cases low : i < span (k + 1)
  · have inside : i < span (k + 1 + 1) := by
      rw [span_succ]
      simp only [radixTreeMapSize]
      omega
    rw [if_pos inside, if_pos low, Nat.div_eq_of_lt low]
    change contents (Function.update (fun _ => Entry.null) 0 root.head 0) i = contents root.head i
    rw [Function.update_self]
  · rw [if_neg low]
    split
    · rename_i inside
      have digit : i / span (k + 1) % radixTreeMapSize ≠ 0 := by
        have small : i / span (k + 1) < radixTreeMapSize := by
          rw [span_succ] at inside
          exact Nat.div_lt_of_lt_mul (by rwa [Nat.mul_comm])
        have pos := Nat.div_pos (Nat.not_lt.mp low) (span_pos (k + 1))
        rw [Nat.mod_eq_of_lt small]
        omega
      change contents (Function.update (fun _ => Entry.null) 0 root.head (i / span (k + 1) % radixTreeMapSize)) i = none
      rw [Function.update_of_ne digit]
      rfl
    · rfl

/-- The outcome of growing: a tree of the same ids, and the memory that is left. -/
structure Grown (mem : Memory) (root root' : Root) (mem' : Memory) (l : Nat) : Prop where
  ok : TreeOk l root'
  same : rootContents root' = rootContents root
  memory : Fails mem' → Fails mem

theorem extendLoop_ok {l : Nat} (low : l ≤ 5) : ∀ {mem : Memory} {root : Root} {k : Nat}, TreeOk k root →
    root.head.IsNode → k < l →
    ∃ root' complete mem' m, extendLoop mem root (radixTreeMapShift * (k + 1)) (radixTreeMapShift * l) =
      (root', complete, mem') ∧ Grown mem root root' mem' m ∧
      (complete = true → m = l ∧ root'.head.IsNode) ∧ (complete = false → Fails mem) := by
  intro mem root k ok isNode lt
  induction distance : l - k generalizing mem root k with
  | zero => omega
  | succ d ih =>
      rw [extendLoop]
      by_cases memory : mem 0 = true
      · rw [if_pos memory]
        simp only
        generalize tagsEq : (if root.isIdr && !root.tags idrFree then root.tagSet idrFree else root) = root1
        have tagged : root1.tags idrFree = true := by
          rw [← tagsEq, ok.isIdr]
          by_cases set : root.tags idrFree = true
          · simp [set]
          · simp [set, Root.tagSet]
        have isIdr : root1.isIdr = root.isIdr := by
          rw [← tagsEq]
          split
          · rfl
          · rfl
        obtain ⟨ok', same⟩ := ok.extended isNode (by omega) tagged
        rw [isIdr]
        obtain ⟨tags, eq, -, -⟩ := extendedNode_eq ok.isIdr (radixTreeMapShift * (k + 1))
        have isNode' : (extendedNode root (radixTreeMapShift * (k + 1))).IsNode := ⟨_, _, _, _, eq⟩
        split
        · rename_i more
          have lt' : k + 1 < l := by
            simp only [radixTreeMapShift] at more
            omega
          obtain ⟨root', complete, mem', m, result, grown, done, failed⟩ :=
            @ih mem.rest ⟨extendedNode root (radixTreeMapShift * (k + 1)), root1.tags, root.isIdr⟩ (k + 1) ok' isNode' lt'
              (by omega)
          refine ⟨root', complete, mem', m, result, ?_, done, fun stuck => fails_of_rest (failed stuck)⟩
          exact ⟨grown.ok, grown.same.trans same, fun fails => fails_of_rest (grown.memory fails)⟩
        · rename_i last
          have equal : k + 1 = l := by
            simp only [radixTreeMapShift] at last
            omega
          refine ⟨_, true, _, k + 1, rfl, ⟨ok', same, fails_of_rest⟩, fun _ => ⟨equal, isNode'⟩,
            fun stuck => absurd stuck.symm Bool.false_ne_true⟩
      · rw [if_neg memory]
        have fails : Fails mem := ⟨0, Bool.eq_false_of_not_eq_true memory⟩
        exact ⟨root, false, _, k, rfl, ⟨ok, rfl, fun _ => fails⟩, fun done => absurd done Bool.false_ne_true, fun _ => fails⟩

theorem rootShift_eq {k : Nat} {e : Entry} (good : Good k e) (isNode : e.IsNode) :
    rootShift e = radixTreeMapShift * (k + 1) := by
  have shift := good.shift isNode
  obtain ⟨_, count, tags, slots, rfl⟩ := isNode
  rw [Entry.shift] at shift
  rw [rootShift, shift]
  rfl

theorem radixTreeExtend_ok {mem : Memory} {root : Root} {k start : Nat} (ok : TreeOk k root)
    (beyond : start > maxindex root.head) (small : start < span 6) :
    ∃ root' shift mem' l, radixTreeExtend mem root start (rootShift root.head) = (root', shift, mem') ∧
      Grown mem root root' mem' l ∧ (∀ s, shift = some s → s = radixTreeMapShift * (l + 1) ∧ start < span (l + 1)) ∧
      (shift = none → Fails mem) := by
  unfold radixTreeExtend
  simp only
  rcases ok.good.null_or_isNode with null | isNode
  · have tagged : root.tags idrFree = true := ok.shown (by rw [null]; exact trivial)
    obtain ⟨m, eq, -, high, lt⟩ := @maxShift_spec start 5 small 0 (by decide)
    have shift : rootShift root.head = radixTreeMapShift * 0 := by
      rw [null]
      rfl
    have empty : (root.head.isNull && (!root.isIdr || root.tags idrFree)) = true := by
      rw [null, tagged, Bool.or_true, Bool.and_true]
      rfl
    rw [shift, eq, if_pos empty]
    refine ⟨root, _, mem, m, rfl, ⟨⟨?_, ok.shown, ok.isIdr, high⟩, rfl, id⟩, ?_, nofun⟩
    · rw [null]
      exact .null m
    · intro s is
      cases is
      exact ⟨rfl, lt⟩
  · have filled : root.head.isNull = false := isNode.isNull
    have last := ok.good.maxindex isNode
    rw [last] at beyond
    have below : k < 5 := by
      by_contra high
      obtain rfl : k = 5 := Nat.le_antisymm ok.low (Nat.not_lt.mp high)
      change start > span 6 - 1 at beyond
      omega
    obtain ⟨m, eq, first, high, lt⟩ := @maxShift_spec start 5 small (k + 1) below
    rw [rootShift_eq ok.good isNode, eq, filled, Bool.false_and, if_neg Bool.false_ne_true]
    obtain ⟨root', complete, mem', l, result, grown, done, failed⟩ := @extendLoop_ok m high mem root k ok isNode first
    rw [result]
    refine ⟨root', _, mem', l, rfl, grown, ?_, ?_⟩
    · intro s is
      cases complete with
      | true =>
          cases is
          obtain ⟨rfl, -⟩ := done rfl
          exact ⟨rfl, lt⟩
      | false => cases is
    · intro none
      cases complete with
      | true => cases none
      | false => exact failed rfl

/-! ## New children -/

/-- The child that `idr_get_free` adds has all its ids free. -/
theorem newChild_good (k : Nat) :
    Good k ((radixTreeNodeAlloc (radixTreeMapShift * k) 0).allTagSet idrFree) ∧
      ∀ i, contents ((radixTreeNodeAlloc (radixTreeMapShift * k) 0).allTagSet idrFree) i = none := by
  have tagged {o : Nat} (lt : o < radixTreeMapSize) :
      Function.update (fun _ _ => false) idrFree (bitmapSet (fun _ => false) 0 radixTreeMapSize) idrFree o = true := by
    rw [Function.update_self]
    exact bitmapSet_inside ⟨Nat.zero_le o, by omega⟩
  unfold radixTreeNodeAlloc Entry.allTagSet
  cases k with
  | zero =>
      constructor
      · refine .leaf (fun o _ => ⟨0, rfl, fun _ => rfl⟩) (Eq.symm ?_)
        rw [slotsWith_eq_zero]
        intro o lt
        rw [tagged lt]
        rfl
      · intro i
        rw [contents, if_pos (Nat.mul_zero _), if_pos (tagged (descend_lt _ i))]
  | succ k =>
      constructor
      · refine .inner (fun o _ => .null k) (fun o lt _ => tagged lt) (Eq.symm ?_)
        rw [slotsWith_eq_zero]
        intro o lt
        rfl
      · intro i
        rw [contents, if_neg (by simp [radixTreeMapShift])]
        rfl

/-- A new child in an empty slot of a node, see `addChild`. -/
theorem Good.addChild {k count o : Nat} {tags : Nat → Bitmap} {slots : Nat → Entry} {child : Entry}
    (good : Good (k + 1) (.node (radixTreeMapShift * (k + 1)) count tags slots)) (lt : o < radixTreeMapSize)
    (empty : slots o = .null) (good' : Good k child) (isNode : child.IsNode) :
    Good (k + 1) (((Entry.node (radixTreeMapShift * (k + 1)) count tags slots).setSlot o child).addCount 1) := by
  cases good with
  | inner below shown counted =>
      refine .inner ?_ ?_ ?_
      · intro j small
        by_cases here : j = o
        · rw [here, Function.update_self]
          exact good'
        · rw [Function.update_of_ne here]
          exact below j small
      · intro j small
        by_cases here : j = o
        · intro _
          rw [here]
          exact shown o lt (by rw [empty]; exact trivial)
        · rw [Function.update_of_ne here]
          exact shown j small
      · rw [@slotsWith_insert (fun j => !(slots j).isNull) _ o lt, counted]
        · have le := slotsWith_le fun j => !(slots j).isNull
          simp only [radixTreeMapSize] at le
          omega
        · rw [empty]
          rfl
        · rw [Function.update_self, isNode.isNull]
          rfl
        · intro j ne
          rw [Function.update_of_ne ne]

theorem hasFree_addCount {e : Entry} {change : Int} : HasFree (e.addCount change) ↔ HasFree e := by
  cases e with
  | item p => exact Iff.rfl
  | node => exact Iff.rfl

theorem contents_addCount (e : Entry) (change : Int) (i : Nat) : contents (e.addCount change) i = contents e i := by
  cases e with
  | item p => rfl
  | node => rfl

theorem addChild_ok {k n q : Nat} {root : Root} (ok : TreeOk (k + n) root) (small : q < span n)
    (empty : root.head.atPath (digits n q) = .null)
    (inside : ∀ o p, digits n q = o :: p → (root.head.atPath p).IsNode) :
    TreeOk (k + n) (addChild root (digits n q) (radixTreeMapShift * k)) ∧
      rootContents (addChild root (digits n q) (radixTreeMapShift * k)) = rootContents root ∧
      ((addChild root (digits n q) (radixTreeMapShift * k)).head.atPath (digits n q)).IsNode := by
  obtain ⟨good, none⟩ := newChild_good k
  have isNode : ((radixTreeNodeAlloc (radixTreeMapShift * k) 0).allTagSet idrFree).IsNode := ⟨_, _, _, _, rfl⟩
  unfold Idr.addChild
  generalize (radixTreeNodeAlloc (radixTreeMapShift * k) 0).allTagSet idrFree = child at *
  cases n with
  | zero =>
      have tagged : root.tags idrFree = true := by
        apply ok.shown
        change HasFree (root.head.atPath (digits 0 q))
        rw [empty]
        exact trivial
      have ok' : TreeOk (k + 0) { root with head := child } := ⟨good, fun _ => tagged, ok.isIdr, ok.low⟩
      refine ⟨ok', ?_, isNode⟩
      funext i
      change rootContents { root with head := child } i = rootContents root i
      rw [ok'.contents_eq, ok.contents_eq, none]
      change (if i < span (k + 0 + 1) then Option.none else Option.none) =
        if i < span (k + 0 + 1) then contents (root.head.atPath (digits 0 q)) i else Option.none
      rw [empty]
      rfl
  | succ n =>
      rw [← Nat.add_assoc, Nat.add_right_comm] at ok
      have above := inside _ _ rfl
      have parent := @Good.atPath n (k + 1) (q / radixTreeMapSize) root.head ok.good
      have lt : q % radixTreeMapSize < radixTreeMapSize := Nat.mod_lt _ (by decide)
      have small' : q / radixTreeMapSize < span n := by
        rw [span_succ] at small
        exact Nat.div_lt_of_lt_mul small
      have shift := parent.shift above
      obtain ⟨_, count, tags, slots, same⟩ := id above
      rw [same, Entry.shift] at shift
      subst shift
      rw [same] at parent
      have slotEmpty : slots (q % radixTreeMapSize) = .null := by
        rw [digits, Entry.atPath, same] at empty
        exact empty
      have edited := parent.addChild lt slotEmpty good isNode
      rw [← Nat.add_assoc, Nat.add_right_comm]
      simp only [digits, Root.modify, same]
      have ok' := ok.put above edited ⟨_, _, _, _, rfl⟩ (by
        rw [same]
        exact fun has => hasFree_setSlot.mp (hasFree_addCount.mp has))
      refine ⟨ok', ?_, ?_⟩
      · apply ok.contents_put_same small' above ok'
        intro i
        rw [contents_addCount, contents_setSlot, same, parent.contents_slot]
        split
        · rename_i here
          rw [here, Entry.slot, slotEmpty, none]
          rfl
        · rfl
      · rw [Entry.atPath, Root.atPath_put above]
        change (Function.update slots (q % radixTreeMapSize) child (q % radixTreeMapSize)).IsNode
        rw [Function.update_self]
        exact isNode

end Miracle.Idr
