import Miracle.Lib.BitScan

/-! # The radix tree

A tree of nodes with `RADIX_TREE_MAP_SIZE` slots.  A slot is named by its path, the offsets on the way to it with the
innermost one first, and a node by the path of the slot that points to it.  The fields `offset` and `parent` of a node
are therefore the head and the tail of its path.  Nothing reads `nr_values`, and it is left out.
-/

namespace Miracle.RadixTree

open BitScan

/-- `RADIX_TREE_MAP_SHIFT`, without `CONFIG_BASE_SMALL` -/
def radixTreeMapShift : Nat := 6

def radixTreeMapSize : Nat := 64

def radixTreeMaxTags : Nat := 3

def idrFree : Nat := 0

def enoent : Int := 2

def enomem : Int := 12

def einval : Int := 22

def enospc : Int := 28

abbrev Pointer := BitVec 64

/-- `RADIX_TREE_RETRY` is `xa_mk_internal(256)`. -/
def radixTreeRetry : Pointer := 256#64 <<< 2 ||| 2

/-- `radix_tree_is_internal_node` on a word that is not a pointer to a node -/
def looksInternal (p : Pointer) : Bool := p &&& 3 == 2

inductive Entry where
  | item (p : Pointer)
  | node (shift count : Nat) (tags : Nat → Bitmap) (slots : Nat → Entry)

abbrev Path := List Nat

/-! ## Reading and writing a node -/

namespace Entry

def null : Entry := item 0

def isNull : Entry → Bool
  | item p => p == 0
  | node .. => false

/-- The word that a slot holds, if it is not a pointer to a node. -/
def pointer : Entry → Pointer
  | item p => p
  | node .. => 0

def shift : Entry → Nat
  | item _ => 0
  | node shift .. => shift

def count : Entry → Nat
  | item _ => 0
  | node _ count .. => count

def tagGet : Entry → Nat → Nat → Bool
  | item _, _, _ => false
  | node _ _ tags _, tag, offset => tags tag offset

def slot : Entry → Nat → Entry
  | item _, _ => null
  | node _ _ _ slots, offset => slots offset

def tagSet (tag offset : Nat) : Entry → Entry
  | item p => item p
  | node shift count tags slots => node shift count (Function.update tags tag (setBit (tags tag) offset)) slots

def tagClear (tag offset : Nat) : Entry → Entry
  | item p => item p
  | node shift count tags slots => node shift count (Function.update tags tag (bitmapClear (tags tag) offset 1)) slots

def setSlot : Entry → Nat → Entry → Entry
  | item p, _, _ => item p
  | node shift count tags slots, offset, entry => node shift count tags (Function.update slots offset entry)

/-- `node->count` is an `unsigned char`. -/
def addCount (change : Int) : Entry → Entry
  | item p => item p
  | node shift count tags slots => node shift ((count + change) % 256).toNat tags slots

/-- `all_tag_set` -/
def allTagSet (tag : Nat) : Entry → Entry
  | item p => item p
  | node shift count tags slots =>
      node shift count (Function.update tags tag (bitmapSet (tags tag) 0 radixTreeMapSize)) slots

def anyTagSet (tag : Nat) (e : Entry) : Bool := (List.range radixTreeMapSize).any (e.tagGet tag)

/-- What the slot with the given path holds. -/
def atPath (e : Entry) : Path → Entry
  | [] => e
  | offset :: parent => (e.atPath parent).slot offset

def put (e : Entry) : Path → Entry → Entry
  | [], entry => entry
  | offset :: parent, entry => e.put parent ((e.atPath parent).setSlot offset entry)

end Entry

/-- `struct radix_tree_root` -/
structure Root where
  head : Entry
  tags : Nat → Bool
  isIdr : Bool

namespace Root

def put (root : Root) (p : Path) (entry : Entry) : Root := { root with head := root.head.put p entry }

def modify (root : Root) (p : Path) (f : Entry → Entry) : Root := root.put p (f (root.head.atPath p))

def tagSet (root : Root) (tag : Nat) : Root := { root with tags := Function.update root.tags tag true }

def tagClear (root : Root) (tag : Nat) : Root := { root with tags := Function.update root.tags tag false }

end Root

/-! ## Indices -/

def shiftMaxindex (shift : Nat) : Nat := radixTreeMapSize * 2 ^ shift - 1

/-- The offset that `radix_tree_descend` takes at a node. -/
def descend (shift index : Nat) : Nat := index / 2 ^ shift % radixTreeMapSize

def nextIndex (index shift offset : Nat) : Nat :=
  index / (radixTreeMapSize * 2 ^ shift) * (radixTreeMapSize * 2 ^ shift) + offset * 2 ^ shift

/-- The `*maxindex` of `radix_tree_load_root` -/
def maxindex : Entry → Nat
  | .item _ => 0
  | .node shift .. => shiftMaxindex shift

/-- The result of `radix_tree_load_root` -/
def rootShift : Entry → Nat
  | .item _ => 0
  | .node shift .. => shift + radixTreeMapShift

/-! ## Height -/

/-- The outcomes of the calls of `radix_tree_node_alloc` to come. -/
abbrev Memory := Nat → Bool

def Memory.rest (mem : Memory) : Memory := fun n => mem (n + 1)

/-- The first loop of `radix_tree_extend` -/
def maxShift (index shift : Nat) : Nat :=
  if index > shiftMaxindex shift then maxShift index (shift + radixTreeMapShift) else shift
termination_by index - shift
decreasing_by
  rename_i larger
  have power := @Nat.lt_two_pow_self shift
  simp only [shiftMaxindex, radixTreeMapSize, radixTreeMapShift] at larger ⊢
  omega

/-- `radix_tree_node_alloc`: the slab hands out zeroed nodes. -/
def radixTreeNodeAlloc (shift count : Nat) : Entry := .node shift count (fun _ _ => false) fun _ => .null

/-- The node that `radix_tree_extend` puts above the head. -/
def extendedNode (root : Root) (shift : Nat) : Entry :=
  let node := radixTreeNodeAlloc shift 1
  let node :=
    if root.isIdr then
      let node := node.allTagSet idrFree
      if root.tags idrFree then node else node.tagClear idrFree 0
    else
      (List.range radixTreeMaxTags).foldl (fun node tag => if root.tags tag then node.tagSet tag 0 else node) node
  node.setSlot 0 root.head

/-- The second loop of `radix_tree_extend`; the flag tells whether it had all its nodes. -/
def extendLoop (mem : Memory) (root : Root) (shift maxshift : Nat) : Root × Bool × Memory :=
  if mem 0 then
    let head := extendedNode root shift
    let root := if root.isIdr && !root.tags idrFree then root.tagSet idrFree else root
    let root := { root with head := head }
    if shift + radixTreeMapShift ≤ maxshift then extendLoop mem.rest root (shift + radixTreeMapShift) maxshift
    else (root, true, mem.rest)
  else (root, false, mem.rest)
termination_by maxshift - shift
decreasing_by
  simp only [radixTreeMapShift] at *
  omega

/-- `radix_tree_extend`; the result is the new shift, or none for `-ENOMEM`. -/
def radixTreeExtend (mem : Memory) (root : Root) (index shift : Nat) : Root × Option Nat × Memory :=
  let maxshift := maxShift index shift
  if root.head.isNull && (!root.isIdr || root.tags idrFree) then (root, some (maxshift + radixTreeMapShift), mem)
  else
    let (root, complete, mem) := extendLoop mem root shift maxshift
    (root, if complete then some (maxshift + radixTreeMapShift) else none, mem)

/-- The loop of `radix_tree_shrink` -/
def shrinkLoop (isIdr : Bool) : Entry → (Nat → Bool) → Entry × (Nat → Bool)
  | .item p, tags => (.item p, tags)
  | .node shift count tags' slots, tags =>
      if count ≠ 1 then (.node shift count tags' slots, tags)
      else if (slots 0).isNull then (.node shift count tags' slots, tags)
      else if shift = 0 && isIdr then (.node shift count tags' slots, tags)
      else shrinkLoop isIdr (slots 0) (if isIdr && !tags' idrFree 0 then Function.update tags idrFree false else tags)

def radixTreeShrink (root : Root) : Root :=
  let (head, tags) := shrinkLoop root.isIdr root.head root.tags
  { root with head := head, tags := tags }

/-- `delete_node` of the node with the given path -/
def deleteNode (root : Root) : Path → Root
  | [] =>
      if root.head.count ≠ 0 then radixTreeShrink root
      else { root with head := .null, tags := if root.isIdr then root.tags else fun _ => false }
  | offset :: parent =>
      if (root.head.atPath (offset :: parent)).count ≠ 0 then root
      else deleteNode (root.modify parent fun e => (e.setSlot offset .null).addCount (-1)) parent

/-! ## Tags -/

/-- `node_tag_get`; the node and the offset are those of the slot. -/
def nodeTagGet (root : Root) (tag : Nat) : Path → Bool
  | [] => root.tags tag
  | offset :: node => (root.head.atPath node).tagGet tag offset

def nodeTagSet (root : Root) (tag : Nat) : Path → Root
  | [] => if root.tags tag then root else root.tagSet tag
  | offset :: node =>
      if (root.head.atPath node).tagGet tag offset then root
      else nodeTagSet (root.modify node (Entry.tagSet tag offset)) tag node

def nodeTagClear (root : Root) (tag : Nat) : Path → Root
  | [] => if root.tags tag then root.tagClear tag else root
  | offset :: node =>
      if (root.head.atPath node).tagGet tag offset then
        let root := root.modify node (Entry.tagClear tag offset)
        if (root.head.atPath node).anyTagSet tag then root else nodeTagClear root tag node
      else root

/-- The loop of `radix_tree_tag_get`; none where a word that is not a node is read as one. -/
def tagGetLoop (tag index : Nat) : Entry → Option Bool
  | .item p => if looksInternal p && p != radixTreeRetry then none else some true
  | .node shift _ tags slots =>
      if tags tag (descend shift index) then tagGetLoop tag index (slots (descend shift index)) else some false

def radixTreeTagGet (root : Root) (index tag : Nat) : Option Bool :=
  if root.tags tag then
    if index > maxindex root.head then some false else tagGetLoop tag index root.head
  else some false

/-! ## Looking up and replacing -/

/-- How the walk of `__radix_tree_lookup` ends: at a slot, at a retry entry, or by reading a word that is not a node. -/
inductive Walk where
  | stop (slot : Path) (entry : Entry)
  | retry
  | wild

def lookupWalk (index : Nat) : Entry → Path → Walk
  | .item p, slot => if looksInternal p then .wild else .stop slot (.item p)
  | .node shift _ _ slots, node =>
      let offset := descend shift index
      if (slots offset).pointer = radixTreeRetry then .retry
      else if shift = 0 then .stop (offset :: node) (slots offset)
      else lookupWalk index (slots offset) (offset :: node)

/-- `__radix_tree_lookup`: the slot, if there is one, and the entry.  A retry entry sends it back to the root of a tree
    that nobody changes, and it does not return. -/
def radixTreeLookup (root : Root) (index : Nat) : Option (Option Path × Entry) :=
  if index > maxindex root.head then some (none, .null)
  else match lookupWalk index root.head [] with
    | .stop slot entry => some (some slot, entry)
    | .retry => none
    | .wild => none

/-- `calculate_count` -/
def calculateCount (root : Root) (slot : Path) (item old : Entry) : Int :=
  let change : Int := (if item.isNull then 0 else 1) - (if old.isNull then 0 else 1)
  if root.isIdr then
    if nodeTagGet root idrFree slot then (if old.isNull then 1 else change) else 0
  else change

/-- `replace_slot` -/
def replaceSlot (root : Root) (item : Entry) (count : Int) : Path → Root
  | [] => { root with head := item }
  | offset :: node => root.modify node fun e => (e.setSlot offset item).addCount count

/-- `__radix_tree_replace` -/
def radixTreeReplace (root : Root) (slot : Path) (item : Entry) : Root :=
  let root := replaceSlot root item (calculateCount root slot item (root.head.atPath slot)) slot
  match slot with
  | [] => root
  | _ :: node => deleteNode root node

/-- `__radix_tree_delete` -/
def radixTreeDelete (root : Root) (slot : Path) : Root :=
  let root :=
    if root.isIdr then nodeTagSet root idrFree slot
    else (List.range radixTreeMaxTags).foldl (fun root tag => nodeTagClear root tag slot) root
  let root := replaceSlot root .null (-1) slot
  match slot with
  | [] => root
  | _ :: node => deleteNode root node

/-- `radix_tree_delete_item`, where the item `NULL` stands for any -/
def radixTreeDeleteItem (root : Root) (index : Nat) (item : Pointer) : Option (Root × Entry) :=
  match radixTreeLookup root index with
  | none => none
  | some (none, _) => some (root, .null)
  | some (some slot, entry) =>
      if entry.isNull && (!root.isIdr || nodeTagGet root idrFree slot) then some (root, .null)
      else if item ≠ 0 ∧ entry.pointer ≠ item then some (root, .null)
      else some (radixTreeDelete root slot, entry)

/-! ## Iterating -/

/-- The next slot from `offset` on that is not empty. -/
def nextFilled (slots : Nat → Entry) (offset : Nat) : Nat :=
  findNextBit (fun o => !(slots o).isNull) radixTreeMapSize offset

/-- How a walk of `radix_tree_next_chunk` ends: with a chunk, with `NULL`, at the label `restart`, or by reading a word
    that is not a node. -/
inductive Chunk where
  | found (index : Nat) (slot : Path)
  | ended
  | restart (index : Nat)
  | wild

/-- The loop of `radix_tree_next_chunk` ends at a child that is not a node, and at any child of a leaf. -/
def lastNode (shift : Nat) (child : Entry) : Bool :=
  shift == 0 || match child with
    | .item p => !looksInternal p || p == radixTreeRetry
    | .node .. => false

/-- The walk of `radix_tree_next_chunk` without flags, from a node on -/
def chunkWalk (index : Nat) : Entry → Path → Chunk
  | .item _, _ => .wild
  | .node shift _ _ slots, node =>
      let offset := descend shift index
      if (slots offset).isNull then
        -- a hole
        let offset := nextFilled slots (offset + 1)
        let index := nextIndex index shift offset % 2 ^ 64
        if index = 0 then .ended
        else if offset = radixTreeMapSize then .restart index
        else if lastNode shift (slots offset) then .found (nextIndex index shift 0 + offset) (offset :: node)
        else chunkWalk index (slots offset) (offset :: node)
      else if lastNode shift (slots offset) then .found (nextIndex index shift 0 + offset) (offset :: node)
      else chunkWalk index (slots offset) (offset :: node)

/-- `radix_tree_next_chunk` without flags; `none` while it is still running. -/
def radixTreeNextChunk (root : Root) : Nat → Nat → Option (Option (Nat × Path))
  | 0, _ => none
  | rounds + 1, index =>
      if index > maxindex root.head then some none
      else match root.head with
        | .item p => if p = 0 then some none else some (some (index, []))
        | .node .. =>
            match chunkWalk index root.head [] with
            | .found index slot => some (some (index, slot))
            | .ended => some none
            | .wild => none
            | .restart index => radixTreeNextChunk root rounds index

/-! ## Levels and paths

The nodes of level `k` have the shift `6 * k`, and each of their slots covers `span k` indices.  The path to the slot of
an index at some level is the list of the digits of the index above that level.
-/

open BitScan

/-! ## Digits -/

def span (k : Nat) : Nat := radixTreeMapSize ^ k

theorem span_pos (k : Nat) : 0 < span k := Nat.pow_pos (by decide)

theorem span_succ (k : Nat) : span (k + 1) = radixTreeMapSize * span k := by
  rw [span, span, Nat.pow_succ, Nat.mul_comm]

theorem two_pow_shift (k : Nat) : 2 ^ (radixTreeMapShift * k) = span k := by
  rw [Nat.pow_mul]
  rfl

theorem div_span_succ (i k : Nat) : i / span (k + 1) = i / span k / radixTreeMapSize := by
  rw [span_succ, Nat.div_div_eq_div_mul, Nat.mul_comm]

/-- An index whose high digits are few is small. -/
theorem lt_span {i k n : Nat} (few : i / span (k + 1) < span n) : i < span (k + n + 1) := by
  have power : span (k + n + 1) = span n * span (k + 1) := by
    rw [span, span, span, ← Nat.pow_add]
    congr 1
    omega
  rw [power]
  exact Nat.lt_mul_of_div_lt few (span_pos _)

theorem descend_eq (k i : Nat) : descend (radixTreeMapShift * k) i = i / span k % radixTreeMapSize := by
  rw [descend, two_pow_shift]

theorem shiftMaxindex_eq (k : Nat) : shiftMaxindex (radixTreeMapShift * k) = span (k + 1) - 1 := by
  rw [shiftMaxindex, two_pow_shift, span_succ]

theorem nextIndex_eq (i k o : Nat) :
    nextIndex i (radixTreeMapShift * k) o = (i / span k / radixTreeMapSize * radixTreeMapSize + o) * span k := by
  rw [nextIndex, two_pow_shift, ← span_succ, div_span_succ, span_succ]
  ring

/-- The lowest `n` digits, the lowest one first. -/
def digits : Nat → Nat → Path
  | 0, _ => []
  | n + 1, q => q % radixTreeMapSize :: digits n (q / radixTreeMapSize)

/-! ## Reading and writing along a path -/

namespace Entry

theorem isNull_iff {e : Entry} : e.isNull = true ↔ e = null := by
  cases e with
  | item p => simp [isNull, null]
  | node => simp [isNull, null]

@[simp] theorem slot_null (o : Nat) : null.slot o = null := rfl

@[simp] theorem slot_setSlot {shift count : Nat} {tags : Nat → Bitmap} {slots : Nat → Entry} (o : Nat) (e : Entry) :
    ((node shift count tags slots).setSlot o e).slot o = e := Function.update_self ..

def IsNode (e : Entry) : Prop := ∃ shift count tags slots, e = node shift count tags slots

theorem IsNode.ne_null {e : Entry} (isNode : e.IsNode) : e ≠ null := by
  obtain ⟨shift, count, tags, slots, rfl⟩ := isNode
  intro same
  cases same

theorem IsNode.isNull {e : Entry} (isNode : e.IsNode) : e.isNull = false := by
  obtain ⟨shift, count, tags, slots, rfl⟩ := isNode
  rfl

/-- A slot that is not empty is one of a node. -/
theorem isNode_of_slot {e : Entry} {o : Nat} (filled : e.slot o ≠ null) : e.IsNode := by
  cases e with
  | item p => exact absurd rfl filled
  | node shift count tags slots => exact ⟨shift, count, tags, slots, rfl⟩

/-- The path is the one of a slot. -/
def HasSlot (head : Entry) : Path → Prop
  | [] => True
  | _ :: q => (head.atPath q).IsNode

theorem HasSlot.of_isNode {head : Entry} {p : Path} (isNode : (head.atPath p).IsNode) : head.HasSlot p := by
  cases p with
  | nil => trivial
  | cons o q => exact isNode_of_slot isNode.ne_null

theorem atPath_put {head e : Entry} {p : Path} (slot : head.HasSlot p) : (head.put p e).atPath p = e := by
  induction p generalizing e with
  | nil => rfl
  | cons o q ih =>
      rw [put, atPath, ih (.of_isNode slot)]
      obtain ⟨shift, count, tags, slots, parent⟩ := slot
      rw [parent, slot_setSlot]

theorem put_put {head e e' : Entry} {p : Path} (slot : head.HasSlot p) : (head.put p e).put p e' = head.put p e' := by
  induction p generalizing e e' with
  | nil => rfl
  | cons o q ih =>
      rw [put, put, put, atPath_put (.of_isNode slot), ih (.of_isNode slot)]
      obtain ⟨shift, count, tags, slots, parent⟩ := slot
      simp only [parent, setSlot, Function.update_idem]

end Entry

namespace Root

variable {root : Root} {p : Path} {e e' : Entry} (isNode : (root.head.atPath p).IsNode)

include isNode

theorem atPath_put : (root.put p e).head.atPath p = e := Entry.atPath_put (.of_isNode isNode)

theorem put_put : (root.put p e).put p e' = root.put p e' := by
  rw [put, put, Entry.put_put (.of_isNode isNode)]
  rfl

end Root

/-! ## Counting slots -/

/-- The number of slots of a node with a property. -/
def slotsWith (p : Nat → Bool) : Nat := ((Finset.range radixTreeMapSize).filter fun o => p o = true).card

theorem slotsWith_insert {p p' : Nat → Bool} {o : Nat} (lt : o < radixTreeMapSize) (out : p o = false) (set : p' o = true)
    (same : ∀ j ≠ o, p' j = p j) : slotsWith p' = slotsWith p + 1 := by
  have split : ((Finset.range radixTreeMapSize).filter fun j => p' j = true) =
      insert o ((Finset.range radixTreeMapSize).filter fun j => p j = true) := by
    ext j
    rw [Finset.mem_insert, Finset.mem_filter, Finset.mem_filter, Finset.mem_range]
    by_cases here : j = o
    · subst here
      exact iff_of_true ⟨lt, set⟩ (.inl rfl)
    · rw [same j here, or_iff_right here]
  rw [slotsWith, split, Finset.card_insert_of_notMem, slotsWith]
  rw [Finset.mem_filter, out]
  exact fun member => absurd member.2 (by decide)

theorem slotsWith_congr {p p' : Nat → Bool} (same : ∀ o < radixTreeMapSize, p' o = p o) : slotsWith p' = slotsWith p := by
  unfold slotsWith
  congr 1
  apply Finset.filter_congr
  intro o member
  rw [same o (Finset.mem_range.mp member)]

theorem slotsWith_le (p : Nat → Bool) : slotsWith p ≤ radixTreeMapSize := by
  have le := Finset.card_filter_le (Finset.range radixTreeMapSize) fun o => p o = true
  rwa [Finset.card_range] at le

theorem slotsWith_eq_zero {p : Nat → Bool} : slotsWith p = 0 ↔ ∀ o < radixTreeMapSize, p o = false := by
  rw [slotsWith, Finset.card_eq_zero, Finset.filter_eq_empty_iff]
  simp only [Finset.mem_range, Bool.not_eq_true]

/-- The only slot in use. -/
theorem slotsWith_one {p : Nat → Bool} (one : slotsWith p = 1) {o : Nat} (lt : o < radixTreeMapSize) (set : p o = true) :
    ∀ j < radixTreeMapSize, j ≠ o → p j = false := by
  intro j small ne
  rw [slotsWith, Finset.card_eq_one] at one
  obtain ⟨only, single⟩ := one
  have first : o ∈ ({only} : Finset Nat) := by
    rw [← single, Finset.mem_filter, Finset.mem_range]
    exact ⟨lt, set⟩
  by_contra used
  have second : j ∈ ({only} : Finset Nat) := by
    rw [← single, Finset.mem_filter, Finset.mem_range]
    exact ⟨small, Bool.eq_true_of_not_eq_false used⟩
  rw [Finset.mem_singleton] at first second
  exact ne (second.trans first.symm)

/-! ## Changing a node -/

theorem slot_tagSet (e : Entry) (tag o o' : Nat) : (e.tagSet tag o).slot o' = e.slot o' := by
  cases e with
  | item p => rfl
  | node => rfl

theorem tagGet_setSlot (e e' : Entry) (tag o o' : Nat) : (e.setSlot o e').tagGet tag o' = e.tagGet tag o' := by
  cases e with
  | item p => rfl
  | node => rfl

theorem tagSet_setSlot (e e' : Entry) (tag o o' : Nat) : (e.setSlot o e').tagSet tag o' = (e.tagSet tag o').setSlot o e' := by
  cases e with
  | item p => rfl
  | node => rfl

theorem isNode_setSlot {e e' : Entry} {o : Nat} (isNode : e.IsNode) : (e.setSlot o e').IsNode := by
  obtain ⟨shift, count, tags, slots, rfl⟩ := isNode
  exact ⟨_, _, _, _, rfl⟩

theorem isNode_tagSet {e : Entry} {tag o : Nat} (isNode : e.IsNode) : (e.tagSet tag o).IsNode := by
  obtain ⟨shift, count, tags, slots, rfl⟩ := isNode
  exact ⟨_, _, _, _, rfl⟩

end Miracle.RadixTree
