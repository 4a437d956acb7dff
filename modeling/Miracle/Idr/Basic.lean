import Mathlib.Data.BitVec
import Miracle.RadixTree.Basic

/-! # The IDR

An IDR is a radix tree in which the tag `IDR_FREE` of a slot says that there is a free id below it.  A slot that is in
use may hold `NULL`.
-/

namespace Miracle.Idr

open RadixTree BitScan

/-! ## Searching a free slot -/

/-- Where `idr_get_free` is: at the label `grow`, or at the head of its loop with a slot and the shift of the slot's
    node. -/
inductive Label where
  | grow
  | walk (slot : Path) (shift : Nat)

def Label.rank : Label → Nat × Nat
  | grow => (1, 0)
  | walk _ shift => (0, shift)

/-- The result of `idr_get_free`: an error, or a slot and its index. -/
inductive FreeSlot where
  | error (root : Root) (err : Int)
  | slot (root : Root) (slot : Path) (index : Nat)

/-- The way back to a node in which the next offset exists: its slot and its shift, or none above the head. -/
def climb (root : Root) (shift offset : Nat) : Path → Option (Path × Nat)
  | [] => if offset = radixTreeMapSize then none else some ([offset], shift)
  | o :: parent =>
      if offset = radixTreeMapSize then climb root (root.head.atPath parent).shift (o + 1) parent
      else some (offset :: o :: parent, shift)

/-- The child node that `idr_get_free` adds in an empty slot. -/
def addChild (root : Root) (slot : Path) (shift : Nat) : Root :=
  let child := (radixTreeNodeAlloc shift 0).allTagSet idrFree
  match slot with
  | [] => { root with head := child }
  | offset :: node => root.modify node fun e => (e.setSlot offset child).addCount 1

theorem lt_nextIndex {start shift offset : Nat} (later : descend shift start < offset) :
    start < nextIndex start shift offset := by
  have pos : 0 < 2 ^ shift := Nat.two_pow_pos shift
  have split : start / 2 ^ shift / radixTreeMapSize = start / (radixTreeMapSize * 2 ^ shift) := by
    rw [Nat.div_div_eq_div_mul, Nat.mul_comm]
  have digits := Nat.div_add_mod (start / 2 ^ shift) radixTreeMapSize
  rw [split] at digits
  have next : start / 2 ^ shift + 1 ≤ radixTreeMapSize * (start / (radixTreeMapSize * 2 ^ shift)) + offset := by
    unfold descend at later
    omega
  calc start
      < (start / 2 ^ shift + 1) * 2 ^ shift := Nat.lt_mul_of_div_lt (Nat.lt_succ_self _) pos
    _ ≤ (radixTreeMapSize * (start / (radixTreeMapSize * 2 ^ shift)) + offset) * 2 ^ shift :=
        Nat.mul_le_mul_right _ next
    _ = nextIndex start shift offset := by
        unfold nextIndex
        ring

/-- How a round of the loop ends. -/
inductive Turn where
  | nospc
  | grow (start : Nat)
  | walk (start : Nat) (slot : Path) (shift : Nat)

/-- A round of the loop at a node, whose slots have the shift `shift` -/
def turn (root : Root) (node : Path) (shift start max : Nat) : Turn :=
  let e := root.head.atPath node
  let offset := descend e.shift start
  if e.tagGet idrFree offset then .walk start (offset :: node) shift
  else
    let offset := findNextBit (e.tagGet idrFree) radixTreeMapSize (offset + 1)
    let start := nextIndex start e.shift offset
    if start > max then .nospc
    else match climb root shift offset node with
      | none => .grow start
      | some (slot, shift) => .walk start slot shift

theorem descend_lt (shift index : Nat) : descend shift index < radixTreeMapSize := Nat.mod_lt _ (by decide)

/-- A round that does not go down has passed some ids. -/
def Turn.Later (shift start max : Nat) : Turn → Prop
  | nospc => True
  | grow start' => start < start' ∧ start' ≤ max
  | walk start' _ shift' => start = start' ∧ shift = shift' ∨ start < start' ∧ start' ≤ max

theorem turn_later (root : Root) (node : Path) (shift start max : Nat) :
    (turn root node shift start max).Later shift start max := by
  unfold turn
  simp only
  generalize root.head.atPath node = e
  split
  · exact .inl ⟨rfl, rfl⟩
  · have later := (findNext_spec (e.tagGet idrFree) true radixTreeMapSize (descend e.shift start + 1)).2.1
      (descend_lt e.shift start)
    have more : start < nextIndex start e.shift
        (findNextBit (e.tagGet idrFree) radixTreeMapSize (descend e.shift start + 1)) := lt_nextIndex later
    generalize nextIndex start e.shift _ = next at *
    split
    · trivial
    · rename_i inside
      split
      · exact ⟨more, Nat.not_lt.mp inside⟩
      · exact .inr ⟨more, Nat.not_lt.mp inside⟩

theorem later_lex {shift start max start' shift' : Nat} {slot slot' : Path} (pos : ¬ shift = 0)
    (later : (Turn.walk start' slot' shift').Later (shift - radixTreeMapShift) start max) :
    Prod.Lex (· < ·) (Prod.Lex (· < ·) (· < ·)) (max + 1 - start', (Label.walk slot' shift').rank)
      (max + 1 - start, (Label.walk slot shift).rank) := by
  rcases later with ⟨rfl, rfl⟩ | ⟨more, inside⟩
  · apply Prod.Lex.right
    apply Prod.Lex.right
    simp only [radixTreeMapShift]
    omega
  · exact Prod.Lex.left _ _ (by omega)

/-- `idr_get_free` from a label on -/
def idrGetFreeFrom (mem : Memory) (root : Root) (start max : Nat) : Label → FreeSlot
  | .grow =>
      let last := maxindex root.head
      let start' := if root.tags idrFree then start else Nat.max start (last + 1)
      if start' > max then .error root (-enospc)
      else
        match (if start' > last then radixTreeExtend mem root start' (rootShift root.head)
          else (root, some (rootShift root.head), mem)) with
        | (root, none, _) => .error root (-enomem)
        | (root, some shift, mem) =>
            idrGetFreeFrom mem root start' max
              (.walk [] (if start' = 0 ∧ shift = 0 then radixTreeMapShift else shift))
  | .walk slot shift =>
      if shift = 0 then .slot root slot start
      else
        match root.head.atPath slot with
        | .item p =>
            if p ≠ 0 then .slot root slot start
            else if mem 0 then
              let root := addChild root slot (shift - radixTreeMapShift)
              match _result : turn root slot (shift - radixTreeMapShift) start max with
              | .nospc => .error root (-enospc)
              | .grow start' => idrGetFreeFrom mem.rest root start' max .grow
              | .walk start' slot' shift' => idrGetFreeFrom mem.rest root start' max (.walk slot' shift')
            else .error root (-enomem)
        | .node .. =>
            match _result : turn root slot (shift - radixTreeMapShift) start max with
            | .nospc => .error root (-enospc)
            | .grow start' => idrGetFreeFrom mem root start' max .grow
            | .walk start' slot' shift' => idrGetFreeFrom mem root start' max (.walk slot' shift')
termination_by label => (max + 1 - start, label.rank)
decreasing_by
  · apply Prod.Lex.right'
    · split
      · exact le_rfl
      · exact Nat.sub_le_sub_left (Nat.le_max_left _ _) _
    · exact Prod.Lex.left _ _ Nat.zero_lt_one
  all_goals
    have later := turn_later root slot (shift - radixTreeMapShift) start max
    rw [‹turn _ _ _ _ _ = _›] at later
  · exact Prod.Lex.left _ _ (by simp only [Turn.Later] at later; omega)
  · exact later_lex ‹_› later
  · exact Prod.Lex.left _ _ (by simp only [Turn.Later] at later; omega)
  · exact later_lex ‹_› later

/-- `idr_get_free` -/
def idrGetFree (mem : Memory) (root : Root) (start max : Nat) : FreeSlot := idrGetFreeFrom mem root start max .grow

/-! ## The IDR functions -/

/-- `INT_MAX` -/
def intMax : BitVec 64 := 2 ^ 31 - 1

/-- `struct idr` -/
structure State where
  rt : Root
  base : BitVec 32
  next : BitVec 32

/-- `idr_init_base` -/
def idrInitBase (base : BitVec 32) : State := ⟨⟨.null, fun tag => tag == idrFree, true⟩, base, 0⟩

/-- `id - idr->idr_base` for a `u64` -/
def State.index (idr : State) (id : BitVec 64) : Nat := (id - idr.base.setWidth 64).toNat

/-- `idr_alloc_u32`: the IDR, `*nextid` and the result -/
def idrAllocU32 (mem : Memory) (idr : State) (ptr : Pointer) (nextid : BitVec 32) (max : BitVec 64) :
    State × BitVec 32 × Int :=
  let rt := if idr.rt.isIdr then idr.rt else { idr.rt.tagSet idrFree with isIdr := true }
  let id := if nextid < idr.base then 0 else nextid - idr.base
  match idrGetFree mem rt id.toNat (idr.index max) with
  | .error rt err => ({ idr with rt := rt }, nextid, err)
  | .slot rt slot index =>
      let rt := radixTreeReplace rt slot (.item ptr)
      let iterSlot := match slot with
        | [] => []
        | _ :: node => index % radixTreeMapSize :: node
      ({ idr with rt := nodeTagClear rt idrFree iterSlot }, BitVec.ofNat 32 index + idr.base, 0)

/-- `end > 0 ? end - 1 : INT_MAX` -/
def lastId (end_ : BitVec 32) : BitVec 64 := if end_.toInt > 0 then (end_ - 1).signExtend 64 else intMax

/-- `idr_alloc` -/
def idrAlloc (mem : Memory) (idr : State) (ptr : Pointer) (start end_ : BitVec 32) : State × Int :=
  if start.toInt < 0 then (idr, -einval)
  else
    let (idr, id, ret) := idrAllocU32 mem idr ptr start (lastId end_)
    if ret ≠ 0 then (idr, ret) else (idr, id.toInt)

/-- `idr_alloc_cyclic`, with the memory of the first and of the second search -/
def idrAllocCyclic (mem mem' : Memory) (idr : State) (ptr : Pointer) (start end_ : BitVec 32) : State × Int :=
  let id := if idr.next.toInt < start.toInt then start else idr.next
  let (idr, id, err) := idrAllocU32 mem idr ptr id (lastId end_)
  let (idr, id, err) :=
    if err = -enospc ∧ id > start then idrAllocU32 mem' idr ptr start (lastId end_) else (idr, id, err)
  if err ≠ 0 then (idr, err) else ({ idr with next := id + 1 }, id.toInt)

/-- `idr_remove`; none where the walk does not return. -/
def idrRemove (idr : State) (id : BitVec 64) : Option (State × Pointer) :=
  (radixTreeDeleteItem idr.rt (idr.index id) 0).map fun (rt, entry) => ({ idr with rt := rt }, entry.pointer)

def idrFind (idr : State) (id : BitVec 64) : Option Pointer :=
  (radixTreeLookup idr.rt (idr.index id)).map fun (_, entry) => entry.pointer

/-- `idr_replace`; the result is an error or the old pointer. -/
def idrReplace (idr : State) (ptr : Pointer) (id : BitVec 64) : Option (State × Except Int Pointer) :=
  match radixTreeLookup idr.rt (idr.index id) with
  | none => none
  | some (none, _) => some (idr, .error (-enoent))
  | some (some slot, entry) =>
      match radixTreeTagGet idr.rt (idr.index id) idrFree with
      | none => none
      | some true => some (idr, .error (-enoent))
      | some false => some ({ idr with rt := radixTreeReplace idr.rt slot (.item ptr) }, .ok entry.pointer)

/-- `radix_tree_iter_find` as `idr_get_next` and `idr_get_next_ul` call it: the id and the pointer it finds, if any -/
def idrIterFind (rounds : Nat) (idr : State) (nextid : BitVec 64) : Option (Option (BitVec 64 × Pointer)) :=
  let base := idr.base.setWidth 64
  let id := if nextid < base then 0 else nextid - base
  (radixTreeNextChunk idr.rt rounds id.toNat).map fun found =>
    found.map fun (index, slot) => (BitVec.ofNat 64 index + base, (idr.rt.head.atPath slot).pointer)

/-- `idr_get_next_ul`: `*nextid` and the pointer -/
def idrGetNextUl (rounds : Nat) (idr : State) (nextid : BitVec 64) : Option (BitVec 64 × Pointer) :=
  (idrIterFind rounds idr nextid).map fun
    | none => (nextid, 0)
    | some (id, ptr) => (id, ptr)

/-- `idr_get_next`, which keeps to ids that are an `int` -/
def idrGetNext (rounds : Nat) (idr : State) (nextid : BitVec 32) : Option (BitVec 32 × Pointer) :=
  (idrIterFind rounds idr (nextid.signExtend 64)).map fun
    | none => (nextid, 0)
    | some (id, ptr) => if id > intMax then (nextid, 0) else (id.setWidth 32, ptr)

end Miracle.Idr
