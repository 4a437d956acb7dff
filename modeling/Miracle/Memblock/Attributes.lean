import Miracle.Memblock.Refinement

/-! # Attributes of memory regions

The attributes share one flag word.  `MEMBLOCK_MOVABLE` is the union of the bits of the
other two, so that every mark of one attribute shows in another one.
-/

namespace Miracle.Memblock

open Extent

def memblockIsDma (r : Region) : Bool := r.tag &&& Flags.dma != 0

def memblockIsMovable (r : Region) : Bool := r.tag &&& Flags.movable != 0

/-- The flag of an attribute. -/
def Attribute.flag : Attribute → Flags
  | .nomap => Flags.nomap
  | .dma => Flags.dma
  | .movable => Flags.movable

/-- `memblock_is_nomap`, `memblock_is_dma` or `memblock_is_movable`. -/
def Attribute.holds : Attribute → Region → Bool
  | .nomap => memblockIsNomap
  | .dma => memblockIsDma
  | .movable => memblockIsMovable

/-- A call of one of the six functions that mark and clear an attribute. -/
structure FlagCall where
  env : Env
  attr : Attribute
  set : Bool
  base : BitVec 64
  size : BitVec 64

namespace FlagCall

def call (c : FlagCall) (mb : State) : Except Bug (State × Int) :=
  match c.attr, c.set with
  | .nomap, true => memblockMarkNomap c.env mb c.base.toNat c.size.toNat
  | .nomap, false => memblockClearNomap c.env mb c.base.toNat c.size.toNat
  | .dma, true => memblockMarkDma c.env mb c.base.toNat c.size.toNat
  | .dma, false => memblockClearDma c.env mb c.base.toNat c.size.toNat
  | .movable, true => memblockMarkMovable c.env mb c.base.toNat c.size.toNat
  | .movable, false => memblockClearMovable c.env mb c.base.toNat c.size.toNat

theorem call_eq (c : FlagCall) (mb : State) :
    c.call mb = memblockSetclrFlag c.env mb c.base.toNat c.size.toNat c.set c.attr.flag := by
  obtain ⟨env, attr, set, base, size⟩ := c
  cases attr <;> cases set <;> rfl

/-- The address lies in the range of the call. -/
def Covers (c : FlagCall) (a : Nat) : Prop := InRange c.base.toNat c.size.toNat a

instance (c : FlagCall) (a : Nat) : Decidable (c.Covers a) :=
  inferInstanceAs (Decidable (InRange c.base.toNat c.size.toNat a))

end FlagCall

/-- A sequence of calls that all return zero. -/
def flagRun (mb : State) : List FlagCall → Option State
  | [] => some mb
  | c :: calls =>
      match c.call mb with
      | .ok (mb', 0) => flagRun mb' calls
      | _ => none

/-- What the region that contains the address reports for the attribute. -/
def reports (mb : State) (a : Nat) (attr : Attribute) : Option Bool :=
  (mb.memory.regions.find? (fun r => decide (r.Contains a))).map attr.holds

/-- Was the last call for the attribute that covers the address a mark? -/
def lastIsMark (attr : Attribute) (a : Nat) (calls : List FlagCall) : Bool :=
  match (calls.filter (fun c => decide (c.attr = attr ∧ c.Covers a))).getLast? with
  | some c => c.set
  | none => false

/-- Each attribute of the address is what its own calls have made it, and no call has changed
    what the other attributes report. -/
def Independent (mb : State) (calls : List FlagCall) (a : Nat) : Prop :=
  (∀ mb' attr, flagRun mb calls = some mb' → reports mb' a attr = some (lastIsMark attr a calls)) ∧
    ∀ pre c before after, pre ++ [c] <+: calls → flagRun mb pre = some before →
      flagRun mb (pre ++ [c]) = some after →
        ∀ attr, attr ≠ c.attr → reports after a attr = reports before a attr

/-! ## The flags at an address -/

def Attribute.on (attr : Attribute) (flags : Flags) : Bool := flags &&& attr.flag != 0

theorem reports_eq (mb : State) (a : Nat) (attr : Attribute) :
    reports mb a attr = (mb.map .memory a).map attr.on := by
  rw [reports, State.map, State.type, lookup, Option.map_map]
  cases attr <;> rfl

theorem flagRun_append {mb : State} {pre rest : List FlagCall} :
    flagRun mb (pre ++ rest) = (flagRun mb pre).bind (flagRun · rest) := by
  induction pre generalizing mb with
  | nil => rfl
  | cons c pre ih =>
      simp only [List.cons_append, flagRun]
      split
      · exact ih
      · rfl

theorem call_map {c : FlagCall} {mb mb' : State} (inv : Inv mb) (done : c.call mb = .ok (mb', 0)) :
    Inv mb' ∧ mb'.map .memory = reflagRange c.set c.attr.flag c.base.toNat c.size.toNat (mb.map .memory) := by
  rw [c.call_eq] at done
  obtain ⟨mid, moved, inv', outcome⟩ := memblockSetclrFlag_ok inv done
  rcases outcome with ⟨-, edit⟩ | ⟨failed, -⟩
  · exact ⟨inv', by rw [edit.map_eq, moved.map_memory]⟩
  · exact absurd failed (by decide)

theorem flagRun_singleton {c : FlagCall} {mb mb' : State} (done : flagRun mb [c] = some mb') :
    c.call mb = .ok (mb', 0) := by
  simp only [flagRun] at done
  split at done
  · rename_i result
    cases done
    exact result
  · cases done

/-- The invariant and the flags of an address after a run. -/
theorem flagRun_map {mb mb' : State} {calls : List FlagCall} (inv : Inv mb)
    (done : flagRun mb calls = some mb') (a : Nat) :
    Inv mb' ∧ mb'.map .memory a =
      calls.foldl (fun m c => if c.Covers a then m.map (newFlags c.set c.attr.flag) else m)
        (mb.map .memory a) := by
  induction calls using List.reverseRecOn generalizing mb' with
  | nil =>
      cases done
      exact ⟨inv, rfl⟩
  | append_singleton pre c ih =>
      rw [flagRun_append] at done
      obtain ⟨before, first, last⟩ := Option.bind_eq_some_iff.mp done
      obtain ⟨inv', flags⟩ := ih first
      obtain ⟨inv'', map⟩ := call_map inv' (flagRun_singleton last)
      refine ⟨inv'', ?_⟩
      rw [List.foldl_append, ← flags, map]
      rfl

/-- Clearing leaves an address without flags as it is. -/
theorem newFlags_clear (flag : Flags) : newFlags false flag Flags.none = Flags.none := by
  simp [newFlags, Flags.none]

/-- A mark of an attribute on an address without flags shows in another attribute. -/
theorem mark_shows (attr : Attribute) : ∃ other, other ≠ attr ∧
    other.on Flags.none = false ∧ other.on (newFlags true attr.flag Flags.none) = true := by
  cases attr with
  | nomap => exact ⟨.movable, by decide, by decide, by decide⟩
  | dma => exact ⟨.movable, by decide, by decide, by decide⟩
  | movable => exact ⟨.nomap, by decide, by decide, by decide⟩

theorem flags_of_no_mark {calls : List FlagCall} {a : Nat}
    (clear : ∀ c ∈ calls, c.Covers a → c.set = false) :
    calls.foldl (fun m c => if c.Covers a then m.map (newFlags c.set c.attr.flag) else m)
      (some Flags.none) = some Flags.none := by
  induction calls with
  | nil => rfl
  | cons c calls ih =>
      have rest := ih (fun d member => clear d (by simp [member]))
      rw [List.foldl_cons]
      by_cases covers : c.Covers a
      · rw [if_pos covers, clear c (by simp) covers, Option.map_some, newFlags_clear]
        exact rest
      · rw [if_neg covers]
        exact rest

/-- The first mark that covers the address, if there is one. -/
theorem first_mark {calls : List FlagCall} {a : Nat}
    (marked : ¬ ∀ c ∈ calls, c.Covers a → c.set = false) :
    ∃ pre c, pre ++ [c] <+: calls ∧ c.Covers a ∧ c.set = true ∧
      ∀ d ∈ pre, d.Covers a → d.set = false := by
  induction calls with
  | nil => exact absurd (by simp) marked
  | cons c calls ih =>
      by_cases here : c.Covers a ∧ c.set = true
      · exact ⟨[], c, by simp, here.1, here.2, by simp⟩
      · have clear : c.Covers a → c.set = false := by
          intro covers
          simpa [covers] using here
        have later : ¬ ∀ d ∈ calls, d.Covers a → d.set = false := by
          intro all
          refine marked (fun d member covers => ?_)
          rcases List.mem_cons.mp member with rfl | member
          · exact clear covers
          · exact all d member covers
        obtain ⟨pre, d, le, covers, set, before⟩ := ih later
        refine ⟨c :: pre, d, List.cons_prefix_cons.mpr ⟨rfl, le⟩, covers, set, fun e member => ?_⟩
        rcases List.mem_cons.mp member with rfl | member
        · exact clear
        · exact before e member

theorem lastIsMark_of_no_mark {calls : List FlagCall} {a : Nat}
    (clear : ∀ c ∈ calls, c.Covers a → c.set = false) (attr : Attribute) :
    lastIsMark attr a calls = false := by
  unfold lastIsMark
  split
  · rename_i c last
    have member := List.mem_of_getLast? last
    simp only [List.mem_filter, decide_eq_true_eq] at member
    exact clear c member.1 member.2.2
  · rfl

theorem flagRun_prefix {mb mb' : State} {pre calls : List FlagCall} (le : pre <+: calls)
    (done : flagRun mb calls = some mb') : ∃ mid, flagRun mb pre = some mid := by
  obtain ⟨rest, rfl⟩ := le
  rw [flagRun_append] at done
  obtain ⟨mid, first, -⟩ := Option.bind_eq_some_iff.mp done
  exact ⟨mid, first⟩

/-- For an address of plain memory the attributes are independent exactly when no call that
    covers it is a mark. -/
theorem independent_iff_no_mark {mb mb' : State} {calls : List FlagCall} (inv : Inv mb)
    (done : flagRun mb calls = some mb') {a : Nat} (plain : mb.map .memory a = some Flags.none) :
    Independent mb calls a ↔ ∀ c ∈ calls, c.Covers a → c.set = false := by
  have unmarked {pre : List FlagCall} {mid : State} (first : flagRun mb pre = some mid)
      (clear : ∀ c ∈ pre, c.Covers a → c.set = false) : mid.map .memory a = some Flags.none := by
    rw [(flagRun_map inv first a).2, plain, flags_of_no_mark clear]
  constructor
  · rintro ⟨-, frame⟩
    by_contra marked
    obtain ⟨pre, c, le, covers, set, clear⟩ := first_mark marked
    obtain ⟨before, first⟩ := flagRun_prefix ((List.prefix_append _ _).trans le) done
    obtain ⟨after, second⟩ := flagRun_prefix le done
    obtain ⟨other, ne, off, on⟩ := mark_shows c.attr
    have same := frame pre c before after le first second other ne
    have flags := (flagRun_map inv second a).2
    rw [List.foldl_append, ← (flagRun_map inv first a).2, unmarked first clear, List.foldl_cons,
      List.foldl_nil, if_pos covers, set, Option.map_some] at flags
    rw [reports_eq, reports_eq, flags, unmarked first clear, Option.map_some, Option.map_some, off,
      on] at same
    cases same
  · intro clear
    have off (attr : Attribute) : attr.on Flags.none = false := by cases attr <;> decide
    refine ⟨fun mb'' attr all => ?_, fun pre c before after le first second attr _ => ?_⟩
    · rw [reports_eq, unmarked all clear, lastIsMark_of_no_mark clear, Option.map_some, off]
    · have sub : ∀ d ∈ pre ++ [c], d.Covers a → d.set = false := fun d member => clear d (le.subset member)
      rw [reports_eq, reports_eq, unmarked second sub,
        unmarked first (fun d member => sub d (by simp [member]))]

/-! ## Four pages of memory -/

def State.fourPages : State :=
  { State.init with
    memory := { MemblockType.init with regions := [⟨0x4000, 0x4000, Flags.none⟩], totalSize := 0x4000 } }

theorem State.fourPages_inv : Inv State.fourPages := by
  intro ty
  cases ty with
  | memory =>
      refine ⟨by decide, by decide, by decide, .inl (by decide), ?_, by decide⟩
      unfold Bounded
      decide
  | reserved => exact ⟨by decide, by decide, by decide, .inr rfl, by unfold Bounded; decide, by decide⟩

def clearDma : FlagCall := ⟨Env.early, .dma, false, 0x5000, 0x1000⟩

def markNomap : FlagCall := ⟨Env.early, .nomap, true, 0x5000, 0x1000⟩

theorem fourPages_clear_independent : ∃ mb', flagRun State.fourPages [clearDma] = some mb' ∧
    Independent State.fourPages [clearDma] 0x5000 := by
  have returns : (flagRun State.fourPages [clearDma]).isSome = true := by decide +kernel
  obtain ⟨mb', done⟩ := Option.isSome_iff_exists.mp returns
  refine ⟨mb', done, (independent_iff_no_mark State.fourPages_inv done (by decide)).mpr ?_⟩
  intro c member _
  obtain rfl := List.mem_singleton.mp member
  rfl

/-- A page that is only marked as not mapped is reported to be movable. -/
theorem fourPages_mark_movable : ∃ mb', flagRun State.fourPages [markNomap] = some mb' ∧
    reports mb' 0x5000 .movable = some true ∧ lastIsMark .movable 0x5000 [markNomap] = false ∧
      ¬ Independent State.fourPages [markNomap] 0x5000 := by
  have returns : (match flagRun State.fourPages [markNomap] with
      | some mb' => decide (reports mb' 0x5000 .movable = some true)
      | none => false) = true := by decide +kernel
  split at returns
  · rename_i mb' done
    have shown := of_decide_eq_true returns
    refine ⟨mb', done, shown, by decide, fun independent => ?_⟩
    have said := independent.1 mb' .movable done
    rw [shown] at said
    exact absurd said (by decide)
  · cases returns

end Miracle.Memblock
