import Miracle.Vmalloc.Frame
import Miracle.Vmalloc.Pcpu

/-! # Placing the per-CPU areas, and the early areas -/

namespace Miracle.Vmalloc

open SearchTree

/-! ## The whole scan -/

theorem vmallocRange {a : Nat} (power : isPowerOf2 a = true) (word : a < 2 ^ 64) :
    alignUp vmallocStart a ≤ alignDown vmallocEnd a := by
  simp only [isPowerOf2, Bool.and_eq_true, decide_eq_true_eq, beq_iff_eq] at power
  obtain ⟨k, rfl⟩ := (Nat.and_sub_one_eq_zero_iff_isPowerOfTwo power.1).mp power.2
  have small : k < 64 := (Nat.pow_lt_pow_iff_right (by decide)).mp word
  rcases Nat.lt_or_ge 48 k with large | fits
  · -- the start is rounded up past the end of the address space
    interval_cases k <;> decide
  · have whole : 2 ^ k ∣ vmallocStart := Nat.dvd_sub (pow_dvd_pow 2 small.le) (pow_dvd_pow 2 fits)
    obtain ⟨q, product⟩ := whole
    have pos : 0 < 2 ^ k := Nat.two_pow_pos k
    have up : alignUp vmallocStart (2 ^ k) = vmallocStart := by
      have round : (vmallocStart + (2 ^ k - 1)) / 2 ^ k = q := by
        rw [product, Nat.add_comm, Nat.add_mul_div_left _ _ pos, Nat.div_eq_of_lt (by omega), Nat.zero_add]
      unfold alignUp
      rw [round, Nat.mul_comm, ← product]
      exact u64_of_lt (by decide)
    have below : q ≤ vmallocEnd / 2 ^ k := by
      rw [Nat.le_div_iff_mul_le pos, Nat.mul_comm, ← product]
      decide
    rw [up, product, Nat.mul_comm]
    exact Nat.mul_le_mul_right _ below

section Scan

variable {root : BinTree VmapArea} {l : List VmapArea} {parts : List Part} {a lastEnd : Nat}

/-- A base at which all parts fit, below the limit. -/
def GoodBase (l : List VmapArea) (parts : List Part) (a lastEnd base : Nat) : Prop :=
  base + lastEnd ≤ alignDown vmallocEnd a ∧ ∀ p ∈ parts, FitsAt l base p

theorem u64Sub_dvd {a x y : Nat} (unit : a ∣ 2 ^ 64) (left : a ∣ x) (right : a ∣ y) : a ∣ u64Sub x y := by
  unfold u64Sub
  rw [Nat.dvd_mod_iff unit]
  exact Nat.dvd_sub (Nat.dvd_add unit left) right

theorem pvmDetermineEnd_dvd (root : BinTree VmapArea) (around : Around) (a : Nat) :
    a ∣ (pvmDetermineEnd root around a).1 := by
  unfold pvmDetermineEnd
  simp only
  split
  · rcases min_choice (alignDown _ a) (alignDown vmallocEnd a) with same | same
    · rw [same]
      exact Nat.dvd_mul_left a _
    · rw [same]
      exact Nat.dvd_mul_left a _
  · exact Nat.dvd_mul_left a _

/-- The base is always aligned: it moves to an aligned end, less the aligned end of a part. -/
theorem scanRound_dvd (unit : a ∣ 2 ^ 64) (units : ∀ p ∈ parts, a ∣ p.stop) {scan scan' : Scan} (place : scan.area < parts.length)
    (aligned : a ∣ scan.base) (done : scanRound root parts a lastEnd scan = .ok (.next scan')) : a ∣ scan'.base := by
  have lowered (around : Around) : a ∣ (lowerScan root a (partAt parts scan.area) scan around).base :=
    u64Sub_dvd unit (pvmDetermineEnd_dvd root around a) (units _ (partAt_mem place))
  simp only [scanRound] at done
  split at done
  · cases done
  · split at done
    · cases done
    · split at done
      · obtain rfl := ScanStep.next.inj (Except.ok.inj done)
        exact lowered _
      · split at done
        · obtain rfl := ScanStep.next.inj (Except.ok.inj done)
          exact lowered _
        · split at done
          · cases done
          · obtain rfl := ScanStep.next.inj (Except.ok.inj done)
            exact aligned

/-- A base in the range that is aligned. -/
structure BaseOk (l : List VmapArea) (parts : List Part) (a lastEnd base : Nat) : Prop where
  good : GoodBase l parts a lastEnd base
  lower : alignUp vmallocStart a ≤ base
  aligned : a ∣ base

/-- The scan ends when it is given enough rounds, and a base it finds is right. -/
theorem scanLoop_spec (setup : ScanSetup root l parts a lastEnd) (unit : a ∣ 2 ^ 64) (units : ∀ p ∈ parts, a ∣ p.stop)
    (rounds : Nat) {top turn : Nat} {scan : Scan} (ok : ScanOk l parts a lastEnd scan top turn) (aligned : a ∣ scan.base) :
    ∃ result, scanLoop root parts a lastEnd rounds scan = .ok result ∧
      (roundsLeft parts lastEnd scan top turn < rounds → result ≠ none) ∧
      ∀ base, result = some (some base) → BaseOk l parts a lastEnd base := by
  induction rounds generalizing scan top turn with
  | zero => exact ⟨none, rfl, fun less => absurd less (Nat.not_lt_zero _), nofun⟩
  | succ rounds ih =>
      obtain ⟨step, round, cases⟩ := scanRound_ok setup ok
      simp only [scanLoop, round, ok_bind]
      rcases cases with ⟨scan', top', turn', rfl, ok', less⟩ | ⟨rfl, lower, good⟩ | rfl
      · obtain ⟨result, done, ends, right⟩ := ih ok' (scanRound_dvd unit units ok.area_lt aligned round)
        exact ⟨result, done, fun enough => ends (by omega), right⟩
      · refine ⟨_, rfl, fun _ => Option.some_ne_none _, fun base same => ?_⟩
        obtain rfl := Option.some.inj (Option.some.inj same)
        exact ⟨good, lower, aligned⟩
      · exact ⟨_, rfl, fun _ => Option.some_ne_none _, nofun⟩

/-- What is asked for: parts that the checks of the arguments let pass, none empty. -/
structure PartsOk (parts : List Part) (a : Nat) : Prop where
  some_parts : parts ≠ []
  sizes : ∀ p ∈ parts, 0 < p.size
  valid : partsValid parts a = true
  word : a < 2 ^ 64

theorem PartsOk.apart (ok : PartsOk parts a) :
    parts.Pairwise fun p q => ¬(q.offset < p.stop ∧ p.offset < q.stop) := by
  have valid := ok.valid
  simp only [partsValid, Bool.and_eq_true, decide_eq_true_eq] at valid
  exact valid.2

theorem PartsOk.power (ok : PartsOk parts a) : isPowerOf2 a = true := by
  have valid := ok.valid
  simp only [partsValid, Bool.and_eq_true, decide_eq_true_eq] at valid
  exact valid.1.1.2

theorem PartsOk.stops (ok : PartsOk parts a) {p : Part} (mem : p ∈ parts) :
    p.stop ≤ (partAt parts (lastArea parts)).stop :=
  stop_le_last ok.some_parts ok.sizes ok.apart mem

theorem PartsOk.unit (ok : PartsOk parts a) : a ∣ 2 ^ 64 := isPowerOf2_dvd ok.power ok.word

theorem PartsOk.units (ok : PartsOk parts a) {p : Part} (mem : p ∈ parts) : a ∣ p.offset ∧ a ∣ p.stop := by
  have valid := ok.valid
  simp only [partsValid, Bool.and_eq_true, List.all_eq_true, beq_iff_eq] at valid
  obtain ⟨offset, size⟩ := valid.1.2 p mem
  exact ⟨Nat.dvd_of_mod_eq_zero offset, Nat.dvd_add (Nat.dvd_of_mod_eq_zero offset) (Nat.dvd_of_mod_eq_zero size)⟩

/-- Enough rounds for a scan from any start. -/
def roundsEnough (parts : List Part) : Nat := 2 ^ 65 * parts.length + parts.length + 1

theorem findBase_spec {s : Vmap} (ok : AreasOk s) (partsOk : PartsOk parts a)
    (room : (partAt parts (lastArea parts)).stop ≤ u64Sub (alignDown vmallocEnd a) (alignUp vmallocStart a)) (rounds : Nat) :
    ∃ result, findBase s parts a rounds = .ok result ∧ (roundsEnough parts ≤ rounds → result ≠ none) ∧
      ∀ base, result = some (some base) → BaseOk s.areaList parts a (partAt parts (lastArea parts)).stop base := by
  have range := vmallocRange partsOk.power partsOk.word
  have word := vmallocEnd_lt a
  rw [u64Sub_of_le word range] at room
  obtain ⟨inRange, -⟩ := lastArea_spec partsOk.some_parts
  have units := (partsOk.units (partAt_mem inRange)).2
  unfold findBase
  rcases @pvmFindNextPrev_spec s.areaList s.pcpuHole s.root ok.tree ok.nonempty ok.sorted with
    ⟨nothing, empty⟩ | ⟨around, found, splits⟩
  · simp only [nothing]
    refine ⟨_, rfl, fun _ => Option.some_ne_none _, fun base same => ?_⟩
    obtain rfl := Option.some.inj (Option.some.inj same)
    change BaseOk s.areaList parts a _ (u64Sub (alignDown vmallocEnd a) (partAt parts (lastArea parts)).stop)
    refine ⟨⟨?_, fun p _ va mem => ?_⟩, ?_, u64Sub_dvd partsOk.unit (Nat.dvd_mul_left a _) units⟩
    · rw [u64Sub_of_le word (by omega)]
      omega
    · rw [empty] at mem
      exact absurd mem List.not_mem_nil
    · rw [u64Sub_of_le word (by omega)]
      omega
  · simp only [found]
    obtain ⟨pre, post, shape, isPrev, isNext, -, -⟩ := splits
    have setup : ScanSetup s.root s.areaList parts a (partAt parts (lastArea parts)).stop := by
      refine ⟨ok.tree, ok.nonempty, ok.sorted, ?_, partsOk.some_parts, fun p mem => partsOk.stops mem, by omega⟩
      intro empty
      obtain ⟨rfl, rfl⟩ := List.append_eq_nil_iff.mp (shape.symm.trans empty)
      have leaf : s.root = .leaf := by
        have inorder := ok.tree.trans empty
        cases isTree : s.root with
        | leaf => rfl
        | node left va right =>
            rw [isTree] at inorder
            simp [BinTree.inorder] at inorder
      rw [leaf] at found
      cases found
    obtain ⟨splits', limit, -⟩ := @pvmDetermineEnd_spec s.root a around pre post (ok.tree.trans shape)
      (shape ▸ ok.nonempty) (shape ▸ ok.sorted) isPrev isNext
    have first : ScanOk s.areaList parts a (partAt parts (lastArea parts)).stop
        (lowerScan s.root a (partAt parts (lastArea parts)) ⟨0, lastArea parts, lastArea parts, around⟩ around)
        (pvmDetermineEnd s.root around a).1 0 :=
      ⟨inRange, by omega, (placeAt_zero inRange).symm, rfl, Nat.add_le_add_right limit _, shape ▸ splits',
        fun i below => absurd below (Nat.not_lt_zero i)⟩
    obtain ⟨result, done, ends, right⟩ := scanLoop_spec setup partsOk.unit (fun p mem => (partsOk.units mem).2) rounds
      first (u64Sub_dvd partsOk.unit (pvmDetermineEnd_dvd s.root around a) units)
    refine ⟨result, done, fun enough => ends ?_, right⟩
    have less := Nat.mul_le_mul_right parts.length (show (pvmDetermineEnd s.root around a).1 +
      (partAt parts (lastArea parts)).stop - (partAt parts (lastArea parts)).stop ≤ 2 ^ 65 by omega)
    change ((pvmDetermineEnd s.root around a).1 + (partAt parts (lastArea parts)).stop -
      (partAt parts (lastArea parts)).stop) * parts.length + (parts.length - 0) < rounds
    unfold roundsEnough at enough
    omega

end Scan

/-! ## The areas of the parts -/

section Insert

variable {parts : List Part} {base : Nat}

def Part.area (base : Nat) (p : Part) : VmapArea := ⟨base + p.offset, base + p.stop⟩

theorem partAreas_eq (small : ∀ p ∈ parts, base + p.stop < 2 ^ 64) : partAreas base parts = parts.map (Part.area base) := by
  apply List.map_congr_left
  intro p mem
  have bound := small p mem
  unfold Part.stop at bound
  rw [u64_of_lt (show base + p.offset < 2 ^ 64 by omega), u64_of_lt (show base + p.offset + p.size < 2 ^ 64 by omega)]
  simp only [Part.area, Part.stop, Nat.add_assoc]

theorem insertParts_ok (rb : Rebalancing) {s : Vmap} (ok : AreasOk s) (sizes : ∀ p ∈ parts, 0 < p.size)
    (small : ∀ p ∈ parts, base + p.stop < 2 ^ 64)
    (apart : parts.Pairwise fun p q => ¬(q.offset < p.stop ∧ p.offset < q.stop))
    (fits : ∀ p ∈ parts, FitsAt s.areaList base p) :
    ∃ s', insertParts rb base parts s = .ok s' ∧ AreasOk s' ∧
      (∀ tmp, tmp ∈ s'.areaList ↔ tmp ∈ parts.map (Part.area base) ∨ tmp ∈ s.areaList) ∧
      s'.vmFlag = s.vmFlag ∧ s'.purgeList = s.purgeList := by
  induction parts generalizing s with
  | nil => exact ⟨s, rfl, ok, by simp, rfl, rfl⟩
  | cons part rest ih =>
      obtain ⟨apartFirst, apartRest⟩ := List.pairwise_cons.mp apart
      have proper := sizes part List.mem_cons_self
      have bound := small part List.mem_cons_self
      have start : u64 (base + part.offset) = base + part.offset := u64_of_lt (by unfold Part.stop at bound; omega)
      have stop : u64 (base + part.offset + part.size) = base + part.stop := by
        unfold Part.stop at bound ⊢
        rw [u64_of_lt (by omega), Nat.add_assoc]
      obtain ⟨mid, inserted, midOk, members, flags, purge, -⟩ := @insertVmapArea_ok rb s
        ⟨base + part.offset, base + part.stop⟩ ok (by unfold Part.stop; simp only; omega) bound
        (fits part List.mem_cons_self)
      obtain ⟨s', done, ok', members', flags', purge'⟩ := ih midOk (fun p mem => sizes p (List.mem_cons_of_mem part mem))
        (fun p mem => small p (List.mem_cons_of_mem part mem)) apartRest (fun p mem va present => by
          rcases (members va).mp present with rfl | old
          · -- the area of a part that was placed before
            have disjoint := apartFirst p mem
            unfold Apart Before
            simp only
            omega
          · exact fits p (List.mem_cons_of_mem part mem) va old)
      refine ⟨s', ?_, ok', fun tmp => ?_, flags'.trans flags, purge'.trans purge⟩
      · simp only [insertParts, start, stop, inserted, ok_bind]
        exact done
      · rw [members', members, List.map_cons, List.mem_cons]
        unfold Part.area
        tauto

theorem setup_all_ok {vas : List VmapArea} {s : Vmap} (ok : AreasOk s) (unlisted : ∀ va ∈ vas, va ∉ s.purgeList) :
    AreasOk (vas.foldl setupVmallocVm s) := by
  induction vas generalizing s with
  | nil => exact ok
  | cons va rest ih =>
      exact ih (setup_ok ok (unlisted va List.mem_cons_self))
        fun tmp mem => unlisted tmp (List.mem_cons_of_mem va mem)

/-- Setting up areas changes nothing but their flags. -/
theorem setup_all_eq (vas : List VmapArea) (s : Vmap) :
    vas.foldl setupVmallocVm s = { s with vmFlag := fun va => decide (va ∈ vas) || s.vmFlag va } := by
  induction vas generalizing s with
  | nil => simp
  | cons first rest ih =>
      rw [List.foldl_cons, ih]
      simp only [setupVmallocVm, Vmap.mk.injEq, true_and, and_true]
      funext va
      by_cases same : va = first
      · simp [same]
      · simp [same]

/-- The areas of the parts are in the set, with their flags set; all else is as it was. -/
structure PartsPlaced (s s' : Vmap) (parts : List Part) (base : Nat) : Prop where
  members : ∀ tmp, tmp ∈ s'.areaList ↔ tmp ∈ parts.map (Part.area base) ∨ tmp ∈ s.areaList
  vmFlag : ∀ va, s'.vmFlag va = (decide (va ∈ parts.map (Part.area base)) || s.vmFlag va)
  purgeList : s'.purgeList = s.purgeList

theorem BaseOk.small {s : Vmap} {a : Nat} (partsOk : PartsOk parts a)
    (good : BaseOk s.areaList parts a (partAt parts (lastArea parts)).stop base) {p : Part} (mem : p ∈ parts) :
    base + p.stop ≤ alignDown vmallocEnd a := by
  have stop := partsOk.stops mem
  have limit := good.good.1
  omega

theorem placeParts_ok (rb : Rebalancing) {s : Vmap} {a : Nat} (ok : AreasOk s) (partsOk : PartsOk parts a)
    (good : BaseOk s.areaList parts a (partAt parts (lastArea parts)).stop base) :
    ∃ s', placeParts rb s parts base = .ok (some (some (parts.map (Part.area base)), s')) ∧ AreasOk s' ∧
      PartsPlaced s s' parts base := by
  have small : ∀ p ∈ parts, base + p.stop < 2 ^ 64 := fun p mem =>
    lt_of_le_of_lt (good.small partsOk mem) (vmallocEnd_lt a)
  obtain ⟨mid, inserted, midOk, members, flags, purge⟩ :=
    insertParts_ok rb ok partsOk.sizes small partsOk.apart good.good.2
  have midOk' : AreasOk { mid with pcpuHole := u64 (base + (parts.getD (lastArea parts) ⟨0, 0⟩).offset) } :=
    { midOk with }
  refine ⟨_, by simp only [placeParts, inserted, ok_bind, partAreas_eq small]; rfl, ?_, ?_⟩
  · apply setup_all_ok midOk'
    intro va mem listed
    obtain ⟨p, memP, rfl⟩ := List.mem_map.mp mem
    change p.area base ∈ mid.purgeList at listed
    rw [purge] at listed
    -- an area that waits to be purged was in the set before, and the part is apart from it
    have proper := partsOk.sizes p memP
    rcases good.good.2 p memP _ (ok.purge _ listed).1 with first | first <;>
      (unfold Before Part.area Part.stop at first; simp only at first; omega)
  · rw [setup_all_eq]
    exact ⟨members, fun va => by simp only [flags], purge⟩

/-- What `pcpu_get_vm_areas` may leave: areas for all parts at one base, or `NULL` and nothing
    changed but that waiting areas may be gone. -/
def PcpuResult (s s' : Vmap) (parts : List Part) (a : Nat) : Option (List VmapArea) → Prop
  | none => Settled s s'
  | some areas => ∃ mid base, Settled s mid ∧ BaseOk mid.areaList parts a (partAt parts (lastArea parts)).stop base ∧
      areas = parts.map (Part.area base) ∧ PartsPlaced mid s' parts base

theorem pcpuGetVmAreas_spec (rb : Rebalancing) {s : Vmap} {a : Nat} (ok : AreasOk s) (partsOk : PartsOk parts a)
    (mem : Bool) (rounds : Nat) :
    ∃ out, pcpuGetVmAreas rb s parts a mem rounds = .ok out ∧ (roundsEnough parts ≤ rounds → out ≠ none) ∧
      ∀ result s', out = some (result, s') → AreasOk s' ∧ PcpuResult s s' parts a result := by
  unfold pcpuGetVmAreas
  simp only [partsOk.valid, Bool.true_eq_false, if_false]
  split
  · refine ⟨_, rfl, fun _ => Option.some_ne_none _, fun result s' same => ?_⟩
    obtain ⟨rfl, rfl⟩ := Prod.mk.inj (Option.some.inj same)
    exact ⟨ok, .refl s⟩
  · rename_i room
    push Not at room
    obtain ⟨found, scan, ends, right⟩ := findBase_spec ok partsOk room.1 rounds
    rw [scan, ok_bind]
    rcases found with _ | _ | base
    · exact ⟨none, rfl, fun enough => absurd rfl (ends enough), nofun⟩
    · -- the first scan reached the low end: purge and scan again
      obtain ⟨purged, purging, -⟩ := purgeVmapAreaLazy_ok rb ok
      obtain ⟨purgedOk, settled⟩ := purgeVmapAreaLazy_settled rb ok purging
      obtain ⟨found, scan', ends', right'⟩ := findBase_spec purgedOk partsOk room.1 rounds
      simp only [purging, scan', ok_bind]
      rcases found with _ | _ | base
      · exact ⟨none, rfl, fun enough => absurd rfl (ends' enough), nofun⟩
      · refine ⟨_, rfl, fun _ => Option.some_ne_none _, fun result s' same => ?_⟩
        obtain ⟨rfl, rfl⟩ := Prod.mk.inj (Option.some.inj same)
        exact ⟨purgedOk, settled⟩
      · obtain ⟨s', placed, ok', shape⟩ := placeParts_ok rb purgedOk partsOk (right' base rfl)
        refine ⟨_, placed, fun _ => Option.some_ne_none _, fun result s'' same => ?_⟩
        obtain ⟨rfl, rfl⟩ := Prod.mk.inj (Option.some.inj same)
        exact ⟨ok', purged, base, settled, right' base rfl, rfl, shape⟩
    · obtain ⟨s', placed, ok', shape⟩ := placeParts_ok rb ok partsOk (right base rfl)
      refine ⟨_, placed, fun _ => Option.some_ne_none _, fun result s'' same => ?_⟩
      obtain ⟨rfl, rfl⟩ := Prod.mk.inj (Option.some.inj same)
      exact ⟨ok', s, base, .refl s, right base rfl, rfl, shape⟩

theorem pcpuGetVmAreas_ok (rb : Rebalancing) {s s' : Vmap} {a rounds : Nat} {mem : Bool}
    {result : Option (List VmapArea)} (ok : AreasOk s) (word : a < 2 ^ 64) (some_parts : parts ≠ [])
    (sizes : ∀ p ∈ parts, 0 < p.size)
    (done : pcpuGetVmAreas rb s parts a mem rounds = .ok (some (result, s'))) : AreasOk s' := by
  cases valid : partsValid parts a with
  | false =>
      rw [pcpuGetVmAreas, if_pos valid] at done
      exact absurd done nofun
  | true =>
      obtain ⟨out, done', -, right⟩ := pcpuGetVmAreas_spec rb ok ⟨some_parts, sizes, valid, word⟩ mem rounds
      exact (right result s' (Except.ok.inj (done'.symm.trans done))).1

end Insert

/-! ## Early areas -/

/-- The list of early areas: in order, apart and not empty. -/
structure EarlyOk (vmlist : List VmapArea) : Prop where
  nonempty : ∀ va ∈ vmlist, va.vaStart < va.vaEnd
  word : ∀ va ∈ vmlist, va.vaEnd < 2 ^ 64
  sorted : vmlist.Pairwise Before

theorem vmAreaAddEarly_mem {vm va : VmapArea} {vmlist vmlist' : List VmapArea}
    (added : vmAreaAddEarly vm vmlist = .ok vmlist') (mem : va ∈ vmlist') : va = vm ∨ va ∈ vmlist := by
  induction vmlist generalizing vmlist' with
  | nil =>
      obtain rfl := Except.ok.inj added
      exact .inl (List.mem_singleton.mp mem)
  | cons tmp rest ih =>
      rw [vmAreaAddEarly] at added
      split at added
      · split at added
        · exact absurd added nofun
        · obtain rfl := Except.ok.inj added
          exact List.mem_cons.mp mem
      · split at added
        · exact absurd added nofun
        · obtain ⟨rest', added', done⟩ := bind_eq_ok added
          obtain rfl := Except.ok.inj done
          rcases List.mem_cons.mp mem with rfl | later
          · exact .inr List.mem_cons_self
          · exact (ih added' later).imp_right (List.mem_cons_of_mem tmp)

theorem vmAreaAddEarly_ok {vm : VmapArea} {vmlist vmlist' : List VmapArea} (ok : EarlyOk vmlist)
    (proper : vm.vaStart < vm.vaEnd) (word : vm.vaEnd < 2 ^ 64) (added : vmAreaAddEarly vm vmlist = .ok vmlist') :
    EarlyOk vmlist' := by
  have nonempty : ∀ va ∈ vmlist', va.vaStart < va.vaEnd := fun va mem => by
    rcases vmAreaAddEarly_mem added mem with rfl | old
    · exact proper
    · exact ok.nonempty va old
  have words : ∀ va ∈ vmlist', va.vaEnd < 2 ^ 64 := fun va mem => by
    rcases vmAreaAddEarly_mem added mem with rfl | old
    · exact word
    · exact ok.word va old
  refine ⟨nonempty, words, ?_⟩
  clear nonempty words
  induction vmlist generalizing vmlist' with
  | nil =>
      obtain rfl := Except.ok.inj added
      exact List.pairwise_singleton _ _
  | cons tmp rest ih =>
      obtain ⟨before, sorted⟩ := List.pairwise_cons.mp ok.sorted
      have properTmp := ok.nonempty tmp List.mem_cons_self
      rw [vmAreaAddEarly] at added
      split at added
      · split at added
        · exact absurd added nofun
        · rename_i clear
          obtain rfl := Except.ok.inj added
          refine List.pairwise_cons.mpr ⟨fun va mem => ?_, ok.sorted⟩
          rcases List.mem_cons.mp mem with rfl | later
          · exact not_lt.mp clear
          · have after := before va later
            unfold Before at after ⊢
            omega
      · split at added
        · exact absurd added nofun
        · rename_i clear
          obtain ⟨rest', added', done⟩ := bind_eq_ok added
          obtain rfl := Except.ok.inj done
          have okRest : EarlyOk rest := ⟨fun va mem => ok.nonempty va (List.mem_cons_of_mem tmp mem),
            fun va mem => ok.word va (List.mem_cons_of_mem tmp mem), sorted⟩
          refine List.pairwise_cons.mpr ⟨fun va mem => ?_, ih okRest added'⟩
          rcases vmAreaAddEarly_mem added' mem with rfl | old
          · exact not_lt.mp clear
          · exact before va old

theorem vmAreaRegisterEarly_ok {early early' : Early} {size a : Nat} (ok : EarlyOk early.vmlist) (pos : 0 < size)
    (room : alignUp (u64 (vmallocStart + early.vmInitOff)) a + size < 2 ^ 64)
    (registered : vmAreaRegisterEarly early size a = .ok early') : EarlyOk early'.vmlist := by
  obtain ⟨vmlist, added, done⟩ := bind_eq_ok registered
  obtain rfl := Except.ok.inj done
  exact vmAreaAddEarly_ok ok (Nat.lt_add_of_pos_right pos) room added

/-- The areas are in the set with their flags, and nothing waits to be purged. -/
structure Imported (vmlist : List VmapArea) (s s' : Vmap) : Prop where
  members : ∀ tmp, tmp ∈ s'.areaList ↔ tmp ∈ vmlist ∨ tmp ∈ s.areaList
  vmFlag : ∀ va, s'.vmFlag va = (decide (va ∈ vmlist) || s.vmFlag va)
  purgeList : s'.purgeList = s.purgeList

theorem importEarly_spec (rb : Rebalancing) {vmlist : List VmapArea} {s : Vmap} (ok : AreasOk s) (early : EarlyOk vmlist)
    (apart : ∀ vm ∈ vmlist, ∀ va ∈ s.areaList, Apart va vm) (noPurge : s.purgeList = []) :
    ∃ s', importEarly rb vmlist s = .ok s' ∧ AreasOk s' ∧ Imported vmlist s s' := by
  induction vmlist generalizing s with
  | nil => exact ⟨s, rfl, ok, by simp, by simp, rfl⟩
  | cons tmp rest ih =>
      obtain ⟨before, sorted⟩ := List.pairwise_cons.mp early.sorted
      obtain ⟨mid, inserted, midOk, members, flags, purge, -⟩ := insertVmapArea_ok rb ok
        (early.nonempty tmp List.mem_cons_self) (early.word tmp List.mem_cons_self) (apart tmp List.mem_cons_self)
      have earlyRest : EarlyOk rest := ⟨fun va mem => early.nonempty va (List.mem_cons_of_mem tmp mem),
        fun va mem => early.word va (List.mem_cons_of_mem tmp mem), sorted⟩
      have unlisted : tmp ∉ mid.purgeList := by
        rw [purge, noPurge]
        exact List.not_mem_nil
      obtain ⟨s', done, ok', imported⟩ := ih (setup_ok midOk unlisted) earlyRest
        (fun vm mem va present => by
          rcases (members va).mp present with rfl | old
          · exact .inl (before vm mem)
          · exact apart vm (List.mem_cons_of_mem tmp mem) va old) (purge.trans noPurge)
      refine ⟨s', ?_, ok', fun va => ?_, fun va => ?_, imported.purgeList.trans purge⟩
      · simp only [importEarly, inserted, ok_bind]
        exact done
      · rw [imported.members]
        change _ ∨ va ∈ mid.areaList ↔ _
        rw [members, List.mem_cons]
        tauto
      · rw [imported.vmFlag]
        change (_ || Function.update mid.vmFlag tmp true va) = _
        rw [flags]
        by_cases same : va = tmp
        · simp [same]
        · simp [same]

theorem emptyVmap_ok : AreasOk emptyVmap :=
  ⟨nofun, nofun, List.Pairwise.nil, rfl, nofun, List.nodup_nil, nofun⟩

theorem vmallocInit_spec (rb : Rebalancing) {early : Early} (ok : EarlyOk early.vmlist) :
    ∃ s, vmallocInit rb early = .ok s ∧ AreasOk s ∧ Imported early.vmlist emptyVmap s := by
  obtain ⟨s, done, sOk, imported⟩ := importEarly_spec rb emptyVmap_ok ok (fun _ _ _ mem => absurd mem List.not_mem_nil) rfl
  exact ⟨{ s with pcpuHole := vmallocEnd }, by simp only [vmallocInit, done, ok_bind], { sOk with }, { imported with }⟩

theorem vmallocInit_ok (rb : Rebalancing) {early : Early} (ok : EarlyOk early.vmlist) :
    ∃ s, vmallocInit rb early = .ok s ∧ AreasOk s := by
  obtain ⟨s, done, sOk, -⟩ := vmallocInit_spec rb ok
  exact ⟨s, done, sOk⟩

end Miracle.Vmalloc
