import Miracle.Vmalloc.Ledger

/-! # Building an area

An area is built from its `vm_struct` and its range, then its array, then its pages.  Between
two steps what was taken so far is known.
-/

namespace Miracle.Vmalloc

/-! ## Where a new area lies -/

theorem alignUp_whole {x a : Nat} (power : isPowerOf2 a = true) (word : a < 2 ^ 64) (whole : pageSize ∣ x) :
    pageSize ∣ alignUp x a := by
  have unit := isPowerOf2_dvd power word
  simp only [isPowerOf2, Bool.and_eq_true, decide_eq_true_eq, beq_iff_eq] at power
  obtain ⟨i, rfl⟩ := (Nat.and_sub_one_eq_zero_iff_isPowerOfTwo power.1).mp power.2
  rcases Nat.le_total i 12 with small | large
  · -- a smaller alignment leaves a multiple of the page as it is
    have divides : 2 ^ i ∣ x := (pow_dvd_pow 2 small).trans whole
    obtain ⟨q, rfl⟩ := divides
    have pos : 0 < 2 ^ i := Nat.two_pow_pos i
    have round : (2 ^ i * q + (2 ^ i - 1)) / 2 ^ i = q := by
      rw [Nat.add_comm, Nat.add_mul_div_left _ _ pos, Nat.div_eq_of_lt (by omega), Nat.zero_add]
    unfold alignUp
    rw [round, Nat.mul_comm, u64, Nat.dvd_mod_iff (by decide)]
    exact whole
  · exact (pow_dvd_pow 2 large).trans (alignUp_dvd unit x)

theorem allocVmapArea_whole (rb : Rebalancing) {s s' : Vmap} {size a vstart vend : Nat} {mem : Bool} {va : VmapArea}
    (ok : AreasOk s) (word : a < 2 ^ 64) (start : 0 < vstart) (wholeStart : pageSize ∣ vstart)
    (whole : ∀ tmp ∈ s.areaList, pageSize ∣ tmp.vaEnd)
    (done : allocVmapArea rb s size a vstart vend mem = .ok (.ok va, s')) : pageSize ∣ va.vaStart ∧ pageSize ∣ va.vaEnd := by
  unfold allocVmapArea at done
  split at done
  · exact absurd done nofun
  · rename_i valid
    push Not at valid
    obtain ⟨nonzero, page, notFalse⟩ := valid
    have power := Bool.eq_true_of_not_eq_false notFalse
    have unit := isPowerOf2_dvd power word
    have pos := Nat.pos_of_ne_zero nonzero
    -- one pass on a set whose areas are whole pages
    have pass {s s' : Vmap} {va : VmapArea} (ok : AreasOk s) (whole : ∀ tmp ∈ s.areaList, pageSize ∣ tmp.vaEnd)
        (tried : tryAllocVmapArea rb s size a vstart vend = .ok (some va, s')) : pageSize ∣ va.vaStart ∧ pageSize ∣ va.vaEnd := by
      rcases tryAllocVmapArea_cases rb ok unit pos start tried with ⟨none, -⟩ | ⟨addr, found, isVa, -⟩
      · exact absurd none (Option.some_ne_none va)
      · obtain rfl := Option.some.inj isVa
        have here : pageSize ∣ addr := by
          rcases searchAreas_found ok found with rfl | ⟨tmp, memTmp, rfl⟩
          · exact alignUp_whole power word wholeStart
          · exact alignUp_whole power word (whole tmp memTmp)
        exact ⟨here, Nat.dvd_add here (Nat.dvd_of_mod_eq_zero page)⟩
    split at done
    · exact absurd (Prod.mk.inj (Except.ok.inj done)).1 nofun
    · obtain ⟨⟨first, mid⟩, tried, rest⟩ := bind_eq_ok done
      obtain ⟨midOk, -⟩ := tryAllocVmapArea_ok rb ok unit pos start tried
      cases first with
      | some other =>
          obtain ⟨same, -⟩ := Prod.mk.inj (Except.ok.inj rest)
          obtain rfl := Except.ok.inj same
          exact pass ok whole tried
      | none =>
          obtain ⟨purged, purging, rest⟩ := bind_eq_ok rest
          obtain ⟨purgedOk, settled⟩ := purgeVmapAreaLazy_settled rb midOk purging
          have same := (tryAllocVmapArea_frame rb ok unit pos start tried).1 rfl
          obtain ⟨⟨second, last⟩, tried', rest⟩ := bind_eq_ok rest
          cases second with
          | some other =>
              obtain ⟨isVa, -⟩ := Prod.mk.inj (Except.ok.inj rest)
              obtain rfl := Except.ok.inj isVa
              refine pass purgedOk (fun tmp memTmp => whole tmp ?_) tried'
              rw [← same.areaList]
              exact settled.fewer tmp memTmp
          | none => exact absurd (Prod.mk.inj (Except.ok.inj rest)).1 nofun

/-! ## The area -/

section Area

variable {m : Machine} {k k' : Kernel}

/-- The address range of an allocation, as the callers give it. -/
structure Window (start align : Nat) : Prop where
  positive : 0 < start
  whole : pageSize ∣ start
  word : align < 2 ^ 64

/-- An area with its `vm_struct`, just set up. -/
structure NewArea (k k' : Kernel) (va : VmapArea) (area bytes start stop : Nat) (noGuard : Bool) : Prop where
  ext : Extends k k' [va] {area}
  isNext : area = k.next
  listed : va ∈ k'.vmap.areaList
  points : k'.vm va = some area
  struct : k'.structs area =
    { addr := va.vaStart, size := va.vaEnd - va.vaStart, noGuard := noGuard, nrPages := 0, pages := .null, slots := [] }
  positive : 0 < va.vaStart
  lower : start ≤ va.vaStart
  upper : va.vaEnd ≤ stop
  size : va.vaEnd = va.vaStart + if noGuard then bytes else u64 (bytes + pageSize)

theorem getVmAreaNode_cases (sound : Sound k) {size align start stop : Nat} {flags : VmFlags} {a : Attempt} {result : Option Nat}
    (window : Window start align) (done : getVmAreaNode m k size align flags start stop a = .ok (result, k')) :
    (result = none ∧ Extends k k' [] ∅) ∨
      ∃ va area, result = some area ∧ NewArea k k' va area (pageAlign size) start stop flags.noGuard := by
  unfold getVmAreaNode at done
  simp only at done
  split at done
  · obtain ⟨rfl, rfl⟩ := Prod.mk.inj (Except.ok.inj done)
    exact .inl ⟨rfl, .refl sound⟩
  · split at done
    · obtain ⟨rfl, rfl⟩ := Prod.mk.inj (Except.ok.inj done)
      exact .inl ⟨rfl, .refl sound⟩
    · have took := sound.take
      obtain ⟨⟨result', s⟩, allocated, rest⟩ := bind_eq_ok done
      have word : (if flags.ioremap = true then 2 ^ min (max (Nat.clog 2 (pageAlign size)) 12) ioremapMaxOrder else align) <
          2 ^ 64 := by
        split
        · exact Nat.pow_lt_pow_right (by decide) (lt_of_le_of_lt (min_le_right _ _) (by decide))
        · exact window.word
      generalize (if flags.ioremap = true then 2 ^ min (max (Nat.clog 2 (pageAlign size)) 12) ioremapMaxOrder else align) =
        align' at allocated word
      have allocated' : allocVmapArea m.rb k.vmap
          (if flags.noGuard = true then pageAlign size else u64 (pageAlign size + pageSize)) align' start stop a.vmapArea =
          .ok (result', s) := by
        cases outcome : allocVmapArea m.rb k.vmap
            (if flags.noGuard = true then pageAlign size else u64 (pageAlign size + pageSize)) align' start stop a.vmapArea with
        | error bug =>
            rw [show k.take.2.vmap = k.vmap from rfl, outcome] at allocated
            exact absurd allocated nofun
        | ok out =>
            rw [show k.take.2.vmap = k.vmap from rfl, outcome] at allocated
            exact congrArg Except.ok (Except.ok.inj allocated)
      obtain ⟨ok, returned⟩ := allocVmapArea_ok m.rb sound.areas word window.positive allocated'
      obtain ⟨⟨mid, midOk, settled, grown⟩, without⟩ := allocVmapArea_frame m.rb sound.areas word window.positive allocated'
      cases result' with
      | error errno =>
          have settled' := without nofun
          have linked := took.sound.toLinked.settled ok settled'
          obtain ⟨k1, given, rest⟩ := bind_eq_ok rest
          obtain ⟨rfl, rfl⟩ := Prod.mk.inj (Except.ok.inj rest)
          rw [give_held (Finset.mem_insert_self _ _)] at given
          obtain rfl := Except.ok.inj given
          have held : (insert k.next k.held).erase k.next = k.held :=
            Finset.erase_insert (sound.not_held le_rfl)
          refine .inl ⟨rfl, ⟨{ linked with
            fresh := fun ref mem => ?_
            whole := fun va mem => sound.whole va (settled'.fewer va mem) }, ?_, by simp, Nat.le_succ _, fun _ _ => rfl,
            fun _ _ => rfl, nofun⟩⟩
          · exact took.sound.fresh ref (Finset.mem_of_mem_erase mem)
          · rw [Finset.union_empty]
            exact held
      | ok va =>
          obtain ⟨rfl, rfl⟩ := Prod.mk.inj (Except.ok.inj rest)
          have result := returned va rfl
          have grown' := grown va rfl
          have midLinked := took.sound.toLinked.settled midOk settled
          obtain ⟨linked, unused⟩ := midLinked.grown (k := { k.take.2 with vmap := mid }) ok grown' k.next flags
          obtain ⟨wholeStart, wholeEnd⟩ := allocVmapArea_whole m.rb sound.areas word window.positive window.whole
            (fun tmp mem => (sound.whole tmp mem).2) allocated'
          have older {tmp : VmapArea} (mem : tmp ∈ s.areaList) : tmp = va ∨ tmp ∈ k.vmap.areaList :=
            ((grown'.members tmp).mp mem).imp_right (settled.fewer tmp)
          refine .inr ⟨va, k.next, rfl, ⟨⟨{ linked with
            fresh := took.sound.fresh
            whole := fun tmp mem => ?_ }, took.held, took.fresh, Nat.le_succ _, fun ref old => ?_, fun tmp other => ?_,
            fun tmp mem => ?_⟩, rfl, result.present, Function.update_self va _ k.vm, Function.update_self k.next _ k.structs,
            window.positive.trans_le result.lower, result.lower, result.upper, result.size⟩⟩
          · rcases older mem with rfl | old
            · exact ⟨wholeStart, wholeEnd⟩
            · exact sound.whole tmp old
          · exact Function.update_of_ne (Nat.ne_of_lt old) _ k.structs
          · exact Function.update_of_ne (fun same : tmp = va => other (List.mem_singleton.mpr same)) _ k.vm
          · rw [List.mem_singleton.mp mem]
            exact unused

/-- What a new area is when all it takes can be had. -/
theorem getVmAreaNode_given {size align start stop : Nat} {a : Attempt} {va : VmapArea} {s : Vmap} (nonzero : pageAlign size ≠ 0)
    (given : a.vmStruct = true)
    (done : allocVmapArea m.rb k.vmap (u64 (pageAlign size + pageSize)) align start stop a.vmapArea = .ok (.ok va, s)) :
    getVmAreaNode m k size align ⟨false, false⟩ start stop a =
      .ok (some k.next, ({ k.take.2 with vmap := s } : Kernel).setup k.next va ⟨false, false⟩) := by
  simp only [getVmAreaNode, if_neg nonzero, given, Bool.true_eq_false, Bool.false_eq_true, if_false, Kernel.take, done,
    Except.mapError, ok_bind]

/-- The bytes of the area without its guard page, where adding the page does not overflow. -/
theorem NewArea.areaSize {va : VmapArea} {area bytes start stop : Nat} {noGuard : Bool}
    (new : NewArea k k' va area bytes start stop noGuard) (word : bytes < 2 ^ 64) (whole : pageSize ∣ bytes) :
    (k'.structs area).areaSize = bytes := by
  have proper := new.ext.sound.areas.nonempty va new.listed
  have size := new.size
  rw [new.struct]
  simp only [VmStruct.areaSize]
  cases noGuard with
  | true =>
      simp only [if_true] at size ⊢
      omega
  | false =>
      simp only [Bool.false_eq_true, if_false] at size ⊢
      unfold pageSize at *
      unfold u64 at size
      unfold u64Sub
      omega

end Area

/-! ## The array and the pages -/

/-- An area with its array, and pages as far as they were taken. -/
structure Ready (k k' : Kernel) (va : VmapArea) (area : Nat) (vas : List VmapArea) (array : Finset Nat) (pages : PageArray)
    (slots : List Nat) : Prop where
  ext : Extends k k' (va :: vas) (insert area (slots.toFinset ∪ array))
  new : k.next ≤ area
  listed : va ∈ k'.vmap.areaList
  points : k'.vm va = some area
  positive : 0 < va.vaStart
  addr : (k'.structs area).addr = va.vaStart
  isPages : (k'.structs area).pages = pages
  isSlots : (k'.structs area).slots = slots
  nodup : (area :: slots).Nodup
  apart : ∀ ref ∈ area :: slots, ref ∉ array
  other : va ∉ vas
  owned : ArrayOwned k' vas array pages

section Ready

variable {k k' : Kernel} {va : VmapArea} {area : Nat} {vas : List VmapArea} {array : Finset Nat} {pages : PageArray}
  {slots : List Nat}

theorem ArrayOwned.modify (owned : ArrayOwned k vas array pages) {ref : Nat} (other : ref ∉ array) (f : VmStruct → VmStruct) :
    ArrayOwned (k.modify ref f) vas array pages :=
  owned.mono (fun _ _ _ listed => listed) (fun _ _ => rfl) fun old mem =>
    Function.update_of_ne (fun same : old = ref => other (same ▸ mem)) _ k.structs

/-- One more page. -/
theorem Ready.addPage (ready : Ready k k' va area vas array pages slots) :
    Ready k (k'.take.2.modify area fun s => { s with slots := s.slots ++ [k'.take.1] }) va area vas array pages
      (slots ++ [k'.take.1]) := by
  have took := ready.ext.sound.take
  have newPage : k'.take.1 ∉ k'.held := ready.ext.sound.not_held le_rfl
  have own {ref : Nat} (mem : ref ∈ insert area (slots.toFinset ∪ array)) : ref ∈ k'.held := by
    rw [ready.ext.held]
    exact Finset.mem_union_right _ mem
  have update (f : VmStruct → VmStruct) : (k'.take.2.modify area f).structs area = f (k'.structs area) :=
    Function.update_self area _ _
  refine ⟨?_, ready.new, ready.listed, ready.points, ready.positive, ?_, ?_, ?_, ?_, ?_, ready.other, ?_⟩
  · have step := (ready.ext.trans took).modify ready.new fun s => { s with slots := s.slots ++ [k'.take.1] }
    rw [List.append_nil] at step
    have refs : insert area (slots.toFinset ∪ array) ∪ {k'.next} = insert area ((slots ++ [k'.take.1]).toFinset ∪ array) := by
      ext ref
      simp only [Kernel.take, Finset.mem_union, Finset.mem_insert, List.mem_toFinset, Finset.mem_singleton, List.mem_append,
        List.mem_cons, List.not_mem_nil, or_false]
      tauto
    exact refs ▸ step
  · rw [update]
    exact ready.addr
  · rw [update]
    exact ready.isPages
  · rw [update]
    simp only [ready.isSlots]
  · rw [← List.cons_append, List.nodup_append]
    refine ⟨ready.nodup, List.nodup_singleton _, fun ref mem page isPage => ?_⟩
    rw [List.mem_singleton.mp isPage]
    rintro rfl
    apply newPage
    rcases List.mem_cons.mp mem with same | slot
    · exact own (same ▸ Finset.mem_insert_self _ _)
    · exact own (Finset.mem_insert_of_mem (Finset.mem_union_left _ (List.mem_toFinset.mpr slot)))
  · intro ref mem
    rw [← List.cons_append] at mem
    rcases List.mem_append.mp mem with old | page
    · exact ready.apart ref old
    · rw [List.mem_singleton.mp page]
      exact fun inArray => newPage (own (Finset.mem_insert_of_mem (Finset.mem_union_right _ inArray)))
  · have owned : ArrayOwned k'.take.2 vas array pages :=
      ready.owned.mono (fun _ _ _ listed => listed) (fun _ _ => rfl) fun _ _ => rfl
    exact owned.modify (ready.apart area List.mem_cons_self) _

/-- With the number of pages right, the area owns all that was taken. -/
theorem Ready.owns (ready : Ready k k' va area vas array pages slots) (count : (k'.structs area).nrPages = slots.length) :
    Owned k' va.vaStart (va :: vas) (insert area (slots.toFinset ∪ array)) := by
  have head : Head k' va area vas array :=
    ⟨ready.listed, ready.points, ready.positive, by rw [ready.isSlots]; exact count, by rw [ready.isSlots]; exact ready.nodup,
      by rw [ready.isSlots]; exact ready.apart, ready.other⟩
  have owned := head.owned (by rw [ready.isPages]; exact ready.owned)
  rwa [ownRefs, ready.isSlots] at owned

theorem Ready.setCount (ready : Ready k k' va area vas array pages slots) (n : Nat) :
    Ready k (k'.modify area fun s => { s with nrPages := n }) va area vas array pages slots := by
  have update (f : VmStruct → VmStruct) : (k'.modify area f).structs area = f (k'.structs area) :=
    Function.update_self area _ _
  exact ⟨ready.ext.modify ready.new _, ready.new, ready.listed, ready.points, ready.positive, by rw [update]; exact ready.addr,
    by rw [update]; exact ready.isPages, by rw [update]; exact ready.isSlots, ready.nodup, ready.apart, ready.other,
    ready.owned.modify (ready.apart area List.mem_cons_self) _⟩

/-- `vfree` of a half-built area gives back what was taken for it. -/
theorem Ready.vfree (ready : Ready k k' va area vas array pages slots) (m : Machine) {depth : Nat} (sound : Sound k)
    (count : (k'.structs area).nrPages = slots.length) (deep : vas.length + 1 ≤ depth) :
    ∃ k'', vfree m depth k' (k'.structs area).addr = .ok (.done, k'') ∧ Extends k k'' [] ∅ := by
  have held : insert area (slots.toFinset ∪ array) ⊆ k'.held := by
    rw [ready.ext.held]
    exact Finset.subset_union_right
  obtain ⟨k'', done, freed⟩ := vunmapArea_ok m depth ready.ext.sound (ready.owns count) held deep
  refine ⟨k'', ?_, ready.ext.freed sound freed⟩
  rw [Vmalloc.vfree, ready.addr, if_neg ready.positive.ne']
  exact done

end Ready

end Miracle.Vmalloc
