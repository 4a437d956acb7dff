import Miracle.Vmalloc.Building
import Miracle.Vmalloc.Safety

/-! # When an allocation of pages fails

Whatever fails, what was taken so far is given back: a half-built area owns it, and freeing
the area frees it.  The exception is an array that is too small for its pages, past whose end
the loop writes before anything fails.
-/

namespace Miracle.Vmalloc

/-! ## The pages -/

section Fill

variable {m : Machine} {a : Attempt} {k k' : Kernel} {va : VmapArea} {area room depth bytes : Nat} {vas : List VmapArea}
  {array : Finset Nat} {pages : PageArray} {slots : List Nat}

/-- Pages that are given and for which there is room. -/
theorem fillPages_steps (j : Nat) (ready : Ready k k' va area vas array pages slots)
    (given : ∀ t, slots.length ≤ t → t < slots.length + j → a.pages t = true) (fits : 8 * (slots.length + j) ≤ room) :
    ∃ k'' slots', Ready k k'' va area vas array pages slots' ∧ slots'.length = slots.length + j ∧
      (k''.structs area).nrPages = (k'.structs area).nrPages ∧
      ∀ n, fillPages a area room (j + n) slots.length k' = fillPages a area room n slots'.length k'' := by
  induction j generalizing k' slots with
  | zero => exact ⟨k', slots, ready, rfl, rfl, fun n => by rw [Nat.zero_add]⟩
  | succ j ih =>
      have count : (slots ++ [k'.take.1]).length = slots.length + 1 := by simp
      obtain ⟨k'', slots', ready', length, nrPages, same⟩ := ih ready.addPage
        (fun t lower upper => given t (by omega) (by omega)) (by omega)
      refine ⟨k'', slots', ready', by omega, ?_, fun n => ?_⟩
      · rw [nrPages]
        change (Function.update k'.structs area _ area).nrPages = _
        rw [Function.update_self]
        rfl
      · rw [← same, count, Nat.add_right_comm, fillPages, if_neg (by rw [given _ le_rfl (by omega)]; simp)]
        simp only
        rw [if_neg (by omega)]

theorem fillPages_overrun {i j n : Nat} (given : ∀ t, i ≤ t → t < i + j → a.pages t = true) (within : 8 * i ≤ room)
    (beyond : room < 8 * (i + j)) (more : j ≤ n) : fillPages a area room n i k' = .error .overrun := by
  induction j generalizing i n k' with
  | zero => omega
  | succ j ih =>
      obtain ⟨n, rfl⟩ : ∃ n', n = n' + 1 := ⟨n - 1, by omega⟩
      rw [fillPages, if_neg (by rw [given i le_rfl (by omega)]; simp)]
      simp only
      split
      · rfl
      · exact ih (fun t lower upper => given t (by omega) (by omega)) (by omega) (by omega) (by omega)

theorem mapPages_page (ready : Ready k k' va area vas array pages []) (sound : Sound k) (deep : vas.length + 1 ≤ depth) {i : Nat}
    (inside : i < pageCount bytes) (given : ∀ j, j < i → a.pages j = true) (fails : a.pages i = false)
    (fits : 8 * i ≤ arrayRoom m.ksize bytes) :
    ∃ k'', mapPages m depth a bytes area k' = .ok (none, k'') ∧ Extends k k'' [] ∅ := by
  obtain ⟨k1, slots, ready1, length, -, same⟩ := fillPages_steps i ready (fun t _ upper => given t (by simpa using upper))
    (by simpa using fits)
  obtain ⟨n, count⟩ : ∃ n, pageCount bytes = i + (n + 1) := ⟨pageCount bytes - i - 1, by omega⟩
  have isLength : slots.length = i := by simpa using length
  -- the number of pages is cut to those that were given
  have ready2 := ready1.setCount i
  have isCount : ((k1.modify area fun s => { s with nrPages := i }).structs area).nrPages = slots.length := by
    rw [isLength]
    change (Function.update k1.structs area _ area).nrPages = i
    rw [Function.update_self]
  obtain ⟨k2, freed, ext⟩ := ready2.vfree m sound isCount deep
  refine ⟨k2, ?_, ext⟩
  have filled : fillPages a area (arrayRoom m.ksize bytes) (pageCount bytes) 0 k' =
      .ok (false, k1.modify area fun s => { s with nrPages := i }) := by
    rw [count]
    refine (same (n + 1)).trans ?_
    rw [fillPages, isLength, if_pos fails]
  simp only [mapPages, filled, ok_bind, Bool.false_and, Bool.false_eq_true, if_false, freed]

theorem mapPages_filled (ready : Ready k k' va area vas array pages []) (given : ∀ j, j < pageCount bytes → a.pages j = true)
    (fits : 8 * pageCount bytes ≤ arrayRoom m.ksize bytes) (count : (k'.structs area).nrPages = pageCount bytes) :
    ∃ k'' slots, fillPages a area (arrayRoom m.ksize bytes) (pageCount bytes) 0 k' = .ok (true, k'') ∧
      Ready k k'' va area vas array pages slots ∧ (k''.structs area).nrPages = slots.length := by
  obtain ⟨k1, slots, ready1, length, nrPages, same⟩ := fillPages_steps (pageCount bytes) ready
    (fun t _ upper => given t (by simpa using upper)) (by simpa using fits)
  refine ⟨k1, slots, same 0, ready1, ?_⟩
  rw [nrPages, count, length]
  simp

theorem mapPages_mapping (ready : Ready k k' va area vas array pages []) (sound : Sound k) (deep : vas.length + 1 ≤ depth)
    (given : ∀ j, j < pageCount bytes → a.pages j = true) (fails : a.mapping = false)
    (fits : 8 * pageCount bytes ≤ arrayRoom m.ksize bytes) (count : (k'.structs area).nrPages = pageCount bytes) :
    ∃ k'', mapPages m depth a bytes area k' = .ok (none, k'') ∧ Extends k k'' [] ∅ := by
  obtain ⟨k1, slots, filled, ready1, isCount⟩ := mapPages_filled (m := m) ready given fits count
  obtain ⟨k2, freed, ext⟩ := ready1.vfree m sound isCount deep
  exact ⟨k2, by simp only [mapPages, filled, ok_bind, fails, Bool.and_false, Bool.false_eq_true, if_false, freed], ext⟩

theorem mapPages_all (m : Machine) (depth : Nat) (ready : Ready k k' va area vas array pages []) (given : ∀ j, j < pageCount bytes → a.pages j = true)
    (mapped : a.mapping = true) (fits : 8 * pageCount bytes ≤ arrayRoom m.ksize bytes)
    (count : (k'.structs area).nrPages = pageCount bytes) :
    ∃ k'' refs, mapPages m depth a bytes area k' = .ok (some va.vaStart, k'') ∧ Extends k k'' (va :: vas) refs ∧
      Owned k'' va.vaStart (va :: vas) refs := by
  obtain ⟨k1, slots, filled, ready1, isCount⟩ := mapPages_filled (m := m) ready given fits count
  refine ⟨k1, _, ?_, ready1.ext, ready1.owns isCount⟩
  simp only [mapPages, filled, ok_bind, mapped, Bool.and_self, if_true, ready1.addr]

theorem mapPages_overrun {i : Nat} (given : ∀ j, j < i → a.pages j = true) (inside : i ≤ pageCount bytes)
    (beyond : arrayRoom m.ksize bytes < 8 * i) : mapPages m depth a bytes area k' = .error .overrun := by
  have filled : fillPages a area (arrayRoom m.ksize bytes) (pageCount bytes) 0 k' = .error .overrun :=
    fillPages_overrun (i := 0) (j := i) (fun t _ upper => given t (by omega)) (by omega) (by omega) inside
  simp only [mapPages, filled, error_bind]

end Fill

/-! ## The array -/

/-- What an allocation by `__vmalloc_node_range` comes to when no array is too small. -/
def NodeOutcome (depth start stop : Nat) (k : Kernel) (out : Except Fault (Option Nat × Kernel)) : Prop :=
  (∃ b, out = .error (.bug b)) ∨ (∃ k', out = .ok (none, k') ∧ Extends k k' [] ∅) ∨
    ∃ addr k' vas refs, out = .ok (some addr, k') ∧ Extends k k' vas refs ∧ Owned k' addr vas refs ∧ vas.length ≤ depth ∧
      start ≤ addr ∧ addr < stop

section Array

variable {m : Machine} {a : Attempt} {k k' : Kernel} {va : VmapArea} {area depth bytes start stop : Nat}
  {node : Nat → Kernel → Except Fault (Option Nat × Kernel)} {noGuard : Bool}

/-- An array is refused, or is there with all it owns. -/
theorem allocArray_cases (a : Attempt) (node : Nat → Kernel → Except Fault (Option Nat × Kernel)) (sound : Sound k)
    (nested : pageSize < arraySize bytes → NodeOutcome depth vmallocStart vmallocEnd k (node (arraySize bytes) k)) :
    (∃ b, allocArray a node bytes k = .error (.bug b)) ∨
      (∃ k', allocArray a node bytes k = .ok (.null, k') ∧ Extends k k' [] ∅) ∨
      ∃ pages k' vas array, allocArray a node bytes k = .ok (pages, k') ∧ pages ≠ .null ∧ Extends k k' vas array ∧
        ArrayOwned k' vas array pages ∧ vas.length ≤ depth := by
  unfold allocArray
  split
  · rename_i large
    rcases nested large with ⟨b, failed⟩ | ⟨k', none, ext⟩ | ⟨addr, k', vas, refs, some, ext, owned, deep, lower, upper⟩
    · exact .inl ⟨b, by rw [failed, error_bind]⟩
    · exact .inr (.inl ⟨k', by rw [none, ok_bind], ext⟩)
    · exact .inr (.inr ⟨.area addr, k', vas, refs, by rw [some, ok_bind], nofun, ext, ⟨lower, upper, owned⟩, deep⟩)
  · split
    · exact .inr (.inr ⟨.zeroSize, k, [], ∅, rfl, nofun, .refl sound, ⟨rfl, rfl⟩, Nat.zero_le _⟩)
    · split
      · exact .inr (.inl ⟨k, rfl, .refl sound⟩)
      · exact .inr (.inr ⟨.object k.next, k.take.2, [], {k.next}, rfl, nofun, sound.take, ⟨rfl, rfl⟩, Nat.zero_le _⟩)

/-- The state in which the array is asked for. -/
def counted (k : Kernel) (area bytes : Nat) : Kernel := k.modify area fun s => { s with nrPages := pageCount bytes }

theorem NewArea.counted (new : NewArea k k' va area bytes start stop noGuard) :
    Extends k (counted k' area bytes) [va] {area} := new.ext.modify (by rw [new.isNext]) _

/-- The area with its array is ready for the pages. -/
theorem NewArea.ready (new : NewArea k k' va area bytes start stop noGuard) {pages : PageArray} {k3 : Kernel}
    {vas : List VmapArea} {array : Finset Nat} (ext : Extends (Vmalloc.counted k' area bytes) k3 vas array)
    (owned : ArrayOwned k3 vas array pages) :
    Ready k (k3.modify area fun s => { s with pages := pages }) va area vas array pages [] ∧
      ((k3.modify area fun s => { s with pages := pages }).structs area).nrPages = pageCount bytes := by
  have before := new.counted
  have isNext := new.isNext
  have older : area < (Vmalloc.counted k' area bytes).next :=
    before.sound.fresh area (by rw [before.held]; exact Finset.mem_union_right _ (Finset.mem_singleton_self area))
  have struct : k3.structs area = { k'.structs area with nrPages := pageCount bytes } :=
    (ext.structs area older).trans (Function.update_self area _ k'.structs)
  have update (f : VmStruct → VmStruct) : (k3.modify area f).structs area = f (k3.structs area) :=
    Function.update_self area _ _
  have points : (Vmalloc.counted k' area bytes).vm va = some area := new.points
  have other : va ∉ vas := fun mem => by
    have unused := ext.unused va mem
    rw [points] at unused
    exact absurd unused (Option.some_ne_none area)
  have apart : area ∉ array := fun mem => absurd (ext.fresh area mem) (not_le.mpr older)
  have points' : k3.vm va = some area := (ext.vm va other).trans points
  have listed : va ∈ k3.vmap.areaList := ((ext.sound.live va).mp (by rw [points']; rfl)).1
  refine ⟨⟨?_, by rw [isNext], listed, points', new.positive, ?_, ?_, ?_, List.nodup_singleton area, ?_, other, ?_⟩, ?_⟩
  · have new' : k.next ≤ area := by rw [isNext]
    have all := (before.trans ext).modify new' fun s => { s with pages := pages }
    have refs : insert area (([] : List Nat).toFinset ∪ array) = {area} ∪ array := by
      rw [List.toFinset_nil, Finset.empty_union, Finset.insert_eq]
    rw [refs]
    exact all
  · rw [update, struct, new.struct]
  · rw [update]
  · rw [update, struct, new.struct]
  · intro ref mem
    rwa [List.mem_singleton.mp mem]
  · exact owned.modify apart _
  · rw [update, struct]

/-- Without an array the area is removed, and its `vm_struct` freed. -/
theorem NewArea.refused (new : NewArea k k' va area bytes start stop noGuard) (m : Machine) (sound : Sound k) {k3 : Kernel}
    (ext : Extends (Vmalloc.counted k' area bytes) k3 [] ∅) :
    ∃ k4 k5, (k3.modify area fun s => { s with pages := .null }).removeVmArea m
        ((k3.modify area fun s => { s with pages := .null }).structs area).addr = .ok (some area, k4) ∧
      k4.give area = .ok k5 ∧ Extends k k5 [] ∅ := by
  have owned : ArrayOwned k3 [] ∅ .null := ⟨rfl, rfl⟩
  obtain ⟨ready, -⟩ := new.ready ext owned
  have proper := ready.ext.sound.areas.nonempty va ready.listed
  obtain ⟨s, removed, linked, fewer, -⟩ := ready.ext.sound.toLinked.removeVmArea m ready.points le_rfl proper
  have removedSound := ready.ext.sound.removed linked fewer
  have held : area ∈ (k3.modify area fun s => { s with pages := .null }).held := by
    rw [ready.ext.held]
    exact Finset.mem_union_right _ (Finset.mem_insert_self _ _)
  let half := k3.modify area fun s => { s with pages := .null }
  refine ⟨{ half with vmap := s, vm := Function.update half.vm va none },
    { half with vmap := s, vm := Function.update half.vm va none, held := half.held.erase area },
    by rw [ready.addr]; exact removed, give_held held, ?_⟩
  refine ready.ext.freed sound ⟨removedSound.shrink (Finset.erase_subset _ _), ?_, rfl, fun tmp => ?_, rfl⟩
  · change half.held.erase area = half.held \ insert area (([] : List Nat).toFinset ∪ ∅)
    rw [List.toFinset_nil, Finset.empty_union, Finset.insert_empty, Finset.erase_eq]
  · by_cases same : tmp = va
    · subst same
      simp
    · rw [if_neg (by simpa using same)]
      exact Function.update_of_ne same .none half.vm

end Array

/-! ## All levels -/

section Node

variable {m : Machine} {k k' : Kernel}

/-- `vmallocAreaNode` once the area is there, in terms of its steps. -/
theorem vmallocAreaNode_eq {depth area bytes : Nat} {a : Attempt} {node : Nat → Kernel → Except Fault (Option Nat × Kernel)}
    {pages : PageArray} {k3 : Kernel} (size : (k'.structs area).areaSize = bytes)
    (array : allocArray a node bytes (counted k' area bytes) = .ok (pages, k3)) (some : pages ≠ .null) :
    vmallocAreaNode m depth a node k' area =
      mapPages m depth a bytes area (k3.modify area fun s => { s with pages := pages }) := by
  unfold counted at array
  simp only [vmallocAreaNode, size, array, ok_bind, if_neg some]

theorem vmallocAreaNode_refused (m : Machine) (depth : Nat) {area bytes start stop : Nat} {noGuard : Bool} {va : VmapArea} {a : Attempt}
    {node : Nat → Kernel → Except Fault (Option Nat × Kernel)} {k3 : Kernel} (sound : Sound k)
    (new : NewArea k k' va area bytes start stop noGuard) (size : (k'.structs area).areaSize = bytes)
    (array : allocArray a node bytes (counted k' area bytes) = .ok (.null, k3))
    (ext : Extends (counted k' area bytes) k3 [] ∅) :
    ∃ k5, vmallocAreaNode m depth a node k' area = .ok (none, k5) ∧ Extends k k5 [] ∅ := by
  obtain ⟨k4, k5, removed, given, ext'⟩ := new.refused m sound ext
  refine ⟨k5, ?_, ext'⟩
  unfold counted at array
  simp only [vmallocAreaNode, size, array, ok_bind, if_true, removed, given]

theorem pageAlign_idem {size : Nat} : pageAlign (pageAlign size) = pageAlign size := by
  have whole := pageAlign_dvd size
  have word := pageAlign_lt size
  generalize pageAlign size = bytes at whole word
  unfold pageAlign alignUp u64 pageSize at *
  omega

/-- An area that is there has the size that was asked for. -/
theorem getVmAreaNode_new (sound : Sound k) {size align start stop : Nat} {flags : VmFlags} {a : Attempt} {area : Nat}
    (window : Window start align) (done : getVmAreaNode m k (pageAlign size) align flags start stop a = .ok (some area, k')) :
    ∃ va, NewArea k k' va area (pageAlign size) start stop flags.noGuard ∧ (k'.structs area).areaSize = pageAlign size := by
  rcases getVmAreaNode_cases sound window done with ⟨none, -⟩ | ⟨va, other, isArea, new⟩
  · exact absurd none (Option.some_ne_none area)
  · obtain rfl := Option.some.inj isArea
    rw [pageAlign_idem] at new
    exact ⟨va, new, new.areaSize (pageAlign_lt size) (pageAlign_dvd size)⟩

/-- `__get_vm_area_node` ends the run in no other way than `alloc_vmap_area` does. -/
theorem getVmAreaNode_error {size align start stop : Nat} {flags : VmFlags} {a : Attempt} {fault : Fault}
    (failed : getVmAreaNode m k size align flags start stop a = .error fault) :
    ∃ b, (.error fault : Except Fault (Option Nat × Kernel)) = .error (.bug b) := by
  unfold getVmAreaNode at failed
  simp only at failed
  split at failed
  · cases failed
  · split at failed
    · cases failed
    · revert failed
      generalize (if flags.noGuard = true then pageAlign size else u64 (pageAlign size + pageSize)) = bytes
      generalize (if flags.ioremap = true then 2 ^ min (max (Nat.clog 2 (pageAlign size)) 12) ioremapMaxOrder else align) = align'
      intro failed
      cases outcome : allocVmapArea m.rb k.take.2.vmap bytes align' start stop a.vmapArea with
      | error b =>
          rw [outcome] at failed
          exact ⟨b, by rw [← failed]; rfl⟩
      | ok out =>
          obtain ⟨result, s⟩ := out
          rw [outcome] at failed
          cases result with
          | ok va => cases failed
          | error errno =>
              -- what was just taken is held
              have given := give_held (k := { k.take.2 with vmap := s }) (Finset.mem_insert_self k.next k.held)
              simp only [Except.mapError, ok_bind, Kernel.take] at failed given
              rw [given] at failed
              cases failed

theorem first_failure {n : Nat} {given : Nat → Bool} (some : ¬∀ j, j < n → given j = true) :
    ∃ i, i < n ∧ given i = false ∧ ∀ j, j < i → given j = true := by
  push Not at some
  obtain ⟨j, inside, fails⟩ := some
  have failure : ∃ j, given j = false := ⟨j, Bool.eq_false_of_not_eq_true fails⟩
  refine ⟨Nat.find failure, ?_, Nat.find_spec failure, fun j below => ?_⟩
  · exact (Nat.find_min' failure (Bool.eq_false_of_not_eq_true fails)).trans_lt inside
  · exact Bool.eq_true_of_not_eq_false (Nat.find_min failure below)

theorem window_one : Window vmallocStart 1 := ⟨by decide, by decide, by decide⟩

/-- One level, where the next one does what it should: what is taken is owned or given back,
    unless the array is too small. -/
theorem vmallocNodeRange_step (depth : Nat) (env : Nat → Attempt) (sound : Sound k) {size align start stop : Nat}
    {flags : VmFlags} (window : Window start align)
    (nested : pageSize < arraySize (pageAlign size) → ∀ k', Sound k' → NodeOutcome depth vmallocStart vmallocEnd k'
      (vmallocNodeRange m depth (fun n => env (n + 1)) k' (arraySize (pageAlign size)) 1 vmallocStart vmallocEnd ⟨false, false⟩)) :
    NodeOutcome (depth + 1) start stop k (vmallocNodeRange m (depth + 1) env k size align start stop flags) ∨
      arrayRoom m.ksize (pageAlign size) < 8 * pageCount (pageAlign size) ∧
        vmallocNodeRange m (depth + 1) env k size align start stop flags = .error .overrun := by
  rw [vmallocNodeRange]
  split
  · exact .inl (.inr (.inl ⟨k, rfl, .refl sound⟩))
  · cases got : getVmAreaNode m k (pageAlign size) align flags start stop (env 0) with
    | error fault => exact .inl (.inl (getVmAreaNode_error got))
    | ok out =>
        obtain ⟨result, k1⟩ := out
        rw [ok_bind]
        cases result with
        | none =>
            rcases getVmAreaNode_cases sound window got with ⟨-, ext⟩ | ⟨va, area, some, -⟩
            · exact .inl (.inr (.inl ⟨k1, rfl, ext⟩))
            · exact absurd some nofun
        | some area =>
            obtain ⟨va, new, isSize⟩ := getVmAreaNode_new sound window got
            have countedSound := new.counted.sound
            rcases allocArray_cases (env 0)
                (fun size k => vmallocNodeRange m depth (fun n => env (n + 1)) k size 1 vmallocStart vmallocEnd ⟨false, false⟩)
                countedSound (fun large => nested large _ countedSound) with
              ⟨b, failed⟩ | ⟨k3, refused, ext⟩ | ⟨pages, k3, vas, array, given, some, ext, owned, deep⟩
            · refine .inl (.inl ⟨b, ?_⟩)
              unfold counted at failed
              simp only [vmallocAreaNode, isSize, failed, error_bind]
            · exact .inl (.inr (.inl (vmallocAreaNode_refused m (depth + 1) sound new isSize refused ext)))
            · simp only [vmallocAreaNode_eq isSize given some]
              obtain ⟨ready, count⟩ := new.ready ext owned
              have deep' : vas.length + 1 ≤ depth + 1 := Nat.succ_le_succ deep
              by_cases all : ∀ j, j < pageCount (pageAlign size) → (env 0).pages j = true
              · by_cases fits : 8 * pageCount (pageAlign size) ≤ arrayRoom m.ksize (pageAlign size)
                · cases mapped : (env 0).mapping with
                  | false => exact .inl (.inr (.inl (mapPages_mapping ready sound deep' all mapped fits count)))
                  | true =>
                      obtain ⟨k4, refs, done, ext', owned'⟩ := mapPages_all m (depth + 1) ready all mapped fits count
                      have upper := new.upper
                      have proper := new.ext.sound.areas.nonempty va new.listed
                      exact .inl (.inr (.inr ⟨va.vaStart, k4, va :: vas, refs, done, ext', owned', deep', new.lower, by omega⟩))
                · exact .inr ⟨not_le.mp fits, mapPages_overrun all le_rfl (not_le.mp fits)⟩
              · obtain ⟨i, inside, fails, given⟩ := first_failure all
                by_cases fits : 8 * i ≤ arrayRoom m.ksize (pageAlign size)
                · exact .inl (.inr (.inl (mapPages_page ready sound deep' inside given fails fits)))
                · exact .inr ⟨by omega, mapPages_overrun given inside.le (not_le.mp fits)⟩

/-- Allocations of less than two tebibytes give an area with all its pages, or nothing. -/
theorem vmallocNodeRange_small (n depth : Nat) (enough : n + 1 ≤ depth) (env : Nat → Attempt) (sound : Sound k)
    {size align start stop : Nat} {flags : VmFlags} (few : pageAlign size ≤ 2 ^ 21 * 512 ^ n) (small : pageAlign size < 2 ^ 41)
    (window : Window start align) :
    NodeOutcome depth start stop k (vmallocNodeRange m depth env k size align start stop flags) := by
  have room := ((arrayFits_iff m.room (pageAlign_dvd size)).mpr small).room
  induction n generalizing depth env k size align start stop flags with
  | zero =>
      obtain ⟨depth, rfl⟩ : ∃ d, depth = d + 1 := ⟨depth - 1, by omega⟩
      have step : NodeOutcome (depth + 1) start stop k (vmallocNodeRange m (depth + 1) env k size align start stop flags) ∨ _ :=
        vmallocNodeRange_step depth env sound window fun large => by
          have less := arraySize_le (pageAlign size)
          unfold pageSize at large
          omega
      exact step.resolve_right fun overrun => by omega
  | succ n ih =>
      obtain ⟨depth, rfl⟩ : ∃ d, depth = d + 1 := ⟨depth - 1, by omega⟩
      have step : NodeOutcome (depth + 1) start stop k (vmallocNodeRange m (depth + 1) env k size align start stop flags) ∨ _ :=
        vmallocNodeRange_step depth env sound window fun large k' sound' => by
          have less := arraySize_le (pageAlign size)
          have shorter := pageAlign_arraySize_lt large
          have nestedSmall : pageAlign (arraySize (pageAlign size)) < 2 ^ 41 := shorter.trans small
          apply ih depth (by omega) _ sound' _ nestedSmall window_one
          · exact ((arrayFits_iff m.room (pageAlign_dvd _)).mpr nestedSmall).room
          · apply pageAlign_le
            · exact Dvd.dvd.mul_right (by decide) _
            · rw [pow_succ] at few
              omega
      exact step.resolve_right fun overrun => by omega

/-- Arrays are of less than four gibibytes, so their own arrays do fit. -/
theorem vmallocNodeRange_array (depth : Nat) (env : Nat → Attempt) (bytes : Nat) (sound : Sound k) :
    NodeOutcome (depth + 3) vmallocStart vmallocEnd k
      (vmallocNodeRange m (depth + 3) env k (arraySize bytes) 1 vmallocStart vmallocEnd ⟨false, false⟩) := by
  have few : pageAlign (arraySize bytes) ≤ 2 ^ 32 := pageAlign_le (by decide) (arraySize_lt bytes).le
  exact vmallocNodeRange_small 2 (depth + 3) (by omega) env sound (few.trans (by decide)) (lt_of_le_of_lt few (by decide))
    window_one

end Node

end Miracle.Vmalloc
