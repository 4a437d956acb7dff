import Miracle.Vmalloc.Basic

/-! # The invariant of the area set, and how insertion and removal keep it -/

namespace Miracle.Vmalloc

open SearchTree

def Before (a b : VmapArea) : Prop := a.vaEnd ≤ b.vaStart

def Apart (a b : VmapArea) : Prop := Before a b ∨ Before b a

structure AreasOk (s : Vmap) : Prop where
  nonempty : ∀ va ∈ s.areaList, va.vaStart < va.vaEnd
  word : ∀ va ∈ s.areaList, va.vaEnd < 2 ^ 64
  sorted : s.areaList.Pairwise Before
  tree : s.root.inorder = s.areaList
  cache : ∀ va, s.freeCache = some va → va ∈ s.areaList
  purgeNodup : s.purgeList.Nodup
  purge : ∀ va ∈ s.purgeList, va ∈ s.areaList ∧ s.vmFlag va = false

section Sorted

variable {l pre post : List VmapArea} {va : VmapArea}

theorem sorted_nodup (nonempty : ∀ va ∈ l, va.vaStart < va.vaEnd) (sorted : l.Pairwise Before) : l.Nodup := by
  apply sorted.imp_of_mem
  rintro a b mem - before rfl
  have proper := nonempty a mem
  unfold Before at before
  omega

theorem not_mem_parts (nonempty : ∀ va ∈ l, va.vaStart < va.vaEnd) (sorted : l.Pairwise Before)
    (shape : l = pre ++ va :: post) : va ∉ pre ∧ va ∉ post := by
  have nodup := sorted_nodup nonempty sorted
  rw [shape] at nodup
  obtain ⟨-, back, apart⟩ := List.nodup_append.mp nodup
  exact ⟨fun mem => apart va mem va List.mem_cons_self rfl, (List.nodup_cons.mp back).1⟩

theorem before_of_pre (sorted : l.Pairwise Before) (shape : l = pre ++ va :: post) {a : VmapArea} (mem : a ∈ pre) :
    Before a va := by
  rw [shape] at sorted
  exact (List.pairwise_append.mp sorted).2.2 a mem va List.mem_cons_self

theorem before_of_post (sorted : l.Pairwise Before) (shape : l = pre ++ va :: post) {b : VmapArea} (mem : b ∈ post) :
    Before va b := by
  rw [shape] at sorted
  exact (List.pairwise_cons.mp (List.pairwise_append.mp sorted).2.1).1 b mem

end Sorted

/-! ## Insertion -/

theorem insertDir_guides {l : List VmapArea} {va : VmapArea} (nonempty : ∀ tmp ∈ l, tmp.vaStart < tmp.vaEnd)
    (sorted : l.Pairwise Before) (proper : va.vaStart < va.vaEnd) : Guides (insertDir va) l := by
  apply sorted.imp_of_mem
  intro a b memA memB before
  have properA := nonempty a memA
  have properB := nonempty b memB
  unfold Before at before
  unfold insertDir
  constructor
  · intro toLeft
    split at toLeft
    · rw [if_pos (by omega)]
    · split at toLeft <;> exact absurd toLeft (by decide)
  · intro toRight
    split at toRight
    · exact absurd toRight (by decide)
    · rw [if_neg (by omega), if_pos (by omega)]

theorem insertDir_ne_stop {va tmp : VmapArea} (nonempty : tmp.vaStart < tmp.vaEnd) (proper : va.vaStart < va.vaEnd) :
    insertDir va tmp ≠ .stop := by
  unfold insertDir
  split
  · decide
  · rw [if_pos (by omega)]
    decide

/-- An area that is apart from all others is inserted at its place in the order. -/
theorem insertVmapArea_spec (rb : Rebalancing) {s : Vmap} {va : VmapArea} (ok : AreasOk s)
    (proper : va.vaStart < va.vaEnd) (apart : ∀ tmp ∈ s.areaList, Apart tmp va) :
    ∃ root pre post, s.areaList = pre ++ post ∧ root.inorder = pre ++ va :: post ∧
      (∀ a ∈ pre, Before a va) ∧ (∀ b ∈ post, Before va b) ∧
      insertVmapArea rb s va = .ok { s with root := root, areaList := pre ++ va :: post } := by
  have guides : Guides (insertDir va) s.root.inorder := by
    rw [ok.tree]
    exact insertDir_guides ok.nonempty ok.sorted proper
  obtain ⟨linked, pre, post, link, shape, shape', toRight, toLeft⟩ := link_spec (x := va) guides fun tmp mem =>
    insertDir_ne_stop (ok.nonempty tmp (ok.tree ▸ mem)) proper
  rw [ok.tree] at shape
  have before : ∀ a ∈ pre, Before a va := by
    intro a mem
    have right := toRight a mem
    unfold insertDir at right
    unfold Before
    split at right
    · exact absurd right (by decide)
    · omega
  have after : ∀ b ∈ post, Before va b := by
    intro b mem
    have left := toLeft b mem
    rcases apart b (by rw [shape]; exact List.mem_append_right pre mem) with first | last
    · unfold insertDir at left
      unfold Before at first
      rw [if_neg (by omega)] at left
      split at left <;> exact absurd left (by decide)
    · exact last
  refine ⟨rb.insertColor linked, pre, post, shape, (rb.insertColor_inorder linked).trans shape', before, after, ?_⟩
  have freshPre : va ∉ pre := fun mem => absurd (before va mem) (by unfold Before; omega)
  have freshPost : va ∉ post := fun mem => absurd (after va mem) (by unfold Before; omega)
  have prev : prevIn (rb.insertColor linked).inorder va = pre.getLast? := by
    rw [rb.insertColor_inorder, shape']
    exact prevIn_append freshPre freshPost
  unfold insertVmapArea
  simp only [link, prev]
  -- the list gets the area behind the one before it
  rcases List.eq_nil_or_concat pre with rfl | ⟨front, last, rfl⟩
  · simp only [List.getLast?_nil, shape, List.nil_append]
  · have nodup := sorted_nodup ok.nonempty ok.sorted
    rw [shape, List.concat_eq_append] at nodup
    have freshFront : last ∉ front := by
      have distinct := (List.nodup_append.mp (List.nodup_append.mp nodup).1).2.2
      exact fun mem => distinct last mem last List.mem_cons_self rfl
    simp only [List.concat_eq_append, List.getLast?_append, List.getLast?_singleton, Option.some_or, shape,
      List.append_assoc, List.singleton_append, insertAfter_last freshFront]

/-- The set with one more area. -/
theorem insertVmapArea_ok (rb : Rebalancing) {s : Vmap} {va : VmapArea} (ok : AreasOk s)
    (proper : va.vaStart < va.vaEnd) (word : va.vaEnd < 2 ^ 64) (apart : ∀ tmp ∈ s.areaList, Apart tmp va) :
    ∃ s', insertVmapArea rb s va = .ok s' ∧ AreasOk s' ∧ (∀ tmp, tmp ∈ s'.areaList ↔ tmp = va ∨ tmp ∈ s.areaList) ∧
      s'.vmFlag = s.vmFlag ∧ s'.purgeList = s.purgeList ∧ s'.freeCache = s.freeCache := by
  obtain ⟨root, pre, post, shape, inorder, before, after, inserted⟩ := insertVmapArea_spec rb ok proper apart
  have members : ∀ tmp, tmp ∈ pre ++ va :: post ↔ tmp = va ∨ tmp ∈ s.areaList := by
    intro tmp
    rw [shape]
    simp only [List.mem_append, List.mem_cons]
    tauto
  have old {tmp : VmapArea} (mem : tmp ∈ s.areaList) : tmp ∈ pre ++ va :: post := (members tmp).mpr (.inr mem)
  refine ⟨_, inserted, ⟨?_, ?_, ?_, inorder, fun tmp h => old (ok.cache tmp h), ok.purgeNodup, ?_⟩, members, rfl, rfl, rfl⟩
  · intro tmp mem
    rcases (members tmp).mp mem with rfl | mem
    · exact proper
    · exact ok.nonempty tmp mem
  · intro tmp mem
    rcases (members tmp).mp mem with rfl | mem
    · exact word
    · exact ok.word tmp mem
  · have sorted := ok.sorted
    rw [shape] at sorted
    obtain ⟨front, back, across⟩ := List.pairwise_append.mp sorted
    refine List.pairwise_append.mpr ⟨front, List.pairwise_cons.mpr ⟨after, back⟩, ?_⟩
    intro a memA b memB
    rcases List.mem_cons.mp memB with rfl | memB
    · exact before a memA
    · exact across a memA b memB
  · intro tmp mem
    obtain ⟨present, unset⟩ := ok.purge tmp mem
    exact ⟨old present, unset⟩

/-! ## Removal -/

/-- The set without an area that is in it and not waiting to be purged. -/
theorem freeVmapArea_ok (rb : Rebalancing) {s : Vmap} {va : VmapArea} (ok : AreasOk s) (mem : va ∈ s.areaList)
    (unlisted : va ∉ s.purgeList) :
    ∃ s', freeVmapArea rb s va = .ok s' ∧ AreasOk s' ∧ s'.areaList = s.areaList.erase va ∧ s'.vmFlag = s.vmFlag ∧
      s'.purgeList = s.purgeList := by
  have nodup := sorted_nodup ok.nonempty ok.sorted
  have kept {tmp : VmapArea} (h : tmp ∈ s.areaList.erase va) : tmp ∈ s.areaList := List.mem_of_mem_erase h
  unfold freeVmapArea
  rw [if_pos (by rw [ok.tree]; exact mem)]
  refine ⟨_, rfl, ⟨fun tmp h => ok.nonempty tmp (kept h), fun tmp h => ok.word tmp (kept h), ?_, ?_, ?_,
    ok.purgeNodup, ?_⟩, rfl, rfl, rfl⟩
  · exact ok.sorted.sublist List.erase_sublist
  · exact (rb.erase_inorder va s.root).trans (congrArg (fun l => l.erase va) ok.tree)
  · intro tmp cached
    change freedCache s va = some tmp at cached
    change tmp ∈ s.areaList.erase va
    rw [nodup.mem_erase_iff]
    unfold freedCache at cached
    split at cached
    · exact absurd cached.symm (Option.some_ne_none tmp)
    · rename_i cache isCache
      split at cached
      · exact absurd cached.symm (Option.some_ne_none tmp)
      · split at cached
        · obtain ⟨pre, post, shape⟩ := List.append_of_mem mem
          obtain ⟨freshPre, freshPost⟩ := not_mem_parts ok.nonempty ok.sorted shape
          rw [ok.tree, shape, prevIn_append freshPre freshPost] at cached
          have inPre := List.mem_of_getLast? cached
          exact ⟨fun same => freshPre (same ▸ inPre), by rw [shape]; exact List.mem_append_left _ inPre⟩
        · rename_i later
          obtain rfl := Option.some.inj cached
          exact ⟨fun same => later (by rw [same]), ok.cache cache isCache⟩
  · intro tmp h
    obtain ⟨present, unset⟩ := ok.purge tmp h
    refine ⟨?_, unset⟩
    change tmp ∈ s.areaList.erase va
    rw [nodup.mem_erase_iff]
    exact ⟨fun same => unlisted (same ▸ h), present⟩

/-- Purging removes the areas that wait for it, and nothing else. -/
theorem purgeAreas_ok (rb : Rebalancing) {waiting : List VmapArea} {s : Vmap} (ok : AreasOk s)
    (nodup : waiting.Nodup) (present : ∀ va ∈ waiting, va ∈ s.areaList) (empty : s.purgeList = []) :
    ∃ s', purgeAreas rb waiting s = .ok s' ∧ AreasOk s' ∧ (∀ tmp ∈ s'.areaList, tmp ∈ s.areaList) ∧
      s'.vmFlag = s.vmFlag ∧ s'.purgeList = [] := by
  induction waiting generalizing s with
  | nil => exact ⟨s, rfl, ok, fun tmp mem => mem, rfl, empty⟩
  | cons va rest ih =>
      obtain ⟨fresh, nodup'⟩ := List.nodup_cons.mp nodup
      obtain ⟨mid, freed, midOk, shape, flags, listed⟩ := freeVmapArea_ok rb ok (present va List.mem_cons_self)
        (by rw [empty]; exact List.not_mem_nil)
      have midOk' : AreasOk { mid with lazyNr := int32 (mid.lazyNr - nrPages va) } :=
        { midOk with }
      obtain ⟨s', done, ok', fewer, flags', listed'⟩ := ih midOk' nodup' (fun tmp mem => by
        change tmp ∈ mid.areaList
        rw [shape, (sorted_nodup ok.nonempty ok.sorted).mem_erase_iff]
        exact ⟨fun same => fresh (same ▸ mem), present tmp (List.mem_cons_of_mem va mem)⟩) (listed.trans empty)
      refine ⟨s', ?_, ok', ?_, flags'.trans flags, listed'⟩
      · simp only [purgeAreas, freed, ok_bind]
        exact done
      · intro tmp mem
        have inMid : tmp ∈ mid.areaList := fewer tmp mem
        rw [shape] at inMid
        exact List.mem_of_mem_erase inMid

theorem purgeVmapAreaLazy_ok (rb : Rebalancing) {s : Vmap} (ok : AreasOk s) :
    ∃ s', purgeVmapAreaLazy rb s = .ok s' ∧ AreasOk s' ∧ (∀ tmp ∈ s'.areaList, tmp ∈ s.areaList) ∧
      s'.vmFlag = s.vmFlag ∧ s'.purgeList = [] := by
  have ok' : AreasOk { s with purgeList := [] } :=
    ⟨ok.nonempty, ok.word, ok.sorted, ok.tree, ok.cache, List.nodup_nil, nofun⟩
  exact purgeAreas_ok rb ok' ok.purgeNodup (fun va mem => (ok.purge va mem).1) rfl

/-- An area with its flag set may join the areas that wait to be purged, its flag cleared. -/
theorem queued_ok {s : Vmap} {va : VmapArea} (ok : AreasOk s) (mem : va ∈ s.areaList) (flag : s.vmFlag va = true) :
    AreasOk { s with vmFlag := Function.update s.vmFlag va false, purgeList := va :: s.purgeList } := by
  have unlisted : va ∉ s.purgeList := fun listed => by
    have unset := (ok.purge va listed).2
    simp [flag] at unset
  refine ⟨ok.nonempty, ok.word, ok.sorted, ok.tree, ok.cache, List.nodup_cons.mpr ⟨unlisted, ok.purgeNodup⟩, ?_⟩
  intro tmp listed
  rcases List.mem_cons.mp listed with rfl | old
  · exact ⟨mem, Function.update_self tmp false s.vmFlag⟩
  · obtain ⟨present, unset⟩ := ok.purge tmp old
    refine ⟨present, ?_⟩
    change Function.update s.vmFlag va false tmp = false
    rw [Function.update_of_ne (fun same : tmp = va => unlisted (same ▸ old))]
    exact unset

theorem freeVmapAreaNoflush_ok (rb : Rebalancing) {lazyMax : Nat} {s : Vmap} {va : VmapArea} (ok : AreasOk s)
    (mem : va ∈ s.areaList) (flag : s.vmFlag va = true) :
    ∃ s', freeVmapAreaNoflush rb lazyMax { s with vmFlag := Function.update s.vmFlag va false } va = .ok s' ∧
      AreasOk s' := by
  have queued : AreasOk { s with
      vmFlag := Function.update s.vmFlag va false
      lazyNr := int32 (s.lazyNr + nrPages va)
      purgeList := va :: s.purgeList } := { queued_ok ok mem flag with }
  unfold freeVmapAreaNoflush
  simp only
  split
  · obtain ⟨s', purged, ok', -⟩ := purgeVmapAreaLazy_ok rb queued
    exact ⟨s', purged, ok'⟩
  · exact ⟨_, rfl, queued⟩

/-- Setting the flag of an area that does not wait to be purged. -/
theorem setup_ok {s : Vmap} {va : VmapArea} (ok : AreasOk s) (unlisted : va ∉ s.purgeList) :
    AreasOk (setupVmallocVm s va) := by
  refine ⟨ok.nonempty, ok.word, ok.sorted, ok.tree, ok.cache, ok.purgeNodup, ?_⟩
  intro tmp listed
  obtain ⟨present, unset⟩ := ok.purge tmp listed
  refine ⟨present, ?_⟩
  change Function.update s.vmFlag va true tmp = false
  rw [Function.update_of_ne (fun same : tmp = va => unlisted (same ▸ listed))]
  exact unset

theorem findVmapArea_mem {addr : Nat} {t : BinTree VmapArea} {va : VmapArea} (found : findVmapArea addr t = some va) :
    va ∈ t.inorder := by
  induction t with
  | leaf => exact absurd found.symm (Option.some_ne_none va)
  | node l tmp r ihl ihr =>
      simp only [findVmapArea] at found
      simp only [BinTree.inorder, List.mem_append, List.mem_cons]
      split at found
      · exact .inl (ihl found)
      · split at found
        · exact .inr (.inr (ihr found))
        · exact .inr (.inl (Option.some.inj found).symm)

theorem removeVmArea_ok (rb : Rebalancing) {lazyMax addr : Nat} {s : Vmap} (ok : AreasOk s) :
    ∃ removed s', removeVmArea rb lazyMax s addr = .ok (removed, s') ∧ AreasOk s' := by
  unfold removeVmArea
  cases found : findVmapArea addr s.root with
  | none => exact ⟨_, _, rfl, ok⟩
  | some va =>
      simp only
      split
      · rename_i flag
        obtain ⟨s', freed, ok'⟩ := @freeVmapAreaNoflush_ok rb lazyMax s va ok
          (ok.tree ▸ findVmapArea_mem found) flag
        refine ⟨some va, s', ?_, ok'⟩
        simp only [freed, ok_bind]
      · exact ⟨_, _, rfl, ok⟩

theorem pcpuFreeVmAreas_ok (rb : Rebalancing) {lazyMax : Nat} {vms : List VmapArea} {s s' : Vmap} (ok : AreasOk s)
    (freed : pcpuFreeVmAreas rb lazyMax vms s = .ok s') : AreasOk s' := by
  induction vms generalizing s with
  | nil =>
      obtain rfl := Except.ok.inj freed
      exact ok
  | cons vm rest ih =>
      obtain ⟨removed, mid, took, midOk⟩ := @removeVmArea_ok rb lazyMax vm.vaStart s ok
      simp only [pcpuFreeVmAreas, took, ok_bind] at freed
      split at freed
      · exact absurd freed nofun
      · exact ih midOk freed

end Miracle.Vmalloc
