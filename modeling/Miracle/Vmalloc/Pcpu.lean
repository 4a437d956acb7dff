import Miracle.Vmalloc.Alloc

/-! # The top-down scan for the per-CPU areas

The scan holds a base and checks one part after the other against the areas around its end.
Whenever a part does not fit the base moves down and the turn begins anew, so when a turn is
over every part was checked at the base it ended with.
-/

namespace Miracle.Vmalloc

open SearchTree

/-! ## The areas around an address -/

/-- `next` and `prev` are neighbours in the list, and their ends lie on both sides of `stop`. -/
def Splits (l : List VmapArea) (stop : Nat) (around : Around) : Prop :=
  ∃ pre post, l = pre ++ post ∧ around.prev = pre.getLast? ∧ around.next = post.head? ∧
    (∀ va ∈ pre, va.vaEnd ≤ stop) ∧ ∀ va ∈ post, stop < va.vaEnd

section Around

variable {l : List VmapArea} {stop : Nat}

theorem pvmDir_guides (nonempty : ∀ va ∈ l, va.vaStart < va.vaEnd) (sorted : l.Pairwise Before) :
    Guides (pvmDir stop) l := by
  apply sorted.imp_of_mem
  intro x y _ memY before
  have proper := nonempty y memY
  unfold Before at before
  unfold pvmDir
  constructor
  · intro toLeft
    split at toLeft
    · rw [if_pos (by omega)]
    · split at toLeft <;> exact absurd toLeft (by decide)
  · intro toRight
    split at toRight
    · exact absurd toRight (by decide)
    · split at toRight
      · rw [if_neg (by omega), if_pos (by omega)]
      · exact absurd toRight (by decide)

theorem pvmFindNextPrev_spec {root : BinTree VmapArea} (tree : root.inorder = l)
    (nonempty : ∀ va ∈ l, va.vaStart < va.vaEnd) (sorted : l.Pairwise Before) :
    (pvmFindNextPrev root stop = none ∧ l = []) ∨
      ∃ around, pvmFindNextPrev root stop = some around ∧ Splits l stop around := by
  have guides : Guides (pvmDir stop) root.inorder := tree ▸ pvmDir_guides nonempty sorted
  unfold pvmFindNextPrev
  rcases lastVisited_spec guides with ⟨rfl, seen⟩ | ⟨pre, v, post, shape, seen, place⟩
  · exact .inl ⟨by rw [seen]; rfl, tree.symm⟩
  · rw [tree] at shape
    obtain ⟨freshPre, freshPost⟩ := not_mem_parts nonempty sorted shape
    have endsBefore : ∀ va ∈ pre, va.vaEnd ≤ v.vaEnd := by
      intro va mem
      have before := before_of_pre sorted shape mem
      have proper := nonempty v (by rw [shape]; simp)
      unfold Before at before
      omega
    have endsAfter : ∀ va ∈ post, v.vaEnd < va.vaEnd := by
      intro va mem
      have before := before_of_post sorted shape mem
      have proper := nonempty va (by rw [shape]; simp [mem])
      unfold Before at before
      omega
    refine .inr ⟨_, by rw [seen]; rfl, ?_⟩
    simp only [tree, shape]
    split
    · -- the node found ends above the address: all before it end below
      rename_i above
      refine ⟨pre, v :: post, rfl, prevIn_append freshPre freshPost, rfl, ?_, ?_⟩
      · intro va mem
        rcases place with here | ⟨-, before⟩ | ⟨toRight, -⟩
        · simp only [pvmDir, if_pos above] at here
          exact absurd here (by decide)
        · have right := before va mem
          unfold pvmDir at right
          split at right
          · exact absurd right (by decide)
          · omega
        · simp only [pvmDir, if_pos above] at toRight
          exact absurd toRight (by decide)
      · intro va mem
        rcases List.mem_cons.mp mem with rfl | later
        · exact above
        · exact above.trans (endsAfter va later)
    · rename_i below
      refine ⟨pre ++ [v], post, by simp, by simp, nextIn_append freshPre, ?_, ?_⟩
      · intro va mem
        rcases List.mem_append.mp mem with earlier | last
        · exact (endsBefore va earlier).trans (not_lt.mp below)
        · rw [List.mem_singleton.mp last]
          exact not_lt.mp below
      · intro va mem
        rcases place with here | ⟨toLeft, -⟩ | ⟨-, after⟩
        · have same : v.vaEnd = stop := by
            unfold pvmDir at here
            rw [if_neg below] at here
            split at here
            · exact absurd here (by decide)
            · omega
          exact same ▸ endsAfter va mem
        · simp only [pvmDir, if_neg below] at toLeft
          split at toLeft <;> exact absurd toLeft (by decide)
        · have left := after va mem
          unfold pvmDir at left
          split at left
          · assumption
          · split at left <;> exact absurd left (by decide)

theorem lowerAround_spec {addr : Nat} {pre post : List VmapArea} (nonempty : ∀ va ∈ pre ++ post, va.vaStart < va.vaEnd)
    (sorted : (pre ++ post).Pairwise Before) (above : ∀ va ∈ post, addr < va.vaEnd) :
    Splits (pre ++ post) addr (lowerAround addr pre.reverse post.head?) := by
  induction pre using List.reverseRecOn generalizing post with
  | nil => exact ⟨[], post, rfl, rfl, rfl, nofun, above⟩
  | append_singleton front prev ih =>
      have shape : front ++ [prev] ++ post = front ++ prev :: post := by simp
      rw [shape] at nonempty sorted ⊢
      rw [List.reverse_append, List.reverse_singleton, List.singleton_append, lowerAround]
      split
      · rename_i reaches
        exact ih nonempty sorted fun va mem => by
          rcases List.mem_cons.mp mem with rfl | later
          · exact reaches
          · exact above va later
      · rename_i under
        refine ⟨front ++ [prev], post, by simp, by simp, rfl, ?_, above⟩
        intro va mem
        rcases List.mem_append.mp mem with earlier | last
        · have before := before_of_pre sorted rfl earlier
          have proper := nonempty prev (by simp)
          unfold Before at before
          omega
        · rw [List.mem_singleton.mp last]
          exact not_lt.mp under

theorem downFrom_reverse {pre post : List VmapArea} (nonempty : ∀ va ∈ pre ++ post, va.vaStart < va.vaEnd)
    (sorted : (pre ++ post).Pairwise Before) : downFrom (pre ++ post) pre.getLast? = pre.reverse := by
  rcases List.eq_nil_or_concat pre with rfl | ⟨front, last, rfl⟩
  · rfl
  · rw [List.concat_eq_append] at nonempty sorted ⊢
    have shape : front ++ [last] ++ post = front ++ last :: post := by simp
    obtain ⟨-, fresh⟩ := not_mem_parts nonempty sorted shape
    simp only [List.getLast?_append, List.getLast?_singleton, Option.some_or, downFrom, List.reverse_append,
      List.reverse_singleton, List.singleton_append]
    exact suffixFrom_append (by simpa using fresh)

/-- The new end lies below `next` and the limit, between the ends of the new neighbours. -/
theorem pvmDetermineEnd_spec {root : BinTree VmapArea} {a : Nat} {around : Around} {pre post : List VmapArea}
    (tree : root.inorder = pre ++ post) (nonempty : ∀ va ∈ pre ++ post, va.vaStart < va.vaEnd)
    (sorted : (pre ++ post).Pairwise Before) (prev : around.prev = pre.getLast?) (next : around.next = post.head?) :
    Splits (pre ++ post) (pvmDetermineEnd root around a).1 (pvmDetermineEnd root around a).2 ∧
      (pvmDetermineEnd root around a).1 ≤ alignDown vmallocEnd a ∧
      ∀ va, around.next = some va → (pvmDetermineEnd root around a).1 ≤ va.vaStart := by
  unfold pvmDetermineEnd
  simp only
  cases after : around.next with
  | none =>
      have empty : post = [] := List.head?_eq_none_iff.mp (next.symm.trans after)
      subst empty
      refine ⟨?_, le_rfl, nofun⟩
      rw [tree, prev, downFrom_reverse nonempty sorted]
      exact lowerAround_spec nonempty sorted nofun
  | some va =>
      have head : post.head? = some va := next.symm.trans after
      have down : alignDown va.vaStart a ≤ va.vaStart := Nat.div_mul_le_self _ _
      refine ⟨?_, min_le_right _ _, fun other same => ?_⟩
      · rw [tree, prev, downFrom_reverse nonempty sorted, ← head]
        apply lowerAround_spec nonempty sorted
        intro later mem
        have proper := nonempty later (List.mem_append_right pre mem)
        have first : va.vaStart ≤ later.vaStart := by
          cases post with
          | nil => exact absurd mem List.not_mem_nil
          | cons head' rest =>
              obtain rfl := Option.some.inj head
              rcases List.mem_cons.mp mem with rfl | after
              · exact le_rfl
              · have before := before_of_post sorted rfl after
                have proper' := nonempty head' (by simp)
                unfold Before at before
                omega
        simp only [head]
        exact lt_of_le_of_lt (min_le_left _ _) (by omega)
      · obtain rfl := Option.some.inj same
        exact (min_le_left _ _).trans down

end Around

/-! ## The parts -/

/-- The part is apart from all areas when the base is put at `base`. -/
def FitsAt (l : List VmapArea) (base : Nat) (part : Part) : Prop :=
  ∀ va ∈ l, Apart va ⟨base + part.offset, base + part.stop⟩

def partAt (parts : List Part) (i : Nat) : Part := parts.getD i ⟨0, 0⟩

theorem partAt_mem {parts : List Part} {i : Nat} (below : i < parts.length) : partAt parts i ∈ parts := by
  unfold partAt
  rw [List.getD_eq_getElem parts _ below]
  exact List.getElem_mem below

theorem lastArea_spec {parts : List Part} (some_parts : parts ≠ []) :
    lastArea parts < parts.length ∧ ∀ p ∈ parts, p.offset ≤ (partAt parts (lastArea parts)).offset := by
  have pos : 0 < parts.length := List.length_pos_iff.mpr some_parts
  -- the loop's invariant: the place is in range and the best of those seen
  have loop : ∀ n, n ≤ parts.length →
      (List.range n).foldl (fun last area =>
        if (parts.getD last ⟨0, 0⟩).offset < (parts.getD area ⟨0, 0⟩).offset then area else last) 0 < parts.length ∧
      ∀ i, i < n → (partAt parts i).offset ≤ (partAt parts ((List.range n).foldl (fun last area =>
        if (parts.getD last ⟨0, 0⟩).offset < (parts.getD area ⟨0, 0⟩).offset then area else last) 0)).offset := by
    intro n
    induction n with
    | zero => exact fun _ => ⟨pos, nofun⟩
    | succ n ih =>
        intro within
        obtain ⟨inRange, best⟩ := ih (by omega)
        rw [List.range_succ, List.foldl_append, List.foldl_cons, List.foldl_nil]
        split
        · rename_i better
          refine ⟨by omega, fun i below => ?_⟩
          rcases Nat.lt_succ_iff_lt_or_eq.mp below with earlier | rfl
          · exact (best i earlier).trans (le_of_lt better)
          · exact le_rfl
        · rename_i worse
          refine ⟨inRange, fun i below => ?_⟩
          rcases Nat.lt_succ_iff_lt_or_eq.mp below with earlier | rfl
          · exact best i earlier
          · exact not_lt.mp worse
  obtain ⟨inRange, best⟩ := loop parts.length le_rfl
  refine ⟨inRange, fun p mem => ?_⟩
  obtain ⟨i, below, rfl⟩ := List.getElem_of_mem mem
  have bound := best i below
  rwa [partAt, List.getD_eq_getElem parts _ below] at bound

/-- Parts that do not overlap: the one with the highest offset ends last. -/
theorem stop_le_last {parts : List Part} (some_parts : parts ≠ []) (sizes : ∀ p ∈ parts, 0 < p.size)
    (apart : parts.Pairwise fun p q => ¬(q.offset < p.stop ∧ p.offset < q.stop)) {p : Part} (mem : p ∈ parts) :
    p.stop ≤ (partAt parts (lastArea parts)).stop := by
  obtain ⟨inRange, best⟩ := lastArea_spec some_parts
  have memLast := partAt_mem inRange
  have properLast := sizes _ memLast
  have offsets := best p mem
  by_cases same : p = partAt parts (lastArea parts)
  · rw [← same]
  · have symm : Std.Symm fun p q : Part => ¬(q.offset < p.stop ∧ p.offset < q.stop) :=
      ⟨fun _ _ h meets => h ⟨meets.2, meets.1⟩⟩
    have disjoint := apart.forall mem memLast same
    unfold Part.stop at *
    omega

/-- The place after `turn` steps down, around the end. -/
def placeAt (n term turn : Nat) : Nat := (term + n - turn) % n

theorem placeAt_zero {n term : Nat} (below : term < n) : placeAt n term 0 = term := by
  unfold placeAt
  rw [Nat.sub_zero, Nat.add_mod_right, Nat.mod_eq_of_lt below]

theorem placeAt_length {n term : Nat} (below : term < n) : placeAt n term n = term := by
  unfold placeAt
  rw [Nat.add_sub_cancel, Nat.mod_eq_of_lt below]

theorem placeAt_succ {n term turn : Nat} (early : turn < n) :
    (placeAt n term turn + n - 1) % n = placeAt n term (turn + 1) := by
  unfold placeAt
  have split : (term + n - turn) % n + n - 1 = (term + n - turn) % n + (n - 1) := by omega
  have whole : term + n - turn + (n - 1) = term + n - (turn + 1) + n := by omega
  rw [split, Nat.mod_add_mod, whole, Nat.add_mod_right]

/-- A turn is over only when every place was seen. -/
theorem turn_over {n term turn : Nat} (below : term < n) (early : turn < n) (back : placeAt n term (turn + 1) = term) :
    turn + 1 = n := by
  unfold placeAt at back
  by_cases far : term + n - (turn + 1) < n
  · rw [Nat.mod_eq_of_lt far] at back
    omega
  · rw [Nat.mod_eq_sub_mod (by omega), Nat.mod_eq_of_lt (by omega)] at back
    omega

theorem placeAt_surjective {n term i : Nat} (below : term < n) (place : i < n) : ∃ j, j < n ∧ placeAt n term j = i := by
  unfold placeAt
  by_cases under : i ≤ term
  · refine ⟨term - i, by omega, ?_⟩
    rw [show term + n - (term - i) = i + n by omega, Nat.add_mod_right, Nat.mod_eq_of_lt place]
  · refine ⟨term + n - i, by omega, ?_⟩
    rw [show term + n - (term + n - i) = i by omega, Nat.mod_eq_of_lt place]

/-! ## The scan -/

/-- What the scan relies on: the areas and the parts. -/
structure ScanSetup (root : BinTree VmapArea) (l : List VmapArea) (parts : List Part) (a lastEnd : Nat) : Prop where
  tree : root.inorder = l
  nonempty : ∀ va ∈ l, va.vaStart < va.vaEnd
  sorted : l.Pairwise Before
  some_areas : l ≠ []
  some_parts : parts ≠ []
  stops : ∀ p ∈ parts, p.stop ≤ lastEnd
  room : alignUp vmallocStart a + lastEnd ≤ alignDown vmallocEnd a

/-- The scan between two rounds: `top` is the end of the current part, and `turn` parts were
    checked since the base was last moved. -/
structure ScanOk (l : List VmapArea) (parts : List Part) (a lastEnd : Nat) (scan : Scan) (top turn : Nat) : Prop where
  inRange : scan.termArea < parts.length
  early : turn < parts.length
  place : scan.area = placeAt parts.length scan.termArea turn
  base : scan.base = u64Sub top (partAt parts scan.area).stop
  limit : top + lastEnd ≤ alignDown vmallocEnd a + (partAt parts scan.area).stop
  around : Splits l top scan.around
  checked : ∀ j, j < turn → FitsAt l scan.base (partAt parts (placeAt parts.length scan.termArea j))

section Scan

variable {root : BinTree VmapArea} {l : List VmapArea} {parts : List Part} {a lastEnd top turn : Nat} {scan : Scan}

theorem vmallocEnd_lt (a : Nat) : alignDown vmallocEnd a < 2 ^ 64 :=
  lt_of_le_of_lt (Nat.div_mul_le_self vmallocEnd a) (by decide)

theorem ScanOk.area_lt (ok : ScanOk l parts a lastEnd scan top turn) : scan.area < parts.length := by
  rw [ok.place]
  exact Nat.mod_lt _ (lt_of_le_of_lt (Nat.zero_le _) ok.inRange)

theorem ScanOk.top_lt (setup : ScanSetup root l parts a lastEnd) (ok : ScanOk l parts a lastEnd scan top turn) :
    top ≤ alignDown vmallocEnd a := by
  have stop := setup.stops _ (partAt_mem ok.area_lt)
  have limit := ok.limit
  omega

/-- The two sums of the scan with the base. -/
theorem ScanOk.sums (setup : ScanSetup root l parts a lastEnd) (ok : ScanOk l parts a lastEnd scan top turn) :
    u64 (scan.base + (partAt parts scan.area).stop) = top ∧
      u64 (scan.base + lastEnd) = top + lastEnd - (partAt parts scan.area).stop := by
  have stop := setup.stops _ (partAt_mem ok.area_lt)
  have room := setup.room
  have topLt := ok.top_lt setup
  have word := vmallocEnd_lt a
  have limit := ok.limit
  rw [ok.base]
  unfold u64Sub u64
  omega

/-- Past the check for the low end the base is a true address. -/
theorem ScanOk.base_add (setup : ScanSetup root l parts a lastEnd) (ok : ScanOk l parts a lastEnd scan top turn)
    (high : ¬u64 (scan.base + lastEnd) < u64 (alignUp vmallocStart a + lastEnd)) :
    scan.base + (partAt parts scan.area).stop = top := by
  have stop := setup.stops _ (partAt_mem ok.area_lt)
  have room := setup.room
  have topLt := ok.top_lt setup
  have word := vmallocEnd_lt a
  rw [(ok.sums setup).2, u64_of_lt (by omega)] at high
  rw [ok.base, u64Sub_of_le (by omega) (by omega)]
  omega

/-- A bound on the rounds that are left: a turn for every value below the base. -/
def roundsLeft (parts : List Part) (lastEnd : Nat) (scan : Scan) (top turn : Nat) : Nat :=
  (top + lastEnd - (partAt parts scan.area).stop) * parts.length + (parts.length - turn)

/-- The base moved down below an area. -/
theorem lowerScan_ok (setup : ScanSetup root l parts a lastEnd) (ok : ScanOk l parts a lastEnd scan top turn)
    {around : Around} {pre post : List VmapArea} (shape : l = pre ++ post) (prev : around.prev = pre.getLast?)
    (next : around.next = post.head?) {va : VmapArea} (isNext : around.next = some va) (below : va.vaStart < top) :
    ∃ top', ScanOk l parts a lastEnd (lowerScan root a (partAt parts scan.area) scan around) top' 0 ∧
      roundsLeft parts lastEnd (lowerScan root a (partAt parts scan.area) scan around) top' 0 <
        roundsLeft parts lastEnd scan top turn := by
  obtain ⟨splits, -, under⟩ := @pvmDetermineEnd_spec root a around pre post (setup.tree.trans shape)
    (shape ▸ setup.nonempty) (shape ▸ setup.sorted) prev next
  have lower := under va isNext
  have limit := ok.limit
  have areaLt := ok.area_lt
  refine ⟨(pvmDetermineEnd root around a).1,
    ⟨areaLt, by omega, (placeAt_zero areaLt).symm, rfl, ?_, shape ▸ splits, nofun⟩, ?_⟩
  · change (pvmDetermineEnd root around a).1 + lastEnd ≤
      alignDown vmallocEnd a + (partAt parts scan.area).stop
    omega
  · have stop := setup.stops _ (partAt_mem areaLt)
    have early := ok.early
    change ((pvmDetermineEnd root around a).1 + lastEnd - (partAt parts scan.area).stop) * parts.length +
      (parts.length - 0) < (top + lastEnd - (partAt parts scan.area).stop) * parts.length + (parts.length - turn)
    obtain ⟨height, lowered⟩ : ∃ height, top + lastEnd - (partAt parts scan.area).stop = height + 1 :=
      ⟨top + lastEnd - (partAt parts scan.area).stop - 1, by omega⟩
    have less : (pvmDetermineEnd root around a).1 + lastEnd - (partAt parts scan.area).stop ≤ height := by omega
    have turns := Nat.mul_le_mul_right parts.length less
    rw [lowered, Nat.add_mul]
    omega

/-- A part whose end lies between its neighbours and whose start is above the lower one fits. -/
theorem fits_of_neighbours (nonempty : ∀ va ∈ l, va.vaStart < va.vaEnd) (sorted : l.Pairwise Before) {around : Around}
    {start : Nat} (splits : Splits l top around) (next : ∀ va, around.next = some va → top ≤ va.vaStart)
    (prev : ∀ va, around.prev = some va → va.vaEnd ≤ start) : ∀ va ∈ l, Apart va ⟨start, top⟩ := by
  obtain ⟨pre, post, shape, isPrev, isNext, -, -⟩ := splits
  intro va mem
  rw [shape] at mem
  rcases List.mem_append.mp mem with low | high
  · left
    rcases List.eq_nil_or_concat pre with rfl | ⟨front, last, rfl⟩
    · exact absurd low List.not_mem_nil
    · rw [List.concat_eq_append] at low isPrev shape
      have bound := prev last (by rw [isPrev]; simp)
      have shape' : l = front ++ last :: post := by rw [shape]; simp
      rcases List.mem_append.mp low with earlier | same
      · have before := before_of_pre sorted shape' earlier
        have proper := nonempty last (by rw [shape']; simp)
        unfold Before at *
        simp only
        omega
      · rw [List.mem_singleton.mp same]
        exact bound
  · right
    cases post with
    | nil => exact absurd high List.not_mem_nil
    | cons first rest =>
        have bound := next first (by rw [isNext]; rfl)
        rcases List.mem_cons.mp high with rfl | later
        · exact bound
        · have before := before_of_post sorted shape later
          have proper := nonempty first (by rw [shape]; simp)
          unfold Before at *
          simp only
          omega

/-- What a round does when no area overlaps the part: the next part of the turn, or the end. -/
theorem advance_ok (setup : ScanSetup root l parts a lastEnd) (ok : ScanOk l parts a lastEnd scan top turn)
    (natural : scan.base + (partAt parts scan.area).stop = top) (fits : FitsAt l scan.base (partAt parts scan.area)) :
    ((scan.area + parts.length - 1) % parts.length = scan.termArea → ∀ p ∈ parts, FitsAt l scan.base p) ∧
      ((scan.area + parts.length - 1) % parts.length ≠ scan.termArea → ∃ top', ScanOk l parts a lastEnd
        { scan with
          area := (scan.area + parts.length - 1) % parts.length
          around := (pvmFindNextPrev root (u64 (scan.base +
            (parts.getD ((scan.area + parts.length - 1) % parts.length) ⟨0, 0⟩).stop))).getD scan.around }
        top' (turn + 1) ∧
        top' = scan.base + (partAt parts ((scan.area + parts.length - 1) % parts.length)).stop) := by
  have pos : 0 < parts.length := lt_of_le_of_lt (Nat.zero_le _) ok.inRange
  have step : (scan.area + parts.length - 1) % parts.length = placeAt parts.length scan.termArea (turn + 1) := by
    rw [ok.place, placeAt_succ ok.early]
  have checked : ∀ j, j < turn + 1 → FitsAt l scan.base (partAt parts (placeAt parts.length scan.termArea j)) := by
    intro j below
    rcases Nat.lt_succ_iff_lt_or_eq.mp below with earlier | rfl
    · exact ok.checked j earlier
    · exact ok.place ▸ fits
  constructor
  · intro back
    have whole := turn_over ok.inRange ok.early (step.symm.trans back)
    intro p mem
    obtain ⟨i, place, rfl⟩ := List.getElem_of_mem mem
    obtain ⟨j, below, isPlace⟩ := placeAt_surjective ok.inRange place
    have fit := checked j (by omega)
    rwa [isPlace, partAt, List.getD_eq_getElem parts _ place] at fit
  · intro further
    have areaLt : (scan.area + parts.length - 1) % parts.length < parts.length := Nat.mod_lt _ pos
    have stop := setup.stops _ (partAt_mem areaLt)
    have limit := ok.limit
    have word := vmallocEnd_lt a
    have early : turn + 1 < parts.length := by
      have notOver : turn + 1 ≠ parts.length := fun whole =>
        further (by rw [step, whole, placeAt_length ok.inRange])
      have before := ok.early
      omega
    have sum : u64 (scan.base + (parts.getD ((scan.area + parts.length - 1) % parts.length) ⟨0, 0⟩).stop) =
        scan.base + (partAt parts ((scan.area + parts.length - 1) % parts.length)).stop :=
      u64_of_lt (by unfold partAt at stop; omega)
    refine ⟨scan.base + (partAt parts ((scan.area + parts.length - 1) % parts.length)).stop,
      ⟨ok.inRange, early, step, ?_, ?_, ?_, checked⟩, rfl⟩
    · have natural' : scan.base + (partAt parts ((scan.area + parts.length - 1) % parts.length)).stop < 2 ^ 64 := by
        omega
      exact ((u64Sub_of_le natural' (Nat.le_add_left _ _)).trans (Nat.add_sub_cancel _ _)).symm
    · change scan.base + (partAt parts ((scan.area + parts.length - 1) % parts.length)).stop + lastEnd ≤
        alignDown vmallocEnd a + (partAt parts ((scan.area + parts.length - 1) % parts.length)).stop
      omega
    · rw [sum]
      rcases @pvmFindNextPrev_spec l (scan.base + (partAt parts ((scan.area + parts.length - 1) % parts.length)).stop)
        root setup.tree setup.nonempty setup.sorted with ⟨-, empty⟩ | ⟨around, found, splits⟩
      · exact absurd empty setup.some_areas
      · change Splits l _ ((pvmFindNextPrev root _).getD scan.around)
        rw [found]
        exact splits

/-- A round goes on with less left to do, or ends the scan; its `BUG_ON`s are not met. -/
theorem scanRound_ok (setup : ScanSetup root l parts a lastEnd) (ok : ScanOk l parts a lastEnd scan top turn) :
    ∃ result, scanRound root parts a lastEnd scan = .ok result ∧
      ((∃ scan' top' turn', result = .next scan' ∧ ScanOk l parts a lastEnd scan' top' turn' ∧
          roundsLeft parts lastEnd scan' top' turn' < roundsLeft parts lastEnd scan top turn) ∨
        (result = .found scan.base ∧ alignUp vmallocStart a ≤ scan.base ∧
          scan.base + lastEnd ≤ alignDown vmallocEnd a ∧ ∀ p ∈ parts, FitsAt l scan.base p) ∨ result = .low) := by
  have word := vmallocEnd_lt a
  have topLe := ok.top_lt setup
  have limit := ok.limit
  have stop := setup.stops _ (partAt_mem ok.area_lt)
  have splits := ok.around
  obtain ⟨pre, post, shape, isPrev, isNext, below, above⟩ := ok.around
  simp only [scanRound]
  rw [show parts.getD scan.area ⟨0, 0⟩ = partAt parts scan.area from rfl, (ok.sums setup).1]
  have between : ¬(scan.around.next.any (fun next => next.vaEnd ≤ top) ∨ scan.around.prev.any fun prev => top < prev.vaEnd) := by
    rintro (high | low)
    · obtain ⟨va, isVa, ends⟩ := (Option.any_eq_true _ _).mp high
      rw [isNext] at isVa
      have reaches := above va (List.mem_of_head? isVa)
      simp only [decide_eq_true_eq] at ends
      omega
    · obtain ⟨va, isVa, ends⟩ := (Option.any_eq_true _ _).mp low
      rw [isPrev] at isVa
      have reaches := below va (List.mem_of_getLast? isVa)
      simp only [decide_eq_true_eq] at ends
      omega
  rw [if_neg between]
  split
  · exact ⟨_, rfl, .inr (.inr rfl)⟩
  · rename_i high
    have natural := ok.base_add setup high
    split
    · -- the area above overlaps
      rename_i overlap
      obtain ⟨va, isVa, under⟩ := (Option.any_eq_true _ _).mp overlap
      simp only [decide_eq_true_eq] at under
      obtain ⟨top', ok', less⟩ := lowerScan_ok setup ok shape isPrev isNext isVa under
      exact ⟨_, rfl, .inl ⟨_, top', 0, rfl, ok', less⟩⟩
    · rename_i clear
      split
      · -- the area below overlaps
        rename_i prev overlap
        obtain ⟨isVa, -⟩ := Option.filter_eq_some_iff.mp overlap
        rw [isPrev] at isVa
        obtain ⟨front, rfl⟩ := List.getLast?_eq_some_iff.mp isVa
        have shape' : l = front ++ prev :: post := by rw [shape]; simp
        obtain ⟨freshFront, freshPost⟩ := not_mem_parts setup.nonempty setup.sorted shape'
        have ends := below prev (by simp)
        have proper := setup.nonempty prev (by rw [shape']; simp)
        obtain ⟨top', ok', less⟩ := @lowerScan_ok root l parts a lastEnd top turn scan setup ok
          ⟨some prev, prevIn root.inorder prev⟩ front (prev :: post) shape'
          (by rw [setup.tree, shape']; exact prevIn_append freshFront freshPost) rfl prev rfl (by omega)
        exact ⟨_, rfl, .inl ⟨_, top', 0, rfl, ok', less⟩⟩
      · rename_i low
        have fits : FitsAt l scan.base (partAt parts scan.area) := by
          rw [FitsAt, natural]
          refine fits_of_neighbours setup.nonempty setup.sorted splits ?_ ?_
          · intro va isVa
            rw [isVa] at clear
            simpa using clear
          · intro va isVa
            rw [isVa] at low
            have under : u64 (scan.base + (partAt parts scan.area).offset) ≥ va.vaEnd := by
              simpa [Option.filter] using low
            rwa [u64_of_lt (by unfold Part.stop at natural; omega)] at under
        obtain ⟨finished, further⟩ := advance_ok setup ok natural fits
        split
        · rename_i back
          refine ⟨_, rfl, .inr (.inl ⟨rfl, ?_, by omega, finished back⟩)⟩
          have room := setup.room
          rw [(ok.sums setup).2, u64_of_lt (by omega)] at high
          omega
        · rename_i notBack
          obtain ⟨top', ok', isTop⟩ := further notBack
          refine ⟨_, rfl, .inl ⟨_, top', turn + 1, rfl, ok', ?_⟩⟩
          have early := ok.early
          unfold roundsLeft
          simp only
          rw [isTop, show scan.base + (partAt parts ((scan.area + parts.length - 1) % parts.length)).stop + lastEnd -
              (partAt parts ((scan.area + parts.length - 1) % parts.length)).stop =
            top + lastEnd - (partAt parts scan.area).stop by omega]
          omega

end Scan

end Miracle.Vmalloc
