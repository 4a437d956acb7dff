import Miracle.PageAlloc.Ops

/-! # Who owns a page

Every page frame has one owner: a free block, a per-cpu list, a live allocation, the code
that is moving it, or nobody because boot has not handed it over.  The invariant ties the
lists, counters and `struct page` fields to the owners.  Since a page has one owner,
blocks and lists cannot overlap.
-/

namespace Miracle.PageAlloc

open PowBlock

inductive Owner where
  | unmanaged
  | raw (z : ZoneType)
  | free (z : ZoneType) (order pfn : Nat)
  | pcp (id : PagesetId) (cpu : Nat) (z : ZoneType)
  | live (z : ZoneType) (pfn order : Nat)
  deriving DecidableEq, Repr

namespace Owner

def zone : Owner → Option ZoneType
  | unmanaged => none
  | raw z | free z _ _ | pcp _ _ z | live z _ _ => some z

/-- The block that the owner holds as one piece. -/
def block : Owner → Option (Nat × Nat)
  | free _ order pfn | live _ pfn order => some (pfn, order)
  | _ => none

def IsFree (o : Owner) : Prop := ∃ z order pfn, o = .free z order pfn
def IsPcp (o : Owner) : Prop := ∃ id cpu z, o = .pcp id cpu z
def IsLive (o : Owner) : Prop := ∃ z pfn order, o = .live z pfn order

end Owner

/-- A page that nobody uses. -/
structure Clean (z : ZoneType) (page : Page) : Prop where
  zone : page.zone = z
  refcount : page.refcount = 0
  flags : page.flags = PageFlags.none
  compoundHead : page.compoundHead = none

/-- What the `struct page` of frame `a` looks like under its owner. -/
def PageOk (env : Env) (a : Nat) (page : Page) : Owner → Prop
  | .unmanaged => page = Page.initSingle (env.zoneOf a)
  | .raw z | .pcp _ _ z => Clean z page
  | .free z order pfn =>
      page.zone = z ∧ page.refcount = 0 ∧ page.compoundHead = none ∧
        page.flags = { PageFlags.none with buddy := decide (a = pfn) } ∧ (a = pfn → page.priv = order)
  | .live z pfn order =>
      page.zone = z ∧ page.refcount = (if a = pfn then 1 else 0) ∧
        page.compoundHead = (if a = pfn then none else some pfn) ∧
        -- whoever holds the block may use the two flags
        page.flags = { PageFlags.none with
          head := decide (a = pfn ∧ order ≠ 0), slab := page.flags.slab, reserved := page.flags.reserved } ∧
        (a = pfn + 1 → page.compoundOrder = order)

/-- Blocks are aligned and belong to one owner as a whole. -/
def Blocked (owner : Nat → Owner) : Prop :=
  ∀ a pfn order, (owner a).block = some (pfn, order) →
    order < maxOrder ∧ Aligned pfn order ∧ InBlock pfn order a ∧
      ∀ b, InBlock pfn order b → owner b = owner a

structure FreeLists (zones : ZoneType → Zone) (owner : Nat → Owner) : Prop where
  mem_iff : ∀ z order pfn, pfn ∈ ((zones z).freeArea order).freeList ↔ owner pfn = .free z order pfn
  nodup : ∀ z order, ((zones z).freeArea order).freeList.Nodup
  nrFree : ∀ z order, ((zones z).freeArea order).nrFree = ((zones z).freeArea order).freeList.length

structure PcpLists (pagesets : PagesetId → Nat → Pcp) (owner : Nat → Owner) : Prop where
  mem_iff : ∀ id cpu pfn, pfn ∈ (pagesets id cpu).lists ↔ ∃ z, owner pfn = .pcp id cpu z
  nodup : ∀ id cpu, (pagesets id cpu).lists.Nodup
  count : ∀ id cpu, (pagesets id cpu).count = (pagesets id cpu).lists.length
  batch : ∀ id cpu, (pagesets id cpu).high = 6 * (pagesets id cpu).batch ∨
    ((pagesets id cpu).high = 0 ∧ (pagesets id cpu).batch = 1)
  boot : ∀ cpu, (pagesets .boot cpu).high = 0 ∧ (pagesets .boot cpu).batch = 1

structure LiveList (live : List (Nat × Nat)) (owner : Nat → Owner) : Prop where
  mem_iff : ∀ pfn order, (pfn, order) ∈ live ↔ ∃ z, owner pfn = .live z pfn order
  nodup : live.Nodup

/-- No two free buddies. -/
def Coalesced (owner : Nat → Owner) : Prop :=
  ∀ z order pfn, order + 1 < maxOrder → owner pfn = .free z order pfn →
    owner (buddy pfn order) ≠ .free z order (buddy pfn order)

structure Inv (env : Env) (st : State) (live : List (Nat × Nat)) (owner : Nat → Owner) : Prop where
  blocked : Blocked owner
  pages : ∀ a, PageOk env a (st.pages a) (owner a)
  freeLists : FreeLists st.zones owner
  pcpLists : PcpLists st.pagesets owner
  liveList : LiveList live owner
  coalesced : Coalesced owner
  valid : ∀ a, owner a ≠ .unmanaged → env.pfnValid a = true
  initialized : ∀ a z, (owner a).zone = some z → (st.zones z).initialized = true
  zones : ∀ z, (st.zones z).initialized = env.initialized z

/-! ## Giving a block to another owner -/

def assign (owner : Nat → Owner) (pfn order : Nat) (o : Owner) : Nat → Owner :=
  fun a => if InBlock pfn order a then o else owner a

section

variable {owner : Nat → Owner} {pfn order : Nat} {o : Owner}

theorem assign_inside {a : Nat} (h : InBlock pfn order a) : assign owner pfn order o a = o := if_pos h

theorem assign_outside {a : Nat} (h : ¬ InBlock pfn order a) :
    assign owner pfn order o a = owner a := if_neg h

theorem forall_assign {P : Nat → Owner → Prop} (inside : ∀ a, InBlock pfn order a → P a o)
    (outside : ∀ a, ¬ InBlock pfn order a → P a (owner a)) (a : Nat) :
    P a (assign owner pfn order o a) := by
  by_cases h : InBlock pfn order a
  · rw [assign_inside h]
    exact inside a h
  · rw [assign_outside h]
    exact outside a h

/-- Taking a block from the owner that held it. -/
theorem Blocked.release (h : Blocked owner) (held : (owner pfn).block = some (pfn, order))
    (loose : o.block = none) : Blocked (assign owner pfn order o) := by
  have all := (h pfn pfn order held).2.2.2
  intro a p k block
  by_cases inside : InBlock pfn order a
  · rw [assign_inside inside, loose] at block
    cases block
  · rw [assign_outside inside] at block ⊢
    obtain ⟨lt, aligned, self, same⟩ := h a p k block
    refine ⟨lt, aligned, self, fun b hb => ?_⟩
    have eq := same b hb
    have out : ¬ InBlock pfn order b := by
      -- otherwise both owners hold the same block
      intro hit
      rw [← eq, all b hit, held] at block
      cases block
      exact inside self
    rw [assign_outside out, eq]

/-- Giving a block of loose pages to an owner. -/
theorem Blocked.claim (h : Blocked owner) (loose : ∀ a, InBlock pfn order a → (owner a).block = none)
    (lt : order < maxOrder) (aligned : Aligned pfn order)
    (held : o.block = some (pfn, order) ∨ o.block = none) : Blocked (assign owner pfn order o) := by
  intro a p k block
  by_cases inside : InBlock pfn order a
  · rw [assign_inside inside] at block ⊢
    rcases held with held | held
    · rw [held] at block
      cases block
      exact ⟨lt, aligned, inside, fun b hb => assign_inside hb⟩
    · rw [held] at block
      cases block
  · rw [assign_outside inside] at block ⊢
    obtain ⟨lt', aligned', self, same⟩ := h a p k block
    refine ⟨lt', aligned', self, fun b hb => ?_⟩
    have eq := same b hb
    have out : ¬ InBlock pfn order b := by
      intro hit
      rw [← eq, loose b hit] at block
      cases block
    rw [assign_outside out, eq]

theorem FreeLists.frame {zones : ZoneType → Zone} (h : FreeLists zones owner)
    (before : ∀ a, InBlock pfn order a → ¬ (owner a).IsFree) (after : ¬ o.IsFree) :
    FreeLists zones (assign owner pfn order o) := by
  refine ⟨fun z k p => ?_, h.nodup, h.nrFree⟩
  rw [h.mem_iff]
  by_cases inside : InBlock pfn order p
  · rw [assign_inside inside]
    exact iff_of_false (fun eq => before p inside ⟨_, _, _, eq⟩) (fun eq => after ⟨_, _, _, eq⟩)
  · rw [assign_outside inside]

theorem PcpLists.frame {pagesets : PagesetId → Nat → Pcp} (h : PcpLists pagesets owner)
    (before : ∀ a, InBlock pfn order a → ¬ (owner a).IsPcp) (after : ¬ o.IsPcp) :
    PcpLists pagesets (assign owner pfn order o) := by
  refine ⟨fun id cpu p => ?_, h.nodup, h.count, h.batch, h.boot⟩
  rw [h.mem_iff]
  by_cases inside : InBlock pfn order p
  · rw [assign_inside inside]
    exact iff_of_false (fun ⟨z, eq⟩ => before p inside ⟨_, _, _, eq⟩)
      (fun ⟨z, eq⟩ => after ⟨_, _, _, eq⟩)
  · rw [assign_outside inside]

theorem LiveList.frame {live : List (Nat × Nat)} (h : LiveList live owner)
    (before : ∀ a, InBlock pfn order a → ¬ (owner a).IsLive) (after : ¬ o.IsLive) :
    LiveList live (assign owner pfn order o) := by
  refine ⟨fun p k => ?_, h.nodup⟩
  rw [h.mem_iff]
  by_cases inside : InBlock pfn order p
  · rw [assign_inside inside]
    exact iff_of_false (fun ⟨z, eq⟩ => before p inside ⟨_, _, _, eq⟩)
      (fun ⟨z, eq⟩ => after ⟨_, _, _, eq⟩)
  · rw [assign_outside inside]

theorem Coalesced.frame (h : Coalesced owner) (after : ¬ o.IsFree) :
    Coalesced (assign owner pfn order o) := by
  intro z k p lt mine theirs
  have outside {q : Nat} (eq : assign owner pfn order o q = .free z k q) : owner q = .free z k q := by
    by_cases inside : InBlock pfn order q
    · rw [assign_inside inside] at eq
      exact absurd ⟨_, _, _, eq⟩ after
    · rwa [assign_outside inside] at eq
  exact h z k p lt (outside mine) (outside theirs)

end

@[simp] theorem not_isFree_raw (z : ZoneType) : ¬ (Owner.raw z).IsFree := by rintro ⟨_, _, _, ⟨⟩⟩
@[simp] theorem not_isPcp_raw (z : ZoneType) : ¬ (Owner.raw z).IsPcp := by rintro ⟨_, _, _, ⟨⟩⟩
@[simp] theorem not_isLive_raw (z : ZoneType) : ¬ (Owner.raw z).IsLive := by rintro ⟨_, _, _, ⟨⟩⟩
@[simp] theorem not_isPcp_free (z : ZoneType) (k p : Nat) : ¬ (Owner.free z k p).IsPcp := by
  rintro ⟨_, _, _, ⟨⟩⟩
@[simp] theorem not_isLive_free (z : ZoneType) (k p : Nat) : ¬ (Owner.free z k p).IsLive := by
  rintro ⟨_, _, _, ⟨⟩⟩
@[simp] theorem not_isFree_live (z : ZoneType) (p k : Nat) : ¬ (Owner.live z p k).IsFree := by
  rintro ⟨_, _, _, ⟨⟩⟩
@[simp] theorem not_isPcp_live (z : ZoneType) (p k : Nat) : ¬ (Owner.live z p k).IsPcp := by
  rintro ⟨_, _, _, ⟨⟩⟩

/-- The pages outside a block keep their owner, those inside get a new one. -/
theorem pages_assign {env : Env} {pages pages' : Nat → Page} {owner : Nat → Owner} {pfn order : Nat}
    {o : Owner} (h : ∀ a, PageOk env a (pages a) (owner a))
    (outside : ∀ a, ¬ InBlock pfn order a → pages' a = pages a)
    (inside : ∀ a, InBlock pfn order a → PageOk env a (pages' a) o) (a : Nat) :
    PageOk env a (pages' a) (assign owner pfn order o a) :=
  @forall_assign owner pfn order o (fun a o => PageOk env a (pages' a) o) inside
    (fun a out => by rw [outside a out]; exact h a) a

/-! ## The buddy lists -/

@[simp] theorem modifyPage_pages (st : State) (pfn : Nat) (f : Page → Page) (a : Nat) :
    (st.modifyPage pfn f).pages a = if a = pfn then f (st.pages pfn) else st.pages a := by
  by_cases same : a = pfn
  · subst same
    simp [State.modifyPage]
  · simp [State.modifyPage, same]

@[simp] theorem modifyPage_zones (st : State) (pfn : Nat) (f : Page → Page) :
    (st.modifyPage pfn f).zones = st.zones := rfl

@[simp] theorem modifyArea_pages (st : State) (z : ZoneType) (k : Nat) (f : FreeArea → FreeArea) :
    (st.modifyArea z k f).pages = st.pages := rfl

theorem modifyArea_freeArea (st : State) (z : ZoneType) (k : Nat) (f : FreeArea → FreeArea)
    (z' : ZoneType) (k' : Nat) :
    ((st.modifyArea z k f).zones z').freeArea k' =
      if z' = z ∧ k' = k then f ((st.zones z).freeArea k) else (st.zones z').freeArea k' := by
  by_cases zone : z' = z
  · subst zone
    by_cases order : k' = k
    · subst order
      simp [State.modifyArea, State.modifyZone]
    · simp [State.modifyArea, State.modifyZone, order]
  · simp [State.modifyArea, State.modifyZone, zone]

theorem modifyArea_zones (st : State) (z : ZoneType) (k : Nat) (f : FreeArea → FreeArea)
    (z' : ZoneType) : ((st.modifyArea z k f).zones z').initialized = (st.zones z').initialized ∧
      ((st.modifyArea z k f).zones z').pageset = (st.zones z').pageset := by
  by_cases zone : z' = z
  · subst zone
    simp [State.modifyArea, State.modifyZone]
  · simp [State.modifyArea, State.modifyZone, zone]

section

variable {env : Env} {st : State} {live : List (Nat × Nat)} {owner : Nat → Owner} {z : ZoneType}
  {order pfn : Nat}

theorem valid_assign {o : Owner} (h : Inv env st live owner)
    (managed : ∀ a, InBlock pfn order a → owner a ≠ .unmanaged) (a : Nat) :
    assign owner pfn order o a ≠ .unmanaged → env.pfnValid a = true := by
  by_cases inside : InBlock pfn order a
  · exact fun _ => h.valid a (managed a inside)
  · rw [assign_outside inside]
    exact h.valid a

theorem zone_assign {o : Owner} (same : ∀ a, InBlock pfn order a → (owner a).zone = o.zone) (a : Nat) :
    (assign owner pfn order o a).zone = (owner a).zone := by
  by_cases inside : InBlock pfn order a
  · rw [assign_inside inside, same a inside]
  · rw [assign_outside inside]

/-- `list_del`, `nr_free--` and `rmv_page_order` of a free block. -/
theorem Inv.takeFree (h : Inv env st live owner) (held : owner pfn = .free z order pfn) :
    Inv env ((st.delFree z order pfn).rmvPageOrder pfn) live (assign owner pfn order (.raw z)) := by
  have block : (owner pfn).block = some (pfn, order) := by rw [held]; rfl
  have all : ∀ a, InBlock pfn order a → owner a = .free z order pfn :=
    fun a inside => ((h.blocked _ _ _ block).2.2.2 a inside).trans held
  have listed : pfn ∈ ((st.zones z).freeArea order).freeList := (h.freeLists.mem_iff _ _ _).mpr held
  have areas := modifyArea_freeArea st z order
    (fun area => { freeList := area.freeList.erase pfn, nrFree := area.nrFree - 1 })
  refine ⟨h.blocked.release block rfl, ?_, ⟨?_, ?_, ?_⟩, ?_, ?_, h.coalesced.frame (by simp), ?_, ?_,
    fun z' => ?_⟩
  · refine pages_assign h.pages (fun a out => ?_) (fun a inside => ?_)
    · have ne : a ≠ pfn := fun same => out (same ▸ inBlock_self _ _)
      simp [State.rmvPageOrder, ne, State.delFree]
    · obtain ⟨zone, ref, tail, flags, -⟩ : PageOk env a (st.pages a) (.free z order pfn) :=
        all a inside ▸ h.pages a
      by_cases same : a = pfn
      · subst same
        simp only [State.rmvPageOrder, State.delFree, modifyPage_pages, modifyArea_pages, if_true]
        exact ⟨zone, ref, by simp only [flags]; rfl, tail⟩
      · simp only [State.rmvPageOrder, State.delFree, modifyPage_pages, modifyArea_pages, if_neg same]
        exact ⟨zone, ref, by simp only [flags, same]; rfl, tail⟩
  · intro z' k p
    show p ∈ (((st.delFree z order pfn).zones z').freeArea k).freeList ↔ _
    rw [State.delFree, areas]
    by_cases here : z' = z ∧ k = order
    · obtain ⟨rfl, rfl⟩ := here
      rw [if_pos ⟨rfl, rfl⟩]
      simp only
      rw [(h.freeLists.nodup z' k).mem_erase_iff, h.freeLists.mem_iff]
      by_cases inside : InBlock pfn k p
      · rw [assign_inside inside, all p inside]
        refine iff_of_false ?_ (by simp)
        rintro ⟨ne, eq⟩
        cases eq
        exact ne rfl
      · rw [assign_outside inside]
        exact and_iff_right (fun same => inside (same ▸ inBlock_self _ _))
    · rw [if_neg here, h.freeLists.mem_iff]
      by_cases inside : InBlock pfn order p
      · rw [assign_inside inside, all p inside]
        refine iff_of_false (fun eq => ?_) (by simp)
        cases eq
        exact here ⟨rfl, rfl⟩
      · rw [assign_outside inside]
  · intro z' k
    show (((st.delFree z order pfn).zones z').freeArea k).freeList.Nodup
    rw [State.delFree, areas]
    split
    · exact (h.freeLists.nodup z order).erase pfn
    · exact h.freeLists.nodup z' k
  · intro z' k
    show (((st.delFree z order pfn).zones z').freeArea k).nrFree =
      (((st.delFree z order pfn).zones z').freeArea k).freeList.length
    rw [State.delFree, areas]
    split
    · have := List.length_pos_of_mem listed
      simp only [h.freeLists.nrFree, List.length_erase_of_mem listed]
      omega
    · exact h.freeLists.nrFree z' k
  · exact h.pcpLists.frame (fun a inside => by simp [all a inside]) (by simp)
  · exact h.liveList.frame (fun a inside => by simp [all a inside]) (by simp)
  · exact valid_assign h (fun a inside => by simp [all a inside])
  · intro a z' zone
    rw [zone_assign (fun a inside => by rw [all a inside]; rfl)] at zone
    rw [State.rmvPageOrder, modifyPage_zones, State.delFree, (modifyArea_zones ..).1]
    exact h.initialized a z' zone
  · rw [State.rmvPageOrder, modifyPage_zones, State.delFree, (modifyArea_zones ..).1]
    exact h.zones z'

/-- `set_page_order`, `list_add` or `list_add_tail` and `nr_free++` of a loose block. -/
theorem Inv.putFree (h : Inv env st live owner) (loose : ∀ a, InBlock pfn order a → owner a = .raw z)
    (lt : order < maxOrder) (aligned : Aligned pfn order)
    (alone : order + 1 < maxOrder → owner (buddy pfn order) ≠ .free z order (buddy pfn order))
    (tail : Bool) :
    Inv env ((st.setPageOrder pfn order).addFree z order pfn tail) live
      (assign owner pfn order (.free z order pfn)) := by
  have self := loose pfn (inBlock_self _ _)
  have absent : pfn ∉ ((st.zones z).freeArea order).freeList := by
    rw [h.freeLists.mem_iff, self]
    simp
  have areas := modifyArea_freeArea (st.setPageOrder pfn order) z order (fun area =>
    { freeList := if tail then area.freeList ++ [pfn] else pfn :: area.freeList
      nrFree := area.nrFree + 1 })
  refine ⟨h.blocked.claim (fun a inside => by rw [loose a inside]; rfl) lt aligned (.inl rfl), ?_,
    ⟨?_, ?_, ?_⟩, ?_, ?_, ?_, ?_, ?_, fun z' => (modifyArea_zones _ z order _ z').1.trans (h.zones z')⟩
  · refine pages_assign h.pages (fun a out => ?_) (fun a inside => ?_)
    · have ne : a ≠ pfn := fun same => out (same ▸ inBlock_self _ _)
      simp [State.setPageOrder, ne, State.addFree]
    · obtain ⟨zone, ref, flags, tail⟩ : Clean z (st.pages a) := (loose a inside ▸ h.pages a :)
      by_cases same : a = pfn
      · subst same
        simp only [State.setPageOrder, State.addFree, modifyPage_pages, modifyArea_pages, if_true]
        exact ⟨zone, ref, tail, by simp [flags], fun _ => rfl⟩
      · simp only [State.setPageOrder, State.addFree, modifyPage_pages, modifyArea_pages, if_neg same]
        exact ⟨zone, ref, tail, by simp only [flags, same]; rfl, fun eq => absurd eq same⟩
  · intro z' k p
    rw [State.addFree, areas]
    by_cases here : z' = z ∧ k = order
    · obtain ⟨rfl, rfl⟩ := here
      have mem : p ∈ (if tail then ((st.zones z').freeArea k).freeList ++ [pfn]
          else pfn :: ((st.zones z').freeArea k).freeList) ↔
          p = pfn ∨ p ∈ ((st.zones z').freeArea k).freeList := by
        split
        · simp [or_comm]
        · simp
      rw [if_pos ⟨rfl, rfl⟩]
      refine Iff.trans mem ?_
      rw [h.freeLists.mem_iff]
      by_cases inside : InBlock pfn k p
      · rw [assign_inside inside, loose p inside]
        simp [eq_comm]
      · rw [assign_outside inside]
        exact or_iff_right (fun same => inside (same ▸ inBlock_self _ _))
    · rw [if_neg here]
      refine (h.freeLists.mem_iff z' k p).trans ?_
      by_cases inside : InBlock pfn order p
      · rw [assign_inside inside, loose p inside]
        refine iff_of_false (by simp) (fun eq => ?_)
        cases eq
        exact here ⟨rfl, rfl⟩
      · rw [assign_outside inside]
  · intro z' k
    rw [State.addFree, areas]
    have nodup := h.freeLists.nodup z order
    split
    · split
      · exact List.Nodup.append nodup (List.nodup_singleton _) (List.disjoint_singleton.mpr absent)
      · exact List.nodup_cons.mpr ⟨absent, nodup⟩
    · exact h.freeLists.nodup z' k
  · intro z' k
    rw [State.addFree, areas]
    split
    · have count := h.freeLists.nrFree z order
      simp only [State.setPageOrder, modifyPage_zones, count]
      split <;> simp
    · exact h.freeLists.nrFree z' k
  · exact h.pcpLists.frame (fun a inside => by simp [loose a inside]) (by simp)
  · exact h.liveList.frame (fun a inside => by simp [loose a inside]) (by simp)
  · -- a new pair of buddies would contain the new block
    intro z' k p below mine theirs
    have new {q : Nat} (eq : assign owner pfn order (.free z order pfn) q = .free z' k q) :
        (z' = z ∧ k = order ∧ q = pfn) ∨ (¬ InBlock pfn order q ∧ owner q = .free z' k q) := by
      by_cases inside : InBlock pfn order q
      · rw [assign_inside inside] at eq
        cases eq
        exact .inl ⟨rfl, rfl, rfl⟩
      · rw [assign_outside inside] at eq
        exact .inr ⟨inside, eq⟩
    rcases new mine with ⟨rfl, rfl, rfl⟩ | ⟨-, mine'⟩
    · rcases new theirs with ⟨-, -, same⟩ | ⟨-, theirs⟩
      · exact buddy_ne _ _ same
      · exact alone below theirs
    · rcases new theirs with ⟨rfl, rfl, same⟩ | ⟨-, theirs⟩
      · rw [← same, buddy_buddy] at alone
        exact alone below mine'
      · exact h.coalesced z' k p below mine' theirs
  · exact valid_assign h (fun a inside => by simp [loose a inside])
  · intro a z' zone
    rw [zone_assign (fun a inside => by rw [loose a inside]; rfl)] at zone
    exact (modifyArea_zones _ z order _ z').1.trans (h.initialized a z' zone)

/-! ## The per-cpu lists -/

/-- Single pages of a zone that are on no buddy list and not allocated. -/
def Loose (z : ZoneType) (o : Owner) : Prop := o = .raw z ∨ ∃ id cpu, o = .pcp id cpu z

theorem Loose.clean {z : ZoneType} {o : Owner} (h : Loose z o) {a : Nat} {page : Page} :
    PageOk env a page o ↔ Clean z page := by
  rcases h with rfl | ⟨id, cpu, rfl⟩
  · rfl
  · rfl

theorem Loose.facts {z : ZoneType} {o : Owner} (h : Loose z o) :
    o.block = none ∧ ¬ o.IsFree ∧ ¬ o.IsLive ∧ o ≠ .unmanaged ∧ o.zone = some z := by
  rcases h with rfl | ⟨id, cpu, rfl⟩
  · exact ⟨rfl, by simp, by simp, by simp, rfl⟩
  · exact ⟨rfl, by rintro ⟨_, _, _, ⟨⟩⟩, by rintro ⟨_, _, _, ⟨⟩⟩, by simp, rfl⟩

/-- Loose pages change their owner. -/
theorem Inv.moveLoose {owner' : Nat → Owner} {pagesets : PagesetId → Nat → Pcp}
    (h : Inv env st live owner)
    (moved : ∀ a, owner' a = owner a ∨ (Loose z (owner a) ∧ Loose z (owner' a)))
    (lists : PcpLists pagesets owner') : Inv env { st with pagesets := pagesets } live owner' := by
  -- no free block and no allocation is touched
  have tight {a : Nat} {o : Owner} (not : ¬ Loose z o) : owner' a = o ↔ owner a = o := by
    rcases moved a with same | ⟨before, after⟩
    · rw [same]
    · exact iff_of_false (fun eq => not (eq ▸ after)) (fun eq => not (eq ▸ before))
  have notFree (z' : ZoneType) (k p : Nat) : ¬ Loose z (.free z' k p) :=
    fun loose => loose.facts.2.1 ⟨_, _, _, rfl⟩
  have notLive (z' : ZoneType) (p k : Nat) : ¬ Loose z (.live z' p k) :=
    fun loose => loose.facts.2.2.1 ⟨_, _, _, rfl⟩
  refine ⟨fun a p k block => ?_, fun a => ?_, ⟨fun z' k p => ?_, h.freeLists.nodup, h.freeLists.nrFree⟩,
    lists, ⟨fun p k => ?_, h.liveList.nodup⟩, fun z' k p lt mine theirs => ?_, fun a managed => ?_,
    fun a z' zone => ?_, h.zones⟩
  · have not : ¬ Loose z (owner' a) := by
      intro loose
      rw [loose.facts.1] at block
      cases block
    have same : owner a = owner' a := (tight not).mp rfl
    rw [← same] at block
    obtain ⟨lt, aligned, self, all⟩ := h.blocked a p k block
    exact ⟨lt, aligned, self, fun b hb => (tight not).mpr ((all b hb).trans same)⟩
  · rcases moved a with same | ⟨before, after⟩
    · rw [same]
      exact h.pages a
    · exact after.clean.mpr (before.clean.mp (h.pages a))
  · rw [h.freeLists.mem_iff, tight (notFree z' k p)]
  · rw [h.liveList.mem_iff]
    exact exists_congr (fun z' => (tight (notLive z' p k)).symm)
  · rw [tight (notFree _ _ _)] at mine theirs
    exact h.coalesced z' k p lt mine theirs
  · rcases moved a with same | ⟨before, -⟩
    · exact h.valid a (same ▸ managed)
    · exact h.valid a before.facts.2.2.2.1
  · rcases moved a with same | ⟨before, after⟩
    · exact h.initialized a z' (same ▸ zone)
    · rw [after.facts.2.2.2.2] at zone
      cases zone
      exact h.initialized a z before.facts.2.2.2.2

/-- The owners after the list of a cpu has become `lists`. -/
def relist (owner : Nat → Owner) (id : PagesetId) (cpu : Nat) (z : ZoneType) (lists : List Nat) :
    Nat → Owner :=
  fun a => if a ∈ lists then .pcp id cpu z
    else if owner a = .pcp id cpu z then .raw z else owner a

theorem modifyPcp_pagesets (st : State) (id : PagesetId) (cpu : Nat) (f : Pcp → Pcp) (id' : PagesetId)
    (cpu' : Nat) : (st.modifyPcp id cpu f).pagesets id' cpu' =
      if id' = id ∧ cpu' = cpu then f (st.pagesets id cpu) else st.pagesets id' cpu' := by
  by_cases set : id' = id
  · subst set
    by_cases same : cpu' = cpu
    · subst same
      simp [State.modifyPcp]
    · simp [State.modifyPcp, same]
  · simp [State.modifyPcp, set]

/-- A per-cpu list changes: pages leave it and loose pages of the zone enter it. -/
theorem Inv.setPcp {id : PagesetId} {cpu : Nat} {lists : List Nat} {f : Pcp → Pcp}
    (h : Inv env st live owner) (home : ∀ a ∈ (st.pagesets id cpu).lists, owner a = .pcp id cpu z)
    (new : ∀ a ∈ lists, a ∈ (st.pagesets id cpu).lists ∨ owner a = .raw z) (nodup : lists.Nodup)
    (set : f (st.pagesets id cpu) =
      { st.pagesets id cpu with lists := lists, count := lists.length }) :
    Inv env (st.modifyPcp id cpu f) live (relist owner id cpu z lists) := by
  have shown (id' : PagesetId) (cpu' : Nat) : (st.modifyPcp id cpu f).pagesets id' cpu' =
      if id' = id ∧ cpu' = cpu then
        { st.pagesets id cpu with lists := lists, count := lists.length }
      else st.pagesets id' cpu' := by rw [modifyPcp_pagesets, set]
  have sizes (id' : PagesetId) (cpu' : Nat) :
      ((st.modifyPcp id cpu f).pagesets id' cpu').high = (st.pagesets id' cpu').high ∧
        ((st.modifyPcp id cpu f).pagesets id' cpu').batch = (st.pagesets id' cpu').batch := by
    rw [shown]
    split
    · rename_i here
      obtain ⟨rfl, rfl⟩ := here
      exact ⟨rfl, rfl⟩
    · exact ⟨rfl, rfl⟩
  have moved (a : Nat) : relist owner id cpu z lists a = owner a ∨
      (Loose z (owner a) ∧ Loose z (relist owner id cpu z lists a)) := by
    unfold relist
    split
    · rename_i member
      refine .inr ⟨?_, .inr ⟨id, cpu, rfl⟩⟩
      rcases new a member with was | raw
      · exact .inr ⟨id, cpu, home a was⟩
      · exact .inl raw
    · split
      · rename_i was
        exact .inr ⟨.inr ⟨id, cpu, was⟩, .inl rfl⟩
      · exact .inl rfl
  have listed : PcpLists (st.modifyPcp id cpu f).pagesets (relist owner id cpu z lists) := by
    refine ⟨fun id' cpu' a => ?_, fun id' cpu' => ?_, fun id' cpu' => ?_, fun id' cpu' => ?_,
      fun cpu' => ?_⟩
    · rw [shown, relist]
      by_cases here : id' = id ∧ cpu' = cpu
      · obtain ⟨rfl, rfl⟩ := here
        rw [if_pos ⟨rfl, rfl⟩]
        simp only
        by_cases member : a ∈ lists
        · simp [member]
        · rw [if_neg member]
          refine iff_of_false member ?_
          rintro ⟨z', eq⟩
          split at eq
          · cases eq
          · rename_i not
            have was := (h.pcpLists.mem_iff id' cpu' a).mpr ⟨z', eq⟩
            exact not (home a was)
      · rw [if_neg here, h.pcpLists.mem_iff]
        have other {o : Owner} {z' : ZoneType} (eq : o = .pcp id' cpu' z') : o ≠ .pcp id cpu z := by
          rintro rfl
          cases eq
          exact here ⟨rfl, rfl⟩
        by_cases member : a ∈ lists
        · rw [if_pos member]
          refine iff_of_false ?_ (fun ⟨z', eq⟩ => other eq rfl)
          rintro ⟨z', eq⟩
          rcases new a member with was | raw
          · exact other eq (home a was)
          · rw [raw] at eq
            cases eq
        · rw [if_neg member]
          by_cases was : owner a = .pcp id cpu z
          · rw [if_pos was]
            exact iff_of_false (fun ⟨z', eq⟩ => other eq was) (fun ⟨z', eq⟩ => by cases eq)
          · rw [if_neg was]
    · rw [shown]
      split
      · exact nodup
      · exact h.pcpLists.nodup id' cpu'
    · rw [shown]
      split
      · rfl
      · exact h.pcpLists.count id' cpu'
    · rw [(sizes id' cpu').1, (sizes id' cpu').2]
      exact h.pcpLists.batch id' cpu'
    · rw [(sizes .boot cpu').1, (sizes .boot cpu').2]
      exact h.pcpLists.boot cpu'
  exact h.moveLoose moved listed

/-! ## Allocations and boot -/

/-- A block that is on no list changes its owner. -/
theorem Inv.reown {st' : State} {live' : List (Nat × Nat)} {o : Owner} (h : Inv env st live owner)
    (zones : st'.zones = st.zones) (pagesets : st'.pagesets = st.pagesets)
    (blocked : Blocked (assign owner pfn order o))
    (outside : ∀ a, ¬ InBlock pfn order a → st'.pages a = st.pages a)
    (inside : ∀ a, InBlock pfn order a → PageOk env a (st'.pages a) o)
    (before : ∀ a, InBlock pfn order a → ¬ (owner a).IsFree ∧ ¬ (owner a).IsPcp)
    (after : ¬ o.IsFree ∧ ¬ o.IsPcp) (live_ : LiveList live' (assign owner pfn order o))
    (valid : ∀ a, InBlock pfn order a → env.pfnValid a = true)
    (zone : ∀ z, o.zone = some z → (st.zones z).initialized = true) :
    Inv env st' live' (assign owner pfn order o) := by
  refine ⟨blocked, pages_assign h.pages outside inside, ?_, ?_, live_, h.coalesced.frame after.1,
    ?_, ?_, by rw [zones]; exact h.zones⟩
  · rw [zones]
    exact h.freeLists.frame (fun a hit => (before a hit).1) after.1
  · rw [pagesets]
    exact h.pcpLists.frame (fun a hit => (before a hit).2) after.2
  · intro a
    by_cases hit : InBlock pfn order a
    · exact fun _ => valid a hit
    · rw [assign_outside hit]
      exact h.valid a
  · intro a z'
    rw [zones]
    by_cases hit : InBlock pfn order a
    · rw [assign_inside hit]
      exact zone z'
    · rw [assign_outside hit]
      exact h.initialized a z'

/-- A block of loose pages is allocated. -/
theorem Inv.allocate {st' : State} (h : Inv env st live owner)
    (loose : ∀ a, InBlock pfn order a → owner a = .raw z) (lt : order < maxOrder)
    (aligned : Aligned pfn order) (zones : st'.zones = st.zones) (pagesets : st'.pagesets = st.pagesets)
    (outside : ∀ a, ¬ InBlock pfn order a → st'.pages a = st.pages a)
    (inside : ∀ a, InBlock pfn order a → PageOk env a (st'.pages a) (.live z pfn order)) :
    Inv env st' ((pfn, order) :: live) (assign owner pfn order (.live z pfn order)) := by
  have self := loose pfn (inBlock_self _ _)
  refine h.reown zones pagesets
    (h.blocked.claim (fun a hit => by rw [loose a hit]; rfl) lt aligned (.inl rfl)) outside inside
    (fun a hit => by simp [loose a hit]) ⟨by simp, by simp⟩ ⟨fun p k => ?_, ?_⟩
    (fun a hit => h.valid a (by simp [loose a hit])) (fun z' eq => h.initialized pfn z' (self ▸ eq))
  · rw [List.mem_cons, h.liveList.mem_iff]
    by_cases hit : InBlock pfn order p
    · rw [assign_inside hit, loose p hit]
      simp [eq_comm]
    · rw [assign_outside hit]
      refine or_iff_right (fun same => hit ?_)
      cases same
      exact inBlock_self _ _
  · refine List.nodup_cons.mpr ⟨fun member => ?_, h.liveList.nodup⟩
    obtain ⟨z', eq⟩ := (h.liveList.mem_iff _ _).mp member
    rw [self] at eq
    cases eq

/-- A live block is given back. -/
theorem Inv.giveBack {st' : State} (h : Inv env st live owner) (held : owner pfn = .live z pfn order)
    (zones : st'.zones = st.zones) (pagesets : st'.pagesets = st.pagesets)
    (outside : ∀ a, ¬ InBlock pfn order a → st'.pages a = st.pages a)
    (inside : ∀ a, InBlock pfn order a → Clean z (st'.pages a)) :
    Inv env st' (live.erase (pfn, order)) (assign owner pfn order (.raw z)) := by
  have block : (owner pfn).block = some (pfn, order) := by rw [held]; rfl
  have all : ∀ a, InBlock pfn order a → owner a = .live z pfn order :=
    fun a hit => ((h.blocked _ _ _ block).2.2.2 a hit).trans held
  refine h.reown zones pagesets (h.blocked.release block rfl) outside inside
    (fun a hit => by simp [all a hit]) ⟨by simp, by simp⟩ ⟨fun p k => ?_, h.liveList.nodup.erase _⟩
    (fun a hit => h.valid a (by simp [all a hit])) (fun z' eq => h.initialized pfn z' (held ▸ eq))
  rw [h.liveList.nodup.mem_erase_iff, h.liveList.mem_iff]
  by_cases hit : InBlock pfn order p
  · rw [assign_inside hit, all p hit]
    refine iff_of_false ?_ (by simp)
    rintro ⟨ne, z', eq⟩
    cases eq
    exact ne rfl
  · rw [assign_outside hit]
    refine and_iff_right (fun same => hit ?_)
    cases same
    exact inBlock_self _ _

/-- Boot hands over a block of frames that nobody owns. -/
theorem Inv.handOver {st' : State} (h : Inv env st live owner)
    (fresh : ∀ a, InBlock pfn order a → owner a = .unmanaged)
    (zones : st'.zones = st.zones) (pagesets : st'.pagesets = st.pagesets)
    (outside : ∀ a, ¬ InBlock pfn order a → st'.pages a = st.pages a)
    (inside : ∀ a, InBlock pfn order a → Clean z (st'.pages a)) (lt : order < maxOrder)
    (aligned : Aligned pfn order) (valid : ∀ a, InBlock pfn order a → env.pfnValid a = true)
    (zone : (st.zones z).initialized = true) :
    Inv env st' live (assign owner pfn order (.raw z)) := by
  refine h.reown zones pagesets
    (h.blocked.claim (fun a hit => by rw [fresh a hit]; rfl) lt aligned (.inr rfl)) outside inside
    (fun a hit => ?_) ⟨by simp, by simp⟩ (h.liveList.frame (fun a hit => ?_) (by simp)) valid
    (fun z' eq => by cases eq; exact zone)
  · rw [fresh a hit]
    exact ⟨by rintro ⟨_, _, _, ⟨⟩⟩, by rintro ⟨_, _, _, ⟨⟩⟩⟩
  · rw [fresh a hit]
    rintro ⟨_, _, _, ⟨⟩⟩

/-- Counters of a zone other than those of its free areas take no part. -/
theorem Inv.congrZones {zones : ZoneType → Zone} (h : Inv env st live owner)
    (areas : ∀ z, (zones z).freeArea = (st.zones z).freeArea)
    (initialized : ∀ z, (zones z).initialized = (st.zones z).initialized) :
    Inv env { st with zones := zones } live owner := by
  refine ⟨h.blocked, h.pages, ⟨fun z' k p => ?_, fun z' k => ?_, fun z' k => ?_⟩, h.pcpLists, h.liveList,
    h.coalesced, h.valid, fun a z' eq => (initialized z').trans (h.initialized a z' eq),
    fun z' => (initialized z').trans (h.zones z')⟩
  · rw [areas]
    exact h.freeLists.mem_iff z' k p
  · rw [areas]
    exact h.freeLists.nodup z' k
  · rw [areas]
    exact h.freeLists.nrFree z' k

end

end Miracle.PageAlloc
