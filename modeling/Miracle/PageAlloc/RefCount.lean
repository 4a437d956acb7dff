import Miracle.PageAlloc.Conservation

/-! # References to allocated blocks

`get_page` and `put_page` count the references to a block in its head page.  `put_page`
drops a reference and, at zero, calls `__free_pages`, which drops another one first.
The count is an `int`, here its 32 bits.
-/

namespace Miracle.PageAlloc

open PowBlock

/-- `compound_head`. -/
def State.headOf (st : State) (page : Nat) : Nat := (st.pages page).compoundHead.getD page

/-- `page_ref_count(page) <= 0`. -/
def Page.noReference (p : Page) : Bool := p.refcount == 0 || decide (2 ^ 31 ≤ p.refcount)

def getPage (st : State) (page : Nat) : Except Bug State :=
  let page := st.headOf page
  if (st.pages page).noReference then .error .refcountZero
  else .ok (st.modifyPage page (fun p => { p with refcount := (p.refcount + 1) % 2 ^ 32 }))

/-- `put_page_testzero`. -/
def putPageTestzero (st : State) (page : Nat) : Except Bug (State × Bool) :=
  if (st.pages page).refcount = 0 then .error .refcountZero
  else
    let st := st.modifyPage page (fun p => { p with refcount := p.refcount - 1 })
    .ok (st, (st.pages page).refcount == 0)

/-- `free_the_page`. -/
def freeThePage (env : Env) (st : State) (cpu page order : Nat) : Except Bug State :=
  if order = 0 then freeUnrefPage env st cpu page else freePagesOk env st page order

def putPage (env : Env) (st : State) (cpu page : Nat) : Except Bug State := do
  let page := st.headOf page
  let (st, zero) ← putPageTestzero st page
  if zero then freePages env st cpu page (st.compoundOrder page) else return st

/-- `page_frag_free` on the page of the address. -/
def pageFragFree (env : Env) (st : State) (cpu page : Nat) : Except Bug State := do
  let page := st.headOf page
  let (st, zero) ← putPageTestzero st page
  if zero then freeThePage env st cpu page (st.compoundOrder page) else return st

inductive RefOp where
  | get (cpu page : Nat)
  | put (cpu page : Nat)
  deriving DecidableEq, Repr

namespace RefOp

def page : RefOp → Nat
  | get _ page | put _ page => page

def cpu : RefOp → Nat
  | get cpu _ | put cpu _ => cpu

def change : RefOp → Int
  | get _ _ => 1
  | put _ _ => -1

end RefOp

def refStep (env : Env) (st : State) : RefOp → Except Bug State
  | .get _ page => getPage st page
  | .put cpu page => putPage env st cpu page

def refRun (env : Env) (st : State) (ops : List RefOp) : Except Bug State := ops.foldlM (refStep env) st

/-- The initial reference and the gets, less the puts. -/
def references (ops : List RefOp) : Int := 1 + (ops.map RefOp.change).sum

def State.withRefs (st : State) (page refs : Nat) : State :=
  st.modifyPage page (fun p => { p with refcount := refs })

/-- No call stops.  The call that drops the last reference gives the block back as
    `free_the_page` does, and the others leave the lists of the allocator alone. -/
def ReleasedOnce (env : Env) (st : State) (pfn order : Nat) (ops : List RefOp) : Prop :=
  ∀ pre op, pre ++ [op] <+: ops → ∃ before after,
    refRun env st pre = .ok before ∧ refRun env st (pre ++ [op]) = .ok after ∧
    (references (pre ++ [op]) = 0 → freeThePage env (before.withRefs pfn 0) op.cpu pfn order = .ok after) ∧
    (references (pre ++ [op]) ≠ 0 → after.zones = before.zones ∧ after.pagesets = before.pagesets)

theorem references_append (pre : List RefOp) (op : RefOp) :
    references (pre ++ [op]) = references pre + op.change := by
  simp [references, add_assoc]

theorem refRun_append (env : Env) (st : State) (pre : List RefOp) (op : RefOp) :
    refRun env st (pre ++ [op]) = (refRun env st pre).bind (refStep env · op) := by
  simp only [refRun, List.foldlM_append, List.foldlM_cons, List.foldlM_nil]
  cases List.foldlM (refStep env) st pre with
  | error bug => rfl
  | ok st' =>
      simp only [ok_bind, Except.bind]
      cases refStep env st' op <;> rfl

section

variable {env : Env} {sys : System} {pfn order : Nat}

/-- Every page of a live block leads to its head. -/
theorem SysInv.headOf {owner : Nat → Owner} (h : SysInv env sys owner) (live : (pfn, order) ∈ sys.live)
    {a : Nat} (inside : InBlock pfn order a) : sys.st.headOf a = pfn := by
  obtain ⟨z, held⟩ := h.liveBlock live inside
  obtain ⟨-, -, tail, -⟩ : PageOk env a (sys.st.pages a) (.live z pfn order) := held ▸ h.inv.pages a
  rw [State.headOf, tail]
  by_cases same : a = pfn
  · rw [if_pos same, same]
    rfl
  · rw [if_neg same]
    rfl

theorem SysInv.compoundOrder {owner : Nat → Owner} (h : SysInv env sys owner) (live : (pfn, order) ∈ sys.live) :
    sys.st.compoundOrder pfn = order := by
  obtain ⟨z, held⟩ := h.liveBlock live (inBlock_self pfn order)
  obtain ⟨-, -, -, flags, -⟩ : PageOk env pfn (sys.st.pages pfn) (.live z pfn order) := held ▸ h.inv.pages pfn
  have head : (sys.st.pages pfn).flags.head = decide (order ≠ 0) := by
    simpa using congrArg PageFlags.head flags
  rw [State.compoundOrder, head]
  by_cases zero : order = 0
  · simp [zero]
  · have next : InBlock pfn order (pfn + 1) := by
      have := Nat.one_lt_two_pow zero
      exact ⟨by omega, by omega⟩
    obtain ⟨z', tail⟩ := h.liveBlock live next
    obtain ⟨-, -, -, -, same⟩ : PageOk env (pfn + 1) (sys.st.pages (pfn + 1)) (.live z' pfn order) :=
      tail ▸ h.inv.pages (pfn + 1)
    simp only [ne_eq, zero, not_false_eq_true, decide_true, if_true]
    exact same rfl

theorem withRefs_page (st : State) (n a : Nat) :
    (st.withRefs pfn n).pages a = { st.pages a with refcount := if a = pfn then n else (st.pages a).refcount } := by
  rw [State.withRefs, modifyPage_pages]
  by_cases same : a = pfn
  · rw [if_pos same, if_pos same, same]
  · rw [if_neg same, if_neg same]

@[simp] theorem withRefs_headOf (st : State) (n a : Nat) : (st.withRefs pfn n).headOf a = st.headOf a := by
  rw [State.headOf, withRefs_page]
  rfl

@[simp] theorem withRefs_compoundOrder (st : State) (n page : Nat) :
    (st.withRefs pfn n).compoundOrder page = st.compoundOrder page := by
  rw [State.compoundOrder, withRefs_page, withRefs_page]
  rfl

theorem withRefs_refcount (st : State) (n : Nat) : ((st.withRefs pfn n).pages pfn).refcount = n := by
  rw [State.withRefs, modifyPage_pages, if_pos rfl]

theorem modify_withRefs (st : State) (n : Nat) (f : Nat → Nat) :
    (st.withRefs pfn n).modifyPage pfn (fun p => { p with refcount := f p.refcount }) =
      st.withRefs pfn (f n) := by
  simp [State.withRefs, State.modifyPage]

/-- A get on a block with `n` references. -/
theorem getPage_live {owner : Nat → Owner} (h : SysInv env sys owner) (live : (pfn, order) ∈ sys.live)
    {a n : Nat} (inside : InBlock pfn order a) (pos : 0 < n) :
    getPage (sys.st.withRefs pfn n) a =
      if n < 2 ^ 31 then .ok (sys.st.withRefs pfn (n + 1)) else .error .refcountZero := by
  rw [getPage, withRefs_headOf, h.headOf live inside, Page.noReference, withRefs_refcount,
    modify_withRefs sys.st n (fun c => (c + 1) % 2 ^ 32)]
  by_cases small : n < 2 ^ 31
  · have fits : (n + 1) % 2 ^ 32 = n + 1 := Nat.mod_eq_of_lt (by omega)
    have some : (n == 0 || decide (2 ^ 31 ≤ n)) = false := by simp; omega
    rw [if_pos small, some, fits]
    rfl
  · have none : (n == 0 || decide (2 ^ 31 ≤ n)) = true := by simp; omega
    rw [if_neg small, none]
    rfl

/-- The put of the last reference runs into the check of `__free_pages`. -/
theorem putPage_live {owner : Nat → Owner} (h : SysInv env sys owner) (live : (pfn, order) ∈ sys.live)
    {a n : Nat} (inside : InBlock pfn order a) (pos : 0 < n) (cpu : Nat) :
    putPage env (sys.st.withRefs pfn n) cpu a =
      if 1 < n then .ok (sys.st.withRefs pfn (n - 1)) else .error .refcountZero := by
  rw [putPage, withRefs_headOf, h.headOf live inside, putPageTestzero, withRefs_refcount, if_neg pos.ne',
    modify_withRefs sys.st n (fun c => c - 1), ok_bind, withRefs_refcount]
  by_cases more : 1 < n
  · have rest : (n - 1 == 0) = false := by simp; omega
    rw [if_pos more, rest]
    rfl
  · have last : (n - 1 == 0) = true := by simp; omega
    have zero : n - 1 = 0 := by omega
    simp only [last, if_neg more, if_true]
    rw [freePages, withRefs_refcount, if_pos zero]

/-- `page_frag_free` tests the count once and frees the block with its order. -/
theorem pageFragFree_live {owner : Nat → Owner} (h : SysInv env sys owner) (live : (pfn, order) ∈ sys.live)
    {a n : Nat} (inside : InBlock pfn order a) (pos : 0 < n) (cpu : Nat) :
    pageFragFree env (sys.st.withRefs pfn n) cpu a =
      if 1 < n then .ok (sys.st.withRefs pfn (n - 1))
      else freeThePage env (sys.st.withRefs pfn 0) cpu pfn order := by
  rw [pageFragFree, withRefs_headOf, h.headOf live inside, putPageTestzero, withRefs_refcount, if_neg pos.ne',
    modify_withRefs sys.st n (fun c => c - 1), ok_bind, withRefs_refcount]
  simp only [withRefs_compoundOrder, h.compoundOrder live]
  by_cases more : 1 < n
  · have rest : (n - 1 == 0) = false := by simp; omega
    rw [if_pos more, rest]
    rfl
  · have last : (n - 1 == 0) = true := by simp; omega
    have zero : n - 1 = 0 := by omega
    rw [if_neg more, last, zero, if_pos rfl]

/-- What keeps the references of a block between one and the limit of the check in `get_page`. -/
structure Referenced (ops : List RefOp) : Prop where
  kept : ∀ pre, pre <+: ops → 0 < references pre
  bounded : ∀ pre cpu page, pre ++ [.get cpu page] <+: ops → references pre < 2 ^ 31

theorem Referenced.initial {ops pre : List RefOp} (h : Referenced ops) (le : pre <+: ops) : Referenced pre :=
  ⟨fun p sub => h.kept p (sub.trans le), fun p cpu page sub => h.bounded p cpu page (sub.trans le)⟩

theorem refRun_referenced {owner : Nat → Owner} (h : SysInv env sys owner) (live : (pfn, order) ∈ sys.live)
    {ops : List RefOp} (inside : ∀ op ∈ ops, InBlock pfn order op.page) (ok : Referenced ops) :
    refRun env sys.st ops = .ok (sys.st.withRefs pfn (references ops).toNat) := by
  induction ops using List.reverseRecOn with
  | nil =>
      obtain ⟨z, held⟩ := h.liveBlock live (inBlock_self pfn order)
      obtain ⟨-, refs, -⟩ : PageOk env pfn (sys.st.pages pfn) (.live z pfn order) := held ▸ h.inv.pages pfn
      rw [if_pos rfl] at refs
      have same : sys.st.withRefs pfn 1 = sys.st := by
        simp [State.withRefs, State.modifyPage, ← refs]
      exact congrArg Except.ok same.symm
  | append_singleton pre op ih =>
      have sub : pre <+: pre ++ [op] := List.prefix_append _ _
      have pos := ok.kept pre sub
      have next := ok.kept _ (List.prefix_refl (pre ++ [op]))
      have here : InBlock pfn order op.page := inside op (by simp)
      rw [refRun_append, ih (fun o mem => inside o (by simp [mem])) (ok.initial sub), references_append]
      rw [references_append] at next
      simp only [Except.bind]
      cases op with
      | get cpu page =>
          have small := ok.bounded pre cpu page (List.prefix_refl _)
          simp only [RefOp.change, refStep, RefOp.page] at here ⊢
          rw [getPage_live h live here (by omega), if_pos (by omega)]
          congr 2
          omega
      | put cpu page =>
          simp only [RefOp.change, refStep, RefOp.page] at next here ⊢
          rw [putPage_live h live here (by omega), if_pos (by omega)]
          congr 2
          omega

/-- The block comes back as it should exactly as long as no put drops the last reference
    and no get is made beyond the range of the count. -/
theorem releasedOnce_iff_referenced (reach : Reachable env sys) (live : (pfn, order) ∈ sys.live)
    {ops : List RefOp} (inside : ∀ op ∈ ops, InBlock pfn order op.page) :
    ReleasedOnce env sys.st pfn order ops ↔
      (∀ pre, pre <+: ops → 0 < references pre) ∧
        ∀ pre cpu page, pre ++ [.get cpu page] <+: ops → references pre < 2 ^ 31 := by
  obtain ⟨owner, h⟩ := reach.inv
  have part {pre : List RefOp} (sub : pre <+: ops) : ∀ op ∈ pre, InBlock pfn order op.page :=
    fun op mem => inside op (sub.subset mem)
  constructor
  · intro released
    suffices ok : Referenced ops from ⟨ok.kept, ok.bounded⟩
    -- along the sequence, a step that breaks the condition stops
    suffices all : ∀ pre, pre <+: ops → Referenced pre from all ops (List.prefix_refl ops)
    intro pre sub
    induction pre using List.reverseRecOn with
    | nil =>
        refine ⟨fun p empty => ?_, fun p cpu page empty => ?_⟩
        · rw [List.prefix_nil.mp empty]
          decide
        · exact absurd (List.prefix_nil.mp empty) (by simp)
    | append_singleton pre op ih =>
        have before : pre <+: ops := (List.prefix_append _ _).trans sub
        have ok := ih before
        have pos := ok.kept pre (List.prefix_refl pre)
        have here := part sub op (by simp)
        obtain ⟨_, after, -, run, -⟩ := released pre op sub
        rw [refRun_append, refRun_referenced h live (part before) ok] at run
        simp only [Except.bind] at run
        have bound : (∀ cpu page, op = .get cpu page → references pre < 2 ^ 31) ∧
            0 < references (pre ++ [op]) := by
          rw [references_append]
          cases op with
          | get cpu page =>
              simp only [refStep, RefOp.page] at run here
              rw [getPage_live h live here (by omega)] at run
              split at run
              · simp only [RefOp.change]
                exact ⟨fun _ _ _ => by omega, by omega⟩
              · cases run
          | put cpu page =>
              simp only [refStep, RefOp.page] at run here
              rw [putPage_live h live here (by omega)] at run
              split at run
              · simp only [RefOp.change]
                exact ⟨fun _ _ other => (by cases other), by omega⟩
              · cases run
        refine ⟨fun p le => ?_, fun p cpu page le => ?_⟩
        · rcases List.prefix_concat_iff.mp le with rfl | le
          · exact bound.2
          · exact ok.kept p le
        · rcases List.prefix_concat_iff.mp le with eq | le
          · obtain ⟨rfl, last⟩ := List.append_inj' eq rfl
            exact bound.1 cpu page (List.cons.inj last).1.symm
          · exact ok.bounded p cpu page le
  · rintro ⟨kept, bounded⟩ pre op sub
    have ok : Referenced ops := ⟨kept, bounded⟩
    have before : pre <+: ops := (List.prefix_append _ _).trans sub
    refine ⟨_, _, refRun_referenced h live (part before) (ok.initial before),
      refRun_referenced h live (part sub) (ok.initial sub), fun zero => ?_, fun _ => ⟨rfl, rfl⟩⟩
    exact absurd zero (kept _ sub).ne'

end

/-- A prefix of a list of two. -/
theorem prefix_pair {α : Type} {a b : α} {pre : List α} (h : pre <+: [a, b]) :
    pre = [] ∨ pre = [a] ∨ pre = [a, b] := by
  obtain ⟨rest, eq⟩ := h
  match pre, eq with
  | [], _ => exact .inl rfl
  | [_], eq => exact .inr (.inl (by rw [(List.cons.inj eq).1]))
  | [_, _], eq =>
      simp only [List.cons_append, List.nil_append, List.cons.injEq] at eq
      exact .inr (.inr (by rw [eq.1, eq.2.1]))
  | _ :: _ :: _ :: _, eq => simp at eq

/-- A reference to the tail of a block of two pages is taken and dropped. -/
theorem flatRun_references : ∃ sys, flatRun = .ok sys ∧ (8, 1) ∈ sys.live ∧
    ReleasedOnce flatEnv sys.st 8 1 [.get 0 9, .put 0 8] := by
  obtain ⟨sys, done, live, -⟩ := flatRun_returns
  have allocated : (8, 1) ∈ sys.live := by rw [live]; decide
  have kept (pre : List RefOp) (le : pre <+: [.get 0 9, .put 0 8]) : 0 < references pre := by
    rcases prefix_pair le with rfl | rfl | rfl <;> decide
  refine ⟨sys, done, allocated, (releasedOnce_iff_referenced (flatRun_reachable done) allocated
    (by decide)).mpr ⟨kept, fun pre cpu page le => ?_⟩⟩
  rcases prefix_pair ((List.prefix_append _ _).trans le) with rfl | rfl | rfl <;> decide

/-- A caller that drops its only reference does not get past the second check. -/
theorem flatRun_last_put : ∃ sys, flatRun = .ok sys ∧ (8, 1) ∈ sys.live ∧
    putPage flatEnv sys.st 0 8 = .error .refcountZero ∧ (∀ pre, pre <+: [.put 0 8] → 0 ≤ references pre) ∧
      ¬ ReleasedOnce flatEnv sys.st 8 1 [.put 0 8] := by
  obtain ⟨sys, done, live, -⟩ := flatRun_returns
  have allocated : (8, 1) ∈ sys.live := by rw [live]; decide
  obtain ⟨owner, h⟩ := (flatRun_reachable done).inv
  have single : Referenced [] := ⟨fun p e => by rw [List.prefix_nil.mp e]; decide,
    fun p _ _ e => absurd (List.prefix_nil.mp e) (by simp)⟩
  have start : sys.st = sys.st.withRefs 8 1 :=
    Except.ok.inj (refRun_referenced h allocated (by simp) single)
  have stops : putPage flatEnv sys.st 0 8 = .error .refcountZero := by
    rw [start, putPage_live h allocated (inBlock_self 8 1) (by decide) 0]
    rfl
  refine ⟨sys, done, allocated, stops, fun pre le => ?_, fun released => ?_⟩
  · rcases prefix_pair (le.trans (List.prefix_append _ [.put 0 8])) with rfl | rfl | rfl
    · decide
    · decide
    · exact absurd le.length_le (by decide)
  · obtain ⟨_, after, -, run, -⟩ := released [] (.put 0 8) (List.prefix_refl _)
    rw [refRun_append] at run
    have : putPage flatEnv sys.st 0 8 = .ok after := run
    rw [stops] at this
    cases this

end Miracle.PageAlloc
