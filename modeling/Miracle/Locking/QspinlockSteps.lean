import Miracle.Locking.QspinlockSafety

/-! # Steps of queued spinlocks

A step of a context concerns one lock.  It keeps what the invariant says of that lock, and it does not
touch what it says of the others.
-/

namespace Miracle.Qspinlock

/-! ## The locked byte and the pending bit -/

section Word

variable {C Lock : Type} [DecidableEq C] {l : Lock} {w w' : Word} {holds : C → Bool} {phase : C → Phase Lock} {owner pender : Option C}
  {c : C} {p : Phase Lock} (h : WordInv l w holds phase owner pender)

include h

/-- The steps that do not change who owns a lock and who has set its pending bit. -/
theorem WordInv.frame (locked : w'.locked = w.locked) (pending : w'.pending = w.pending) (pends : p.Pends l ↔ (phase c).Pends l)
    (commits : p.Commits l → (phase c).Commits l) (claimer : p = .claimPending l → w.locked = false)
    (cleared : p.Cleared l → (phase c).Cleared l) : WordInv l w' holds (Function.update phase c p) owner pender := by
  obtain ⟨_, _, _, _, _, _⟩ := h
  constructor <;> grind [Function.update_apply]

/-- A step between phases that have nothing to do with the two bits. -/
theorem WordInv.plain (locked : w'.locked = w.locked) (pending : w'.pending = w.pending) (before : ¬(phase c).Pends l)
    (after : ¬p.Pends l) (clear : ¬p.Cleared l) : WordInv l w' holds (Function.update phase c p) owner pender :=
  h.frame locked pending ⟨fun pends => absurd pends after, fun pends => absurd pends before⟩ (fun commits => absurd commits.pends after)
    (fun at_ => absurd (by rw [at_]; rfl) after) fun now => absurd now clear

/-- A free lock is acquired; nobody else is about to. -/
theorem WordInv.acquired (free : owner = none) (nobody : ∀ d, ¬(phase d).Commits l) (alone : ∀ d, (phase d).Cleared l → d = c)
    (locked : w'.locked = true) (pending : w'.pending = w.pending) (before : ¬(phase c).Pends l) (after : ¬p.Pends l) (done : ¬p.Cleared l) :
    WordInv l w' (Function.update holds c true) (Function.update phase c p) (some c) pender := by
  have claimer (d : C) (at_ : phase d = .claimPending l) : False := nobody d (by rw [at_]; rfl)
  have claimer' : p ≠ .claimPending l := by rintro rfl; exact after rfl
  obtain ⟨_, _, _, _, _, _⟩ := h
  constructor <;> grind [Function.update_apply]

/-- The context behind the pending bit gets the lock. -/
theorem WordInv.claimed (at_ : phase c = .claimPending l) (locked : w'.locked = true) (pending : w'.pending = false) (pends : ¬p.Pends l)
    (clear : ¬p.Cleared l) : WordInv l w' (Function.update holds c true) (Function.update phase c p) (some c) none := by
  have commits : (phase c).Commits l := by rw [at_]; rfl
  have claimer (d : C) (at_ : phase d = .claimPending l) : (phase d).Pends l := by rw [at_]; rfl
  have claimer' : p ≠ .claimPending l := by rintro rfl; exact pends rfl
  obtain ⟨_, _, _, _, _, _⟩ := h
  constructor <;> grind [Function.update_apply]

/-- The pending bit is set in a word without it. -/
theorem WordInv.pended (free : w.pending = false) (locked : w'.locked = w.locked) (pending : w'.pending = true) (pends : p.Pends l)
    (claimer : p = .claimPending l → w.locked = false) (cleared : p.Commits l → ∀ d, ¬(phase d).Cleared l) :
    WordInv l w' holds (Function.update phase c p) owner (some c) := by
  obtain ⟨_, _, _, _, _, _⟩ := h
  constructor <;> grind [Function.update_apply]

/-- `clear_pending`. -/
theorem WordInv.unpended (mine : (phase c).Pends l) (locked : w'.locked = w.locked) (pending : w'.pending = false) (pends : ¬p.Pends l)
    (clear : ¬p.Cleared l) : WordInv l w' holds (Function.update phase c p) owner none := by
  have claimer (d : C) (at_ : phase d = .claimPending l) : (phase d).Pends l := by rw [at_]; rfl
  have claimer' : p ≠ .claimPending l := by rintro rfl; exact pends rfl
  obtain ⟨_, _, _, _, _, _⟩ := h
  constructor <;> grind [Function.update_apply]

/-- `queued_spin_unlock`. -/
theorem WordInv.released (mine : holds c = true) (locked : w'.locked = false) (pending : w'.pending = w.pending) :
    WordInv l w' (Function.update holds c false) (Function.update phase c (phase c)) none pender := by
  obtain ⟨_, _, _, _, _, _⟩ := h
  constructor <;> grind [Function.update_apply]

/-- The first member sees the word without owner and pending bit. -/
theorem WordInv.seen (clear : w.clear = true) (after : ¬p.Pends l) : WordInv l w holds (Function.update phase c p) none none := by
  simp only [Word.clear, Bool.and_eq_true, Bool.not_eq_true'] at clear
  have claimer' : p ≠ .claimPending l := by rintro rfl; exact after rfl
  obtain ⟨_, _, _, _, _, _⟩ := h
  constructor <;> grind [Function.update_apply]

/-- A step between phases with a node. -/
theorem WordInv.member {i : Nat} {q q' : QueuePhase} (at_ : phase c = .node l i q) (locked : w'.locked = w.locked) (pending : w'.pending = w.pending)
    (cleared : q'.cleared = true → q.cleared = true) : WordInv l w' holds (Function.update phase c (.node l i q')) owner pender := by
  apply h.frame locked pending
  · rw [at_]
    exact Iff.rfl
  · exact fun wrong => absurd wrong id
  · exact fun wrong => by cases wrong
  · rw [at_]
    exact fun clear => ⟨rfl, cleared clear.2⟩

end Word

/-! ## One lock at a time -/

variable {n : Nat} {Lock : Type} [DecidableEq Lock] {s s' : State n Lock} {c d : Ctx n} {l : Lock} {p : Phase Lock} {w : Word}
  {hold : Ctx n → Bool} {pub cl queue rest : List (Ctx n)} {i : Nat} {q q' : QueuePhase} {owner pender : Option (Ctx n)}

/-- A phase outside the queue of a lock and without its pending bit. -/
structure Phase.Plain (l : Lock) (p : Phase Lock) : Prop where
  lock : p.lock = none ∨ p.lock = some l
  queued : ¬p.Queued l
  pends : ¬p.Pends l

omit [DecidableEq Lock] in
theorem Phase.Plain.cleared (h : p.Plain l) : ¬p.Cleared l := fun clear => h.queued clear.queued

/-- The other locks keep their invariant. -/
theorem Moved.inv (m : Moved s s' c l p w hold pub cl) (h : Inv s) (nodes : NodeInv s') (aside : Aside s s' c l)
    (before : (s.phase c).lock = none ∨ (s.phase c).lock = some l) (after : p.lock = none ∨ p.lock = some l)
    (own : ∃ queue owner pender, QueueInv s' l queue ∧ WordInv l w hold (Function.update s.phase c p) owner pender) : Inv s' := by
  refine ⟨nodes, fun k => ?_⟩
  by_cases same : k = l
  · rw [same, m.mine.1, m.mine.2.1, m.phase]
    exact own
  · obtain ⟨queue, owner, pender, q, word⟩ := h.locks k
    obtain ⟨words, holds, published, claimed⟩ := m.apart same
    have out (r : Phase Lock) (lock : r.lock = none ∨ r.lock = some l) : ¬r.Queued k ∧ ¬r.Pends k ∧ ¬r.Destined k := by
      have ne : r.lock ≠ some k := by
        rcases lock with lock | lock <;> rw [lock] <;> simp [Ne.symm same]
      exact ⟨fun queued => ne queued.lock_eq, fun pends => ne pends.lock_eq, fun destined => ne destined.lock_eq⟩
    have plain := out _ before
    have plain' := out _ after
    refine ⟨queue, owner, pender, q.frame m.phase plain.1 plain'.1 (by rw [words]) published claimed (fun d queued => ?_)
      (fun destined => absurd destined plain.2.2), ?_⟩
    · refine aside d ?_ queued.idx_ne fun both => ?_
      · rintro rfl
        exact plain.1 queued
      · exact same (Option.some.inj (queued.lock_eq.symm.trans both.lock_eq))
    · rw [words, holds, m.phase]
      exact word.plain rfl rfl plain.2.1 plain'.2.1 fun clear => plain'.1 clear.queued

/-- The two bits after a step outside the queue, and a context that stays destined unless the queue is empty. -/
def KeepsWord (s : State n Lock) (c : Ctx n) (l : Lock) (p : Phase Lock) (w : Word) (hold : Ctx n → Bool) : Prop :=
  ∀ queue owner pender, QueueInv s l queue → WordInv l (s.word l) (s.holds l) s.phase owner pender →
    ((s.phase c).Destined l → p.Destined l ∨ queue = []) ∧ ∃ owner pender, WordInv l w hold (Function.update s.phase c p) owner pender

/-- A step of a context that is not in the queue. -/
theorem Moved.off (m : Moved s s' c l p w hold (s.published l) (s.claimed l)) (h : Inv s) (nodes : NodeInv s')
    (aside : ∀ d, d ≠ c → (s.phase d).idx ≠ none → s'.node (nodeOf s d) = s.node (nodeOf s d))
    (before : ((s.phase c).lock = none ∨ (s.phase c).lock = some l) ∧ ¬(s.phase c).Queued l)
    (after : (p.lock = none ∨ p.lock = some l) ∧ ¬p.Queued l) (tail : w.tail = (s.word l).tail)
    (word : KeepsWord s c l p w hold) : Inv s' := by
  obtain ⟨queue, owner, pender, q, word_⟩ := h.locks l
  obtain ⟨destined, owner', pender', word'⟩ := word queue owner pender q word_
  obtain ⟨words, -, published, claimed⟩ := m.mine
  refine m.inv h nodes (fun d ne has _ => aside d ne has) before.1 after.1 ⟨queue, owner', pender', ?_, word'⟩
  refine q.frame m.phase before.2 after.2 (by rw [words, tail]) published claimed (fun d queued => aside d ?_ queued.idx_ne) destined
  rintro rfl
  exact before.2 queued

/-- What a context may go to without a store to its node. -/
structure Next (s : State n Lock) (c : Ctx n) (l : Lock) (p : Phase Lock) : Prop where
  plain : p.Plain l
  idx : p.idx = (s.phase c).idx
  fresh : ∀ k i q, p = .node k i q → q.fresh = true → s.node (c.1, i) = ⟨none, false⟩

omit [DecidableEq Lock] in
theorem contend_plain (l : Lock) (val : Word) : (contend l val).Plain l ∧ (contend l val).idx = none := by
  rw [contend]
  split <;> exact ⟨⟨.inr rfl, id, id⟩, rfl⟩

omit [DecidableEq Lock] in
theorem slowpath_plain (l : Lock) (val : Word) : (slowpath l val).Plain l ∧ (slowpath l val).idx = none := by
  rw [slowpath]
  split
  · exact ⟨⟨.inr rfl, id, id⟩, rfl⟩
  · exact contend_plain l val

omit [DecidableEq Lock] in
theorem Next.of_none (plain : p.Plain l) (idx : p.idx = none) (before : (s.phase c).idx = none) : Next s c l p :=
  ⟨plain, by rw [idx, before], fun k i q at_ => by rw [at_] at idx; cases idx⟩

theorem moved_goto (s : State n Lock) (c : Ctx n) (l : Lock) (p : Phase Lock) :
    Moved s (s.goto c p) c l p (s.word l) (s.holds l) (s.published l) (s.claimed l) := by
  constructor <;> simp [State.goto]

theorem moved_word (s : State n Lock) (c : Ctx n) (l : Lock) (p : Phase Lock) (w : Word) :
    Moved s ((s.setWord l w).goto c p) c l p w (s.holds l) (s.published l) (s.claimed l) := by
  constructor <;> simp [State.goto, State.setWord]

theorem moved_acquire (s : State n Lock) (c : Ctx n) (l : Lock) (p : Phase Lock) (w : Word) :
    Moved s (s.acquire l w c p) c l p w (Function.update (s.holds l) c true) (s.published l) (s.claimed l) := by
  constructor <;> simp [State.acquire, State.hold, State.goto, State.setWord]

theorem moved_claim (s : State n Lock) (c : Ctx n) (l : Lock) (p : Phase Lock) (w : Word) :
    Moved s ((s.claim l c).acquire l w c p) c l p w (Function.update (s.holds l) c true) (s.published l) (s.claimed l ++ [c]) := by
  constructor <;> simp [State.claim, State.acquire, State.hold, State.goto, State.setWord]

theorem moved_node (s : State n Lock) (c : Ctx n) (l : Lock) (p : Phase Lock) (k : Node) (v : McsSpinlock) :
    Moved s ((s.setNode k v).goto c p) c l p (s.word l) (s.holds l) (s.published l) (s.claimed l) := by
  constructor <;> simp [State.goto, State.setNode]

theorem moved_count (s : State n Lock) (c : Ctx n) (l : Lock) (p : Phase Lock) (count : Fin n → Nat) :
    Moved s ({ s with count := count }.goto c p) c l p (s.word l) (s.holds l) (s.published l) (s.claimed l) := by
  constructor <;> simp [State.goto]

variable (h : Inv s) (runs : Runs s c)
include h runs

/-- A step outside the queue that leaves all nodes as they are. -/
theorem Inv.off (m : Moved s s' c l p w hold (s.published l) (s.claimed l)) (node : s'.node = s.node) (count : s'.count = s.count)
    (before : ((s.phase c).lock = none ∨ (s.phase c).lock = some l) ∧ ¬(s.phase c).Queued l) (next : Next s c l p)
    (tail : w.tail = (s.word l).tail)
    (word : KeepsWord s c l p w hold) : Inv s' := by
  have aside : Aside s s' c l := fun _ _ _ _ => by rw [node]
  refine m.off h (h.nodes.kept m runs next.idx count (h.nodes.new m aside ?_)) (fun _ _ _ => by rw [node]) before
    ⟨next.plain.lock, next.plain.queued⟩ tail word
  rw [node]
  exact next.fresh

/-- A step between phases that concern nobody else. -/
theorem Inv.move (before : (s.phase c).Plain l) (next : Next s c l p) (destined : (s.phase c).Destined l → p.Destined l) :
    Inv (s.goto c p) :=
  h.off runs (moved_goto s c l p) rfl rfl ⟨before.lock, before.queued⟩ next rfl fun _ owner pender _ word =>
    ⟨fun now => .inl (destined now), owner, pender, word.plain rfl rfl before.pends next.plain.pends next.plain.cleared⟩

/-- The exchange of a zero word. -/
theorem Inv.cmpxchgZero {taken failed : Phase Lock} (cpus : n < 2 ^ 14) (before : (s.phase c).Plain l) (next : Next s c l taken)
    (next' : Next s c l failed) (destined : (s.phase c).Destined l → failed.Destined l) :
    Inv (Qspinlock.cmpxchgZero s l c taken failed) := by
  rw [Qspinlock.cmpxchgZero]
  split
  next zero =>
      refine h.off runs (moved_acquire s c l taken .lockedVal) rfl rfl ⟨before.lock, before.queued⟩ next (by rw [zero]; rfl)
        fun queue owner pender q word => ?_
      have empty := q.empty cpus h.nodes (by rw [zero]; rfl)
      have free : owner = none := word.locked.mp (by rw [zero]; rfl)
      have unset : pender = none := word.pending.mp (by rw [zero]; rfl)
      refine ⟨fun _ => .inr empty, some c, pender, word.acquired free (fun d commits => ?_) (fun d clear => ?_) rfl (by rw [zero]; rfl)
        before.pends next.plain.pends next.plain.cleared⟩
      · have pends := (word.pends d).mp commits.pends
        rw [unset] at pends
        cases pends
      · have member := (q.mem d).mpr clear.queued
        rw [empty] at member
        cases member
  next => exact h.move runs before next' destined

/-! ## The steps outside the queue -/

/-- The word of the lock is written, with the same tail, by a context without a node. -/
theorem Inv.writeWord (before : (s.phase c).lock = some l ∧ (s.phase c).idx = none) (after : (p.lock = none ∨ p.lock = some l) ∧ p.idx = none)
    (tail : w.tail = (s.word l).tail)
    (word : KeepsWord s c l p w (s.holds l)) : Inv ((s.setWord l w).goto c p) := by
  have aside : Aside s ((s.setWord l w).goto c p) c l := fun _ _ _ _ => rfl
  refine (moved_word s c l p w).off h (h.nodes.kept (moved_word s c l p w) runs (by rw [after.2, before.2]) rfl
    (h.nodes.new (moved_word s c l p w) aside fun k i q at_ => ?_)) (fun _ _ _ => rfl) ⟨.inr before.1, fun queued => queued.idx_ne before.2⟩
    ⟨after.1, fun queued => queued.idx_ne after.2⟩ tail word
  have idx := after.2
  rw [at_] at idx
  cases idx

theorem Inv.setPending (cpus : n < 2 ^ 14) (at_ : s.phase c = .setPending l)
    (target : p = if (s.word l).contended then (if (s.word l).pending then .grabNode l else .undoPending l)
      else if (s.word l).locked then .waitLocked l else .claimPending l) :
    Inv ((s.setWord l { s.word l with pending := true }).goto c p) := by
  have shape : (p.lock = none ∨ p.lock = some l) ∧ p.idx = none := by
    rw [target]
    split <;> split <;> exact ⟨.inr rfl, rfl⟩
  refine h.writeWord runs (by rw [at_]; exact ⟨rfl, rfl⟩) shape rfl fun queue owner pender q word => ?_
  rw [at_]
  refine ⟨fun destined => absurd destined id, ?_⟩
  by_cases contended : (s.word l).contended = true
  · rw [if_pos contended] at target
    cases pending : (s.word l).pending with
    | true =>
        rw [pending, if_pos rfl] at target
        rw [target]
        exact ⟨owner, pender, word.plain rfl pending.symm (by rw [at_]; exact id) id id⟩
    | false =>
        rw [pending, if_neg Bool.false_ne_true] at target
        rw [target]
        exact ⟨owner, some c, word.pended pending rfl rfl rfl (fun wrong => by cases wrong) fun wrong => absurd wrong id⟩
  · rw [if_neg contended] at target
    simp only [Word.contended, Bool.not_eq_true, Bool.or_eq_false_iff, bne_eq_false_iff_eq] at contended
    have empty := q.empty cpus h.nodes contended.2
    have nobody (d : Ctx n) : ¬(s.phase d).Cleared l := fun clear => by
      have member := (q.mem d).mpr clear.queued
      rw [empty] at member
      cases member
    refine ⟨owner, some c, word.pended contended.1 rfl rfl ?_ ?_ fun _ => nobody⟩
    · rw [target]
      split <;> rfl
    · rw [target]
      grind

theorem Inv.waitLocked (at_ : s.phase c = .waitLocked l) (free : (s.word l).locked = false) : Inv (s.goto c (.claimPending l)) := by
  have m := moved_goto s c l (.claimPending l)
  have aside : Aside s (s.goto c (.claimPending l)) c l := fun _ _ _ _ => rfl
  refine m.off h (h.nodes.kept m runs (by rw [at_]; rfl) rfl (h.nodes.new m aside fun k i q wrong => by cases wrong)) (fun _ _ _ => rfl)
    (by rw [at_]; exact ⟨.inr rfl, id⟩) ⟨.inr rfl, id⟩ rfl fun queue owner pender q word => ⟨by rw [at_]; exact fun wrong => absurd wrong id,
      owner, pender, word.frame rfl rfl (by rw [at_]; exact Iff.rfl) (by rw [at_]; exact id) (fun _ => free) fun wrong => absurd wrong id⟩

/-- `0,1,0 -> 0,0,1` -/
theorem Inv.claimPending (at_ : s.phase c = .claimPending l) :
    Inv (s.acquire l { s.word l with locked := true, pending := false } c .idle) := by
  refine h.off runs (moved_acquire s c l .idle _) rfl rfl (by rw [at_]; exact ⟨.inr rfl, id⟩)
    (.of_none ⟨.inl rfl, id, id⟩ rfl (by rw [at_]; rfl)) rfl fun queue owner pender q word => ?_
  rw [at_]
  exact ⟨fun destined => absurd destined id, some c, none, word.claimed at_ rfl rfl id id⟩

theorem Inv.unlock (idle : s.phase c = .idle) (mine : s.holds l c = true) :
    Inv ((s.setWord l { s.word l with locked := false }).hold l c false) := by
  have m : Moved s ((s.setWord l { s.word l with locked := false }).hold l c false) c l (s.phase c) { s.word l with locked := false }
      (Function.update (s.holds l) c false) (s.published l) (s.claimed l) := by
    constructor <;> simp [State.setWord, State.hold]
  refine h.off runs m rfl rfl (by rw [idle]; exact ⟨.inl rfl, id⟩) ⟨by rw [idle]; exact ⟨.inl rfl, id, id⟩, rfl, ?_⟩ rfl
    fun queue owner pender q word => ⟨.inl, none, pender, word.released mine rfl rfl⟩
  rw [idle]
  exact fun k i q wrong => by cases wrong

/-- `node->count++` and `this_cpu_dec` -/
theorem Inv.setCount {count : Nat} (before : (s.phase c).Plain l) (after : p.Plain l)
    (idx : ∀ i, p.idx = some i → i = nodesBelow s c.1 c.2) (counted : count = nodesBelow s c.1 c.2 + p.idx.isSome.toNat)
    (fresh : ∀ k i q, p = .node k i q → q.fresh = false) (destined : (s.phase c).Destined l → p.Destined l) :
    Inv ({ s with count := Function.update s.count c.1 count }.goto c p) := by
  have m := moved_count s c l p (Function.update s.count c.1 count)
  have aside : Aside s ({ s with count := Function.update s.count c.1 count }.goto c p) c l := fun _ _ _ _ => rfl
  refine m.off h (h.nodes.moved m runs idx (by rw [← counted]; rfl) (h.nodes.new m aside fun k i q at_ new => ?_)) (fun _ _ _ => rfl)
    ⟨before.lock, before.queued⟩ ⟨after.lock, after.queued⟩ rfl fun queue owner pender q word => ⟨fun now => .inl (destined now), owner, pender, ?_⟩
  · rw [fresh k i q at_] at new
    cases new
  · exact word.plain rfl rfl before.pends after.pends after.cleared

/-- The node is initialised; it is no other context's. -/
theorem Inv.initNode (at_ : s.phase c = .node l i .init) : Inv ((s.setNode (c.1, i) ⟨none, false⟩).goto c (.node l i .tryRead)) := by
  have m := moved_node s c l (.node l i .tryRead) (c.1, i) ⟨none, false⟩
  have has : (s.phase c).idx = some i := by rw [at_]; rfl
  have node (d : Ctx n) (ne : d ≠ c) (hd : (s.phase d).idx ≠ none) :
      ((s.setNode (c.1, i) ⟨none, false⟩).goto c (.node l i .tryRead)).node (nodeOf s d) = s.node (nodeOf s d) := by
    refine Function.update_of_ne (fun same => ne (h.nodes.nodeOf_inj hd (by rw [has]; exact Option.some_ne_none i) ?_)) ..
    rw [same, nodeOf_eq has]
  refine m.off h (h.nodes.kept m runs (by rw [has]; rfl) rfl (h.nodes.new m (fun d ne hd _ => node d ne hd) fun k j q same _ => ?_)) node
    (by rw [at_]; exact ⟨.inr rfl, fun wrong => by cases wrong.2⟩) ⟨.inr rfl, fun wrong => by cases wrong.2⟩ rfl fun queue owner pender q word => ⟨fun _ => .inl ⟨rfl, rfl⟩, owner, pender,
      word.member at_ rfl rfl fun wrong => by cases wrong⟩
  cases same
  exact Function.update_self ..

/-! ## The steps of the queue -/

/-- A step of a member, or of the context that becomes one. -/
theorem Inv.member (at_ : s.phase c = .node l i q) (m : Moved s s' c l (.node l i q') w hold pub cl) (count : s'.count = s.count)
    (aside : Aside s s' c l) (old : q'.fresh = false)
    (own : ∃ queue owner pender, QueueInv s' l queue ∧ WordInv l w hold (Function.update s.phase c (.node l i q')) owner pender) : Inv s' := by
  refine m.inv h (h.nodes.kept m runs (by rw [at_]; rfl) count (h.nodes.new m aside fun k j r same new => ?_)) aside (by rw [at_]; exact .inr rfl)
    (.inr rfl) own
  cases same
  rw [old] at new
  cases new

/-- The first member goes on without a store. -/
theorem Inv.forward (at_ : s.phase c = .node l i q) (queued : q.queued = true)
    (ahead : q.ahead = true ∨ q = .waitNode ∧ (s.node (nodeOf s c)).locked = true) (queued' : q'.queued = true)
    (front : q.Front (s.node (nodeOf s c)) → q'.Front (s.node (nodeOf s c))) (claimed : q'.claimed = q.claimed)
    (word : ∀ rest owner pender, QueueInv s l (c :: rest) → WordInv l (s.word l) (s.holds l) s.phase owner pender →
      (q'.awaits = true → q.awaits = true ∨ rest ≠ [] ∨ ∃ d, (s.phase d).Pends l ∧ (s.phase d).Destined l) ∧
        (q'.cleared = true → q.cleared = true ∨ (s.word l).clear = true)) : Inv (s.goto c (.node l i q')) := by
  obtain ⟨queue, owner, pender, own, word_⟩ := h.locks l
  obtain ⟨rest, rfl, first⟩ := own.first at_ queued ahead
  obtain ⟨awaits, clear⟩ := word rest owner pender own word_
  have m := moved_goto s c l (.node l i q')
  have log : s.published l = s.claimed l ++ if q'.claimed then rest else c :: rest := by
    rw [own.history, unclaimed, at_, claimed]
    rfl
  refine h.member runs at_ m rfl (fun _ _ _ _ => rfl) (by grind) ⟨c :: rest, ?_⟩
  by_cases seen : q'.cleared = true ∧ q.cleared = false
  · have clear_ := (clear seen.1).resolve_left (by simp [seen.2])
    exact ⟨none, none, own.advance m at_ rfl rfl queued' (front first) log awaits, word_.seen clear_ id⟩
  · exact ⟨owner, pender, own.advance m at_ rfl rfl queued' (front first) log awaits,
      word_.member at_ rfl rfl (by grind)⟩

theorem Inv.publish (cpus : n < 2 ^ 14) (at_ : s.phase c = .node l i .xchgTail)
    (target : q = if (s.word l).tail = 0 then .headWait none else .link (decodeTail (s.word l).tail)) :
    Inv (((s.setWord l { s.word l with tail := encodeTail (c.1, i) }).publish l c).goto c (.node l i q)) := by
  obtain ⟨queue, owner, pender, own, word⟩ := h.locks l
  have m : Moved s (((s.setWord l { s.word l with tail := encodeTail (c.1, i) }).publish l c).goto c (.node l i q)) c l (.node l i q)
      { s.word l with tail := encodeTail (c.1, i) } (s.holds l) (s.published l ++ [c]) (s.claimed l) := by
    constructor <;> simp [State.setWord, State.publish, State.goto]
  have shape : q.fresh = false ∧ q.cleared = false := by
    rw [target]
    split <;> exact ⟨rfl, rfl⟩
  refine h.member runs at_ m rfl (fun _ _ _ _ => rfl) shape.1 ⟨_, owner, pender, own.publish cpus h.nodes at_ target m rfl rfl,
    word.member at_ rfl rfl (by simp [shape.2])⟩

theorem Inv.link {prev : Node} (at_ : s.phase c = .node l i (.link prev)) :
    Inv ((s.setNode prev { s.node prev with next := some (c.1.val, i) }).goto c (.node l i .waitNode)) := by
  obtain ⟨queue, owner, pender, own, word⟩ := h.locks l
  have m := moved_node s c l (.node l i .waitNode) prev { s.node prev with next := some (c.1.val, i) }
  obtain ⟨linked, a, member, place⟩ := own.linked h.nodes at_ m (by rw [nodeOf_eq (by rw [at_]; rfl)]; rfl)
  refine h.member runs at_ m rfl (fun d _ hd out => ?_) rfl ⟨_, owner, pender, linked,
    word.member at_ rfl rfl fun wrong => by cases wrong⟩
  refine Function.update_of_ne (fun same => out ?_) ..
  rw [h.nodes.nodeOf_inj hd member.idx_ne (same.trans place.symm)]
  exact member

/-- A member that has seen the word clear gets the lock. -/
theorem Inv.claim (at_ : s.phase c = .node l i q) (clear : q.cleared = true) (old : q'.fresh = false ∧ q'.cleared = false)
    (locked : w.locked = true) (pending : w.pending = (s.word l).pending)
    (own : ∀ rest, QueueInv s l (c :: rest) → q.Front (s.node (nodeOf s c)) →
      ∃ queue, QueueInv ((s.claim l c).acquire l w c (.node l i q')) l queue) : Inv ((s.claim l c).acquire l w c (.node l i q')) := by
  obtain ⟨queue, owner, pender, queue_, word⟩ := h.locks l
  have first (d : Ctx n) (now : (s.phase d).Cleared l) : ∃ rest, queue = d :: rest := by
    cases at' : s.phase d with
    | node k j r =>
        rw [at'] at now
        obtain ⟨rfl, now⟩ := now
        obtain ⟨rest, list, -⟩ := queue_.first at' (QueuePhase.cleared_queued now).1 (.inl (QueuePhase.cleared_queued now).2)
        exact ⟨rest, list⟩
    | _ =>
        rw [at'] at now
        exact absurd now id
  have mine : (s.phase c).Cleared l := by rw [at_]; exact ⟨rfl, clear⟩
  obtain ⟨rest, rfl, front⟩ := queue_.first at_ (QueuePhase.cleared_queued clear).1 (.inl (QueuePhase.cleared_queued clear).2)
  obtain ⟨queue', own'⟩ := own rest queue_ front
  obtain ⟨free, nobody⟩ := word.cleared c mine
  refine h.member runs at_ (moved_claim s c l (.node l i q') w) rfl (fun _ _ _ _ => rfl) old.1 ⟨queue', some c, pender, own',
    word.acquired free nobody (fun d now => ?_) locked pending (by rw [at_]; exact id) id (by simp [Phase.Cleared, old.2])⟩
  obtain ⟨rest', list⟩ := first d now
  exact (List.cons.inj list).1.symm

theorem Inv.handOver {next : Node} (at_ : s.phase c = .node l i (.handOver next)) :
    Inv ((s.setNode next { s.node next with locked := true }).goto c (.node l i .release)) := by
  obtain ⟨queue, owner, pender, own, word⟩ := h.locks l
  obtain ⟨rest, rfl, front⟩ := own.first at_ rfl (.inl rfl)
  have m := moved_node s c l (.node l i .release) next { s.node next with locked := true }
  obtain ⟨handed, b, j, waits, place⟩ := own.handedOver h.nodes at_ m front rfl
  refine h.member runs at_ m rfl (fun d _ hd out => ?_) rfl ⟨_, owner, pender, handed,
    word.member at_ rfl rfl fun wrong => by cases wrong⟩
  refine Function.update_of_ne (fun same => out ?_) ..
  rw [h.nodes.nodeOf_inj hd (by simp [waits, Phase.idx]) (same.trans place.symm), waits]
  exact ⟨rfl, rfl⟩

end Miracle.Qspinlock
