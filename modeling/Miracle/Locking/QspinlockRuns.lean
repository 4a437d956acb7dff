import Miracle.Locking.QspinlockSteps

/-! # Runs of queued spinlocks

The invariant holds in every state that contexts reach in any order of their steps.  From it follow
mutual exclusion, the order of the queue, and that no context waits for a wake-up that will not come.
-/

namespace Miracle.Qspinlock

variable {n : Nat} {Lock : Type} {s s' : State n Lock} {c : Ctx n} {l : Lock} {i : Nat} {q : QueuePhase}

/-! ## Every step -/

section Steps

variable [DecidableEq Lock]

theorem Inv.queueStep (h : Inv s) (cpus : n < 2 ^ 14) (runs : Runs s c) (at_ : s.phase c = .node l i q)
    (taken : Qspinlock.queueStep s c l i q = some s') : Inv s' := by
  have idx (r : QueuePhase) : (Phase.node l i r).idx = (s.phase c).idx := by rw [at_]; rfl
  have own : nodeOf s c = (c.1.val, i) := nodeOf_eq (idx q).symm
  have aside (r : QueuePhase) (out : r.queued = false) : (Phase.node l i r).Plain l := ⟨.inr rfl, by simp [Phase.Queued, out], id⟩
  have goes (r : QueuePhase) (out : r.queued = false) (fresh : r.fresh = true → q.fresh = true) : Next s c l (.node l i r) :=
    ⟨aside r out, idx r, fun k j r' same new => by cases same; exact h.nodes.fresh c l i q at_ (fresh new)⟩
  have plain (out : q.queued = false) : (s.phase c).Plain l := by
    rw [at_]
    exact aside q out
  cases q with
  | init =>
      cases taken
      exact h.initNode runs at_
  | tryRead =>
      cases taken
      split
      · exact h.move runs (plain rfl) (goes _ rfl fun _ => rfl) fun _ => ⟨rfl, rfl⟩
      · exact h.move runs (plain rfl) (goes _ rfl fun _ => rfl) fun _ => ⟨rfl, rfl⟩
  | tryCmpxchg =>
      cases taken
      exact h.cmpxchgZero runs cpus (plain rfl) (goes _ rfl fun _ => rfl) (goes _ rfl fun _ => rfl) fun _ => ⟨rfl, rfl⟩
  | xchgTail =>
      cases taken
      exact h.publish runs cpus at_ rfl
  | link prev =>
      cases taken
      exact h.link runs at_
  | waitNode =>
      rw [Qspinlock.queueStep] at taken
      split at taken
      next told =>
          cases taken
          rw [← own] at told
          exact h.forward runs at_ rfl (.inr ⟨rfl, told⟩) rfl (fun _ => trivial) rfl fun _ _ _ _ _ => ⟨fun wrong => (by cases wrong), fun wrong => by cases wrong⟩
      next => cases taken
  | readNext =>
      cases taken
      exact h.forward runs at_ rfl (.inl rfl) rfl (fun _ => .inr (by rw [own])) rfl
        fun _ _ _ _ _ => ⟨fun wrong => (by cases wrong), fun wrong => by cases wrong⟩
  | headWait next =>
      rw [Qspinlock.queueStep] at taken
      split at taken
      next clear =>
          cases taken
          split
          · exact h.forward runs at_ rfl (.inl rfl) rfl id rfl fun _ _ _ _ _ => ⟨fun wrong => (by cases wrong), fun _ => .inr clear⟩
          next tail =>
              refine h.forward runs at_ rfl (.inl rfl) rfl id rfl fun rest _ _ queue _ => ⟨fun _ => .inr (.inl ?_), fun _ => .inr clear⟩
              rintro rfl
              exact tail (by rw [(queue.code (c := c) cpus h.nodes rfl).1, own])
      next => cases taken
  | headCmpxchg next =>
      rw [Qspinlock.queueStep] at taken
      split at taken
      next word =>
          cases taken
          refine h.claim runs at_ rfl ⟨rfl, rfl⟩ rfl (by rw [word]; rfl) fun rest queue front => ⟨[], ?_⟩
          have alone := queue.alone cpus h.nodes rfl (by rw [word, own])
          subst alone
          exact queue.left at_ (moved_claim ..) rfl
      next failed =>
          cases taken
          refine h.forward runs at_ rfl (.inl rfl) rfl id rfl fun rest owner pender queue word => ⟨fun _ => .inr ?_, fun _ => .inl rfl⟩
          obtain ⟨free, nobody⟩ := word.cleared c (by rw [at_]; exact ⟨rfl, rfl⟩)
          cases pending : (s.word l).pending with
          | true =>
              -- it was set behind the queue, so it will be cleared again
              obtain ⟨d, set_⟩ := Option.ne_none_iff_exists'.mp fun none_ => by rw [word.pending.mpr none_] at pending; cases pending
              have pends := (word.pends d).mpr set_
              exact .inr ⟨d, pends, pends.destined (nobody d)⟩
          | false =>
              refine .inl fun alone => failed ?_
              subst alone
              have tail := (queue.code (c := c) cpus h.nodes rfl).1
              rw [own] at tail
              rw [show s.word l = ⟨(s.word l).locked, (s.word l).pending, (s.word l).tail⟩ from rfl, word.locked.mpr free, pending, tail]
  | setLocked known =>
      cases taken
      have log (rest : List (Ctx n)) (queue : QueueInv s l (c :: rest)) : s.published l = s.claimed l ++ [c] ++ rest := by
        rw [queue.history, unclaimed, at_]
        exact (List.append_assoc _ [c] rest).symm
      cases known with
      | none =>
          exact h.claim runs at_ rfl ⟨rfl, rfl⟩ rfl rfl fun rest queue front =>
            ⟨c :: rest, queue.advance (moved_claim ..) at_ rfl rfl rfl trivial (log rest queue) fun _ => .inl rfl⟩
      | some k =>
          exact h.claim runs at_ rfl ⟨rfl, rfl⟩ rfl rfl fun rest queue front => ⟨c :: rest, queue.advance (moved_claim ..) at_ rfl rfl rfl
            (front.resolve_left (Option.some_ne_none k)).symm (log rest queue) fun wrong => by cases wrong⟩
  | waitNext =>
      rw [Qspinlock.queueStep] at taken
      split at taken
      next => cases taken
      next k told =>
          cases taken
          rw [← own] at told
          exact h.forward runs at_ rfl (.inl rfl) rfl (fun _ => told) rfl fun _ _ _ _ _ => ⟨fun wrong => (by cases wrong), fun wrong => by cases wrong⟩
  | handOver k =>
      cases taken
      exact h.handOver runs at_
  | release =>
      cases taken
      refine h.setCount runs (plain rfl) ⟨.inl rfl, id, id⟩ (fun i wrong => by cases wrong) ?_ (fun k i q wrong => by cases wrong)
        (by rw [at_]; exact fun wrong => by cases wrong.2)
      rw [h.nodes.count, nodesBelow_top runs, at_]
      rfl

theorem Inv.access (h : Inv s) (cpus : n < 2 ^ 14) (runs : Runs s c) (taken : Qspinlock.access s c = some s') : Inv s' := by
  rw [Qspinlock.access] at taken
  cases at_ : s.phase c with
  | idle =>
      rw [at_] at taken
      cases taken
  | tryCmpxchg k =>
      rw [at_] at taken
      cases taken
      have idle : Next s c k .idle := .of_none ⟨.inl rfl, id, id⟩ rfl (by rw [at_]; rfl)
      exact h.cmpxchgZero runs cpus (by rw [at_]; exact ⟨.inr rfl, id, id⟩) idle idle (by rw [at_]; exact fun wrong => absurd wrong id)
  | waitHandover k cnt =>
      rw [at_] at taken
      cases taken
      have before : (s.phase c).Plain k := by rw [at_]; exact ⟨.inr rfl, id, id⟩
      have none_ : (s.phase c).idx = none := by rw [at_]; rfl
      split
      · exact h.move runs before (.of_none (contend_plain k _).1 (contend_plain k _).2 none_) (by rw [at_]; exact fun wrong => absurd wrong id)
      · exact h.move runs before (.of_none ⟨.inr rfl, id, id⟩ rfl none_) (by rw [at_]; exact fun wrong => absurd wrong id)
  | setPending k =>
      rw [at_] at taken
      cases taken
      exact h.setPending runs cpus at_ rfl
  | undoPending k =>
      rw [at_] at taken
      cases taken
      exact h.writeWord runs (by rw [at_]; exact ⟨rfl, rfl⟩) ⟨.inr rfl, rfl⟩ rfl fun queue owner pender q word =>
        ⟨fun _ => .inl rfl, owner, none, word.unpended (by rw [at_]; rfl) rfl rfl id id⟩
  | waitLocked k =>
      rw [at_] at taken
      simp only at taken
      split at taken
      next => cases taken
      next free =>
          cases taken
          exact h.waitLocked runs at_ (Bool.eq_false_iff.mpr free)
  | claimPending k =>
      rw [at_] at taken
      cases taken
      exact h.claimPending runs at_
  | grabNode k =>
      rw [at_] at taken
      cases taken
      have count : s.count c.1 = nodesBelow s c.1 c.2 := by
        rw [h.nodes.count, nodesBelow_top runs, at_]
        rfl
      refine h.setCount runs (by rw [at_]; exact ⟨.inr rfl, id, id⟩) ⟨.inr rfl, fun wrong => (by cases wrong.2), id⟩ (fun i is => ?_) (by rw [count]; rfl)
        (fun m i q same => by cases same; rfl) fun _ => ⟨rfl, rfl⟩
      cases is
      exact count
  | node k i q =>
      rw [at_] at taken
      exact h.queueStep cpus runs at_ taken

theorem Inv.step {a : Call Lock} (h : Inv s) (cpus : n < 2 ^ 14) (taken : Qspinlock.step s c a = some s') : Inv s' := by
  rw [Qspinlock.step] at taken
  split at taken
  next runs =>
      cases a with
      | access => exact h.access cpus runs taken
      | lock k =>
          rw [call] at taken
          split at taken
          next idle =>
              cases taken
              have before : (s.phase c).Plain k := by rw [idle]; exact ⟨.inl rfl, id, id⟩
              have none_ : (s.phase c).idx = none := by rw [idle]; rfl
              exact h.cmpxchgZero runs cpus before (.of_none ⟨.inl rfl, id, id⟩ rfl none_)
                (.of_none (slowpath_plain k _).1 (slowpath_plain k _).2 none_) (by rw [idle]; exact fun wrong => absurd wrong id)
          next => cases taken
      | trylock k =>
          rw [call] at taken
          split at taken
          next idle =>
              cases taken
              split
              · exact h.move (l := k) runs (by rw [idle]; exact ⟨.inl rfl, id, id⟩) (.of_none ⟨.inr rfl, id, id⟩ rfl (by rw [idle]; rfl))
                  (by rw [idle]; exact fun wrong => absurd wrong id)
              · exact h
          next => cases taken
      | unlock k =>
          rw [call] at taken
          split at taken
          next mine =>
              cases taken
              exact h.unlock runs mine.1 mine.2
          next => cases taken
  next => cases taken

omit [DecidableEq Lock] in
theorem Inv.init : Inv (State.init : State n Lock) where
  nodes := ⟨fun c i has => (by cases has), fun cpu => (by simp [nodesBelow, State.init, Phase.idx]), fun c l i q at_ => by cases at_⟩
  locks l := by
    refine ⟨[], none, none, ⟨List.nodup_nil, fun c => ?_, rfl, fun c rest list => (by cases list), List.IsChain.nil, fun c last => (by cases last),
      rfl, fun c alone => (by cases alone)⟩, ⟨fun c => ?_, ?_, fun c => ?_, ?_, fun c at_ => (by cases at_), fun c clear => absurd clear id⟩⟩
    · exact ⟨fun in_ => (by cases in_), fun queued => absurd queued id⟩
    · exact ⟨fun has => (by cases has), fun wrong => (by cases wrong)⟩
    · exact ⟨fun _ => rfl, fun _ => rfl⟩
    · exact ⟨fun pends => absurd pends id, fun wrong => by cases wrong⟩
    · exact ⟨fun _ => rfl, fun _ => rfl⟩

theorem Reachable.inv (cpus : n < 2 ^ 14) (h : Reachable s) : Inv s := by
  induction h with
  | init => exact .init
  | step _ taken ih => exact ih.step cpus taken

end Steps

/-! ## Safety -/

/-- At most one context has the lock, its byte says so, at most one will get it by the pending bit, and
    nobody is in the way of who finds the word zero. -/
structure Exclusive (s : State n Lock) (l : Lock) : Prop where
  one : ∀ c d, s.holds l c = true → s.holds l d = true → c = d
  locked : (s.word l).locked = true ↔ ∃ c, s.holds l c = true
  committed : ∀ c d, (s.phase c).Commits l → (s.phase d).Commits l → c = d
  claimer : ∀ c, s.phase c = .claimPending l → ∀ d, s.holds l d = false
  free : (s.word l).val = 0 → ∀ c, ¬(s.phase c).Queued l ∧ ¬(s.phase c).Pends l

theorem WordInv.held {C : Type} {w : Word} {holds : C → Bool} {phase : C → Phase Lock} {owner pender : Option C}
    (h : WordInv l w holds phase owner pender) : w.locked = true ↔ ∃ c, holds c = true := by
  rw [← Bool.not_eq_false, h.locked]
  cases owner with
  | none => simp [h.holds]
  | some c => simp [h.holds]

theorem WordInv.set {C : Type} {w : Word} {holds : C → Bool} {phase : C → Phase Lock} {owner pender : Option C}
    (h : WordInv l w holds phase owner pender) : w.pending = true ↔ ∃ c, (phase c).Pends l := by
  rw [← Bool.not_eq_false, h.pending]
  cases pender with
  | none => simp [h.pends]
  | some c => simp [h.pends]

theorem queued_spin_lock_exclusive [DecidableEq Lock] (cpus : n < 2 ^ 14) (h : Reachable s) (l : Lock) : Exclusive s l := by
  obtain ⟨nodes, locks⟩ := h.inv cpus
  obtain ⟨queue, owner, pender, q, word⟩ := locks l
  refine ⟨fun c d hc hd => ?_, word.held, fun c d hc hd => ?_, fun c at_ d => ?_, fun zero c => ⟨fun queued => ?_, fun pends => ?_⟩⟩
  · exact Option.some.inj (((word.holds c).mp hc).symm.trans ((word.holds d).mp hd))
  · exact Option.some.inj (((word.pends c).mp hc.pends).symm.trans ((word.pends d).mp hd.pends))
  · rw [← Bool.not_eq_true, word.holds, word.claimer c at_]
    simp
  · have member := (q.mem c).mpr queued
    rw [q.empty cpus nodes (by rw [val_eq_zero.mp zero]; rfl)] at member
    cases member
  · have pending := word.set.mpr ⟨c, pends⟩
    rw [val_eq_zero.mp zero] at pending
    cases pending

/-- The members of the queue of a lock, in the order in which they exchanged the tail. -/
structure Fifo (s : State n Lock) (l : Lock) (queue : List (Ctx n)) : Prop where
  nodup : queue.Nodup
  mem : ∀ c, c ∈ queue ↔ (s.phase c).Queued l
  empty : (s.word l).tail = 0 ↔ queue = []
  last : ∀ c, queue.getLast? = some c → decodeTail (s.word l).tail = nodeOf s c ∧ (s.node (nodeOf s c)).next = none
  joined : queue.IsChain (Joined s l)
  history : s.published l = s.claimed l ++ unclaimed s queue

/-- Every access to the node of another context finds it in the queue. -/
structure NodesSafe (s : State n Lock) : Prop where
  apart : ∀ c d i j, (s.phase c).idx = some i → (s.phase d).idx = some j → (c.1, i) = (d.1, j) → c = d
  four : ∀ c i, (s.phase c).idx = some i → i < 4
  link : ∀ c l i prev, s.phase c = .node l i (.link prev) → ∃ p, (s.phase p).Queued l ∧ nodeOf s p = prev
  handOver : ∀ c l i k, s.phase c = .node l i (.handOver k) → ∃ b, s.phase b = .node l k.2 .waitNode ∧ nodeOf s b = k

theorem Inv.nodesSafe (h : Inv s) : NodesSafe s := by
  refine ⟨fun c d i j hc hd same => ?_, fun c i has => h.nodes.four has, fun c l i prev at_ => ?_, fun c l i k at_ => ?_⟩
  · apply h.nodes.apart hc hd
    rw [(Prod.mk.inj same).1, (Prod.mk.inj same).2]
  · obtain ⟨queue, -, -, q, -⟩ := h.locks l
    obtain ⟨-, j, a, lt, front, -, place, -, -⟩ := q.linking at_
    exact ⟨a, (q.mem a).mp (front ▸ List.getElem_mem _), place⟩
  · obtain ⟨queue, -, -, q, -⟩ := h.locks l
    obtain ⟨rest, list, told⟩ := q.first at_ rfl (.inl rfl)
    obtain ⟨b, later, j, -, waits, place⟩ := q.second list told
    rw [← place, nodeOf_eq (show (s.phase b).idx = some j by rw [waits]; rfl)]
    exact ⟨b, waits, nodeOf_eq (by rw [waits]; rfl)⟩

/-- The queue of a lock is one chain that ends at the node of the tail, its members get the lock in the
    order in which they exchanged the tail, and no node is another context's while it is used. -/
theorem queued_spin_lock_fifo [DecidableEq Lock] (cpus : n < 2 ^ 14) (h : Reachable s) : NodesSafe s ∧ ∀ l, ∃ queue, Fifo s l queue := by
  have inv := h.inv cpus
  refine ⟨inv.nodesSafe, fun l => ?_⟩
  obtain ⟨queue, -, -, q, -⟩ := inv.locks l
  refine ⟨queue, q.nodup, q.mem, ⟨q.empty cpus inv.nodes, fun none_ => ?_⟩, fun c last => ⟨(q.code cpus inv.nodes last).2.1, q.last c last⟩, q.joined,
    q.history⟩
  rw [q.tail, none_]
  rfl

/-! ## Progress -/

section Progress

variable [DecidableEq Lock]

/-- Some context in a call for the lock has a step to take. -/
def Moves (s : State n Lock) (l : Lock) : Prop := ∃ d s', (s.phase d).lock = some l ∧ access s d = some s'

theorem moves_of (lock : (s.phase c).lock = some l) (moves : (access s c).isSome = true) : Moves s l := by
  obtain ⟨s', taken⟩ := Option.isSome_iff_exists.mp moves
  exact ⟨c, s', lock, taken⟩

theorem node_moves (at_ : s.phase c = .node l i q) (moves : (queueStep s c l i q).isSome = true) : Moves s l := by
  apply moves_of (c := c)
  · rw [at_]
    rfl
  · rw [access, at_]
    exact moves

/-- A destined context never waits. -/
theorem destined_moves (destined : (s.phase c).Destined l) : Moves s l := by
  cases at_ : s.phase c with
  | undoPending k | grabNode k =>
      rw [at_] at destined
      exact moves_of (c := c) (by rw [at_]; exact congrArg some destined) (by rw [access, at_]; rfl)
  | node k i q =>
      rw [at_] at destined
      obtain ⟨rfl, destined⟩ := destined
      cases q with
      | init | tryRead | tryCmpxchg | xchgTail => exact node_moves at_ rfl
      | _ => cases destined
  | _ =>
      rw [at_] at destined
      exact absurd destined id

/-- The owner that waits for its successor's link is not alone. -/
theorem waitNext_moves {queue : List (Ctx n)} (q : QueueInv s l queue) (at_ : s.phase c = .node l i .waitNext) : Moves s l := by
  obtain ⟨rest, rfl, -⟩ := q.first at_ rfl (.inl rfl)
  cases told : (s.node (nodeOf s c)).next with
  | some k =>
      rw [nodeOf_eq (show (s.phase c).idx = some i by rw [at_]; rfl)] at told
      exact node_moves at_ (by rw [queueStep, told]; rfl)
  | none =>
      cases rest with
      | cons b rest =>
          obtain ⟨⟨-, j, state⟩, -⟩ := List.isChain_cons_cons.mp q.joined
          obtain ⟨link, -⟩ := state.resolve_right fun wrong => by
            rw [told] at wrong
            cases wrong.2
          exact node_moves link rfl
      | nil =>
          obtain ⟨d, destined⟩ := q.followed c rfl (by rw [at_]; exact ⟨rfl, rfl⟩)
          exact destined_moves destined

/-- The first member of the queue of a free lock has a step. -/
theorem first_moves {queue : List (Ctx n)} (q : QueueInv s l queue) (clear : (s.word l).clear = true) (queued : (s.phase c).Queued l) :
    Moves s l := by
  cases queue with
  | nil => cases (q.mem c).mpr queued
  | cons a rest =>
      obtain ⟨i, r, at_, front⟩ := q.front a rest rfl
      have own : nodeOf s a = (a.1.val, i) := nodeOf_eq (by rw [at_]; rfl)
      cases r with
      | waitNext => exact waitNext_moves q at_
      | waitNode =>
          have told : (s.node (a.1, i)).locked = true := own ▸ front
          exact node_moves at_ (by rw [queueStep, if_pos told]; rfl)
      | headWait next => exact node_moves at_ (by rw [queueStep, if_pos clear]; rfl)
      | headCmpxchg next =>
          refine node_moves at_ ?_
          rw [queueStep]
          split
          · rfl
          · rfl
      | readNext | setLocked | handOver => exact node_moves at_ rfl
      | _ => exact absurd front id

/-- A context that has no step to take is a member of the queue or has set the pending bit. -/
theorem stuck (lock : (s.phase c).lock = some l) (moves : access s c = none) : (s.phase c).Queued l ∨ (s.phase c).Pends l := by
  rw [access] at moves
  cases at_ : s.phase c with
  | idle =>
      rw [at_] at lock
      cases lock
  | node k i q =>
      rw [at_] at moves lock
      cases lock
      cases q with
      | init | tryRead | tryCmpxchg | xchgTail | release => cases moves
      | _ => exact .inl ⟨rfl, rfl⟩
  | waitLocked k =>
      rw [at_] at lock
      exact .inr (Option.some.inj lock)
  | _ =>
      rw [at_] at moves
      cases moves

end Progress

/-! ## A contended lock -/

/-- The first cpu has got the lock. -/
def taken : State 2 Unit := cmpxchgZero .init () (0, 0) .idle .idle

/-- The second cpu has found it locked. -/
def contended : State 2 Unit := cmpxchgZero taken () (1, 0) .idle (.setPending ())

theorem contended_reachable : Reachable contended := by
  have first : Reachable taken := .step (c := (0, 0)) (a := .lock ()) .init rfl
  exact .step (c := (1, 0)) (a := .lock ()) first rfl

theorem contended_exclusive : Exclusive contended () := queued_spin_lock_exclusive (by decide) contended_reachable ()

theorem contended_fifo : NodesSafe contended ∧ ∀ l, ∃ queue, Fifo contended l queue :=
  queued_spin_lock_fifo (by decide) contended_reachable

end Miracle.Qspinlock
