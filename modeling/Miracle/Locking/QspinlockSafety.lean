import Mathlib.Data.List.Chain
import Miracle.Locking.Qspinlock

/-! # The invariant of queued spinlocks

Ownership of a lock moves in three ways that race on one word: the exchange of a zero word, the
pending bit, and the queue.  The invariant names for each lock its owner and the context behind its
pending bit, and it describes the queue by the list of its members: each of them but the first waits
for a store of the member in front of it.
-/

namespace Miracle.Qspinlock

variable {n : Nat} {Lock : Type}

/-! ## What a phase says -/

/-- The node is initialised, and the tail is not exchanged yet. -/
def QueuePhase.fresh : QueuePhase → Bool
  | .tryRead | .tryCmpxchg | .xchgTail => true
  | _ => false

/-- The tail is not exchanged yet. -/
def QueuePhase.destined : QueuePhase → Bool
  | .init | .tryRead | .tryCmpxchg | .xchgTail => true
  | _ => false

/-- The tail is exchanged, and the next member has not been told. -/
def QueuePhase.queued : QueuePhase → Bool
  | .init | .tryRead | .tryCmpxchg | .xchgTail | .release => false
  | _ => true

/-- The member has the lock. -/
def QueuePhase.claimed : QueuePhase → Bool
  | .waitNext | .handOver _ => true
  | _ => false

/-- The first member has seen the word without owner and pending bit. -/
def QueuePhase.cleared : QueuePhase → Bool
  | .headCmpxchg _ | .setLocked _ => true
  | _ => false

/-- The lock is claimed, or about to be, without leaving the queue. -/
def QueuePhase.awaits : QueuePhase → Bool
  | .setLocked _ | .waitNext => true
  | _ => false

def QueuePhase.finishing : QueuePhase → Bool
  | .waitNext | .handOver _ | .release => true
  | _ => false

/-- The member does not wait for the one in front of it. -/
def QueuePhase.ahead : QueuePhase → Bool
  | .link _ | .waitNode => false
  | q => q.queued

@[grind →] theorem QueuePhase.cleared_queued {q : QueuePhase} (h : q.cleared = true) : q.queued = true ∧ q.ahead = true := by
  cases q <;> simp_all [cleared, queued, ahead]

@[grind →] theorem QueuePhase.destined_queued {q : QueuePhase} (h : q.destined = true) : q.queued = false := by
  cases q <;> simp_all [destined, queued]

@[grind →] theorem QueuePhase.fresh_queued {q : QueuePhase} (h : q.fresh = true) : q.queued = false := by
  cases q <;> simp_all [fresh, queued]

/-- A first member's phase, and what it knows about its node. -/
def QueuePhase.Front (m : McsSpinlock) : QueuePhase → Prop
  | .waitNode => m.locked = true
  | .readNext | .waitNext => True
  | .headWait k | .headCmpxchg k | .setLocked k => k = none ∨ k = m.next
  | .handOver k => m.next = some k
  | _ => False

namespace Phase

def lock : Phase Lock → Option Lock
  | .idle => none
  | .tryCmpxchg l | .waitHandover l _ | .setPending l | .undoPending l | .waitLocked l | .claimPending l | .grabNode l
  | .node l _ _ => some l

/-- The index of the node that the context has taken. -/
def idx : Phase Lock → Option Nat
  | .node _ idx _ => some idx
  | _ => none

def Queued (l : Lock) : Phase Lock → Prop
  | .node k _ q => k = l ∧ q.queued = true
  | _ => False

def Claimed : Phase Lock → Bool
  | .node _ _ q => q.claimed
  | _ => false

def Cleared (l : Lock) : Phase Lock → Prop
  | .node k _ q => k = l ∧ q.cleared = true
  | _ => False

/-- The context has set the pending bit. -/
def Pends (l : Lock) : Phase Lock → Prop
  | .undoPending k | .waitLocked k | .claimPending k => k = l
  | _ => False

/-- The context has set the pending bit, and will get the lock by it. -/
def Commits (l : Lock) : Phase Lock → Prop
  | .waitLocked k | .claimPending k => k = l
  | _ => False

/-- The context will exchange the tail of the lock, unless it finds the word zero. -/
def Destined (l : Lock) : Phase Lock → Prop
  | .undoPending k | .grabNode k => k = l
  | .node k _ q => k = l ∧ q.destined = true
  | _ => False

def Awaits (l : Lock) : Phase Lock → Prop
  | .node k _ q => k = l ∧ q.awaits = true
  | _ => False

/-- The context is on its way out of its call. -/
def Finishing (l : Lock) : Phase Lock → Prop
  | .node k _ q => k = l ∧ q.finishing = true
  | _ => False

variable {l : Lock} {p : Phase Lock}

theorem Queued.lock_eq (h : p.Queued l) : p.lock = some l := by cases p <;> simp_all [Queued, lock]

theorem Pends.lock_eq (h : p.Pends l) : p.lock = some l := by cases p <;> simp_all [Pends, lock]

theorem Destined.lock_eq (h : p.Destined l) : p.lock = some l := by cases p <;> simp_all [Destined, lock]

@[grind →] theorem Commits.pends (h : p.Commits l) : p.Pends l := by cases p <;> simp_all [Commits, Pends]

@[grind →] theorem Cleared.queued (h : p.Cleared l) : p.Queued l := by cases p <;> grind [Cleared, Queued]

@[grind →] theorem Cleared.not_pends (h : p.Cleared l) : ¬p.Pends l := by cases p <;> simp_all [Cleared, Pends]

theorem Pends.destined (h : p.Pends l) (commits : ¬p.Commits l) : p.Destined l := by
  cases p <;> simp_all [Pends, Commits, Destined]

theorem Queued.idx_ne (h : p.Queued l) : p.idx ≠ none := by cases p <;> simp_all [Queued, idx]

end Phase

/-! ## The invariant -/

/-- The node of a context that has one. -/
def nodeOf (s : State n Lock) (c : Ctx n) : Node := (c.1, (s.phase c).idx.getD 0)

/-- How many levels of a cpu below a level have a node. -/
def nodesBelow (s : State n Lock) (cpu : Fin n) (level : Nat) : Nat :=
  (Finset.univ.filter fun k : Fin 4 => k.val < level ∧ (s.phase (cpu, k)).idx.isSome).card

/-- The nodes of a cpu are taken and given back like a stack. -/
structure NodeInv (s : State n Lock) : Prop where
  level : ∀ c i, (s.phase c).idx = some i → i = nodesBelow s c.1 c.2
  count : ∀ cpu, s.count cpu = nodesBelow s cpu 4
  fresh : ∀ c l i q, s.phase c = .node l i q → q.fresh = true → s.node (c.1, i) = ⟨none, false⟩

/-- The member `b` behind `a` has not written itself to the node of `a` yet, or it waits there. -/
def Joined (s : State n Lock) (l : Lock) (a b : Ctx n) : Prop :=
  (s.node (nodeOf s b)).locked = false ∧ ∃ i,
    s.phase b = .node l i (.link (nodeOf s a)) ∧ (s.node (nodeOf s a)).next = none ∨
      s.phase b = .node l i .waitNode ∧ (s.node (nodeOf s a)).next = some (nodeOf s b)

def Front (s : State n Lock) (l : Lock) (c : Ctx n) : Prop :=
  ∃ i q, s.phase c = .node l i q ∧ q.Front (s.node (nodeOf s c))

/-- The members that have not got the lock. -/
def unclaimed (s : State n Lock) : List (Ctx n) → List (Ctx n)
  | [] => []
  | c :: rest => if (s.phase c).Claimed then rest else c :: rest

def tailOf (s : State n Lock) (queue : List (Ctx n)) : BitVec 16 :=
  match queue.getLast? with
  | none => 0
  | some c => encodeTail (nodeOf s c)

/-- The members of the queue, the first one first.  A first member that waits for a successor has one, or there is a
    context that will become one. -/
structure QueueInv (s : State n Lock) (l : Lock) (queue : List (Ctx n)) : Prop where
  nodup : queue.Nodup
  mem : ∀ c, c ∈ queue ↔ (s.phase c).Queued l
  tail : (s.word l).tail = tailOf s queue
  front : ∀ c rest, queue = c :: rest → Front s l c
  joined : queue.IsChain (Joined s l)
  last : ∀ c, queue.getLast? = some c → (s.node (nodeOf s c)).next = none
  history : s.published l = s.claimed l ++ unclaimed s queue
  followed : ∀ c, queue = [c] → (s.phase c).Awaits l → ∃ d, (s.phase d).Destined l

/-- The owner of a lock and the context behind its pending bit. -/
structure WordInv {C : Type} (l : Lock) (w : Word) (holds : C → Bool) (phase : C → Phase Lock) (owner pender : Option C) : Prop where
  holds : ∀ c, holds c = true ↔ owner = some c
  locked : w.locked = false ↔ owner = none
  pends : ∀ c, (phase c).Pends l ↔ pender = some c
  pending : w.pending = false ↔ pender = none
  claimer : ∀ c, phase c = .claimPending l → owner = none
  cleared : ∀ c, (phase c).Cleared l → owner = none ∧ ∀ d, ¬(phase d).Commits l

structure Inv (s : State n Lock) : Prop where
  nodes : NodeInv s
  locks : ∀ l, ∃ queue owner pender, QueueInv s l queue ∧ WordInv l (s.word l) (s.holds l) s.phase owner pender

/-! ## Nodes -/

variable {s s' : State n Lock} {a b c d : Ctx n} {k l : Lock} {p : Phase Lock} {w : Word} {hold : Ctx n → Bool}
  {pub cl queue rest : List (Ctx n)} {i j : Nat} {q q' : QueuePhase} {owner pender : Option (Ctx n)} {next : Option Node} {prev : Node}

theorem nodeOf_eq (h : (s.phase c).idx = some i) : nodeOf s c = (c.1.val, i) := by
  rw [nodeOf, h]
  rfl

theorem nodesBelow_lt {level : Nat} (has : (s.phase c).idx = some i) (lt : c.2.val < level) :
    nodesBelow s c.1 c.2 < nodesBelow s c.1 level := by
  apply Finset.card_lt_card
  rw [Finset.ssubset_iff_of_subset]
  · exact ⟨c.2, by simp [lt, has], by simp⟩
  · intro k
    simp only [Finset.mem_filter, Finset.mem_univ, true_and]
    exact fun below => ⟨below.1.trans lt, below.2⟩

/-- The levels above a context that runs have no nodes. -/
theorem nodesBelow_top (runs : Runs s c) : nodesBelow s c.1 4 = nodesBelow s c.1 c.2 + (s.phase c).idx.isSome.toNat := by
  have split : (Finset.univ.filter fun k : Fin 4 => k.val < 4 ∧ (s.phase (c.1, k)).idx.isSome)
      = (Finset.univ.filter fun k : Fin 4 => k.val < c.2.val ∧ (s.phase (c.1, k)).idx.isSome)
        ∪ (if (s.phase c).idx.isSome then {c.2} else ∅) := by
    ext k
    simp only [Finset.mem_filter, Finset.mem_univ, true_and, Finset.mem_union]
    rcases lt_trichotomy k c.2 with below | level | above
    · have lt : k.val < c.2.val := below
      split <;> simp [lt, below.ne, k.isLt]
    · subst level
      split <;> simp_all
    · have idle := runs k above
      split <;> simp [idle, Phase.idx, above.ne']
  rw [nodesBelow, split, Finset.card_union_of_disjoint, nodesBelow]
  · split <;> simp_all
  · split <;> simp

theorem NodeInv.four (h : NodeInv s) (has : (s.phase c).idx = some i) : i < 4 := by
  have lt := nodesBelow_lt has c.2.isLt
  have all := Finset.card_le_univ (Finset.univ.filter fun k : Fin 4 => k.val < 4 ∧ (s.phase (c.1, k)).idx.isSome)
  rw [Fintype.card_fin] at all
  rw [← h.level c i has] at lt
  exact lt.trans_le all

/-- Two contexts do not have the same node. -/
theorem NodeInv.apart (h : NodeInv s) (hc : (s.phase c).idx = some i) (hd : (s.phase d).idx = some j)
    (same : ((c.1 : Nat), i) = ((d.1 : Nat), j)) : c = d := by
  obtain ⟨cpu, idx⟩ := Prod.mk.inj same
  obtain ⟨u, k⟩ := c
  obtain ⟨v, k'⟩ := d
  have cpu : u = v := Fin.ext cpu
  subst cpu
  have low : i = nodesBelow s u k := h.level _ _ hc
  have high : j = nodesBelow s u k' := h.level _ _ hd
  rcases lt_trichotomy k k' with below | level | above
  · have lt : nodesBelow s u k < nodesBelow s u k' := nodesBelow_lt hc below
    omega
  · rw [level]
  · have lt : nodesBelow s u k' < nodesBelow s u k := nodesBelow_lt hd above
    omega

theorem NodeInv.nodeOf_inj (h : NodeInv s) (hc : (s.phase c).idx ≠ none) (hd : (s.phase d).idx ≠ none)
    (same : nodeOf s c = nodeOf s d) : c = d := by
  obtain ⟨i, hc⟩ := Option.ne_none_iff_exists'.mp hc
  obtain ⟨j, hd⟩ := Option.ne_none_iff_exists'.mp hd
  rw [nodeOf_eq hc, nodeOf_eq hd] at same
  exact h.apart hc hd same

theorem NodeInv.code (h : NodeInv s) (cpus : n < 2 ^ 14) (has : (s.phase c).idx ≠ none) :
    decodeTail (encodeTail (nodeOf s c)) = nodeOf s c ∧ encodeTail (nodeOf s c) ≠ 0 := by
  obtain ⟨i, has⟩ := Option.ne_none_iff_exists'.mp has
  have cpu : c.1.val + 1 < 2 ^ 14 := by omega
  rw [nodeOf_eq has]
  exact ⟨decode_encode cpu (h.four has), encode_ne_zero cpu (h.four has)⟩

/-! ## A step of one context on one lock -/

variable [DecidableEq Lock]

/-- The context `c` goes to the phase `p`, and of the locks only `l` is concerned. -/
structure Moved (s s' : State n Lock) (c : Ctx n) (l : Lock) (p : Phase Lock) (w : Word) (hold : Ctx n → Bool)
    (pub cl : List (Ctx n)) : Prop where
  phase : s'.phase = Function.update s.phase c p
  word : s'.word = Function.update s.word l w
  holds : s'.holds = Function.update s.holds l hold
  published : s'.published = Function.update s.published l pub
  claimed : s'.claimed = Function.update s.claimed l cl

namespace Moved

variable (m : Moved s s' c l p w hold pub cl)
include m

theorem own : s'.phase c = p := by rw [m.phase, Function.update_self]

theorem other (ne : d ≠ c) : s'.phase d = s.phase d := by rw [m.phase, Function.update_of_ne ne]

theorem mine : s'.word l = w ∧ s'.holds l = hold ∧ s'.published l = pub ∧ s'.claimed l = cl := by
  rw [m.word, m.holds, m.published, m.claimed]
  simp

theorem apart (ne : k ≠ l) :
    s'.word k = s.word k ∧ s'.holds k = s.holds k ∧ s'.published k = s.published k ∧ s'.claimed k = s.claimed k := by
  rw [m.word, m.holds, m.published, m.claimed]
  simp [ne]

theorem idx_eq (idx : p.idx = (s.phase c).idx) (d : Ctx n) : (s'.phase d).idx = (s.phase d).idx := by
  by_cases same : d = c
  · rw [same, m.own, idx]
  · rw [m.other same]

theorem place (idx : p.idx = (s.phase c).idx) : nodeOf s' = nodeOf s := by
  funext d
  rw [nodeOf, nodeOf, m.idx_eq idx]

theorem mem {queue' : List (Ctx n)} (h : QueueInv s l queue) (mine : c ∈ queue' ↔ p.Queued l)
    (others : ∀ d, d ≠ c → (d ∈ queue' ↔ d ∈ queue)) (d : Ctx n) : d ∈ queue' ↔ (s'.phase d).Queued l := by
  by_cases same : d = c
  · rw [same, m.own]
    exact mine
  · rw [m.other same, others d same]
    exact h.mem d

end Moved

/-- A step of a context at or above a level leaves what is below. -/
theorem nodesBelow_congr {cpu : Fin n} {level : Nat} (m : Moved s s' c l p w hold pub cl) (above : cpu = c.1 → level ≤ c.2.val) :
    nodesBelow s' cpu level = nodesBelow s cpu level := by
  apply congrArg Finset.card
  apply Finset.filter_congr
  intro k _
  by_cases same : (cpu, k) = c
  · subst same
    have out : ¬k.val < level := not_lt.mpr (above rfl)
    simp [out]
  · rw [m.other same]

/-- The context takes the next node, gives its node back or keeps what it has. -/
theorem NodeInv.moved (h : NodeInv s) (m : Moved s s' c l p w hold pub cl) (runs : Runs s c)
    (idx : ∀ i, p.idx = some i → i = nodesBelow s c.1 c.2)
    (count : s'.count = Function.update s.count c.1 (nodesBelow s c.1 c.2 + p.idx.isSome.toNat))
    (fresh : ∀ d l i q, s'.phase d = .node l i q → q.fresh = true → s'.node (d.1, i) = ⟨none, false⟩) : NodeInv s' := by
  have runs' : Runs s' c := fun k above => by
    rw [m.other fun same => above.ne' (congrArg Prod.snd same)]
    exact runs k above
  refine ⟨fun d i has => ?_, fun cpu => ?_, fresh⟩
  · by_cases same : d = c
    · rw [same, m.own] at has
      rw [same, nodesBelow_congr m fun _ => le_rfl]
      exact idx i has
    · rw [m.other same] at has
      rw [nodesBelow_congr m fun cpu => ?_]
      · exact h.level d i has
      · by_contra above
        have idle := runs d.2 (not_le.mp above)
        rw [← cpu] at idle
        rw [show (d.1, d.2) = d from rfl] at idle
        rw [idle] at has
        cases has
  · rw [count]
    by_cases same : cpu = c.1
    · rw [same, Function.update_self, nodesBelow_top runs', m.own, nodesBelow_congr m fun _ => le_rfl]
    · rw [Function.update_of_ne same, nodesBelow_congr m fun wrong => absurd wrong same]
      exact h.count cpu

/-- The step does not take or give back a node. -/
theorem NodeInv.kept (h : NodeInv s) (m : Moved s s' c l p w hold pub cl) (runs : Runs s c) (idx : p.idx = (s.phase c).idx)
    (count : s'.count = s.count)
    (fresh : ∀ d l i q, s'.phase d = .node l i q → q.fresh = true → s'.node (d.1, i) = ⟨none, false⟩) : NodeInv s' := by
  refine h.moved m runs (fun i has => h.level c i (idx ▸ has)) ?_ fresh
  rw [count, idx, ← nodesBelow_top runs, ← h.count, Function.update_eq_self]

/-- The nodes that are not in the queue of a lock stay as they are. -/
def Aside (s s' : State n Lock) (c : Ctx n) (l : Lock) : Prop :=
  ∀ d, d ≠ c → (s.phase d).idx ≠ none → ¬(s.phase d).Queued l → s'.node (nodeOf s d) = s.node (nodeOf s d)

theorem NodeInv.new (h : NodeInv s) (m : Moved s s' c l p w hold pub cl) (aside : Aside s s' c l)
    (mine : ∀ k i q, p = .node k i q → q.fresh = true → s'.node (c.1, i) = ⟨none, false⟩) (d : Ctx n) (k : Lock) (i : Nat)
    (q : QueuePhase) (at_ : s'.phase d = .node k i q) (fresh : q.fresh = true) : s'.node (d.1, i) = ⟨none, false⟩ := by
  by_cases same : d = c
  · rw [same, m.own] at at_
    rw [same]
    exact mine k i q at_ fresh
  · rw [m.other same] at at_
    have has : (s.phase d).idx = some i := by rw [at_]; rfl
    have kept := aside d same (by simp [has]) (by rw [at_]; grind [Phase.Queued])
    rw [nodeOf_eq has] at kept
    rw [kept]
    exact h.fresh d k i q at_ fresh

/-! ## The queue -/

section Queue

omit [DecidableEq Lock]

theorem Joined.idx (h : Joined s l a b) : (s.phase b).idx ≠ none := by
  obtain ⟨-, i, state⟩ := h
  rcases state with ⟨at_, -⟩ | ⟨at_, -⟩
  · simp [at_, Phase.idx]
  · simp [at_, Phase.idx]

theorem Joined.congr (h : Joined s l a b) (place : nodeOf s' a = nodeOf s a) (phase : s'.phase b = s.phase b)
    (next : (s'.node (nodeOf s a)).next = (s.node (nodeOf s a)).next)
    (locked : (s'.node (nodeOf s b)).locked = (s.node (nodeOf s b)).locked) : Joined s' l a b := by
  have own : nodeOf s' b = nodeOf s b := by rw [nodeOf, nodeOf, phase]
  rw [Joined, place, own, phase, next, locked]
  exact h

/-- A step that does not change the members of a queue. -/
structure Kept (s s' : State n Lock) (queue : List (Ctx n)) : Prop where
  phase : ∀ d ∈ queue, s'.phase d = s.phase d
  node : ∀ d ∈ queue, s'.node (nodeOf s d) = s.node (nodeOf s d)

namespace Kept

theorem place (h : Kept s s' queue) (member : d ∈ queue) : nodeOf s' d = nodeOf s d := by
  rw [nodeOf, nodeOf, h.phase d member]

theorem tailOf (h : Kept s s' queue) : tailOf s' queue = tailOf s queue := by
  rw [Qspinlock.tailOf, Qspinlock.tailOf]
  cases last : queue.getLast? with
  | none => rfl
  | some d => simp only [h.place (List.mem_of_getLast? last)]

theorem unclaimed (h : Kept s s' queue) : unclaimed s' queue = unclaimed s queue := by
  cases queue with
  | nil => rfl
  | cons d rest => rw [Qspinlock.unclaimed, Qspinlock.unclaimed, h.phase d List.mem_cons_self]

theorem front (h : Kept s s' queue) (member : d ∈ queue) (front : Front s l d) : Front s' l d := by
  rw [Front, h.phase d member, h.place member, h.node d member]
  exact front

theorem joined (h : Kept s s' queue) (joined : queue.IsChain (Joined s l)) : queue.IsChain (Joined s' l) :=
  joined.imp_of_mem_imp fun _ _ ha hb pair =>
    pair.congr (h.place ha) (h.phase _ hb) (by rw [h.node _ ha]) (by rw [h.node _ hb])

end Kept

variable (h : QueueInv s l queue)
include h

/-- A member that is not the first one has one in front of it. -/
theorem QueueInv.behind (member : c ∈ queue) (first : ∀ rest, queue ≠ c :: rest) :
    ∃ j a, ∃ lt : j + 1 < queue.length, queue[j] = a ∧ queue[j + 1] = c ∧ Joined s l a c := by
  obtain ⟨j, lt, at_⟩ := List.getElem_of_mem member
  cases j with
  | zero =>
      cases queue with
      | nil => cases member
      | cons d rest => exact absurd (congrArg (· :: rest) at_) (first rest)
  | succ j => exact ⟨j, _, lt, rfl, at_, at_ ▸ List.isChain_iff_getElem.mp h.joined j lt⟩

/-- A member that does not wait for the one in front of it is the first one. -/
theorem QueueInv.first (at_ : s.phase c = .node l i q) (queued : q.queued = true)
    (ahead : q.ahead = true ∨ q = .waitNode ∧ (s.node (nodeOf s c)).locked = true) :
    ∃ rest, queue = c :: rest ∧ q.Front (s.node (nodeOf s c)) := by
  by_cases first : ∃ rest, queue = c :: rest
  · obtain ⟨rest, first⟩ := first
    obtain ⟨j, r, phase, front⟩ := h.front c rest first
    rw [at_] at phase
    cases phase
    exact ⟨rest, first, front⟩
  · obtain ⟨j, a, lt, -, -, locked, i', state⟩ := h.behind ((h.mem c).mpr (by rw [at_]; exact ⟨rfl, queued⟩)) (not_exists.mp first)
    rw [at_] at state
    rcases ahead with ahead | ⟨rfl, told⟩
    · rcases state with ⟨wrong, -⟩ | ⟨wrong, -⟩ <;> cases wrong <;> cases ahead
    · rw [told] at locked
      cases locked

/-- A member that has not written itself to the node in front of it yet. -/
theorem QueueInv.linking (at_ : s.phase c = .node l i (.link prev)) :
    (∀ rest, queue ≠ c :: rest) ∧ ∃ j a, ∃ lt : j + 1 < queue.length, queue[j] = a ∧ queue[j + 1] = c ∧ nodeOf s a = prev ∧
      (s.node prev).next = none ∧ (s.node (nodeOf s c)).locked = false := by
  have later (rest : List (Ctx n)) : queue ≠ c :: rest := fun first => by
    obtain ⟨j, q, phase, front⟩ := h.front c rest first
    rw [at_] at phase
    cases phase
    exact front
  obtain ⟨j, a, lt, front, behind, locked, i', state⟩ := h.behind ((h.mem c).mpr (by rw [at_]; exact ⟨rfl, rfl⟩)) later
  rw [at_] at state
  obtain ⟨phase, none_⟩ := state.resolve_right fun wrong => by cases wrong.1
  cases phase
  exact ⟨later, j, a, lt, front, behind, rfl, none_, locked⟩

/-- The second member waits when it has written itself to the node of the first one. -/
theorem QueueInv.second (list : queue = c :: rest) (told : (s.node (nodeOf s c)).next = some prev) :
    ∃ b later j, rest = b :: later ∧ s.phase b = .node l j .waitNode ∧ nodeOf s b = prev := by
  subst list
  cases rest with
  | nil =>
      rw [h.last c rfl] at told
      cases told
  | cons b later =>
      obtain ⟨⟨locked, j, state⟩, -⟩ := List.isChain_cons_cons.mp h.joined
      obtain ⟨waits, back⟩ := state.resolve_left fun wrong => by
        rw [told] at wrong
        cases wrong.2
      exact ⟨b, later, j, rfl, waits, Option.some.inj (back.symm.trans told)⟩

/-- The tail names the last member. -/
theorem QueueInv.code (cpus : n < 2 ^ 14) (nodes : NodeInv s) (last : queue.getLast? = some c) :
    (s.word l).tail = encodeTail (nodeOf s c) ∧ decodeTail (s.word l).tail = nodeOf s c ∧ (s.word l).tail ≠ 0 := by
  have code : (s.word l).tail = encodeTail (nodeOf s c) := by rw [h.tail, tailOf, last]
  rw [code]
  exact ⟨rfl, nodes.code cpus ((h.mem c).mp (List.mem_of_getLast? last)).idx_ne⟩

theorem QueueInv.empty (cpus : n < 2 ^ 14) (nodes : NodeInv s) (tail : (s.word l).tail = 0) : queue = [] := by
  cases last : queue.getLast? with
  | none => exact List.getLast?_eq_none_iff.mp last
  | some d => exact absurd tail (h.code cpus nodes last).2.2

/-- The tail is the first member's: it is the only one. -/
theorem QueueInv.alone (cpus : n < 2 ^ 14) (nodes : NodeInv s) (list : queue = c :: rest)
    (tail : (s.word l).tail = encodeTail (nodeOf s c)) : rest = [] := by
  subst list
  cases last : rest.getLast? with
  | none => exact List.getLast?_eq_none_iff.mp last
  | some d =>
      have member := List.mem_of_getLast? last
      have has := ((h.mem c).mp List.mem_cons_self).idx_ne
      have code := h.code (c := d) cpus nodes (by rw [List.getLast?_cons, last]; rfl)
      rw [tail, (nodes.code cpus has).1] at code
      have same := nodes.nodeOf_inj has ((h.mem d).mp (List.mem_cons_of_mem _ member)).idx_ne code.2.1
      exact absurd (same ▸ member) (List.nodup_cons.mp h.nodup).1

/-- The steps of a context that is not in the queue. -/
theorem QueueInv.frame (phase : s'.phase = Function.update s.phase c p) (before : ¬(s.phase c).Queued l) (after : ¬p.Queued l)
    (tail : (s'.word l).tail = (s.word l).tail) (published : s'.published l = s.published l) (claimed : s'.claimed l = s.claimed l)
    (nodes : ∀ d, (s.phase d).Queued l → s'.node (nodeOf s d) = s.node (nodeOf s d))
    (destined : (s.phase c).Destined l → p.Destined l ∨ queue = []) : QueueInv s' l queue := by
  have other (d : Ctx n) (ne : d ≠ c) : s'.phase d = s.phase d := by rw [phase, Function.update_of_ne ne]
  have kept : Kept s s' queue := ⟨fun d member => other d (by rintro rfl; exact before ((h.mem d).mp member)),
    fun d member => nodes d ((h.mem d).mp member)⟩
  refine ⟨h.nodup, fun d => ?_, by rw [tail, h.tail, kept.tailOf], fun d rest list => ?_, kept.joined h.joined, fun d last => ?_,
    by rw [published, claimed, h.history, kept.unclaimed], fun d alone awaits => ?_⟩
  · rw [h.mem]
    by_cases same : d = c
    · rw [same, phase, Function.update_self]
      exact ⟨fun queued => absurd queued before, fun queued => absurd queued after⟩
    · rw [other d same]
  · exact kept.front (list ▸ List.mem_cons_self) (h.front d rest list)
  · have member := List.mem_of_getLast? last
    rw [kept.place member, kept.node d member]
    exact h.last d last
  · rw [kept.phase d (alone ▸ List.mem_cons_self)] at awaits
    obtain ⟨e, destined'⟩ := h.followed d alone awaits
    by_cases same : e = c
    · rw [same] at destined'
      refine ⟨c, ?_⟩
      rw [phase, Function.update_self]
      exact (destined destined').resolve_right (by rw [alone]; exact List.cons_ne_nil d [])
    · exact ⟨e, by rw [other e same]; exact destined'⟩

end Queue

/-- The first member goes on. -/
theorem QueueInv.advance (h : QueueInv s l (c :: rest)) (m : Moved s s' c l (.node l i q') w hold pub cl)
    (at_ : s.phase c = .node l i q) (node : s'.node = s.node) (tail : w.tail = (s.word l).tail) (queued : q'.queued = true)
    (front : q'.Front (s.node (nodeOf s c))) (history : pub = cl ++ if q'.claimed then rest else c :: rest)
    (awaits : q'.awaits = true → q.awaits = true ∨ rest ≠ [] ∨ ∃ d, (s.phase d).Pends l ∧ (s.phase d).Destined l) :
    QueueInv s' l (c :: rest) := by
  obtain ⟨out, nodup⟩ := List.nodup_cons.mp h.nodup
  have idx : (Phase.node l i q').idx = (s.phase c).idx := by rw [at_]; rfl
  have place := m.place idx
  refine ⟨h.nodup, m.mem h (by simp [Phase.Queued, queued]) fun _ _ => Iff.rfl, ?_, fun d rest' list => ?_, ?_, fun d last => ?_, ?_,
    fun d alone now => ?_⟩
  · rw [m.mine.1, tail, h.tail, tailOf, tailOf, place]
  · cases list
    exact ⟨i, q', m.own, by rw [place, node]; exact front⟩
  · refine h.joined.imp_of_mem_tail_imp fun a b _ behind pair => ?_
    exact pair.congr (by rw [place]) (m.other (by rintro rfl; exact out behind)) (by rw [node]) (by rw [node])
  · rw [place, node]
    exact h.last d last
  · rw [m.mine.2.2.1, m.mine.2.2.2, history, unclaimed, m.own]
    rfl
  · cases alone
    rw [m.own] at now
    have old (e : Ctx n) (destined : (s.phase e).Destined l) : (s'.phase e).Destined l := by
      rw [m.other]
      · exact destined
      · rintro rfl
        rw [at_] at destined
        have first := (h.mem e).mp List.mem_cons_self
        rw [at_] at first
        grind [Phase.Queued, Phase.Destined]
    rcases awaits now.2 with before | more | ⟨e, -, destined⟩
    · obtain ⟨e, destined⟩ := h.followed c rfl (by rw [at_]; exact ⟨rfl, before⟩)
      exact ⟨e, old e destined⟩
    · exact absurd rfl more
    · exact ⟨e, old e destined⟩

omit [DecidableEq Lock] in
theorem unclaimed_append (queue : List (Ctx n)) (new : (s.phase c).Claimed = false) :
    unclaimed s (queue ++ [c]) = unclaimed s queue ++ [c] := by
  cases queue with
  | nil => simp [unclaimed, new]
  | cons d rest =>
      rw [List.cons_append, unclaimed, unclaimed]
      split
      · rfl
      · rfl

/-- `xchg_tail`: the context becomes the last member. -/
theorem QueueInv.publish (h : QueueInv s l queue) (cpus : n < 2 ^ 14) (nodes : NodeInv s) (at_ : s.phase c = .node l i .xchgTail)
    (target : q = if (s.word l).tail = 0 then .headWait none else .link (decodeTail (s.word l).tail))
    (m : Moved s s' c l (.node l i q) w hold (s.published l ++ [c]) (s.claimed l)) (node : s'.node = s.node)
    (tail : w.tail = encodeTail (c.1, i)) : QueueInv s' l (queue ++ [c]) := by
  have new : c ∉ queue := by
    rw [h.mem, at_]
    exact fun queued => by cases queued.2
  have kept : Kept s s' queue := ⟨fun d member => m.other (by rintro rfl; exact new member), fun d _ => by rw [node]⟩
  have shape : q.queued = true ∧ q.claimed = false ∧ q.awaits = false := by
    rw [target]
    split
    · exact ⟨rfl, rfl, rfl⟩
    · exact ⟨rfl, rfl, rfl⟩
  have place := m.place (p := .node l i q) (by rw [at_]; rfl)
  have mine : nodeOf s c = (c.1.val, i) := nodeOf_eq (by rw [at_]; rfl)
  have fresh : s.node (nodeOf s c) = ⟨none, false⟩ := by rw [mine]; exact nodes.fresh c l i _ at_ rfl
  refine ⟨?_, m.mem h ?_ fun d ne => by simp [ne], ?_, fun d rest list => ?_, ?_, fun d last => ?_, ?_, fun d alone awaits => ?_⟩
  · exact h.nodup.append (List.nodup_singleton c) (by simpa using new)
  · simp [Phase.Queued, shape.1]
  · rw [m.mine.1, tail, tailOf, List.getLast?_concat]
    simp only [place, mine]
  · cases queue with
    | nil =>
        cases list
        rw [if_pos (show (s.word l).tail = 0 from h.tail)] at target
        exact ⟨i, q, m.own, by rw [target]; exact .inl rfl⟩
    | cons a members =>
        cases list
        exact kept.front List.mem_cons_self (h.front d members rfl)
  · refine (kept.joined h.joined).append (List.isChain_singleton c) fun a last b same => ?_
    -- the tail that was exchanged is the last member's
    obtain ⟨-, code, nonzero⟩ := h.code cpus nodes last
    rw [if_neg nonzero, code] at target
    rw [← Option.some.inj same]
    refine ⟨by rw [place, node, fresh], i, .inl ⟨by rw [m.own, target, place], ?_⟩⟩
    rw [place, node]
    exact h.last _ last
  · rw [List.getLast?_concat] at last
    cases last
    rw [place, node, fresh]
  · rw [m.mine.2.2.1, m.mine.2.2.2, h.history, unclaimed_append queue (by rw [m.own]; exact shape.2.1), List.append_assoc, kept.unclaimed]
  · have same : d = c := by
      have member : c ∈ [d] := alone ▸ List.mem_append_right queue List.mem_cons_self
      exact (List.mem_singleton.mp member).symm
    rw [same, m.own] at awaits
    simp [Phase.Awaits, shape.2.2] at awaits

/-- A member writes itself to the node of the one in front of it. -/
theorem QueueInv.linked (h : QueueInv s l queue) (nodes : NodeInv s) (at_ : s.phase c = .node l i (.link prev))
    (m : Moved s s' c l (.node l i .waitNode) (s.word l) hold (s.published l) (s.claimed l))
    (node : s'.node = Function.update s.node prev { s.node prev with next := some (nodeOf s c) }) :
    QueueInv s' l queue ∧ ∃ a, (s.phase a).Queued l ∧ nodeOf s a = prev := by
  have place := m.place (p := .node l i .waitNode) (by rw [at_]; rfl)
  have member : c ∈ queue := (h.mem c).mpr (by rw [at_]; exact ⟨rfl, rfl⟩)
  obtain ⟨later, j, a, lt, front, behind, rfl, none_, locked⟩ := h.linking at_
  have inside : a ∈ queue := front ▸ List.getElem_mem _
  have lock (k : Node) : (s'.node k).locked = (s.node k).locked := by
    rw [node]
    grind [Function.update_apply]
  have skip (d : Ctx n) (in_ : d ∈ queue) (ne : d ≠ a) : s'.node (nodeOf s d) = s.node (nodeOf s d) := by
    rw [node, Function.update_of_ne]
    exact fun same => ne (nodes.nodeOf_inj ((h.mem d).mp in_).idx_ne ((h.mem a).mp inside).idx_ne same)
  refine ⟨⟨h.nodup, m.mem h ⟨fun _ => ⟨rfl, rfl⟩, fun _ => member⟩ fun _ _ => Iff.rfl, ?_, fun d rest list => ?_, ?_, fun d last => ?_,
    ?_, fun d alone => ?_⟩, a, (h.mem a).mp inside, rfl⟩
  · rw [m.mine.1, h.tail, tailOf, tailOf, place]
  · obtain ⟨i', q, phase, known⟩ := h.front d rest list
    refine ⟨i', q, by rw [m.other (by rintro rfl; exact later rest list), phase], ?_⟩
    rw [place]
    by_cases same : d = a
    · -- what the first member knows of its node is that it has no successor
      rw [same] at known ⊢
      cases q with
      | headWait k | headCmpxchg k | setLocked k =>
          rw [QueuePhase.Front, none_, or_self] at known
          exact .inl known
      | handOver k =>
          rw [QueuePhase.Front, none_] at known
          cases known
      | waitNode => exact (lock _).trans known
      | _ => exact known
    · rw [skip d (list ▸ List.mem_cons_self) same]
      exact known
  · refine List.isChain_iff_getElem.mpr fun k lt' => ?_
    have pair := List.isChain_iff_getElem.mp h.joined k lt'
    by_cases same : k = j
    · subst same
      rw [front, behind]
      refine ⟨by rw [place, lock]; exact locked, i, .inr ⟨m.own, ?_⟩⟩
      rw [place, node, Function.update_self]
    · have other : queue[k] ≠ a := fun wrong => same ((List.Nodup.getElem_inj_iff h.nodup).mp (wrong.trans front.symm))
      refine pair.congr (by rw [place]) (m.other fun wrong => same ?_) (by rw [skip _ (List.getElem_mem _) other]) (lock _)
      have twice := (List.Nodup.getElem_inj_iff h.nodup).mp (wrong.trans behind.symm)
      omega
  · rw [place, skip d (List.mem_of_getLast? last)]
    · exact h.last d last
    · rintro rfl
      rw [List.getLast?_eq_getElem?, List.getElem?_eq_some_iff] at last
      obtain ⟨bound, same⟩ := last
      have twice := (List.Nodup.getElem_inj_iff h.nodup).mp (same.trans front.symm)
      omega
  · rw [m.mine.2.2.1, m.mine.2.2.2, h.history]
    cases queue with
    | nil => cases member
    | cons d rest => rw [unclaimed, unclaimed, m.other (by rintro rfl; exact later rest rfl)]
  · subst alone
    rw [List.length_singleton] at lt
    omega

/-- `arch_mcs_spin_unlock_contended`: the first member tells the next one, and leaves. -/
theorem QueueInv.handedOver {next : Node} (h : QueueInv s l (c :: rest)) (nodes : NodeInv s) (at_ : s.phase c = .node l i (.handOver next))
    (m : Moved s s' c l (.node l i .release) (s.word l) hold (s.published l) (s.claimed l)) (told : (s.node (nodeOf s c)).next = some next)
    (node : s'.node = Function.update s.node next { s.node next with locked := true }) :
    QueueInv s' l rest ∧ ∃ b j, s.phase b = .node l j .waitNode ∧ nodeOf s b = next := by
  have place := m.place (p := .node l i .release) (by rw [at_]; rfl)
  obtain ⟨out, nodup⟩ := List.nodup_cons.mp h.nodup
  obtain ⟨b, later, j, rfl, waits, rfl⟩ := h.second rfl told
  have joined := (List.isChain_cons_cons.mp h.joined).2
  have old (d : Ctx n) (in_ : d ∈ b :: later) : s'.phase d = s.phase d := m.other (by rintro rfl; exact out in_)
  have link (k : Node) : (s'.node k).next = (s.node k).next := by
    rw [node]
    grind [Function.update_apply]
  have waits' : s'.phase b = .node l j .waitNode := by rw [old b List.mem_cons_self, waits]
  refine ⟨⟨nodup, m.mem h ?_ fun d ne => by simp [ne], ?_, fun d rest' list => ?_, ?_, fun d last => ?_, ?_, fun d alone awaits => ?_⟩,
    b, j, waits, rfl⟩
  · exact ⟨fun in_ => absurd in_ out, fun queued => by cases queued.2⟩
  · rw [m.mine.1, h.tail, tailOf, tailOf, place, List.getLast?_cons_cons]
  · cases list
    refine ⟨j, .waitNode, waits', ?_⟩
    rw [place, node, Function.update_self]
    rfl
  · refine joined.imp_of_mem_tail_imp fun a d _ behind pair =>
      pair.congr (by rw [place]) (old d (List.mem_cons_of_mem _ behind)) (by rw [link]) ?_
    rw [node, Function.update_of_ne]
    intro wrong
    have twice := nodes.nodeOf_inj pair.idx (by simp [waits, Phase.idx]) wrong
    exact (List.nodup_cons.mp nodup).1 (twice ▸ behind)
  · rw [place, link]
    exact h.last d (by rw [List.getLast?_cons_cons]; exact last)
  · rw [m.mine.2.2.1, m.mine.2.2.2, h.history, unclaimed, unclaimed, waits', at_]
    rfl
  · cases alone
    rw [waits'] at awaits
    cases awaits.2

/-- `n,0,0 -> 0,0,1`: the only member takes the lock and leaves. -/
theorem QueueInv.left (h : QueueInv s l [c]) (at_ : s.phase c = .node l i (.headCmpxchg next))
    (m : Moved s s' c l (.node l i .release) w hold (s.published l) (s.claimed l ++ [c])) (tail : w.tail = 0) : QueueInv s' l [] := by
  refine ⟨List.nodup_nil, m.mem h ?_ fun d ne => by simp [ne], by rw [m.mine.1, tail]; rfl, fun d rest list => (by cases list), List.IsChain.nil,
    fun d last => (by cases last), ?_, fun d alone => (by cases alone)⟩
  · exact ⟨fun in_ => (by cases in_), fun queued => by cases queued.2⟩
  · rw [m.mine.2.2.1, m.mine.2.2.2, h.history]
    simp [unclaimed, at_, Phase.Claimed, QueuePhase.claimed]

end Miracle.Qspinlock
