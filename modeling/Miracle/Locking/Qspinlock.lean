import Mathlib.Data.Fintype.Prod
import Mathlib.Data.Fintype.Card
import Mathlib.Logic.Function.Basic
import Mathlib.Tactic

/-! # Queued spinlocks

`queued_spin_lock`, `queued_spin_trylock` and `queued_spin_unlock` with the slow path, as steps of
contexts that interleave.  A context is a nesting level of a cpu, and it steps only while the levels
above it are idle.  Each step is one access to the word of a lock or to a queue node.
-/

namespace Miracle.Qspinlock

/-- The contexts of a cpu: task, softirq, hardirq, nmi. -/
abbrev Ctx (n : Nat) := Fin n × Fin 4

/-- `&per_cpu(qnodes[idx], cpu)`, as `(cpu, idx)`. -/
abbrev Node := Nat × Nat

/-- The bytes of the lock word; `tail` is its upper half. -/
structure Word where
  locked : Bool
  pending : Bool
  tail : BitVec 16
  deriving DecidableEq

namespace Word

/-- The lock word is 0. -/
def zero : Word := ⟨false, false, 0⟩

/-- `_Q_LOCKED_VAL`. -/
def lockedVal : Word := ⟨true, false, 0⟩

/-- `_Q_PENDING_VAL`. -/
def pendingVal : Word := ⟨false, true, 0⟩

/-- The word as a `u32`. -/
def val (w : Word) : Nat := w.tail.toNat * 2 ^ 16 + w.pending.toNat * 2 ^ 8 + w.locked.toNat

/-- `val & ~_Q_LOCKED_MASK`. -/
def contended (w : Word) : Bool := w.pending || w.tail != 0

/-- `!(val & _Q_LOCKED_PENDING_MASK)`. -/
def clear (w : Word) : Bool := !w.locked && !w.pending

end Word

/-- `struct mcs_spinlock`; the count of the first node of a cpu is `State.count`. -/
structure McsSpinlock where
  next : Option Node
  locked : Bool

/-- The upper half of what `encode_tail` returns. -/
def encodeTail (k : Node) : BitVec 16 := BitVec.ofNat 16 (k.1 + 1) <<< 2 ||| BitVec.ofNat 16 k.2

def decodeTail (tail : BitVec 16) : Node := ((tail >>> 2).toNat - 1, (tail &&& 3).toNat)

/-- The slow path from the label `queue` on, with the local variables that are still needed. -/
inductive QueuePhase where
  | init
  -- queued_spin_trylock
  | tryRead
  | tryCmpxchg
  | xchgTail
  -- a member of the queue
  | link (prev : Node)
  | waitNode
  | readNext
  | headWait (next : Option Node)
  | headCmpxchg (next : Option Node)
  | setLocked (next : Option Node)
  | waitNext
  | handOver (next : Node)
  | release
  deriving DecidableEq

/-- What a context is about to do. -/
inductive Phase (Lock : Type) where
  | idle
  -- queued_spin_trylock
  | tryCmpxchg (lock : Lock)
  -- queued_spin_lock_slowpath
  | waitHandover (lock : Lock) (cnt : Nat)
  | setPending (lock : Lock)
  | undoPending (lock : Lock)
  | waitLocked (lock : Lock)
  | claimPending (lock : Lock)
  | grabNode (lock : Lock)
  | node (lock : Lock) (idx : Nat) (at_ : QueuePhase)
  deriving DecidableEq

/-- The calls of a context that is not in one. -/
inductive Call (Lock : Type) where
  | lock (l : Lock)
  | trylock (l : Lock)
  | unlock (l : Lock)
  | access

variable {n : Nat} {Lock : Type}

/-- `holds` are the locks that a context has got and not released.  `published` and `claimed` are
    histories: who exchanged the tail of a lock and who got it from the queue, in this order. -/
structure State (n : Nat) (Lock : Type) where
  word : Lock → Word
  node : Node → McsSpinlock
  count : Fin n → Nat
  phase : Ctx n → Phase Lock
  holds : Lock → Ctx n → Bool
  published : Lock → List (Ctx n)
  claimed : Lock → List (Ctx n)

def State.init : State n Lock where
  word := fun _ => .zero
  node := fun _ => ⟨none, false⟩
  count := fun _ => 0
  phase := fun _ => .idle
  holds := fun _ _ => false
  published := fun _ => []
  claimed := fun _ => []

variable [DecidableEq Lock]

namespace State

def goto (s : State n Lock) (c : Ctx n) (p : Phase Lock) : State n Lock :=
  { s with phase := Function.update s.phase c p }

def setWord (s : State n Lock) (l : Lock) (w : Word) : State n Lock :=
  { s with word := Function.update s.word l w }

def setNode (s : State n Lock) (k : Node) (v : McsSpinlock) : State n Lock :=
  { s with node := Function.update s.node k v }

/-- The context has got the lock, or releases it. -/
def hold (s : State n Lock) (l : Lock) (c : Ctx n) (b : Bool) : State n Lock :=
  { s with holds := Function.update s.holds l (Function.update (s.holds l) c b) }

/-- The context writes a word that gives it the lock. -/
def acquire (s : State n Lock) (l : Lock) (w : Word) (c : Ctx n) (p : Phase Lock) : State n Lock :=
  ((s.setWord l w).hold l c true).goto c p

def publish (s : State n Lock) (l : Lock) (c : Ctx n) : State n Lock :=
  { s with published := Function.update s.published l (s.published l ++ [c]) }

def claim (s : State n Lock) (l : Lock) (c : Ctx n) : State n Lock :=
  { s with claimed := Function.update s.claimed l (s.claimed l ++ [c]) }

end State

/-- `atomic_cmpxchg(&lock->val, 0, _Q_LOCKED_VAL)`. -/
def cmpxchgZero (s : State n Lock) (l : Lock) (c : Ctx n) (taken failed : Phase Lock) : State n Lock :=
  if s.word l = .zero then s.acquire l .lockedVal c taken else s.goto c failed

/-- `if (val & ~_Q_LOCKED_MASK) goto queue`. -/
def contend (l : Lock) (val : Word) : Phase Lock := if val.contended then .grabNode l else .setPending l

/-- `_Q_PENDING_LOOPS`. -/
def pendingLoops : Nat := 1

def slowpath (l : Lock) (val : Word) : Phase Lock :=
  if val = .pendingVal then .waitHandover l pendingLoops else contend l val

/-- The steps of a context that has a queue node. -/
def queueStep (s : State n Lock) (c : Ctx n) (l : Lock) (idx : Nat) : QueuePhase → Option (State n Lock)
  | .init => some ((s.setNode (c.1, idx) ⟨none, false⟩).goto c (.node l idx .tryRead))
  | .tryRead => some (s.goto c (.node l idx (if s.word l = .zero then .tryCmpxchg else .xchgTail)))
  | .tryCmpxchg => some (cmpxchgZero s l c (.node l idx .release) (.node l idx .xchgTail))
  | .xchgTail =>
    let old := (s.word l).tail
    let s := (s.setWord l { s.word l with tail := encodeTail (c.1, idx) }).publish l c
    some (s.goto c (.node l idx (if old = 0 then .headWait none else .link (decodeTail old))))
  | .link prev =>
    some ((s.setNode prev { s.node prev with next := some (c.1, idx) }).goto c (.node l idx .waitNode))
  -- arch_mcs_spin_lock_contended
  | .waitNode => if (s.node (c.1, idx)).locked then some (s.goto c (.node l idx .readNext)) else none
  | .readNext => some (s.goto c (.node l idx (.headWait (s.node (c.1, idx)).next)))
  | .headWait next =>
    if (s.word l).clear then
      some (s.goto c (.node l idx (if (s.word l).tail = encodeTail (c.1, idx) then .headCmpxchg next else .setLocked next)))
    else none
  -- the old value is the word that `headWait` saw
  | .headCmpxchg next =>
    if s.word l = ⟨false, false, encodeTail (c.1, idx)⟩ then
      some ((s.claim l c).acquire l .lockedVal c (.node l idx .release))
    else some (s.goto c (.node l idx (.setLocked next)))
  | .setLocked next =>
    some ((s.claim l c).acquire l { s.word l with locked := true } c
      (.node l idx (match next with | none => .waitNext | some k => .handOver k)))
  | .waitNext =>
    match (s.node (c.1, idx)).next with
    | none => none
    | some k => some (s.goto c (.node l idx (.handOver k)))
  -- arch_mcs_spin_unlock_contended
  | .handOver k => some ((s.setNode k { s.node k with locked := true }).goto c (.node l idx .release))
  | .release => some ({ s with count := Function.update s.count c.1 (s.count c.1 - 1) }.goto c .idle)

/-- The next access of a call; a spinning context steps when it sees the value it waits for. -/
def access (s : State n Lock) (c : Ctx n) : Option (State n Lock) :=
  match s.phase c with
  | .idle => none
  | .tryCmpxchg l => some (cmpxchgZero s l c .idle .idle)
  | .waitHandover l cnt =>
    let val := s.word l
    some (s.goto c (if val ≠ .pendingVal ∨ cnt = 0 then contend l val else .waitHandover l (cnt - 1)))
  -- queued_fetch_set_pending_acquire
  | .setPending l =>
    let val := s.word l
    let s := s.setWord l { val with pending := true }
    some (s.goto c (if val.contended then (if val.pending then .grabNode l else .undoPending l)
      else if val.locked then .waitLocked l else .claimPending l))
  -- clear_pending
  | .undoPending l => some ((s.setWord l { s.word l with pending := false }).goto c (.grabNode l))
  | .waitLocked l => if (s.word l).locked then none else some (s.goto c (.claimPending l))
  -- clear_pending_set_locked
  | .claimPending l => some (s.acquire l { s.word l with locked := true, pending := false } c .idle)
  -- node->count++
  | .grabNode l =>
    some ({ s with count := Function.update s.count c.1 (s.count c.1 + 1) }.goto c (.node l (s.count c.1) .init))
  | .node l idx at_ => queueStep s c l idx at_

/-- A call: its first access to the word, or the next access of the call that the context is in. -/
def call (s : State n Lock) (c : Ctx n) : Call Lock → Option (State n Lock)
  | .lock l => if s.phase c = .idle then some (cmpxchgZero s l c .idle (slowpath l (s.word l))) else none
  | .trylock l =>
    if s.phase c = .idle then some (if s.word l = .zero then s.goto c (.tryCmpxchg l) else s) else none
  | .unlock l =>
    if s.phase c = .idle ∧ s.holds l c then some ((s.setWord l { s.word l with locked := false }).hold l c false)
    else none
  | .access => access s c

/-- The levels above the context are idle. -/
def Runs (s : State n Lock) (c : Ctx n) : Prop := ∀ k, c.2 < k → s.phase (c.1, k) = .idle

instance (s : State n Lock) (c : Ctx n) : Decidable (Runs s c) := inferInstanceAs (Decidable (∀ _, _))

def step (s : State n Lock) (c : Ctx n) (a : Call Lock) : Option (State n Lock) :=
  if Runs s c then call s c a else none

inductive Reachable : State n Lock → Prop where
  | init : Reachable .init
  | step {s s' : State n Lock} {c : Ctx n} {a : Call Lock} : Reachable s → Qspinlock.step s c a = some s' → Reachable s'

/-! ## The lock word -/

theorem tail_eq_zero {tail : BitVec 16} : tail = 0 ↔ tail.toNat = 0 := BitVec.toNat_inj.symm

theorem val_eq_zero {w : Word} : w.val = 0 ↔ w = .zero := by
  obtain ⟨locked, pending, tail⟩ := w
  simp only [Word.val, Word.zero, Word.mk.injEq, ← Bool.toNat_eq_zero, tail_eq_zero]
  omega

/-- Only the bits above the locked byte are looked at. -/
theorem contended_iff {w : Word} : w.contended = true ↔ w.val / 2 ^ 8 ≠ 0 := by
  have locked := w.locked.toNat_lt
  have pending := w.pending.toNat_lt
  simp only [Word.contended, Word.val, Bool.or_eq_true, bne_iff_ne, ne_eq, tail_eq_zero]
  rw [← Bool.toNat_eq_one]
  omega

theorem clear_iff {w : Word} : w.clear = true ↔ w.val % 2 ^ 16 = 0 := by
  have locked := w.locked.toNat_lt
  have pending := w.pending.toNat_lt
  simp only [Word.clear, Word.val, Bool.and_eq_true, Bool.not_eq_true', ← Bool.toNat_eq_zero]
  omega

/-! ## The tail -/

theorem toNat_encodeTail {k : Node} (cpu : k.1 + 1 < 2 ^ 14) (idx : k.2 < 4) : (encodeTail k).toNat = (k.1 + 1) * 4 + k.2 := by
  rw [encodeTail, BitVec.toNat_or, BitVec.toNat_shiftLeft, BitVec.toNat_ofNat, BitVec.toNat_ofNat,
    Nat.mod_eq_of_lt (show k.1 + 1 < 2 ^ 16 by omega), Nat.mod_eq_of_lt (show k.2 < 2 ^ 16 by omega), Nat.shiftLeft_eq,
    Nat.mod_eq_of_lt (show (k.1 + 1) * 2 ^ 2 < 2 ^ 16 by omega), ← Nat.shiftLeft_eq,
    ← Nat.shiftLeft_add_eq_or_of_lt (by omega), Nat.shiftLeft_eq]

theorem decode_encode {k : Node} (cpu : k.1 + 1 < 2 ^ 14) (idx : k.2 < 4) : decodeTail (encodeTail k) = k := by
  have code := toNat_encodeTail cpu idx
  have high : (encodeTail k >>> 2).toNat = k.1 + 1 := by
    rw [BitVec.toNat_ushiftRight, code, Nat.shiftRight_eq_div_pow]
    omega
  have low : (encodeTail k &&& 3).toNat = k.2 := by
    rw [BitVec.toNat_and, code]
    change ((k.1 + 1) * 4 + k.2) &&& (2 ^ 2 - 1) = k.2
    rw [Nat.and_two_pow_sub_one_eq_mod]
    omega
  rw [decodeTail, high, low]
  rfl

theorem encode_ne_zero {k : Node} (cpu : k.1 + 1 < 2 ^ 14) (idx : k.2 < 4) : encodeTail k ≠ 0 := by
  intro h
  have code := toNat_encodeTail cpu idx
  rw [h] at code
  change 0 = _ at code
  omega

end Miracle.Qspinlock
