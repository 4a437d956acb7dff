import Miracle.Lib.Census

/-! # Queued read-write locks

`queued_read_trylock`, `queued_read_lock`, `queued_write_trylock` and `queued_write_lock`
with their slow paths, as steps of contexts that interleave.  A context is in a phase
between two accesses to the lock word, and each step is one atomic access.  The lock
word counts readers from bit 9 on, bit 8 says that a writer waits and the low byte that a
writer holds the lock.  `wait_lock` is a mutual-exclusion lock.
-/

namespace Miracle.QrwLock

/-- `_QW_WAITING`. -/
def qwWaiting : BitVec 32 := 0x100

/-- `_QW_LOCKED`. -/
def qwLocked : BitVec 32 := 0x0ff

/-- `_QW_WMASK`. -/
def qwWmask : BitVec 32 := 0x1ff

/-- `_QR_BIAS`. -/
def qrBias : BitVec 32 := 1 <<< 9

/-- What a context is about to do. -/
inductive Phase where
  | idle
  -- queued_read_trylock
  | readTryAdd
  | readTryUndo
  -- queued_read_lock_slowpath
  | readSlow
  | readWaitLock
  | readAdd
  | readSpin
  | readWaitUnlock
  -- the reader holds the lock
  | reading
  -- queued_write_trylock
  | writeTryCmpxchg
  -- queued_write_lock_slowpath
  | writeWaitLock
  | writeRead
  | writeCmpxchg
  | writeAdd
  | writeSpin
  | writeClaim
  | writeWaitUnlock
  -- the writer holds the lock
  | writing
  deriving DecidableEq, Repr

/-- The calls that a context without the lock can make. -/
inductive Call where
  | readTrylock
  | readLock
  | writeTrylock
  | writeLock
  deriving DecidableEq, Repr

variable {τ : Type}

structure State (τ : Type) where
  cnts : BitVec 32
  waitLock : Option τ
  phase : τ → Phase

def State.init : State τ := { cnts := 0, waitLock := none, phase := fun _ => .idle }

variable [DecidableEq τ]

def State.goto (s : State τ) (c : τ) (p : Phase) : State τ :=
  { s with phase := Function.update s.phase c p }

/-- `atomic_add_return_acquire(_QR_BIAS, &lock->cnts)` and the test of the new value. -/
def addBias (s : State τ) (c : τ) (blocked : Phase) : State τ :=
  let cnts := s.cnts + qrBias
  let s := { s with cnts := cnts }
  if cnts &&& qwWmask = 0 then s.goto c .reading else s.goto c blocked

def subBias (s : State τ) (c : τ) (next : Phase) : State τ :=
  { s with cnts := s.cnts - qrBias }.goto c next

/-- `atomic_cmpxchg(&lock->cnts, old, _QW_LOCKED)`. -/
def claim (s : State τ) (c : τ) (old : BitVec 32) (taken failed : Phase) : State τ :=
  if s.cnts = old then { s with cnts := qwLocked }.goto c taken else s.goto c failed

/-- The step of a call: its first access to the lock word. -/
def begin (s : State τ) (c : τ) : Call → State τ
  | .readTrylock => if s.cnts &&& qwWmask = 0 then s.goto c .readTryAdd else s
  | .readLock => addBias s c .readSlow
  | .writeTrylock => if s.cnts ≠ 0 then s else s.goto c .writeTryCmpxchg
  | .writeLock => claim s c 0 .writing .writeWaitLock

/-- `arch_spin_lock(&lock->wait_lock)`, a step only when the lock is free. -/
def waitLockStep (s : State τ) (c : τ) (next : Phase) : Option (State τ) :=
  if s.waitLock = none then some ({ s with waitLock := some c }.goto c next) else none

/-- The next step of the context; a context that holds the lock releases it.  A spinning
    context steps when it sees the value it waits for. -/
def step (irq : τ → Bool) (s : State τ) (c : τ) (call : Call) : Option (State τ) :=
  match s.phase c with
  | .idle => some (begin s c call)
  | .readTryAdd => some (addBias s c .readTryUndo)
  | .readTryUndo => some (subBias s c .idle)
  | .readSlow =>
      if irq c then
        if s.cnts &&& qwLocked = 0 then some (s.goto c .reading) else none
      else some (subBias s c .readWaitLock)
  | .readWaitLock => waitLockStep s c .readAdd
  | .readAdd => some ({ s with cnts := s.cnts + qrBias }.goto c .readSpin)
  | .readSpin => if s.cnts &&& qwLocked = 0 then some (s.goto c .readWaitUnlock) else none
  | .readWaitUnlock => some ({ s with waitLock := none }.goto c .reading)
  | .reading => some (subBias s c .idle)
  | .writeTryCmpxchg => some (claim s c 0 .writing .idle)
  | .writeWaitLock => waitLockStep s c .writeRead
  | .writeRead => some (s.goto c (if s.cnts = 0 then .writeCmpxchg else .writeAdd))
  | .writeCmpxchg => some (claim s c 0 .writeWaitUnlock .writeAdd)
  | .writeAdd => some ({ s with cnts := s.cnts + qwWaiting }.goto c .writeSpin)
  | .writeSpin => if s.cnts = qwWaiting then some (s.goto c .writeClaim) else none
  | .writeClaim => some (claim s c qwWaiting .writeWaitUnlock .writeSpin)
  | .writeWaitUnlock => some ({ s with waitLock := none }.goto c .writing)
  -- smp_store_release(&lock->wlocked, 0)
  | .writing => some ({ s with cnts := s.cnts &&& ~~~qwLocked }.goto c .idle)

namespace Phase

/-- The reader has the lock. -/
def reads : Phase → Bool
  | reading | readWaitUnlock => true
  | _ => false

/-- The reader has added its bias and not got the lock. -/
def inFlight : Phase → Bool
  | readTryUndo | readSlow | readSpin => true
  | _ => false

/-- The writer has the lock. -/
def writes : Phase → Bool
  | writing | writeWaitUnlock => true
  | _ => false

/-- The writer has set the waiting flag. -/
def waits : Phase → Bool
  | writeSpin | writeClaim => true
  | _ => false

/-- The context holds `wait_lock`. -/
def ownsWaitLock : Phase → Bool
  | readAdd | readSpin | readWaitUnlock | writeRead | writeCmpxchg | writeAdd | writeSpin | writeClaim
  | writeWaitUnlock => true
  | _ => false

/-- The context is in one of the two slow paths. -/
def inSlowPath : Phase → Bool
  | readSlow | readWaitLock | readAdd | readSpin | readWaitUnlock | writeWaitLock | writeRead
  | writeCmpxchg | writeAdd | writeSpin | writeClaim | writeWaitUnlock => true
  | _ => false

/-- What the context has added to the lock word. -/
def weight (p : Phase) : Nat :=
  512 * indicator reads p + 512 * indicator inFlight p + 256 * indicator waits p +
    255 * indicator writes p

end Phase

variable [Fintype τ]

/-- The readers that have added their bias. -/
def State.readers (s : State τ) : Nat :=
  census (indicator Phase.reads) s.phase + census (indicator Phase.inFlight) s.phase

/-- The states that are reached with fewer than 2^23 readers at a time. -/
inductive Reachable (irq : τ → Bool) : State τ → Prop where
  | init : Reachable irq .init
  | step {s s' : State τ} {c : τ} {call : Call} : Reachable irq s → step irq s c call = some s' →
      s'.readers < 2 ^ 23 → Reachable irq s'

/-! ## The invariant -/

structure Inv (s : State τ) : Prop where
  value : s.cnts.toNat = census Phase.weight s.phase
  readers : s.readers < 2 ^ 23
  owner : ∀ c, (s.phase c).ownsWaitLock = true ↔ s.waitLock = some c
  writer : census (indicator Phase.writes) s.phase ≤ 1
  exclusive : census (indicator Phase.writes) s.phase = 0 ∨ census (indicator Phase.reads) s.phase = 0

/-! ## Reading the lock word -/

theorem and_qwWmask (cnts : BitVec 32) : cnts &&& qwWmask = 0 ↔ cnts.toNat % 512 = 0 := by
  have low : (cnts &&& qwWmask).toNat = cnts.toNat % 512 := by
    rw [BitVec.toNat_and]
    exact Nat.and_two_pow_sub_one_eq_mod cnts.toNat 9
  rw [← low]
  exact (BitVec.toNat_inj (y := 0)).symm

theorem toNat_and_qwLocked (cnts : BitVec 32) : (cnts &&& qwLocked).toNat = cnts.toNat % 256 := by
  rw [BitVec.toNat_and]
  exact Nat.and_two_pow_sub_one_eq_mod cnts.toNat 8

theorem and_qwLocked (cnts : BitVec 32) : cnts &&& qwLocked = 0 ↔ cnts.toNat % 256 = 0 := by
  rw [← toNat_and_qwLocked]
  exact (BitVec.toNat_inj (y := 0)).symm

/-- Storing zero to the low byte. -/
theorem toNat_clear_locked (cnts : BitVec 32) :
    (cnts &&& ~~~qwLocked).toNat + cnts.toNat % 256 = cnts.toNat := by
  have parts : (cnts &&& ~~~qwLocked) + (cnts &&& qwLocked) = cnts := by
    rw [BitVec.add_eq_or_of_and_eq_zero]
    · ext i hi
      cases low : qwLocked[i] <;> simp [low]
    · ext i hi
      cases low : qwLocked[i] <;> simp [low]
  have sum := congrArg BitVec.toNat parts
  rw [BitVec.toNat_add, toNat_and_qwLocked] at sum
  have small := (cnts &&& ~~~qwLocked).isLt
  have le : (cnts &&& ~~~qwLocked).toNat ≤ cnts.toNat := by
    rw [BitVec.toNat_and]
    exact Nat.and_le_left
  have whole := cnts.isLt
  omega

omit [DecidableEq τ] in
theorem census_le_one {p : Phase → Bool} {phase : τ → Phase}
    (unique : ∀ c d, p (phase c) = true → p (phase d) = true → c = d) :
    census (indicator p) phase ≤ 1 := by
  rw [census_indicator_eq_card, Finset.card_le_one]
  intro c hc d hd
  exact unique c d (Finset.mem_filter.mp hc).2 (Finset.mem_filter.mp hd).2

theorem waits_owns {p : Phase} (waits : p.waits = true) : p.ownsWaitLock = true := by
  cases p <;> first | rfl | cases waits

theorem waits_slow {p : Phase} (waits : p.waits = true) : p.inSlowPath = true := by
  cases p <;> first | rfl | cases waits

section

variable {s : State τ} (h : Inv s)

include h

omit [DecidableEq τ] in
/-- The lock word in terms of what the contexts do. -/
theorem Inv.toNat_cnts : s.cnts.toNat = 512 * s.readers + 256 * census (indicator Phase.waits) s.phase +
    255 * census (indicator Phase.writes) s.phase := by
  rw [h.value, State.readers]
  unfold Phase.weight
  simp only [census_add, census_mul]
  omega

omit [DecidableEq τ] in
theorem Inv.owner_unique {c d : τ} (first : (s.phase c).ownsWaitLock = true)
    (second : (s.phase d).ownsWaitLock = true) : c = d := by
  have hc := (h.owner c).mp first
  have hd := (h.owner d).mp second
  rw [hc] at hd
  exact Option.some.inj hd

omit [DecidableEq τ] in
theorem Inv.waits_le_one : census (indicator Phase.waits) s.phase ≤ 1 :=
  census_le_one (fun _ _ first second => h.owner_unique (waits_owns first) (waits_owns second))

omit [DecidableEq τ] in
theorem Inv.no_writer_iff : s.cnts &&& qwLocked = 0 ↔ census (indicator Phase.writes) s.phase = 0 := by
  have value := h.toNat_cnts
  have writer := h.writer
  rw [and_qwLocked]
  omega

omit [DecidableEq τ] in
theorem Inv.free_iff : s.cnts = 0 ↔ s.readers = 0 ∧ census (indicator Phase.waits) s.phase = 0 ∧
    census (indicator Phase.writes) s.phase = 0 := by
  have value := h.toNat_cnts
  have zero : s.cnts = 0 ↔ s.cnts.toNat = 0 := (BitVec.toNat_inj (y := 0)).symm
  rw [zero]
  omega

omit [DecidableEq τ] in
theorem Inv.only_waiting_iff : s.cnts = qwWaiting ↔ s.readers = 0 ∧
    census (indicator Phase.waits) s.phase = 1 ∧ census (indicator Phase.writes) s.phase = 0 := by
  have value := h.toNat_cnts
  have writer := h.writer
  have waiter := h.waits_le_one
  have same : s.cnts = qwWaiting ↔ s.cnts.toNat = 256 := (BitVec.toNat_inj (y := qwWaiting)).symm
  rw [same]
  omega

/-- A context `c` moves from one phase to the next: the lock word changes by the difference of
    the weights, and who gets the lock finds nobody in the way. -/
theorem Inv.move {c : τ} {p q : Phase} (at_ : s.phase c = p) {cnts : BitVec 32} {waitLock : Option τ}
    (value : cnts.toNat + p.weight = s.cnts.toNat + q.weight)
    (readers : (State.goto ⟨cnts, waitLock, s.phase⟩ c q).readers < 2 ^ 23)
    (owner : (q.ownsWaitLock = p.ownsWaitLock ∧ waitLock = s.waitLock) ∨
      (q.ownsWaitLock = true ∧ s.waitLock = none ∧ waitLock = some c) ∨
      (p.ownsWaitLock = true ∧ q.ownsWaitLock = false ∧ waitLock = none))
    (writer : q.writes = true → p.writes = true ∨
      (census (indicator Phase.writes) s.phase = 0 ∧ s.readers = 0))
    (reader : q.reads = true → p.reads = true ∨ census (indicator Phase.writes) s.phase = 0) :
    Inv (State.goto ⟨cnts, waitLock, s.phase⟩ c q) := by
  have writes := census_update (indicator Phase.writes) s.phase c q
  have reads := census_update (indicator Phase.reads) s.phase c q
  have weights := census_update Phase.weight s.phase c q
  have mine := le_census (indicator Phase.writes) s.phase c
  have mine' := le_census (indicator Phase.reads) s.phase c
  rw [at_] at writes reads weights mine mine'
  have one := h.writer
  have exclusive := h.exclusive
  have few : census (indicator Phase.reads) s.phase ≤ s.readers := Nat.le_add_right _ _
  refine ⟨?_, readers, fun d => ?_, ?_, ?_⟩
  · have before := h.value
    simp only [State.goto]
    omega
  · simp only [State.goto]
    by_cases same : d = c
    · subst same
      rw [Function.update_self]
      have old := h.owner d
      rw [at_] at old
      rcases owner with ⟨owns, lock⟩ | ⟨owns, -, lock⟩ | ⟨-, owns, lock⟩
      · rw [owns, lock]
        exact old
      · rw [owns, lock]
        simp
      · rw [owns, lock]
        simp
    · rw [Function.update_of_ne same]
      have old := h.owner d
      rcases owner with ⟨-, lock⟩ | ⟨-, free, lock⟩ | ⟨owned, -, lock⟩
      · rw [lock]
        exact old
      · rw [free] at old
        rw [lock, old]
        simp [Ne.symm same]
      · have held := (h.owner c).mp (at_ ▸ owned)
        rw [held] at old
        rw [lock, old]
        simp [Ne.symm same]
  · simp only [State.goto]
    cases taking : q.writes with
    | false =>
        rw [indicator_of_not taking] at writes
        omega
    | true =>
        rw [indicator_of taking] at writes
        rcases writer taking with held | ⟨none, -⟩
        · rw [indicator_of held] at writes
          omega
        · omega
  · simp only [State.goto]
    cases taking : q.writes with
    | true =>
        have silent : q.reads = false := by
          cases q <;> first | rfl | cases taking
        rw [indicator_of taking] at writes
        rw [indicator_of_not silent] at reads
        rcases writer taking with held | ⟨none, nobody⟩
        · rw [indicator_of held] at writes mine
          omega
        · omega
    | false =>
        rw [indicator_of_not taking] at writes
        cases getting : q.reads with
        | false =>
            rw [indicator_of_not getting] at reads
            omega
        | true =>
            rw [indicator_of getting] at reads
            rcases reader getting with held | none
            · rw [indicator_of held] at reads mine'
              omega
            · omega

omit h in
theorem readers_goto {c : τ} {p q : Phase} (at_ : s.phase c = p) (cnts : BitVec 32) (waitLock : Option τ) :
    (State.goto ⟨cnts, waitLock, s.phase⟩ c q).readers + (indicator Phase.reads p + indicator Phase.inFlight p) =
      s.readers + (indicator Phase.reads q + indicator Phase.inFlight q) := by
  have reads := census_update (indicator Phase.reads) s.phase c q
  have flight := census_update (indicator Phase.inFlight) s.phase c q
  rw [at_] at reads flight
  simp only [State.readers, State.goto]
  omega

/-- A phase without the bias adds it. -/
theorem Inv.addBias {c : τ} {p q : Phase} (at_ : s.phase c = p) (before : p.weight = 0)
    (after : q.weight = 512) (mine : indicator Phase.reads q + indicator Phase.inFlight q = 1)
    (readers : (State.goto ⟨s.cnts + qrBias, s.waitLock, s.phase⟩ c q).readers < 2 ^ 23)
    (owner : q.ownsWaitLock = p.ownsWaitLock)
    (reader : q.reads = true → census (indicator Phase.writes) s.phase = 0) (silent : q.writes = false) :
    Inv (State.goto ⟨s.cnts + qrBias, s.waitLock, s.phase⟩ c q) := by
  have value := h.toNat_cnts
  have writer := h.writer
  have waiter := h.waits_le_one
  have count := @readers_goto τ _ _ s c p q at_ (s.cnts + qrBias) s.waitLock
  have bias : qrBias.toNat = 512 := rfl
  have sum : (s.cnts + qrBias).toNat = s.cnts.toNat + 512 := by
    rw [BitVec.toNat_add, bias]
    have none : indicator Phase.reads p + indicator Phase.inFlight p = 0 := by
      unfold Phase.weight at before
      omega
    exact Nat.mod_eq_of_lt (by omega)
  exact h.move at_ (by omega) readers (.inl ⟨owner, rfl⟩) (by simp [silent]) (fun get => .inr (reader get))

/-- A phase with the bias takes it back. -/
theorem Inv.subBias {c : τ} {p q : Phase} (at_ : s.phase c = p) (before : p.weight = 512)
    (after : q.weight = 0) (readers : (State.goto ⟨s.cnts - qrBias, s.waitLock, s.phase⟩ c q).readers < 2 ^ 23)
    (owner : q.ownsWaitLock = p.ownsWaitLock) (silent : q.writes = false ∧ q.reads = false) :
    Inv (State.goto ⟨s.cnts - qrBias, s.waitLock, s.phase⟩ c q) := by
  have large := le_census Phase.weight s.phase c
  rw [at_, before, ← h.value] at large
  have bias : qrBias.toNat = 512 := rfl
  have diff : (s.cnts - qrBias).toNat = s.cnts.toNat - 512 := by
    rw [BitVec.toNat_sub_of_le (by rw [BitVec.le_def, bias]; exact large), bias]
  exact h.move at_ (by omega) readers (.inl ⟨owner, rfl⟩) (by simp [silent.1]) (by simp [silent.2])

/-- A phase of the same weight that gets no lock. -/
theorem Inv.pass {c : τ} {p q : Phase} (at_ : s.phase c = p) {waitLock : Option τ}
    (same : q.weight = p.weight) (readers : (State.goto ⟨s.cnts, waitLock, s.phase⟩ c q).readers < 2 ^ 23)
    (owner : (q.ownsWaitLock = p.ownsWaitLock ∧ waitLock = s.waitLock) ∨
      (q.ownsWaitLock = true ∧ s.waitLock = none ∧ waitLock = some c) ∨
      (p.ownsWaitLock = true ∧ q.ownsWaitLock = false ∧ waitLock = none))
    (writer : q.writes = true → p.writes = true)
    (reader : q.reads = true → p.reads = true ∨ census (indicator Phase.writes) s.phase = 0) :
    Inv (State.goto ⟨s.cnts, waitLock, s.phase⟩ c q) :=
  h.move at_ (by omega) readers owner (fun get => .inl (writer get)) reader

/-- The bias is added and the new value tested. -/
theorem Inv.tryRead {c : τ} {p blocked : Phase} (at_ : s.phase c = p) (before : p.weight = 0)
    (free : p.ownsWaitLock = false) (waits : blocked.weight = 512)
    (mine : indicator Phase.reads blocked + indicator Phase.inFlight blocked = 1)
    (silent : blocked.reads = false ∧ blocked.writes = false ∧ blocked.ownsWaitLock = false)
    (readers : (QrwLock.addBias s c blocked).readers < 2 ^ 23) : Inv (QrwLock.addBias s c blocked) := by
  unfold QrwLock.addBias at readers ⊢
  simp only at readers ⊢
  split at readers
  · rename_i clear
    rw [if_pos clear]
    refine h.addBias at_ before rfl rfl readers free.symm (fun _ => ?_) rfl
    -- the writer bits of the word are those of the old one
    have value := h.toNat_cnts
    have writer := h.writer
    have bias : qrBias.toNat = 512 := rfl
    rw [and_qwWmask, BitVec.toNat_add, bias] at clear
    omega
  · rename_i clear
    rw [if_neg clear]
    exact h.addBias at_ before waits mine readers (silent.2.2.trans free.symm) (by simp [silent.1])
      silent.2.1

/-- A compare and exchange that takes the lock when the word is what `c` itself has added. -/
theorem Inv.tryWrite {c : τ} {p taken failed : Phase} (at_ : s.phase c = p) {old : BitVec 32}
    (mine : old.toNat = p.weight)
    (free : s.cnts = old → census (indicator Phase.writes) s.phase = 0 ∧ s.readers = 0)
    (after : taken.weight = 255 ∧ taken.reads = false ∧ taken.ownsWaitLock = p.ownsWaitLock)
    (retry : failed.weight = p.weight ∧ failed.reads = false ∧ failed.writes = false ∧
      failed.ownsWaitLock = p.ownsWaitLock)
    (readers : (claim s c old taken failed).readers < 2 ^ 23) : Inv (claim s c old taken failed) := by
  have locked : qwLocked.toNat = 255 := rfl
  unfold claim at readers ⊢
  split at readers
  · rename_i same
    rw [if_pos same]
    refine h.move at_ ?_ readers (.inl ⟨after.2.2, rfl⟩) (fun _ => .inr (free same)) (by simp [after.2.1])
    rw [same]
    omega
  · rename_i other
    rw [if_neg other]
    exact h.pass at_ retry.1 readers (.inl ⟨retry.2.2.2, rfl⟩) (by simp [retry.2.2.1]) (by simp [retry.2.1])

omit [DecidableEq τ] in
theorem Inv.free_of_zero (zero : s.cnts = 0) :
    census (indicator Phase.writes) s.phase = 0 ∧ s.readers = 0 := by
  have := h.free_iff.mp zero
  exact ⟨this.2.2, this.1⟩

theorem Inv.begin {c : τ} (at_ : s.phase c = .idle) {call : Call}
    (readers : (begin s c call).readers < 2 ^ 23) : Inv (begin s c call) := by
  cases call with
  | readTrylock =>
      simp only [QrwLock.begin] at readers ⊢
      split at readers
      · rename_i clear
        rw [if_pos clear]
        exact h.pass at_ rfl readers (.inl ⟨rfl, rfl⟩) nofun nofun
      · rename_i clear
        rw [if_neg clear]
        exact h
  | readLock => exact h.tryRead at_ rfl rfl rfl rfl ⟨rfl, rfl, rfl⟩ readers
  | writeTrylock =>
      simp only [QrwLock.begin] at readers ⊢
      split at readers
      · rename_i busy
        rw [if_pos busy]
        exact h
      · rename_i busy
        rw [if_neg busy]
        exact h.pass at_ rfl readers (.inl ⟨rfl, rfl⟩) nofun nofun
  | writeLock => exact h.tryWrite at_ rfl h.free_of_zero ⟨rfl, rfl, rfl⟩ ⟨rfl, rfl, rfl, rfl⟩ readers

theorem Inv.waitLockStep {c : τ} {p q : Phase} (at_ : s.phase c = p) {s' : State τ}
    (done : waitLockStep s c q = some s') (same : q.weight = p.weight) (owns : q.ownsWaitLock = true)
    (silent : q.writes = false ∧ q.reads = false) (readers : s'.readers < 2 ^ 23) : Inv s' := by
  unfold QrwLock.waitLockStep at done
  split at done
  · cases done
    exact h.pass at_ same readers (.inr (.inl ⟨owns, ‹_›, rfl⟩)) (by simp [silent.1]) (by simp [silent.2])
  · cases done

/-- Every step keeps the invariant. -/
theorem Inv.step {irq : τ → Bool} {c : τ} {call : Call} {s' : State τ}
    (done : step irq s c call = some s') (readers : s'.readers < 2 ^ 23) : Inv s' := by
  unfold QrwLock.step at done
  cases at_ : s.phase c <;> rw [at_] at done <;> simp only at done
  case idle =>
    cases done
    exact h.begin at_ readers
  case readTryAdd =>
    cases done
    exact h.tryRead at_ rfl rfl rfl rfl ⟨rfl, rfl, rfl⟩ readers
  case readTryUndo =>
    cases done
    exact h.subBias at_ rfl rfl readers rfl ⟨rfl, rfl⟩
  case readSlow =>
    split at done
    · split at done
      · rename_i clear
        cases done
        exact h.pass at_ rfl readers (.inl ⟨rfl, rfl⟩) nofun (fun _ => .inr (h.no_writer_iff.mp clear))
      · cases done
    · cases done
      exact h.subBias at_ rfl rfl readers rfl ⟨rfl, rfl⟩
  case readWaitLock => exact h.waitLockStep at_ done rfl rfl ⟨rfl, rfl⟩ readers
  case readAdd =>
    obtain rfl := Option.some.inj done
    exact h.addBias at_ rfl rfl rfl readers rfl nofun rfl
  case readSpin =>
    split at done
    · rename_i clear
      cases done
      exact h.pass at_ rfl readers (.inl ⟨rfl, rfl⟩) nofun (fun _ => .inr (h.no_writer_iff.mp clear))
    · cases done
  case readWaitUnlock =>
    cases done
    exact h.pass at_ rfl readers (.inr (.inr ⟨rfl, rfl, rfl⟩)) nofun (fun _ => .inl rfl)
  case reading =>
    cases done
    exact h.subBias at_ rfl rfl readers rfl ⟨rfl, rfl⟩
  case writeTryCmpxchg =>
    cases done
    exact h.tryWrite at_ rfl h.free_of_zero ⟨rfl, rfl, rfl⟩ ⟨rfl, rfl, rfl, rfl⟩ readers
  case writeWaitLock => exact h.waitLockStep at_ done rfl rfl ⟨rfl, rfl⟩ readers
  case writeRead =>
    cases done
    by_cases zero : s.cnts = 0
    · rw [if_pos zero] at readers ⊢
      exact h.pass at_ rfl readers (.inl ⟨rfl, rfl⟩) nofun nofun
    · rw [if_neg zero] at readers ⊢
      exact h.pass at_ rfl readers (.inl ⟨rfl, rfl⟩) nofun nofun
  case writeCmpxchg =>
    cases done
    exact h.tryWrite at_ rfl h.free_of_zero ⟨rfl, rfl, rfl⟩ ⟨rfl, rfl, rfl, rfl⟩ readers
  case writeAdd =>
    cases done
    have value := h.toNat_cnts
    have writer := h.writer
    have few := h.readers
    -- `c` has `wait_lock` and does not wait yet, so nobody does
    have nobody : census (indicator Phase.waits) s.phase = 0 := by
      by_contra some
      obtain ⟨d, waits⟩ := census_indicator_pos_iff.mp (Nat.pos_of_ne_zero some)
      obtain rfl := h.owner_unique (waits_owns waits) (by rw [at_]; rfl : (s.phase c).ownsWaitLock = true)
      rw [at_] at waits
      cases waits
    have waiting : qwWaiting.toNat = 256 := rfl
    have sum : (s.cnts + qwWaiting).toNat = s.cnts.toNat + 256 := by
      rw [BitVec.toNat_add, waiting]
      exact Nat.mod_eq_of_lt (by omega)
    exact h.move at_ (by rw [sum]; rfl) readers (.inl ⟨rfl, rfl⟩) nofun nofun
  case writeSpin =>
    split at done
    · cases done
      exact h.pass at_ rfl readers (.inl ⟨rfl, rfl⟩) nofun nofun
    · cases done
  case writeClaim =>
    cases done
    refine h.tryWrite at_ rfl (fun same => ?_) ⟨rfl, rfl, rfl⟩ ⟨rfl, rfl, rfl, rfl⟩ readers
    have := h.only_waiting_iff.mp same
    exact ⟨this.2.2, this.1⟩
  case writeWaitUnlock =>
    cases done
    exact h.pass at_ rfl readers (.inr (.inr ⟨rfl, rfl, rfl⟩)) (fun _ => rfl) nofun
  case writing =>
    cases done
    have value := h.toNat_cnts
    have writer := h.writer
    have clear := toNat_clear_locked s.cnts
    have mine := le_census (indicator Phase.writes) s.phase c
    rw [at_, show indicator Phase.writes .writing = 1 from rfl] at mine
    have low : s.cnts.toNat % 256 = 255 := by omega
    refine h.move at_ ?_ readers (.inl ⟨rfl, rfl⟩) nofun nofun
    rw [show Phase.writing.weight = 255 from rfl, show Phase.idle.weight = 0 from rfl]
    omega

end

omit [DecidableEq τ] in
theorem Inv.init : Inv (State.init : State τ) := by
  have none (f : Phase → Nat) (zero : f .idle = 0) : census f (State.init : State τ).phase = 0 :=
    census_eq_zero_iff.mpr (fun _ => zero)
  refine ⟨?_, ?_, fun c => ?_, ?_, .inl (none _ rfl)⟩
  · rw [none _ rfl]
    rfl
  · rw [State.readers, none _ rfl, none _ rfl]
    decide
  · simp [State.init, Phase.ownsWaitLock]
  · rw [none _ rfl]
    decide

theorem Reachable.inv {irq : τ → Bool} {s : State τ} (reach : Reachable irq s) : Inv s := by
  induction reach with
  | init => exact .init
  | step _ done readers ih => exact ih.step done readers

/-! ## What a context leaves in the lock word -/

/-- A run, with the context of each step and the change that it makes to the lock word. -/
inductive Run (irq : τ → Bool) : State τ → List (τ × Int) → State τ → Prop where
  | nil (s : State τ) : Run irq s [] s
  | cons {s s' s'' : State τ} {c : τ} {call : Call} {log : List (τ × Int)} :
      step irq s c call = some s' → s'.readers < 2 ^ 23 → Run irq s' log s'' →
      Run irq s ((c, (s'.cnts.toNat : Int) - s.cnts.toNat) :: log) s''

/-- The sum of the changes that the steps of one context make. -/
def effect (c : τ) (log : List (τ × Int)) : Int :=
  (log.map (fun e => if e.1 = c then e.2 else 0)).sum

omit [Fintype τ] in
/-- A step moves its own context only. -/
theorem step_phase {irq : τ → Bool} {s s' : State τ} {c : τ} {call : Call}
    (done : step irq s c call = some s') : ∃ q, s'.phase = Function.update s.phase c q := by
  have stay : ∃ q, s.phase = Function.update s.phase c q := ⟨s.phase c, by simp⟩
  have add (blocked : Phase) : ∃ q, (addBias s c blocked).phase = Function.update s.phase c q := by
    unfold addBias
    simp only
    split
    · exact ⟨_, rfl⟩
    · exact ⟨_, rfl⟩
  have take (old : BitVec 32) (taken failed : Phase) :
      ∃ q, (claim s c old taken failed).phase = Function.update s.phase c q := by
    unfold claim
    split
    · exact ⟨_, rfl⟩
    · exact ⟨_, rfl⟩
  have wait {next : Phase} (done : waitLockStep s c next = some s') :
      ∃ q, s'.phase = Function.update s.phase c q := by
    unfold waitLockStep at done
    split at done
    · cases done
      exact ⟨_, rfl⟩
    · cases done
  unfold step at done
  split at done
  case h_1 =>
    cases done
    cases call <;> simp only [begin]
    case readTrylock =>
      split
      · exact ⟨_, rfl⟩
      · exact stay
    case readLock => exact add _
    case writeTrylock =>
      split
      · exact stay
      · exact ⟨_, rfl⟩
    case writeLock => exact take ..
  case h_2 =>
    cases done
    exact add _
  case h_4 =>
    split at done
    · split at done
      · cases done
        exact ⟨_, rfl⟩
      · cases done
    · cases done
      exact ⟨_, rfl⟩
  case h_5 => exact wait done
  case h_7 | h_15 =>
    split at done
    · cases done
      exact ⟨_, rfl⟩
    · cases done
  case h_10 | h_13 | h_16 =>
    cases done
    exact take ..
  case h_11 => exact wait done
  all_goals
    obtain rfl := Option.some.inj done
    exact ⟨_, rfl⟩

/-- Along a run, a context changes the lock word by what its phase has come to weigh. -/
theorem effect_eq {irq : τ → Bool} {s s' : State τ} {log : List (τ × Int)} (h : Inv s)
    (run : Run irq s log s') (c : τ) :
    effect c log = ((s'.phase c).weight : Int) - (s.phase c).weight := by
  induction run with
  | nil => simp [effect]
  | @cons s mid s'' d call log done readers rest ih =>
      have next := h.step done readers
      obtain ⟨q, moved⟩ := step_phase done
      have weights := census_update Phase.weight s.phase d q
      have before := h.value
      have after := next.value
      rw [moved] at after
      rw [effect, List.map_cons, List.sum_cons, ← effect, ih next]
      by_cases same : d = c
      · subst same
        have now : mid.phase d = q := by rw [moved, Function.update_self]
        rw [if_pos rfl, now]
        omega
      · have stays : mid.phase c = s.phase c := by rw [moved, Function.update_of_ne (Ne.symm same)]
        rw [if_neg same, stays]
        omega

/-! ## Exclusion -/

/-- Writers exclude writers and readers, and the lock word tells who holds the lock, waits
    for it or has its bias in flight.  A context that ends without the lock, such as one whose
    trylock fails, leaves no trace in the lock word. -/
theorem lock_word_tells_holders {irq : τ → Bool} {s : State τ} (reach : Reachable irq s) :
    (∀ c d, (s.phase c).writes = true → (s.phase d).writes = true → c = d) ∧
    (∀ c d, (s.phase c).writes = true → (s.phase d).reads = false) ∧
    (s.cnts.toNat / 512 = (Finset.univ.filter (fun c => (s.phase c).reads = true)).card +
      (Finset.univ.filter (fun c => (s.phase c).inFlight = true)).card) ∧
    (s.cnts.toNat % 256 = 255 ↔ ∃ c, (s.phase c).writes = true) ∧
    ((¬ ∃ c, (s.phase c).writes = true) → s.cnts.toNat % 256 = 0) ∧
    (s.cnts.getLsbD 8 = true ↔ ∃ c, s.waitLock = some c ∧ (s.phase c).waits = true) ∧
    (∀ log s' c, Run irq s log s' → s.phase c = .idle → s'.phase c = .idle → effect c log = 0) ∧
    ((∀ c, (s.phase c).reads = false ∧ (s.phase c).writes = false ∧ (s.phase c).inSlowPath = false ∧
      (s.phase c).inFlight = false) → s.cnts = 0) := by
  have h := reach.inv
  have value := h.toNat_cnts
  have one := h.writer
  have waiter := h.waits_le_one
  have some {p : Phase → Bool} : 0 < census (indicator p) s.phase ↔ ∃ c, p (s.phase c) = true :=
    census_indicator_pos_iff
  refine ⟨fun c d first second => eq_of_census_le_one one first second, fun c d first => ?_, ?_, ?_, ?_,
    ?_, fun log s' c run first last => ?_, fun quiet => ?_⟩
  · by_contra reads
    have writers := some.mpr ⟨c, first⟩
    have readers := some.mpr ⟨d, Bool.eq_true_of_not_eq_false reads⟩
    have := h.exclusive
    omega
  · rw [← census_indicator_eq_card, ← census_indicator_eq_card]
    have : s.readers = census (indicator Phase.reads) s.phase + census (indicator Phase.inFlight) s.phase :=
      rfl
    omega
  · rw [← some]
    omega
  · rw [← some]
    omega
  · have bit : s.cnts.getLsbD 8 = true ↔ s.cnts.toNat / 256 % 2 = 1 := by
      rw [BitVec.getLsbD, Nat.testBit_eq_decide_div_mod_eq, decide_eq_true_eq]
    have owned : (∃ c, s.waitLock = Option.some c ∧ (s.phase c).waits = true) ↔
        ∃ c, (s.phase c).waits = true := by
      constructor
      · rintro ⟨c, -, waits⟩
        exact ⟨c, waits⟩
      · rintro ⟨c, waits⟩
        exact ⟨c, (h.owner c).mp (waits_owns waits), waits⟩
    have high : s.cnts.toNat / 256 = 2 * s.readers + census (indicator Phase.waits) s.phase := by omega
    rw [bit, owned, ← some, high]
    omega
  · rw [effect_eq h run, first, last]
    simp
  · have idle : census Phase.weight s.phase = 0 := by
      refine census_eq_zero_iff.mpr (fun c => ?_)
      obtain ⟨reads, writes, slow, flight⟩ := quiet c
      have waits : (s.phase c).waits = false := by
        by_contra waits
        rw [waits_slow (Bool.eq_true_of_not_eq_false waits)] at slow
        cases slow
      simp [Phase.weight, indicator, reads, writes, flight, waits]
    rw [← h.value] at idle
    exact BitVec.eq_of_toNat_eq idle

/-! ## Two contexts -/

/-- A schedule: the contexts that step, with the calls they make. -/
def schedule (steps : List (Fin 2 × Call)) : Option (State (Fin 2)) :=
  steps.foldlM (fun s e => step (fun _ => false) s e.1 e.2) .init

theorem readers_le_two (s : State (Fin 2)) : s.readers < 2 ^ 23 := by
  have one (p : Phase → Bool) : census (indicator p) s.phase ≤ 2 := by
    rw [census_indicator_eq_card]
    exact (Finset.card_le_univ _).trans (by simp)
  have := one Phase.reads
  have := one Phase.inFlight
  rw [State.readers]
  omega

theorem steps_reachable {steps : List (Fin 2 × Call)} {s s' : State (Fin 2)}
    (reach : Reachable (fun _ => false) s)
    (done : steps.foldlM (fun s e => step (fun _ => false) s e.1 e.2) s = some s') :
    Reachable (fun _ => false) s' := by
  induction steps generalizing s with
  | nil =>
      cases done
      exact reach
  | cons e steps ih =>
      rw [List.foldlM_cons] at done
      obtain ⟨mid, first, rest⟩ := Option.bind_eq_some_iff.mp done
      exact ih (reach.step first (readers_le_two mid)) rest

/-- A reader waits for a writer that holds the lock. -/
theorem writer_excludes_reader : ∃ s, schedule [(0, .writeLock), (1, .readLock)] = some s ∧
    (s.phase 0).writes = true ∧ (s.phase 1).inFlight = true ∧ (s.phase 1).reads = false := by
  have shape : (match schedule [(0, .writeLock), (1, .readLock)] with
      | some s => decide ((s.phase 0).writes = true ∧ (s.phase 1).inFlight = true)
      | none => false) = true := by decide
  split at shape
  · rename_i s done
    obtain ⟨writes, flight⟩ := of_decide_eq_true shape
    exact ⟨s, done, writes, flight,
      (lock_word_tells_holders (steps_reachable .init done)).2.1 0 1 writes⟩
  · cases shape

/-- A reader whose trylock fails takes back its bias only after the writer has left: nobody
    holds the lock or is in a slow path, and the lock word is not zero. -/
theorem failed_trylock_in_flight : ∃ s : State (Fin 2), Reachable (fun _ => false) s ∧
    (∀ c, (s.phase c).reads = false ∧ (s.phase c).writes = false ∧ (s.phase c).inSlowPath = false) ∧
    s.cnts = 0x200 := by
  have shape : (match schedule [(1, .readTrylock), (0, .writeLock), (1, .readTrylock),
        (0, .writeLock)] with
      | some s => decide ((∀ c, (s.phase c).reads = false ∧ (s.phase c).writes = false ∧
          (s.phase c).inSlowPath = false) ∧ s.cnts = 0x200)
      | none => false) = true := by decide
  split at shape
  · rename_i s done
    exact ⟨s, steps_reachable .init done, of_decide_eq_true shape⟩
  · cases shape

end Miracle.QrwLock
