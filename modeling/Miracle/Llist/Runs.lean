import Miracle.Llist.Basic

/-! # A lock-less list is a stack

In every interleaving the nodes reached from the head are those of a stack, and every call
takes effect on it at one of its own accesses: an addition and a deletion at the exchange that
succeeds, a deletion from an empty list at the access that finds no entry.
-/

namespace Miracle.Llist

variable {Node Thread : Type}

/-! ## Links -/

section Links

variable {next : Node → Option Node} {batch : Batch Node}

/-- Writing the last node of a batch keeps the links inside it. -/
theorem Batch.chain_update [DecidableEq Node] (chain : batch.nodes.IsChain fun a b => next a = some b) (v : Option Node) :
    batch.nodes.IsChain fun a b => Function.update next batch.newLast v a = some b := by
  obtain ⟨init, last, split⟩ : ∃ init last, batch.nodes = init ++ [last] :=
    ⟨_, _, (List.dropLast_append_getLast batch.nonempty).symm⟩
  have isLast : batch.newLast = last := by simp [Batch.newLast, split]
  have nodup := batch.nodup
  rw [split] at chain nodup ⊢
  rw [isLast]
  -- only the last place holds the last node
  have apart : ∀ a ∈ init, a ≠ last := fun a mem => (List.nodup_append.mp nodup).2.2 a mem last (by simp)
  obtain ⟨inner, -, link⟩ := List.isChain_append.mp chain
  refine List.isChain_append.mpr ⟨?_, List.isChain_singleton last, ?_⟩
  · refine List.IsChain.imp_of_mem_imp ?_ inner
    intro a b memA _ linked
    rw [Function.update_of_ne (apart a memA)]
    exact linked
  · intro a memA b memB
    rw [Function.update_of_ne (apart a (List.mem_of_getLast? memA))]
    exact link a memA b memB

/-- A linked batch whose last node points to the list's first makes a longer list. -/
theorem linked_append {nodes l : List Node} {last : Node} (chain : nodes.IsChain fun a b => next a = some b)
    (isLast : nodes.getLast? = some last) (rest : Linked next (next last) l) : Linked next nodes.head? (nodes ++ l) := by
  induction nodes with
  | nil => simp at isLast
  | cons a nodes ih =>
      refine .cons ?_
      cases nodes with
      | nil =>
          obtain rfl : a = last := by simpa using isLast
          exact rest
      | cons b nodes =>
          rw [List.isChain_cons_cons] at chain
          obtain ⟨link, chain⟩ := chain
          rw [link]
          exact ih chain (by simpa using isLast)

end Links

/-! ## The invariant -/

/-- What a thread relies on in the middle of a call. -/
def CallOk (consumers : Consumers Thread) (s : State Node Thread) (t : Thread) : Phase Node → Prop
  | .idle => True
  | .addLoad batch => s.Held t batch
  | .addStore batch _ => s.Held t batch
  | .addCmpxchg batch first => s.Held t batch ∧ s.next batch.newLast = first
  | .delLoad => consumers = .delFirst t
  | .delNext oldEntry => consumers = .delFirst t ∧ s.owner oldEntry = .list
  | .delCmpxchg oldEntry next => consumers = .delFirst t ∧ s.owner oldEntry = .list ∧ s.next oldEntry = next

structure Sound (consumers : Consumers Thread) (s : State Node Thread) (stack : List Node) : Prop where
  linked : Linked s.next s.first stack
  nodup : stack.Nodup
  listed : ∀ n, s.owner n = .list ↔ n ∈ stack
  calls : ∀ t, CallOk consumers s t (s.phase t)

/-- What a step of another thread leaves alone: the thread's own nodes, and those of the list if
    the thread is the one that deletes the first. -/
structure Spares (consumers : Consumers Thread) (s s' : State Node Thread) (t : Thread) : Prop where
  own : ∀ n, s.owner n = .thread t → s'.owner n = .thread t ∧ s'.next n = s.next n
  list : consumers = .delFirst t → ∀ n, s.owner n = .list → s'.owner n = .list ∧ s'.next n = s.next n

section Frame

variable {consumers : Consumers Thread} {s s' : State Node Thread} {t : Thread}

theorem State.Held.spared {batch : Batch Node} (held : s.Held t batch) (spares : Spares consumers s s' t) :
    s'.Held t batch := by
  obtain ⟨own, chain⟩ := held
  refine ⟨fun n mem => (spares.own n (own n mem)).1, ?_⟩
  refine List.IsChain.imp_of_mem_imp ?_ chain
  intro a b memA _ link
  rw [(spares.own a (own a memA)).2]
  exact link

theorem Batch.newLast_mem (batch : Batch Node) : batch.newLast ∈ batch.nodes := List.getLast_mem batch.nonempty

theorem CallOk.spared {phase : Phase Node} (ok : CallOk consumers s t phase) (spares : Spares consumers s s' t) :
    CallOk consumers s' t phase := by
  cases phase with
  | idle => trivial
  | addLoad batch => exact State.Held.spared ok spares
  | addStore batch first => exact State.Held.spared ok spares
  | addCmpxchg batch first =>
      obtain ⟨held, link⟩ := ok
      refine ⟨held.spared spares, ?_⟩
      rw [(spares.own _ (held.1 _ batch.newLast_mem)).2]
      exact link
  | delLoad => exact ok
  | delNext oldEntry =>
      obtain ⟨mode, listed⟩ := ok
      exact ⟨mode, (spares.list mode _ listed).1⟩
  | delCmpxchg oldEntry next =>
      obtain ⟨mode, listed, link⟩ := ok
      obtain ⟨listed', link'⟩ := spares.list mode _ listed
      exact ⟨mode, listed', link'.trans link⟩

/-- The calls of all threads after a step of one of them. -/
theorem calls_after [DecidableEq Thread] {phase : Phase Node} (calls : ∀ u, CallOk consumers s u (s.phase u))
    (phases : s'.phase = Function.update s.phase t phase) (ok : CallOk consumers s' t phase)
    (spares : ∀ u, u ≠ t → Spares consumers s s' u) (u : Thread) : CallOk consumers s' u (s'.phase u) := by
  rw [phases]
  by_cases same : u = t
  · subst same
    rw [Function.update_self]
    exact ok
  · rw [Function.update_of_ne same]
    exact (calls u).spared (spares u same)

theorem Spares.enter [DecidableEq Thread] (s : State Node Thread) (t u : Thread) (phase : Phase Node) :
    Spares consumers s (s.enter t phase) u where
  own := fun _ own => ⟨own, rfl⟩
  list := fun _ _ listed => ⟨listed, rfl⟩

/-- A thread writes a node of its own. -/
theorem Spares.write [DecidableEq Node] {u : Thread} {node : Node} {v : Option Node} (own : s.owner node = .thread t) (other : u ≠ t)
    (owners : s'.owner = s.owner) (links : s'.next = Function.update s.next node v) : Spares consumers s s' u := by
  have apart {n : Node} {o : Owner Thread} (h : s.owner n = o) (differs : o ≠ .thread t) : n ≠ node := by
    rintro rfl
    exact differs (h.symm.trans own)
  constructor
  · intro n mine
    rw [owners, links, Function.update_of_ne (apart mine (by simpa using other))]
    exact ⟨mine, rfl⟩
  · intro _ n listed
    rw [owners, links, Function.update_of_ne (apart listed (by simp))]
    exact ⟨listed, rfl⟩

end Frame

/-! ## Steps -/

/-- What the call returned is what the operation on the stack returned. -/
def Result.Shows (next : Node → Option Node) : Result Node → Stack.Op Node → Prop
  | .added newFirst newLast wasEmpty, .push nodes wasEmpty' =>
    nodes.head? = some newFirst ∧ nodes.getLast? = some newLast ∧ nodes.Nodup ∧
      nodes.IsChain (fun a b => next a = some b) ∧ wasEmpty = wasEmpty'
  | .deletedFirst entry, .pop top => entry = top
  | .deletedAll entry, .popAll nodes => Linked next entry nodes
  | _, _ => False

/-- A step either leaves the stack alone, or returns what one operation on the stack does. -/
def Refines (consumers : Consumers Thread) (s' : State Node Thread) (stack : List Node) :
    Option (Result Node) → Prop
  | none => Sound consumers s' stack
  | some result => ∃ op stack', result.Shows s'.next op ∧ Stack.Step stack op stack' ∧ Sound consumers s' stack'

section Steps

variable {consumers : Consumers Thread} {s s' : State Node Thread} {t : Thread} {stack : List Node}

/-- A node of a thread is not in the list. -/
theorem Sound.not_listed {n : Node} (sound : Sound consumers s stack) (own : s.owner n = .thread t) : n ∉ stack := by
  rw [← sound.listed n, own]
  simp

theorem isIdle_iff {phase : Phase Node} : phase.isIdle = true ↔ phase = .idle := by
  cases phase <;> simp [Phase.isIdle]

variable [DecidableEq Thread]

/-- A step that only changes the thread's phase. -/
theorem Sound.enter {phase : Phase Node} (sound : Sound consumers s stack) (ok : CallOk consumers s t phase) :
    Sound consumers (s.enter t phase) stack where
  linked := sound.linked
  nodup := sound.nodup
  listed := sound.listed
  calls := calls_after sound.calls rfl (ok.spared (Spares.enter s t t phase)) (fun u _ => Spares.enter s t u phase)

/-- `llist_del_all` takes every node of the list. -/
theorem Sound.deletedAll (sound : Sound consumers s stack) (mode : consumers = .delAll) :
    Sound consumers { s with
      first := none
      owner := fun n => if s.owner n = .list then .thread t else s.owner n } [] where
  linked := .nil
  nodup := List.nodup_nil
  listed := by
    intro n
    simp only [List.not_mem_nil, iff_false]
    split
    · simp
    · assumption
  calls := by
    intro u
    refine (sound.calls u).spared ⟨fun n own => ⟨?_, rfl⟩, fun mode' => ?_⟩
    · exact (if_neg (by rw [own]; simp)).trans own
    · rw [mode] at mode'
      cases mode'

variable [DecidableEq Node]

/-- A node of the thread is written, in the same step as the thread's phase. -/
theorem Sound.write {node : Node} {v : Option Node} {phase : Phase Node} (sound : Sound consumers s stack)
    (own : s.owner node = .thread t)
    (ok : CallOk consumers { s.enter t phase with next := Function.update s.next node v } t phase) :
    Sound consumers { s.enter t phase with next := Function.update s.next node v } stack where
  linked := sound.linked.update (sound.not_listed own) v
  nodup := sound.nodup
  listed := sound.listed
  calls := calls_after sound.calls rfl ok (fun _ other => Spares.write own other rfl rfl)

/-- The exchange of `llist_add_batch` succeeds. -/
theorem Sound.added {batch : Batch Node} (sound : Sound consumers s stack) (held : s.Held t batch)
    (link : s.next batch.newLast = s.first) :
    Sound consumers { s.enter t .idle with
      first := some batch.newFirst
      owner := fun n => if n ∈ batch.nodes then .list else s.owner n } (batch.nodes ++ stack) where
  linked := by
    have isLast : batch.nodes.getLast? = some batch.newLast := List.getLast?_eq_some_getLast batch.nonempty
    have isFirst : batch.nodes.head? = some batch.newFirst := List.head?_eq_some_head batch.nonempty
    rw [← isFirst]
    apply linked_append held.2 isLast
    rw [link]
    exact sound.linked
  nodup := by
    refine List.nodup_append.mpr ⟨batch.nodup, sound.nodup, ?_⟩
    rintro n mine _ theirs rfl
    exact sound.not_listed (held.1 n mine) theirs
  listed := by
    intro n
    simp only [List.mem_append]
    split
    · rename_i mine
      exact ⟨fun _ => .inl mine, fun _ => rfl⟩
    · rename_i theirs
      rw [sound.listed n]
      exact ⟨.inr, fun mem => mem.resolve_left theirs⟩
  calls := by
    refine calls_after sound.calls rfl trivial (fun u other => ?_)
    have apart {n : Node} (own : s.owner n = .thread u) : n ∉ batch.nodes := by
      intro mine
      have both := own.symm.trans (held.1 n mine)
      exact other (Owner.thread.inj both)
    refine ⟨fun n own => ⟨?_, rfl⟩, fun _ n listed => ⟨?_, rfl⟩⟩
    · exact (if_neg (apart own)).trans own
    · exact ite_eq_left_iff.mpr fun _ => listed

/-- The exchange of `llist_del_first` succeeds: the first entry has not left the list since its
    link was read. -/
theorem Sound.deletedFirst {entry : Node} {rest : List Node} (sound : Sound consumers s (entry :: rest))
    (mode : consumers = .delFirst t) :
    Sound consumers { s.enter t .idle with
      first := s.next entry
      owner := Function.update s.owner entry (.thread t) } rest where
  linked := by
    obtain ⟨l, same, tail⟩ := Linked.some_iff.mp (sound.linked.head_eq ▸ sound.linked)
    obtain rfl : rest = l := (List.cons.inj same).2
    exact tail
  nodup := (List.nodup_cons.mp sound.nodup).2
  listed := by
    intro n
    by_cases same : n = entry
    · subst same
      simp [(List.nodup_cons.mp sound.nodup).1]
    · have listed := sound.listed n
      simp only [List.mem_cons, same, false_or] at listed
      change Function.update s.owner entry (.thread t) n = .list ↔ n ∈ rest
      rw [Function.update_of_ne same]
      exact listed
  calls := by
    refine calls_after sound.calls rfl trivial (fun u other => ?_)
    have inList : s.owner entry = .list := (sound.listed entry).mpr (by simp)
    refine ⟨fun n own => ⟨?_, rfl⟩, fun mode' => ?_⟩
    · have apart : n ≠ entry := by
        rintro rfl
        rw [inList] at own
        cases own
      exact (Function.update_of_ne apart _ _).trans own
    · -- there is one thread that deletes the first
      rw [mode] at mode'
      exact absurd (Consumers.delFirst.inj mode').symm other

/-- A node goes from one thread that is between calls to another. -/
theorem Sound.handed {node : Node} {other : Thread} (sound : Sound consumers s stack) (idle : s.phase t = .idle)
    (own : s.owner node = .thread t) :
    Sound consumers { s with owner := Function.update s.owner node (.thread other) } stack where
  linked := sound.linked
  nodup := sound.nodup
  listed := by
    intro n
    by_cases same : n = node
    · subst same
      simp [sound.not_listed own]
    · change Function.update s.owner node (.thread other) n = .list ↔ n ∈ stack
      rw [Function.update_of_ne same]
      exact sound.listed n
  calls := by
    intro u
    by_cases same : u = t
    · subst same
      change CallOk consumers _ u (s.phase u)
      rw [idle]
      trivial
    · have apart {n : Node} {o : Owner Thread} (h : s.owner n = o) (differs : o ≠ .thread t) : n ≠ node := by
        rintro rfl
        exact differs (h.symm.trans own)
      refine (sound.calls u).spared ⟨fun n mine => ⟨?_, rfl⟩, fun _ n listed => ⟨?_, rfl⟩⟩
      · exact (Function.update_of_ne (apart mine (by simpa using same)) _ _).trans mine
      · exact (Function.update_of_ne (apart listed (by simp)) _ _).trans listed

theorem access_refines {result : Option (Result Node)} (sound : Sound consumers s stack)
    (taken : access s t = some (s', result)) : Refines consumers s' stack result := by
  have ok := sound.calls t
  unfold access at taken
  cases phase : s.phase t with
  | idle => simp [phase] at taken
  | addLoad batch =>
      rw [phase] at ok taken
      obtain ⟨rfl, rfl⟩ := Prod.mk.inj (Option.some.inj taken)
      exact sound.enter ok
  | addStore batch first =>
      rw [phase] at ok taken
      obtain ⟨rfl, rfl⟩ := Prod.mk.inj (Option.some.inj taken)
      apply sound.write (ok.1 _ batch.newLast_mem)
      exact ⟨⟨ok.1, batch.chain_update ok.2 first⟩, Function.update_self ..⟩
  | addCmpxchg batch first =>
      rw [phase] at ok taken
      simp only at taken
      split at taken
      · rename_i same
        obtain ⟨rfl, rfl⟩ := Prod.mk.inj (Option.some.inj taken)
        obtain ⟨held, link⟩ := ok
        refine ⟨.push batch.nodes stack.isEmpty, _, ?_, .push stack batch.nodes, sound.added held (link.trans same.symm)⟩
        refine ⟨List.head?_eq_some_head batch.nonempty, List.getLast?_eq_some_getLast batch.nonempty, batch.nodup,
          held.2, ?_⟩
        rw [← same, sound.linked.head_eq]
        cases stack <;> rfl
      · obtain ⟨rfl, rfl⟩ := Prod.mk.inj (Option.some.inj taken)
        exact sound.enter ok.1
  | delLoad =>
      rw [phase] at ok taken
      simp only at taken
      split at taken
      · rename_i none_left
        obtain ⟨rfl, rfl⟩ := Prod.mk.inj (Option.some.inj taken)
        obtain rfl := sound.linked.eq_nil_iff.mpr none_left
        exact ⟨.pop none, [], rfl, .popEmpty, sound.enter trivial⟩
      · rename_i entry first
        obtain ⟨rfl, rfl⟩ := Prod.mk.inj (Option.some.inj taken)
        refine sound.enter ⟨ok, (sound.listed entry).mpr ?_⟩
        rw [sound.linked.head_eq] at first
        exact List.mem_of_mem_head? first
  | delNext oldEntry =>
      rw [phase] at ok taken
      obtain ⟨rfl, rfl⟩ := Prod.mk.inj (Option.some.inj taken)
      exact sound.enter ⟨ok.1, ok.2, rfl⟩
  | delCmpxchg oldEntry next =>
      rw [phase] at ok taken
      simp only at taken
      obtain ⟨mode, listed, link⟩ := ok
      split at taken
      · rename_i same
        obtain ⟨rfl, rfl⟩ := Prod.mk.inj (Option.some.inj taken)
        obtain ⟨rest, rfl, -⟩ := Linked.some_iff.mp (same ▸ sound.linked)
        refine ⟨.pop (some oldEntry), rest, rfl, .pop oldEntry rest, ?_⟩
        rw [← link]
        exact sound.deletedFirst mode
      · split at taken
        · rename_i none_left
          obtain ⟨rfl, rfl⟩ := Prod.mk.inj (Option.some.inj taken)
          obtain rfl := sound.linked.eq_nil_iff.mpr none_left
          exact ⟨.pop none, [], rfl, .popEmpty, sound.enter trivial⟩
        · rename_i entry first
          obtain ⟨rfl, rfl⟩ := Prod.mk.inj (Option.some.inj taken)
          refine sound.enter ⟨mode, (sound.listed entry).mpr ?_⟩
          rw [sound.linked.head_eq] at first
          exact List.mem_of_mem_head? first

theorem step_refines {action : Action Node Thread} {result : Option (Result Node)} (sound : Sound consumers s stack)
    (taken : step consumers s t action = some (s', result)) : Refines consumers s' stack result := by
  cases action with
  | add batch =>
      simp only [step, Option.ite_none_right_eq_some, Option.some.injEq, Prod.mk.injEq] at taken
      obtain ⟨⟨-, held⟩, rfl, rfl⟩ := taken
      exact sound.enter held
  | delFirst =>
      simp only [step, Option.ite_none_right_eq_some, Option.some.injEq, Prod.mk.injEq] at taken
      obtain ⟨⟨-, mode⟩, rfl, rfl⟩ := taken
      exact sound.enter mode
  | delAll =>
      simp only [step, Option.ite_none_right_eq_some, Option.some.injEq, Prod.mk.injEq] at taken
      obtain ⟨⟨-, mode⟩, rfl, rfl⟩ := taken
      exact ⟨.popAll stack, [], sound.linked, .popAll stack, sound.deletedAll mode⟩
  | access => exact access_refines sound taken
  | link node v =>
      simp only [step, Option.ite_none_right_eq_some, Option.some.injEq, Prod.mk.injEq] at taken
      obtain ⟨⟨idle, own⟩, rfl, rfl⟩ := taken
      have same : s.enter t .idle = s := by
        unfold State.enter
        rw [← isIdle_iff.mp idle, Function.update_eq_self]
      have written : Sound consumers { s.enter t .idle with next := Function.update s.next node v } stack :=
        sound.write own trivial
      rwa [same] at written
  | hand node other =>
      simp only [step, Option.ite_none_right_eq_some, Option.some.injEq, Prod.mk.injEq] at taken
      obtain ⟨⟨idle, own⟩, rfl, rfl⟩ := taken
      exact sound.handed (isIdle_iff.mp idle) own

end Steps

/-! ## Runs -/

variable [DecidableEq Node] [DecidableEq Thread]

/-- In every interleaving the list is at all times a finite chain without repetition, the
    stack that the returned calls make of the empty one; and what was added is in the list or
    was deleted. -/
theorem llist_is_stack {consumers : Consumers Thread} {s : State Node Thread} {events : List (Event Node)}
    (run : Run consumers s events) : ∃ ops stack,
      List.Forall₂ (fun event op => event.result.Shows event.next op) events ops ∧ Stack.Run ops stack ∧
      Linked s.next s.first stack ∧ stack.Nodup ∧ (∀ n, s.owner n = .list ↔ n ∈ stack) ∧
      (ops.flatMap Stack.Op.pushed).Perm (ops.flatMap Stack.Op.popped ++ stack) := by
  suffices sound : ∃ ops stack, List.Forall₂ (fun event op => event.result.Shows event.next op) events ops ∧
      Stack.Run ops stack ∧ Sound consumers s stack by
    obtain ⟨ops, stack, shown, ran, sound⟩ := sound
    exact ⟨ops, stack, shown, ran, sound.linked, sound.nodup, sound.listed, ran.perm⟩
  induction run with
  | @start s empty idle unlisted =>
      refine ⟨[], [], .nil, .nil, ?_, List.nodup_nil, fun n => ?_, fun t => ?_⟩
      · rw [empty]
        exact .nil
      · simp [unlisted n]
      · rw [idle t]
        trivial
  | step t action before taken ih =>
      obtain ⟨ops, stack, shown, ran, sound⟩ := ih
      have refines := step_refines sound taken
      rename_i s s' events result
      cases result with
      | none => exact ⟨ops, stack, by simpa using shown, ran, refines⟩
      | some result =>
          obtain ⟨op, stack', shows, stepped, sound'⟩ := refines
          exact ⟨ops ++ [op], stack', List.rel_append shown (.cons shows .nil), ran.snoc stepped, sound'⟩

/-- The state and the returns after a list of actions. -/
def runActions (consumers : Consumers Thread) (s : State Node Thread) (events : List (Event Node)) :
    List (Thread × Action Node Thread) → Option (State Node Thread × List (Event Node))
  | [] => some (s, events)
  | (t, action) :: actions =>
    match step consumers s t action with
    | none => none
    | some (s', result) => runActions consumers s' (events ++ (result.map (Event.mk · s'.next)).toList) actions

theorem run_actions {consumers : Consumers Thread} {s s' : State Node Thread} {events events' : List (Event Node)}
    {actions : List (Thread × Action Node Thread)} (run : Run consumers s events)
    (ran : runActions consumers s events actions = some (s', events')) : Run consumers s' events' := by
  induction actions generalizing s events with
  | nil =>
      obtain ⟨rfl, rfl⟩ := Prod.mk.inj (Option.some.inj ran)
      exact run
  | cons entry actions ih =>
      obtain ⟨t, action⟩ := entry
      simp only [runActions] at ran
      split at ran
      · exact absurd ran.symm (Option.some_ne_none _)
      · rename_i s' result taken
        exact ih (run.step t action taken) ran

/-- Thread 0 adds node 6 between the two accesses in which thread 1 deletes node 5, so that the
    deletion begins again and returns node 6. -/
theorem interrupted_deletion_is_stack : ∃ s events,
    Run (.delFirst 1) (s : State Nat Nat) events ∧
    events.map (·.result) = [.added 5 5 true, .added 6 6 false, .deletedFirst (some 6)] ∧
    ∃ ops stack, List.Forall₂ (fun event op => event.result.Shows event.next op) events ops ∧ Stack.Run ops stack ∧
      Linked s.next s.first stack ∧ stack.Nodup ∧ (∀ n, s.owner n = .list ↔ n ∈ stack) ∧
      (ops.flatMap Stack.Op.pushed).Perm (ops.flatMap Stack.Op.popped ++ stack) := by
  have begun : Run (.delFirst 1) (⟨none, fun _ => none, fun _ => .idle, fun _ => .thread 0⟩ : State Nat Nat) [] :=
    .start rfl (fun _ => rfl) (fun _ => by simp)
  obtain ⟨⟨s, events⟩, ran, results⟩ : ∃ out,
      runActions (.delFirst 1) ⟨none, fun _ => none, fun _ => .idle, fun _ => .thread 0⟩ []
        ([(0, .add (.single 5)), (0, .access), (0, .access), (0, .access), (1, .delFirst), (1, .access), (1, .access),
          (0, .add (.single 6)), (0, .access), (0, .access), (0, .access), (1, .access), (1, .access), (1, .access)] :
          List (Nat × Action Nat Nat)) = some out ∧
      out.2.map (·.result) = [.added 5 5 true, .added 6 6 false, .deletedFirst (some 6)] := ⟨_, rfl, rfl⟩
  have run := run_actions begun ran
  exact ⟨s, events, run, results, llist_is_stack run⟩

end Miracle.Llist
