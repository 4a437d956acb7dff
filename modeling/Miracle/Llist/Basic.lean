import Miracle.Lib.Linked

/-! # Lock-less lists

`llist_add_batch`, `llist_del_first` and `llist_del_all` as steps of threads that interleave.
A thread is in a phase between two accesses to memory, and each step is one access.  A node
belongs to the thread that may write it, or to the list.  A batch carries its nodes from
`new_first` to `new_last`; the code sees the two ends.
-/

namespace Miracle.Llist

/-- The entries of a call of `llist_add_batch`. -/
structure Batch (Node : Type) where
  nodes : List Node
  nonempty : nodes ≠ []
  nodup : nodes.Nodup

namespace Batch

variable {Node : Type}

def newFirst (batch : Batch Node) : Node := batch.nodes.head batch.nonempty

def newLast (batch : Batch Node) : Node := batch.nodes.getLast batch.nonempty

/-- The one entry of a call of `llist_add`. -/
def single (new : Node) : Batch Node where
  nodes := [new]
  nonempty := List.cons_ne_nil new []
  nodup := List.nodup_singleton new

end Batch

/-- What a thread is about to do. -/
inductive Phase (Node : Type) where
  | idle
  -- llist_add_batch
  | addLoad (batch : Batch Node)
  | addStore (batch : Batch Node) (first : Option Node)
  | addCmpxchg (batch : Batch Node) (first : Option Node)
  -- llist_del_first
  | delLoad
  | delNext (oldEntry : Node)
  | delCmpxchg (oldEntry : Node) (next : Option Node)

def Phase.isIdle {Node : Type} : Phase Node → Bool
  | .idle => true
  | _ => false

inductive Owner (Thread : Type) where
  | list
  | thread (t : Thread)
  deriving DecidableEq

/-- Who deletes: any thread with `llist_del_all`, or one thread with `llist_del_first`. -/
inductive Consumers (Thread : Type) where
  | delAll
  | delFirst (t : Thread)
  deriving DecidableEq

structure State (Node Thread : Type) where
  first : Option Node
  next : Node → Option Node
  phase : Thread → Phase Node
  owner : Node → Owner Thread

inductive Action (Node Thread : Type) where
  /-- Calls `llist_add_batch`. -/
  | add (batch : Batch Node)
  /-- Calls `llist_del_first`. -/
  | delFirst
  /-- Calls `llist_del_all`, which is one access. -/
  | delAll
  /-- Makes the next access of the call. -/
  | access
  /-- Writes a node of its own. -/
  | link (node : Node) (v : Option Node)
  /-- Gives a node to another thread. -/
  | hand (node : Node) (other : Thread)

/-- What a call returns. -/
inductive Result (Node : Type) where
  | added (newFirst newLast : Node) (wasEmpty : Bool)
  | deletedFirst (entry : Option Node)
  | deletedAll (entry : Option Node)

variable {Node Thread : Type} [DecidableEq Node] [DecidableEq Thread]

/-- The batch is the thread's, and linked. -/
def State.Held (s : State Node Thread) (t : Thread) (batch : Batch Node) : Prop :=
  (∀ n ∈ batch.nodes, s.owner n = .thread t) ∧ batch.nodes.IsChain (fun a b => s.next a = some b)

instance (s : State Node Thread) (t : Thread) (batch : Batch Node) : Decidable (s.Held t batch) :=
  inferInstanceAs (Decidable (_ ∧ _))

def State.enter (s : State Node Thread) (t : Thread) (phase : Phase Node) : State Node Thread :=
  { s with phase := Function.update s.phase t phase }

/-- The next access of a call, with what the call returns if that is its last one. -/
def access (s : State Node Thread) (t : Thread) : Option (State Node Thread × Option (Result Node)) :=
  match s.phase t with
  | .idle => none
  | .addLoad batch => some (s.enter t (.addStore batch s.first), none)
  | .addStore batch first =>
    some ({ s.enter t (.addCmpxchg batch first) with next := Function.update s.next batch.newLast first }, none)
  | .addCmpxchg batch first =>
    if s.first = first then
      some ({ s.enter t .idle with
        first := some batch.newFirst
        owner := fun n => if n ∈ batch.nodes then .list else s.owner n },
        some (.added batch.newFirst batch.newLast first.isNone))
    else some (s.enter t (.addLoad batch), none)
  | .delLoad =>
    match s.first with
    | none => some (s.enter t .idle, some (.deletedFirst none))
    | some entry => some (s.enter t (.delNext entry), none)
  | .delNext oldEntry => some (s.enter t (.delCmpxchg oldEntry (s.next oldEntry)), none)
  | .delCmpxchg oldEntry next =>
    if s.first = some oldEntry then
      some ({ s.enter t .idle with first := next, owner := Function.update s.owner oldEntry (.thread t) },
        some (.deletedFirst (some oldEntry)))
    else
      match s.first with
      | none => some (s.enter t .idle, some (.deletedFirst none))
      | some entry => some (s.enter t (.delNext entry), none)

/-- A step of the thread.  It starts a call, writes or hands over a node only between calls,
    and adds, writes and hands over only what is its own. -/
def step (consumers : Consumers Thread) (s : State Node Thread) (t : Thread) :
    Action Node Thread → Option (State Node Thread × Option (Result Node))
  | .add batch => if (s.phase t).isIdle ∧ s.Held t batch then some (s.enter t (.addLoad batch), none) else none
  | .delFirst => if (s.phase t).isIdle ∧ consumers = .delFirst t then some (s.enter t .delLoad, none) else none
  | .delAll =>
    if (s.phase t).isIdle ∧ consumers = .delAll then
      some ({ s with
        first := none
        owner := fun n => if s.owner n = .list then .thread t else s.owner n }, some (.deletedAll s.first))
    else none
  | .access => access s t
  | .link node v =>
    if (s.phase t).isIdle ∧ s.owner node = .thread t then
      some ({ s with next := Function.update s.next node v }, none)
    else none
  | .hand node other =>
    if (s.phase t).isIdle ∧ s.owner node = .thread t then
      some ({ s with owner := Function.update s.owner node (.thread other) }, none)
    else none

/-- A return, with the links at that moment. -/
structure Event (Node : Type) where
  result : Result Node
  next : Node → Option Node

/-- A run from an empty list, with the returns in their order. -/
inductive Run (consumers : Consumers Thread) : State Node Thread → List (Event Node) → Prop where
  | start {s : State Node Thread} (empty : s.first = none) (idle : ∀ t, s.phase t = .idle)
      (unlisted : ∀ n, s.owner n ≠ .list) : Run consumers s []
  | step {s s' : State Node Thread} {events : List (Event Node)} {result : Option (Result Node)} (t : Thread)
      (action : Action Node Thread) (run : Run consumers s events)
      (taken : Llist.step consumers s t action = some (s', result)) :
      Run consumers s' (events ++ (result.map (Event.mk · s'.next)).toList)

end Miracle.Llist
