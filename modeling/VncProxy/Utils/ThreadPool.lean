/-
  VncProxy.Utils.ThreadPool

  `ThreadPool` and `Queue` of utils.h and utils.cc: `n` workers, each with a queue of its
  own, producers that call `run_async`, and the destructor, which pushes a termination token
  on every queue and joins.  The jobs are of any type `ι`, and the token is `none`.

  Every section runs under the lock of one queue, or under none.  A `pop` that finds its
  queue empty waits, and looks again whenever it is woken up.
-/
import VncProxy.Lib.Reach
import VncProxy.Lib.Verify
import VncProxy.Lib.Weight
import Mathlib.Data.Fin.Basic
import Mathlib.Data.List.FinRange
import Mathlib.Data.List.ReduceOption
import Mathlib.Data.Fintype.Sum

namespace VncProxy.Utils

open Lib (verify Threads Reach runActs lastState runActs_eq_lastState)

-- ============================================================================
-- The pool
-- ============================================================================

/-- What happens to the queues and to the jobs. -/
inductive Event (n : Nat) (ι : Type _)
  | push (queue : Fin n) (e : Option ι)
  | pop (tid : Fin n) (e : Option ι)
  | run (tid : Fin n) (job : ι)
  | delete (tid : Fin n) (job : ι)
deriving DecidableEq, Repr

structure ThreadPool (n : Nat) (ι : Type _) where
  q : Fin n → List (Option ι)
  /-- what has happened, the last event at the end -/
  log : List (Event n ι)
  /-- the arguments of the calls of `run_async` -/
  submitted : List (Option ι)
  /-- `~ThreadPool` has been entered -/
  dying : Bool

inductive Sec (n : Nat) (ι : Type _)
  | runAsync (r : Option ι)
  | push (queue : Fin n) (e : Option ι)
  | pop (tid : Fin n)
  | run (tid : Fin n) (job : ι)
  | delete (tid : Fin n) (job : ι)
deriving DecidableEq, Repr

section Exec

variable {n : Nat} {ι : Type _}

/-- One section, where `rand` is what `rand()` returns. -/
def exec [NeZero n] (rand : Nat) (w : ThreadPool n ι) :
    Sec n ι → Option (ThreadPool n ι × List (Sec n ι))
  | .runAsync r => do
    -- NULL is used to terminate a thread
    verify (r ≠ none)
    return (w, [.push (Fin.ofNat n rand) r])
  | .push queue e => some ({ w with
      q := Function.update w.q queue (w.q queue ++ [e])
      log := w.log ++ [.push queue e] }, [])
  | .pop tid =>
    match w.q tid with
    | [] => some (w, [.pop tid])
    | e :: rest => some ({ w with
        q := Function.update w.q tid rest
        log := w.log ++ [.pop tid e] },
        match e with
        | none => []
        | some j => [.run tid j, .delete tid j, .pop tid])
  | .run tid j => some ({ w with log := w.log ++ [.run tid j] }, [])
  | .delete tid j => some ({ w with log := w.log ++ [.delete tid j] }, [])

end Exec

-- ============================================================================
-- Threads and moves
-- ============================================================================

/-- The workers, and the threads that use the pool. -/
abbrev Config (n : Nat) (ι κ : Type _) := Threads (Fin n ⊕ κ) (Sec n ι) (ThreadPool n ι)

inductive Act (n : Nat) (ι κ : Type _)
  /-- thread `t` runs its next section -/
  | exec (t : Fin n ⊕ κ) (rand : Nat)
  | runAsync (k : κ) (r : Option ι)
  /-- a producer enters `~ThreadPool` -/
  | destroy (k : κ)

section Step

variable {n : Nat} {ι κ : Type _}

/-- `ThreadPool(n)`: the queues are empty and the workers have been created. -/
def start : Config n ι κ where
  world := { q := fun _ => [], log := [], submitted := [], dying := false }
  code
    | .inl tid => [.pop tid]
    | .inr _ => []
  crashed := none

/-- The thread has returned from its last call. -/
def Idle (c : Config n ι κ) (k : κ) : Prop := c.code (.inr k) = []

instance (c : Config n ι κ) (k : κ) : Decidable (Idle c k) := by
  unfold Idle; infer_instance

def step [NeZero n] [DecidableEq κ] (a : Act n ι κ) (c : Config n ι κ) : Option (Config n ι κ) :=
  match a with
  | .exec t rand => c.run (exec rand) t
  | .runAsync k r => do
    verify (c.crashed = none ∧ Idle c k)
    return { c.load (.inr k) [.runAsync r] with
      world := { c.world with submitted := c.world.submitted ++ [r] } }
  | .destroy k => do
    verify (c.crashed = none ∧ Idle c k)
    return { c.load (.inr k) ((List.finRange n).map fun i => .push i none) with
      world := { c.world with dying := true } }

/-- `run_async` is called with jobs that are not null; and the destructor is entered after the
    last call has returned. -/
def Closing (c : Config n ι κ) : Act n ι κ → Prop
  | .exec _ _ => True
  | .runAsync _ r => r ≠ none ∧ c.world.dying = false
  | .destroy _ => c.world.dying = false ∧ ∀ k, Idle c k

instance [Fintype κ] (c : Config n ι κ) (a : Act n ι κ) : Decidable (Closing c a) := by
  unfold Closing
  split <;> infer_instance

/-- The states of all runs. -/
def Run [NeZero n] [DecidableEq κ] : Config n ι κ → Prop :=
  Reach (· = start) fun c c' => ∃ a, Closing c a ∧ step a c = some c'

variable (n ι κ) in
/-- A list of moves from the start, all of them within what `Closing` asks for. -/
def afterMoves [NeZero n] [DecidableEq κ] [Fintype κ] (as : List (Act n ι κ)) : Config n ι κ :=
  lastState (fun a c => if Closing c a then step a c else none) as start

theorem Run.of_moves [NeZero n] [DecidableEq κ] [Fintype κ] {as : List (Act n ι κ)}
    (h : (runActs (fun a c => if Closing c a then step a c else none) as start).isSome) :
    Run (afterMoves n ι κ as) := by
  refine Reach.of_runActs ?_ (Reach.start rfl) (runActs_eq_lastState h)
  intro a _ t t' hstep
  by_cases hok : Closing t a
  · rw [if_pos hok] at hstep
    exact ⟨a, hok, hstep⟩
  · rw [if_neg hok] at hstep
    cases hstep

/-- `~ThreadPool` has returned: it has joined all workers. -/
def Returned (c : Config n ι κ) : Prop :=
  c.crashed = none ∧ c.world.dying = true ∧ ∀ t, c.code t = []

instance [Fintype κ] [DecidableEq ι] (c : Config n ι κ) : Decidable (Returned c) := by
  unfold Returned; infer_instance

end Step

-- ============================================================================
-- What has happened
-- ============================================================================

section Log

variable {n : Nat} {ι : Type _}

/-- The events of worker `i`. -/
def Event.byWorker (i : Fin n) : Event n ι → Bool
  | .push _ _ => false
  | .pop tid _ | .run tid _ | .delete tid _ => tid = i

/-- What has been pushed on queue `i`, in this order. -/
def pushes (i : Fin n) (log : List (Event n ι)) : List (Option ι) :=
  log.filterMap fun
    | .push queue e => if queue = i then some e else none
    | _ => none

/-- The jobs among them. -/
def jobs (i : Fin n) (log : List (Event n ι)) : List ι := (pushes i log).reduceOption

/-- What a worker does about a job. -/
def turn (i : Fin n) (j : ι) : List (Event n ι) := [.pop i (some j), .run i j, .delete i j]

variable [DecidableEq ι]

def Event.runs (j : ι) : Event n ι → Bool
  | .run _ job => job = j
  | _ => false

def Event.deletes (j : ι) : Event n ι → Bool
  | .delete _ job => job = j
  | _ => false

def Event.pushed (j : ι) : Event n ι → Bool
  | .push _ e => e = some j
  | _ => false

/-- Every worker has taken the jobs of its queue in the order in which they were pushed, has
    run and then deleted each of them before it took the next, and has taken its token last;
    and altogether each job was run and deleted as often as it was submitted. -/
structure Served (w : ThreadPool n ι) : Prop where
  worker : ∀ i, w.log.filter (Event.byWorker i) = (jobs i w.log).flatMap (turn i) ++ [.pop i none]
  queue : ∀ i, pushes i w.log = (jobs i w.log).map some ++ [none]
  once : ∀ j, w.log.countP (Event.runs j) = w.submitted.count (some j) ∧
    w.log.countP (Event.deletes j) = w.submitted.count (some j)

end Log

end VncProxy.Utils
