/-
  VncProxy.Polling.Machine

  One `PollThread` with the threads that use it: the poll thread itself and any number of
  callers.  A call is the list of its sections, each of which runs under one lock (or is
  one system call), so the moves of the machine are all the interleavings.

  The pollables are of any type `ι`; `fd` is their `fd()`.  The references are those of
  the `PollMgr`: how often it has called `ref_copy` and `release` on each.
-/
import VncProxy.Lib.Reach
import VncProxy.Lib.Threads
import VncProxy.Polling.PollThread
import Mathlib.Data.Fintype.Option

namespace VncProxy.PollMgr

open Lib (verify Threads Reach runActs)
open Polling

-- ============================================================================
-- Sections
-- ============================================================================

/-- An entry that `epoll_wait` returns: the descriptor, and whether `EPOLLIN`, `EPOLLOUT`
    and one of `EPOLLERR | EPOLLHUP | EPOLLRDHUP` are among its events. -/
structure Ready where
  fd : Nat
  epollin : Bool
  epollout : Bool
  error : Bool
deriving DecidableEq, Repr

inductive Handler
  | read
  | write
  | error
deriving DecidableEq, Repr

inductive Sec (ι : Type _)
  -- add
  | refCopy (poll : ι) (pollMode : Mode)
  | add (poll : ι) (pollMode : Mode)
  | epollAdd (poll : ι) (pollMode : Mode)
  -- remove
  | remove (poll : ι)
  | pend (poll : ι)
  -- update_mode
  | updateMode (poll : ι) (newMode : Mode)
  -- ~PollThread
  | removeAll
  | setStop
  -- poll_loop
  | loopHead
  | epollWait
  | stopTest (evlist : List (ι × Ready))
  | event (poll : ι) (ev : Ready)
  | handle (poll : ι) (handler : Handler)
  | swapPending
  | unregister (poll : ι)
  | release (poll : ι)
  | releaseAll
  | closeEpoll
deriving DecidableEq, Repr

/-- The body of one turn of the loop over `evlist`. -/
def dispatch {ι : Type _} (poll : ι) (ev : Ready) : List (Sec ι) :=
  (if ev.epollin then [.handle poll .read] else []) ++
  (if ev.epollout then [.handle poll .write] else []) ++
  -- handle error after handle IO, so that we can at least process something
  (if ev.error then [.handle poll .error] else [])

structure World (ι : Type _) where
  thread : PollThread ι
  kernel : Kernel ι
  /-- calls of `ref_copy` -/
  taken : ι → Nat
  /-- calls of `release` -/
  released : ι → Nat
  stopFlag : Bool
  /-- `~PollThread` has been entered -/
  dying : Bool

/-- What is not up to the process: what `epoll_wait` reports, and the order of the
    pointers in a `std::set`. -/
structure Oracle (ι : Type _) where
  ready : List Ready
  order : List ι

section Exec

variable {ι : Type _} [DecidableEq ι] (fd : ι → Nat)

/-- `epoll_wait` reports registered descriptors only, with the pointers they were
    registered with. -/
def evlist (k : Kernel ι) (ready : List Ready) : List (ι × Ready) :=
  ready.filterMap fun ev => (k.table ev.fd).map fun r => (r.ptr, ev)

/-- The order in which a set is gone through. -/
def inOrder (order set : List ι) : List ι := if order.Perm set then order else set

/-- One section: the state after it and the sections it leads to, or `none` if a check
    fails in it.  What a handler does is up to the pollable; the calls it makes here are
    calls of the machine. -/
def exec (o : Oracle ι) (w : World ι) : Sec ι → Option (World ι × List (Sec ι))
  | .refCopy poll pollMode =>
    some ({ w with taken := Function.update w.taken poll (w.taken poll + 1) },
      [.add poll pollMode, .epollAdd poll pollMode])
  | .add poll pollMode => do
    let thread ← w.thread.add poll (fd poll) pollMode
    -- from now on the number stands for this pollable
    return ({ w with thread, kernel := w.kernel.setDesc (fd poll) (.tied poll) }, [])
  | .epollAdd poll pollMode => do
    let kernel ← w.kernel.epollAdd (fd poll) (PollThread.addEvent poll pollMode)
    return ({ w with kernel }, [])
  | .remove poll => do
    let (found, thread) ← w.thread.remove poll (fd poll)
    return ({ w with thread }, if found then [.pend poll] else [])
  | .pend poll => some ({ w with thread := w.thread.pend poll }, [])
  | .updateMode poll newMode => do
    let (_, thread, kernel) ← w.thread.updateMode w.kernel poll (fd poll) newMode
    return ({ w with thread, kernel }, [])
  | .removeAll => some (w, (inOrder o.order w.thread.pollSet).map .remove ++ [.setStop])
  | .setStop => some ({ w with stopFlag := true }, [])
  | .loopHead => some (w, if w.stopFlag then [.releaseAll] else [.epollWait])
  | .epollWait => some (w, [.stopTest (evlist w.kernel o.ready)])
  | .stopTest evlist => some (w, if w.stopFlag then [.releaseAll] else
      evlist.map (fun e => .event e.1 e.2) ++ [.swapPending])
  | .event poll ev => some (w, dispatch poll ev)
  | .handle _ _ => some (w, [])
  | .swapPending =>
    some ({ w with thread := { w.thread with pendingRemove := [] } },
      (inOrder o.order w.thread.pendingRemove).flatMap
        (fun poll => [.unregister poll, .release poll]) ++ [.loopHead])
  | .unregister poll => some ({ w with kernel := w.thread.unregister w.kernel (fd poll) }, [])
  | .release poll =>
    some ({ w with released := Function.update w.released poll (w.released poll + 1) }, [])
  -- when stopping, release anything registered in pollmgr
  | .releaseAll => some (w, (inOrder o.order w.thread.pollSet).map .release ++ [.closeEpoll])
  | .closeEpoll => some (w, [])

end Exec

-- ============================================================================
-- Threads and moves
-- ============================================================================

/-- The threads are the poll thread, which is `none`, and the callers. -/
abbrev Config (ι κ : Type _) := Threads (Option κ) (Sec ι) (World ι)

inductive Call (ι : Type _)
  | add (poll : ι) (pollMode : Mode)
  | remove (poll : ι)
  | updateMode (poll : ι) (newMode : Mode)
deriving DecidableEq, Repr

def Call.sections {ι : Type _} : Call ι → List (Sec ι)
  | .add poll pollMode => [.refCopy poll pollMode]
  | .remove poll => [.remove poll]
  | .updateMode poll newMode => [.updateMode poll newMode]

inductive Act (ι κ : Type _)
  /-- thread `t` runs its next section -/
  | exec (t : Option κ) (o : Oracle ι)
  /-- a caller, which has returned from its last call, calls -/
  | call (k : κ) (c : Call ι)
  /-- the process gets a descriptor with number `n` -/
  | openFd (n : Nat)
  | closeFd (n : Nat)
  /-- a caller enters `~PollThread` -/
  | destroy (k : κ)

section Step

variable {ι κ : Type _} [DecidableEq ι] [DecidableEq κ] (fd : ι → Nat)

/-- Nothing is registered, and the poll thread is about to enter its loop. -/
def start : Config ι κ where
  world :=
    { thread := PollThread.empty
      kernel := ⟨fun _ => .closed, fun _ => none⟩
      taken := fun _ => 0
      released := fun _ => 0
      stopFlag := false
      dying := false }
  code t := if t = none then [.loopHead] else []
  crashed := none

/-- The caller has returned from its last call. -/
def Idle (c : Config ι κ) (k : κ) : Prop := c.code (some k) = []

instance (c : Config ι κ) (k : κ) : Decidable (Idle c k) := by
  unfold Idle; infer_instance

def step (a : Act ι κ) (c : Config ι κ) : Option (Config ι κ) :=
  match a with
  | .exec t o => c.run (exec fd o) t
  | .call k call => do
    verify (c.crashed = none ∧ Idle c k)
    return c.load (some k) call.sections
  | .openFd n => do
    verify (c.crashed = none ∧ c.world.kernel.desc n = .closed)
    return { c with world := { c.world with kernel := c.world.kernel.setDesc n .held } }
  | .closeFd n => do
    verify (c.crashed = none)
    return { c with world := { c.world with kernel := c.world.kernel.close n } }
  | .destroy k => do
    verify (c.crashed = none ∧ Idle c k)
    return { c.load (some k) [.removeAll] with world := { c.world with dying := true } }

/-- Runs in which every move is one that `allowed` admits. -/
def Run (allowed : Config ι κ → Act ι κ → Prop) : Config ι κ → Prop :=
  Reach (· = start) fun c c' => ∃ a, allowed c a ∧ step fd a c = some c'

/-- The moves one after the other, as long as they are admitted. -/
def runMoves (allowed : Config ι κ → Act ι κ → Prop) [∀ c a, Decidable (allowed c a)]
    (as : List (Act ι κ)) : Option (Config ι κ) :=
  runActs (fun a c => if allowed c a then step fd a c else none) as start

/-- The state after the moves, which are expected to go through. -/
def afterMoves (allowed : Config ι κ → Act ι κ → Prop) [∀ c a, Decidable (allowed c a)]
    (as : List (Act ι κ)) : Config ι κ :=
  (runMoves fd allowed as).getD start

variable {fd} {allowed allowed' : Config ι κ → Act ι κ → Prop} {c : Config ι κ}

theorem Run.of_moves [∀ c a, Decidable (allowed c a)] {as : List (Act ι κ)}
    (h : (runMoves fd allowed as).isSome) : Run fd allowed (afterMoves fd allowed as) := by
  obtain ⟨c, hc⟩ := Option.isSome_iff_exists.mp h
  rw [afterMoves, hc, Option.getD_some]
  refine Reach.of_runActs ?_ (Reach.start rfl) hc
  intro a _ t t' hstep
  by_cases hok : allowed t a
  · rw [if_pos hok] at hstep
    exact ⟨a, hok, hstep⟩
  · rw [if_neg hok] at hstep
    cases hstep

end Step

end VncProxy.PollMgr
