/-
  VncProxy.Proxy.Machine

  The threads of the proxy: the poll thread, the cleanup thread, and one worker
  for each `tie_fd` call.  An `Instr` is one atomic section of the source; a
  function of the source is the list of its sections, and a call in the middle
  of a function puts the sections of the callee in front of the rest.

  `step` is one move of the whole system: a thread runs its next section, or the
  environment acts (epoll_wait returns a batch, a worker reaches `tie_fd`, the
  cleanup thread wakes up, a socket is handed out or given back).
-/
import VncProxy.Lib.Reach
import VncProxy.Lib.Threads
import VncProxy.Proxy.World

namespace VncProxy.Proxy

open Lib (Threads)
open Polling

-- ============================================================================
-- Sections
-- ============================================================================

/-- The `events` of one entry that `epoll_wait` returns. -/
structure Events where
  epollin : Bool
  epollout : Bool
  epollerr : Bool
  epollhup : Bool
  epollrdhup : Bool
deriving DecidableEq, Repr

/-- `events & (EPOLLERR | EPOLLHUP | EPOLLRDHUP)` -/
def Events.error (ev : Events) : Bool := ev.epollerr || ev.epollhup || ev.epollrdhup

inductive Instr
  -- tie_fd, with PollThread::add in three sections
  | tie (e o : Ep) (key : Key)
  | refCopy (e : Ep)
  | add (e : Ep)
  | epollAdd (e : Ep)
  | ready (e : Ep)
  -- EndPoint::shutdown, with PollThread::remove in two sections
  | shutdown (e : Ep)
  | close (e : Ep)
  | remove (e : Ep)
  | pend (e : Ep)
  | leaderPart (e : Ep)
  | eraseLeader (e : Ep)
  | logShutdown (e : Ep)
  | release (e : Ep)
  -- EndPoint::cleanup
  | collect (valid : List Key)
  -- PollThread::poll_loop
  | event (e : Ep) (ev : Events)
  | handleRead (e : Ep)
  | handleWrite (e : Ep)
  | handleError (e : Ep)
  | swapPending
  | unregister (e : Ep)
  | drop (e : Ep)
deriving DecidableEq, Repr

/-- `tie_fd` after the two `new EndPoint`, for pair `p`. -/
def tieFd (p : Nat) (key : Key) : List Instr :=
  let ep1 : Ep := ⟨p, .first⟩
  let ep2 : Ep := ⟨p, .second⟩
  [.tie ep1 ep2 key,
   .refCopy ep1, .add ep1, .epollAdd ep1,
   .refCopy ep2, .add ep2, .epollAdd ep2,
   .ready ep1, .ready ep2]

/-- The body of one turn of the loop over `evlist`. -/
def dispatch (e : Ep) (ev : Events) : List Instr :=
  (if ev.epollin then [.handleRead e] else []) ++
  (if ev.epollout then [.handleWrite e] else []) ++
  -- handle error after handle IO, so that we can at least process something
  (if ev.error then [.handleError e] else [])

/-- What is not up to the process: the results of its system calls, and the
    order of the pointers in a `std::set`. -/
structure Oracle where
  offers : List (Option (List Byte))
  accepts : List Int
  order : List Ep
deriving DecidableEq, Repr

/-- `handle_error`: whom it shuts down. -/
def handleError (w : World) (e : Ep) : Option (List Instr) :=
  if (w.ep e).enabled = false then some [] else
  if (w.ep e).leader then some [.shutdown e] else
  -- peer is leader
  match (w.ep e).peer with
  | none => none
  | some peer => some [.shutdown peer]

/-- One section: the state after it and the sections it leads to, or `none` if a
    check fails in it or it follows a null pointer. -/
def exec (o : Oracle) (w : World) : Instr → Option (World × List Instr)
  | .tie e other key => some (w.tie e other key, [])
  | .refCopy e => some (w.refCopy e, [])
  | .add e => do
    let thread ← w.thread.add e (w.ep e).fd pollMode
    return ({ w with thread }, [])
  | .epollAdd e => do
    let fd := (w.ep e).fd
    let kernel ← w.kernel.epollAdd fd (PollThread.addEvent e pollMode)
    return ({ w with kernel }.emit [.ctl .add fd], [])
  | .ready e => some (w.ready e, [])
  | .shutdown e => some (w.emit [.shutdown e], [.close e, .remove e, .leaderPart e, .release e])
  | .close e =>
    let fd := (w.ep e).fd
    some ({ w with kernel := w.kernel.close fd }.emit [.close e fd], [])
  | .remove e => do
    let (found, thread) ← w.thread.remove e (w.ep e).fd
    return ({ w with thread }, if found then [.pend e] else [])
  | .pend e => some ({ w with thread := w.thread.pend e }, [])
  | .leaderPart e =>
    if (w.ep e).leader then
      match (w.ep e).peer with
      | none => none
      | some peer => some (w, [.shutdown peer, .eraseLeader e, .logShutdown e])
    else some (w, [])
  | .eraseLeader e =>
    some ({ w with leaders := World.eraseLeader (w.ep e).forwardKey e w.leaders }, [])
  | .logShutdown e =>
    match (w.ep e).peer with
    | none => none
    | some _ => some (w, [])
  | .release e => do return (← w.release e, [])
  | .collect valid => some (w, (World.outliers valid w.leaders).map .shutdown)
  | .event e ev => some (w, dispatch e ev)
  | .handleRead e => do return (← w.handleRead e o.offers, [])
  | .handleWrite e => do return (← w.handleWrite e o.accepts, [])
  | .handleError e => do return (w, ← handleError w e)
  | .swapPending =>
    let removePoll :=
      if o.order.Perm w.thread.pendingRemove then o.order else w.thread.pendingRemove
    some ({ w with thread := { w.thread with pendingRemove := [] } },
      removePoll.flatMap fun e => [.unregister e, .drop e])
  | .unregister e =>
    some ({ w with kernel := w.thread.unregister w.kernel (w.ep e).fd }, [])
  | .drop e => do return (← w.release e, [])

-- ============================================================================
-- Threads and moves
-- ============================================================================

inductive Tid
  | poll
  | cleanup
  | worker (pair : Nat)
deriving DecidableEq, Repr

abbrev Config := Threads Tid Instr World

/-- No thread has anything to do yet. -/
def Config.start : Config := ⟨World.start, fun _ => [], none⟩

/-- `max_nev` -/
def maxNev : Nat := 100

inductive Act
  /-- thread `t` runs its next section -/
  | exec (t : Tid) (o : Oracle)
  /-- `epoll_wait` returns these entries, by descriptor -/
  | wait (batch : List (Nat × Events))
  /-- a worker calls `tie_fd` -/
  | tieFd (key : Key) (fd1 fd2 : Nat)
  /-- the cleanup thread calls `EndPoint::cleanup` -/
  | cleanup (valid : List Key)
  /-- `accept` or `connect_to` hands out a number -/
  | grab (fd : Nat)
  /-- a worker closes a socket that it does not tie -/
  | giveBack (fd : Nat)
deriving DecidableEq, Repr

/-- The entries of a batch carry the pointers they were registered with. -/
def entries (k : Kernel Ep) : List (Nat × Events) → Option (List Instr)
  | [] => some []
  | (fd, ev) :: batch => do
    let r ← k.table fd
    return .event r.ptr ev :: (← entries k batch)

def step (a : Act) (c : Config) : Option Config :=
  match a with
  | .exec t o => c.run (exec o) t
  | .wait batch =>
    if c.crashed = none ∧ c.code .poll = [] ∧ batch.length ≤ maxNev ∧
        (batch.map Prod.fst).Nodup then
      (entries c.world.kernel batch).map fun evs => c.load .poll (evs ++ [.swapPending])
    else none
  | .tieFd key fd1 fd2 =>
    if c.crashed = none ∧ c.world.kernel.desc fd1 = .held ∧ c.world.kernel.desc fd2 = .held ∧
        fd1 ≠ fd2 then
      some { c.load (.worker c.world.pairs) (tieFd c.world.pairs key) with
        world := c.world.newPair fd1 fd2 }
    else none
  | .cleanup valid =>
    if c.crashed = none ∧ c.code .cleanup = [] then
      some (c.load .cleanup [.collect valid])
    else none
  | .grab fd =>
    if c.crashed = none ∧ c.world.kernel.desc fd = .closed then
      some { c with world := { c.world with kernel := c.world.kernel.setDesc fd .held } }
    else none
  | .giveBack fd =>
    if c.crashed = none ∧ c.world.kernel.desc fd = .held then
      some { c with world := { c.world with kernel := c.world.kernel.close fd } }
    else none

/-- Runs in which every move is one that `allowed` admits. -/
def Run (allowed : Config → Act → Prop) : Config → Prop :=
  Lib.Reach (· = Config.start) fun c c' => ∃ a, allowed c a ∧ step a c = some c'

/-- A list of moves that goes through, each of them admitted where it is made, is
    a run. -/
theorem Run.of_acts {allowed : Config → Act → Prop} [∀ c a, Decidable (allowed c a)]
    {as : List Act} {c : Config}
    (h : Lib.runActs (fun a c => if allowed c a then step a c else none) as Config.start = some c) :
    Run allowed c := by
  refine Lib.Reach.of_runActs ?_ (Lib.Reach.start rfl) h
  intro a _ t t' hstep
  by_cases hok : allowed t a
  · rw [if_pos hok] at hstep
    exact ⟨a, hok, hstep⟩
  · rw [if_neg hok] at hstep
    cases hstep

/-- Every system call finds nothing to do. -/
def Oracle.idle : Oracle := ⟨[], [], []⟩

/-- Two sockets are tied, and nothing happens in between. -/
def tieActs (key : Key) (fd1 fd2 : Nat) : List Act :=
  [.grab fd1, .grab fd2, .tieFd key fd1 fd2] ++ List.replicate 9 (.exec (.worker 0) .idle)

/-- `EPOLLIN` -/
def readable : Events := ⟨true, false, false, false, false⟩

/-- `EPOLLOUT` -/
def writable : Events := ⟨false, true, false, false, false⟩

/-- `EPOLLIN | EPOLLRDHUP` -/
def closing : Events := ⟨true, false, false, false, true⟩

/-- `EPOLLHUP | EPOLLRDHUP` -/
def hangUp : Events := ⟨false, false, false, true, true⟩

/-- Descriptor 3 hangs up, and the poll thread shuts the pair down and drops it:
    the event, its handler, fourteen sections, and the removal pass. -/
def teardownActs : List Act :=
  [.wait [(3, hangUp)]] ++ List.replicate 21 (.exec .poll .idle)

-- ============================================================================
-- What a section dereferences
-- ============================================================================

/-- The endpoints whose memory a section reads or writes. -/
def touches (w : World) : Instr → List Ep
  | .tie e o _ => [e, o]
  | .refCopy e | .add e | .ready e => [e]
  | .epollAdd _ => []
  | .shutdown e | .close e | .remove e | .eraseLeader e | .release e => [e]
  | .pend _ => []
  | .leaderPart e => e :: (if (w.ep e).leader then (w.ep e).peer.toList else [])
  | .logShutdown e => e :: (w.ep e).peer.toList
  | .collect _ => []
  | .event _ _ => []
  | .handleRead e => e :: (if (w.ep e).enabled then (w.ep e).peer.toList else [])
  | .handleWrite e => [e]
  | .handleError e =>
    e :: (if (w.ep e).enabled ∧ ¬ (w.ep e).leader then (w.ep e).peer.toList else [])
  | .swapPending => []
  | .unregister e | .drop e => [e]

end VncProxy.Proxy
