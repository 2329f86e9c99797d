/-
  VncProxy.Proxy.World

  The objects that the threads of the proxy share: the endpoints of vncproxy.cc,
  the registry `all_tie_leaders`, the poll thread and the kernel.

  An endpoint is named by the `tie_fd` call that made it and its place there, so
  a name is never reused; what the source reaches through a dangling pointer is
  the endpoint as it was left.  `trace` is what the process has done to
  descriptors so far, oldest first.
-/
import VncProxy.Marshal.Basic
import VncProxy.Polling.PollThread
import Mathlib.Data.List.Sort

namespace VncProxy.Proxy

open Lib (verify)
open Polling

-- ============================================================================
-- Endpoints
-- ============================================================================

/-- `ep1` or `ep2` of a `tie_fd` call. -/
inductive Side
  | first
  | second
deriving DecidableEq, Repr

def Side.other : Side → Side
  | .first => .second
  | .second => .first

/-- An `EndPoint*`. -/
structure Ep where
  pair : Nat
  side : Side
deriving DecidableEq, Repr

/-- The other endpoint of the same `tie_fd` call. -/
def Ep.other (e : Ep) : Ep := ⟨e.pair, e.side.other⟩

/-- A `std::string` that holds a forward key. -/
abbrev Key := List Byte

/-- The fields of `EndPoint` and of its base `RefCounted`. -/
structure EndPoint where
  fd : Nat
  peer : Option Ep
  forwardKey : Key
  leader : Bool
  buf : Marshal
  enabled : Bool
  refcnt : Int
deriving DecidableEq, Repr

/-- `EndPoint(pmgr, fd)` -/
def EndPoint.new (fd : Nat) : EndPoint where
  fd := fd
  peer := none
  forwardKey := []
  leader := false
  buf := Marshal.empty
  enabled := false
  refcnt := 1

theorem EndPoint.new_content (fd : Nat) : (EndPoint.new fd).buf.content = [] := by
  simp [EndPoint.new, Marshal.empty, Marshal.content]

/-- `EndPoint::poll_mode()` -/
def pollMode : Mode := Pollable.READ ||| Pollable.WRITE

-- ============================================================================
-- The shared state
-- ============================================================================

/-- What the process does that can be seen from outside. -/
inductive Event
  | call (e : Ep) (fd : Nat) (c : FdCall)
  | close (e : Ep) (fd : Nat)
  | ctl (op : CtlOp) (fd : Nat)
  | shutdown (e : Ep)
deriving DecidableEq, Repr

structure World where
  pairs : Nat
  ep : Ep → EndPoint
  leaders : List (Key × Ep)
  thread : PollThread Ep
  kernel : Kernel Ep
  trace : List Event

namespace World

/-- Before the first client: nothing is open that matters here. -/
def start : World where
  pairs := 0
  ep := fun _ => EndPoint.new 0
  leaders := []
  thread := PollThread.empty
  kernel := ⟨fun _ => .closed, fun _ => none⟩
  trace := []

def setEp (w : World) (e : Ep) (x : EndPoint) : World :=
  { w with ep := Function.update w.ep e x }

def emit (w : World) (evs : List Event) : World :=
  { w with trace := w.trace ++ evs }

section Frame

variable (w : World) (e f : Ep) (x : EndPoint) (evs : List Event)

@[simp] theorem setEp_ep : (w.setEp e x).ep = Function.update w.ep e x := rfl
@[simp] theorem setEp_pairs : (w.setEp e x).pairs = w.pairs := rfl
@[simp] theorem setEp_leaders : (w.setEp e x).leaders = w.leaders := rfl
@[simp] theorem setEp_thread : (w.setEp e x).thread = w.thread := rfl
@[simp] theorem setEp_kernel : (w.setEp e x).kernel = w.kernel := rfl
@[simp] theorem setEp_trace : (w.setEp e x).trace = w.trace := rfl
@[simp] theorem emit_ep : (w.emit evs).ep = w.ep := rfl
@[simp] theorem emit_pairs : (w.emit evs).pairs = w.pairs := rfl
@[simp] theorem emit_leaders : (w.emit evs).leaders = w.leaders := rfl
@[simp] theorem emit_thread : (w.emit evs).thread = w.thread := rfl
@[simp] theorem emit_kernel : (w.emit evs).kernel = w.kernel := rfl
@[simp] theorem emit_trace : (w.emit evs).trace = w.trace ++ evs := rfl

end Frame

-- ============================================================================
-- RefCounted
-- ============================================================================

def refCopy (w : World) (e : Ep) : World :=
  w.setEp e { w.ep e with refcnt := (w.ep e).refcnt + 1 }

def release (w : World) (e : Ep) : Option World := do
  let refcnt := (w.ep e).refcnt - 1
  verify (refcnt ≥ 0)
  return w.setEp e { w.ep e with refcnt }

-- ============================================================================
-- The registry
-- ============================================================================

/-- `all_tie_leaders.insert(make_pair(key, e))`: behind the equal keys. -/
def insertLeader (key : Key) (e : Ep) (leaders : List (Key × Ep)) : List (Key × Ep) :=
  leaders.orderedInsert (fun a b => a.1 < b.1) (key, e)

/-- The loop of `shutdown` over the entries with the endpoint's key. -/
def eraseLeader (key : Key) (e : Ep) (leaders : List (Key × Ep)) : List (Key × Ep) :=
  leaders.erase (key, e)

/-- What `cleanup` collects under the registry lock. -/
def outliers (valid : List Key) (leaders : List (Key × Ep)) : List Ep :=
  (leaders.filter fun entry => entry.1 ∉ valid).map Prod.snd

-- ============================================================================
-- EndPoint
-- ============================================================================

/-- `new EndPoint` twice, for the two sockets a worker hands to `tie_fd`. -/
def newPair (w : World) (fd1 fd2 : Nat) : World :=
  let l : Ep := ⟨w.pairs, .first⟩
  let f : Ep := ⟨w.pairs, .second⟩
  { w with
    pairs := w.pairs + 1
    ep := Function.update (Function.update w.ep l (EndPoint.new fd1)) f (EndPoint.new fd2)
    kernel := (w.kernel.setDesc fd1 (.tied l)).setDesc fd2 (.tied f) }

def tie (w : World) (e o : Ep) (key : Key) : World :=
  let w := w.setEp e { w.ep e with forwardKey := key, leader := true, peer := some o }
  let w := w.setEp o { w.ep o with peer := some e }
  { w with leaders := insertLeader (w.ep e).forwardKey e w.leaders }

def ready (w : World) (e : Ep) : World :=
  w.setEp e { w.ep e with enabled := true }

/-- `poll_->update_mode(e, newMode)` -/
def updateMode (w : World) (e : Ep) (newMode : Mode) : Option World := do
  let fd := (w.ep e).fd
  let (changed, thread, kernel) ← w.thread.updateMode w.kernel e fd newMode
  return { w with thread, kernel }.emit (if changed then [.ctl .mod fd] else [])

/-- `handle_read`; `offers` is what the calls of `::read` find. -/
def handleRead (w : World) (e : Ep) (offers : List (Option (List Byte))) : Option World :=
  if (w.ep e).enabled = false then some w else
  match (w.ep e).peer with
  | none => none
  | some peer => do
    let fd := (w.ep e).fd
    let (cnt, calls, buf) ← (w.ep peer).buf.readFromFd offers
    let w := (w.setEp peer { w.ep peer with buf }).emit (calls.map (Event.call e fd))
    if cnt > 0 then
      w.updateMode peer (Pollable.READ ||| Pollable.WRITE)
    else
      return w

/-- `handle_write`; `accepts` is what the calls of `::write` return. -/
def handleWrite (w : World) (e : Ep) (accepts : List Int) : Option World :=
  if (w.ep e).enabled = false then some w else do
    let fd := (w.ep e).fd
    let (_, calls, buf) ← (w.ep e).buf.writeToFd accepts
    let w := (w.setEp e { w.ep e with buf }).emit (calls.map (Event.call e fd))
    if ← buf.contentSizeGt 0 then
      w.updateMode e (Pollable.READ ||| Pollable.WRITE)
    else
      w.updateMode e Pollable.READ

end World

end VncProxy.Proxy
