/-
  VncProxy.Polling.PollThread

  `PollMgr::PollThread` of polling.cc (epoll build), over pollables of any type
  `ι`.  Every function here is one section of the source that runs under one
  lock, so the interleavings of several threads are interleavings of these.

  `Kernel` is the part of the operating system they meet: who holds each
  descriptor number, and the table of the epoll instance.  Closing a descriptor
  drops its registration.
-/
import VncProxy.Lib.Verify
import Mathlib.Logic.Function.Basic
import Mathlib.Data.List.Nodup

namespace VncProxy.Polling

open Lib (verify)

-- ============================================================================
-- Poll modes
-- ============================================================================

/-- The `int` of `poll_mode()`, a set of bits. -/
abbrev Mode := BitVec 32

namespace Pollable

def READ : Mode := 0x1

def WRITE : Mode := 0x2

end Pollable

/-- `mode & flag` -/
def Mode.has (mode flag : Mode) : Bool := mode &&& flag != 0

-- ============================================================================
-- The kernel side
-- ============================================================================

/-- What a descriptor number stands for: nothing, a socket that some thread
    holds, or the socket of a pollable. -/
inductive Desc (ι : Type _)
  | closed
  | held
  | tied (poll : ι)
deriving DecidableEq, Repr

/-- The `struct epoll_event` of a registration.  `EPOLLET | EPOLLRDHUP` is always
    set. -/
structure Interest (ι : Type _) where
  ptr : ι
  epollin : Bool
  epollout : Bool
deriving DecidableEq, Repr

/-- The operations of `epoll_ctl`. -/
inductive CtlOp
  | add
  | mod
  | del
deriving DecidableEq, Repr

structure Kernel (ι : Type _) where
  desc : Nat → Desc ι
  table : Nat → Option (Interest ι)

namespace Kernel

variable {ι : Type _} [DecidableEq ι]

def setDesc (k : Kernel ι) (fd : Nat) (d : Desc ι) : Kernel ι :=
  { k with desc := Function.update k.desc fd d }

/-- `close(fd)`, whoever holds the number by now. -/
def close (k : Kernel ι) (fd : Nat) : Kernel ι where
  desc := Function.update k.desc fd .closed
  table := Function.update k.table fd none

/-- `epoll_ctl(poll_fd_, EPOLL_CTL_ADD, fd, &ev)`, which fails on a descriptor
    that is closed or already registered. -/
def epollAdd (k : Kernel ι) (fd : Nat) (ev : Interest ι) : Option (Kernel ι) := do
  verify (k.desc fd ≠ .closed)
  verify (k.table fd = none)
  return { k with table := Function.update k.table fd (some ev) }

/-- `EPOLL_CTL_MOD`, which fails on a descriptor that is not registered. -/
def epollMod (k : Kernel ι) (fd : Nat) (ev : Interest ι) : Option (Kernel ι) := do
  verify (k.table fd ≠ none)
  return { k with table := Function.update k.table fd (some ev) }

/-- `EPOLL_CTL_DEL`, whose result nobody looks at. -/
def epollDel (k : Kernel ι) (fd : Nat) : Kernel ι :=
  { k with table := Function.update k.table fd none }

end Kernel

-- ============================================================================
-- The poll thread
-- ============================================================================

structure PollThread (ι : Type _) where
  mode : Nat → Option Mode
  pollSet : List ι
  pendingRemove : List ι

namespace PollThread

variable {ι : Type _} [DecidableEq ι]

def empty : PollThread ι := ⟨fun _ => none, [], []⟩

/-- The section of `add` under `m_`. -/
def add (t : PollThread ι) (poll : ι) (fd : Nat) (pollMode : Mode) : Option (PollThread ι) := do
  -- verify not exists
  verify (poll ∉ t.pollSet)
  verify (t.mode fd = none)
  return { t with
    pollSet := poll :: t.pollSet
    mode := Function.update t.mode fd (some pollMode) }

/-- The event `add` registers: `EPOLLIN` always, `EPOLLOUT` if asked for. -/
def addEvent (poll : ι) (pollMode : Mode) : Interest ι :=
  ⟨poll, true, pollMode.has Pollable.WRITE⟩

/-- The section of `remove` under `m_`, and whether the pollable was there. -/
def remove (t : PollThread ι) (poll : ι) (fd : Nat) : Option (Bool × PollThread ι) :=
  if poll ∈ t.pollSet then do
    verify (t.mode fd ≠ none)
    return (true, { t with
      pollSet := t.pollSet.erase poll
      mode := Function.update t.mode fd none })
  else do
    verify (t.mode fd = none)
    return (false, t)

/-- The section of `remove` under `pending_remove_m_`. -/
def pend (t : PollThread ι) (poll : ι) : PollThread ι :=
  { t with pendingRemove := t.pendingRemove.insert poll }

/-- The event `update_mode` registers. -/
def modEvent (poll : ι) (newMode : Mode) : Interest ι :=
  ⟨poll, newMode.has Pollable.READ, newMode.has Pollable.WRITE⟩

/-- `update_mode`: both sides after it, and whether it came to `epoll_ctl`. -/
def updateMode (t : PollThread ι) (k : Kernel ι) (poll : ι) (fd : Nat) (newMode : Mode) :
    Option (Bool × PollThread ι × Kernel ι) :=
  if poll ∉ t.pollSet then some (false, t, k) else
  match t.mode fd with
  | none => none
  | some oldMode =>
    let t := { t with mode := Function.update t.mode fd (some newMode) }
    if newMode ≠ oldMode then do
      return (true, t, ← k.epollMod fd (modEvent poll newMode))
    else
      return (false, t, k)

/-- The kernel side of the removal pass for one pollable.  The number is left
    alone when it is in use again: `mode_` then contains its info. -/
def unregister (t : PollThread ι) (k : Kernel ι) (fd : Nat) : Kernel ι :=
  if t.mode fd = none then k.epollDel fd else k

end PollThread

end VncProxy.Polling
