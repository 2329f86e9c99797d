/-
  VncProxy.Proxy.Sections

  What each section can do, said once: for every section that can fail or branch,
  the exact condition under which it succeeds, the state after it and the
  sections it leads to.  The state after a section has a name of its own, with
  the fields it changes as simp lemmas.
-/
import VncProxy.Proxy.Handlers
import VncProxy.Proxy.Machine

namespace VncProxy.Proxy

open Polling

namespace World

variable (w : World) (e : Ep)

-- ============================================================================
-- The states after the sections
-- ============================================================================

/-- After the section of `PollThread::add` under `m_`. -/
def added : World :=
  { w with thread := { w.thread with
      pollSet := e :: w.thread.pollSet
      mode := Function.update w.thread.mode (w.ep e).fd (some pollMode) } }

/-- After `EPOLL_CTL_ADD`. -/
def registered : World :=
  { w with kernel := { w.kernel with
      table := Function.update w.kernel.table (w.ep e).fd
        (some (PollThread.addEvent e pollMode)) } }.emit [.ctl .add (w.ep e).fd]

/-- After `close(fd_)`. -/
def closed : World :=
  { w with kernel := w.kernel.close (w.ep e).fd }.emit [.close e (w.ep e).fd]

/-- After the section of `PollThread::remove` under `m_`, for a pollable that was
    registered. -/
def removed : World :=
  { w with thread := { w.thread with
      pollSet := w.thread.pollSet.erase e
      mode := Function.update w.thread.mode (w.ep e).fd none } }

/-- After `pending_remove_.insert`. -/
def pended : World := { w with thread := w.thread.pend e }

/-- After `release`. -/
def released : World := w.setEp e { w.ep e with refcnt := (w.ep e).refcnt - 1 }

/-- After the leader's entry is erased from the registry. -/
def forgotten : World :=
  { w with leaders := World.eraseLeader (w.ep e).forwardKey e w.leaders }

/-- After the swap of `pending_remove_`. -/
def swapped : World := { w with thread := { w.thread with pendingRemove := [] } }

/-- After the kernel side of the removal pass. -/
def unregistered : World :=
  { w with kernel := w.thread.unregister w.kernel (w.ep e).fd }

end World

-- ============================================================================
-- The sections that can fail or branch
-- ============================================================================

section Exec

variable {w w' : World} {o : Oracle} {e : Ep} {pre : List Instr}

theorem exec_add : exec o w (.add e) = some (w', pre) ↔
    e ∉ w.thread.pollSet ∧ w.thread.mode (w.ep e).fd = none ∧ w' = w.added e ∧ pre = [] := by
  by_cases hin : e ∈ w.thread.pollSet <;> by_cases hmode : w.thread.mode (w.ep e).fd = none <;>
    simp [exec, PollThread.add, hin, hmode, Lib.verify, World.added, @eq_comm _ _ w', @eq_comm _ _ pre]

theorem exec_epollAdd : exec o w (.epollAdd e) = some (w', pre) ↔
    w.kernel.desc (w.ep e).fd ≠ .closed ∧ w.kernel.table (w.ep e).fd = none ∧
      w' = w.registered e ∧ pre = [] := by
  by_cases hd : w.kernel.desc (w.ep e).fd = .closed <;>
    by_cases ht : w.kernel.table (w.ep e).fd = none <;>
    simp [exec, Kernel.epollAdd, hd, ht, Lib.verify, World.registered,
    @eq_comm _ _ w', @eq_comm _ _ pre]

theorem exec_remove : exec o w (.remove e) = some (w', pre) ↔
    (e ∈ w.thread.pollSet ∧ w.thread.mode (w.ep e).fd ≠ none ∧
        w' = w.removed e ∧ pre = [.pend e]) ∨
      (e ∉ w.thread.pollSet ∧ w.thread.mode (w.ep e).fd = none ∧ w' = w ∧ pre = []) := by
  by_cases hin : e ∈ w.thread.pollSet <;> by_cases hmode : w.thread.mode (w.ep e).fd = none <;>
    simp [exec, PollThread.remove, hin, hmode, Lib.verify, World.removed,
    @eq_comm _ _ w', @eq_comm _ _ pre]

theorem release_eq_some : w.release e = some w' ↔ 1 ≤ (w.ep e).refcnt ∧ w' = w.released e := by
  simp only [World.release, Option.bind_eq_bind, Lib.verify_bind_eq_some, Option.pure_def,
    Option.some.injEq, World.released, ge_iff_le, Int.sub_nonneg, @eq_comm _ _ w']

theorem exec_release : exec o w (.release e) = some (w', pre) ↔
    1 ≤ (w.ep e).refcnt ∧ w' = w.released e ∧ pre = [] := by
  simp only [exec, Option.bind_eq_bind, Option.bind_eq_some_iff, release_eq_some, Option.pure_def,
    Option.some.injEq, Prod.mk.injEq]
  constructor
  · rintro ⟨v, ⟨h, rfl⟩, rfl, rfl⟩
    exact ⟨h, rfl, rfl⟩
  · rintro ⟨h, rfl, rfl⟩
    exact ⟨_, ⟨h, rfl⟩, rfl, rfl⟩

theorem exec_drop : exec o w (.drop e) = some (w', pre) ↔
    1 ≤ (w.ep e).refcnt ∧ w' = w.released e ∧ pre = [] :=
  exec_release (o := o)

theorem exec_leaderPart : exec o w (.leaderPart e) = some (w', pre) ↔
    w' = w ∧ (((w.ep e).leader = false ∧ pre = []) ∨
      ((w.ep e).leader = true ∧ ∃ peer, (w.ep e).peer = some peer ∧
        pre = [.shutdown peer, .eraseLeader e, .logShutdown e])) := by
  cases hl : (w.ep e).leader <;> cases hp : (w.ep e).peer <;> 
    simp [exec, hl, hp, @eq_comm _ _ w', @eq_comm _ _ pre]

theorem exec_logShutdown : exec o w (.logShutdown e) = some (w', pre) ↔
    (w.ep e).peer ≠ none ∧ w' = w ∧ pre = [] := by
  cases hp : (w.ep e).peer <;> simp [exec, hp, @eq_comm _ _ w', @eq_comm _ _ pre]

theorem exec_handleError : exec o w (.handleError e) = some (w', pre) ↔
    w' = w ∧ (((w.ep e).enabled = false ∧ pre = []) ∨
      ((w.ep e).enabled = true ∧ (w.ep e).leader = true ∧ pre = [.shutdown e]) ∨
      ((w.ep e).enabled = true ∧ (w.ep e).leader = false ∧
        ∃ peer, (w.ep e).peer = some peer ∧ pre = [.shutdown peer])) := by
  cases hen : (w.ep e).enabled <;> cases hl : (w.ep e).leader <;> cases hp : (w.ep e).peer <;>
    simp [exec, handleError, hen, hl, hp, @eq_comm _ _ w', @eq_comm _ _ pre]

theorem exec_handleRead : exec o w (.handleRead e) = some (w', pre) ↔
    w.handleRead e o.offers = some w' ∧ pre = [] := by
  simp only [exec, Option.bind_eq_bind, Option.bind_eq_some_iff, Option.pure_def,
    Option.some.injEq, Prod.mk.injEq]
  constructor
  · rintro ⟨v, hv, rfl, rfl⟩
    exact ⟨hv, rfl⟩
  · rintro ⟨hv, rfl⟩
    exact ⟨_, hv, rfl, rfl⟩

theorem exec_handleWrite : exec o w (.handleWrite e) = some (w', pre) ↔
    w.handleWrite e o.accepts = some w' ∧ pre = [] := by
  simp only [exec, Option.bind_eq_bind, Option.bind_eq_some_iff, Option.pure_def,
    Option.some.injEq, Prod.mk.injEq]
  constructor
  · rintro ⟨v, hv, rfl, rfl⟩
    exact ⟨hv, rfl⟩
  · rintro ⟨hv, rfl⟩
    exact ⟨_, hv, rfl, rfl⟩

/-- The handlers that an event leads to, by its flags. -/
theorem mem_dispatch {ev : Events} {i : Instr} (h : i ∈ dispatch e ev) :
    (i = .handleRead e ∧ ev.epollin = true) ∨ (i = .handleWrite e ∧ ev.epollout = true) ∨
      (i = .handleError e ∧ ev.error = true) := by
  unfold dispatch at h
  rcases List.mem_append.mp h with h | h
  · rcases List.mem_append.mp h with h | h
    · split at h
      · rename_i hin
        exact Or.inl ⟨List.mem_singleton.mp h, hin⟩
      · cases h
    · split at h
      · rename_i hout
        exact Or.inr (Or.inl ⟨List.mem_singleton.mp h, hout⟩)
      · cases h
  · split at h
    · rename_i herr
      exact Or.inr (Or.inr ⟨List.mem_singleton.mp h, herr⟩)
    · cases h

/-- The removal pass takes every pending pollable once, in some order. -/
theorem exec_swapPending (h : exec o w .swapPending = some (w', pre)) :
    w' = w.swapped ∧ ∃ removePoll : List Ep, removePoll.Perm w.thread.pendingRemove ∧
      pre = removePoll.flatMap fun e => [.unregister e, .drop e] := by
  obtain ⟨rfl, rfl⟩ := Prod.mk.inj (Option.some.inj h)
  refine ⟨rfl, _, ?_, rfl⟩
  by_cases hp : o.order.Perm w.thread.pendingRemove
  · rwa [if_pos hp]
  · rw [if_neg hp]

end Exec

-- ============================================================================
-- Fields after the sections
-- ============================================================================

namespace World

variable (w : World) (e x : Ep)

@[simp] theorem added_ep : (w.added e).ep = w.ep := rfl
@[simp] theorem added_pairs : (w.added e).pairs = w.pairs := rfl
@[simp] theorem added_leaders : (w.added e).leaders = w.leaders := rfl
@[simp] theorem added_kernel : (w.added e).kernel = w.kernel := rfl
@[simp] theorem added_trace : (w.added e).trace = w.trace := rfl
@[simp] theorem added_pendingRemove :
    (w.added e).thread.pendingRemove = w.thread.pendingRemove := rfl

@[simp] theorem registered_ep : (w.registered e).ep = w.ep := rfl
@[simp] theorem registered_pairs : (w.registered e).pairs = w.pairs := rfl
@[simp] theorem registered_leaders : (w.registered e).leaders = w.leaders := rfl
@[simp] theorem registered_thread : (w.registered e).thread = w.thread := rfl
@[simp] theorem registered_desc : (w.registered e).kernel.desc = w.kernel.desc := rfl
@[simp] theorem registered_trace :
    (w.registered e).trace = w.trace ++ [.ctl .add (w.ep e).fd] := rfl

@[simp] theorem closed_ep : (w.closed e).ep = w.ep := rfl
@[simp] theorem closed_pairs : (w.closed e).pairs = w.pairs := rfl
@[simp] theorem closed_leaders : (w.closed e).leaders = w.leaders := rfl
@[simp] theorem closed_thread : (w.closed e).thread = w.thread := rfl
@[simp] theorem closed_desc :
    (w.closed e).kernel.desc = Function.update w.kernel.desc (w.ep e).fd .closed := rfl
@[simp] theorem closed_table :
    (w.closed e).kernel.table = Function.update w.kernel.table (w.ep e).fd none := rfl
@[simp] theorem closed_trace :
    (w.closed e).trace = w.trace ++ [.close e (w.ep e).fd] := rfl

@[simp] theorem removed_ep : (w.removed e).ep = w.ep := rfl
@[simp] theorem removed_pairs : (w.removed e).pairs = w.pairs := rfl
@[simp] theorem removed_leaders : (w.removed e).leaders = w.leaders := rfl
@[simp] theorem removed_kernel : (w.removed e).kernel = w.kernel := rfl
@[simp] theorem removed_trace : (w.removed e).trace = w.trace := rfl
@[simp] theorem removed_pendingRemove :
    (w.removed e).thread.pendingRemove = w.thread.pendingRemove := rfl

@[simp] theorem pended_ep : (w.pended e).ep = w.ep := rfl
@[simp] theorem pended_pairs : (w.pended e).pairs = w.pairs := rfl
@[simp] theorem pended_leaders : (w.pended e).leaders = w.leaders := rfl
@[simp] theorem pended_kernel : (w.pended e).kernel = w.kernel := rfl
@[simp] theorem pended_trace : (w.pended e).trace = w.trace := rfl
@[simp] theorem pended_pollSet : (w.pended e).thread.pollSet = w.thread.pollSet := rfl
@[simp] theorem pended_mode : (w.pended e).thread.mode = w.thread.mode := rfl

@[simp] theorem released_pairs : (w.released e).pairs = w.pairs := rfl
@[simp] theorem released_leaders : (w.released e).leaders = w.leaders := rfl
@[simp] theorem released_thread : (w.released e).thread = w.thread := rfl
@[simp] theorem released_kernel : (w.released e).kernel = w.kernel := rfl
@[simp] theorem released_trace : (w.released e).trace = w.trace := rfl

@[simp] theorem forgotten_ep : (w.forgotten e).ep = w.ep := rfl
@[simp] theorem forgotten_pairs : (w.forgotten e).pairs = w.pairs := rfl
@[simp] theorem forgotten_thread : (w.forgotten e).thread = w.thread := rfl
@[simp] theorem forgotten_kernel : (w.forgotten e).kernel = w.kernel := rfl
@[simp] theorem forgotten_trace : (w.forgotten e).trace = w.trace := rfl

@[simp] theorem swapped_ep : w.swapped.ep = w.ep := rfl
@[simp] theorem swapped_pairs : w.swapped.pairs = w.pairs := rfl
@[simp] theorem swapped_leaders : w.swapped.leaders = w.leaders := rfl
@[simp] theorem swapped_kernel : w.swapped.kernel = w.kernel := rfl
@[simp] theorem swapped_trace : w.swapped.trace = w.trace := rfl
@[simp] theorem swapped_pollSet : w.swapped.thread.pollSet = w.thread.pollSet := rfl
@[simp] theorem swapped_mode : w.swapped.thread.mode = w.thread.mode := rfl
@[simp] theorem swapped_pendingRemove : w.swapped.thread.pendingRemove = [] := rfl

@[simp] theorem unregistered_ep : (w.unregistered e).ep = w.ep := rfl
@[simp] theorem unregistered_pairs : (w.unregistered e).pairs = w.pairs := rfl
@[simp] theorem unregistered_leaders : (w.unregistered e).leaders = w.leaders := rfl
@[simp] theorem unregistered_thread : (w.unregistered e).thread = w.thread := rfl
@[simp] theorem unregistered_trace : (w.unregistered e).trace = w.trace := rfl

@[simp] theorem unregistered_desc : (w.unregistered e).kernel.desc = w.kernel.desc := by
  unfold unregistered PollThread.unregister
  dsimp only
  split <;> rfl

/-- `w.ep` with one endpoint changed in nothing but `refcnt`. -/
theorem released_ep : (w.released e).ep x =
    if x = e then { w.ep e with refcnt := (w.ep e).refcnt - 1 } else w.ep x := by
  unfold released
  by_cases h : x = e
  · subst h
    simp
  · simp [h]

theorem refCopy_ep : (w.refCopy e).ep x =
    if x = e then { w.ep e with refcnt := (w.ep e).refcnt + 1 } else w.ep x := by
  unfold refCopy
  by_cases h : x = e
  · subst h
    simp
  · simp [h]

theorem ready_ep : (w.ready e).ep x =
    if x = e then { w.ep e with enabled := true } else w.ep x := by
  unfold ready
  by_cases h : x = e
  · subst h
    simp
  · simp [h]

/-- `tie` sets the peers of both endpoints and makes the first one the leader. -/
theorem tie_ep {o : Ep} (h : o ≠ e) (key : Key) : (w.tie e o key).ep x =
    if x = e then { w.ep e with forwardKey := key, leader := true, peer := some o }
    else if x = o then { w.ep o with peer := some e } else w.ep x := by
  unfold tie
  by_cases hx : x = e
  · subst hx
    simp [Function.update, h.symm]
  · by_cases hx' : x = o
    · subst hx'
      simp [Function.update, hx]
    · simp [Function.update, hx, hx']

theorem tie_leaders {o : Ep} (h : o ≠ e) (key : Key) :
    (w.tie e o key).leaders = insertLeader key e w.leaders := by
  simp [tie, Function.update, h.symm]

@[simp] theorem tie_pairs (o : Ep) (key : Key) : (w.tie e o key).pairs = w.pairs := rfl
@[simp] theorem tie_thread (o : Ep) (key : Key) : (w.tie e o key).thread = w.thread := rfl
@[simp] theorem tie_kernel (o : Ep) (key : Key) : (w.tie e o key).kernel = w.kernel := rfl
@[simp] theorem tie_trace (o : Ep) (key : Key) : (w.tie e o key).trace = w.trace := rfl

@[simp] theorem refCopy_pairs : (w.refCopy e).pairs = w.pairs := rfl
@[simp] theorem refCopy_leaders : (w.refCopy e).leaders = w.leaders := rfl
@[simp] theorem refCopy_thread : (w.refCopy e).thread = w.thread := rfl
@[simp] theorem refCopy_kernel : (w.refCopy e).kernel = w.kernel := rfl
@[simp] theorem refCopy_trace : (w.refCopy e).trace = w.trace := rfl

@[simp] theorem ready_pairs : (w.ready e).pairs = w.pairs := rfl
@[simp] theorem ready_leaders : (w.ready e).leaders = w.leaders := rfl
@[simp] theorem ready_thread : (w.ready e).thread = w.thread := rfl
@[simp] theorem ready_kernel : (w.ready e).kernel = w.kernel := rfl
@[simp] theorem ready_trace : (w.ready e).trace = w.trace := rfl

/-- The endpoints after `newPair`: a new one has its descriptor and nothing
    else. -/
theorem newPair_ep (fd1 fd2 : Nat) : (w.newPair fd1 fd2).ep x =
    if x = ⟨w.pairs, .first⟩ then EndPoint.new fd1
    else if x = ⟨w.pairs, .second⟩ then EndPoint.new fd2 else w.ep x := by
  unfold newPair
  by_cases hx : x = ⟨w.pairs, .first⟩
  · subst hx
    simp [Function.update]
  · by_cases hx' : x = ⟨w.pairs, .second⟩
    · subst hx'
      simp [Function.update]
    · simp [Function.update, hx, hx']

@[simp] theorem newPair_pairs (fd1 fd2 : Nat) : (w.newPair fd1 fd2).pairs = w.pairs + 1 := rfl
@[simp] theorem newPair_leaders (fd1 fd2 : Nat) : (w.newPair fd1 fd2).leaders = w.leaders := rfl
@[simp] theorem newPair_thread (fd1 fd2 : Nat) : (w.newPair fd1 fd2).thread = w.thread := rfl
@[simp] theorem newPair_table (fd1 fd2 : Nat) :
    (w.newPair fd1 fd2).kernel.table = w.kernel.table := rfl
@[simp] theorem newPair_desc (fd1 fd2 : Nat) :
    (w.newPair fd1 fd2).kernel.desc = Function.update
      (Function.update w.kernel.desc fd1 (.tied ⟨w.pairs, .first⟩)) fd2
        (.tied ⟨w.pairs, .second⟩) := rfl
@[simp] theorem newPair_trace (fd1 fd2 : Nat) : (w.newPair fd1 fd2).trace = w.trace := rfl

end World

end VncProxy.Proxy
