/-
  VncProxy.Proxy.Handlers

  What the handlers of an endpoint do to the shared state: one lemma for
  `update_mode`, one for `handle_read`, one for `handle_write`.  Everything the
  later modules say about a handler is derived from these.
-/
import VncProxy.Marshal.Queue
import VncProxy.Proxy.World

namespace VncProxy.Proxy

open Polling
open Marshal (Received Written)

namespace World

variable {w w' : World} {e : Ep}

-- ============================================================================
-- update_mode
-- ============================================================================

/-- The state after an `update_mode` that came to `epoll_ctl`. -/
def rearmed (w : World) (e : Ep) (newMode : Mode) : World :=
  { w with
    thread := { w.thread with mode := Function.update w.thread.mode (w.ep e).fd (some newMode) }
    kernel := { w.kernel with
      table := Function.update w.kernel.table (w.ep e).fd
        (some (PollThread.modEvent e newMode)) } }.emit [.ctl .mod (w.ep e).fd]

section Frame

variable (newMode : Mode)

@[simp] theorem rearmed_ep : (w.rearmed e newMode).ep = w.ep := rfl
@[simp] theorem rearmed_pairs : (w.rearmed e newMode).pairs = w.pairs := rfl
@[simp] theorem rearmed_leaders : (w.rearmed e newMode).leaders = w.leaders := rfl
@[simp] theorem rearmed_desc : (w.rearmed e newMode).kernel.desc = w.kernel.desc := rfl
@[simp] theorem rearmed_pollSet :
    (w.rearmed e newMode).thread.pollSet = w.thread.pollSet := rfl
@[simp] theorem rearmed_pendingRemove :
    (w.rearmed e newMode).thread.pendingRemove = w.thread.pendingRemove := rfl
@[simp] theorem rearmed_trace :
    (w.rearmed e newMode).trace = w.trace ++ [.ctl .mod (w.ep e).fd] := rfl

end Frame

/-- `update_mode` does nothing for a pollable that is not registered or already
    has the mode, and else changes the mode and the registration together. -/
theorem updateMode_cases {newMode : Mode} (h : w.updateMode e newMode = some w') :
    (w' = w ∧ (e ∈ w.thread.pollSet → w.thread.mode (w.ep e).fd = some newMode)) ∨
      (∃ oldMode, w' = w.rearmed e newMode ∧ e ∈ w.thread.pollSet ∧
        w.thread.mode (w.ep e).fd = some oldMode ∧ newMode ≠ oldMode ∧
        w.kernel.table (w.ep e).fd ≠ none) := by
  unfold updateMode PollThread.updateMode at h
  by_cases hin : e ∈ w.thread.pollSet
  · cases hmode : w.thread.mode (w.ep e).fd with
    | none => simp [hin, hmode] at h
    | some oldMode =>
      by_cases hnew : newMode = oldMode
      · subst hnew
        have hsame : Function.update w.thread.mode (w.ep e).fd (some newMode) = w.thread.mode := by
          rw [← hmode]
          exact Function.update_eq_self _ _
        refine Or.inl ⟨?_, fun _ => rfl⟩
        simp [hin, hmode, hsame, emit] at h
        exact h.symm
      · by_cases htable : w.kernel.table (w.ep e).fd = none
        · simp [hin, hmode, hnew, htable, Kernel.epollMod, Lib.verify] at h
        · refine Or.inr ⟨oldMode, ?_, hin, rfl, hnew, htable⟩
          simp [hin, hmode, hnew, htable, Kernel.epollMod, Lib.verify] at h
          exact h.symm
  · simp [hin, emit] at h
    exact Or.inl ⟨h.symm, fun hmem => absurd hmem hin⟩

-- ============================================================================
-- handle_read and handle_write
-- ============================================================================

/-- The bytes and calls of a handler of `e`, before `update_mode`: the buffer of
    `owner` has become `buf`. -/
def transferred (w : World) (e owner : Ep) (calls : List FdCall) (buf : Marshal) : World :=
  (w.setEp owner { w.ep owner with buf }).emit (calls.map (Event.call e (w.ep e).fd))

section Frame

variable (owner : Ep) (calls : List FdCall) (buf : Marshal)

@[simp] theorem transferred_pairs : (w.transferred e owner calls buf).pairs = w.pairs := rfl
@[simp] theorem transferred_leaders :
    (w.transferred e owner calls buf).leaders = w.leaders := rfl
@[simp] theorem transferred_thread : (w.transferred e owner calls buf).thread = w.thread := rfl
@[simp] theorem transferred_kernel : (w.transferred e owner calls buf).kernel = w.kernel := rfl
@[simp] theorem transferred_trace :
    (w.transferred e owner calls buf).trace =
      w.trace ++ calls.map (Event.call e (w.ep e).fd) := rfl

theorem transferred_ep (x : Ep) :
    (w.transferred e owner calls buf).ep x =
      if x = owner then { w.ep x with buf } else w.ep x := by
  unfold transferred
  by_cases h : x = owner
  · subst h
    simp
  · simp [h]

@[simp] theorem transferred_fd (x : Ep) :
    ((w.transferred e owner calls buf).ep x).fd = (w.ep x).fd := by
  rw [transferred_ep]
  split <;> rfl

@[simp] theorem transferred_peer (x : Ep) :
    ((w.transferred e owner calls buf).ep x).peer = (w.ep x).peer := by
  rw [transferred_ep]
  split <;> rfl

@[simp] theorem transferred_leader (x : Ep) :
    ((w.transferred e owner calls buf).ep x).leader = (w.ep x).leader := by
  rw [transferred_ep]
  split <;> rfl

@[simp] theorem transferred_forwardKey (x : Ep) :
    ((w.transferred e owner calls buf).ep x).forwardKey = (w.ep x).forwardKey := by
  rw [transferred_ep]
  split <;> rfl

@[simp] theorem transferred_enabled (x : Ep) :
    ((w.transferred e owner calls buf).ep x).enabled = (w.ep x).enabled := by
  rw [transferred_ep]
  split <;> rfl

@[simp] theorem transferred_refcnt (x : Ep) :
    ((w.transferred e owner calls buf).ep x).refcnt = (w.ep x).refcnt := by
  rw [transferred_ep]
  split <;> rfl

end Frame

/-- `handle_read` of an enabled endpoint, in terms of what `read_from_fd`
    returns. -/
theorem handleRead_of {peer : Ep} {offers : List (Option (List Byte))} {cnt : Int}
    {calls : List FdCall} {buf : Marshal} (hen : (w.ep e).enabled = true)
    (hpeer : (w.ep e).peer = some peer)
    (hread : (w.ep peer).buf.readFromFd offers = some (cnt, calls, buf)) :
    w.handleRead e offers =
      if cnt > 0 then
        (w.transferred e peer calls buf).updateMode peer (Pollable.READ ||| Pollable.WRITE)
      else some (w.transferred e peer calls buf) := by
  unfold handleRead
  rw [if_neg (by simp [hen])]
  simp only [hpeer, hread, Option.bind_eq_bind, Option.bind_some, Option.pure_def]
  rfl

/-- What the descriptor delivered joins the peer's buffer, and the peer asks for
    `WRITE` if the count says so. -/
theorem handleRead_eq {peer : Ep} (hen : (w.ep e).enabled = true)
    (hpeer : (w.ep e).peer = some peer) (hbuf : (w.ep peer).buf.Inv)
    (offers : List (Option (List Byte))) :
    ∃ calls buf, Received (w.ep peer).buf.chunks calls buf.chunks ∧
      w.handleRead e offers =
        if i32 (calls.flatMap FdCall.bytesRead).length > 0 then
          (w.transferred e peer calls buf).updateMode peer (Pollable.READ ||| Pollable.WRITE)
        else some (w.transferred e peer calls buf) := by
  obtain ⟨calls, buf, hread, hrec⟩ := Marshal.readFromFd_spec hbuf offers
  exact ⟨calls, buf, hrec, handleRead_of hen hpeer hread⟩

/-- `handle_write` of an enabled endpoint: what the descriptor took leaves the
    buffer, and `WRITE` stays on exactly if bytes are left. -/
theorem handleWrite_eq (hen : (w.ep e).enabled = true) (hbuf : (w.ep e).buf.Inv)
    (accepts : List Int) :
    ∃ calls buf, Written (w.ep e).buf.chunks calls buf.chunks ∧
      w.handleWrite e accepts =
        (w.transferred e e calls buf).updateMode e
          (if buf.content ≠ [] then Pollable.READ ||| Pollable.WRITE else Pollable.READ) := by
  obtain ⟨n, calls, buf, hwrite, hwr, -⟩ := Marshal.writeToFd_spec hbuf accepts
  refine ⟨calls, buf, hwr, ?_⟩
  have hgt : buf.contentSizeGt 0 = some (decide (buf.content ≠ [])) :=
    Marshal.contentSizeGt_zero hwr.inv
  unfold handleWrite
  rw [if_neg (by simp [hen])]
  simp only [hwrite, hgt, Option.bind_eq_bind, Option.bind_some, decide_eq_true_eq]
  by_cases hleft : buf.content ≠ []
  · rw [if_pos hleft, if_pos hleft]
    rfl
  · rw [if_neg hleft, if_neg hleft]
    rfl

/-- A handler of an endpoint that is not enabled does nothing. -/
theorem handleRead_disabled (hen : (w.ep e).enabled = false)
    (offers : List (Option (List Byte))) : w.handleRead e offers = some w := by
  rw [handleRead, if_pos hen]

theorem handleWrite_disabled (hen : (w.ep e).enabled = false) (accepts : List Int) :
    w.handleWrite e accepts = some w := by
  rw [handleWrite, if_pos hen]

end World

end VncProxy.Proxy
