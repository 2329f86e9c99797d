/-
  VncProxy.Polling.Sides

  The two sides of a `PollThread`: the calls of its users and the turns of `poll_loop`.
  How far each of them can have come, and what the loop does to what the calls work on.
-/
import VncProxy.Polling.Registry

namespace VncProxy.PollMgr

open Polling

section Sides

variable {ι : Type _}

/-- The sections of `poll_loop`. -/
def Sec.byLoop : Sec ι → Bool
  | .refCopy .. | .add .. | .epollAdd .. | .remove _ | .pend _ | .updateMode .. => false
  | .removeAll | .setStop => false
  | _ => true

/-- The pollable that a section adds. -/
def Sec.adds : Sec ι → Option ι
  | .refCopy p _ | .add p _ | .epollAdd p _ => some p
  | _ => none

/-- How far a call can have come. -/
inductive Calling : List (Sec ι) → Prop
  | idle : Calling []
  | refCopy (p : ι) (m : Mode) : Calling [.refCopy p m]
  | add (p : ι) (m : Mode) : Calling [.add p m, .epollAdd p m]
  | epollAdd (p : ι) (m : Mode) : Calling [.epollAdd p m]
  | remove (p : ι) : Calling [.remove p]
  | pend (p : ι) : Calling [.pend p]
  | updateMode (p : ι) (m : Mode) : Calling [.updateMode p m]

theorem calling_sections (call : Call ι) : Calling call.sections := by
  cases call with
  | add p m => exact Calling.refCopy p m
  | remove p => exact Calling.remove p
  | updateMode p m => exact Calling.updateMode p m

theorem byLoop_dispatch (p : ι) (ev : Ready) : ∀ s ∈ dispatch p ev, s.byLoop = true := by
  intro s hs
  simp only [dispatch, List.mem_append, List.mem_ite_nil_right, List.mem_singleton] at hs
  rcases hs with (⟨-, rfl⟩ | ⟨-, rfl⟩) | ⟨-, rfl⟩ <;> rfl

/-- The events of a batch are gone through, and the removal pass follows. -/
inductive Handling : List (Sec ι) → Prop
  | swapPending : Handling [.swapPending]
  | event (p : ι) (ev : Ready) {is : List (Sec ι)} (h : Handling is) : Handling (.event p ev :: is)
  | handle (p : ι) (handler : Handler) {is : List (Sec ι)} (h : Handling is) :
    Handling (.handle p handler :: is)

/-- The removal pass, and then the next turn. -/
inductive Passing : List (Sec ι) → Prop
  | loopHead : Passing [.loopHead]
  | unregister (p : ι) {is : List (Sec ι)} (h : Passing is) : Passing (.unregister p :: is)
  | release (p : ι) {is : List (Sec ι)} (h : Passing is) : Passing (.release p :: is)

/-- What comes after the loop. -/
inductive Leaving : List (Sec ι) → Prop
  | closeEpoll : Leaving [.closeEpoll]
  | release (p : ι) {is : List (Sec ι)} (h : Leaving is) : Leaving (.release p :: is)

/-- How far a turn of the loop can have come. -/
inductive Turning (stopFlag : Bool) : List (Sec ι) → Prop
  | epollWait : Turning stopFlag [.epollWait]
  | stopTest (evlist : List (ι × Ready)) : Turning stopFlag [.stopTest evlist]
  | handling {is : List (Sec ι)} (h : Handling is) : Turning stopFlag is
  | passing {is : List (Sec ι)} (h : Passing is) : Turning stopFlag is
  | releaseAll (h : stopFlag = true) : Turning stopFlag [.releaseAll]

theorem Turning.mono {stopFlag stopFlag' : Bool} {is : List (Sec ι)} (h : Turning stopFlag is)
    (hstop : stopFlag = true → stopFlag' = true) : Turning stopFlag' is := by
  cases h with
  | epollWait => exact Turning.epollWait
  | stopTest evlist => exact Turning.stopTest evlist
  | handling h => exact Turning.handling h
  | passing h => exact Turning.passing h
  | releaseAll h => exact Turning.releaseAll (hstop h)

/-- The poll thread runs sections of its own only. -/
theorem Turning.byLoop {stopFlag : Bool} {s : Sec ι} {rest : List (Sec ι)}
    (h : Turning stopFlag (s :: rest)) : s.byLoop = true := by
  cases h with
  | epollWait => rfl
  | stopTest evlist => rfl
  | handling h => cases h <;> rfl
  | passing h => cases h <;> rfl
  | releaseAll h => rfl

theorem Leaving.byLoop {s : Sec ι} {rest : List (Sec ι)} (h : Leaving (s :: rest)) :
    s.byLoop = true := by
  cases h <;> rfl

theorem Passing.not_leaving {is : List (Sec ι)} (h : Passing is) : ¬ Leaving is := by
  induction h with
  | loopHead => intro hleave; cases hleave
  | unregister p _ _ => intro hleave; cases hleave
  | release p _ ih =>
    intro hleave
    cases hleave with
    | release _ hleave => exact ih hleave

/-- Within a turn, the loop has not been left. -/
theorem Turning.not_leaving {stopFlag : Bool} {is : List (Sec ι)} (h : Turning stopFlag is) :
    ¬ (Leaving is ∨ is = []) := by
  rintro (hleave | rfl)
  · cases h with
    | passing h => exact h.not_leaving hleave
    | handling h => cases h <;> cases hleave
    | _ => cases hleave
  · cases h with
    | passing h => cases h
    | handling h => cases h

theorem handling_batch (evs : List (ι × Ready)) :
    Handling (evs.map (fun e => Sec.event e.1 e.2) ++ [.swapPending]) := by
  induction evs with
  | nil => exact Handling.swapPending
  | cons e evs ih => exact Handling.event e.1 e.2 ih

theorem Handling.dispatch {is : List (Sec ι)} (h : Handling is) (p : ι) (ev : Ready) :
    Handling (dispatch p ev ++ is) := by
  obtain ⟨n, epollin, epollout, error⟩ := ev
  have hunit : ∀ (b : Bool) (handler : Handler) {js : List (Sec ι)}, Handling js →
      Handling ((if b then [.handle p handler] else []) ++ js) := by
    intro b handler js hjs
    cases b with
    | false => exact hjs
    | true => exact Handling.handle p handler hjs
  simp only [PollMgr.dispatch, List.append_assoc]
  exact hunit _ _ (hunit _ _ (hunit _ _ h))

theorem passing_pass (ps : List ι) :
    Passing (ps.flatMap (fun p => [Sec.unregister p, .release p]) ++ [.loopHead]) := by
  induction ps with
  | nil => exact Passing.loopHead
  | cons p ps ih => exact Passing.unregister p (Passing.release p ih)

theorem leaving_all (ps : List ι) : Leaving (ps.map Sec.release ++ [.closeEpoll]) := by
  induction ps with
  | nil => exact Leaving.closeEpoll
  | cons p ps ih => exact Leaving.release p ih

variable [DecidableEq ι] {fd : ι → Nat} {o : Oracle ι} {w w' : World ι} {s : Sec ι}
  {pre rest : List (Sec ι)}

theorem Calling.exec (h : Calling (s :: rest)) (hexec : exec fd o w s = some (w', pre)) :
    Calling (pre ++ rest) := by
  cases h with
  | refCopy p m =>
    cases hexec
    exact Calling.add p m
  | add p m =>
    obtain ⟨thread, -, rfl, -⟩ := exec_add hexec
    exact Calling.epollAdd p m
  | epollAdd p m =>
    obtain ⟨kernel, -, rfl, -⟩ := exec_epollAdd hexec
    exact Calling.idle
  | remove p =>
    rcases exec_remove hexec with ⟨-, -, rfl, -⟩ | ⟨-, -, rfl, -⟩
    · exact Calling.pend p
    · exact Calling.idle
  | pend p =>
    cases hexec
    exact Calling.idle
  | updateMode p m =>
    obtain ⟨rfl, -⟩ := exec_updateMode hexec
    exact Calling.idle

/-- What `poll_loop` does to the rest of the state: the kernel forgets descriptors that no
    registered pollable has. -/
theorem exec_byLoop (hs : s.byLoop = true) (h : exec fd o w s = some (w', pre)) :
    (∀ s' ∈ pre, s'.byLoop = true) ∧ w'.thread.pollSet = w.thread.pollSet ∧
      w'.thread.mode = w.thread.mode ∧ w'.kernel.desc = w.kernel.desc ∧
      ∀ n, w.thread.mode n ≠ none → w'.kernel.table n = w.kernel.table n := by
  cases s with
  | loopHead =>
    cases h
    refine ⟨?_, rfl, rfl, rfl, fun _ _ => rfl⟩
    intro s' hs'
    split at hs' <;> (rw [List.mem_singleton.mp hs']; rfl)
  | epollWait =>
    cases h
    exact ⟨by simp [Sec.byLoop], rfl, rfl, rfl, fun _ _ => rfl⟩
  | stopTest evlist =>
    cases h
    refine ⟨?_, rfl, rfl, rfl, fun _ _ => rfl⟩
    intro s' hs'
    split at hs'
    · rw [List.mem_singleton.mp hs']
      rfl
    · rcases List.mem_append.mp hs' with hs' | hs'
      · obtain ⟨e, -, rfl⟩ := List.mem_map.mp hs'
        rfl
      · rw [List.mem_singleton.mp hs']
        rfl
  | event p ev =>
    cases h
    exact ⟨byLoop_dispatch p ev, rfl, rfl, rfl, fun _ _ => rfl⟩
  | handle p handler =>
    cases h
    exact ⟨by simp, rfl, rfl, rfl, fun _ _ => rfl⟩
  | swapPending =>
    cases h
    refine ⟨?_, rfl, rfl, rfl, fun _ _ => rfl⟩
    intro s' hs'
    rcases List.mem_append.mp hs' with hs' | hs'
    · obtain ⟨p, -, hp⟩ := List.mem_flatMap.mp hs'
      rcases List.mem_cons.mp hp with rfl | hp
      · rfl
      · rw [List.mem_singleton.mp hp]
        rfl
    · rw [List.mem_singleton.mp hs']
      rfl
  | unregister p =>
    cases h
    refine ⟨by simp, rfl, rfl, ?_, ?_⟩
    · simp only [PollThread.unregister]
      split <;> rfl
    · intro n hn
      simp only [PollThread.unregister]
      split
      · rename_i hfree
        have hne : n ≠ fd p := by
          rintro rfl
          exact hn hfree
        simp [Kernel.epollDel, hne]
      · rfl
  | release p =>
    cases h
    exact ⟨by simp, rfl, rfl, rfl, fun _ _ => rfl⟩
  | releaseAll =>
    cases h
    refine ⟨?_, rfl, rfl, rfl, fun _ _ => rfl⟩
    intro s' hs'
    rcases List.mem_append.mp hs' with hs' | hs'
    · obtain ⟨p, -, rfl⟩ := List.mem_map.mp hs'
      rfl
    · rw [List.mem_singleton.mp hs']
      rfl
  | closeEpoll =>
    cases h
    exact ⟨by simp, rfl, rfl, rfl, fun _ _ => rfl⟩
  | _ => cases hs

/-- A turn goes on, or the loop is left. -/
theorem Turning.exec (h : Turning w.stopFlag (s :: rest))
    (hexec : exec fd o w s = some (w', pre)) :
    Turning w.stopFlag (pre ++ rest) ∨
      (s = .releaseAll ∧ w.stopFlag = true ∧ w' = w ∧ Leaving (pre ++ rest)) := by
  cases h with
  | epollWait =>
    cases hexec
    exact Or.inl (Turning.stopTest _)
  | stopTest evlist =>
    cases hexec
    left
    split
    · rename_i hstop
      exact Turning.releaseAll hstop
    · exact Turning.handling (by simpa using handling_batch evlist)
  | handling h =>
    left
    cases h with
    | swapPending =>
      cases hexec
      exact Turning.passing (by simpa using passing_pass _)
    | event p ev h =>
      cases hexec
      exact Turning.handling (h.dispatch p ev)
    | handle p handler h =>
      cases hexec
      exact Turning.handling h
  | passing h =>
    left
    cases h with
    | loopHead =>
      cases hexec
      split
      · rename_i hstop
        exact Turning.releaseAll hstop
      · exact Turning.epollWait
    | unregister p h =>
      cases hexec
      exact Turning.passing h
    | release p h =>
      cases hexec
      exact Turning.passing h
  | releaseAll hstop =>
    cases hexec
    exact Or.inr ⟨rfl, hstop, rfl, by simpa using leaving_all _⟩

theorem Leaving.exec (h : Leaving (s :: rest)) (hexec : exec fd o w s = some (w', pre)) :
    (Leaving (pre ++ rest) ∨ pre ++ rest = []) ∧ w'.thread = w.thread := by
  cases h with
  | closeEpoll =>
    cases hexec
    exact ⟨Or.inr rfl, rfl⟩
  | release p h =>
    cases hexec
    exact ⟨Or.inl h, rfl⟩

/-- The flags are set by the destructor only. -/
theorem exec_flags (h : PollMgr.exec fd o w s = some (w', pre)) :
    w'.dying = w.dying ∧ (s ≠ .setStop → w'.stopFlag = w.stopFlag) := by
  cases s with
  | add p m =>
    obtain ⟨thread, -, -, rfl⟩ := exec_add h
    exact ⟨rfl, fun _ => rfl⟩
  | epollAdd p m =>
    obtain ⟨kernel, -, -, rfl⟩ := exec_epollAdd h
    exact ⟨rfl, fun _ => rfl⟩
  | remove p =>
    rcases exec_remove h with ⟨-, -, -, rfl⟩ | ⟨-, -, -, rfl⟩
    · exact ⟨rfl, fun _ => rfl⟩
    · exact ⟨rfl, fun _ => rfl⟩
  | updateMode p m =>
    obtain ⟨-, ⟨-, rfl⟩ | ⟨-, old, kernel, -, -, rfl⟩⟩ := exec_updateMode h
    · exact ⟨rfl, fun _ => rfl⟩
    · exact ⟨rfl, fun _ => rfl⟩
  | setStop =>
    cases h
    exact ⟨rfl, fun hne => absurd rfl hne⟩
  | _ =>
    cases h
    exact ⟨rfl, fun _ => rfl⟩

end Sides

end VncProxy.PollMgr
