/-
  VncProxy.Polling.Registry

  What holds of the containers of a `PollThread` whatever its callers do: `mode_` has the
  descriptor numbers of the pollables in `poll_set_`, each of them once.  A call with a
  pollable that is not registered does nothing, except that `remove` aborts when its number
  is in use again.
-/
import VncProxy.Polling.Machine

namespace VncProxy.Polling

-- ============================================================================
-- The sections of the poll thread's lock
-- ============================================================================

namespace PollThread

variable {ι : Type _} [DecidableEq ι] {t t' : PollThread ι} {k k' : Kernel ι} {poll : ι} {n : Nat}
  {m : Mode} {found called : Bool}

theorem add_eq_some : t.add poll n m = some t' ↔ poll ∉ t.pollSet ∧ t.mode n = none ∧
    t' = { t with
      pollSet := poll :: t.pollSet
      mode := Function.update t.mode n (some m) } := by
  apply Iff.intro
  · intro h
    obtain ⟨hnot, h⟩ := Lib.verify_bind_eq_some.mp h
    obtain ⟨hfree, hret⟩ := Lib.verify_bind_eq_some.mp h
    exact ⟨hnot, hfree, (Option.some.inj hret).symm⟩
  · rintro ⟨hnot, hfree, rfl⟩
    simp [add, Lib.verify_bind hnot, Lib.verify_bind hfree]

theorem remove_eq_some : t.remove poll n = some (found, t') ↔
    (poll ∈ t.pollSet ∧ t.mode n ≠ none ∧ found = true ∧ t' = { t with
      pollSet := t.pollSet.erase poll
      mode := Function.update t.mode n none }) ∨
    (poll ∉ t.pollSet ∧ t.mode n = none ∧ found = false ∧ t' = t) := by
  by_cases hin : poll ∈ t.pollSet
  · by_cases hmode : t.mode n = none
    · simp [remove, hin, hmode, Lib.verify_bind_none]
    · simp [remove, hin, hmode, Lib.verify_bind, eq_comm]
  · by_cases hmode : t.mode n = none
    · simp [remove, hin, hmode, Lib.verify_bind, eq_comm]
    · simp [remove, hin, hmode, Lib.verify_bind_none]

/-- `update_mode` of a registered pollable changes its mode, and the kernel's entry if the
    mode is a new one. -/
theorem updateMode_eq_some (h : t.updateMode k poll n m = some (called, t', k')) :
    (poll ∉ t.pollSet ∧ t' = t ∧ k' = k) ∨
    (poll ∈ t.pollSet ∧ ∃ old, t.mode n = some old ∧
      t' = { t with mode := Function.update t.mode n (some m) } ∧
      ((m = old ∧ k' = k) ∨ (m ≠ old ∧ k.epollMod n (modEvent poll m) = some k'))) := by
  by_cases hin : poll ∈ t.pollSet
  · right
    refine ⟨hin, ?_⟩
    cases hmode : t.mode n with
    | none => simp [updateMode, hin, hmode] at h
    | some old =>
      refine ⟨old, rfl, ?_⟩
      by_cases hsame : m = old
      · simp only [updateMode, hin, hmode, hsame, not_true_eq_false, if_false, ne_eq] at h
        obtain ⟨-, heq⟩ := Prod.mk.inj (Option.some.inj h)
        obtain ⟨rfl, rfl⟩ := Prod.mk.inj heq
        exact ⟨by rw [hsame], Or.inl ⟨hsame, rfl⟩⟩
      · simp only [updateMode, hin, hmode, hsame, not_true_eq_false, not_false_eq_true, if_false,
          if_true, ne_eq, Option.bind_eq_bind, Option.bind_eq_some_iff, Option.pure_def,
          Option.some.injEq, Prod.mk.injEq] at h
        obtain ⟨k₁, hmod, -, rfl, rfl⟩ := h
        exact ⟨rfl, Or.inr ⟨hsame, hmod⟩⟩
  · left
    simp only [updateMode, hin, not_false_eq_true, if_true, Option.some.injEq,
      Prod.mk.injEq] at h
    obtain ⟨-, rfl, rfl⟩ := h
    exact ⟨hin, rfl, rfl⟩

theorem updateMode_stale (h : poll ∉ t.pollSet) :
    t.updateMode k poll n m = some (false, t, k) := by
  simp [updateMode, h]

end PollThread

end VncProxy.Polling

namespace VncProxy.PollMgr

open Lib (Threads Reach)
open Polling

-- ============================================================================
-- Keys
-- ============================================================================

/-- `mode_` has the numbers of the pollables in `poll_set_`, no two of which share one. -/
structure Keyed {ι : Type _} (fd : ι → Nat) (t : PollThread ι) : Prop where
  nodup : t.pollSet.Nodup
  key : ∀ n, t.mode n ≠ none ↔ ∃ p ∈ t.pollSet, fd p = n
  inj : ∀ p ∈ t.pollSet, ∀ q ∈ t.pollSet, fd p = fd q → p = q

section Keyed

variable {ι : Type _} {fd : ι → Nat} {t t' : PollThread ι} {p : ι} {m : Mode}

theorem keyed_empty : Keyed fd (PollThread.empty : PollThread ι) :=
  ⟨List.nodup_nil, by simp [PollThread.empty], by simp [PollThread.empty]⟩

theorem Keyed.mode_ne_none (h : Keyed fd t) (hp : p ∈ t.pollSet) : t.mode (fd p) ≠ none :=
  (h.key _).mpr ⟨p, hp, rfl⟩

theorem Keyed.free (h : Keyed fd t) {n : Nat} (hn : t.mode n = none) :
    ∀ p ∈ t.pollSet, fd p ≠ n := by
  intro p hp hfd
  exact h.mode_ne_none hp (hfd ▸ hn)

/-- Only the two containers matter. -/
theorem Keyed.congr (h : Keyed fd t) (hset : t'.pollSet = t.pollSet) (hmode : t'.mode = t.mode) :
    Keyed fd t' := by
  refine ⟨?_, ?_, ?_⟩
  · rw [hset]
    exact h.nodup
  · intro n
    rw [hset, hmode]
    exact h.key n
  · rw [hset]
    exact h.inj

theorem Keyed.update (h : Keyed fd t) (hp : p ∈ t.pollSet) :
    Keyed fd { t with mode := Function.update t.mode (fd p) (some m) } := by
  refine ⟨h.nodup, ?_, h.inj⟩
  intro n
  by_cases hn : n = fd p
  · subst hn
    simp only [Function.update_self, ne_eq, reduceCtorEq, not_false_eq_true, true_iff]
    exact ⟨p, hp, rfl⟩
  · simp only [Function.update_of_ne hn]
    exact h.key n

variable [DecidableEq ι]

theorem Keyed.add (h : Keyed fd t) (hadd : t.add p (fd p) m = some t') : Keyed fd t' := by
  obtain ⟨hnot, hfree, rfl⟩ := PollThread.add_eq_some.mp hadd
  have hother := h.free hfree
  refine ⟨List.nodup_cons.mpr ⟨hnot, h.nodup⟩, ?_, ?_⟩
  · intro n
    by_cases hn : n = fd p
    · subst hn
      simp
    · have hn' : fd p ≠ n := Ne.symm hn
      simp [hn, hn', h.key n]
  · intro q hq r hr heq
    rcases List.mem_cons.mp hq with hqp | hq'
    · rcases List.mem_cons.mp hr with hrp | hr'
      · rw [hqp, hrp]
      · exact absurd (by rw [← heq, hqp]) (hother r hr')
    · rcases List.mem_cons.mp hr with hrp | hr'
      · exact absurd (by rw [heq, hrp]) (hother q hq')
      · exact h.inj q hq' r hr' heq

theorem Keyed.erase (h : Keyed fd t) (hp : p ∈ t.pollSet) :
    Keyed fd { t with
      pollSet := t.pollSet.erase p
      mode := Function.update t.mode (fd p) none } := by
  refine ⟨h.nodup.erase p, ?_, ?_⟩
  · intro n
    simp only [h.nodup.mem_erase_iff]
    by_cases hn : n = fd p
    · subst hn
      simp only [Function.update_self, ne_eq, not_true_eq_false, false_iff]
      rintro ⟨q, ⟨hne, hq⟩, heq⟩
      exact hne (h.inj q hq p hp heq)
    · rw [Function.update_of_ne hn, h.key n]
      apply Iff.intro
      · rintro ⟨q, hq, rfl⟩
        exact ⟨q, ⟨fun heq => hn (by rw [heq]), hq⟩, rfl⟩
      · rintro ⟨q, ⟨-, hq⟩, rfl⟩
        exact ⟨q, hq, rfl⟩
  · intro q hq r hr
    exact h.inj q (List.mem_of_mem_erase hq) r (List.mem_of_mem_erase hr)

end Keyed

-- ============================================================================
-- One section
-- ============================================================================

section Exec

variable {ι : Type _} [DecidableEq ι] {fd : ι → Nat} {o : Oracle ι} {w w' : World ι}
  {p : ι} {m : Mode} {s : Sec ι} {pre : List (Sec ι)}

theorem exec_add (h : exec fd o w (.add p m) = some (w', pre)) :
    ∃ thread, w.thread.add p (fd p) m = some thread ∧ pre = [] ∧
      w' = { w with thread, kernel := w.kernel.setDesc (fd p) (.tied p) } := by
  obtain ⟨thread, hadd, hret⟩ := Option.bind_eq_some_iff.mp h
  obtain ⟨rfl, rfl⟩ := Prod.mk.inj (Option.some.inj hret)
  exact ⟨thread, hadd, rfl, rfl⟩

theorem exec_epollAdd (h : exec fd o w (.epollAdd p m) = some (w', pre)) :
    ∃ kernel, w.kernel.epollAdd (fd p) (PollThread.addEvent p m) = some kernel ∧ pre = [] ∧
      w' = { w with kernel } := by
  obtain ⟨kernel, hadd, hret⟩ := Option.bind_eq_some_iff.mp h
  obtain ⟨rfl, rfl⟩ := Prod.mk.inj (Option.some.inj hret)
  exact ⟨kernel, hadd, rfl, rfl⟩

/-- `remove` of a registered pollable takes it out and goes on to `pending_remove_`. -/
theorem exec_remove (h : exec fd o w (.remove p) = some (w', pre)) :
    (p ∈ w.thread.pollSet ∧ w.thread.mode (fd p) ≠ none ∧ pre = [.pend p] ∧
      w' = { w with thread := { w.thread with
        pollSet := w.thread.pollSet.erase p
        mode := Function.update w.thread.mode (fd p) none } }) ∨
    (p ∉ w.thread.pollSet ∧ w.thread.mode (fd p) = none ∧ pre = [] ∧ w' = w) := by
  obtain ⟨⟨found, thread⟩, hremove, hret⟩ := Option.bind_eq_some_iff.mp h
  obtain ⟨rfl, rfl⟩ := Prod.mk.inj (Option.some.inj hret)
  rcases PollThread.remove_eq_some.mp hremove with ⟨hin, hmode, rfl, rfl⟩ | ⟨hin, hmode, rfl, rfl⟩
  · exact Or.inl ⟨hin, hmode, rfl, rfl⟩
  · exact Or.inr ⟨hin, hmode, rfl, rfl⟩

theorem exec_updateMode (h : exec fd o w (.updateMode p m) = some (w', pre)) :
    pre = [] ∧ ((p ∉ w.thread.pollSet ∧ w' = w) ∨
      (p ∈ w.thread.pollSet ∧ ∃ old kernel, w.thread.mode (fd p) = some old ∧
        ((m = old ∧ kernel = w.kernel) ∨
          (m ≠ old ∧ w.kernel.epollMod (fd p) (PollThread.modEvent p m) = some kernel)) ∧
        w' = { w with
          thread := { w.thread with mode := Function.update w.thread.mode (fd p) (some m) }
          kernel })) := by
  obtain ⟨⟨called, thread, kernel⟩, hupdate, hret⟩ := Option.bind_eq_some_iff.mp h
  obtain ⟨rfl, rfl⟩ := Prod.mk.inj (Option.some.inj hret)
  refine ⟨rfl, ?_⟩
  rcases PollThread.updateMode_eq_some hupdate with ⟨hin, rfl, rfl⟩ | ⟨hin, old, hold, rfl, hcall⟩
  · exact Or.inl ⟨hin, rfl⟩
  · exact Or.inr ⟨hin, old, kernel, hold, hcall, rfl⟩

theorem exec_keyed (h : exec fd o w s = some (w', pre)) (hw : Keyed fd w.thread) :
    Keyed fd w'.thread := by
  cases s with
  | add p m =>
    obtain ⟨thread, hadd, -, rfl⟩ := exec_add h
    exact hw.add hadd
  | epollAdd p m =>
    obtain ⟨kernel, -, -, rfl⟩ := exec_epollAdd h
    exact hw
  | remove p =>
    rcases exec_remove h with ⟨hin, -, -, rfl⟩ | ⟨-, -, -, rfl⟩
    · exact hw.erase hin
    · exact hw
  | updateMode p m =>
    obtain ⟨-, ⟨-, rfl⟩ | ⟨hin, old, kernel, -, -, rfl⟩⟩ := exec_updateMode h
    · exact hw
    · exact hw.update hin
  | pend p =>
    cases h
    exact hw.congr rfl rfl
  | swapPending =>
    cases h
    exact hw.congr rfl rfl
  | _ =>
    cases h
    exact hw

end Exec

-- ============================================================================
-- One move
-- ============================================================================

section Step

variable {ι κ : Type _} [DecidableEq ι] [DecidableEq κ] {fd : ι → Nat} {c c' : Config ι κ}
  {a : Act ι κ} {k : κ} {n : Nat} {call : Call ι}

theorem step_call (h : step fd (.call k call) c = some c') :
    c.crashed = none ∧ Idle c k ∧ c' = c.load (some k) call.sections := by
  obtain ⟨⟨hcrash, hidle⟩, hret⟩ := Lib.verify_bind_eq_some.mp h
  exact ⟨hcrash, hidle, (Option.some.inj hret).symm⟩

theorem step_openFd (h : step fd (.openFd n) c = some c') :
    c.crashed = none ∧ c.world.kernel.desc n = .closed ∧
      c' = { c with world := { c.world with kernel := c.world.kernel.setDesc n .held } } := by
  obtain ⟨⟨hcrash, hclosed⟩, hret⟩ := Lib.verify_bind_eq_some.mp h
  exact ⟨hcrash, hclosed, (Option.some.inj hret).symm⟩

theorem step_closeFd (h : step fd (.closeFd n) c = some c') :
    c.crashed = none ∧
      c' = { c with world := { c.world with kernel := c.world.kernel.close n } } := by
  obtain ⟨hcrash, hret⟩ := Lib.verify_bind_eq_some.mp h
  exact ⟨hcrash, (Option.some.inj hret).symm⟩

theorem step_destroy (h : step fd (.destroy k) c = some c') :
    c.crashed = none ∧ Idle c k ∧
      c' = { c.load (some k) [.removeAll] with world := { c.world with dying := true } } := by
  obtain ⟨⟨hcrash, hidle⟩, hret⟩ := Lib.verify_bind_eq_some.mp h
  exact ⟨hcrash, hidle, (Option.some.inj hret).symm⟩

theorem step_keyed (h : step fd a c = some c') (hc : Keyed fd c.world.thread) :
    Keyed fd c'.world.thread := by
  cases a with
  | exec t o =>
    obtain ⟨s, rest, -, -, ⟨-, rfl⟩ | ⟨w, pre, hexec, rfl⟩⟩ := Threads.run_cases h
    · exact hc
    · exact exec_keyed hexec hc
  | call k call =>
    obtain ⟨-, -, rfl⟩ := step_call h
    exact hc
  | openFd n =>
    obtain ⟨-, -, rfl⟩ := step_openFd h
    exact hc
  | closeFd n =>
    obtain ⟨-, rfl⟩ := step_closeFd h
    exact hc
  | destroy k =>
    obtain ⟨-, -, rfl⟩ := step_destroy h
    exact hc

variable {allowed : Config ι κ → Act ι κ → Prop}

theorem Run.keyed (h : Run fd allowed c) : Keyed fd c.world.thread := by
  refine Reach.invariant (I := fun c => Keyed fd c.world.thread) ?_ ?_ h
  · intro s hs
    subst hs
    exact keyed_empty
  · intro s s' _ hinv hnext
    obtain ⟨a, -, hstep⟩ := hnext
    exact step_keyed hstep hinv

end Step

-- ============================================================================
-- Stale handles
-- ============================================================================

section Stale

variable {ι κ : Type _} [DecidableEq ι] [DecidableEq κ] {fd : ι → Nat} {c : Config ι κ}

/-- `remove` and `update_mode` of the pollable go through, change nothing, and lead to
    nothing else. -/
def Inert (fd : ι → Nat) (w : World ι) (p : ι) : Prop :=
  ∀ o, exec fd o w (.remove p) = some (w, []) ∧
    ∀ m, exec fd o w (.updateMode p m) = some (w, [])

theorem remove_stale {w : World ι} {p : ι} (o : Oracle ι) (hp : p ∉ w.thread.pollSet) :
    exec fd o w (.remove p) = some (w, []) ↔ w.thread.mode (fd p) = none := by
  by_cases hmode : w.thread.mode (fd p) = none
  · simp [exec, PollThread.remove, hp, hmode, Lib.verify_bind]
  · simp [exec, PollThread.remove, hp, hmode, Lib.verify_bind_none]

/-- In every state the keys of `mode_` are those of `poll_set_`; and what is done with a
    pollable outside of it is without effect unless its number is in use again, where
    `remove` aborts. -/
theorem stale_iff (h : Run fd (fun (_ : Config ι κ) _ => True) c) :
    Keyed fd c.world.thread ∧ ∀ p ∉ c.world.thread.pollSet,
      Inert fd c.world p ↔ ∀ q ∈ c.world.thread.pollSet, fd q ≠ fd p := by
  have hkeyed := h.keyed
  refine ⟨hkeyed, ?_⟩
  intro p hp
  apply Iff.intro
  · intro hinert
    exact hkeyed.free ((remove_stale ⟨[], []⟩ hp).mp (hinert ⟨[], []⟩).1)
  · intro hfree o
    refine ⟨(remove_stale o hp).mpr ?_, ?_⟩
    · by_contra hmode
      obtain ⟨q, hq, hfd⟩ := (hkeyed.key _).mp hmode
      exact hfree q hq hfd
    · intro m
      simp [exec, PollThread.updateMode_stale hp]

/-- A caller whose sections need no answer of the kernel. -/
def turns (n : Nat) : List (Act (Fin 2) Unit) := List.replicate n (.exec (some ()) ⟨[], []⟩)

/-- Two pollables, the second of which gets the number of the first. -/
def sameNumber : Fin 2 → Nat := fun _ => 5

def older : Fin 2 := 0

def newer : Fin 2 := 1

/-- The first is added and removed, its socket is closed, and the second is added. -/
def takenOver : List (Act (Fin 2) Unit) :=
  [.openFd 5, .call () (.add 0 Pollable.READ)] ++ turns 3 ++ [.call () (.remove 0)] ++ turns 2 ++
    [.closeFd 5, .openFd 5, .call () (.add 1 Pollable.READ)] ++ turns 3

/-- The state after that. -/
def afterTakeOver : Config (Fin 2) Unit := afterMoves sameNumber (fun _ _ => True) takenOver

theorem run_afterTakeOver : Run sameNumber (fun _ _ => True) afterTakeOver :=
  Run.of_moves (by decide)

theorem stale_iff_afterTakeOver : Keyed sameNumber afterTakeOver.world.thread ∧
    ∀ p ∉ afterTakeOver.world.thread.pollSet, Inert sameNumber afterTakeOver.world p ↔
      ∀ q ∈ afterTakeOver.world.thread.pollSet, sameNumber q ≠ sameNumber p :=
  stale_iff run_afterTakeOver

/-- `remove` of the first, once more, aborts. -/
theorem stale_aborts : ∃ c, Run sameNumber (fun (_ : Config (Fin 2) Unit) _ => True) c ∧
    ∃ p ∉ c.world.thread.pollSet, ∀ o, exec sameNumber o c.world (.remove p) = none := by
  refine ⟨afterTakeOver, run_afterTakeOver, 0, by decide, ?_⟩
  intro o
  have hmode : afterTakeOver.world.thread.mode 5 ≠ none := by decide
  have hnot : (0 : Fin 2) ∉ afterTakeOver.world.thread.pollSet := by decide
  simp [exec, PollThread.remove, hnot, sameNumber, hmode, Lib.verify_bind_none]

end Stale

end VncProxy.PollMgr
