/-
  VncProxy.Polling.References

  Where the references are that the `PollMgr` has taken: in `poll_set_`, in
  `pending_remove_`, or with a section that is about to pass one on.
-/
import VncProxy.Lib.Weight
import VncProxy.Polling.Sides

namespace VncProxy.PollMgr

open Lib (Threads Reach)
open Polling

-- ============================================================================
-- Accounts
-- ============================================================================

section Account

variable {ι : Type _} [DecidableEq ι]

/-- The references to `p` that a section is about to pass on. -/
def Sec.carries (p : ι) : Sec ι → Nat
  | .add q _ | .pend q | .release q => if q = p then 1 else 0
  | _ => 0

/-- The references to `p` that have been released, or are in one of the sets. -/
def World.stored (w : World ι) (p : ι) : Nat :=
  w.released p + w.thread.pollSet.count p + w.thread.pendingRemove.count p

/-- A removal of `p` that finds the one before still pending: the set keeps one of them. -/
def Sec.merges (w : World ι) (p : ι) (s : Sec ι) : Nat :=
  if s = .pend p ∧ p ∈ w.thread.pendingRemove then 1 else 0

variable {fd : ι → Nat} {o : Oracle ι} {w w' : World ι} {s : Sec ι} {pre : List (Sec ι)} {p : ι}

theorem count_inOrder (order set : List ι) (p : ι) : (inOrder order set).count p = set.count p := by
  unfold inOrder
  split
  · rename_i hperm
    exact hperm.count_eq p
  · rfl

theorem carries_pass (ps : List ι) (p : ι) :
    ((ps.flatMap fun q => [Sec.unregister q, .release q]).map (Sec.carries p)).sum = ps.count p := by
  induction ps with
  | nil => rfl
  | cons q ps ih =>
    rw [List.flatMap_cons, List.map_append, List.sum_append, ih, List.count_cons, Nat.add_comm]
    simp [Sec.carries]

theorem carries_release (ps : List ι) (p : ι) :
    ((ps.map Sec.release).map (Sec.carries p)).sum = ps.count p := by
  induction ps with
  | nil => rfl
  | cons q ps ih =>
    rw [List.map_cons, List.map_cons, List.sum_cons, ih, List.count_cons, Nat.add_comm]
    simp [Sec.carries]

theorem carries_eq_zero {is : List (Sec ι)} (h : ∀ s ∈ is, Sec.carries p s = 0) :
    (is.map (Sec.carries p)).sum = 0 := by
  rw [List.sum_eq_zero_iff]
  intro n hn
  obtain ⟨s, hs, rfl⟩ := List.mem_map.mp hn
  exact h s hs

/-- A section passes its references on, except where a removal is merged with another. -/
theorem exec_account (h : exec fd o w s = some (w', pre))
    (hleave : s = .releaseAll → w.thread.pollSet = []) (p : ι) :
    w'.stored p + (pre.map (Sec.carries p)).sum + s.merges w p + w.taken p =
      w.stored p + s.carries p + w'.taken p := by
  cases s with
  | refCopy q m =>
    cases h
    by_cases hq : q = p
    · subst hq
      simp [World.stored, Sec.carries, Sec.merges]
      omega
    · simp [World.stored, Sec.carries, Sec.merges, hq, Ne.symm hq]
  | add q m =>
    obtain ⟨thread, hadd, rfl, rfl⟩ := exec_add h
    obtain ⟨-, -, rfl⟩ := PollThread.add_eq_some.mp hadd
    simp only [World.stored, Sec.carries, Sec.merges, List.count_cons, beq_iff_eq, reduceCtorEq,
      false_and, if_false, List.map_nil, List.sum_nil]
    omega
  | epollAdd q m =>
    obtain ⟨kernel, -, rfl, rfl⟩ := exec_epollAdd h
    simp [World.stored, Sec.carries, Sec.merges]
  | remove q =>
    rcases exec_remove h with ⟨hq, -, rfl, rfl⟩ | ⟨-, -, rfl, rfl⟩
    · have hcount := List.count_pos_iff.mpr hq
      simp only [World.stored, Sec.carries, Sec.merges, reduceCtorEq, false_and, if_false,
        List.map_cons, List.map_nil, List.sum_cons, List.sum_nil]
      by_cases hqp : q = p
      · subst hqp
        rw [List.count_erase_self, if_pos rfl]
        omega
      · rw [List.count_erase_of_ne (Ne.symm hqp), if_neg hqp]
        omega
    · simp [World.stored, Sec.carries, Sec.merges]
  | pend q =>
    cases h
    simp only [World.stored, Sec.carries, Sec.merges, PollThread.pend, Sec.pend.injEq,
      List.map_nil, List.sum_nil]
    by_cases hqp : q = p
    · subst hqp
      by_cases hin : q ∈ w.thread.pendingRemove
      · simp only [List.insert_of_mem hin, hin, and_self, if_true]
        omega
      · simp only [List.insert_of_not_mem hin, hin, and_false, if_false, if_true,
          List.count_cons_self]
        omega
    · have hcount : (w.thread.pendingRemove.insert q).count p = w.thread.pendingRemove.count p := by
        rw [List.insert]
        split
        · rfl
        · rw [List.count_cons_of_ne hqp]
      simp only [hcount, hqp, false_and, if_false]
      omega
  | updateMode q m =>
    obtain ⟨rfl, ⟨-, rfl⟩ | ⟨-, old, kernel, -, -, rfl⟩⟩ := exec_updateMode h
    · simp [World.stored, Sec.carries, Sec.merges]
    · simp [World.stored, Sec.carries, Sec.merges]
  | removeAll =>
    cases h
    have hnone : (((inOrder o.order w.thread.pollSet).map Sec.remove ++ [Sec.setStop]).map
        (Sec.carries p)).sum = 0 := by
      apply carries_eq_zero
      intro s hs
      rcases List.mem_append.mp hs with hs | hs
      · obtain ⟨q, -, rfl⟩ := List.mem_map.mp hs
        rfl
      · rw [List.mem_singleton.mp hs]
        rfl
    rw [hnone]
    simp [Sec.carries, Sec.merges]
  | loopHead =>
    cases h
    split <;> simp [World.stored, Sec.carries, Sec.merges]
  | stopTest evlist =>
    cases h
    have hnone : ((if w.stopFlag then [Sec.releaseAll] else
        evlist.map (fun e => .event e.1 e.2) ++ [.swapPending]).map (Sec.carries p)).sum = 0 := by
      apply carries_eq_zero
      intro s hs
      split at hs
      · rw [List.mem_singleton.mp hs]
        rfl
      · rcases List.mem_append.mp hs with hs | hs
        · obtain ⟨e, -, rfl⟩ := List.mem_map.mp hs
          rfl
        · rw [List.mem_singleton.mp hs]
          rfl
    rw [hnone]
    simp [Sec.carries, Sec.merges]
  | event q ev =>
    cases h
    have hnone : ((dispatch q ev).map (Sec.carries p)).sum = 0 := by
      apply carries_eq_zero
      intro s hs
      simp only [dispatch, List.mem_append, List.mem_ite_nil_right, List.mem_singleton] at hs
      rcases hs with (⟨-, rfl⟩ | ⟨-, rfl⟩) | ⟨-, rfl⟩ <;> rfl
    rw [hnone]
    simp [Sec.carries, Sec.merges]
  | swapPending =>
    cases h
    simp only [World.stored, Sec.carries, Sec.merges, reduceCtorEq, false_and, if_false,
      List.map_append, List.sum_append, carries_pass, count_inOrder, List.count_nil, List.map_cons,
      List.map_nil, List.sum_cons, List.sum_nil]
    omega
  | unregister q =>
    cases h
    simp [World.stored, Sec.carries, Sec.merges]
  | release q =>
    cases h
    by_cases hqp : q = p
    · subst hqp
      simp only [World.stored, Sec.carries, Sec.merges, Function.update_self, reduceCtorEq,
        false_and, if_false, if_true, List.map_nil, List.sum_nil]
      omega
    · simp [World.stored, Sec.carries, Sec.merges, hqp, Ne.symm hqp]
  | releaseAll =>
    cases h
    simp only [World.stored, Sec.carries, Sec.merges, reduceCtorEq, false_and, if_false,
      List.map_append, List.sum_append, carries_release, count_inOrder, hleave rfl, List.count_nil,
      List.map_cons, List.map_nil, List.sum_cons, List.sum_nil]
    omega
  | _ =>
    cases h
    simp [World.stored, Sec.carries, Sec.merges]

end Account

section Total

variable {ι κ : Type _} [DecidableEq ι] [Fintype κ]

/-- The references to `p` that are accounted for. -/
def total (c : Config ι κ) (p : ι) : Nat := c.world.stored p + c.weight (Sec.carries p)

theorem total_start (p : ι) : total (start : Config ι κ) p = 0 := by
  have hnone : (start : Config ι κ).weight (Sec.carries p) = 0 := by
    apply Finset.sum_eq_zero
    intro t _
    cases t <;> rfl
  rw [total, hnone]
  rfl

variable [DecidableEq κ] {fd : ι → Nat} {c c' : Config ι κ} {a : Act ι κ}

/-- The references to `p` that a move loses. -/
def lost (c : Config ι κ) (a : Act ι κ) (p : ι) : Nat :=
  match a with
  | .exec t _ => ((c.code t).head?.map (Sec.merges c.world p)).getD 0
  | _ => 0

/-- One move keeps the account, but for a removal that is merged. -/
theorem step_account (h : step fd a c = some c')
    (hleave : ∀ t rest, c.code t = .releaseAll :: rest → c.world.thread.pollSet = []) (p : ι) :
    total c' p + lost c a p + c.world.taken p = total c p + c'.world.taken p := by
  cases a with
  | exec t o =>
    obtain ⟨s, rest, -, hcode, ⟨hfail, rfl⟩ | ⟨w, pre, hexec, rfl⟩⟩ := Threads.run_cases h
    · have hnone : lost c (.exec t o) p = 0 := by
        simp only [lost, hcode, List.head?_cons, Option.map_some, Option.getD_some, Sec.merges]
        rw [if_neg]
        rintro ⟨rfl, -⟩
        cases hfail
      rw [hnone]
      rfl
    · have hleave' : s = .releaseAll → c.world.thread.pollSet = [] := by
        rintro rfl
        exact hleave t rest hcode
      have haccount := exec_account hexec hleave' p
      have hload := Threads.weight_load (f := Sec.carries p) (c := c) t (pre ++ rest)
      rw [hcode, List.map_cons, List.sum_cons, List.map_append, List.sum_append] at hload
      have hlost : lost c (.exec t o) p = s.merges c.world p := by
        simp only [lost, hcode, List.head?_cons, Option.map_some, Option.getD_some]
      rw [hlost]
      show w.stored p + (c.load t (pre ++ rest)).weight (Sec.carries p) + s.merges c.world p +
        c.world.taken p = c.world.stored p + c.weight (Sec.carries p) + w.taken p
      omega
  | call k call =>
    obtain ⟨-, hidle, rfl⟩ := step_call h
    have hload := Threads.weight_load (f := Sec.carries p) (c := c) (some k) call.sections
    rw [hidle, List.map_nil, List.sum_nil] at hload
    have hnone : (call.sections.map (Sec.carries p)).sum = 0 := by cases call <;> rfl
    show c.world.stored p + (c.load (some k) call.sections).weight (Sec.carries p) + 0 +
      c.world.taken p = c.world.stored p + c.weight (Sec.carries p) + c.world.taken p
    omega
  | openFd n =>
    obtain ⟨-, -, rfl⟩ := step_openFd h
    rfl
  | closeFd n =>
    obtain ⟨-, rfl⟩ := step_closeFd h
    rfl
  | destroy k =>
    obtain ⟨-, hidle, rfl⟩ := step_destroy h
    have hload := Threads.weight_load (f := Sec.carries p) (c := c) (some k) [.removeAll]
    rw [hidle, List.map_nil, List.sum_nil] at hload
    have hnone : (([.removeAll] : List (Sec ι)).map (Sec.carries p)).sum = 0 := rfl
    show c.world.stored p + (c.load (some k) [.removeAll]).weight (Sec.carries p) + 0 +
      c.world.taken p = c.world.stored p + c.weight (Sec.carries p) + c.world.taken p
    omega

end Total

end VncProxy.PollMgr
