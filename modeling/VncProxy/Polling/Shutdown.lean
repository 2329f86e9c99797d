/-
  VncProxy.Polling.Shutdown

  `~PollThread` against `poll_loop`.  The destructor removes what is registered, sets
  `stop_flag_` and joins; the loop may notice at its head or right after `epoll_wait`, and
  in either case without another removal pass.
-/
import VncProxy.Polling.References

namespace VncProxy.PollMgr

open Lib (Threads runActs)
open Polling

-- ============================================================================
-- Stages of the destructor
-- ============================================================================

section Stage

variable {ι κ : Type _}

/-- How far the callers have come, one of whom is the destructor in the end. -/
inductive Stage (w : World ι) (code : κ → List (Sec ι)) : Prop
  | living (hdying : w.dying = false) (hstop : w.stopFlag = false) (hcalling : ∀ k, Calling (code k))
  | entered (hdying : w.dying = true) (hstop : w.stopFlag = false) (k : κ)
      (hk : code k = [.removeAll]) (hidle : ∀ k', k' ≠ k → code k' = [])
  | removing (hdying : w.dying = true) (hstop : w.stopFlag = false) (k : κ) (is : List (Sec ι))
      (hk : code k = is ++ [.setStop]) (his : ∀ s ∈ is, ∃ p, s = .remove p ∨ s = .pend p)
      (hall : ∀ p ∈ w.thread.pollSet, .remove p ∈ is) (hidle : ∀ k', k' ≠ k → code k' = [])
  | joining (hdying : w.dying = true) (hstop : w.stopFlag = true) (hset : w.thread.pollSet = [])
      (hidle : ∀ k, code k = [])

variable {w w' : World ι} {code : κ → List (Sec ι)}

theorem Stage.congr (h : Stage w code) (hset : w'.thread.pollSet = w.thread.pollSet)
    (hdying : w'.dying = w.dying) (hstop : w'.stopFlag = w.stopFlag) : Stage w' code := by
  cases h with
  | living hd hs hcalling => exact .living (hdying.trans hd) (hstop.trans hs) hcalling
  | entered hd hs k hk hidle => exact .entered (hdying.trans hd) (hstop.trans hs) k hk hidle
  | removing hd hs k is hk his hall hidle =>
    exact .removing (hdying.trans hd) (hstop.trans hs) k is hk his (by rwa [hset]) hidle
  | joining hd hs hnil hidle => exact .joining (hdying.trans hd) (hstop.trans hs) (hset.trans hnil) hidle

/-- Once `stop_flag_` is set, nothing is registered and no call is in progress. -/
theorem Stage.stopped (h : Stage w code) (hstop : w.stopFlag = true) :
    w.thread.pollSet = [] ∧ ∀ k, code k = [] := by
  cases h with
  | living _ hs _ => rw [hs] at hstop; cases hstop
  | entered _ hs _ _ _ => rw [hs] at hstop; cases hstop
  | removing _ hs _ _ _ _ _ _ => rw [hs] at hstop; cases hstop
  | joining _ _ hset hidle => exact ⟨hset, hidle⟩

theorem Stage.callers (h : Stage w code) (hdying : w.dying = false) :
    w.stopFlag = false ∧ ∀ k, Calling (code k) := by
  cases h with
  | living _ hs hcalling => exact ⟨hs, hcalling⟩
  | entered hd _ _ _ _ => rw [hdying] at hd; cases hd
  | removing hd _ _ _ _ _ _ _ => rw [hdying] at hd; cases hd
  | joining hd _ _ _ => rw [hdying] at hd; cases hd

theorem Calling.byCaller {is : List (Sec ι)} (h : Calling is) : ∀ s ∈ is, s.byLoop = false := by
  intro s hs
  cases h with
  | idle => cases hs
  | add p m =>
    have hs : s = .add p m ∨ s = .epollAdd p m := by simpa using hs
    rcases hs with rfl | rfl <;> rfl
  | _ => rw [List.mem_singleton.mp hs]; rfl

/-- No caller runs a section of the poll thread. -/
theorem Stage.byCaller (h : Stage w code) (k : κ) : ∀ s ∈ code k, s.byLoop = false := by
  intro s hs
  have hother : ∀ k₀, (∀ k', k' ≠ k₀ → code k' = []) → k = k₀ := by
    intro k₀ hidle
    by_contra hne
    rw [hidle k hne] at hs
    cases hs
  cases h with
  | living _ _ hcalling => exact (hcalling k).byCaller s hs
  | entered _ _ k₀ hk hidle =>
    obtain rfl := hother k₀ hidle
    rw [hk] at hs
    rw [List.mem_singleton.mp hs]
    rfl
  | removing _ _ k₀ is hk his _ hidle =>
    obtain rfl := hother k₀ hidle
    rw [hk] at hs
    rcases List.mem_append.mp hs with hs | hs
    · obtain ⟨p, rfl | rfl⟩ := his s hs <;> rfl
    · rw [List.mem_singleton.mp hs]
      rfl
  | joining _ _ _ hidle =>
    rw [hidle k] at hs
    cases hs

theorem Calling.not_setStop {s : Sec ι} {rest : List (Sec ι)} (h : Calling (s :: rest)) : s ≠ .setStop := by
  rintro rfl
  cases h

theorem code_load [DecidableEq κ] (c : Config ι κ) (k : κ) (is : List (Sec ι)) :
    (fun k' => (c.load (some k) is).code (some k')) =
      Function.update (fun k' => c.code (some k')) k is := by
  funext k'
  by_cases hk : k' = k
  · rw [hk, Threads.load_code_self, Function.update_self]
  · rw [Threads.load_code_of_ne _ (by simpa using hk), Function.update_of_ne hk]

variable [DecidableEq ι] [DecidableEq κ] {fd : ι → Nat} {o : Oracle ι} {k : κ} {s : Sec ι}
  {rest pre : List (Sec ι)}

/-- One section of a caller. -/
theorem Stage.exec (h : Stage w code) (hkeyed : Keyed fd w.thread) (hcode : code k = s :: rest)
    (hexec : exec fd o w s = some (w', pre)) :
    Stage w' (Function.update code k (pre ++ rest)) := by
  obtain ⟨hdying, hstop⟩ := exec_flags hexec
  have hidle' : ∀ k₀, (∀ k', k' ≠ k₀ → code k' = []) → k = k₀ := by
    intro k₀ hidle
    by_contra hne
    rw [hidle k hne] at hcode
    cases hcode
  have hothers : ∀ is, (∀ k', k' ≠ k → code k' = []) →
      ∀ k', k' ≠ k → Function.update code k is k' = [] := by
    intro is hidle k' hne
    rw [Function.update_of_ne hne, hidle k' hne]
  cases h with
  | living hd hs hcalling =>
    have hk := hcalling k
    rw [hcode] at hk
    refine .living (hdying.trans hd) ((hstop hk.not_setStop).trans hs) ?_
    intro k'
    by_cases hne : k' = k
    · rw [hne, Function.update_self]
      exact hk.exec hexec
    · rw [Function.update_of_ne hne]
      exact hcalling k'
  | entered hd hs k₀ hk hidle =>
    obtain rfl := hidle' k₀ hidle
    rw [hk] at hcode
    obtain ⟨rfl, rfl⟩ := List.cons.inj hcode
    cases hexec
    refine .removing hd hs k ((inOrder o.order w.thread.pollSet).map .remove)
      (by rw [Function.update_self, List.append_nil]) ?_ ?_ (hothers _ hidle)
    · intro s hs
      obtain ⟨p, -, rfl⟩ := List.mem_map.mp hs
      exact ⟨p, Or.inl rfl⟩
    · intro p hp
      apply List.mem_map_of_mem
      rwa [← List.count_pos_iff, count_inOrder, List.count_pos_iff]
  | removing hd hs k₀ is hk his hall hidle =>
    obtain rfl := hidle' k₀ hidle
    rw [hk] at hcode
    cases is with
    | nil =>
      obtain ⟨rfl, rfl⟩ := List.cons.inj hcode
      cases hexec
      refine .joining hd rfl ?_ ?_
      · apply List.eq_nil_iff_forall_not_mem.mpr
        intro p hp
        cases hall p hp
      · intro k'
        by_cases hne : k' = k
        · rw [hne, Function.update_self]
          rfl
        · exact hothers _ hidle k' hne
    | cons i is =>
      obtain ⟨rfl, rfl⟩ := List.cons.inj hcode
      have his' : ∀ s ∈ is, ∃ p, s = .remove p ∨ s = .pend p :=
        fun s hs => his s (List.mem_cons_of_mem _ hs)
      obtain ⟨p, rfl | rfl⟩ := his i List.mem_cons_self
      · rcases exec_remove hexec with ⟨hp, -, rfl, rfl⟩ | ⟨hp, -, rfl, rfl⟩
        · refine .removing hd hs k (.pend p :: is) (Function.update_self ..) ?_ ?_ (hothers _ hidle)
          · intro s hs
            rcases List.mem_cons.mp hs with rfl | hs
            · exact ⟨p, Or.inr rfl⟩
            · exact his' s hs
          · intro q hq
            obtain ⟨hqp, hq⟩ := hkeyed.nodup.mem_erase_iff.mp hq
            rcases List.mem_cons.mp (hall q hq) with heq | hin
            · exact absurd (Sec.remove.inj heq) hqp
            · exact List.mem_cons_of_mem _ hin
        · refine .removing hd hs k is (Function.update_self ..) his' ?_ (hothers _ hidle)
          intro q hq
          rcases List.mem_cons.mp (hall q hq) with heq | hin
          · rw [Sec.remove.inj heq] at hq
            exact absurd hq hp
          · exact hin
      · cases hexec
        refine .removing hd hs k is (Function.update_self ..) his' ?_ (hothers _ hidle)
        intro q hq
        rcases List.mem_cons.mp (hall q hq) with heq | hin
        · cases heq
        · exact hin
  | joining _ _ _ hidle =>
    rw [hidle k] at hcode
    cases hcode

end Stage

-- ============================================================================
-- Every reference comes back
-- ============================================================================

section Shutdown

variable {ι κ : Type _}

/-- No call is made once the destructor is entered, which happens when all calls have
    returned. -/
def Closing (c : Config ι κ) : Act ι κ → Prop
  | .call _ _ => c.world.dying = false
  | .destroy _ => c.world.dying = false ∧ ∀ k, Idle c k
  | _ => True

instance [Fintype κ] (c : Config ι κ) : (a : Act ι κ) → Decidable (Closing c a)
  | .call _ _ => inferInstanceAs (Decidable (c.world.dying = false))
  | .destroy _ => inferInstanceAs (Decidable (c.world.dying = false ∧ ∀ k, Idle c k))
  | .exec .. | .openFd _ | .closeFd _ => .isTrue trivial

/-- No removal is merged with one that is still pending, and the loop leaves nothing pending
    behind. -/
def Unmerged (c : Config ι κ) : Act ι κ → Prop
  | .exec t _ =>
    match c.code t with
    | .pend p :: _ => p ∉ c.world.thread.pendingRemove
    | .releaseAll :: _ => c.world.thread.pendingRemove = []
    | _ => True
  | _ => True

instance decidableUnmergedHead [DecidableEq ι] (pending : List ι) : (is : List (Sec ι)) →
    Decidable (match is with
      | .pend p :: _ => p ∉ pending
      | .releaseAll :: _ => pending = []
      | _ => True)
  | [] => .isTrue trivial
  | s :: _ => by cases s <;> dsimp only <;> infer_instance

instance [DecidableEq ι] (c : Config ι κ) : (a : Act ι κ) → Decidable (Unmerged c a)
  | .exec t _ => decidableUnmergedHead c.world.thread.pendingRemove (c.code t)
  | .call .. | .destroy _ | .openFd _ | .closeFd _ => .isTrue trivial

/-- `~PollThread` has returned: `Pthread_join` waits for the poll thread. -/
def Returned (c : Config ι κ) : Prop :=
  c.crashed = none ∧ c.world.dying = true ∧ ∀ t, c.code t = []

/-- The poll thread has left its loop. -/
def Left (c : Config ι κ) : Prop :=
  c.world.stopFlag = true ∧ (Leaving (c.code none) ∨ c.code none = [])

variable [DecidableEq ι]

theorem unmerged_iff {c : Config ι κ} {a : Act ι κ} : Unmerged c a ↔ (∀ p, lost c a p = 0) ∧
    ∀ t o rest, a = .exec t o → c.code t = .releaseAll :: rest →
      c.world.thread.pendingRemove = [] := by
  cases a with
  | exec t o =>
    have hnext : (∀ t' o' rest, Act.exec (κ := κ) t o = .exec t' o' →
        c.code t' = .releaseAll :: rest → c.world.thread.pendingRemove = []) ↔
        ∀ rest, c.code t = .releaseAll :: rest → c.world.thread.pendingRemove = [] := by
      apply Iff.intro
      · intro h rest hcode
        exact h t o rest rfl hcode
      · rintro h t' o' rest heq hcode
        obtain ⟨rfl, rfl⟩ := Act.exec.inj heq
        exact h rest hcode
    rw [hnext]
    cases hcode : c.code t with
    | nil => simp [Unmerged, lost, hcode]
    | cons s rest =>
      cases s with
      | pend q => simp [Unmerged, lost, hcode, Sec.merges]
      | releaseAll => simp [Unmerged, lost, hcode, Sec.merges]
      | _ => simp [Unmerged, lost, hcode, Sec.merges]
  | _ =>
    refine iff_of_true trivial ⟨fun _ => rfl, ?_⟩
    intro t o rest heq
    cases heq

variable [Fintype κ]

/-- What holds in every state of a `PollThread` that lives and is destroyed. -/
structure Winding (fd : ι → Nat) (c : Config ι κ) : Prop where
  keyed : Keyed fd c.world.thread
  stage : Stage c.world fun k => c.code (some k)
  loop : Turning c.world.stopFlag (c.code none) ∨ Left c
  account : ∀ p, total c p ≤ c.world.taken p

variable {fd : ι → Nat} {c c' : Config ι κ} {a : Act ι κ}

theorem winding_start : Winding fd (start : Config ι κ) := by
  refine ⟨keyed_empty, ?_, ?_, ?_⟩
  · exact .living rfl rfl fun _ => Calling.idle
  · exact Or.inl (Turning.passing Passing.loopHead)
  · intro p
    rw [total_start]
    exact Nat.zero_le _

/-- When the poll thread gets to the last releases, nothing is registered. -/
theorem Winding.leave (h : Winding fd c) (t : Option κ) (rest : List (Sec ι))
    (hcode : c.code t = .releaseAll :: rest) : c.world.thread.pollSet = [] := by
  cases t with
  | none =>
    have hstop : c.world.stopFlag = true := by
      rcases h.loop with hturn | hleft
      · rw [hcode] at hturn
        cases hturn with
        | releaseAll hstop => exact hstop
        | handling h => cases h
        | passing h => cases h
      · exact hleft.1
    exact (h.stage.stopped hstop).1
  | some k =>
    have hcaller := h.stage.byCaller k .releaseAll (by rw [hcode]; exact List.mem_cons_self)
    cases hcaller

/-- A section of the poll thread leaves the callers where they are, and goes on with the turn
    unless it leaves the loop. -/
theorem Winding.loop_step (h : Winding fd c) {o : Oracle ι} {s : Sec ι} {rest pre : List (Sec ι)}
    {w : World ι} (hcode : c.code none = s :: rest) (hexec : exec fd o c.world s = some (w, pre)) :
    Stage w (fun k => c.code (some k)) ∧ w.stopFlag = c.world.stopFlag ∧
      (Turning w.stopFlag (pre ++ rest) ∨ (c.world.stopFlag = true ∧
        (s = .releaseAll ∨ Left c) ∧ w.thread.pendingRemove = c.world.thread.pendingRemove ∧
        (Leaving (pre ++ rest) ∨ pre ++ rest = []))) := by
  have hs : s.byLoop = true := by
    rcases h.loop with hturn | ⟨-, hleave | hnil⟩
    · rw [hcode] at hturn
      exact hturn.byLoop
    · rw [hcode] at hleave
      exact hleave.byLoop
    · rw [hcode] at hnil
      cases hnil
  obtain ⟨-, hset, -, -, -⟩ := exec_byLoop hs hexec
  obtain ⟨hdying, hflag⟩ := exec_flags hexec
  have hstop : w.stopFlag = c.world.stopFlag := by
    apply hflag
    rintro rfl
    cases hs
  refine ⟨h.stage.congr hset hdying hstop, hstop, ?_⟩
  rcases h.loop with hturn | hleft
  · rw [hcode] at hturn
    rcases hturn.exec hexec with hturn | ⟨hs, hstopped, rfl, hleave⟩
    · exact Or.inl (by rwa [hstop])
    · exact Or.inr ⟨hstopped, Or.inl hs, rfl, Or.inl hleave⟩
  · obtain ⟨hstopped, hleave | hnil⟩ := id hleft
    · rw [hcode] at hleave
      obtain ⟨hrest, hthread⟩ := hleave.exec hexec
      exact Or.inr ⟨hstopped, Or.inr hleft, by rw [hthread], hrest⟩
    · rw [hcode] at hnil
      cases hnil

/-- When the destructor has returned, the references that are not back are pending. -/
theorem Winding.returned (h : Winding fd c) (hret : Returned c) :
    Left c ∧ ∀ p, total c p = c.world.released p + c.world.thread.pendingRemove.count p := by
  obtain ⟨-, hdying, hcode⟩ := hret
  have hstopped : c.world.stopFlag = true ∧ c.world.thread.pollSet = [] := by
    cases h.stage with
    | living hd _ _ => rw [hdying] at hd; cases hd
    | entered _ _ k hk _ => rw [hcode] at hk; cases hk
    | removing _ _ k is hk _ _ _ =>
      rw [hcode] at hk
      exact absurd hk.symm (by simp)
    | joining _ hstop hset _ => exact ⟨hstop, hset⟩
  refine ⟨⟨hstopped.1, Or.inr (hcode none)⟩, ?_⟩
  intro p
  rw [total, Threads.weight_eq_zero hcode, World.stored, hstopped.2, List.count_nil]
  omega

variable [DecidableEq κ]

/-- While the poll thread has left its loop, or leaves it, nothing is added to
    `pending_remove_`. -/
theorem Winding.step (h : Winding fd c) (hclosing : Closing c a) (hstep : step fd a c = some c') :
    Winding fd c' ∧ (Left c → Left c') ∧ (Left c' →
      c'.world.thread.pendingRemove = c.world.thread.pendingRemove ∧
      (Left c ∨ ∃ o rest, a = .exec none o ∧ c.code none = .releaseAll :: rest)) := by
  have haccount : ∀ p, total c' p ≤ c'.world.taken p := by
    intro p
    have hold := h.account p
    have hnew := step_account hstep h.leave p
    omega
  have hkeyed := step_keyed hstep h.keyed
  cases a with
  | exec t o =>
    obtain ⟨s, rest, -, hcode, ⟨-, rfl⟩ | ⟨w, pre, hexec, rfl⟩⟩ := Threads.run_cases hstep
    · exact ⟨⟨hkeyed, h.stage, h.loop, haccount⟩, id, fun hleft => ⟨rfl, Or.inl hleft⟩⟩
    · cases t with
      | none =>
        obtain ⟨hstage, hstop, hloop⟩ := h.loop_step hcode hexec
        have hself : (c.load none (pre ++ rest)).code none = pre ++ rest :=
          Threads.load_code_self _
        have hcallers : (fun k => (c.load none (pre ++ rest)).code (some k)) =
            fun k => c.code (some k) := by
          funext k
          exact Threads.load_code_of_ne _ (by simp)
        have hleft : Left { c.load none (pre ++ rest) with world := w } ↔
            c.world.stopFlag = true ∧ (Leaving (pre ++ rest) ∨ pre ++ rest = []) := by
          show w.stopFlag = true ∧ (Leaving ((c.load none (pre ++ rest)).code none) ∨
            (c.load none (pre ++ rest)).code none = []) ↔ _
          rw [hself, hstop]
        have hstage' : Stage w fun k => (c.load none (pre ++ rest)).code (some k) := by
          rwa [hcallers]
        rcases hloop with hturn | ⟨hstopped, hfrom, hpending, hrest⟩
        · have hturn' : Turning w.stopFlag ((c.load none (pre ++ rest)).code none) := by
            rwa [hself]
          refine ⟨⟨hkeyed, hstage', Or.inl hturn', haccount⟩, ?_, ?_⟩
          · rintro ⟨-, hleave⟩
            rw [hcode] at hleave
            rcases hleave with hleave | hnil
            · exact absurd (hleave.exec hexec).1 hturn.not_leaving
            · cases hnil
          · intro hc
            exact absurd (hleft.mp hc).2 hturn.not_leaving
        · refine ⟨⟨hkeyed, hstage', Or.inr (hleft.mpr ⟨hstopped, hrest⟩), haccount⟩,
            fun _ => hleft.mpr ⟨hstopped, hrest⟩, fun _ => ⟨hpending, ?_⟩⟩
          rcases hfrom with rfl | hc
          · exact Or.inr ⟨o, rest, rfl, hcode⟩
          · exact Or.inl hc
      | some k =>
        have hnone : (c.load (some k) (pre ++ rest)).code none = c.code none :=
          Threads.load_code_of_ne _ (by simp)
        have hstage : Stage w fun k' => (c.load (some k) (pre ++ rest)).code (some k') := by
          rw [code_load]
          exact h.stage.exec h.keyed hcode hexec
        have hrunning : c.world.stopFlag = false := by
          by_contra hstop
          have hidle := (h.stage.stopped (by simpa using hstop)).2 k
          rw [hcode] at hidle
          cases hidle
        have hturn : Turning c.world.stopFlag (c.code none) := by
          rcases h.loop with hturn | ⟨hstop, -⟩
          · exact hturn
          · rw [hrunning] at hstop
            cases hstop
        refine ⟨⟨hkeyed, hstage, Or.inl ?_, haccount⟩, ?_, ?_⟩
        · show Turning w.stopFlag ((c.load (some k) (pre ++ rest)).code none)
          rw [hnone]
          exact hturn.mono (by rw [hrunning]; simp)
        · rintro ⟨hstop, -⟩
          rw [hrunning] at hstop
          cases hstop
        · rintro ⟨-, hleave⟩
          have hleave : Leaving ((c.load (some k) (pre ++ rest)).code none) ∨
            (c.load (some k) (pre ++ rest)).code none = [] := hleave
          rw [hnone] at hleave
          exact absurd hleave hturn.not_leaving
  | call k call =>
    obtain ⟨-, hidle, rfl⟩ := step_call hstep
    obtain ⟨hstop, hcalling⟩ := h.stage.callers hclosing
    have hnone : (c.load (some k) call.sections).code none = c.code none :=
      Threads.load_code_of_ne _ (by simp)
    have hleft : Left (c.load (some k) call.sections) ↔ Left c := by
      rw [Left, Left, hnone, Threads.load_world]
    refine ⟨⟨hkeyed, ?_, ?_, haccount⟩, hleft.mpr, fun hc => ⟨rfl, Or.inl (hleft.mp hc)⟩⟩
    · rw [code_load]
      refine .living hclosing hstop ?_
      intro k'
      by_cases hk : k' = k
      · rw [hk, Function.update_self]
        exact calling_sections call
      · rw [Function.update_of_ne hk]
        exact hcalling k'
    · rw [hleft, hnone]
      exact h.loop
  | openFd n =>
    obtain ⟨-, -, rfl⟩ := step_openFd hstep
    exact ⟨⟨hkeyed, h.stage.congr rfl rfl rfl, h.loop, haccount⟩, id,
      fun hleft => ⟨rfl, Or.inl hleft⟩⟩
  | closeFd n =>
    obtain ⟨-, rfl⟩ := step_closeFd hstep
    exact ⟨⟨hkeyed, h.stage.congr rfl rfl rfl, h.loop, haccount⟩, id,
      fun hleft => ⟨rfl, Or.inl hleft⟩⟩
  | destroy k =>
    obtain ⟨-, -, rfl⟩ := step_destroy hstep
    obtain ⟨hdying, hidle⟩ := hclosing
    obtain ⟨hstop, -⟩ := h.stage.callers hdying
    have hnone : (c.load (some k) [.removeAll]).code none = c.code none :=
      Threads.load_code_of_ne _ (by simp)
    have hnot : ∀ c₁ : Config ι κ, c₁.world.stopFlag = c.world.stopFlag → ¬ Left c₁ := by
      rintro c₁ heq ⟨hc, -⟩
      rw [heq, hstop] at hc
      cases hc
    refine ⟨⟨hkeyed, ?_, Or.inl ?_, haccount⟩, fun hc => absurd hc (hnot c rfl),
      fun hc => absurd hc (hnot _ rfl)⟩
    · show Stage { c.world with dying := true } fun k' =>
        (c.load (some k) [.removeAll]).code (some k')
      rw [code_load]
      refine .entered rfl hstop k (Function.update_self ..) ?_
      intro k' hk
      rw [Function.update_of_ne hk]
      exact hidle k'
    · show Turning c.world.stopFlag ((c.load (some k) [.removeAll]).code none)
      rw [hnone]
      exact h.loop.resolve_right (hnot c rfl)

theorem Winding.leaves (h : Winding fd c) {o : Oracle ι} {rest : List (Sec ι)}
    (hcode : c.code none = .releaseAll :: rest)
    (hstep : PollMgr.step fd (.exec none o) c = some c') :
    Left c' := by
  obtain ⟨s, rest', -, hcode', ⟨hfail, -⟩ | ⟨w, pre, hexec, rfl⟩⟩ := Threads.run_cases hstep
  · rw [hcode] at hcode'
    obtain ⟨rfl, rfl⟩ := List.cons.inj hcode'
    cases hfail
  · have hself : (c.load none (pre ++ rest')).code none = pre ++ rest' := Threads.load_code_self _
    obtain ⟨-, hstop, hturn | ⟨hstopped, -, -, hleave⟩⟩ := h.loop_step hcode' hexec
    · exfalso
      rw [hcode] at hcode'
      obtain ⟨rfl, rfl⟩ := List.cons.inj hcode'
      rcases h.loop with hturn' | ⟨-, hleave⟩
      · rw [hcode] at hturn'
        have hrest : rest = [] := by
          cases hturn' with
          | releaseAll _ => rfl
          | handling h => cases h
          | passing h => cases h
        subst hrest
        cases hexec
        exact hturn.not_leaving (Or.inl (by simpa using leaving_all _))
      · rw [hcode] at hleave
        rcases hleave with hleave | hnil
        · cases hleave
        · cases hnil
    · refine ⟨hstop.trans hstopped, ?_⟩
      show Leaving ((c.load none (pre ++ rest')).code none) ∨ _ = []
      rw [hself]
      exact hleave

/-- `P` holds of every move, in the state that it is made in. -/
def Along (fd : ι → Nat) (P : Config ι κ → Act ι κ → Prop) : List (Act ι κ) → Config ι κ → Prop
  | [], _ => True
  | a :: as, c => P c a ∧ ∀ c', step fd a c = some c' → Along fd P as c'

instance decidableAlong {P : Config ι κ → Act ι κ → Prop} [∀ c a, Decidable (P c a)] :
    (as : List (Act ι κ)) → (c : Config ι κ) → Decidable (Along fd P as c)
  | [], _ => isTrue trivial
  | a :: as, c =>
    match h : PollMgr.step fd a c with
    | none => decidable_of_iff (P c a) (by simp [Along, h])
    | some c' =>
      have := decidableAlong (P := P) as c'
      decidable_of_iff (P c a ∧ Along fd P as c') (by simp [Along, h])

variable {as : List (Act ι κ)}

/-- Where nothing is merged and nothing is left pending, every reference stays accounted for. -/
theorem Winding.balanced (h : Winding fd c) (hclosing : Along fd Closing as c)
    (hunmerged : Along fd Unmerged as c) (hrun : runActs (PollMgr.step fd) as c = some c')
    (htotal : ∀ p, total c p = c.world.taken p)
    (hpending : Left c → c.world.thread.pendingRemove = []) :
    Winding fd c' ∧ (∀ p, total c' p = c'.world.taken p) ∧
      (Left c' → c'.world.thread.pendingRemove = []) := by
  induction as generalizing c with
  | nil =>
    obtain rfl := Option.some.inj hrun
    exact ⟨h, htotal, hpending⟩
  | cons a as ih =>
    obtain ⟨c₁, hstep, hrest⟩ := Option.bind_eq_some_iff.mp hrun
    obtain ⟨hwinding, -, hleft⟩ := h.step hclosing.1 hstep
    obtain ⟨hlost, hleaves⟩ := unmerged_iff.mp hunmerged.1
    apply ih hwinding (hclosing.2 c₁ hstep) (hunmerged.2 c₁ hstep) hrest
    · intro p
      have haccount := step_account hstep h.leave p
      rw [hlost p, htotal p] at haccount
      omega
    · intro hc₁
      obtain ⟨hsame, hfrom⟩ := hleft hc₁
      rw [hsame]
      rcases hfrom with hc | ⟨o, rest, rfl, hcode⟩
      · exact hpending hc
      · exact hleaves none o rest rfl hcode

/-- Where every reference is back in the end, nothing was merged and nothing left pending on
    the way. -/
theorem Winding.unmerged (h : Winding fd c) (hclosing : Along fd Closing as c)
    (hrun : runActs (PollMgr.step fd) as c = some c') (hret : Returned c')
    (hback : ∀ p, c'.world.released p = c'.world.taken p) :
    Along fd Unmerged as c ∧ (∀ p, total c p = c.world.taken p) ∧
      (Left c → c.world.thread.pendingRemove = []) := by
  induction as generalizing c with
  | nil =>
    obtain rfl := Option.some.inj hrun
    obtain ⟨-, htotal⟩ := h.returned hret
    have hnone : ∀ p, c.world.thread.pendingRemove.count p = 0 := by
      intro p
      have haccount := h.account p
      have hbackp := hback p
      rw [htotal p] at haccount
      omega
    refine ⟨trivial, ?_, ?_⟩
    · intro p
      rw [htotal p, hnone p, hback p]
      rfl
    · intro _
      apply List.eq_nil_iff_forall_not_mem.mpr
      intro p hp
      exact absurd (hnone p) (Nat.ne_of_gt (List.count_pos_iff.mpr hp))
  | cons a as ih =>
    obtain ⟨c₁, hstep, hrest⟩ := Option.bind_eq_some_iff.mp hrun
    obtain ⟨hwinding, hleft', hleft⟩ := h.step hclosing.1 hstep
    obtain ⟨halong, htotal, hpending⟩ := ih hwinding (hclosing.2 c₁ hstep) hrest
    have hlost : ∀ p, lost c a p = 0 ∧ total c p = c.world.taken p := by
      intro p
      have haccount := step_account hstep h.leave p
      have hold := h.account p
      have hnew := htotal p
      omega
    refine ⟨⟨unmerged_iff.mpr ⟨fun p => (hlost p).1, ?_⟩, ?_⟩, fun p => (hlost p).2, ?_⟩
    · rintro t o rest rfl hcode
      cases t with
      | none =>
        have hc₁ := h.leaves hcode hstep
        rw [← (hleft hc₁).1]
        exact hpending hc₁
      | some k =>
        have hcaller := h.stage.byCaller k .releaseAll (by rw [hcode]; exact List.mem_cons_self)
        cases hcaller
    · intro c₂ hc₂
      obtain rfl := Option.some.inj (hstep.symm.trans hc₂)
      exact halong
    · intro hc
      have hc₁ := hleft' hc
      rw [← (hleft hc₁).1]
      exact hpending hc₁

/-- Every pollable has been released as often as it was added once the destructor has
    returned, exactly if no removal was merged with one that was still pending and the poll
    thread found nothing pending when it left its loop. -/
theorem released_iff (hrun : runActs (step fd) as start = some c)
    (hclosing : Along fd Closing as start) (hret : Returned c) :
    (∀ p, c.world.released p = c.world.taken p) ↔ Along fd Unmerged as start := by
  have hstart : Winding fd (start : Config _ κ) := winding_start
  apply Iff.intro
  · intro hback
    exact (hstart.unmerged hclosing hrun hret hback).1
  · intro hunmerged p
    obtain ⟨hwinding, htotal, hpending⟩ := hstart.balanced hclosing hunmerged hrun total_start
      (fun hleft => absurd hleft.1 Bool.false_ne_true)
    obtain ⟨hleft, hback⟩ := hwinding.returned hret
    rw [← htotal p, hback p, hpending hleft]
    rfl

-- ----------------------------------------------------------------------------
-- One pollable
-- ----------------------------------------------------------------------------

/-- Descriptor 7. -/
def seven : Unit → Nat := fun _ => 7

/-- A caller, or the poll thread, goes on by itself. -/
def goOn (t : Option Unit) (n : Nat) : List (Act Unit Unit) := List.replicate n (.exec t ⟨[], []⟩)

/-- A pollable is added, and the destructor removes it. -/
def addDestroy : List (Act Unit Unit) :=
  [.openFd 7, .call () (.add () Pollable.READ)] ++ goOn (some ()) 3 ++ [.destroy ()] ++
    goOn (some ()) 3

/-- The poll thread makes a turn before the destructor stops it. -/
def stopLate : List (Act Unit Unit) := addDestroy ++ goOn none 6 ++ goOn (some ()) 1 ++ goOn none 3

theorem released_iff_stopLate :
    (∀ p, (Lib.lastState (step seven) stopLate start).world.released p =
      (Lib.lastState (step seven) stopLate start).world.taken p) ↔
    Along seven Unmerged stopLate start :=
  released_iff (Lib.runActs_eq_lastState (by decide)) (by decide)
    ⟨by decide, by decide, by decide⟩

/-- The destructor stops it at once. -/
def stopEarly : List (Act Unit Unit) := addDestroy ++ goOn (some ()) 1 ++ goOn none 3

/-- The pollable that is pending then is never released. -/
theorem released_not_stopEarly : ∃ c, runActs (step seven) stopEarly start = some c ∧
    Along seven Closing stopEarly start ∧ Returned c ∧ c.world.taken () = 1 ∧
    c.world.released () = 0 :=
  ⟨_, Lib.runActs_eq_lastState (by decide), by decide, ⟨by decide, by decide, by decide⟩,
    by decide, by decide⟩

end Shutdown

end VncProxy.PollMgr
