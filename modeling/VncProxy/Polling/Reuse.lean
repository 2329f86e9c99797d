/-
  VncProxy.Polling.Reuse

  Deferred removal while descriptor numbers are used again.  A removed pollable stays in the
  kernel's table until a later pass or until its socket is closed, and until then it keeps
  its reference; so whatever `epoll_wait` reports may still be handled, and what the pass
  takes out of the table belongs to no registered pollable.
-/
import VncProxy.Polling.References

namespace VncProxy.PollMgr

open Lib (Threads Reach)
open Polling

section Reuse

variable {ι κ : Type _} (fd : ι → Nat)

/-- A number is registered when its socket was opened after the last registration; no
    `remove` of a pollable starts before its `add` has returned, nor the other way round; and
    the socket stays open while its pollable is being added. -/
def Orderly (c : Config ι κ) : Act ι κ → Prop
  | .exec t _ =>
    match c.code t with
    | .add p _ :: _ => c.world.kernel.desc (fd p) = .held
    | _ => True
  | .call _ (.add p _) => ∀ k, .remove p ∉ c.code (some k)
  | .call _ (.remove p) => ∀ k, ∀ s ∈ c.code (some k), p ∉ s.adds
  | .call _ (.updateMode _ _) | .openFd _ => True
  | .closeFd n => ∀ k, ∀ s ∈ c.code (some k), ∀ p ∈ s.adds, p ∈ c.world.thread.pollSet → fd p ≠ n
  | .destroy _ => False

instance [DecidableEq ι] [Fintype κ] (c : Config ι κ) : (a : Act ι κ) → Decidable (Orderly fd c a)
  | .exec t _ => by
    dsimp only [Orderly]
    split <;> infer_instance
  | .call _ (.add p _) => inferInstanceAs (Decidable (∀ k, .remove p ∉ c.code (some k)))
  | .call _ (.remove p) => inferInstanceAs (Decidable (∀ k, ∀ s ∈ c.code (some k), p ∉ s.adds))
  | .closeFd n => inferInstanceAs (Decidable
      (∀ k, ∀ s ∈ c.code (some k), ∀ p ∈ s.adds, p ∈ c.world.thread.pollSet → fd p ≠ n))
  | .call _ (.updateMode _ _) | .openFd _ => .isTrue trivial
  | .destroy _ => .isFalse id

/-- What is asked of the calls alone: the socket of a pollable may be closed at any time. -/
def Disciplined (c : Config ι κ) : Act ι κ → Prop
  | .exec t o => Orderly fd c (.exec t o)
  | .call k call => Orderly fd c (.call k call)
  | .openFd _ | .closeFd _ => True
  | .destroy _ => False

instance [DecidableEq ι] [Fintype κ] (c : Config ι κ) :
    (a : Act ι κ) → Decidable (Disciplined fd c a)
  | .exec t o => inferInstanceAs (Decidable (Orderly fd c (.exec t o)))
  | .call k call => inferInstanceAs (Decidable (Orderly fd c (.call k call)))
  | .openFd _ | .closeFd _ => .isTrue trivial
  | .destroy _ => .isFalse id

/-- The pollables whose handlers a section may call. -/
def Sec.targets : Sec ι → List ι
  | .stopTest evlist => evlist.map Prod.fst
  | .event p _ | .handle p _ => [p]
  | _ => []

/-- The `PollMgr` has a reference to the pollable, and no removal pass has begun with it. -/
def Live (c : Config ι κ) (p : ι) : Prop :=
  p ∈ c.world.thread.pollSet ∨ p ∈ c.world.thread.pendingRemove ∨ ∃ k, .pend p ∈ c.code (some k)

/-- The `PollMgr` has a reference to the pollable, and no removal pass has taken its entry
    out of the kernel's table. -/
def Known (c : Config ι κ) (p : ι) : Prop := Live c p ∨ .unregister p ∈ c.code none

theorem Calling.apart {is : List (Sec ι)} (h : Calling is) {p : ι} (hremove : .remove p ∈ is) :
    ∀ s ∈ is, p ∉ s.adds := by
  intro s hs
  cases h with
  | remove q =>
    rw [List.mem_singleton.mp hs]
    simp [Sec.adds]
  | idle => cases hs
  | add q m =>
    simp at hremove
  | _ => cases List.mem_singleton.mp hremove

variable [DecidableEq ι] [Fintype κ]

structure Reused (c : Config ι κ) : Prop where
  keyed : Keyed fd c.world.thread
  running : c.world.stopFlag = false
  turning : Turning false (c.code none)
  calling : ∀ k, Calling (c.code (some k))
  apart : ∀ p k k', (∃ s ∈ c.code (some k), p ∈ s.adds) → .remove p ∉ c.code (some k')
  adding : ∀ k p m, c.code (some k) = [.epollAdd p m] →
    p ∈ c.world.thread.pollSet ∧ c.world.kernel.desc (fd p) = .tied p
  table : ∀ n ev, c.world.kernel.table n = some ev →
    fd ev.ptr = n ∧ Known c ev.ptr ∧ ∃ q, c.world.kernel.desc n = .tied q
  owner : ∀ p ∈ c.world.thread.pollSet, ∀ ev, c.world.kernel.table (fd p) = some ev → ev.ptr = p
  targets : ∀ s ∈ c.code none, ∀ p ∈ s.targets, Live c p
  account : ∀ p, total c p ≤ c.world.taken p

variable {fd} {c c' : Config ι κ} {a : Act ι κ}

theorem Live.released {p : ι} (h : Live c p) (haccount : total c p ≤ c.world.taken p) :
    c.world.released p < c.world.taken p := by
  have hheld : 0 < c.world.thread.pollSet.count p + c.world.thread.pendingRemove.count p +
      c.weight (Sec.carries p) := by
    rcases h with hset | hpending | ⟨k, hk⟩
    · have hcount := List.count_pos_iff.mpr hset
      omega
    · have hcount := List.count_pos_iff.mpr hpending
      omega
    · have hweight := Threads.le_weight (f := Sec.carries p) hk
      have hone : Sec.carries p (.pend p) = 1 := if_pos rfl
      omega
  simp only [total, World.stored] at haccount
  omega

theorem reused_start : Reused fd (start : Config ι κ) := by
  refine ⟨keyed_empty, rfl, Turning.passing Passing.loopHead, fun _ => Calling.idle, ?_, ?_, ?_,
    ?_, ?_, ?_⟩
  · rintro p k k' ⟨s, hs, -⟩
    cases hs
  · intro k p m hcode
    cases hcode
  · intro n ev hev
    cases hev
  · intro p hp
    cases hp
  · intro s hs p hp
    rw [List.mem_singleton.mp hs] at hp
    cases hp
  · intro p
    rw [total_start]
    exact Nat.zero_le _

-- ----------------------------------------------------------------------------
-- The poll thread
-- ----------------------------------------------------------------------------

variable {o : Oracle ι} {w w' : World ι} {s : Sec ι} {rest pre : List (Sec ι)}

/-- The poll thread only takes entries out of the kernel's table, and only `swapPending`
    changes a container. -/
theorem exec_loop (hs : s.byLoop = true) (h : exec fd o w s = some (w', pre)) :
    (s ≠ .swapPending → w'.thread = w.thread) ∧
      ∀ n ev, w'.kernel.table n = some ev → w.kernel.table n = some ev ∧
        ∀ p, s = .unregister p → fd p = n → w.thread.mode n ≠ none := by
  cases s with
  | unregister p =>
    cases h
    refine ⟨fun _ => rfl, ?_⟩
    intro n ev hev
    by_cases hfree : w.thread.mode (fd p) = none
    · simp only [PollThread.unregister, if_pos hfree, Kernel.epollDel] at hev
      have hne : n ≠ fd p := by
        rintro rfl
        rw [Function.update_self] at hev
        cases hev
      rw [Function.update_of_ne hne] at hev
      refine ⟨hev, ?_⟩
      intro q hq hfd
      obtain rfl := Sec.unregister.inj hq
      exact absurd hfd.symm hne
    · simp only [PollThread.unregister, if_neg hfree] at hev
      refine ⟨hev, ?_⟩
      rintro q hq rfl
      obtain rfl := Sec.unregister.inj hq
      exact hfree
  | swapPending =>
    cases h
    refine ⟨fun hne => absurd rfl hne, ?_⟩
    intro n ev hev
    refine ⟨hev, ?_⟩
    intro q hq
    cases hq
  | refCopy _ _ | add _ _ | epollAdd _ _ | remove _ | pend _ | updateMode _ _ => cases hs
  | removeAll | setStop => cases hs
  | _ =>
    cases h
    refine ⟨fun _ => rfl, ?_⟩
    intro n ev hev
    refine ⟨hev, ?_⟩
    intro q hq
    cases hq

/-- A section of the poll thread handles what it has been told to, or, in `epoll_wait`, what
    is in the kernel's table. -/
theorem exec_targets (hs : s.byLoop = true) (h : exec fd o w s = some (w', pre)) {s' : Sec ι}
    (hs' : s' ∈ pre) {p : ι} (hp : p ∈ s'.targets) :
    p ∈ s.targets ∨ (s = .epollWait ∧ ∃ n ev, w.kernel.table n = some ev ∧ ev.ptr = p) := by
  cases s with
  | epollWait =>
    cases h
    right
    refine ⟨rfl, ?_⟩
    rw [List.mem_singleton.mp hs'] at hp
    obtain ⟨e, he, rfl⟩ := List.mem_map.mp hp
    obtain ⟨ev, -, hentry⟩ := List.mem_filterMap.mp he
    obtain ⟨r, hr, rfl⟩ := Option.map_eq_some_iff.mp hentry
    exact ⟨ev.fd, r, hr, rfl⟩
  | stopTest evlist =>
    cases h
    left
    split at hs'
    · rw [List.mem_singleton.mp hs'] at hp
      cases hp
    · rcases List.mem_append.mp hs' with hs' | hs'
      · obtain ⟨e, he, rfl⟩ := List.mem_map.mp hs'
        rw [List.mem_singleton.mp hp]
        exact List.mem_map_of_mem he
      · rw [List.mem_singleton.mp hs'] at hp
        cases hp
  | event q ev =>
    cases h
    left
    simp only [dispatch, List.mem_append, List.mem_ite_nil_right, List.mem_singleton] at hs'
    rcases hs' with (⟨-, rfl⟩ | ⟨-, rfl⟩) | ⟨-, rfl⟩ <;> exact hp
  | loopHead =>
    cases h
    split at hs' <;> (rw [List.mem_singleton.mp hs'] at hp; cases hp)
  | swapPending =>
    cases h
    rcases List.mem_append.mp hs' with hs' | hs'
    · obtain ⟨q, -, hq⟩ := List.mem_flatMap.mp hs'
      rcases List.mem_cons.mp hq with rfl | hq
      · cases hp
      · rw [List.mem_singleton.mp hq] at hp
        cases hp
    · rw [List.mem_singleton.mp hs'] at hp
      cases hp
  | releaseAll =>
    cases h
    rcases List.mem_append.mp hs' with hs' | hs'
    · obtain ⟨q, -, rfl⟩ := List.mem_map.mp hs'
      cases hp
    · rw [List.mem_singleton.mp hs'] at hp
      cases hp
  | handle _ _ | unregister _ | release _ | closeEpoll =>
    cases h
    cases hs'
  | _ => cases hs

theorem Reused.entries (h : Reused fd c) (n : Nat) (ev : Interest ι)
    (hev : c.world.kernel.table n = some ev) : fd ev.ptr = n ∧
      (Known c ev.ptr ∨ ev.ptr ∈ c.world.thread.pollSet) ∧
      ∃ q, c.world.kernel.desc n = .tied q := by
  obtain ⟨hfd, hknown, hdesc⟩ := h.table n ev hev
  exact ⟨hfd, Or.inl hknown, hdesc⟩

variable [DecidableEq κ]

theorem Reused.loop_step (h : Reused fd c) (hcode : c.code none = s :: rest)
    (hexec : exec fd o c.world s = some (w, pre))
    (haccount : ∀ p, total { c.load none (pre ++ rest) with world := w } p ≤ w.taken p) :
    Reused fd { c.load none (pre ++ rest) with world := w } := by
  have hturn := h.turning
  rw [hcode] at hturn
  have hs := hturn.byLoop
  obtain ⟨-, hset, hmode, hdesc, hkept⟩ := exec_byLoop hs hexec
  obtain ⟨hthread, hshrink⟩ := exec_loop hs hexec
  obtain ⟨-, hflag⟩ := exec_flags hexec
  have hstop : w.stopFlag = false := by
    rw [hflag (by rintro rfl; cases hs)]
    exact h.running
  have hself : (c.load none (pre ++ rest)).code none = pre ++ rest := Threads.load_code_self _
  have hcallers : ∀ k, (c.load none (pre ++ rest)).code (some k) = c.code (some k) :=
    fun k => Threads.load_code_of_ne _ (by simp)
  have hlive : ∀ p, s ≠ .swapPending → Live c p →
      Live { c.load none (pre ++ rest) with world := w } p := by
    intro p hne hp
    rcases hp with hp | hp | ⟨k, hk⟩
    · exact Or.inl (by rw [hset]; exact hp)
    · exact Or.inr (Or.inl (by rw [hthread hne]; exact hp))
    · exact Or.inr (Or.inr ⟨k, by rw [← hcallers k] at hk; exact hk⟩)
  have hturn' : Turning false (pre ++ rest) := by
    have hturn₀ : Turning c.world.stopFlag (s :: rest) := by rwa [h.running]
    rcases hturn₀.exec hexec with hnext | ⟨-, hstopped, -, -⟩
    · rwa [h.running] at hnext
    · rw [h.running] at hstopped
      cases hstopped
  refine ⟨exec_keyed hexec h.keyed, hstop, ?_, ?_, ?_, ?_, ?_, ?_, ?_, haccount⟩
  · show Turning false ((c.load none (pre ++ rest)).code none)
    rwa [hself]
  · intro k
    show Calling ((c.load none (pre ++ rest)).code (some k))
    rw [hcallers]
    exact h.calling k
  · intro p k k' hadds
    show .remove p ∉ (c.load none (pre ++ rest)).code (some k')
    rw [hcallers]
    apply h.apart p k k'
    rwa [← hcallers k]
  · intro k p m hk
    obtain ⟨hp, hd⟩ := h.adding k p m (by rw [← hcallers k]; exact hk)
    exact ⟨by rwa [hset], by rwa [hdesc]⟩
  · intro n ev hev
    obtain ⟨hold, hdel⟩ := hshrink n ev hev
    obtain ⟨hfd, hknown, q, hq⟩ := h.table n ev hold
    refine ⟨hfd, ?_, q, by rwa [hdesc]⟩
    rcases hknown with hl | hun
    · by_cases hswap : s = .swapPending
      · subst hswap
        rcases hl with hp | hp | ⟨k, hk⟩
        · exact Or.inl (Or.inl (by rwa [hset]))
        · -- the pass begins with what was pending
          right
          show .unregister ev.ptr ∈ (c.load none (pre ++ rest)).code none
          rw [hself]
          cases hexec
          apply List.mem_append_left
          apply List.mem_append_left
          refine List.mem_flatMap.mpr ⟨ev.ptr, ?_, List.mem_cons_self⟩
          rwa [← List.count_pos_iff, count_inOrder, List.count_pos_iff]
        · exact Or.inl (Or.inr (Or.inr ⟨k, by rw [← hcallers k] at hk; exact hk⟩))
      · exact Or.inl (hlive _ hswap hl)
    · rw [hcode] at hun
      rcases List.mem_cons.mp hun with hhead | hun
      · -- its number is in use again, so the entry is another's
        obtain ⟨q', hq', hfd'⟩ := (h.keyed.key n).mp (hdel _ hhead.symm hfd)
        have hsame : ev.ptr = q' := h.owner q' hq' ev (by rwa [hfd'])
        exact Or.inl (Or.inl (by rw [hset, hsame]; exact hq'))
      · right
        show .unregister ev.ptr ∈ (c.load none (pre ++ rest)).code none
        rw [hself]
        exact List.mem_append_right _ hun
  · intro p hp ev hev
    have hp : p ∈ c.world.thread.pollSet := by rwa [← hset]
    exact h.owner p hp ev (hshrink _ _ hev).1
  · intro s' hs' p hp
    have hs' : s' ∈ (c.load none (pre ++ rest)).code none := hs'
    rw [hself] at hs'
    rcases List.mem_append.mp hs' with hs' | hs'
    · rcases exec_targets hs hexec hs' hp with hp | ⟨rfl, n, ev, hev, rfl⟩
      · apply hlive
        · rintro rfl
          cases hp
        · exact h.targets s (by rw [hcode]; exact List.mem_cons_self) p hp
      · apply hlive _ (by simp)
        obtain ⟨-, hl | hun, -⟩ := h.table n ev hev
        · exact hl
        · have hrest : rest = [] := by
            cases hturn with
            | epollWait => rfl
            | handling h => cases h
            | passing h => cases h
          rw [hcode, hrest] at hun
          cases List.mem_singleton.mp hun
    · apply hlive
      · rintro rfl
        have hrest : rest = [] := by
          cases hturn with
          | handling h => cases h; rfl
          | passing h => cases h
        rw [hrest] at hs'
        cases hs'
      · exact h.targets s' (by rw [hcode]; exact List.mem_cons_of_mem _ hs') p hp

-- ----------------------------------------------------------------------------
-- The callers
-- ----------------------------------------------------------------------------

/-- Caller `k` has come to `is`. -/
theorem Reused.caller (h : Reused fd c) {k : κ} {is : List (Sec ι)}
    (hkeyed : Keyed fd w.thread) (hstop : w.stopFlag = false) (hcalling : Calling is)
    (hadds : ∀ p, (∃ s ∈ is, p ∈ s.adds) →
      (∃ s ∈ c.code (some k), p ∈ s.adds) ∨ ∀ k', .remove p ∉ c.code (some k'))
    (hremove : ∀ p, .remove p ∈ is → ∀ k', ∀ s ∈ c.code (some k'), p ∉ s.adds)
    (hset : ∀ p ∈ c.world.thread.pollSet, p ∈ w.thread.pollSet ∨ .pend p ∈ is)
    (hpending : ∀ p ∈ c.world.thread.pendingRemove, p ∈ w.thread.pendingRemove)
    (hpend : ∀ p, .pend p ∈ c.code (some k) → p ∈ w.thread.pendingRemove)
    (hadding : ∀ k' p m, (if k' = k then is else c.code (some k')) = [.epollAdd p m] →
      p ∈ w.thread.pollSet ∧ w.kernel.desc (fd p) = .tied p)
    (htable : ∀ n ev, w.kernel.table n = some ev → fd ev.ptr = n ∧
      (Known c ev.ptr ∨ ev.ptr ∈ w.thread.pollSet) ∧ ∃ q, w.kernel.desc n = .tied q)
    (howner : ∀ p ∈ w.thread.pollSet, ∀ ev, w.kernel.table (fd p) = some ev → ev.ptr = p)
    (haccount : ∀ p, total { c.load (some k) is with world := w } p ≤ w.taken p) :
    Reused fd { c.load (some k) is with world := w } := by
  have hnone : (c.load (some k) is).code none = c.code none := Threads.load_code_of_ne _ (by simp)
  have hcode : ∀ k', (c.load (some k) is).code (some k') =
      if k' = k then is else c.code (some k') := by
    intro k'
    by_cases hk : k' = k
    · rw [if_pos hk, hk, Threads.load_code_self]
    · rw [if_neg hk, Threads.load_code_of_ne _ (by simpa using hk)]
  have hlive : ∀ p, Live c p → Live { c.load (some k) is with world := w } p := by
    rintro p (hp | hp | ⟨k', hk'⟩)
    · rcases hset p hp with hp | hp
      · exact Or.inl hp
      · refine Or.inr (Or.inr ⟨k, ?_⟩)
        show .pend p ∈ (c.load (some k) is).code (some k)
        rwa [hcode, if_pos rfl]
    · exact Or.inr (Or.inl (hpending p hp))
    · by_cases hk : k' = k
      · exact Or.inr (Or.inl (hpend p (by rwa [← hk])))
      · refine Or.inr (Or.inr ⟨k', ?_⟩)
        show .pend p ∈ (c.load (some k) is).code (some k')
        rwa [hcode, if_neg hk]
  refine ⟨hkeyed, hstop, ?_, ?_, ?_, ?_, ?_, howner, ?_, haccount⟩
  · show Turning false ((c.load (some k) is).code none)
    rw [hnone]
    exact h.turning
  · intro k'
    show Calling ((c.load (some k) is).code (some k'))
    rw [hcode]
    split
    · exact hcalling
    · exact h.calling k'
  · rintro p k₁ k₂ ⟨s, hs, hadd⟩
    have hs : s ∈ (c.load (some k) is).code (some k₁) := hs
    show .remove p ∉ (c.load (some k) is).code (some k₂)
    rw [hcode] at hs ⊢
    intro hrem
    by_cases h₁ : k₁ = k
    · rw [if_pos h₁] at hs
      by_cases h₂ : k₂ = k
      · rw [if_pos h₂] at hrem
        exact hcalling.apart hrem s hs hadd
      · rw [if_neg h₂] at hrem
        rcases hadds p ⟨s, hs, hadd⟩ with hold | hnew
        · exact h.apart p k k₂ hold hrem
        · exact hnew k₂ hrem
    · rw [if_neg h₁] at hs
      by_cases h₂ : k₂ = k
      · rw [if_pos h₂] at hrem
        exact hremove p hrem k₁ s hs hadd
      · rw [if_neg h₂] at hrem
        exact h.apart p k₁ k₂ ⟨s, hs, hadd⟩ hrem
  · intro k' p m hk'
    exact hadding k' p m (by rw [← hcode]; exact hk')
  · intro n ev hev
    obtain ⟨hfd, hknown, hdesc⟩ := htable n ev hev
    refine ⟨hfd, ?_, hdesc⟩
    rcases hknown with (hl | hun) | hp
    · exact Or.inl (hlive _ hl)
    · right
      show .unregister ev.ptr ∈ (c.load (some k) is).code none
      rwa [hnone]
    · exact Or.inl (Or.inl hp)
  · intro s hs p hp
    have hs : s ∈ (c.load (some k) is).code none := hs
    rw [hnone] at hs
    exact hlive p (h.targets s hs p hp)

/-- An `EPOLL_CTL_ADD` that another caller has still to make is for a pollable that is
    registered under its number. -/
theorem Reused.adding_other (h : Reused fd c) {k : κ} {is : List (Sec ι)}
    (his : ∀ p m, is ≠ [.epollAdd p m]) (k' : κ) (p : ι) (m : Mode)
    (hk' : (if k' = k then is else c.code (some k')) = [.epollAdd p m]) :
    p ∈ c.world.thread.pollSet ∧ c.world.kernel.desc (fd p) = .tied p := by
  split at hk'
  · exact absurd hk' (his p m)
  · exact h.adding k' p m hk'

/-- What caller `k` has come to after a section that changes neither the containers nor the
    kernel's table, and that leaves nothing of the call. -/
theorem Reused.back (h : Reused fd c) {k : κ} (hpend : ∀ q, .pend q ∉ c.code (some k))
    (haccount : ∀ p, total (c.load (some k) []) p ≤ c.world.taken p) :
    Reused fd (c.load (some k) []) := by
  apply h.caller (w := c.world) h.keyed h.running Calling.idle ?_ ?_ (fun _ hq => Or.inl hq)
    (fun _ hq => hq) ?_ (h.adding_other (by simp)) h.entries h.owner haccount
  · rintro q ⟨s, hs, -⟩
    cases hs
  · intro q hq
    cases hq
  · intro q hq
    exact absurd hq (hpend q)

section Sections

variable {k : κ} {p : ι} {m : Mode}

theorem Reused.refCopy_step (h : Reused fd c) (hcode : c.code (some k) = [.refCopy p m])
    (hexec : exec fd o c.world (.refCopy p m) = some (w, pre))
    (haccount : ∀ p, total { c.load (some k) pre with world := w } p ≤ w.taken p) :
    Reused fd { c.load (some k) pre with world := w } := by
  cases hexec
  refine h.caller h.keyed h.running (Calling.add p m) ?_ ?_ (fun _ hp => Or.inl hp)
    (fun _ hp => hp) ?_ (h.adding_other (by simp)) h.entries h.owner haccount
  · rintro q ⟨s, hs, hq⟩
    left
    refine ⟨.refCopy p m, by rw [hcode]; exact List.mem_cons_self, ?_⟩
    have hs : s = .add p m ∨ s = .epollAdd p m := by simpa using hs
    rcases hs with rfl | rfl <;> exact hq
  · intro q hq
    simp at hq
  · intro q hq
    simp [hcode] at hq

/-- The number that is registered now had no entry. -/
theorem Reused.add_step (h : Reused fd c) (hcode : c.code (some k) = [.add p m, .epollAdd p m])
    (hheld : c.world.kernel.desc (fd p) = .held)
    (hexec : exec fd o c.world (.add p m) = some (w, pre))
    (haccount : ∀ q, total { c.load (some k) (pre ++ [.epollAdd p m]) with world := w } q ≤
      w.taken q) : Reused fd { c.load (some k) (pre ++ [.epollAdd p m]) with world := w } := by
  have hkeyed := exec_keyed hexec h.keyed
  obtain ⟨thread, hadd, rfl, rfl⟩ := exec_add hexec
  obtain ⟨-, hfree, rfl⟩ := PollThread.add_eq_some.mp hadd
  have hclear : c.world.kernel.table (fd p) = none := by
    by_contra hentry
    obtain ⟨ev, hev⟩ := Option.ne_none_iff_exists'.mp hentry
    obtain ⟨-, -, q, hq⟩ := h.table _ ev hev
    rw [hheld] at hq
    cases hq
  refine h.caller hkeyed h.running (Calling.epollAdd p m) ?_ ?_
    (fun _ hq => Or.inl (List.mem_cons_of_mem _ hq)) (fun _ hq => hq) ?_ ?_ ?_ ?_ haccount
  · rintro q ⟨s, hs, hq⟩
    exact Or.inl ⟨s, by rw [hcode]; exact List.mem_cons_of_mem _ hs, hq⟩
  · intro q hq
    cases List.mem_singleton.mp hq
  · intro q hq
    simp [hcode] at hq
  · intro k' q m' hk'
    split at hk'
    · obtain ⟨rfl, rfl⟩ := Sec.epollAdd.inj (List.cons.inj hk').1
      exact ⟨List.mem_cons_self, Function.update_self ..⟩
    · obtain ⟨hq, hdesc⟩ := h.adding k' q m' hk'
      refine ⟨List.mem_cons_of_mem _ hq, ?_⟩
      rw [← hdesc]
      exact Function.update_of_ne (h.keyed.free hfree q hq) ..
  · intro n ev hev
    have hev : c.world.kernel.table n = some ev := hev
    obtain ⟨hfd, hknown, q, hq⟩ := h.table n ev hev
    have hne : n ≠ fd p := by
      rintro rfl
      rw [hclear] at hev
      cases hev
    exact ⟨hfd, Or.inl hknown, q, by rw [← hq]; exact Function.update_of_ne hne ..⟩
  · intro q hq ev hev
    rcases List.mem_cons.mp hq with rfl | hq
    · have hev : c.world.kernel.table (fd q) = some ev := hev
      rw [hclear] at hev
      cases hev
    · exact h.owner q hq ev hev

/-- The entry is for a pollable that is still registered under its number. -/
theorem Reused.epollAdd_step (h : Reused fd c) (hcode : c.code (some k) = [.epollAdd p m])
    (hexec : exec fd o c.world (.epollAdd p m) = some (w, pre))
    (haccount : ∀ p, total { c.load (some k) pre with world := w } p ≤ w.taken p) :
    Reused fd { c.load (some k) pre with world := w } := by
  obtain ⟨kernel, hctl, rfl, rfl⟩ := exec_epollAdd hexec
  obtain ⟨hp, hdesc⟩ := h.adding k p m hcode
  obtain ⟨-, hctl⟩ := Lib.verify_bind_eq_some.mp hctl
  obtain ⟨-, hctl⟩ := Lib.verify_bind_eq_some.mp hctl
  obtain rfl := Option.some.inj hctl
  refine h.caller h.keyed h.running Calling.idle ?_ ?_ (fun _ hq => Or.inl hq)
    (fun _ hq => hq) ?_ (h.adding_other (by simp)) ?_ ?_ haccount
  · rintro q ⟨s, hs, -⟩
    cases hs
  · intro q hq
    cases hq
  · intro q hq
    simp [hcode] at hq
  · intro n ev hev
    have hev : Function.update c.world.kernel.table (fd p) _ n = some ev := hev
    by_cases hn : n = fd p
    · subst hn
      rw [Function.update_self] at hev
      obtain rfl := Option.some.inj hev
      exact ⟨rfl, Or.inr hp, p, hdesc⟩
    · rw [Function.update_of_ne hn] at hev
      exact h.entries n ev hev
  · intro q hq ev hev
    have hev : Function.update c.world.kernel.table (fd p) _ (fd q) = some ev := hev
    by_cases hfd : fd q = fd p
    · rw [hfd, Function.update_self] at hev
      rw [← Option.some.inj hev, h.keyed.inj q hq p hp hfd]
      rfl
    · rw [Function.update_of_ne hfd] at hev
      exact h.owner q hq ev hev

/-- What is taken out of `poll_set_` is about to be pending. -/
theorem Reused.remove_step (h : Reused fd c) (hcode : c.code (some k) = [.remove p])
    (hexec : exec fd o c.world (.remove p) = some (w, pre))
    (haccount : ∀ p, total { c.load (some k) pre with world := w } p ≤ w.taken p) :
    Reused fd { c.load (some k) pre with world := w } := by
  have hkeyed := exec_keyed hexec h.keyed
  have hpend : ∀ q, Sec.pend q ∉ c.code (some k) := by
    intro q hq
    simp [hcode] at hq
  rcases exec_remove hexec with ⟨hp, -, rfl, rfl⟩ | ⟨-, -, rfl, rfl⟩
  · refine h.caller hkeyed h.running (Calling.pend p) ?_ ?_ ?_ (fun _ hq => hq)
      (fun q hq => absurd hq (hpend q)) ?_ ?_ ?_ haccount
    · rintro q ⟨s, hs, hq⟩
      rw [List.mem_singleton.mp hs] at hq
      cases hq
    · intro q hq
      cases List.mem_singleton.mp hq
    · intro q hq
      by_cases hqp : q = p
      · subst hqp
        exact Or.inr List.mem_cons_self
      · exact Or.inl ((List.mem_erase_of_ne hqp).mpr hq)
    · intro k' q m' hk'
      split at hk'
      · cases hk'
      · obtain ⟨hq, hdesc⟩ := h.adding k' q m' hk'
        have hqp : q ≠ p := by
          rintro rfl
          apply h.apart q k' k ⟨.epollAdd q m', by rw [hk']; exact List.mem_cons_self, rfl⟩
          rw [hcode]
          exact List.mem_cons_self
        exact ⟨(List.mem_erase_of_ne hqp).mpr hq, hdesc⟩
    · intro n ev hev
      obtain ⟨hfd, hknown, hdesc⟩ := h.table n ev hev
      exact ⟨hfd, Or.inl hknown, hdesc⟩
    · intro q hq
      exact h.owner q (List.mem_of_mem_erase hq)
  · exact h.back hpend haccount

theorem Reused.pend_step (h : Reused fd c) (hcode : c.code (some k) = [.pend p])
    (hexec : exec fd o c.world (.pend p) = some (w, pre))
    (haccount : ∀ p, total { c.load (some k) pre with world := w } p ≤ w.taken p) :
    Reused fd { c.load (some k) pre with world := w } := by
  have hkeyed := exec_keyed hexec h.keyed
  cases hexec
  have hin : ∀ q, q ∈ c.world.thread.pendingRemove.insert p ↔
      q = p ∨ q ∈ c.world.thread.pendingRemove := fun q => List.mem_insert_iff
  refine h.caller hkeyed h.running Calling.idle ?_ ?_ (fun _ hq => Or.inl hq)
    (fun q hq => (hin q).mpr (Or.inr hq)) ?_ (h.adding_other (by simp)) h.entries h.owner haccount
  · rintro q ⟨s, hs, -⟩
    cases hs
  · intro q hq
    cases hq
  · intro q hq
    rw [hcode] at hq
    exact (hin q).mpr (Or.inl (Sec.pend.inj (List.mem_singleton.mp hq)))

/-- The entry that is changed keeps its pointer. -/
theorem Reused.updateMode_step (h : Reused fd c) (hcode : c.code (some k) = [.updateMode p m])
    (hexec : exec fd o c.world (.updateMode p m) = some (w, pre))
    (haccount : ∀ p, total { c.load (some k) pre with world := w } p ≤ w.taken p) :
    Reused fd { c.load (some k) pre with world := w } := by
  have hkeyed := exec_keyed hexec h.keyed
  have hpend : ∀ q, Sec.pend q ∉ c.code (some k) := by
    intro q hq
    simp [hcode] at hq
  obtain ⟨rfl, ⟨-, rfl⟩ | ⟨hp, old, kernel, -, hctl, rfl⟩⟩ := exec_updateMode hexec
  · exact h.back hpend haccount
  · have hkernel : kernel.desc = c.world.kernel.desc ∧ ∀ n ev, kernel.table n = some ev →
        c.world.kernel.table n = some ev ∨
        (n = fd p ∧ ev.ptr = p ∧ ∃ ev', c.world.kernel.table n = some ev') := by
      rcases hctl with ⟨-, rfl⟩ | ⟨-, hmod⟩
      · exact ⟨rfl, fun n ev hev => Or.inl hev⟩
      · obtain ⟨hentry, hret⟩ := Lib.verify_bind_eq_some.mp hmod
        obtain rfl := Option.some.inj hret
        refine ⟨rfl, ?_⟩
        intro n ev hev
        have hev : Function.update c.world.kernel.table (fd p) _ n = some ev := hev
        by_cases hn : n = fd p
        · subst hn
          rw [Function.update_self] at hev
          obtain rfl := Option.some.inj hev
          exact Or.inr ⟨rfl, rfl, Option.ne_none_iff_exists'.mp hentry⟩
        · rw [Function.update_of_ne hn] at hev
          exact Or.inl hev
    obtain ⟨hdesc, hentries⟩ := hkernel
    refine h.caller hkeyed h.running Calling.idle ?_ ?_ (fun _ hq => Or.inl hq)
      (fun _ hq => hq) (fun q hq => absurd hq (hpend q)) ?_ ?_ ?_ haccount
    · rintro q ⟨s, hs, -⟩
      cases hs
    · intro q hq
      cases hq
    · intro k' q m' hk'
      show q ∈ c.world.thread.pollSet ∧ kernel.desc (fd q) = _
      rw [hdesc]
      exact h.adding_other (by simp) k' q m' hk'
    · intro n ev hev
      show _ ∧ _ ∧ ∃ q, kernel.desc n = .tied q
      rw [hdesc]
      rcases hentries n ev hev with hold | ⟨rfl, rfl, ev', hev'⟩
      · exact h.entries n ev hold
      · exact ⟨rfl, Or.inr hp, (h.entries _ ev' hev').2.2⟩
    · intro q hq ev hev
      rcases hentries _ ev hev with hold | ⟨hfd, rfl, -⟩
      · exact h.owner q hq ev hold
      · exact (h.keyed.inj q hq _ hp hfd).symm

end Sections

theorem Reused.call_step (h : Reused fd c) {k : κ} (hcode : c.code (some k) = s :: rest)
    (horderly : Orderly fd c (.exec (some k) o)) (hexec : exec fd o c.world s = some (w, pre))
    (haccount : ∀ p, total { c.load (some k) (pre ++ rest) with world := w } p ≤ w.taken p) :
    Reused fd { c.load (some k) (pre ++ rest) with world := w } := by
  have hcalling := h.calling k
  rw [hcode] at hcalling
  cases hcalling with
  | add p m =>
    simp only [Orderly, hcode] at horderly
    exact h.add_step hcode horderly hexec haccount
  | refCopy p m =>
    rw [List.append_nil] at haccount ⊢
    exact h.refCopy_step hcode hexec haccount
  | epollAdd p m =>
    rw [List.append_nil] at haccount ⊢
    exact h.epollAdd_step hcode hexec haccount
  | remove p =>
    rw [List.append_nil] at haccount ⊢
    exact h.remove_step hcode hexec haccount
  | pend p =>
    rw [List.append_nil] at haccount ⊢
    exact h.pend_step hcode hexec haccount
  | updateMode p m =>
    rw [List.append_nil] at haccount ⊢
    exact h.updateMode_step hcode hexec haccount

theorem Reused.next (h : Reused fd c) (horderly : Orderly fd c a) (hstep : step fd a c = some c') :
    Reused fd c' := by
  have hleave : ∀ t rest, c.code t = .releaseAll :: rest → c.world.thread.pollSet = [] := by
    intro t rest hcode
    exfalso
    cases t with
    | none =>
      have hturn := h.turning
      rw [hcode] at hturn
      cases hturn with
      | handling h => cases h
      | passing h => cases h
      | releaseAll h => cases h
    | some k =>
      have hcalling := h.calling k
      rw [hcode] at hcalling
      cases hcalling
  have haccount : ∀ p, total c' p ≤ c'.world.taken p := by
    intro p
    have hold := h.account p
    have hnew := step_account hstep hleave p
    omega
  cases a with
  | exec t o =>
    obtain ⟨s, rest, -, hcode, ⟨-, rfl⟩ | ⟨w, pre, hexec, rfl⟩⟩ := Threads.run_cases hstep
    · exact ⟨h.keyed, h.running, h.turning, h.calling, h.apart, h.adding, h.table, h.owner,
        h.targets, haccount⟩
    · cases t with
      | none => exact h.loop_step hcode hexec haccount
      | some k => exact h.call_step hcode horderly hexec haccount
  | call k call =>
    obtain ⟨-, hidle, rfl⟩ := step_call hstep
    have hadds : ∀ p, (∃ s ∈ call.sections, p ∈ s.adds) → ∀ k', .remove p ∉ c.code (some k') := by
      rintro p ⟨s, hs, hp⟩
      cases call with
      | add q m =>
        rw [List.mem_singleton.mp hs] at hp
        obtain rfl := Option.some.inj hp
        exact horderly
      | remove q =>
        rw [List.mem_singleton.mp hs] at hp
        cases hp
      | updateMode q m =>
        rw [List.mem_singleton.mp hs] at hp
        cases hp
    have hremove : ∀ p, .remove p ∈ call.sections → ∀ k', ∀ s ∈ c.code (some k'), p ∉ s.adds := by
      intro p hp
      cases call with
      | remove q =>
        obtain rfl := Sec.remove.inj (List.mem_singleton.mp hp)
        exact horderly
      | add q m => cases List.mem_singleton.mp hp
      | updateMode q m => cases List.mem_singleton.mp hp
    refine h.caller (w := c.world) h.keyed h.running (calling_sections call)
      (fun p hp => Or.inr (hadds p hp)) hremove (fun _ hp => Or.inl hp) (fun _ hp => hp) ?_ ?_ ?_
      h.owner haccount
    · intro p hp
      rw [hidle] at hp
      cases hp
    · intro k' p m hk'
      split at hk'
      · cases call <;> cases hk'
      · exact h.adding k' p m hk'
    · intro n ev hev
      obtain ⟨hfd, hknown, hdesc⟩ := h.table n ev hev
      exact ⟨hfd, Or.inl hknown, hdesc⟩
  | openFd n =>
    obtain ⟨-, hclosed, rfl⟩ := step_openFd hstep
    refine ⟨h.keyed, h.running, h.turning, h.calling, h.apart, ?_, ?_, h.owner, h.targets,
      haccount⟩
    · intro k p m hcode
      obtain ⟨hp, hdesc⟩ := h.adding k p m hcode
      have hne : fd p ≠ n := by
        rintro rfl
        rw [hdesc] at hclosed
        cases hclosed
      exact ⟨hp, by rw [← hdesc]; exact Function.update_of_ne hne ..⟩
    · intro n' ev hev
      obtain ⟨hfd, hknown, q, hq⟩ := h.table n' ev hev
      have hne : n' ≠ n := by
        rintro rfl
        rw [hq] at hclosed
        cases hclosed
      exact ⟨hfd, hknown, q, by rw [← hq]; exact Function.update_of_ne hne ..⟩
  | closeFd n =>
    obtain ⟨-, rfl⟩ := step_closeFd hstep
    have hentry : ∀ n' ev, (c.world.kernel.close n).table n' = some ev →
        n' ≠ n ∧ c.world.kernel.table n' = some ev := by
      intro n' ev hev
      have hev : Function.update c.world.kernel.table n none n' = some ev := hev
      by_cases hn : n' = n
      · rw [hn, Function.update_self] at hev
        cases hev
      · rw [Function.update_of_ne hn] at hev
        exact ⟨hn, hev⟩
    refine ⟨h.keyed, h.running, h.turning, h.calling, h.apart, ?_, ?_, ?_, h.targets, haccount⟩
    · intro k p m hcode
      have hcode : c.code (some k) = [.epollAdd p m] := hcode
      obtain ⟨hp, hdesc⟩ := h.adding k p m hcode
      have hne : fd p ≠ n :=
        horderly k (.epollAdd p m) (by rw [hcode]; exact List.mem_cons_self) p rfl hp
      exact ⟨hp, by rw [← hdesc]; exact Function.update_of_ne hne ..⟩
    · intro n' ev hev
      obtain ⟨hne, hold⟩ := hentry n' ev hev
      obtain ⟨hfd, hknown, q, hq⟩ := h.table n' ev hold
      exact ⟨hfd, hknown, q, by rw [← hq]; exact Function.update_of_ne hne ..⟩
    · intro p hp ev hev
      exact h.owner p hp ev (hentry _ ev hev).2
  | destroy k => exact horderly.elim

/-- Descriptor 5 has been taken over by a second pollable, for which there is input, while the
    first is still pending. -/
def takenOverTurn : List (Act (Fin 2) Unit) :=
  takenOver ++ [.exec none ⟨[], []⟩, .exec none ⟨[⟨5, true, false, false⟩], []⟩,
    .exec none ⟨[], []⟩]

/-- The state after that. -/
def inTurn : Config (Fin 2) Unit := afterMoves sameNumber (Orderly sameNumber) takenOverTurn

/-- Descriptor 5 is closed and opened again after `add` of the first pollable has put it into
    `mode_` and before its `EPOLL_CTL_ADD`; then the first is removed and the second added. -/
def closedEarly : List (Act (Fin 2) Unit) :=
  [.openFd 5, .call () (.add older Pollable.READ)] ++ turns 2 ++ [.closeFd 5, .openFd 5] ++
    turns 1 ++ [.call () (.remove older)] ++ turns 2 ++ [.call () (.add newer Pollable.READ)] ++
    turns 2

/-- The poll thread makes a removal pass, and there is input on descriptor 5. -/
def passThenInput : List (Act (Fin 2) Unit) :=
  List.replicate 7 (.exec none ⟨[], []⟩) ++ [.exec none ⟨[⟨5, true, false, false⟩], []⟩] ++
    List.replicate 2 (.exec none ⟨[], []⟩)

/-- The state after that. -/
def inHandler : Config (Fin 2) Unit :=
  afterMoves sameNumber (Disciplined sameNumber) (closedEarly ++ passThenInput)

end Reuse

end VncProxy.PollMgr
