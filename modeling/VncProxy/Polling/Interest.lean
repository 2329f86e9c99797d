/-
  VncProxy.Polling.Interest

  What the kernel watches a registered pollable for.  One caller at a time makes its calls,
  and the poll thread moves between any two sections.  `update_mode` keeps the entry of the
  kernel in step with `mode_`; `add` does so if the pollable wants to read, since it asks
  for `EPOLLIN` in any case, and if the last removal pass has come round to the number.
-/
import VncProxy.Polling.Sides

namespace VncProxy.PollMgr

open Lib (Threads Reach)
open Polling

-- ============================================================================
-- One call at a time
-- ============================================================================

section Sequence

variable {ι κ : Type _} (fd : ι → Nat)

/-- A call starts when the one before has returned; an added pollable has an open
    descriptor, which stays open until it is removed; and the `PollThread` lives on. -/
def Sequential (c : Config ι κ) : Act ι κ → Prop
  | .exec .. | .openFd _ => True
  | .call _ (.add p _) => (∀ k, Idle c k) ∧ c.world.kernel.desc (fd p) ≠ .closed
  | .call _ _ => ∀ k, Idle c k
  | .closeFd n => c.world.thread.mode n = none ∧
    ∀ k, ∀ s ∈ c.code (some k), ∀ p ∈ s.adds, fd p ≠ n
  | .destroy _ => False

instance [DecidableEq ι] [Fintype κ] (c : Config ι κ) (a : Act ι κ) :
    Decidable (Sequential fd c a) := by
  unfold Sequential
  split <;> infer_instance

/-- Every registered pollable is watched for what its mode says, or its `add` is about to
    see to that. -/
structure Followed (c : Config ι κ) : Prop where
  keyed : Keyed fd c.world.thread
  calling : ∀ k, Calling (c.code (some k))
  looping : ∀ s ∈ c.code none, s.byLoop = true
  single : ∀ k k', ¬ Idle c k → ¬ Idle c k' → k = k'
  entry : ∀ p ∈ c.world.thread.pollSet, ∃ m, c.world.thread.mode (fd p) = some m ∧
    (c.world.kernel.table (fd p) = some (PollThread.modEvent p m) ∨
      ∃ k, c.code (some k) = [.epollAdd p m])
  adding : ∀ k p m, c.code (some k) = [.epollAdd p m] → p ∈ c.world.thread.pollSet ∧
    c.world.thread.mode (fd p) = some m ∧ m.has Pollable.READ = true ∧
    c.world.kernel.table (fd p) = none
  opened : ∀ p, (p ∈ c.world.thread.pollSet ∨ ∃ k, ∃ s ∈ c.code (some k), p ∈ s.adds) →
    c.world.kernel.desc (fd p) ≠ .closed
  sound : ∀ p m, c.crashed ≠ some (.epollAdd p m) ∧ c.crashed ≠ some (.updateMode p m)

variable {fd} {c c' : Config ι κ} {a : Act ι κ}

theorem followed_start : Followed fd (start : Config ι κ) := by
  refine ⟨keyed_empty, ?_, ?_, ?_, ?_, ?_, ?_, ?_⟩
  · intro k
    exact Calling.idle
  · intro s hs
    rw [List.mem_singleton.mp hs]
    rfl
  · intro k k' hk
    exact absurd rfl hk
  · intro p hp
    cases hp
  · intro k p m hcode
    cases hcode
  · rintro p (hp | ⟨k, s, hs, -⟩)
    · cases hp
    · cases hs
  · intro p m
    exact ⟨by simp [start], by simp [start]⟩

/-- While caller `k` is busy with anything but the system call of `add`, every registered
    pollable has its entry. -/
theorem Followed.watched (h : Followed fd c) {k : κ} {s : Sec ι} {rest : List (Sec ι)}
    (hcode : c.code (some k) = s :: rest) (hs : ∀ p m, s ≠ .epollAdd p m) {p : ι}
    (hp : p ∈ c.world.thread.pollSet) : ∃ m, c.world.thread.mode (fd p) = some m ∧
      c.world.kernel.table (fd p) = some (PollThread.modEvent p m) := by
  obtain ⟨m, hm, hwatched | ⟨k', hk'⟩⟩ := h.entry p hp
  · exact ⟨m, hm, hwatched⟩
  · have hsame : k = k' := by
      apply h.single
      · rw [Idle, hcode]
        exact List.cons_ne_nil _ _
      · rw [Idle, hk']
        exact List.cons_ne_nil _ _
    subst hsame
    rw [hcode] at hk'
    exact absurd (List.cons.inj hk').1 (hs p m)

/-- The system calls of `epoll_ctl` succeed. -/
theorem Followed.ctl_ok [DecidableEq ι] (h : Followed fd c) {k : κ} {s : Sec ι}
    {rest : List (Sec ι)} {o : Oracle ι} (hcode : c.code (some k) = s :: rest)
    (hfail : exec fd o c.world s = none) (p : ι) (m : Mode) :
    s ≠ .epollAdd p m ∧ s ≠ .updateMode p m := by
  have hcalling := h.calling k
  rw [hcode] at hcalling
  refine ⟨?_, ?_⟩
  · rintro rfl
    have hrest : rest = [] := by
      cases hcalling
      rfl
    subst hrest
    obtain ⟨hp, -, -, hnone⟩ := h.adding k p m hcode
    have hopen := h.opened p (Or.inl hp)
    have hsome : exec fd o c.world (.epollAdd p m) ≠ none := by
      simp [exec, Kernel.epollAdd, Lib.verify_bind hopen, Lib.verify_bind hnone]
    exact hsome hfail
  · rintro rfl
    have hsome : exec fd o c.world (.updateMode p m) ≠ none := by
      by_cases hp : p ∈ c.world.thread.pollSet
      · obtain ⟨m', hm', hwatched⟩ := h.watched hcode (by simp) hp
        have hentry : c.world.kernel.table (fd p) ≠ none := by
          rw [hwatched]
          exact Option.some_ne_none _
        by_cases hsame : m = m'
        · simp [exec, PollThread.updateMode, hp, hm', hsame]
        · simp [exec, PollThread.updateMode, Kernel.epollMod, hp, hm', hsame,
            Lib.verify_bind hentry]
      · simp [exec, PollThread.updateMode_stale hp]
    exact hsome hfail

/-- While caller `k` is busy, no other is. -/
theorem Followed.others_idle (h : Followed fd c) (hcode : c.code (some k) = s :: rest) (k' : κ)
    (hne : k' ≠ k) : Idle c k' := by
  by_contra hbusy
  apply hne
  apply h.single k' k hbusy
  rw [Idle, hcode]
  exact List.cons_ne_nil _ _

variable [DecidableEq κ]

/-- The only call in progress is that of caller `k`, which has come to `is`. -/
theorem Followed.active (h : Followed fd c) {k : κ} {is : List (Sec ι)} {w : World ι}
    (hidle : ∀ k', k' ≠ k → Idle c k') (hkeyed : Keyed fd w.thread) (hcalling : Calling is)
    (hentry : ∀ p ∈ w.thread.pollSet, ∃ m, w.thread.mode (fd p) = some m ∧
      (w.kernel.table (fd p) = some (PollThread.modEvent p m) ∨ is = [.epollAdd p m]))
    (hadding : ∀ p m, is = [.epollAdd p m] → p ∈ w.thread.pollSet ∧
      w.thread.mode (fd p) = some m ∧ m.has Pollable.READ = true ∧
      w.kernel.table (fd p) = none)
    (hopened : ∀ p, (p ∈ w.thread.pollSet ∨ ∃ s ∈ is, p ∈ s.adds) →
      w.kernel.desc (fd p) ≠ .closed) :
    Followed fd { c.load (some k) is with world := w } := by
  have hself : (c.load (some k) is).code (some k) = is := Threads.load_code_self _
  have hother : ∀ k', k' ≠ k → (c.load (some k) is).code (some k') = [] := by
    intro k' hk'
    rw [Threads.load_code_of_ne _ (by simpa using hk')]
    exact hidle k' hk'
  have honly : ∀ k', ∀ is', (c.load (some k) is).code (some k') = is' → is' ≠ [] →
      k' = k ∧ is = is' := by
    intro k' is' hcode hne
    by_cases hk : k' = k
    · subst hk
      exact ⟨rfl, by rw [← hcode, hself]⟩
    · exact absurd (by rw [← hcode, hother k' hk]) hne
  refine ⟨hkeyed, ?_, ?_, ?_, ?_, ?_, ?_, h.sound⟩
  · intro k'
    show Calling ((c.load (some k) is).code (some k'))
    by_cases hk : k' = k
    · rw [hk, hself]
      exact hcalling
    · rw [hother k' hk]
      exact Calling.idle
  · intro s hs
    have hs : s ∈ (c.load (some k) is).code none := hs
    rw [Threads.load_code_of_ne _ (by simp)] at hs
    exact h.looping s hs
  · intro k₁ k₂ hk₁ hk₂
    rw [(honly k₁ _ rfl hk₁).1, (honly k₂ _ rfl hk₂).1]
  · intro p hp
    obtain ⟨m, hm, hwatched | his⟩ := hentry p hp
    · exact ⟨m, hm, Or.inl hwatched⟩
    · exact ⟨m, hm, Or.inr ⟨k, by rw [← his]; exact hself⟩⟩
  · intro k' p m hcode
    exact hadding p m (honly k' _ hcode (by simp)).2
  · rintro p (hp | ⟨k', s, hs, hadds⟩)
    · exact hopened p (Or.inl hp)
    · have hs : s ∈ (c.load (some k) is).code (some k') := hs
      rw [← (honly k' _ rfl (List.ne_nil_of_mem hs)).2] at hs
      exact hopened p (Or.inr ⟨s, hs, hadds⟩)

/-- What caller `k` has come to after a section that changes neither the containers nor the
    kernel's table, and that leaves nothing of the call. -/
theorem Followed.back (h : Followed fd c) (hcode : c.code (some k) = s :: rest)
    (hs : ∀ q m, s ≠ .epollAdd q m) : Followed fd (c.load (some k) []) := by
  apply h.active (w := c.world) (h.others_idle hcode) h.keyed Calling.idle
  · intro q hq
    obtain ⟨m', hm', hwatched⟩ := h.watched hcode hs hq
    exact ⟨m', hm', Or.inl hwatched⟩
  · intro q m' his
    cases his
  · rintro q (hq | ⟨s', hs', -⟩)
    · exact h.opened q (Or.inl hq)
    · cases hs'

variable (fd) [DecidableEq ι]

/-- A pollable that is registered wants to read, and the kernel has no entry for its
    descriptor. -/
def Prompt (c : Config ι κ) : Act ι κ → Prop
  | .exec t _ =>
    match c.code t with
    | .add p m :: _ => (c.world.thread.add p (fd p) m).isSome →
      m.has Pollable.READ = true ∧ c.world.kernel.table (fd p) = none
    | _ => True
  | _ => True

instance (c : Config ι κ) (a : Act ι κ) : Decidable (Prompt fd c a) := by
  unfold Prompt
  split
  · split <;> infer_instance
  · infer_instance

variable {fd}

/-- A section of the poll thread. -/
theorem Followed.loop_step (h : Followed fd c) {s : Sec ι} {rest pre : List (Sec ι)} {w : World ι}
    {o : Oracle ι} (hcode : c.code none = s :: rest)
    (hexec : exec fd o c.world s = some (w, pre)) :
    Followed fd { c.load none (pre ++ rest) with world := w } := by
  have hs : s.byLoop = true := h.looping s (by rw [hcode]; exact List.mem_cons_self)
  obtain ⟨hpre, hset, hmode, hdesc, htable⟩ := exec_byLoop hs hexec
  have hcallers : ∀ k, (c.load none (pre ++ rest)).code (some k) = c.code (some k) :=
    fun k => Threads.load_code_of_ne _ (by simp)
  have hkept : ∀ p ∈ c.world.thread.pollSet,
      w.kernel.table (fd p) = c.world.kernel.table (fd p) :=
    fun p hp => htable _ (h.keyed.mode_ne_none hp)
  refine ⟨exec_keyed hexec h.keyed, ?_, ?_, ?_, ?_, ?_, ?_, h.sound⟩
  · intro k
    show Calling ((c.load none (pre ++ rest)).code (some k))
    rw [hcallers]
    exact h.calling k
  · intro s' hs'
    have hs' : s' ∈ (c.load none (pre ++ rest)).code none := hs'
    rw [Threads.load_code_self] at hs'
    rcases List.mem_append.mp hs' with hs' | hs'
    · exact hpre s' hs'
    · exact h.looping s' (by rw [hcode]; exact List.mem_cons_of_mem _ hs')
  · intro k k' hk hk'
    apply h.single k k'
    · rwa [Idle, ← hcallers k]
    · rwa [Idle, ← hcallers k']
  · intro p hp
    have hp : p ∈ c.world.thread.pollSet := by rwa [← hset]
    obtain ⟨m, hm, hentry⟩ := h.entry p hp
    refine ⟨m, by rw [← hm, ← hmode], ?_⟩
    rcases hentry with hentry | ⟨k, hk⟩
    · exact Or.inl (by rw [← hentry, ← hkept p hp])
    · exact Or.inr ⟨k, by rw [← hk]; exact hcallers k⟩
  · intro k p m hk
    obtain ⟨hp, hm, hread, hnone⟩ := h.adding k p m (by rw [← hcallers k]; exact hk)
    exact ⟨by rwa [hset], by rw [← hm, ← hmode], hread, by rw [hkept p hp]; exact hnone⟩
  · intro p hp
    have hp : p ∈ c.world.thread.pollSet ∨ ∃ k, ∃ s ∈ c.code (some k), p ∈ s.adds := by
      rcases hp with hp | ⟨k, s', hs', hadds⟩
      · exact Or.inl (by rwa [← hset])
      · exact Or.inr ⟨k, s', by rwa [← hcallers k], hadds⟩
    show w.kernel.desc (fd p) ≠ .closed
    rw [hdesc]
    exact h.opened p hp

section Sections

variable {k : κ} {p : ι} {m : Mode} {s : Sec ι} {rest pre : List (Sec ι)} {w : World ι}
  {o : Oracle ι}

theorem Followed.refCopy_step (h : Followed fd c) (hcode : c.code (some k) = [.refCopy p m])
    (hexec : exec fd o c.world (.refCopy p m) = some (w, pre)) :
    Followed fd { c.load (some k) pre with world := w } := by
  cases hexec
  refine h.active (h.others_idle hcode) h.keyed (Calling.add p m) ?_ ?_ ?_
  · intro q hq
    obtain ⟨m', hm', hwatched⟩ := h.watched hcode (by simp) hq
    exact ⟨m', hm', Or.inl hwatched⟩
  · intro q m' his
    cases his
  · rintro q (hq | ⟨s', hs', hq⟩)
    · exact h.opened q (Or.inl hq)
    · apply h.opened q
      refine Or.inr ⟨k, .refCopy p m, by rw [hcode]; exact List.mem_cons_self, ?_⟩
      have hs' : s' = .add p m ∨ s' = .epollAdd p m := by simpa using hs'
      rcases hs' with rfl | rfl <;> exact hq

/-- The pollable is registered now, and its entry is what comes next. -/
theorem Followed.add_step (h : Followed fd c) (hcode : c.code (some k) = [.add p m, .epollAdd p m])
    (hprompt : Prompt fd c (.exec (some k) o))
    (hexec : exec fd o c.world (.add p m) = some (w, pre)) :
    Followed fd { c.load (some k) (pre ++ [.epollAdd p m]) with world := w } := by
  have hkeyed := exec_keyed hexec h.keyed
  obtain ⟨thread, hadd, rfl, rfl⟩ := exec_add hexec
  simp only [Prompt, hcode] at hprompt
  obtain ⟨hread, hnone⟩ := hprompt (by rw [hadd]; rfl)
  obtain ⟨hnot, hfree, rfl⟩ := PollThread.add_eq_some.mp hadd
  refine h.active (h.others_idle hcode) hkeyed (Calling.epollAdd p m) ?_ ?_ ?_
  · intro q hq
    rcases List.mem_cons.mp hq with rfl | hq
    · exact ⟨m, Function.update_self .., Or.inr rfl⟩
    · obtain ⟨m', hm', hwatched⟩ := h.watched hcode (by simp) hq
      refine ⟨m', ?_, Or.inl hwatched⟩
      simp only [Function.update_of_ne (h.keyed.free hfree q hq), hm']
  · intro q m' his
    obtain ⟨rfl, rfl⟩ := Sec.epollAdd.inj (List.cons.inj his).1
    exact ⟨List.mem_cons_self, Function.update_self .., hread, hnone⟩
  · intro q hq
    show Function.update _ _ _ (fd q) ≠ _
    by_cases hfd : fd q = fd p
    · rw [hfd, Function.update_self]
      simp
    · rw [Function.update_of_ne hfd]
      rcases hq with hq | ⟨s', hs', hq⟩
      · rcases List.mem_cons.mp hq with rfl | hq
        · exact absurd rfl hfd
        · exact h.opened q (Or.inl hq)
      · apply h.opened q
        exact Or.inr ⟨k, s', by rw [hcode]; exact List.mem_cons_of_mem _ hs', hq⟩

/-- The entry has `EPOLLIN` whatever the mode says, which is right for a mode that reads. -/
theorem Followed.epollAdd_step (h : Followed fd c) (hcode : c.code (some k) = [.epollAdd p m])
    (hexec : exec fd o c.world (.epollAdd p m) = some (w, pre)) :
    Followed fd { c.load (some k) pre with world := w } := by
  obtain ⟨kernel, hctl, rfl, rfl⟩ := exec_epollAdd hexec
  obtain ⟨hp, hm, hread, -⟩ := h.adding k p m hcode
  obtain ⟨-, hctl⟩ := Lib.verify_bind_eq_some.mp hctl
  obtain ⟨-, hctl⟩ := Lib.verify_bind_eq_some.mp hctl
  obtain rfl := Option.some.inj hctl
  refine h.active (h.others_idle hcode) h.keyed Calling.idle ?_ ?_ ?_
  · intro q hq
    obtain ⟨m', hm', hentry⟩ := h.entry q hq
    refine ⟨m', hm', Or.inl ?_⟩
    show Function.update _ _ _ (fd q) = _
    by_cases hqp : q = p
    · subst hqp
      obtain rfl := Option.some.inj (hm'.symm.trans hm)
      rw [Function.update_self, PollThread.addEvent, PollThread.modEvent, hread]
    · have hfd : fd q ≠ fd p := fun heq => hqp (h.keyed.inj q hq p hp heq)
      rw [Function.update_of_ne hfd]
      rcases hentry with hwatched | ⟨k', hk'⟩
      · exact hwatched
      · have hsame : k' = k := by
          by_contra hne
          have hnil := h.others_idle hcode k' hne
          rw [Idle, hk'] at hnil
          cases hnil
        rw [hsame, hcode] at hk'
        exact absurd (Sec.epollAdd.inj (List.cons.inj hk').1).1.symm hqp
  · intro q m' his
    cases his
  · rintro q (hq | ⟨s', hs', -⟩)
    · exact h.opened q (Or.inl hq)
    · cases hs'

theorem Followed.remove_step (h : Followed fd c) (hcode : c.code (some k) = [.remove p])
    (hexec : exec fd o c.world (.remove p) = some (w, pre)) :
    Followed fd { c.load (some k) pre with world := w } := by
  have hkeyed := exec_keyed hexec h.keyed
  rcases exec_remove hexec with ⟨hp, -, rfl, rfl⟩ | ⟨-, -, rfl, rfl⟩
  · refine h.active (h.others_idle hcode) hkeyed (Calling.pend p) ?_ ?_ ?_
    · intro q hq
      obtain ⟨hqp, hq⟩ := h.keyed.nodup.mem_erase_iff.mp hq
      obtain ⟨m', hm', hwatched⟩ := h.watched hcode (by simp) hq
      refine ⟨m', ?_, Or.inl hwatched⟩
      have hfd : fd q ≠ fd p := fun heq => hqp (h.keyed.inj q hq p hp heq)
      simp only [Function.update_of_ne hfd, hm']
    · intro q m' his
      cases his
    · rintro q (hq | ⟨s', hs', hq⟩)
      · exact h.opened q (Or.inl (List.mem_of_mem_erase hq))
      · rw [List.mem_singleton.mp hs'] at hq
        cases hq
  · exact h.back hcode (by simp)

theorem Followed.pend_step (h : Followed fd c) (hcode : c.code (some k) = [.pend p])
    (hexec : exec fd o c.world (.pend p) = some (w, pre)) :
    Followed fd { c.load (some k) pre with world := w } := by
  have hkeyed := exec_keyed hexec h.keyed
  cases hexec
  refine h.active (h.others_idle hcode) hkeyed Calling.idle ?_ ?_ ?_
  · intro q hq
    obtain ⟨m', hm', hwatched⟩ := h.watched hcode (by simp) hq
    exact ⟨m', hm', Or.inl hwatched⟩
  · intro q m' his
    cases his
  · rintro q (hq | ⟨s', hs', -⟩)
    · exact h.opened q (Or.inl hq)
    · cases hs'

/-- The entry is changed along with the mode. -/
theorem Followed.updateMode_step (h : Followed fd c) (hcode : c.code (some k) = [.updateMode p m])
    (hexec : exec fd o c.world (.updateMode p m) = some (w, pre)) :
    Followed fd { c.load (some k) pre with world := w } := by
  have hkeyed := exec_keyed hexec h.keyed
  obtain ⟨rfl, ⟨-, rfl⟩ | ⟨hp, old, kernel, hold, hctl, rfl⟩⟩ := exec_updateMode hexec
  · exact h.back hcode (by simp)
  · have hdesc : kernel.desc = c.world.kernel.desc := by
      rcases hctl with ⟨-, rfl⟩ | ⟨-, hmod⟩
      · rfl
      · obtain ⟨-, hret⟩ := Lib.verify_bind_eq_some.mp hmod
        rw [← Option.some.inj hret]
    refine h.active (h.others_idle hcode) hkeyed Calling.idle ?_ ?_ ?_
    · intro q hq
      obtain ⟨m', hm', hwatched⟩ := h.watched hcode (by simp) hq
      by_cases hqp : q = p
      · subst hqp
        refine ⟨m, Function.update_self .., Or.inl ?_⟩
        rcases hctl with ⟨hsame, rfl⟩ | ⟨-, hmod⟩
        · rw [hsame, ← Option.some.inj (hm'.symm.trans hold)]
          exact hwatched
        · obtain ⟨-, hret⟩ := Lib.verify_bind_eq_some.mp hmod
          rw [← Option.some.inj hret]
          exact Function.update_self ..
      · have hfd : fd q ≠ fd p := fun heq => hqp (h.keyed.inj q hq p hp heq)
        refine ⟨m', by simp only [Function.update_of_ne hfd, hm'], Or.inl ?_⟩
        rcases hctl with ⟨-, rfl⟩ | ⟨-, hmod⟩
        · exact hwatched
        · obtain ⟨-, hret⟩ := Lib.verify_bind_eq_some.mp hmod
          rw [← Option.some.inj hret, ← hwatched]
          exact Function.update_of_ne hfd ..
    · intro q m' his
      cases his
    · rintro q (hq | ⟨s', hs', -⟩)
      · show kernel.desc (fd q) ≠ _
        rw [hdesc]
        exact h.opened q (Or.inl hq)
      · cases hs'

/-- A section of the call in progress. -/
theorem Followed.call_step (h : Followed fd c) (hcode : c.code (some k) = s :: rest)
    (hprompt : Prompt fd c (.exec (some k) o)) (hexec : exec fd o c.world s = some (w, pre)) :
    Followed fd { c.load (some k) (pre ++ rest) with world := w } := by
  have hcalling := h.calling k
  rw [hcode] at hcalling
  cases hcalling with
  | add p m => exact h.add_step hcode hprompt hexec
  | refCopy p m =>
    rw [List.append_nil]
    exact h.refCopy_step hcode hexec
  | epollAdd p m =>
    rw [List.append_nil]
    exact h.epollAdd_step hcode hexec
  | remove p =>
    rw [List.append_nil]
    exact h.remove_step hcode hexec
  | pend p =>
    rw [List.append_nil]
    exact h.pend_step hcode hexec
  | updateMode p m =>
    rw [List.append_nil]
    exact h.updateMode_step hcode hexec

end Sections

theorem Followed.step (h : Followed fd c) (hseq : Sequential fd c a) (hprompt : Prompt fd c a)
    (hstep : step fd a c = some c') : Followed fd c' := by
  cases a with
  | exec t o =>
    obtain ⟨s, rest, -, hcode, ⟨hfail, rfl⟩ | ⟨w, pre, hexec, rfl⟩⟩ := Threads.run_cases hstep
    · refine ⟨h.keyed, h.calling, h.looping, h.single, h.entry, h.adding, h.opened, ?_⟩
      intro p m
      have hne : s ≠ .epollAdd p m ∧ s ≠ .updateMode p m := by
        cases t with
        | none =>
          have hs : s.byLoop = true := h.looping s (by rw [hcode]; exact List.mem_cons_self)
          refine ⟨?_, ?_⟩ <;> (rintro rfl; cases hs)
        | some k => exact h.ctl_ok hcode hfail p m
      exact ⟨fun heq => hne.1 (Option.some.inj heq), fun heq => hne.2 (Option.some.inj heq)⟩
    · cases t with
      | none => exact h.loop_step hcode hexec
      | some k => exact h.call_step hcode hprompt hexec
  | call k call =>
    obtain ⟨-, -, rfl⟩ := step_call hstep
    have hidle : ∀ k, Idle c k := by
      cases call with
      | add p m => exact hseq.1
      | remove p => exact hseq
      | updateMode p m => exact hseq
    refine h.active (w := c.world) (fun k' _ => hidle k') h.keyed (calling_sections call) ?_ ?_ ?_
    · intro p hp
      obtain ⟨m, hm, hwatched | ⟨k', hk'⟩⟩ := h.entry p hp
      · exact ⟨m, hm, Or.inl hwatched⟩
      · have hnil := hidle k'
        rw [Idle, hk'] at hnil
        cases hnil
    · intro p m his
      cases call <;> cases his
    · rintro p (hp | ⟨s, hs, hadds⟩)
      · exact h.opened p (Or.inl hp)
      · cases call with
        | add q m =>
          rw [List.mem_singleton.mp hs] at hadds
          rw [← Option.some.inj hadds]
          exact hseq.2
        | remove q =>
          rw [List.mem_singleton.mp hs] at hadds
          cases hadds
        | updateMode q m =>
          rw [List.mem_singleton.mp hs] at hadds
          cases hadds
  | openFd n =>
    obtain ⟨-, -, rfl⟩ := step_openFd hstep
    refine ⟨h.keyed, h.calling, h.looping, h.single, h.entry, h.adding, ?_, h.sound⟩
    intro p hp
    show Function.update _ _ _ (fd p) ≠ _
    by_cases hfd : fd p = n
    · rw [hfd, Function.update_self]
      simp
    · rw [Function.update_of_ne hfd]
      exact h.opened p hp
  | closeFd n =>
    obtain ⟨-, rfl⟩ := step_closeFd hstep
    obtain ⟨hfree, hadds⟩ := hseq
    have hset := h.keyed.free hfree
    have htable : ∀ p ∈ c.world.thread.pollSet,
        (c.world.kernel.close n).table (fd p) = c.world.kernel.table (fd p) :=
      fun p hp => Function.update_of_ne (hset p hp) ..
    refine ⟨h.keyed, h.calling, h.looping, h.single, ?_, ?_, ?_, h.sound⟩
    · intro p hp
      obtain ⟨m, hm, hentry⟩ := h.entry p hp
      exact ⟨m, hm, hentry.imp_left fun hwatched => (htable p hp).trans hwatched⟩
    · intro k p m hcode
      obtain ⟨hp, hm, hread, hnone⟩ := h.adding k p m hcode
      exact ⟨hp, hm, hread, (htable p hp).trans hnone⟩
    · intro p hp
      have hfd : fd p ≠ n := by
        rcases hp with hp | ⟨k, s, hs, hadd⟩
        · exact hset p hp
        · exact hadds k s hs p hadd
      show Function.update _ _ _ (fd p) ≠ _
      rw [Function.update_of_ne hfd]
      exact h.opened p hp
  | destroy k => exact hseq.elim

/-- Where every pollable that is added wants to read and has no entry left in the kernel, no
    call of `epoll_ctl` fails, and between the calls the kernel watches every registered
    pollable for what its mode says. -/
theorem interest_follows (h : Run fd (fun c a => Sequential fd c a ∧ Prompt fd c a) c) :
    (∀ p m, c.crashed ≠ some (.epollAdd p m) ∧ c.crashed ≠ some (.updateMode p m)) ∧
      ((∀ k, Idle c k) → ∀ p ∈ c.world.thread.pollSet, ∃ m ev,
        c.world.thread.mode (fd p) = some m ∧ c.world.kernel.table (fd p) = some ev ∧
        ev.ptr = p ∧ (ev.epollin = true ↔ m.has Pollable.READ = true) ∧
        (ev.epollout = true ↔ m.has Pollable.WRITE = true)) := by
  have hinv : Followed fd c := by
    refine Reach.invariant (I := Followed fd) ?_ ?_ h
    · intro s hs
      subst hs
      exact followed_start
    · intro s s' _ hs hnext
      obtain ⟨a, ⟨hseq, hprompt⟩, hstep⟩ := hnext
      exact hs.step hseq hprompt hstep
  refine ⟨hinv.sound, ?_⟩
  intro hidle p hp
  obtain ⟨m, hm, hwatched | ⟨k, hk⟩⟩ := hinv.entry p hp
  · exact ⟨m, _, hm, hwatched, rfl, Iff.rfl, Iff.rfl⟩
  · have hnil := hidle k
    rw [Idle, hk] at hnil
    cases hnil

-- ----------------------------------------------------------------------------
-- Two ways to fall out of step
-- ----------------------------------------------------------------------------

/-- Descriptor 5. -/
def five : Unit → Nat := fun _ => 5

/-- The caller goes on by itself. -/
def onward (n : Nat) : List (Act Unit Unit) := List.replicate n (.exec (some ()) ⟨[], []⟩)

/-- A pollable is added for reading, and is to write as well. -/
def readWrite : List (Act Unit Unit) :=
  [.openFd 5, .call () (.add () Pollable.READ)] ++ onward 3 ++
    [.call () (.updateMode () (Pollable.READ ||| Pollable.WRITE))] ++ onward 1

/-- The moves of a caller who observes both conditions. -/
abbrev Cautious (c : Config Unit Unit) (a : Act Unit Unit) : Prop :=
  Sequential five c a ∧ Prompt five c a

theorem interest_follows_readWrite :
    (∀ p m, (afterMoves five Cautious readWrite).crashed ≠ some (.epollAdd p m) ∧
      (afterMoves five Cautious readWrite).crashed ≠ some (.updateMode p m)) ∧
    ((∀ k, Idle (afterMoves five Cautious readWrite) k) →
      ∀ p ∈ (afterMoves five Cautious readWrite).world.thread.pollSet, ∃ m ev,
        (afterMoves five Cautious readWrite).world.thread.mode (five p) = some m ∧
        (afterMoves five Cautious readWrite).world.kernel.table (five p) = some ev ∧
        ev.ptr = p ∧ (ev.epollin = true ↔ m.has Pollable.READ = true) ∧
        (ev.epollout = true ↔ m.has Pollable.WRITE = true)) :=
  interest_follows (Run.of_moves (by decide))

/-- A pollable that only wants to write is watched for input as well. -/
def writeOnly : List (Act Unit Unit) :=
  [.openFd 5, .call () (.add () Pollable.WRITE)] ++ onward 3

/-- A pollable that is added again before a removal pass finds its old entry. -/
def readdEarly : List (Act Unit Unit) :=
  [.openFd 5, .call () (.add () Pollable.READ)] ++ onward 3 ++ [.call () (.remove ())] ++
    onward 2 ++ [.call () (.add () Pollable.READ)] ++ onward 3

/-- The first run leaves `EPOLLIN` on for a pollable that only writes; the second fails the
    check on `EPOLL_CTL_ADD`. -/
theorem interest_astray :
    (∃ c, Run five (Sequential five) c ∧ (∀ k : Unit, Idle c k) ∧ () ∈ c.world.thread.pollSet ∧
      c.world.thread.mode 5 = some Pollable.WRITE ∧
      c.world.kernel.table 5 = some ⟨(), true, true⟩) ∧
    ∃ c : Config Unit Unit, Run five (Sequential five) c ∧
      c.crashed = some (.epollAdd () Pollable.READ) :=
  ⟨⟨afterMoves five (Sequential five) writeOnly, Run.of_moves (by decide), by decide, by decide,
      by decide, by decide⟩,
    afterMoves five (Sequential five) readdEarly, Run.of_moves (by decide), by decide⟩

end Sequence

end VncProxy.PollMgr
