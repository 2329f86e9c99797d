/-
  VncProxy.Proxy.Recycle

  `shutdown` closes the descriptor before it takes the endpoint out of the poll
  thread, so the kernel can hand the number to a worker while `mode_` still has
  it, and the check of `PollThread::add` fails.  Apart from that order of events
  neither `add` nor `remove` ever fails a check.
-/
import VncProxy.Proxy.LifeFacts

namespace VncProxy.Proxy

open Lib (Threads)

/-- No check in `PollThread::add` or `PollThread::remove` has failed. -/
def RecycleSafe (c : Config) : Prop :=
  ∀ e, c.crashed ≠ some (.add e) ∧ c.crashed ≠ some (.remove e)

/-- No endpoint is added under the number of one that is closed and not removed. -/
def NoRecycle (c : Config) : Act → Prop
  | .exec t _ => ∀ e ∈ (c.next t).bind Instr.adds, ∀ x ∈ c.world.thread.pollSet,
      c.world.trace.any (Event.closes x) = true → (c.world.ep x).fd ≠ (c.world.ep e).fd
  | _ => True

instance (c : Config) : ∀ a, Decidable (NoRecycle c a)
  | .exec t _ => inferInstanceAs (Decidable (∀ e ∈ (c.next t).bind Instr.adds, _))
  | .wait _ | .tieFd _ _ _ | .cleanup _ | .grab _ | .giveBack _ => isTrue trivial

namespace Inv

variable {safe : Prop} {c : Config} {b d : Nat → Nat} {pj cj : List Nat} {tail : List Instr}
  {rest : List Instr} {t : Tid} {e : Ep} {o : Oracle}

/-- A shutdown removes an endpoint that is in the poll set. -/
theorem remove_in (h : Inv safe c b d pj cj tail) (hcode : c.code t = .remove e :: rest) :
    e ∈ c.world.thread.pollSet := by
  rw [h.world.set.mem]
  rcases h.next_cases hcode with ⟨p, key, rfl, hp, hin⟩ | ⟨p, hp, is, hdown, -⟩ | ⟨rfl, rfl, rfl⟩ |
    ⟨rfl, rfl, v, hi⟩
  · simp [tieFd] at hin
  · obtain ⟨h1, h14⟩ := downCode_cons hdown
    have hb : 8 ≤ b p := h.ages.built p h1
    have hadd : ∀ s, Side.addAt s ≤ b p := by
      intro s
      cases s <;> simp only [Side.addAt] <;> omega
    generalize hk : d p = k at hdown h1 h14
    interval_cases k <;> obtain ⟨hi, -⟩ := List.cons.inj hdown <;> cases hi <;>
      simp [marks, hadd, Side.removeAt, hk]
  · rcases h.shape.mem_cases List.mem_cons_self with ⟨x, hx⟩ | hx | ⟨x, hx | hx⟩ <;> cases hx
  · cases hi

/-- `add` fails only if it meets the number of an endpoint that is closed and not
    removed. -/
theorem add_ok (h : Inv safe c b d pj cj tail) (hcode : c.code t = .add e :: rest)
    (hfree : NoRecycle c (.exec t o)) : exec o c.world (.add e) ≠ none := by
  obtain ⟨hpair, hnew, hopen⟩ := h.add_new hcode
  have ho := h.ages.ordered
  have hout : e ∉ c.world.thread.pollSet := fun hin => hnew ((h.world.set.mem e).mp hin).1
  have hmode : c.world.thread.mode (c.world.ep e).fd = none := by
    by_contra hmode
    obtain ⟨x, hx, hfd⟩ := (h.world.set.mode _).mp hmode
    have hxe : x ≠ e := fun heq => hout (heq ▸ hx)
    have hadd := ((h.world.set.mem x).mp hx).1
    have hxp := h.world.born x (ho.taken_tied (ho.added_taken hadd))
    by_cases hxc : x ∈ (marks b d).closed
    · apply hfree e _ x hx (h.closed_iff.mpr hxc) hfd
      simp [Config.next, hcode, Instr.adds]
    · exact h.world.desc.ne hpair hopen hxp hxc hxe hfd
  rw [exec_add.mpr ⟨hout, hmode, rfl, rfl⟩]
  exact Option.some_ne_none _

theorem remove_ok (h : Inv safe c b d pj cj tail) (hcode : c.code t = .remove e :: rest) :
    exec o c.world (.remove e) ≠ none := by
  have hin := h.remove_in hcode
  have hmode : c.world.thread.mode (c.world.ep e).fd ≠ none :=
    (h.world.set.mode _).mpr ⟨e, hin, rfl⟩
  rw [exec_remove.mpr (Or.inl ⟨hin, hmode, rfl, rfl⟩)]
  exact Option.some_ne_none _

/-- And then it does fail. -/
theorem add_fails (h : Inv safe c b d pj cj tail) (hcode : c.code t = .add e :: rest)
    (hfree : ¬ NoRecycle c (.exec t o)) : exec o c.world (.add e) = none := by
  cases hexec : exec o c.world (.add e) with
  | none => rfl
  | some r =>
    exfalso
    obtain ⟨-, hmode, -⟩ := exec_add.mp hexec
    apply hfree
    intro x hx y hy _ heq
    obtain rfl : e = x := by simpa [Config.next, hcode, Instr.adds] using hx
    exact (h.world.set.mode _).mpr ⟨y, hy, heq⟩ hmode

end Inv

-- ============================================================================
-- The theorem
-- ============================================================================

/-- In every run in which a worker that has been handed the number of a closed
    endpoint does not add it before that endpoint is removed. -/
theorem recycle_safe {c : Config} (h : Run (fun c a => Mild c a ∧ NoRecycle c a) c) :
    RecycleSafe c := by
  have hinv : (∃ b d pj cj tail, Inv False c b d pj cj tail) ∧ RecycleSafe c := by
    refine Lib.Reach.invariant (I := fun c => (∃ b d pj cj tail, Inv False c b d pj cj tail) ∧
      RecycleSafe c) ?_ ?_ h
    · rintro _ rfl
      exact ⟨⟨_, _, _, _, _, Inv.start⟩, by simp [RecycleSafe, Config.start]⟩
    · rintro s s' - ⟨⟨b, d, pj, cj, tail, hinv⟩, hsafe⟩ ⟨a, ⟨hmild, hfree⟩, hstep⟩
      refine ⟨hinv.step hmild False.elim False.elim hstep, ?_⟩
      cases a with
      | exec t o =>
        obtain ⟨i, rest, -, hcode, ⟨hnone, rfl⟩ | ⟨w, pre, -, rfl⟩⟩ := Threads.run_cases hstep
        · intro e
          constructor <;> intro hi <;> obtain rfl := Option.some.inj hi
          · exact hinv.add_ok hcode hfree hnone
          · exact hinv.remove_ok hcode hnone
        · exact hsafe
      | _ =>
        simp only [step] at hstep
        split at hstep
        · first
            | (obtain ⟨is, -, rfl⟩ := Option.map_eq_some_iff.mp hstep; exact hsafe)
            | (obtain rfl := Option.some.inj hstep; exact hsafe)
        · cases hstep
  exact hinv.2

/-- A pair is torn down, and a worker ties a new pair over the same number when it
    has been removed. -/
def recycledActs : List Act :=
  tieActs [97] 3 4 ++ teardownActs ++ [.grab 3, .grab 5, .tieFd [98] 3 5] ++
    List.replicate 9 (.exec (.worker 1) .idle)

def recycledEnd : Config :=
  Lib.lastState (fun a c => if Mild c a ∧ NoRecycle c a then step a c else none) recycledActs
    Config.start

theorem recycle_safe_after_teardown : RecycleSafe recycledEnd := by
  apply recycle_safe
  apply Run.of_acts
  exact Lib.runActs_eq_lastState (by decide +kernel)

/-- The poll thread has closed descriptor 3 and not removed its endpoint, when a
    worker is handed the number and ties it. -/
def earlyRecycleActs : List Act :=
  tieActs [97] 3 4 ++ [.wait [(3, hangUp)]] ++ List.replicate 4 (.exec .poll .idle) ++
    [.grab 3, .grab 5, .tieFd [98] 3 5] ++ List.replicate 3 (.exec (.worker 1) .idle)

@[irreducible] def earlyRecycleEnd : Config :=
  Lib.lastState (fun a c => if Mild c a then step a c else none) earlyRecycleActs Config.start

theorem earlyRecycleEnd_eq : earlyRecycleEnd = Lib.lastState
    (fun a c => if Mild c a then step a c else none) earlyRecycleActs Config.start := by
  unfold earlyRecycleEnd
  rfl

/-- `verify(mode_.find(fd) == mode_.end())` fails. -/
theorem recycle_early : ¬ ∀ c, Run Mild c → RecycleSafe c := by
  intro h
  have hrun : Run Mild earlyRecycleEnd :=
    Run.of_acts (earlyRecycleEnd_eq ▸ Lib.runActs_eq_lastState (by decide +kernel))
  have hcrash : earlyRecycleEnd.crashed = some (.add ⟨1, .first⟩) := by decide +kernel
  exact (h _ hrun ⟨1, .first⟩).1 hcrash

end VncProxy.Proxy
