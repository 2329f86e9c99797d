/-
  VncProxy.Proxy.Cleanup

  `EndPoint::cleanup` next to `tie_fd` and to the poll thread.  The registry
  holds no references, and between the collection under the registry lock and
  the `shutdown` of what was collected the poll thread may shut the same pair
  down and release it.  What does hold is what the threads keep to when a
  shutdown is only decided on for a pair that is built and that nobody else has
  decided on, and when the removal pass does not overtake the log line at the
  end of a shutdown of the cleanup thread.
-/
import VncProxy.Proxy.LifeFacts

namespace VncProxy.Proxy

/-- What `cleanup`, `shutdown`, `tie_fd` and the removal pass dereference next has
    a positive reference count, and no shutdown has been run twice. -/
structure CleanupSafe (c : Config) : Prop where
  alive : ∀ t i rest, c.code t = i :: rest → i.io = none →
    ∀ e ∈ touches c.world i, 0 < (c.world.ep e).refcnt
  once : ∀ e, c.world.trace.count (.shutdown e) ≤ 1

/-- The moves under which the route cleanup is safe. -/
def CleanupOk (c : Config) (a : Act) : Prop := Calm c a ∧ DropOk c a

instance (c : Config) (a : Act) : Decidable (CleanupOk c a) :=
  inferInstanceAs (Decidable (_ ∧ _))

/-- In every run in which a shutdown is only decided on for an idle pair, and in
    which the removal pass spares the peers that the cleanup thread still looks
    at. -/
theorem cleanup_safe {c : Config} (h : Run CleanupOk c) : CleanupSafe c := by
  obtain ⟨b, d, pj, cj, tail, hinv⟩ :=
    mild_run True (fun _ _ ha => ha.1.mild) (fun _ _ _ ha => ha) h
  apply CleanupSafe.mk
  · intro t i rest hcode hio
    exact hinv.section_alive hcode hio
  · intro e
    exact hinv.shutdown_once e

/-- The cleanup thread collects the pair over 3 and 4 and shuts it down, section by
    section next to a worker that ties another and to the poll thread, which handles an
    event of the first and drops it in the end. -/
def pruneActs : List Act :=
  tieActs [97] 3 4 ++
  [.wait [(3, writable)], .cleanup [[98]], .exec .cleanup .idle, .grab 5, .grab 6,
    .tieFd [98] 5 6, .exec .poll .idle, .exec .cleanup .idle, .exec .poll .idle] ++
  (List.replicate 9 [.exec .cleanup .idle, .exec (.worker 1) .idle]).flatten ++
  List.replicate 4 (.exec .cleanup .idle) ++ List.replicate 5 (.exec .poll .idle)

@[irreducible] def pruneEnd : Config :=
  Lib.lastState (fun a c => if CleanupOk c a then step a c else none) pruneActs Config.start

theorem pruneEnd_eq : pruneEnd =
    Lib.lastState (fun a c => if CleanupOk c a then step a c else none) pruneActs Config.start := by
  unfold pruneEnd
  rfl

theorem cleanup_safe_pruned : CleanupSafe pruneEnd ∧
    pruneEnd.world.trace.count (.shutdown ⟨0, .first⟩) = 1 ∧
    (pruneEnd.world.ep ⟨0, .first⟩).refcnt = 0 ∧ (pruneEnd.world.ep ⟨1, .first⟩).refcnt = 2 := by
  refine ⟨?_, by decide +kernel, by decide +kernel, by decide +kernel⟩
  apply cleanup_safe
  exact Run.of_acts (pruneEnd_eq ▸ Lib.runActs_eq_lastState (by decide +kernel))

/-- The cleanup thread collects the pair, and pauses while the poll thread shuts
    it down and drops it. -/
def staleCleanupActs : List Act :=
  tieActs [97] 3 4 ++ [.cleanup [], .exec .cleanup .idle] ++ teardownActs

@[irreducible] def staleCleanupEnd : Config :=
  Lib.lastState (fun a c => if True then step a c else none) staleCleanupActs Config.start

theorem staleCleanupEnd_eq : staleCleanupEnd =
    Lib.lastState (fun a c => if True then step a c else none) staleCleanupActs Config.start := by
  unfold staleCleanupEnd
  rfl

/-- `cleanup` is about to call `shutdown` on an endpoint that has been deleted. -/
theorem cleanup_stale : ¬ ∀ c, Run (fun _ _ => True) c → CleanupSafe c := by
  intro h
  have hrun : Run (fun _ _ => True) staleCleanupEnd :=
    Run.of_acts (staleCleanupEnd_eq ▸ Lib.runActs_eq_lastState (by decide +kernel))
  have hcode : staleCleanupEnd.code .cleanup = [.shutdown ⟨0, .first⟩] := by decide +kernel
  have hdead : (staleCleanupEnd.world.ep ⟨0, .first⟩).refcnt = 0 := by decide +kernel
  have hlive := (h _ hrun).alive .cleanup _ _ hcode rfl ⟨0, .first⟩ List.mem_cons_self
  rw [hdead] at hlive
  exact absurd hlive (Int.lt_irrefl 0)

end VncProxy.Proxy
