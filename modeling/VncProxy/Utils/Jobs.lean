/-
  VncProxy.Utils.Jobs

  Every job that is submitted to a `ThreadPool` is run once and deleted once.  For each
  queue, what its worker has taken, followed by what is still in it, is what was pushed; and
  the destructor pushes the token behind all jobs.
-/
import VncProxy.Utils.ThreadPool
import Mathlib.Algebra.BigOperators.Group.Finset.Piecewise

namespace VncProxy.Utils

open Lib (Threads Reach)

-- ============================================================================
-- The log
-- ============================================================================

section Log

variable {n : Nat} {ι : Type _} {i i' : Fin n} {log : List (Event n ι)} {e : Option ι} {j : ι}

theorem pushes_append (log log' : List (Event n ι)) :
    pushes i (log ++ log') = pushes i log ++ pushes i log' := by
  rw [pushes, List.filterMap_append]
  rfl

@[simp] theorem pushes_push (e : Option ι) :
    pushes i [.push i' e] = if i' = i then [e] else [] := by
  by_cases h : i' = i <;> simp [pushes, h]

@[simp] theorem pushes_pop (e : Option ι) : pushes i [.pop i' e] = [] := rfl

@[simp] theorem pushes_run (j : ι) : pushes i [.run i' j] = [] := rfl

@[simp] theorem pushes_delete (j : ι) : pushes i [.delete i' j] = [] := rfl

theorem jobs_of_pushes {js : List ι} {es : List (Option ι)} (h : pushes i log = js.map some ++ es)
    (hes : es.reduceOption = []) : jobs i log = js := by
  rw [jobs, h, List.reduceOption_append, hes, List.append_nil, List.reduceOption, List.filterMap_map]
  exact List.filterMap_some

/-- The token is at the same place in both readings. -/
theorem split_token {js js' : List ι} {es : List (Option ι)}
    (h : js.map some ++ none :: es = js'.map some ++ [none]) : js = js' ∧ es = [] := by
  induction js generalizing js' with
  | nil =>
    cases js' with
    | nil => exact ⟨rfl, (List.cons.inj h).2⟩
    | cons j' js' => cases (List.cons.inj h).1
  | cons j js ih =>
    cases js' with
    | nil => cases (List.cons.inj h).1
    | cons j' js' =>
      obtain ⟨hhead, htail⟩ := List.cons.inj h
      obtain ⟨rfl, rfl⟩ := ih htail
      exact ⟨by rw [Option.some.inj hhead], rfl⟩

/-- An event that belongs to one worker is counted with that worker. -/
theorem countP_workers {p : Event n ι → Bool}
    (hp : ∀ x, p x = true → ∃ i, ∀ i', x.byWorker i' = decide (i' = i)) (log : List (Event n ι)) :
    log.countP p = ∑ i, (log.filter (Event.byWorker i)).countP p := by
  induction log with
  | nil => simp
  | cons x log ih =>
    have hsplit : ∀ i : Fin n, ((x :: log).filter (Event.byWorker i)).countP p =
        (log.filter (Event.byWorker i)).countP p + if x.byWorker i ∧ p x then 1 else 0 := by
      intro i
      by_cases hx : x.byWorker i
      · rw [List.filter_cons_of_pos hx, List.countP_cons]
        simp [hx]
      · rw [List.filter_cons_of_neg hx]
        simp [hx]
    rw [List.countP_cons, ih, Finset.sum_congr rfl fun i _ => hsplit i, Finset.sum_add_distrib]
    congr 1
    by_cases hx : p x
    · obtain ⟨i, hi⟩ := hp x hx
      simp [hx, hi]
    · simp [hx]

variable [DecidableEq ι]

theorem count_pushed (j : ι) (log : List (Event n ι)) :
    log.countP (Event.pushed j) = ∑ i, (pushes i log).count (some j) := by
  induction log with
  | nil => simp [pushes]
  | cons x log ih =>
    have hsplit : ∀ i : Fin n, (pushes i (x :: log)).count (some j) =
        (pushes i log).count (some j) + (pushes i [x]).count (some j) := by
      intro i
      rw [← List.singleton_append, pushes_append, List.count_append, Nat.add_comm]
    rw [List.countP_cons, ih, Finset.sum_congr rfl fun i _ => hsplit i, Finset.sum_add_distrib]
    congr 1
    cases x with
    | push queue e =>
      by_cases he : e = some j
      · simp [Event.pushed, he, apply_ite]
      · simp [Event.pushed, he, apply_ite]
    | _ => simp [Event.pushed]

/-- An event that belongs to a job is counted with that job. -/
theorem countP_turns {p : Event n ι → Bool}
    (h : ∀ j', (turn i j').countP p = if j' = j then 1 else 0) (js : List ι) :
    (js.flatMap (turn i)).countP p = js.count j := by
  induction js with
  | nil => rfl
  | cons j' js ih =>
    rw [List.flatMap_cons, List.countP_append, ih, h, List.count_cons, Nat.add_comm]
    simp only [beq_iff_eq]

end Log

-- ============================================================================
-- Workers
-- ============================================================================

section Workers

variable {n : Nat} {ι : Type _}

/-- How far worker `i` has come: what it has taken from its queue, what it has done about it,
    and the code that it has left. -/
inductive Working (i : Fin n) (w : ThreadPool n ι) : List (Sec n ι) → Prop
  | pop (done : List ι) (hlog : w.log.filter (Event.byWorker i) = done.flatMap (turn i))
      (hq : pushes i w.log = done.map some ++ w.q i) : Working i w [.pop i]
  | run (done : List ι) (j : ι)
      (hlog : w.log.filter (Event.byWorker i) = done.flatMap (turn i) ++ [.pop i (some j)])
      (hq : pushes i w.log = (done ++ [j]).map some ++ w.q i) :
      Working i w [.run i j, .delete i j, .pop i]
  | delete (done : List ι) (j : ι) (hlog : w.log.filter (Event.byWorker i) =
        done.flatMap (turn i) ++ [.pop i (some j), .run i j])
      (hq : pushes i w.log = (done ++ [j]).map some ++ w.q i) :
      Working i w [.delete i j, .pop i]
  | gone (done : List ι)
      (hlog : w.log.filter (Event.byWorker i) = done.flatMap (turn i) ++ [.pop i none])
      (hq : pushes i w.log = done.map some ++ none :: w.q i) : Working i w []

variable {i : Fin n} {w w' : ThreadPool n ι} {code : List (Sec n ι)}

/-- What other threads do to a worker: they push on its queue. -/
theorem Working.others (h : Working i w code)
    (hlog : w'.log.filter (Event.byWorker i) = w.log.filter (Event.byWorker i))
    (hpush : ∃ es, pushes i w'.log = pushes i w.log ++ es ∧ w'.q i = w.q i ++ es) :
    Working i w' code := by
  obtain ⟨es, hpushes, hq'⟩ := hpush
  cases h with
  | pop done hdone hq =>
    exact .pop done (hlog.trans hdone) (by rw [hpushes, hq, hq', List.append_assoc])
  | run done j hdone hq =>
    exact .run done j (hlog.trans hdone) (by rw [hpushes, hq, hq', List.append_assoc])
  | delete done j hdone hq =>
    exact .delete done j (hlog.trans hdone) (by rw [hpushes, hq, hq', List.append_assoc])
  | gone done hdone hq =>
    refine .gone done (hlog.trans hdone) ?_
    rw [hpushes, hq, hq', List.append_assoc]
    rfl

theorem filter_concat (i : Fin n) (log : List (Event n ι)) (x : Event n ι) :
    (log ++ [x]).filter (Event.byWorker i) =
      log.filter (Event.byWorker i) ++ if x.byWorker i then [x] else [] := by
  rw [List.filter_append, List.filter_singleton]
  cases x.byWorker i <;> rfl

/-- The worker that a section belongs to. -/
def Sec.worker : Sec n ι → Option (Fin n)
  | .runAsync _ | .push _ _ => none
  | .pop tid | .run tid _ | .delete tid _ => some tid

theorem Working.owned {s : Sec n ι} {rest : List (Sec n ι)} (h : Working i w (s :: rest)) : s.worker = some i := by
  cases h <;> rfl

variable [NeZero n] {s : Sec n ι} {rest pre : List (Sec n ι)} {rand : Nat}

theorem exec_runAsync {r : Option ι} (h : exec rand w (.runAsync r) = some (w', pre)) :
    r ≠ none ∧ w' = w ∧ pre = [.push (Fin.ofNat n rand) r] := by
  obtain ⟨hr, hret⟩ := Lib.verify_bind_eq_some.mp h
  obtain ⟨rfl, rfl⟩ := Prod.mk.inj (Option.some.inj hret)
  exact ⟨hr, rfl, rfl⟩

/-- A section of worker `i`. -/
theorem Working.exec (h : Working i w (s :: rest)) (hexec : exec rand w s = some (w', pre)) :
    Working i w' (pre ++ rest) := by
  cases h with
  | pop done hlog hq =>
    cases hqi : w.q i with
    | nil =>
      simp only [Utils.exec, hqi, Option.some.injEq, Prod.mk.injEq] at hexec
      obtain ⟨rfl, rfl⟩ := hexec
      exact .pop done hlog hq
    | cons e es =>
      simp only [Utils.exec, hqi, Option.some.injEq, Prod.mk.injEq] at hexec
      obtain ⟨rfl, rfl⟩ := hexec
      cases e with
      | none =>
        refine .gone done ?_ ?_
        · rw [filter_concat, hlog]
          simp [Event.byWorker]
        · simp [pushes_append, hq, hqi]
      | some j =>
        refine .run done j ?_ ?_
        · rw [filter_concat, hlog]
          simp [Event.byWorker]
        · simp [pushes_append, hq, hqi]
  | run done j hlog hq =>
    cases hexec
    refine .delete done j ?_ ?_
    · rw [filter_concat, hlog]
      simp [Event.byWorker]
    · simp [pushes_append, hq]
  | delete done j hlog hq =>
    cases hexec
    refine .pop (done ++ [j]) ?_ ?_
    · rw [filter_concat, hlog]
      simp [Event.byWorker, turn]
    · simp [pushes_append, hq]

/-- A section of another worker, or of a producer. -/
theorem exec_others (hs : s.worker ≠ some i) (hexec : exec rand w s = some (w', pre)) :
    w'.log.filter (Event.byWorker i) = w.log.filter (Event.byWorker i) ∧
      ∃ es, pushes i w'.log = pushes i w.log ++ es ∧ w'.q i = w.q i ++ es := by
  cases s with
  | runAsync r =>
    obtain ⟨-, rfl, -⟩ := exec_runAsync hexec
    exact ⟨rfl, [], (List.append_nil _).symm, (List.append_nil _).symm⟩
  | push queue e =>
    cases hexec
    refine ⟨?_, if queue = i then [e] else [], ?_, ?_⟩
    · rw [filter_concat]
      simp [Event.byWorker]
    · rw [pushes_append, pushes_push]
    · by_cases hi : i = queue
      · subst hi
        simp
      · simp [hi, Ne.symm hi]
  | pop tid =>
    have htid : tid ≠ i := fun heq => hs (congrArg some heq)
    cases hq : w.q tid with
    | nil =>
      simp only [Utils.exec, hq, Option.some.injEq, Prod.mk.injEq] at hexec
      obtain ⟨rfl, -⟩ := hexec
      exact ⟨rfl, [], (List.append_nil _).symm, (List.append_nil _).symm⟩
    | cons e es =>
      simp only [Utils.exec, hq, Option.some.injEq, Prod.mk.injEq] at hexec
      obtain ⟨rfl, -⟩ := hexec
      refine ⟨?_, [], ?_, ?_⟩
      · rw [filter_concat]
        simp [Event.byWorker, htid]
      · rw [pushes_append, pushes_pop]
      · simp [Ne.symm htid]
  | run tid job =>
    have htid : tid ≠ i := fun heq => hs (congrArg some heq)
    cases hexec
    refine ⟨?_, [], ?_, (List.append_nil _).symm⟩
    · rw [filter_concat]
      simp [Event.byWorker, htid]
    · rw [pushes_append, pushes_run]
  | delete tid job =>
    have htid : tid ≠ i := fun heq => hs (congrArg some heq)
    cases hexec
    refine ⟨?_, [], ?_, (List.append_nil _).symm⟩
    · rw [filter_concat]
      simp [Event.byWorker, htid]
    · rw [pushes_append, pushes_delete]

/-- No section but a push changes what has been pushed. -/
theorem exec_pushes (hexec : exec rand w s = some (w', pre)) (hs : ∀ i e, s ≠ .push i e)
    (i : Fin n) : pushes i w'.log = pushes i w.log := by
  cases s with
  | runAsync r =>
    obtain ⟨-, rfl, -⟩ := exec_runAsync hexec
    rfl
  | push queue e => exact absurd rfl (hs queue e)
  | pop tid =>
    cases hq : w.q tid with
    | nil =>
      simp only [Utils.exec, hq, Option.some.injEq, Prod.mk.injEq] at hexec
      rw [← hexec.1]
    | cons e es =>
      simp only [Utils.exec, hq, Option.some.injEq, Prod.mk.injEq] at hexec
      rw [← hexec.1, pushes_append, pushes_pop, List.append_nil]
  | run tid job =>
    cases hexec
    rw [pushes_append, pushes_run, List.append_nil]
  | delete tid job =>
    cases hexec
    rw [pushes_append, pushes_delete, List.append_nil]

/-- The producers' calls are recorded when they are made. -/
theorem exec_fixed (hexec : exec rand w s = some (w', pre)) :
    w'.dying = w.dying ∧ w'.submitted = w.submitted := by
  cases s with
  | runAsync r =>
    obtain ⟨-, rfl, -⟩ := exec_runAsync hexec
    exact ⟨rfl, rfl⟩
  | pop tid =>
    cases hq : w.q tid <;> simp only [Utils.exec, hq, Option.some.injEq, Prod.mk.injEq] at hexec <;>
      rw [← hexec.1] <;> exact ⟨rfl, rfl⟩
  | _ =>
    cases hexec
    exact ⟨rfl, rfl⟩

end Workers

-- ============================================================================
-- Producers
-- ============================================================================

section Producers

variable {n : Nat} {ι κ : Type _}

/-- How far the producers have come, one of whom is the destructor in the end. -/
inductive Producing (w : ThreadPool n ι) (code : κ → List (Sec n ι)) : Prop
  | living (hdying : w.dying = false)
      (hcode : ∀ k, code k = [] ∨ ∃ j : ι, code k = [.runAsync (some j)] ∨
        ∃ i, code k = [.push i (some j)])
      (hpush : ∀ i, ∃ js : List ι, pushes i w.log = js.map some)
  | closing (hdying : w.dying = true) (k : κ) (is : List (Fin n)) (hnodup : is.Nodup)
      (hk : code k = is.map fun i => .push i none) (hidle : ∀ k', k' ≠ k → code k' = [])
      (hpush : ∀ i, ∃ js : List ι,
        pushes i w.log = js.map some ++ if i ∈ is then [] else [none])

variable {w w' : ThreadPool n ι} {code : κ → List (Sec n ι)}

/-- What the workers do is nothing to the producers. -/
theorem Producing.others (h : Producing w code) (hdying : w'.dying = w.dying)
    (hpushes : ∀ i, pushes i w'.log = pushes i w.log) : Producing w' code := by
  cases h with
  | living hd hcode hpush =>
    exact .living (hdying.trans hd) hcode fun i => by rw [hpushes]; exact hpush i
  | closing hd k is hnodup hk hidle hpush =>
    exact .closing (hdying.trans hd) k is hnodup hk hidle fun i => by rw [hpushes]; exact hpush i

theorem Producing.owned (h : Producing w code) {k : κ} {s : Sec n ι} {rest : List (Sec n ι)}
    (hcode : code k = s :: rest) : s.worker = none := by
  cases h with
  | living _ hall _ =>
    rcases hall k with hk | ⟨j, hk | ⟨i, hk⟩⟩
    · rw [hcode] at hk
      cases hk
    · rw [hcode] at hk
      rw [(List.cons.inj hk).1]
      rfl
    · rw [hcode] at hk
      rw [(List.cons.inj hk).1]
      rfl
  | closing _ k₀ is _ hk hidle _ =>
    have hsame : k = k₀ := by
      by_contra hne
      rw [hidle k hne] at hcode
      cases hcode
    rw [← hsame, hcode] at hk
    have hs : s ∈ is.map fun i => Sec.push (ι := ι) i none := by
      rw [← hk]
      exact List.mem_cons_self
    obtain ⟨i, -, rfl⟩ := List.mem_map.mp hs
    rfl

theorem code_load [DecidableEq κ] (c : Config n ι κ) (k : κ) (is : List (Sec n ι)) :
    (fun k' => (c.load (.inr k) is).code (.inr k')) =
      Function.update (fun k' => c.code (.inr k')) k is := by
  funext k'
  by_cases hk : k' = k
  · rw [hk, Threads.load_code_self, Function.update_self]
  · rw [Threads.load_code_of_ne _ (by simpa using hk), Function.update_of_ne hk]

variable [NeZero n] [DecidableEq κ] {k : κ} {s : Sec n ι} {rest pre : List (Sec n ι)} {rand : Nat}

/-- A section of a producer. -/
theorem Producing.exec (h : Producing w code) (hcode : code k = s :: rest)
    (hexec : exec rand w s = some (w', pre)) :
    Producing w' (Function.update code k (pre ++ rest)) := by
  have hdying := (exec_fixed hexec).1
  cases h with
  | living hd hall hpush =>
    have hother : ∀ is, (is = [] ∨ ∃ j : ι, is = [.runAsync (some j)] ∨
        ∃ i, is = [.push i (some j)]) → ∀ k', Function.update code k is k' = [] ∨
        ∃ j : ι, Function.update code k is k' = [.runAsync (some j)] ∨
          ∃ i, Function.update code k is k' = [.push i (some j)] := by
      intro is his k'
      by_cases hk : k' = k
      · rw [hk, Function.update_self]
        exact his
      · rw [Function.update_of_ne hk]
        exact hall k'
    rcases hall k with hk | ⟨j, hk | ⟨i, hk⟩⟩
    · rw [hcode] at hk
      cases hk
    · rw [hcode] at hk
      obtain ⟨rfl, rfl⟩ := List.cons.inj hk
      obtain ⟨-, rfl, rfl⟩ := exec_runAsync hexec
      exact .living hd (hother _ (Or.inr ⟨j, Or.inr ⟨_, rfl⟩⟩)) hpush
    · rw [hcode] at hk
      obtain ⟨rfl, rfl⟩ := List.cons.inj hk
      cases hexec
      refine .living hd (hother _ (Or.inl rfl)) ?_
      intro i'
      obtain ⟨js, hjs⟩ := hpush i'
      refine ⟨js ++ if i = i' then [j] else [], ?_⟩
      rw [pushes_append, pushes_push, hjs, List.map_append]
      split <;> rfl
  | closing hd k₀ is hnodup hk hidle hpush =>
    have hsame : k = k₀ := by
      by_contra hne
      rw [hidle k hne] at hcode
      cases hcode
    subst hsame
    rw [hcode] at hk
    cases is with
    | nil => cases hk
    | cons i is =>
      obtain ⟨rfl, rfl⟩ := List.cons.inj hk
      cases hexec
      obtain ⟨hnot, hnodup⟩ := List.nodup_cons.mp hnodup
      refine .closing hd k is hnodup (Function.update_self ..) ?_ ?_
      · intro k' hne
        rw [Function.update_of_ne hne]
        exact hidle k' hne
      · intro i'
        obtain ⟨js, hjs⟩ := hpush i'
        refine ⟨js, ?_⟩
        rw [pushes_append, pushes_push, hjs]
        by_cases hi : i = i'
        · subst hi
          simp [hnot]
        · simp [hi, Ne.symm hi]

end Producers

-- ============================================================================
-- All jobs
-- ============================================================================

section Served

variable {n : Nat} {ι κ : Type _} [DecidableEq ι] [Fintype κ]

/-- The job that a section is about to push. -/
def Sec.carries (j : ι) : Sec n ι → Nat
  | .runAsync r | .push _ r => if r = some j then 1 else 0
  | _ => 0

/-- What holds in every state of a pool. -/
structure Sound (c : Config n ι κ) : Prop where
  working : ∀ i, Working i c.world (c.code (.inl i))
  producing : Producing c.world fun k => c.code (.inr k)
  account : ∀ j, c.world.log.countP (Event.pushed j) + c.weight (Sec.carries j) =
    c.world.submitted.count (some j)

theorem sound_start : Sound (start : Config n ι κ) := by
  refine ⟨?_, ?_, ?_⟩
  · intro i
    exact .pop [] rfl rfl
  · exact .living rfl (fun k => Or.inl rfl) fun i => ⟨[], rfl⟩
  · intro j
    have hnone : (start : Config n ι κ).weight (Sec.carries j) = 0 := by
      apply Finset.sum_eq_zero
      rintro (i | k) _
      · rfl
      · rfl
    rw [hnone]
    rfl

variable [NeZero n] {c c' : Config n ι κ}

theorem exec_account {w w' : ThreadPool n ι} {rand : Nat} {s : Sec n ι} {pre : List (Sec n ι)}
    (h : exec rand w s = some (w', pre)) (j : ι) :
    w'.log.countP (Event.pushed j) + (pre.map (Sec.carries j)).sum =
      w.log.countP (Event.pushed j) + s.carries j := by
  cases s with
  | runAsync r =>
    obtain ⟨-, rfl, rfl⟩ := exec_runAsync h
    rfl
  | push queue e =>
    cases h
    simp [Sec.carries, Event.pushed, List.countP_append, List.countP_singleton]
  | pop tid =>
    cases hq : w.q tid with
    | nil =>
      simp only [Utils.exec, hq, Option.some.injEq, Prod.mk.injEq] at h
      obtain ⟨rfl, rfl⟩ := h
      rfl
    | cons e es =>
      simp only [Utils.exec, hq, Option.some.injEq, Prod.mk.injEq] at h
      obtain ⟨rfl, rfl⟩ := h
      cases e <;> simp [Sec.carries, Event.pushed, List.countP_append]
  | run tid job =>
    cases h
    simp [Sec.carries, Event.pushed, List.countP_append]
  | delete tid job =>
    cases h
    simp [Sec.carries, Event.pushed, List.countP_append]

variable [DecidableEq κ] {a : Act n ι κ}

theorem Sound.step (h : Sound c) (hclosing : Closing c a) (hstep : step a c = some c') :
    Sound c' := by
  cases a with
  | exec t rand =>
    obtain ⟨s, rest, -, hcode, ⟨-, rfl⟩ | ⟨w, pre, hexec, rfl⟩⟩ := Threads.run_cases hstep
    · exact ⟨h.working, h.producing, h.account⟩
    · have haccount : ∀ j, w.log.countP (Event.pushed j) +
          (c.load t (pre ++ rest)).weight (Sec.carries j) = w.submitted.count (some j) := by
        intro j
        have hold := h.account j
        have hnew := exec_account hexec j
        have hload := Threads.weight_load (f := Sec.carries j) (c := c) t (pre ++ rest)
        rw [hcode, List.map_cons, List.sum_cons, List.map_append, List.sum_append] at hload
        rw [(exec_fixed hexec).2]
        omega
      cases t with
      | inl i =>
        have hworking := h.working i
        rw [hcode] at hworking
        have hproducers : (fun k => (c.load (.inl i) (pre ++ rest)).code (.inr k)) =
            fun k => c.code (.inr k) := by
          funext k
          exact Threads.load_code_of_ne _ (by simp)
        refine ⟨?_, ?_, haccount⟩
        · intro i'
          show Working i' w ((c.load (.inl i) (pre ++ rest)).code (.inl i'))
          by_cases hi : i' = i
          · rw [hi, Threads.load_code_self]
            exact hworking.exec hexec
          · rw [Threads.load_code_of_ne _ (by simpa using hi)]
            have hs : s.worker ≠ some i' := by
              rw [hworking.owned]
              simpa using Ne.symm hi
            obtain ⟨hlog, hpush⟩ := exec_others hs hexec
            exact (h.working i').others hlog hpush
        · show Producing w fun k => (c.load (.inl i) (pre ++ rest)).code (.inr k)
          rw [hproducers]
          refine h.producing.others (exec_fixed hexec).1 (exec_pushes hexec ?_)
          rintro i' e rfl
          cases hworking.owned
      | inr k =>
        have howned : s.worker = none := h.producing.owned hcode
        refine ⟨?_, ?_, haccount⟩
        · intro i
          show Working i w ((c.load (.inr k) (pre ++ rest)).code (.inl i))
          rw [Threads.load_code_of_ne _ (by simp)]
          obtain ⟨hlog, hpush⟩ := exec_others (i := i) (by rw [howned]; simp) hexec
          exact (h.working i).others hlog hpush
        · show Producing w fun k' => (c.load (.inr k) (pre ++ rest)).code (.inr k')
          rw [code_load]
          exact h.producing.exec hcode hexec
  | runAsync k r =>
    obtain ⟨⟨-, hidle⟩, hret⟩ := Lib.verify_bind_eq_some.mp hstep
    obtain rfl := Option.some.inj hret
    obtain ⟨hr, hdying⟩ := hclosing
    obtain ⟨j, rfl⟩ := Option.ne_none_iff_exists'.mp hr
    refine ⟨?_, ?_, ?_⟩
    · intro i
      show Working i _ ((c.load (.inr k) [.runAsync (some j)]).code (.inl i))
      rw [Threads.load_code_of_ne _ (by simp)]
      exact (h.working i).others rfl ⟨[], (List.append_nil _).symm, (List.append_nil _).symm⟩
    · show Producing _ fun k' => (c.load (.inr k) [.runAsync (some j)]).code (.inr k')
      rw [code_load]
      cases h.producing with
      | closing hd _ _ _ _ _ _ => rw [hdying] at hd; cases hd
      | living _ hall hpush =>
        refine .living hdying ?_ hpush
        intro k'
        by_cases hk : k' = k
        · rw [hk, Function.update_self]
          exact Or.inr ⟨j, Or.inl rfl⟩
        · rw [Function.update_of_ne hk]
          exact hall k'
    · intro j'
      have hold := h.account j'
      have hload := Threads.weight_load (f := Sec.carries j') (c := c) (.inr k) [.runAsync (some j)]
      rw [hidle, List.map_nil, List.sum_nil, List.map_singleton, List.sum_singleton,
        Nat.add_zero] at hload
      show c.world.log.countP _ + (c.load (.inr k) [.runAsync (some j)]).weight (Sec.carries j') =
        (c.world.submitted ++ [some j]).count (some j')
      rw [List.count_append, List.count_singleton, ← hold, hload, Sec.carries]
      simp only [beq_iff_eq]
      omega
  | destroy k =>
    obtain ⟨⟨-, -⟩, hret⟩ := Lib.verify_bind_eq_some.mp hstep
    obtain rfl := Option.some.inj hret
    obtain ⟨hdying, hidle⟩ := hclosing
    refine ⟨?_, ?_, ?_⟩
    · intro i
      show Working i _ ((c.load (.inr k) ((List.finRange n).map fun i => .push i none)).code (.inl i))
      rw [Threads.load_code_of_ne _ (by simp)]
      exact (h.working i).others rfl ⟨[], (List.append_nil _).symm, (List.append_nil _).symm⟩
    · show Producing _ fun k' =>
        (c.load (.inr k) ((List.finRange n).map fun i => .push i none)).code (.inr k')
      rw [code_load]
      cases h.producing with
      | closing hd _ _ _ _ _ _ => rw [hdying] at hd; cases hd
      | living _ _ hpush =>
        refine .closing rfl k (List.finRange n) (List.nodup_finRange n) (Function.update_self ..)
          ?_ ?_
        · intro k' hk
          rw [Function.update_of_ne hk]
          exact hidle k'
        · intro i
          obtain ⟨js, hjs⟩ := hpush i
          exact ⟨js, by rw [if_pos (List.mem_finRange i), List.append_nil]; exact hjs⟩
    · intro j
      have hold := h.account j
      have hload := Threads.weight_load (f := Sec.carries j) (c := c) (.inr k)
        ((List.finRange n).map fun i => .push i none)
      have hnone : (((List.finRange n).map fun i => (.push i none : Sec n ι)).map
          (Sec.carries j)).sum = 0 := by
        simp [Sec.carries, Function.comp_def]
      rw [hidle k, List.map_nil, List.sum_nil, hnone] at hload
      show c.world.log.countP _ +
          (c.load (.inr k) ((List.finRange n).map fun i => .push i none)).weight (Sec.carries j) =
        c.world.submitted.count (some j)
      omega

/-- When the destructor has returned, every job has been run and deleted, once for each time it
    was submitted, and in the order of its queue. -/
theorem runs_each_job (h : Run c) (hret : Returned c) : Served c.world := by
  have hsound : Sound c := by
    refine Reach.invariant (I := Sound) ?_ ?_ h
    · intro s hs
      subst hs
      exact sound_start
    · intro s s' _ hs hnext
      obtain ⟨a, hclosing, hstep⟩ := hnext
      exact hs.step hclosing hstep
  obtain ⟨-, hdying, hcode⟩ := hret
  have hqueue : ∀ i, pushes i c.world.log = (jobs i c.world.log).map some ++ [none] ∧
      c.world.log.filter (Event.byWorker i) =
        (jobs i c.world.log).flatMap (turn i) ++ [.pop i none] := by
    intro i
    have htoken : ∃ js : List ι, pushes i c.world.log = js.map some ++ [none] := by
      cases hsound.producing with
      | living hd _ _ => rw [hdying] at hd; cases hd
      | closing _ k is _ hk _ hpush =>
        rw [hcode] at hk
        have his : is = [] := List.map_eq_nil_iff.mp hk.symm
        obtain ⟨js, hjs⟩ := hpush i
        exact ⟨js, by rw [hjs, his]; rfl⟩
    obtain ⟨js, hjs⟩ := htoken
    have hjobs : jobs i c.world.log = js := jobs_of_pushes hjs rfl
    have hworking := hsound.working i
    rw [hcode] at hworking
    cases hworking with
    | gone done hlog hq =>
      rw [hjs] at hq
      obtain ⟨rfl, -⟩ := split_token hq.symm
      rw [hjobs]
      exact ⟨hjs, hlog⟩
  refine ⟨fun i => (hqueue i).2, fun i => (hqueue i).1, ?_⟩
  intro j
  have haccount := hsound.account j
  rw [Threads.weight_eq_zero hcode, Nat.add_zero, count_pushed] at haccount
  have hcount : ∀ p : Event n ι → Bool,
      (∀ x, p x = true → ∃ i, ∀ i', x.byWorker i' = decide (i' = i)) →
      (∀ i j', (turn i j').countP p = if j' = j then 1 else 0) → (∀ i, p (.pop i none) = false) →
      c.world.log.countP p = c.world.submitted.count (some j) := by
    intro p howner hturn htoken
    rw [countP_workers howner, ← haccount]
    apply Finset.sum_congr rfl
    intro i _
    rw [(hqueue i).2, (hqueue i).1, List.countP_append, countP_turns (hturn i),
      List.count_append, List.count_map_of_injective _ _ (Option.some_injective ι)]
    simp [htoken]
  refine ⟨hcount _ ?_ ?_ fun _ => rfl, hcount _ ?_ ?_ fun _ => rfl⟩
  · intro x hx
    cases x with
    | run tid job => exact ⟨tid, fun i => decide_eq_decide.mpr eq_comm⟩
    | _ => cases hx
  · intro i j'
    simp [turn, Event.runs, List.countP_cons]
  · intro x hx
    cases x with
    | delete tid job => exact ⟨tid, fun i => decide_eq_decide.mpr eq_comm⟩
    | _ => cases hx
  · intro i j'
    simp [turn, Event.deletes, List.countP_cons]

end Served

/-- Three workers and two jobs, for the first two of them.  The first worker looks before there
    is anything, and the second one is behind until the tokens are there. -/
def twoJobs : List (Act 3 Char Unit) :=
  [.exec (.inl 0) 0, .runAsync () (some 'a'), .exec (.inr ()) 0, .exec (.inr ()) 0,
    .exec (.inl 0) 0, .runAsync () (some 'b'), .exec (.inl 0) 0, .exec (.inr ()) 4,
    .exec (.inr ()) 0, .destroy (), .exec (.inr ()) 0, .exec (.inr ()) 0, .exec (.inr ()) 0,
    .exec (.inl 0) 0, .exec (.inl 1) 0, .exec (.inl 2) 0, .exec (.inl 0) 0, .exec (.inl 1) 0,
    .exec (.inl 1) 0, .exec (.inl 1) 0]

theorem runs_each_job_two : Served (afterMoves 3 Char Unit twoJobs).world :=
  runs_each_job (Run.of_moves (by decide)) (by decide)

end VncProxy.Utils
