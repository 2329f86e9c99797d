/-
  VncProxy.Proxy.Teardown

  One poll thread over enabled pairs, without the cleanup thread.  An entry of a
  batch may still be waiting when an earlier entry of the same batch has shut
  its pair down, and `enabled_` stays set.  The endpoint is not deleted before
  the batch is over, so nothing dangles; but its handlers run on a number that
  has been closed.  Everything is torn down exactly once in the runs in which
  that does not happen (`Fresh`).
-/
import VncProxy.Proxy.LifeFacts
import VncProxy.Proxy.Relay

namespace VncProxy.Proxy

open Lib (Threads)

-- ============================================================================
-- The property
-- ============================================================================

/-- A call of `read`, `write` or `close` on the number of this endpoint. -/
def Event.uses (e : Ep) : Event → Bool
  | .call x _ _ | .close x _ => x = e
  | _ => false

structure TornDownOnce (c : Config) : Prop where
  closes : ∀ e, c.world.trace.countP (Event.closes e) ≤ 1
  quiet : ∀ e, c.world.trace.Pairwise fun ev ev' => ev.closes e = true → ev'.uses e = false
  /-- no `verify(refcnt_ >= 0)` has failed -/
  verified : ∀ e, c.crashed ≠ some (.release e) ∧ c.crashed ≠ some (.drop e)
  alive : ∀ t i rest, c.code t = i :: rest → ∀ e ∈ touches c.world i, 0 < (c.world.ep e).refcnt

/-- `epoll_wait` only returns endpoints whose `tie_fd` has returned, and nobody
    calls `cleanup`. -/
def OnePoll (c : Config) : Act → Prop
  | .cleanup _ => False
  | .wait batch => ∀ entry ∈ batch, ∀ r ∈ c.world.kernel.table entry.1,
      c.code (.worker r.ptr.pair) = []
  | _ => True

instance (c : Config) : ∀ a, Decidable (OnePoll c a)
  | .cleanup _ => isFalse id
  | .wait batch => inferInstanceAs (Decidable (∀ entry ∈ batch, _))
  | .exec _ _ | .tieFd _ _ _ | .grab _ | .giveBack _ => isTrue trivial

/-- A handler of an enabled endpoint that its own shutdown has closed, with
    something to do. -/
def stale (w : World) : Instr → Bool
  | .handleRead e | .handleError e => (w.ep e).enabled && w.trace.any (Event.closes e)
  | .handleWrite e =>
    (w.ep e).enabled && !(w.ep e).buf.chunks.isEmpty && w.trace.any (Event.closes e)
  | _ => false

/-- No handler is run for an endpoint that an earlier entry of the batch has shut
    down. -/
def Fresh (c : Config) : Act → Prop
  | .exec t _ => ∀ i ∈ c.next t, stale c.world i = false
  | _ => True

instance (c : Config) : ∀ a, Decidable (Fresh c a)
  | .exec t _ => inferInstanceAs (Decidable (∀ i ∈ c.next t, _))
  | .wait _ | .tieFd _ _ _ | .cleanup _ | .grab _ | .giveBack _ => isTrue trivial

-- ============================================================================
-- Endpoints in the hands of the poll manager
-- ============================================================================

/-- The poll manager still holds its reference: the pollable is registered, on its
    way to the pending ones, or among them. -/
def InHand (c : Config) (e : Ep) : Prop :=
  e ∈ c.world.thread.pollSet ∨ .pend e ∈ c.code .poll ∨ e ∈ c.world.thread.pendingRemove

section Hand

variable {c : Config} {w : World} {o : Oracle} {i : Instr} {pre rest : List Instr} {e : Ep}

/-- The poll thread lets go of a pollable only when it takes the pending ones. -/
theorem InHand.exec_poll (h : InHand c e) (hw : Flow c.world) (hcode : c.code .poll = i :: rest)
    (hexec : exec o c.world i = some (w, pre)) (hi : i ≠ .swapPending) :
    InHand { c.load .poll (pre ++ rest) with world := w } e := by
  have hframe := exec_frame hw hexec
  have hload : ∀ j ∈ pre ++ rest,
      j ∈ (c.load .poll (pre ++ rest)).code .poll := by
    intro j hj
    rwa [Threads.load_code_self]
  rcases h with h | h | h
  · rcases hframe.pollSet e h with rfl | h'
    · rcases exec_remove.mp hexec with ⟨-, -, -, rfl⟩ | ⟨hnot, -⟩
      · exact Or.inr (Or.inl (hload _ List.mem_cons_self))
      · exact absurd h hnot
    · exact Or.inl h'
  · rw [hcode] at h
    rcases List.mem_cons.mp h with rfl | h
    · obtain ⟨rfl, -⟩ := Prod.mk.inj (Option.some.inj hexec)
      exact Or.inr (Or.inr List.mem_insert_self)
    · exact Or.inr (Or.inl (hload _ (List.mem_append_right _ h)))
  · exact Or.inr (Or.inr ((hframe.pending e h).resolve_left hi))

/-- A worker takes nothing out of the hands of the poll manager. -/
theorem InHand.exec_worker (h : InHand c e) (hw : Flow c.world) {p : Nat}
    (hexec : exec o c.world i = some (w, pre)) (hi : i ≠ .swapPending)
    (hrem : ∀ x, i ≠ .remove x) :
    InHand { c.load (.worker p) (pre ++ rest) with world := w } e := by
  have hframe := exec_frame hw hexec
  rcases h with h | h | h
  · exact Or.inl ((hframe.pollSet e h).resolve_left (hrem e))
  · refine Or.inr (Or.inl ?_)
    show _ ∈ (c.load (.worker p) (pre ++ rest)).code .poll
    rwa [Threads.load_code_of_ne _ (by simp)]
  · exact Or.inr (Or.inr ((hframe.pending e h).resolve_left hi))

end Hand

-- ============================================================================
-- What the ages say
-- ============================================================================

namespace Inv

variable {safe : Prop} {c : Config} {b d : Nat → Nat} {pj cj : List Nat} {tail : List Instr}
  {i : Instr} {rest : List Instr} {e : Ep}

/-- An endpoint in the hands of the poll manager has a reference. -/
theorem inHand_alive (h : Inv safe c b d pj cj tail) (he : InHand c e) :
    0 < (c.world.ep e).refcnt := by
  have ho := h.ages.ordered
  have halive : e ∈ (marks b d).taken → e ∉ (marks b d).pended →
      0 < (c.world.ep e).refcnt := by
    intro ht hp
    exact h.world.alive (h.world.born e (ho.taken_tied ht)) (Or.inr (Or.inl ⟨ht, hp⟩))
  rcases he with he | he | he
  · obtain ⟨hadd, hrem⟩ := (h.world.set.mem e).mp he
    exact halive (ho.added_taken hadd) fun hp => hrem (ho.pended_removed hp)
  · rw [h.poll] at he
    rcases List.mem_append.mp he with he | he
    · obtain ⟨p, hp, hin⟩ := List.mem_flatMap.mp he
      have hact := (h.active p).mp (List.mem_append_left _ hp)
      have hb : 8 ≤ b p := h.ages.built p hact.1
      have hage : e.pair = p ∧ d p < Side.pendAt e.side := by
        generalize d p = k at hin hact
        obtain ⟨h1, h14⟩ := hact
        interval_cases k <;> simp [downCode] at hin <;> subst hin <;>
          simp [Side.pendAt]
      obtain ⟨rfl, hlt⟩ := hage
      apply halive
      · show Side.refAt e.side ≤ b e.pair
        cases e.side <;> simp only [Side.refAt] <;> omega
      · exact Nat.not_le_of_lt hlt
    · rcases h.shape.mem_cases he with ⟨x, hx⟩ | hx | ⟨x, hx | hx⟩ <;> cases hx
  · have hp := h.world.pending.mem e he
    exact h.world.alive (h.world.born e (ho.taken_tied (ho.pended_taken hp)))
      (Or.inr (Or.inr (Or.inl he)))

end Inv

-- ============================================================================
-- The invariant
-- ============================================================================

/-- Between the shutdowns of a poll thread on its own, a pair is either shut down
    or not: what is left of a batch is about pairs that are built, and the poll
    manager holds both endpoints until the batch is over. -/
structure TeardownInv (c : Config) : Prop where
  ages : ∃ b d pj tail, Inv True c b d pj [] tail
  cleanup : c.code .cleanup = []
  io : ∀ i ∈ c.code .poll, ∀ e, i.io = some e →
    e.pair < c.world.pairs ∧ c.code (.worker e.pair) = [] ∧ InHand c e.other
  quiet : ∀ e, c.world.trace.Pairwise fun ev ev' => ev.closes e = true → ev'.uses e = false
  verified : ∀ e, c.crashed ≠ some (.release e) ∧ c.crashed ≠ some (.drop e)

namespace TeardownInv

variable {c c' : Config} {w : World} {o : Oracle} {i : Instr} {pre rest : List Instr} {t : Tid}

theorem start : TeardownInv Config.start := by
  refine ⟨⟨_, _, _, _, Inv.start⟩, rfl, ?_, ?_, ?_⟩
  · intro i hi
    cases hi
  · intro e
    exact List.Pairwise.nil
  · intro e
    simp [Config.start]

/-- An error is only handled for a pair that nobody has begun to shut down. -/
theorem calm (h : TeardownInv c) {a : Act} (hfresh : Fresh c a) : Calm c a := by
  obtain ⟨b, d, pj, tail, hinv⟩ := h.ages
  cases a with
  | exec t o =>
    constructor
    · intro e he hen
      obtain ⟨i, hi, hie⟩ := Option.bind_eq_some_iff.mp he
      obtain ⟨rest, hcode⟩ := List.head?_eq_some_iff.mp hi
      obtain rfl : i = .handleError e := by
        cases i <;> simp_all [Instr.errorOn]
      obtain ⟨rfl, rfl, rfl⟩ := hinv.io_poll hcode rfl
      obtain ⟨hpair, hworker, -⟩ := h.io _ (hcode ▸ List.mem_cons_self) e rfl
      have hstale := hfresh _ hi
      simp only [stale, hen, Bool.true_and] at hstale
      have hopen : e ∉ (marks b d).closed := by
        rw [← hinv.closed_iff, hstale]
        simp
      have hzero : d e.pair = 0 := by
        have hact := (hinv.active e.pair).not.mp (by simp)
        have hle := hinv.ages.down_le e.pair
        have hlt : ¬ Side.closeAt e.side ≤ d e.pair := hopen
        cases hs : e.side <;> rw [hs] at hlt <;> simp only [Side.closeAt] at hlt <;> omega
      exact ⟨hworker, hinv.undecided_iff.mpr hzero⟩
    · intro v hv
      obtain ⟨i, hi, hiv⟩ := Option.bind_eq_some_iff.mp hv
      obtain ⟨rest, hcode⟩ := List.head?_eq_some_iff.mp hi
      obtain rfl : i = .collect v := by
        cases i <;> simp_all [Instr.collects]
      exfalso
      rw [hinv.collect_cleanup hcode, h.cleanup] at hcode
      cases hcode
  | _ => trivial

theorem dropOk (h : TeardownInv c) (a : Act) : DropOk c a := by
  cases a with
  | exec t o =>
    intro _ e _ _ i hi
    rw [h.cleanup] at hi
    cases hi
  | _ => trivial

/-- No thread dereferences an endpoint without references. -/
theorem alive (h : TeardownInv c) (hcode : c.code t = i :: rest) :
    ∀ e ∈ touches c.world i, 0 < (c.world.ep e).refcnt := by
  obtain ⟨b, d, pj, tail, hinv⟩ := h.ages
  cases hi : i.io with
  | none => exact hinv.section_alive hcode hi
  | some e =>
    obtain ⟨rfl, rfl, rfl⟩ := hinv.io_poll hcode hi
    obtain ⟨hpair, -, hother⟩ := h.io i (hcode ▸ List.mem_cons_self) e hi
    have hself : 0 < (c.world.ep e).refcnt := by
      rcases hinv.shape.cases_cons with ⟨rfl, -⟩ | ⟨x, io, hx, -, hreg, hkept, -⟩ |
        ⟨x, rs, rfl, -⟩ | ⟨x, rs, rfl, -⟩
      · cases hi
      · obtain rfl := Option.some.inj (hi.symm.trans hx)
        have ho := hinv.ages.ordered
        exact hinv.world.alive hpair (Or.inr (hkept.imp
          (fun hp => ⟨ho.added_taken (ho.registered_added hreg), hp⟩) Or.inl))
      · cases hi
      · cases hi
    have hpeer : ∀ x ∈ (c.world.ep e).peer.toList, 0 < (c.world.ep x).refcnt := by
      intro x hx
      rcases hinv.world.flow.peer e with hp | hp
      · simp [hp] at hx
      · simp only [hp, Option.toList_some, List.mem_singleton] at hx
        exact hx ▸ hinv.inHand_alive hother
    intro x hx
    cases i with
    | event y ev => cases hx
    | handleRead y | handleError y =>
      obtain rfl := Option.some.inj hi
      rcases List.mem_cons.mp hx with rfl | hx
      · exact hself
      · split at hx
        · exact hpeer x hx
        · cases hx
    | handleWrite y =>
      obtain rfl := Option.some.inj hi
      exact List.mem_singleton.mp hx ▸ hself
    | _ => cases hi

/-- Nothing in the trace after the close of an endpoint uses its descriptor. -/
theorem exec_quiet (h : TeardownInv c) (hfresh : Fresh c (.exec t o)) (hcode : c.code t = i :: rest)
    (hexec : exec o c.world i = some (w, pre)) (e : Ep) :
    w.trace.Pairwise fun ev ev' => ev.closes e = true → ev'.uses e = false := by
  obtain ⟨b, d, pj, tail, hinv⟩ := h.ages
  obtain ⟨evs, htrace, hfrom⟩ := (exec_frame hinv.world.flow hexec).trace
  have hnext : i ∈ c.next t := by
    rw [Config.next, hcode]
    rfl
  have hold : ∀ ev ∈ c.world.trace, ev.closes e = true → c.world.trace.any (Event.closes e) = true :=
    fun ev hev hcl => List.any_eq_true.mpr ⟨ev, hev, hcl⟩
  -- the handlers of an endpoint that is closed make no calls
  have hcall : ∀ n call, .call e n call ∈ evs → c.world.trace.any (Event.closes e) = false := by
    intro n call hmem
    by_contra hany
    rw [Bool.not_eq_false] at hany
    have hstale := hfresh i hnext
    have hnil : c.world.trace = c.world.trace ++ evs → False := by
      intro heq
      rw [List.self_eq_append_right.mp heq] at hmem
      cases hmem
    rcases hfrom _ hmem with rfl | rfl
    · simp only [stale, hany, Bool.and_true] at hstale
      have hr := (exec_handleRead.mp hexec).1
      rw [World.handleRead_disabled hstale] at hr
      exact hnil (Option.some.inj hr ▸ htrace)
    · simp only [stale, hany, Bool.and_true, Bool.and_eq_false_imp, Bool.not_eq_false',
        List.isEmpty_iff] at hstale
      have hr := (exec_handleWrite.mp hexec).1
      cases hen : (c.world.ep e).enabled with
      | false =>
        rw [World.handleWrite_disabled hen] at hr
        exact hnil (Option.some.inj hr ▸ htrace)
      | true =>
        obtain ⟨calls, buf, hwr, heq⟩ := World.handleWrite_eq hen (hinv.world.flow.bufs e) o.accepts
        obtain rfl := hwr.idle (hstale hen)
        rw [heq] at hr
        rcases World.updateMode_cases hr with ⟨rfl, -⟩ | ⟨oldMode, rfl, -⟩
        · rw [World.transferred_trace, List.append_cancel_left_eq] at htrace
          subst htrace
          cases hmem
        · rw [World.rearmed_trace, World.transferred_trace, List.append_assoc,
            List.append_cancel_left_eq] at htrace
          subst htrace
          simp at hmem
  have hclose : ∀ n, .close e n ∈ evs → c.world.trace.any (Event.closes e) = false := by
    intro n hmem
    have hi : i = .close e := hfrom _ hmem
    subst hi
    have hopen := hinv.close_fresh hcode
    rw [← hinv.closed_iff] at hopen
    simpa using hopen
  rw [htrace]
  apply List.pairwise_append.mpr
  refine ⟨h.quiet e, ?_, ?_⟩
  · by_cases hi : i = .close e
    · subst hi
      obtain ⟨rfl, -⟩ := Prod.mk.inj (Option.some.inj hexec)
      rw [World.emit_trace, List.append_cancel_left_eq] at htrace
      subst htrace
      exact List.pairwise_singleton _ _
    · apply List.pairwise_of_forall_mem_list
      intro ev hev ev' _ hcl
      cases ev with
      | close x n =>
        obtain rfl : x = e := by simpa [Event.closes] using hcl
        exact absurd (hfrom _ hev) hi
      | call | ctl | shutdown => cases hcl
  · intro ev hev ev' hev' hcl
    have hany := hold ev hev hcl
    cases hu : ev'.uses e with
    | false => rfl
    | true =>
      exfalso
      cases ev' with
      | call x n call =>
        obtain rfl : x = e := by simpa [Event.uses] using hu
        rw [hcall n call hev'] at hany
        cases hany
      | close x n =>
        obtain rfl : x = e := by simpa [Event.uses] using hu
        rw [hclose n hev'] at hany
        cases hany
      | ctl | shutdown => cases hu

/-- What is left of the batch after a section of the poll thread. -/
theorem exec_poll_io (h : TeardownInv c) (hcode : c.code .poll = i :: rest)
    (hexec : exec o c.world i = some (w, pre)) :
    ∀ j ∈ pre ++ rest, ∀ e, j.io = some e → e.pair < w.pairs ∧ c.code (.worker e.pair) = [] ∧
      InHand { c.load .poll (pre ++ rest) with world := w } e.other := by
  obtain ⟨b, d, pj, tail, hinv⟩ := h.ages
  have hframe := exec_frame hinv.world.flow hexec
  have hin : i ∈ c.code .poll := hcode ▸ List.mem_cons_self
  have hsource : ∀ j ∈ pre ++ rest, ∀ e, j.io = some e →
      ∃ k ∈ c.code .poll, k.io = some e := by
    intro j hj e hje
    rcases List.mem_append.mp hj with hj | hj
    · exact ⟨i, hin, (exec_pre hexec j hj).2.2 e hje⟩
    · exact ⟨j, hcode ▸ List.mem_cons_of_mem _ hj, hje⟩
  intro j hj e hje
  obtain ⟨k, hk, hke⟩ := hsource j hj e hje
  obtain ⟨hpair, hworker, hother⟩ := h.io k hk e hke
  refine ⟨hframe.pairs ▸ hpair, hworker, ?_⟩
  apply hother.exec_poll hinv.world.flow hcode hexec
  -- the removal pass begins when the batch is over
  rintro rfl
  obtain ⟨rfl, removePoll, -, rfl⟩ := exec_swapPending hexec
  rcases hinv.next_cases hcode with ⟨p, key, ht, -⟩ | ⟨p, hp, is, hdown, -⟩ | ⟨-, rfl, rfl⟩ |
    ⟨ht, -⟩
  · cases ht
  · unfold downCode at hdown
    split at hdown <;> cases hdown
  · rcases hinv.shape.cases_cons with ⟨-, rfl⟩ | ⟨x, io, hx, -⟩ | ⟨x, rs, hx, -⟩ | ⟨x, rs, hx, -⟩
    · rw [List.append_nil] at hj
      obtain ⟨x, -, hx⟩ := List.mem_flatMap.mp hj
      rcases List.mem_pair.mp hx with rfl | rfl <;> cases hje
    · cases hx
    · cases hx
    · cases hx
  · cases ht

theorem exec_step (h : TeardownInv c) (hfresh : Fresh c (.exec t o))
    (hs : Proxy.step (.exec t o) c = some c') : TeardownInv c' := by
  obtain ⟨b, d, pj, tail, hinv⟩ := h.ages
  obtain ⟨b', d', pj', cj', tail', hinv'⟩ :=
    hinv.step (h.calm hfresh).mild (fun _ => h.calm hfresh) (fun _ => h.dropOk _) hs
  obtain ⟨i, rest, -, hcode, ⟨hnone, rfl⟩ | ⟨w, pre, hexec, rfl⟩⟩ := Threads.run_cases hs
  · refine ⟨⟨b', d', pj', tail', hinv'.cleanup_nil h.cleanup ▸ hinv'⟩, h.cleanup, h.io, h.quiet, ?_⟩
    -- the check in `release` does not fail: whom it releases has a reference
    intro e
    have hpos : e ∈ touches c.world i → 0 < (c.world.ep e).refcnt := h.alive hcode e
    constructor <;> intro hi <;> obtain rfl := Option.some.inj hi <;>
      · have hrel := (exec_release (o := o) (w := c.world) (e := e)).mpr
          ⟨hpos List.mem_cons_self, rfl, rfl⟩
        change exec o c.world (.release e) = none at hnone
        rw [hrel] at hnone
        cases hnone
  have ht : t ≠ .cleanup := by
    rintro rfl
    rw [h.cleanup] at hcode
    cases hcode
  have hcleanup : (c.load t (pre ++ rest)).code .cleanup = [] := by
    rw [Threads.load_code_of_ne _ ht.symm]
    exact h.cleanup
  refine ⟨⟨b', d', pj', tail', hinv'.cleanup_nil hcleanup ▸ hinv'⟩, hcleanup, ?_,
    h.exec_quiet hfresh hcode hexec, h.verified⟩
  cases t with
  | cleanup => exact absurd rfl ht
  | poll =>
    intro j hj e hje
    change j ∈ (c.load .poll (pre ++ rest)).code .poll at hj
    rw [Threads.load_code_self] at hj
    obtain ⟨hpair, hworker, hother⟩ := h.exec_poll_io hcode hexec j hj e hje
    refine ⟨hpair, ?_, hother⟩
    show (c.load .poll (pre ++ rest)).code (.worker e.pair) = []
    rwa [Threads.load_code_of_ne _ (by simp)]
  | worker p =>
    have hin : ∃ key, i ∈ tieFd p key := by
      rcases hinv.next_cases hcode with ⟨q, key, hq, -, hin⟩ | ⟨q, -, is, -, hq⟩ |
        ⟨hq, -⟩ | ⟨hq, -⟩
      · exact ⟨key, Tid.worker.inj hq ▸ hin⟩
      · exact absurd rfl (hq p)
      · cases hq
      · cases hq
    obtain ⟨key, hin⟩ := hin
    intro j hj e hje
    change j ∈ (c.load (.worker p) (pre ++ rest)).code .poll at hj
    rw [Threads.load_code_of_ne _ (by simp)] at hj
    obtain ⟨hpair, hworker, hother⟩ := h.io j hj e hje
    refine ⟨(exec_frame hinv.world.flow hexec).pairs ▸ hpair, ?_, ?_⟩
    · show (c.load (.worker p) (pre ++ rest)).code (.worker e.pair) = []
      by_cases hp : e.pair = p
      · rw [hp, hcode] at hworker
        cases hworker
      · rwa [Threads.load_code_of_ne _ (by simpa using hp)]
    · apply hother.exec_worker hinv.world.flow hexec
      · rintro rfl
        simp [tieFd] at hin
      · rintro x rfl
        simp [tieFd] at hin

/-- A batch is about pairs that are built, and between batches no shutdown is under
    way: both endpoints of such a pair are registered. -/
theorem wait_step {batch : List (Nat × Events)} (h : TeardownInv c)
    (hone : OnePoll c (.wait batch)) (hs : Proxy.step (.wait batch) c = some c') :
    TeardownInv c' := by
  obtain ⟨b, d, pj, tail, hinv⟩ := h.ages
  obtain ⟨tail', hinv'⟩ := hinv.wait_step hs
  simp only [Proxy.step] at hs
  split at hs
  · rename_i hguard
    obtain ⟨is, his, rfl⟩ := Option.map_eq_some_iff.mp hs
    obtain ⟨rfl, rfl⟩ := hinv.poll_nil hguard.2.1
    have ho := hinv.ages.ordered
    refine ⟨⟨b, d, [], tail', hinv'⟩, ?_, ?_, h.quiet, h.verified⟩
    · rw [Threads.load_code_of_ne _ (by simp)]
      exact h.cleanup
    have hptr : ∀ n r, c.world.kernel.table n = some r → c.code (.worker r.ptr.pair) = [] →
        r.ptr.pair < c.world.pairs ∧ r.ptr.other ∈ c.world.thread.pollSet := by
      intro n r hr hworker
      obtain ⟨-, hreg, hcl⟩ := hinv.world.table.sound n r hr
      have hpair := hinv.world.born _ (ho.taken_tied (ho.added_taken (ho.registered_added hreg)))
      have hb := hinv.built hpair hworker
      have hzero : d r.ptr.pair = 0 := by
        have hact := (hinv.active r.ptr.pair).not.mp (by simp)
        have hle := hinv.ages.down_le r.ptr.pair
        have hlt : ¬ Side.closeAt r.ptr.side ≤ d r.ptr.pair := hcl
        cases hside : r.ptr.side <;> rw [hside] at hlt <;> simp only [Side.closeAt] at hlt <;> omega
      refine ⟨hpair, (hinv.world.set.mem _).mpr ⟨?_, ?_⟩⟩
      · show Side.addAt _ ≤ b r.ptr.pair
        rw [hb]
        cases r.ptr.other.side <;> decide
      · show ¬ Side.removeAt _ ≤ d r.ptr.pair
        rw [hzero]
        cases r.ptr.other.side <;> decide
    intro j hj e hje
    rw [Threads.load_code_self] at hj
    rw [Threads.load_code_of_ne _ (by simp)]
    rcases List.mem_append.mp hj with hj | hj
    · obtain ⟨entry, hentry, r, hr, rfl⟩ := mem_entries his hj
      obtain rfl := Option.some.inj hje
      have hworker := hone entry hentry r hr
      obtain ⟨hpair, hset⟩ := hptr _ r hr hworker
      exact ⟨hpair, hworker, Or.inl hset⟩
    · rw [List.mem_singleton.mp hj] at hje
      cases hje
  · cases hs

theorem step {a : Act} (h : TeardownInv c) (hone : OnePoll c a) (hfresh : Fresh c a)
    (hs : Proxy.step a c = some c') : TeardownInv c' := by
  obtain ⟨b, d, pj, tail, hinv⟩ := h.ages
  cases a with
  | exec t o => exact h.exec_step hfresh hs
  | wait batch => exact h.wait_step hone hs
  | cleanup valid => exact hone.elim
  | tieFd key fd1 fd2 =>
    have hinv' := hinv.tieFd_step hs
    simp only [Proxy.step] at hs
    split at hs
    · obtain rfl := Option.some.inj hs
      refine ⟨⟨b, d, pj, tail, hinv'⟩, ?_, ?_, h.quiet, h.verified⟩
      · show (c.load (.worker c.world.pairs) (tieFd c.world.pairs key)).code .cleanup = []
        rw [Threads.load_code_of_ne _ (by simp)]
        exact h.cleanup
      · intro j hj e hje
        change j ∈ (c.load (.worker c.world.pairs) (tieFd c.world.pairs key)).code .poll at hj
        rw [Threads.load_code_of_ne _ (by simp)] at hj
        obtain ⟨hpair, hworker, hother⟩ := h.io j hj e hje
        refine ⟨Nat.lt_succ_of_lt hpair, ?_, ?_⟩
        · show (c.load (.worker c.world.pairs) (tieFd c.world.pairs key)).code (.worker e.pair) = []
          rw [Threads.load_code_of_ne _ (by simp; omega)]
          exact hworker
        · exact hother
    · cases hs
  | grab fd | giveBack fd =>
    obtain ⟨b', d', pj', cj', tail', hinv'⟩ :=
      hinv.step (h.calm hfresh).mild (fun _ => h.calm hfresh) (fun _ => h.dropOk _) hs
    simp only [Proxy.step] at hs
    split at hs
    · obtain rfl := Option.some.inj hs
      exact ⟨⟨b', d', pj', tail', hinv'.cleanup_nil h.cleanup ▸ hinv'⟩, h.cleanup, h.io, h.quiet,
        h.verified⟩
    · cases hs

end TeardownInv

-- ============================================================================
-- The theorem
-- ============================================================================

/-- In every run in which no handler meets an endpoint that has been shut down,
    every endpoint is torn down exactly once. -/
theorem torn_down_once {c : Config} (h : Run (fun c a => OnePoll c a ∧ Fresh c a) c) :
    TornDownOnce c := by
  have hinv : TeardownInv c := by
    refine Lib.Reach.invariant (I := TeardownInv) ?_ ?_ h
    · rintro _ rfl
      exact TeardownInv.start
    · rintro s s' - hs ⟨a, ⟨hone, hfresh⟩, hstep⟩
      exact hs.step hone hfresh hstep
  obtain ⟨b, d, pj, tail, hages⟩ := hinv.ages
  exact ⟨hages.close_once, hinv.quiet, hinv.verified, fun t i rest => hinv.alive⟩

def tornDownEnd : Config :=
  Lib.lastState (fun a c => if OnePoll c a ∧ Fresh c a then step a c else none)
    (tieActs [97] 3 4 ++ teardownActs) Config.start

theorem torn_down_once_hang_up : TornDownOnce tornDownEnd := by
  apply torn_down_once
  apply Run.of_acts
  exact Lib.runActs_eq_lastState (by decide +kernel)

/-- Both sockets of a pair hang up in one batch: the event of the second is handled
    when the event of the first has shut the pair down. -/
def doubleHangUpActs : List Act :=
  tieActs [97] 3 4 ++ [.wait [(3, hangUp), (4, hangUp)]] ++
    List.replicate 20 (.exec .poll .idle)

@[irreducible] def doubleHangUpEnd : Config :=
  Lib.lastState (fun a c => if OnePoll c a then step a c else none) doubleHangUpActs Config.start

theorem doubleHangUpEnd_eq : doubleHangUpEnd = Lib.lastState
    (fun a c => if OnePoll c a then step a c else none) doubleHangUpActs Config.start := by
  unfold doubleHangUpEnd
  rfl

/-- The leader closes its descriptor twice. -/
theorem torn_down_twice : ¬ ∀ c, Run OnePoll c → TornDownOnce c := by
  intro h
  have hrun : Run OnePoll doubleHangUpEnd :=
    Run.of_acts (doubleHangUpEnd_eq ▸ Lib.runActs_eq_lastState (by decide +kernel))
  have htwice : doubleHangUpEnd.world.trace.countP (Event.closes ⟨0, .first⟩) = 2 := by
    decide +kernel
  have honce := (h _ hrun).closes ⟨0, .first⟩
  rw [htwice] at honce
  exact absurd honce (by decide)

end VncProxy.Proxy
