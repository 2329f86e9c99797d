/-
  VncProxy.Proxy.LifeFacts

  What the invariant of the threads says: who is still alive, what a thread can run
  next, what the trace tells about the ages, and who can decide on a shutdown.
-/
import VncProxy.Proxy.LifeCycle

namespace VncProxy.Proxy

open Lib (Threads)
open Polling

-- ============================================================================
-- Who is still alive
-- ============================================================================

/-- An endpoint with a reference left has a positive count. -/
theorem WorldInv.alive {w : World} {m : Marks} {ds : List Ep} {e : Ep} (h : WorldInv w m ds)
    (he : e.pair < w.pairs)
    (href : e ∉ m.released ∨ (e ∈ m.taken ∧ e ∉ m.pended) ∨ e ∈ w.thread.pendingRemove ∨ e ∈ ds) :
    0 < (w.ep e).refcnt := by
  have hcount := h.refs e he
  unfold World.refcnt at hcount
  rw [hcount]
  rcases href with hr | hr | hr | hr
  · rw [ind_pos hr]
    omega
  · rw [ind_pos (p := e ∈ m.taken ∧ e ∉ m.pended) hr]
    omega
  · have hpos := List.count_pos_iff.mpr hr
    omega
  · have hpos := List.count_pos_iff.mpr hr
    omega

namespace Inv

variable {safe : Prop} {c : Config} {b d : Nat → Nat} {pj cj : List Nat} {tail : List Instr}
  {i : Instr} {rest : List Instr}

/-- A worker that has a section of its `tie_fd` to run: nobody shuts the pair down,
    unless `ep2->ready()` is all that is left. -/
theorem worker_fresh (h : Inv safe c b d pj cj tail) {p : Nat}
    (hcode : c.code (.worker p) = i :: rest) :
    ∃ key, p < c.world.pairs ∧ (tieFd p key).drop (b p) = i :: rest ∧ b p < 9 ∧
      (b p < 8 → d p = 0) := by
  have hp : p < c.world.pairs := by
    by_contra hge
    rw [h.free p (Nat.not_lt.mp hge)] at hcode
    cases hcode
  obtain ⟨key, hkey⟩ := h.workers p hp
  rw [hcode] at hkey
  have hlt : b p < 9 := by
    by_contra hge
    have hlen : (tieFd p key).length ≤ b p := Nat.not_lt.mp hge
    rw [List.drop_of_length_le hlen] at hkey
    cases hkey
  refine ⟨key, hp, hkey.symm, hlt, ?_⟩
  intro hyoung
  by_contra hne
  have hbuilt := h.ages.built p (by omega)
  omega

/-- A section of `tie_fd` only meets its own pair, which nobody shuts down. -/
theorem worker_alive (h : Inv True c b d pj cj tail) {p : Nat}
    (hcode : c.code (.worker p) = i :: rest) :
    ∀ e ∈ touches c.world i, 0 < (c.world.ep e).refcnt := by
  obtain ⟨key, hp, hkey, hlt, -⟩ := h.worker_fresh hcode
  have hd : d p = 0 := by
    by_contra hne
    have h9 := h.returned trivial p (by omega)
    omega
  have hown : ∀ s, 0 < (c.world.ep ⟨p, s⟩).refcnt := by
    intro s
    apply h.world.alive hp
    left
    show ¬ Side.releaseAt s ≤ d p
    rw [hd]
    cases s <;> decide
  generalize b p = k at hkey hlt
  intro e he
  interval_cases k <;> obtain ⟨rfl, -⟩ := List.cons.inj hkey <;> simp only [touches] at he
  · rcases List.mem_pair.mp he with rfl | rfl <;> exact hown _
  · exact List.mem_singleton.mp he ▸ hown _
  · exact List.mem_singleton.mp he ▸ hown _
  · cases he
  · exact List.mem_singleton.mp he ▸ hown _
  · exact List.mem_singleton.mp he ▸ hown _
  · cases he
  · exact List.mem_singleton.mp he ▸ hown _
  · exact List.mem_singleton.mp he ▸ hown _

/-- A section of a shutdown meets the leader before its last release, and the peer
    before its own, except for the log line. -/
theorem down_alive (h : Inv True c b d pj cj tail) {p : Nat} {is : List Instr}
    (hp : p ∈ pj ++ cj) (hdown : downCode p (d p) = i :: is) :
    ∀ e ∈ touches c.world i, 0 < (c.world.ep e).refcnt := by
  obtain ⟨h1, h14⟩ := downCode_cons hdown
  have hb : b p = 9 := h.returned trivial p h1
  have hborn : p < c.world.pairs := h.ages.born p (by omega)
  have hpeer : ∀ s, (c.world.ep ⟨p, s⟩).peer = some (Ep.other ⟨p, s⟩) ∧
      ((c.world.ep ⟨p, s⟩).leader = true ↔ s = .first) := by
    intro s
    exact (h.world.tie ⟨p, s⟩).1 (by cases s <;> simp [marks, Side.tieAt, hb])
  have hfirst : 0 < (c.world.ep ⟨p, .first⟩).refcnt := by
    apply h.world.alive hborn
    left
    show ¬ 15 ≤ d p
    omega
  have hsecond : d p ≤ 13 → 0 < (c.world.ep ⟨p, .second⟩).refcnt := by
    intro hle
    apply h.world.alive hborn
    right
    rcases h.held trivial p hp hle with (hk | hk) | hk
    · left
      refine ⟨?_, hk⟩
      show Side.refAt .second ≤ b p
      rw [hb]
      decide
    · exact Or.inr (Or.inl hk)
    · exact Or.inr (Or.inr hk)
  have hleader : (c.world.ep ⟨p, .first⟩).leader = true := (hpeer .first).2.mpr rfl
  have hfollower : (c.world.ep ⟨p, .second⟩).leader = false := by
    cases hl : (c.world.ep ⟨p, .second⟩).leader with
    | false => rfl
    | true => exact absurd ((hpeer .second).2.mp hl) (by decide)
  generalize d p = k at hdown h1 h14 hsecond
  intro e he
  interval_cases k <;> obtain ⟨rfl, -⟩ := List.cons.inj hdown <;>
    simp only [touches, hleader, hfollower, (hpeer .first).1, if_true, Bool.false_eq_true, if_false,
      Option.toList, List.mem_cons, List.not_mem_nil, or_false] at he
  · exact he ▸ hfirst
  · exact he ▸ hfirst
  · exact he ▸ hfirst
  · rcases he with rfl | rfl
    · exact hfirst
    · exact hsecond (by decide)
  · exact he ▸ hsecond (by decide)
  · exact he ▸ hsecond (by decide)
  · exact he ▸ hsecond (by decide)
  · exact he ▸ hsecond (by decide)
  · exact he ▸ hsecond (by decide)
  · exact he ▸ hfirst
  · rcases he with rfl | rfl
    · exact hfirst
    · exact hsecond (by decide)
  · exact he ▸ hfirst

/-- What a thread runs next: a section of its `tie_fd`, a section of a shutdown, the
    rest of what the poll thread has to do, or the collection of `cleanup`. -/
theorem next_cases (h : Inv safe c b d pj cj tail) {t : Tid} (hcode : c.code t = i :: rest) :
    (∃ p key, t = .worker p ∧ p < c.world.pairs ∧ i ∈ tieFd p key) ∨
      (∃ p ∈ pj ++ cj, ∃ is, downCode p (d p) = i :: is ∧ ∀ q, t ≠ .worker q) ∨
      (t = .poll ∧ pj = [] ∧ tail = i :: rest) ∨
      (t = .cleanup ∧ cj = [] ∧ ∃ valid, i = .collect valid) := by
  cases t with
  | worker p =>
    obtain ⟨key, hp, hkey, -, -⟩ := h.worker_fresh hcode
    exact Or.inl ⟨p, key, rfl, hp, List.mem_of_mem_drop (hkey ▸ List.mem_cons_self)⟩
  | poll =>
    have hpoll := h.poll
    rw [hcode] at hpoll
    rcases jobs_head (fun q hq => (h.active q).mp (List.mem_append_left _ hq)) hpoll.symm with
      ⟨hpj, htail⟩ | ⟨p, ps, is, rfl, hdown, -⟩
    · exact Or.inr (Or.inr (Or.inl ⟨rfl, hpj, htail⟩))
    · exact Or.inr (Or.inl ⟨p, by simp, is, hdown, by simp⟩)
  | cleanup =>
    rcases h.cleanup with hc | ⟨rfl, v, hc⟩
    · rw [hc, ← List.append_nil (jobs d cj)] at hcode
      rcases jobs_head (fun q hq => (h.active q).mp (List.mem_append_right _ hq)) hcode with
        ⟨-, hnil⟩ | ⟨p, ps, is, rfl, hdown, -⟩
      · cases hnil
      · exact Or.inr (Or.inl ⟨p, by simp, is, hdown, by simp⟩)
    · rw [hc] at hcode
      exact Or.inr (Or.inr (Or.inr ⟨rfl, rfl, v, (List.cons.inj hcode).1.symm⟩))

/-- A handler is only run by the poll thread, and then no shutdown is under way. -/
theorem io_poll (h : Inv safe c b d pj cj tail) {t : Tid} {e : Ep} (hcode : c.code t = i :: rest)
    (hi : i.io = some e) : t = .poll ∧ pj = [] ∧ tail = i :: rest := by
  rcases h.next_cases hcode with ⟨p, key, rfl, hp, hin⟩ | ⟨p, hp, is, hdown, -⟩ | hpoll |
    ⟨rfl, rfl, v, rfl⟩
  · simp only [tieFd, List.mem_cons, List.not_mem_nil, or_false] at hin
    rcases hin with rfl | rfl | rfl | rfl | rfl | rfl | rfl | rfl | rfl <;> cases hi
  · exfalso
    unfold downCode at hdown
    split at hdown <;> first | (obtain ⟨rfl, -⟩ := List.cons.inj hdown; cases hi) | cases hdown
  · exact hpoll
  · cases hi

/-- Only the cleanup thread collects. -/
theorem collect_cleanup (h : Inv safe c b d pj cj tail) {t : Tid} {valid : List Key}
    (hcode : c.code t = .collect valid :: rest) : t = .cleanup := by
  rcases h.next_cases hcode with ⟨p, key, rfl, hp, hin⟩ | ⟨p, hp, is, hdown, -⟩ | ⟨rfl, rfl, rfl⟩ |
    ⟨rfl, -⟩
  · simp [tieFd] at hin
  · unfold downCode at hdown
    split at hdown <;> cases hdown
  · rcases h.shape.mem_cases List.mem_cons_self with ⟨x, hx⟩ | hx | ⟨x, hx | hx⟩ <;> cases hx
  · rfl

/-- What the removal pass has left to drop is alive. -/
theorem drops_alive (h : Inv safe c b d pj cj tail) {e : Ep} (he : e ∈ drops tail) :
    0 < (c.world.ep e).refcnt := by
  have ho := h.ages.ordered
  have htied := ho.taken_tied (ho.pended_taken (h.dropped e he))
  exact h.world.alive (h.world.born e htied) (Or.inr (Or.inr (Or.inr he)))

/-- Every section but a handler only meets endpoints that are alive. -/
theorem section_alive (h : Inv True c b d pj cj tail) {t : Tid} (hcode : c.code t = i :: rest)
    (hio : i.io = none) : ∀ e ∈ touches c.world i, 0 < (c.world.ep e).refcnt := by
  rcases h.next_cases hcode with ⟨p, key, rfl, -⟩ | ⟨p, hp, is, hdown, -⟩ |
    ⟨rfl, rfl, rfl⟩ | ⟨rfl, rfl, v, rfl⟩
  · exact h.worker_alive hcode
  · exact h.down_alive hp hdown
  · rcases h.shape.cases_cons with ⟨rfl, -⟩ | ⟨e, io, hi, -⟩ | ⟨e, rs, rfl, rfl⟩ |
      ⟨e, rs, rfl, rfl⟩
    · intro e he
      cases he
    · rw [hio] at hi
      cases hi
    · intro x hx
      rw [List.mem_singleton.mp hx]
      exact h.drops_alive (by simp [drops, dropOf])
    · intro x hx
      rw [List.mem_singleton.mp hx]
      exact h.drops_alive (by simp [drops, dropOf])
  · intro e he
    cases he

/-- The trace tells which endpoints are closed. -/
theorem closed_iff (h : Inv safe c b d pj cj tail) {e : Ep} :
    c.world.trace.any (Event.closes e) = true ↔ e ∈ (marks b d).closed := by
  have hcount := h.world.trace.closes e
  rw [List.any_eq_true, ← List.countP_pos_iff, hcount]
  by_cases he : e ∈ (marks b d).closed
  · simp [he]
  · simp [he]

/-- The trace tells which pairs have begun to be shut down. -/
theorem begun_iff (h : Inv safe c b d pj cj tail) {p : Nat} :
    .shutdown ⟨p, .first⟩ ∈ c.world.trace ↔ 2 ≤ d p := by
  rw [← List.count_pos_iff, h.world.trace.shutdowns]
  by_cases he : (⟨p, .first⟩ : Ep) ∈ (marks b d).begun
  · rw [ind_pos he]
    exact ⟨fun _ => he, fun _ => Nat.one_pos⟩
  · rw [ind_neg he]
    exact ⟨fun h0 => absurd h0 (Nat.lt_irrefl 0), fun h2 => absurd h2 he⟩

theorem standing_iff (h : Inv safe c b d pj cj tail) {e : Ep} :
    Standing c.world e ↔ d e.pair < 2 := by
  rw [Standing, h.begun_iff, not_le]

theorem standing_open (h : Inv safe c b d pj cj tail) {e : Ep} (he : Standing c.world e) :
    e ∉ (marks b d).closed ∧ e ∉ (marks b d).removed := by
  have hlt := h.standing_iff.mp he
  constructor
  · show ¬ Side.closeAt e.side ≤ d e.pair
    cases e.side <;> simp only [Side.closeAt] <;> omega
  · show ¬ Side.removeAt e.side ≤ d e.pair
    cases e.side <;> simp only [Side.removeAt] <;> omega

/-- Two sections of a shutdown are only reached when it has begun. -/
theorem next_down (h : Inv safe c b d pj cj tail) {t : Tid} {e : Ep}
    (hcode : c.code t = i :: rest) (hi : i = .close e ∨ i = .remove e) :
    ¬ Standing c.world e ∧ e.pair < c.world.pairs := by
  rw [h.standing_iff]
  rcases h.next_cases hcode with ⟨p, key, rfl, hp, hin⟩ | ⟨p, hp, is, hdown, -⟩ | ⟨rfl, rfl, rfl⟩ |
    ⟨rfl, rfl, v, rfl⟩
  · rcases hi with rfl | rfl <;> simp [tieFd] at hin
  · obtain ⟨h1, h14⟩ := downCode_cons hdown
    have hb : 8 ≤ b p := h.ages.built p h1
    have hborn : p < c.world.pairs := h.ages.born p (by omega)
    generalize hk : d p = k at hdown h1 h14
    interval_cases k <;> obtain ⟨rfl, -⟩ := List.cons.inj hdown <;>
      rcases hi with hi | hi <;> cases hi <;> simp [hk, hborn]
  · rcases h.shape.mem_cases List.mem_cons_self with ⟨x, hx⟩ | rfl | ⟨x, rfl | rfl⟩
    · rcases hi with rfl | rfl <;> cases hx
    all_goals rcases hi with hi | hi <;> cases hi
  · rcases hi with hi | hi <;> cases hi

/-- A pair has age zero exactly if no thread has decided to shut it down. -/
theorem undecided_iff (h : Inv safe c b d pj cj tail) {p : Nat} : Undecided c p ↔ d p = 0 := by
  refine ⟨h.undecided, ?_⟩
  intro h0
  have hjobs : ∀ js, (∀ q ∈ js, 1 ≤ d q ∧ d q ≤ 14) → .shutdown ⟨p, .first⟩ ∉ jobs d js := by
    intro js hact hin
    obtain ⟨q, hq, hmem⟩ := List.mem_flatMap.mp hin
    have hone : q = p := by
      obtain ⟨h1, h14⟩ := hact q hq
      generalize d q = k at hmem h1 h14
      interval_cases k <;> simp [downCode] at hmem
      exact hmem.symm
    have h1 := (hact q hq).1
    rw [hone] at h1
    omega
  refine ⟨?_, ?_, ?_⟩
  · rw [h.begun_iff]
    omega
  · rw [h.poll, List.mem_append, not_or]
    refine ⟨hjobs pj fun q hq => (h.active q).mp (List.mem_append_left _ hq), ?_⟩
    intro hin
    rcases h.shape.mem_cases hin with ⟨x, hx⟩ | hx | ⟨x, hx | hx⟩ <;> cases hx
  · rcases h.cleanup with hc | ⟨rfl, v, hc⟩
    · rw [hc]
      exact hjobs cj fun q hq => (h.active q).mp (List.mem_append_right _ hq)
    · rw [hc]
      simp

/-- Only `handle_error` and `cleanup` decide to shut a pair down. -/
theorem keeps_undecided (h : Inv safe c b d pj cj tail) {t : Tid} {o : Oracle} {w : World}
    {pre : List Instr} (hcode : c.code t = i :: rest) (hexec : exec o c.world i = some (w, pre))
    {p : Nat} (hu : Undecided c p) (herr : ∀ e, i = .handleError e → e.pair ≠ p)
    (hcol : ∀ valid, i ≠ .collect valid) :
    Undecided { c.load t (pre ++ rest) with world := w } p := by
  obtain ⟨htrace, hpoll, hcleanup⟩ := hu
  have hown : .shutdown ⟨p, .first⟩ ∉ c.code t := by
    cases t with
    | poll => exact hpoll
    | cleanup => exact hcleanup
    | worker q =>
      intro hin
      obtain ⟨key, -, hkey, -⟩ := h.worker_fresh hcode
      rw [hcode, ← hkey] at hin
      have hmem := List.mem_of_mem_drop hin
      simp [tieFd] at hmem
  have hcode' : ∀ u, .shutdown ⟨p, .first⟩ ∉ c.code u →
      .shutdown ⟨p, .first⟩ ∉ (c.load t (pre ++ rest)).code u := by
    intro u hu hin
    rcases Threads.mem_load hin with hin | hin
    · rcases List.mem_append.mp hin with hin | hin
      · rcases exec_shutdowns h.world.flow hexec hin with ⟨e, hi, hp⟩ | hs | ⟨v, hi⟩
        · exact herr e hi hp.symm
        · cases hs
        · exact hcol v hi
      · exact hown (hcode ▸ List.mem_cons_of_mem _ hin)
    · exact hu hin
  refine ⟨?_, hcode' .poll hpoll, hcode' .cleanup hcleanup⟩
  obtain ⟨evs, htr, hfrom⟩ := (exec_frame h.world.flow hexec).trace
  show .shutdown ⟨p, .first⟩ ∉ w.trace
  rw [htr, List.mem_append, not_or]
  refine ⟨htrace, ?_⟩
  intro hin
  have hi : i = .shutdown ⟨p, .first⟩ := hfrom _ hin
  exact hown (hcode ▸ hi ▸ List.mem_cons_self)

/-- `close` is only reached by an endpoint that is not closed. -/
theorem close_fresh (h : Inv safe c b d pj cj tail) {t : Tid} {e : Ep}
    (hcode : c.code t = .close e :: rest) : e ∉ (marks b d).closed := by
  rcases h.next_cases hcode with ⟨p, key, rfl, hp, hin⟩ | ⟨p, hp, is, hdown, -⟩ |
    ⟨rfl, rfl, rfl⟩ | ⟨rfl, rfl, v, hi⟩
  · simp [tieFd] at hin
  · obtain ⟨h1, h14⟩ := downCode_cons hdown
    show ¬ Side.closeAt e.side ≤ d e.pair
    generalize hk : d p = k at hdown h1 h14
    interval_cases k <;> obtain ⟨hi, -⟩ := List.cons.inj hdown <;> cases hi
    · simp [hk, Side.closeAt]
    · simp [hk, Side.closeAt]
  · rcases h.shape.cases_cons with ⟨hi, -⟩ | ⟨x, io, hi, -⟩ | ⟨x, rs, hi, -⟩ | ⟨x, rs, hi, -⟩ <;>
      cases hi
  · cases hi

/-- A worker adds an endpoint that has never been added. -/
theorem add_new (h : Inv safe c b d pj cj tail) {t : Tid} {e : Ep}
    (hcode : c.code t = .add e :: rest) :
    e.pair < c.world.pairs ∧ e ∉ (marks b d).added ∧ e ∉ (marks b d).closed := by
  rcases h.next_cases hcode with ⟨p, -, rfl, hp, -⟩ | ⟨p, hp, is, hdown, -⟩ | ⟨rfl, rfl, rfl⟩ |
    ⟨rfl, rfl, v, hi⟩
  · obtain ⟨key, -, hkey, hlt, hd⟩ := h.worker_fresh hcode
    generalize hk : b p = k at hkey hlt hd
    interval_cases k <;> obtain ⟨hi, -⟩ := List.cons.inj hkey <;> cases hi <;>
      simp only [Nat.reduceLT, forall_const] at hd <;> simp [marks, Side.addAt, Side.closeAt, hk, hd, hp]
  · unfold downCode at hdown
    split at hdown <;> cases hdown
  · rcases h.shape.mem_cases List.mem_cons_self with ⟨x, hx⟩ | hx | ⟨x, hx | hx⟩ <;> cases hx
  · cases hi

/-- The endpoint that a worker registers has been added and has its descriptor. -/
theorem next_epollAdd (h : Inv safe c b d pj cj tail) {t : Tid} {e : Ep}
    (hcode : c.code t = .epollAdd e :: rest) :
    e.pair < c.world.pairs ∧ e ∈ (marks b d).added ∧ e ∉ (marks b d).removed ∧
      e ∉ (marks b d).closed := by
  rcases h.next_cases hcode with ⟨p, -, rfl, hp, -⟩ | ⟨p, hp, is, hdown, -⟩ | ⟨rfl, rfl, rfl⟩ |
    ⟨rfl, rfl, v, hi⟩
  · obtain ⟨key, -, hkey, hlt, hd⟩ := h.worker_fresh hcode
    generalize hk : b p = k at hkey hlt hd
    interval_cases k <;> obtain ⟨hi, -⟩ := List.cons.inj hkey <;> cases hi <;>
      simp only [Nat.reduceLT, forall_const] at hd <;> simp [marks, Side.addAt, Side.removeAt, Side.closeAt, hk, hd, hp]
  · unfold downCode at hdown
    split at hdown <;> cases hdown
  · rcases h.shape.mem_cases List.mem_cons_self with ⟨x, hx⟩ | hx | ⟨x, hx | hx⟩ <;> cases hx
  · cases hi

/-- Each shutdown is entered at most once. -/
theorem shutdown_once (h : Inv safe c b d pj cj tail) (e : Ep) :
    c.world.trace.count (.shutdown e) ≤ 1 := by
  rw [h.world.trace.shutdowns]
  by_cases he : e ∈ (marks b d).begun
  · rw [ind_pos he]
  · rw [ind_neg he]
    exact Nat.zero_le 1

/-- Each endpoint closes its descriptor at most once. -/
theorem close_once (h : Inv safe c b d pj cj tail) (e : Ep) :
    c.world.trace.countP (Event.closes e) ≤ 1 := by
  rw [h.world.trace.closes]
  by_cases he : e ∈ (marks b d).closed
  · rw [ind_pos he]
  · rw [ind_neg he]
    exact Nat.zero_le 1

end Inv

end VncProxy.Proxy
