/-
  VncProxy.Handshake.Splice

  The dialogue of an operator and the relay that follows it, on one stream.  What
  the operator has got from a peer, what the endpoint on that socket has received
  after it and what is still unread are the stream of the peer (`sound_run`), so
  the other side of the pair is sent the rest of the stream from the byte on at
  which the dialogue has stopped (`splice`).
-/
import VncProxy.Handshake.Dialogue
import VncProxy.Handshake.Routing
import VncProxy.Handshake.Sockets
import VncProxy.Proxy.Born

namespace VncProxy.Handshake

open Lib (Prog)
open Polling (Desc)
open Proxy (Config Act Ep Event Instr received sent)

namespace Service

-- ============================================================================
-- One move of the relay
-- ============================================================================

section Relay

variable {s s' : Service}

/-- The calls of a section are made on one number, and take from it what its
    endpoint receives. -/
theorem consume_spec {desc : Nat → Desc Ep} {e : Ep} {fd : Nat} {evs : List Event}
    (hcalls : ∀ x n c, Event.call x n c ∈ evs → x = e ∧ n = fd) {input input' : Nat → List Byte}
    (h : consume desc evs input = some input') :
    input fd = received e evs ++ input' fd ∧ (∀ n, n ≠ fd → input' n = input n) ∧
      (desc fd = .closed → received e evs = []) := by
  induction evs generalizing input with
  | nil =>
    obtain rfl := Option.some.inj h
    exact ⟨rfl, fun _ _ => rfl, fun _ => rfl⟩
  | cons ev evs ih =>
    have hrest : ∀ x n c, Event.call x n c ∈ evs → x = e ∧ n = fd :=
      fun x n c hmem => hcalls x n c (List.mem_cons_of_mem _ hmem)
    cases ev with
    | call x n c =>
      obtain ⟨rfl, rfl⟩ := hcalls x n c List.mem_cons_self
      simp only [consume] at h
      split at h
      · rename_i hguard
        obtain ⟨⟨rest, hfront⟩, hclosed⟩ := hguard
        obtain ⟨htaken, hothers, hnone⟩ := ih hrest h
        have hcons : received x (.call x n c :: evs) = c.bytesRead ++ received x evs := by
          simp [received, Proxy.Event.readBy]
        rw [Function.update_self, ← hfront, List.drop_left] at htaken
        refine ⟨?_, ?_, ?_⟩
        · rw [hcons, List.append_assoc, ← htaken, hfront]
        · intro m hm
          rw [hothers m hm, Function.update_of_ne hm]
        · intro hc
          rw [hcons, (hclosed hc).1, hnone hc, List.nil_append]
      · cases h
    | close | ctl | shutdown => exact ih hrest h

/-- What a move of the relay does to the sockets, unless it is on a number that has
    been handed out again. -/
structure Relayed (s s' : Service) : Prop where
  run : Proxy.Run (fun _ _ => True) s'.config
  operator : s'.operator = s.operator
  tied : s'.tied = s.tied
  stream : s'.stream = s.stream
  pairs : s'.config.world.pairs = s.config.world.pairs
  fd : ∀ e, (s'.config.world.ep e).fd = (s.config.world.ep e).fd
  held : ∀ n, s.desc n = .held → s'.desc n = .held ∧ s'.input n = s.input n
  desc : ∀ e n, s'.desc n = .tied e → s.desc n = .tied e
  taken : ∀ e, ∃ bytes, received e s'.trace = received e s.trace ++ bytes ∧
    (s.desc (s.config.world.ep e).fd = .tied e →
      s.input (s.config.world.ep e).fd = bytes ++ s'.input (s.config.world.ep e).fd) ∧
    (s.desc (s.config.world.ep e).fd ≠ .tied e → bytes = [])

/-- A move that makes no section run. -/
theorem Relayed.of_world {c : Config} {input : Nat → List Byte}
    (hrun : Proxy.Run (fun _ _ => True) c) (hworld : c.world = s.config.world)
    (hinput : consume s.desc (c.world.trace.drop s.trace.length) s.input = some input) :
    Relayed s { s with config := c, input } := by
  have hsame : input = s.input := by
    rw [hworld, trace, List.drop_length] at hinput
    exact (Option.some.inj hinput).symm
  subst hsame
  have hdesc : ({ s with config := c } : Service).desc = s.desc := by
    show c.world.kernel.desc = _
    rw [hworld]
    rfl
  have htrace : ({ s with config := c } : Service).trace = s.trace := by
    show c.world.trace = _
    rw [hworld]
    rfl
  refine ⟨hrun, rfl, rfl, rfl, by rw [hworld], fun _ => by rw [hworld], ?_, ?_, ?_⟩
  · intro n hn
    exact ⟨by rw [hdesc, hn], rfl⟩
  · intro e n hn
    rwa [hdesc] at hn
  · intro e
    refine ⟨[], ?_, fun _ => rfl, fun _ => rfl⟩
    rw [htrace, List.append_nil]

/-- What a section does to the descriptors. -/
theorem exec_desc {w w' : Proxy.World} {o : Proxy.Oracle} {i : Instr} {pre : List Instr}
    (hw : Proxy.Flow w) (h : Proxy.exec o w i = some (w', pre)) :
    w'.kernel.desc = w.kernel.desc ∨ ∃ e, uses i = some e ∧
      w'.kernel.desc = Function.update w.kernel.desc (w.ep e).fd .closed := by
  by_cases hclose : ∃ e, i = .close e
  · obtain ⟨e, rfl⟩ := hclose
    obtain ⟨rfl, -⟩ := Prod.mk.inj (Option.some.inj h)
    exact Or.inr ⟨e, rfl, rfl⟩
  · left
    apply (Proxy.exec_frame hw h).desc
    rintro e rfl
    exact hclose ⟨e, rfl⟩

theorem Relayed.of_exec {t : Proxy.Tid} {o : Proxy.Oracle} {c : Config} {input : Nat → List Byte}
    (hrun : Proxy.Run (fun _ _ => True) s.config) (hproper : Proper s (.relay (.exec t o)))
    (hstep : Proxy.step (.exec t o) s.config = some c)
    (hinput : consume s.desc (c.world.trace.drop s.trace.length) s.input = some input) :
    Relayed s { s with config := c, input } := by
  have hrun' : Proxy.Run (fun _ _ => True) c := run_next hrun hstep
  have hflow := (Proxy.relayInv_run hrun).flow
  obtain ⟨i, rest, -, hcode, ⟨-, rfl⟩ | ⟨w, pre, hexec, rfl⟩⟩ := Lib.Threads.run_cases hstep
  · exact Relayed.of_world hrun' rfl hinput
  have huses : ∀ e, uses i = some e → s.desc (s.config.world.ep e).fd = .tied e ∨
      s.desc (s.config.world.ep e).fd = .closed := by
    intro e he
    refine hproper i ?_ e he
    rw [hcode]
    rfl
  have hframe := Proxy.exec_frame hflow hexec
  obtain ⟨evs, htrace, hfrom⟩ := hframe.trace
  have hinput : consume s.desc evs s.input = some input := by
    have hdrop : w.trace.drop s.trace.length = evs := by
      rw [htrace]
      exact List.drop_left
    rwa [← hdrop]
  -- a call is made by the endpoint of the section, on its number
  have hcalls : ∀ x n call, Event.call x n call ∈ evs →
      uses i = some x ∧ n = (s.config.world.ep x).fd := by
    intro x n call hmem
    constructor
    · rcases hfrom _ hmem with hi | hi <;> rw [hi] <;> rfl
    · have hin : Event.call x n call ∈ w.trace := by
        rw [htrace]
        exact List.mem_append_right _ hmem
      rw [((Proxy.relayInv_run hrun').flow.calls x n call hin).2]
      exact hframe.fd x
  have hnone : ∀ e, uses i ≠ some e → received e evs = [] := by
    intro e he
    unfold received
    rw [List.flatMap_eq_nil_iff]
    intro ev hev
    cases ev with
    | call x n call =>
      have hx : x ≠ e := by
        rintro rfl
        exact he (hcalls x n call hev).1
      simp [Proxy.Event.readBy, hx]
    | close | ctl | shutdown => rfl
  -- bytes are taken from the number of the section's endpoint
  have hspec : ∀ e, uses i = some e →
      s.input (s.config.world.ep e).fd = received e evs ++ input (s.config.world.ep e).fd ∧
        (∀ n, n ≠ (s.config.world.ep e).fd → input n = s.input n) ∧
        (s.desc (s.config.world.ep e).fd = .closed → received e evs = []) := by
    intro e he
    apply consume_spec _ hinput
    intro x n call hmem
    obtain ⟨hx, hn⟩ := hcalls x n call hmem
    obtain rfl : x = e := Option.some.inj (hx.symm.trans he)
    exact ⟨rfl, hn⟩
  have hquiet : ∀ n, (∀ e, uses i = some e → n ≠ (s.config.world.ep e).fd) →
      input n = s.input n := by
    intro n hn
    cases huse : uses i with
    | some e => exact (hspec e huse).2.1 n (hn e huse)
    | none =>
      have hno : ∀ x m call, Event.call x m call ∈ evs → x = ⟨0, .first⟩ ∧ m = n := by
        intro x m call hmem
        rw [huse] at hcalls
        exact absurd (hcalls x m call hmem).1 (Option.some_ne_none x).symm
      have htaken := (consume_spec hno hinput).1
      rw [hnone _ (by rw [huse]; exact (Option.some_ne_none _).symm), List.nil_append] at htaken
      exact htaken.symm
  refine ⟨hrun', rfl, rfl, rfl, hframe.pairs, hframe.fd, ?_, ?_, ?_⟩
  · intro n hn
    have hother : ∀ e, uses i = some e → n ≠ (s.config.world.ep e).fd := by
      rintro e he rfl
      rcases huses e he with h | h <;> rw [hn] at h <;> cases h
    refine ⟨?_, hquiet n hother⟩
    show w.kernel.desc n = .held
    rcases exec_desc hflow hexec with hdesc | ⟨e, he, hdesc⟩
    · rw [hdesc]
      exact hn
    · rw [hdesc, Function.update_of_ne (hother e he)]
      exact hn
  · intro e n hn
    have hn : w.kernel.desc n = .tied e := hn
    rcases exec_desc hflow hexec with hdesc | ⟨x, -, hdesc⟩
    · rw [hdesc] at hn
      exact hn
    · rw [hdesc, Function.update_apply] at hn
      split at hn
      · cases hn
      · exact hn
  · intro e
    refine ⟨received e evs, ?_, ?_, ?_⟩
    · show received e w.trace = _
      rw [htrace, Proxy.received_append]
      rfl
    · intro htied
      by_cases he : uses i = some e
      · exact (hspec e he).1
      · rw [hnone e he, List.nil_append]
        apply (hquiet _ _).symm
        intro x hx heq
        rcases huses x hx with h | h <;> rw [← heq, htied] at h
        · cases h
          exact he hx
        · cases h
    · intro hnot
      by_cases he : uses i = some e
      · exact (hspec e he).2.2 ((huses e he).resolve_left hnot)
      · exact hnone e he

theorem relay_spec {a : Act} (hrun : Proxy.Run (fun _ _ => True) s.config)
    (hproper : Proper s (.relay a)) (hstep : step (.relay a) s = some s') : Relayed s s' := by
  obtain ⟨c, input, hinner, hact, hinput, rfl⟩ := relay_cases hstep
  cases a with
  | exec t o => exact Relayed.of_exec hrun hproper hact hinput
  | wait batch =>
    have hrun' := run_next hrun hact
    simp only [Proxy.step] at hact
    split at hact
    · obtain ⟨is, -, rfl⟩ := Option.map_eq_some_iff.mp hact
      exact Relayed.of_world hrun' rfl hinput
    · cases hact
  | cleanup valid =>
    exact Relayed.of_world (run_next hrun hact) (cleanup_spec hact) hinput
  | tieFd | grab | giveBack => cases hinner

end Relay

-- ============================================================================
-- Whole runs
-- ============================================================================

/-- Every operator has the sockets that it counts on, and for itself; and every pair
    goes on where its operator has stopped. -/
structure Sound (s : Service) : Prop where
  run : Proxy.Run (fun _ _ => True) s.config
  kept : ∀ i o, s.operator i = some o → session.Kept (View.start o.clnt) o.log
  held : ∀ i o, s.operator i = some o → ∀ n c, o.view.conns n = some c → Held s n c
  alone : ∀ i j o o', i ≠ j → s.operator i = some o → s.operator j = some o' →
    ∀ n, (o.view.conns n).isSome → o'.view.conns n = none
  tied : ∀ i t, s.tied i = some t → ∃ o d, s.operator i = some o ∧ o.view.tied = some d ∧
    TiedOk s t d

section Whole

variable {s s' : Service} {i : Nat}

theorem sound_start : Sound start := by
  refine ⟨Lib.Reach.start rfl, ?_, ?_, ?_, ?_⟩
  · intro i o ho
    cases ho
  · intro i o ho
    cases ho
  · intro i j o o' _ ho
    cases ho
  · intro i t ht
    cases ht

theorem TiedOk.of_setOperator {o : Operator} {t : Tied} {d : Splice} (h : TiedOk s t d) :
    TiedOk (s.setOperator i o) t d := by
  obtain ⟨client, server, hclient, hserver, hfirst, hsecond⟩ := h
  exact ⟨client, server, hclient, hserver,
    ⟨hfirst.born, hfirst.number, hfirst.taken, hfirst.rest⟩,
    ⟨hsecond.born, hsecond.number, hsecond.taken, hsecond.rest⟩⟩

/-- Operator `i` has become `o'` in a step that only concerns its own sockets. -/
theorem Sound.served {o' : Operator} {v : View} (h : Sound s) (hs : Served s s' v o'.view)
    (hv : ∀ j o, j ≠ i → s.operator j = some o → ∀ n, (o.view.conns n).isSome → v.conns n = none)
    (hkept : session.Kept (View.start o'.clnt) o'.log)
    (htied : ∀ j t, s'.tied j = some t → ∃ o d, (s'.setOperator i o').operator j = some o ∧
      o.view.tied = some d ∧ TiedOk s' t d) : Sound (s'.setOperator i o') := by
  -- a number that another operator holds is not among those of `o'`
  have hapart : ∀ j o, j ≠ i → s.operator j = some o → ∀ n, (o.view.conns n).isSome →
      o'.view.conns n = none := by
    intro j o hj ho n hn
    apply Option.eq_none_iff_forall_ne_some.mpr
    intro c' hc'
    obtain ⟨c, hc⟩ := Option.isSome_iff_exists.mp hn
    have hclosed := hs.fresh n (by rw [hc']; rfl) (hv j o hj ho n hn)
    rw [(h.held j o ho n c hc).1] at hclosed
    cases hclosed
  have hcases : ∀ j o, (s'.setOperator i o').operator j = some o →
      (j = i ∧ o = o') ∨ (j ≠ i ∧ s.operator j = some o) := by
    intro j o ho
    rw [setOperator_operator, hs.operator] at ho
    split at ho
    · rename_i hj
      exact Or.inl ⟨hj, (Option.some.inj ho).symm⟩
    · rename_i hj
      exact Or.inr ⟨hj, ho⟩
  refine ⟨hs.run, ?_, ?_, ?_, ?_⟩
  rotate_right
  · intro j t ht
    obtain ⟨o, d, ho, hd, hok⟩ := htied j t ht
    exact ⟨o, d, ho, hd, hok.of_setOperator⟩
  · intro j o ho
    rcases hcases j o ho with ⟨-, rfl⟩ | ⟨-, ho⟩
    · exact hkept
    · exact h.kept j o ho
  · intro j o ho n c hc
    rcases hcases j o ho with ⟨-, rfl⟩ | ⟨hj, ho⟩
    · exact hs.held n c hc
    · have hheld := h.held j o ho n c hc
      have hfree := hv j o hj ho n (by rw [hc]; rfl)
      exact (hs.others n hfree (by rw [hheld.1]; exact fun h => by cases h)).held hheld
  · intro j k oj ok hjk hoj hok n hn
    rcases hcases j oj hoj with ⟨rfl, rfl⟩ | ⟨hj, hj'⟩
    · rcases hcases k ok hok with ⟨rfl, -⟩ | ⟨hk, hk'⟩
      · exact absurd rfl hjk
      · apply Option.eq_none_iff_forall_ne_some.mpr
        intro c hc
        rw [hapart k ok hk hk' n (by rw [hc]; rfl)] at hn
        cases hn
    · rcases hcases k ok hok with ⟨rfl, rfl⟩ | ⟨-, hk'⟩
      · exact hapart j oj hj hj' n hn
      · exact h.alone j k oj ok hjk hj' hk' n hn

theorem Sound.accept {clnt : Nat} {stream buf response : List Byte} (h : Sound s)
    (hs : step (.accept i clnt stream buf response) s = some s') : Sound s' := by
  obtain ⟨c, hfree, -, -, hgrab, rfl⟩ := accept_cases hs
  have hserved : Served s (s.opened c clnt stream) ⟨fun _ => none, false, none, [], none⟩
      (Operator.new clnt buf response).view :=
    Served.of_opened h.run (fun n c hc => by cases hc) hgrab rfl
  apply h.served hserved
  · intro j o _ _ n _
    rfl
  · exact trivial
  · intro j t ht
    obtain ⟨o, d, ho, hd, hok⟩ := h.tied j t ht
    have hj : j ≠ i := by
      rintro rfl
      rw [hfree] at ho
      cases ho
    refine ⟨o, d, ?_, hd, hok.served hserved fun n c hc => by cases hc⟩
    rw [setOperator_operator, if_neg hj]
    exact ho

theorem Sound.call {r : Reply} (h : Sound s) (hg : Guarded s)
    (hs : step (.call i r) s = some s') : Sound s' := by
  obtain ⟨o, op, next, a, s₁, ho, hprog, hserve, rfl⟩ := call_cases hs
  have hok := hg i o ho
  have hheld := h.held i o ho
  have howes : o.view.Owes op := by
    have hwp := Prog.wp_goes hok.goes (h.kept i o ho) run_session
    rw [hprog] at hwp
    exact hwp.1
  generalize ho' : ({ o with log := o.log ++ [⟨op, a⟩], prog := next a } : Operator) = o'
  have hview : o'.view = o.view.next op a := by
    rw [← ho', Operator.view, Lib.Contract.track_snoc]
    rfl
  have hserved : Served s s₁ o.view o'.view := by
    rw [hview]
    exact serve_spec h.run hheld howes hserve
  apply h.served hserved
  · intro j oj hj hoj n hn
    exact h.alone j i oj o hj hoj ho n hn
  · rw [← ho', Lib.Contract.kept_snoc]
    exact ⟨h.kept i o ho, serve_grants hheld hok.inside howes hserve⟩
  · intro j t ht
    have hother : j ≠ i → (s₁.setOperator i o').operator j = s.operator j := by
      intro hj
      rw [setOperator_operator, if_neg hj, serve_operator hserve]
    have hself : (s₁.setOperator i o').operator i = some o' := by
      rw [setOperator_operator, if_pos rfl]
    rcases serve_tied (v := o.view) hserve with ⟨hsame, hviewTied⟩ |
        ⟨key, fd1, fd2, c, rfl, htie, hviewTied, rfl⟩
    · rw [hsame] at ht
      obtain ⟨oj, d, hoj, hd, htok⟩ := h.tied j t ht
      have htok' := htok.served hserved hheld
      by_cases hj : j = i
      · subst hj
        obtain rfl := Option.some.inj (hoj.symm.trans ho)
        exact ⟨o', d, hself, by rw [hview, hviewTied, hd], htok'⟩
      · exact ⟨oj, d, by rw [hother hj, hoj], hd, htok'⟩
    · -- the pair is new
      by_cases hj : j = i
      · subst hj
        change Function.update s.tied j _ j = some t at ht
        rw [Function.update_self] at ht
        obtain rfl := Option.some.inj ht
        exact ⟨o', _, hself, by rw [hview, hviewTied],
          TiedOk.of_tieFd h.run hheld howes.1 howes.2.1 htie⟩
      · change Function.update s.tied i _ j = some t at ht
        rw [Function.update_of_ne hj] at ht
        obtain ⟨oj, d, hoj, hd, htok⟩ := h.tied j t ht
        exact ⟨oj, d, by rw [hother hj, hoj], hd, htok.served hserved hheld⟩

/-- The relay takes up where the operators have stopped. -/
theorem Fed.relayed {e : Ep} {fd : Nat} {c : Conn} {stream : List Byte}
    (h : Fed s e fd c stream) (hs : Relayed s s') : Fed s' e fd c stream := by
  obtain ⟨bytes, htrace, hmine, hnone⟩ := hs.taken e
  rw [h.number] at hmine hnone
  refine ⟨?_, ?_, ?_, ?_⟩
  · rw [hs.pairs]
    exact h.born
  · rw [hs.fd]
    exact h.number
  · rw [htrace]
    by_cases htied : s.desc fd = .tied e
    · rw [← h.rest htied, hmine htied, ← List.append_assoc, ← List.append_assoc]
      exact List.prefix_append _ _
    · rw [hnone htied, List.append_nil]
      exact h.taken
  · intro htied
    have hbefore := hs.desc e fd htied
    rw [htrace, ← List.append_assoc, List.append_assoc, ← hmine hbefore]
    exact h.rest hbefore

theorem Sound.relay {a : Act} (h : Sound s) (hproper : Proper s (.relay a))
    (hs : step (.relay a) s = some s') : Sound s' := by
  have hrelayed := relay_spec h.run hproper hs
  refine ⟨hrelayed.run, ?_, ?_, ?_, ?_⟩
  · rw [hrelayed.operator]
    exact h.kept
  · rw [hrelayed.operator]
    intro i o ho n c hc
    obtain ⟨hdesc, hgot⟩ := h.held i o ho n c hc
    obtain ⟨hdesc', hinput⟩ := hrelayed.held n hdesc
    refine ⟨hdesc', ?_⟩
    rw [hinput, hrelayed.stream]
    exact hgot
  · rw [hrelayed.operator]
    exact h.alone
  · rw [hrelayed.operator, hrelayed.tied]
    intro i t ht
    obtain ⟨o, d, ho, hd, client, server, hclient, hserver, hfirst, hsecond⟩ := h.tied i t ht
    exact ⟨o, d, ho, hd, client, server, hclient, hserver, hfirst.relayed hrelayed,
      hsecond.relayed hrelayed⟩

theorem sound_run (h : Run Proper s) : Sound s := by
  apply h.invariant
  · rintro s rfl
    exact sound_start
  · rintro s s' hrun hs ⟨m, hproper, hstep⟩
    cases m with
    | accept i clnt stream buf response => exact hs.accept hstep
    | call i r => exact hs.call (guarded_run hrun) hstep
    | relay a => exact hs.relay hproper hstep

end Whole

-- ============================================================================
-- A single session
-- ============================================================================

/-- No more than one client has connected. -/
def Lone (s : Service) : Prop := ∃ i, ∀ j, j ≠ i → s.operator j = none

/-- The numbers of the endpoints have not been handed out again: a pair is made by an
    operator that has come to its end, and an endpoint has its number until it is
    closed. -/
structure Settled (s : Service) : Prop where
  tied : s.config.world.pairs = 0 ∨ ∃ i o, s.operator i = some o ∧ o.view.tied ≠ none
  desc : ∀ e, e.pair < s.config.world.pairs →
    s.desc (s.config.world.ep e).fd = .tied e ∨ s.desc (s.config.world.ep e).fd = .closed

section Single

variable {s s' : Service} {i : Nat}

theorem Settled.of_none (h : s.config.world.pairs = 0) : Settled s := by
  refine ⟨Or.inl h, ?_⟩
  intro e he
  rw [h] at he
  exact absurd he (Nat.not_lt_zero _)

theorem Settled.accept {clnt : Nat} {stream buf response : List Byte} (h : Lone s → Settled s)
    (hs : step (.accept i clnt stream buf response) s = some s') (hlone : Lone s') :
    Settled s' := by
  obtain ⟨c, hfree, -, -, hgrab, rfl⟩ := accept_cases hs
  obtain ⟨k, hk⟩ := hlone
  -- the new operator is the first
  have hki : i = k := by
    by_contra hne
    have hnone := hk i hne
    rw [setOperator_operator, if_pos rfl] at hnone
    cases hnone
  subst hki
  have hall : ∀ j, s.operator j = none := by
    intro j
    by_cases hj : j = i
    · rw [hj, hfree]
    · have hnone := hk j hj
      rwa [setOperator_operator, if_neg hj] at hnone
  apply Settled.of_none
  show c.world.pairs = 0
  have hpairs : c.world.pairs = s.config.world.pairs := by
    simp only [Proxy.step] at hgrab
    split at hgrab
    · obtain rfl := Option.some.inj hgrab
      rfl
    · cases hgrab
  rw [hpairs]
  rcases (h ⟨i, fun j _ => hall j⟩).tied with hnone | ⟨j, o, ho, -⟩
  · exact hnone
  · rw [hall j] at ho
    cases ho

theorem Settled.call {r : Reply} (h : Lone s → Settled s) (hg : Guarded s)
    (hs : step (.call i r) s = some s') (hlone : Lone s') : Settled s' := by
  obtain ⟨o, op, next, a, s₁, ho, hprog, hserve, rfl⟩ := call_cases hs
  obtain ⟨htied, -⟩ := (hg i o ho).owes hprog
  obtain ⟨k, hk⟩ := hlone
  have hki : i = k := by
    by_contra hne
    have hnone := hk i hne
    rw [setOperator_operator, if_pos rfl] at hnone
    cases hnone
  subst hki
  have hothers : ∀ j, j ≠ i → s.operator j = none := by
    intro j hj
    have hnone := hk j hj
    rwa [setOperator_operator, if_neg hj, serve_operator hserve] at hnone
  have hsettled := h ⟨i, hothers⟩
  generalize ho' : ({ o with log := o.log ++ [⟨op, a⟩], prog := next a } : Operator) = o'
  -- the operator has tied nothing yet, so there is no pair
  have hzero : s.config.world.pairs = 0 := by
    rcases hsettled.tied with hnone | ⟨j, oj, hoj, htiedj⟩
    · exact hnone
    · by_cases hj : j = i
      · subst hj
        obtain rfl := Option.some.inj (hoj.symm.trans ho)
        exact absurd htied htiedj
      · rw [hothers j hj] at hoj
        cases hoj
  have hsame : s₁.config.world.pairs = s.config.world.pairs → Settled (s₁.setOperator i o') := by
    intro hpairs
    apply Settled.of_none
    show s₁.config.world.pairs = 0
    rw [hpairs, hzero]
  rcases serve_cases hserve with ⟨_, -, rfl⟩ | ⟨-, -, rfl⟩ | ⟨-, -, rfl⟩ | ⟨_, -, rfl⟩ |
    ⟨fd, c, -, hclose, rfl⟩ | ⟨addr, -, rfl | ⟨fd, c, hgrab, rfl⟩⟩ |
    ⟨valid, c, -, hcleanup, rfl⟩ | ⟨key, fd1, fd2, c, rfl, htie, rfl⟩
  · exact hsame rfl
  · exact hsame rfl
  · exact hsame rfl
  · exact hsame rfl
  · exact hsame (giveBack_pairs hclose)
  · exact hsame rfl
  · exact hsame (grab_pairs hgrab)
  · exact hsame (by rw [cleanup_spec hcleanup])
  · -- the pair is the first, and has just got its numbers
    have hself : ∀ s₂ : Service, (s₂.setOperator i o').operator i = some o' := by
      intro s₂
      rw [setOperator_operator, if_pos rfl]
    have hview : o'.view.tied ≠ none := by
      rw [← ho', Operator.view, Lib.Contract.track_snoc]
      exact Option.some_ne_none _
    refine ⟨Or.inr ⟨i, o', hself _, hview⟩, ?_⟩
    obtain ⟨-, hne, hpairs, hfd1, hfd2, -⟩ := tieFd_spec htie
    obtain ⟨hdesc1, hdesc2⟩ := tieFd_desc htie
    rintro ⟨p, side⟩ he
    have he : p < c.world.pairs := he
    obtain rfl : p = s.config.world.pairs := by omega
    left
    cases side with
    | first =>
      show c.world.kernel.desc (c.world.ep _).fd = _
      rw [hfd1]
      exact hdesc1
    | second =>
      show c.world.kernel.desc (c.world.ep _).fd = _
      rw [hfd2]
      exact hdesc2

theorem Settled.relay {a : Act} (h : Settled s) (hflow : Proxy.Flow s.config.world)
    (hs : step (.relay a) s = some s') : Settled s' := by
  obtain ⟨c, input, hinner, hact, -, rfl⟩ := relay_cases hs
  have hsame : c.world = s.config.world → Settled { s with config := c, input } := by
    intro hworld
    constructor
    · show c.world.pairs = 0 ∨ _
      rw [hworld]
      exact h.tied
    · show ∀ e, e.pair < c.world.pairs → c.world.kernel.desc (c.world.ep e).fd = .tied e ∨
        c.world.kernel.desc (c.world.ep e).fd = .closed
      rw [hworld]
      exact h.desc
  cases a with
  | exec t o =>
    obtain ⟨i, rest, -, -, ⟨-, rfl⟩ | ⟨w, pre, hexec, rfl⟩⟩ := Lib.Threads.run_cases hact
    · exact hsame rfl
    have hframe := Proxy.exec_frame hflow hexec
    constructor
    · show w.pairs = 0 ∨ _
      rw [hframe.pairs]
      exact h.tied
    · intro e he
      have he : e.pair < w.pairs := he
      rw [hframe.pairs] at he
      show w.kernel.desc (w.ep e).fd = .tied e ∨ w.kernel.desc (w.ep e).fd = .closed
      rw [hframe.fd]
      rcases exec_desc hflow hexec with hdesc | ⟨x, -, hdesc⟩
      · rw [hdesc]
        exact h.desc e he
      · rw [hdesc, Function.update_apply]
        split
        · exact Or.inr rfl
        · exact h.desc e he
  | wait batch =>
    simp only [Proxy.step] at hact
    split at hact
    · obtain ⟨is, -, rfl⟩ := Option.map_eq_some_iff.mp hact
      exact hsame rfl
    · cases hact
  | cleanup valid => exact hsame (cleanup_spec hact)
  | tieFd | grab | giveBack => cases hinner

theorem config_run {allowed : Service → Move → Prop} (h : Run allowed s) :
    Proxy.Run (fun _ _ => True) s.config := by
  apply h.invariant
  · rintro s rfl
    exact Lib.Reach.start rfl
  · rintro s s' - hs ⟨m, -, hstep⟩
    cases m with
    | accept i clnt stream buf response =>
      obtain ⟨c, -, -, -, hgrab, rfl⟩ := accept_cases hstep
      exact run_next hs hgrab
    | call i r =>
      obtain ⟨o, op, next, a, s₁, -, -, hserve, rfl⟩ := call_cases hstep
      show Proxy.Run _ s₁.config
      rcases serve_cases hserve with ⟨_, -, rfl⟩ | ⟨-, -, rfl⟩ | ⟨-, -, rfl⟩ | ⟨_, -, rfl⟩ |
        ⟨_, _, -, hact, rfl⟩ | ⟨_, -, rfl | ⟨_, _, hact, rfl⟩⟩ | ⟨_, _, -, hact, rfl⟩ |
        ⟨_, _, _, _, -, hact, rfl⟩ <;> first | exact hs | exact run_next hs hact
    | relay a =>
      obtain ⟨c, input, -, hact, -, rfl⟩ := relay_cases hstep
      exact run_next hs hact

theorem settled_run {allowed : Service → Move → Prop} (h : Run allowed s) (hlone : Lone s) :
    Settled s := by
  have hinv : Lone s → Settled s := by
    apply h.invariant (I := fun s => Lone s → Settled s)
    · rintro s rfl -
      exact Settled.of_none rfl
    · rintro s s' hrun hs ⟨m, -, hstep⟩ hlone
      cases m with
      | accept i clnt stream buf response => exact Settled.accept hs hstep hlone
      | call i r => exact Settled.call hs (guarded_run hrun) hstep hlone
      | relay a =>
        have hsame : s'.operator = s.operator := by
          obtain ⟨c, input, -, -, -, rfl⟩ := relay_cases hstep
          rfl
        rw [Lone, hsame] at hlone
        exact (hs hlone).relay (Proxy.relayInv_run (config_run hrun)).flow hstep
  exact hinv hlone

/-- As long as there is one client, no number is handed out again. -/
theorem proper_of_lone {allowed : Service → Move → Prop} (h : Run allowed s) (hlone : Lone s)
    (m : Move) : Proper s m := by
  cases m with
  | accept | call => trivial
  | relay a =>
    cases a with
    | exec t o =>
      intro i hi e he
      have hmem : i ∈ s.config.code t := List.mem_of_mem_head? hi
      have habout : i.about = some e := by
        cases i <;> first | exact he | cases he
      exact (settled_run h hlone).desc e
        ((Proxy.born_run (config_run h)).code t i hmem e habout)
    | wait | cleanup | tieFd | grab | giveBack => trivial

end Single

-- ============================================================================
-- The splice
-- ============================================================================

section Spliced

variable {s : Service} {i : Nat}

/-- With a single client every run is proper. -/
theorem run_proper (h : Run (fun s m => Lone s ∨ Proper s m) s) : Run Proper s := by
  apply h.invariant
  · rintro s rfl
    exact Lib.Reach.start rfl
  · rintro s s' hrun hs ⟨m, hallowed, hstep⟩
    refine hs.step ⟨m, ?_, hstep⟩
    rcases hallowed with hlone | hproper
    · exact proper_of_lone hrun hlone m
    · exact hproper

/-- The lengths of what is got in the two dialogues. -/
theorem Said.got_length {said : Said} {rows : List Row} (h : said.Valid rows) :
    said.client.got.length = 29 ∧
      said.server.got.length = 13 + said.types.length + if said.choice = 2 then 16 else 0 := by
  have hversion : version.length = 12 := rfl
  constructor
  · simp [Said.client, hversion, h.response]
  · unfold Said.server
    split
    · rename_i hchoice
      simp [hversion, Said.offer, h.remoteChallenge hchoice]
      omega
    · simp [hversion, Said.offer]
      omega

/-- What the one endpoint has been sent is the rest of the other's stream, as far as
    it has come. -/
theorem Fed.sent_prefix (hrun : Proxy.Run (fun _ _ => True) s.config) {e : Ep} {fd : Nat} {c : Conn}
    {stream : List Byte} (h : Fed s e fd c stream) :
    c.got <+: stream ∧ sent e.other s.trace <+: stream.drop c.got.length := by
  have hrelay : received e s.trace = sent e.other s.trace ++ _ :=
    (Proxy.relayInv_run hrun).flow.relay e
  obtain ⟨rest, hrest⟩ := h.taken
  rw [List.append_assoc] at hrest
  refine ⟨⟨_, hrest⟩, ?_⟩
  rw [← hrest, List.drop_left, hrelay, List.append_assoc]
  exact List.prefix_append _ _

/-- An operator that has tied its pair, with every send accepted in full and every
    recv filled completely, has exchanged the two dialogues and nothing else; and from
    then on each side is sent the stream of the other from the byte on at which its
    dialogue has stopped.  With several clients this takes that no section of the
    relay is run on a number that has been handed out again. -/
theorem splice (h : Run (fun s m => Lone s ∨ Proper s m) s) {o : Operator} {t : Tied}
    (ho : s.operator i = some o) (ht : s.tied i = some t) (hfull : ∀ x ∈ o.log, Full x) :
    ∃ (d : Splice) (said : Said), o.view.tied = some d ∧ said.Valid o.view.rows ∧
      d.forwardKey = column said.row.forwardKey ∧ d.clnt = o.clnt ∧
      d.client = some said.client ∧ d.server = some said.server ∧
      said.client.got.length = 29 ∧ said.client.got <+: t.client ∧
      said.server.got.length =
        13 + said.types.length + (if said.choice = 2 then 16 else 0) ∧
      said.server.got <+: t.server ∧
      (s.config.world.ep ⟨t.pair, .first⟩).fd = d.clnt ∧
      (s.config.world.ep ⟨t.pair, .second⟩).fd = d.remote ∧
      sent ⟨t.pair, .second⟩ s.trace <+: t.client.drop said.client.got.length ∧
      sent ⟨t.pair, .first⟩ s.trace <+: t.server.drop said.server.got.length := by
  have hsound := sound_run (run_proper h)
  have hok := guarded_run h i o ho
  obtain ⟨o', d, ho', hd, client, server, hclient, hserver, hfirst, hsecond⟩ := hsound.tied i t ht
  obtain rfl := Option.some.inj (ho.symm.trans ho')
  -- the program has come to its end, so what `run_full` says of it has come true
  have hkept : fullSession.Kept (View.start o.clnt) o.log :=
    (hsound.kept i o ho).also hfull
  have hwp := Prog.wp_goes hok.goes hkept (run_full hok.buf hok.response)
  have hend : ∃ u, o.prog = .done u := by
    cases hprog : o.prog with
    | done u => exact ⟨u, rfl⟩
    | call op next =>
      rw [(hok.owes hprog).1] at hd
      cases hd
  obtain ⟨u, hdone⟩ := hend
  rw [hdone] at hwp
  obtain ⟨hclnt, said, hvalid, hsaidClient, hsaidServer, hkey⟩ := hwp d hd
  obtain rfl : client = said.client := Option.some.inj (hclient.symm.trans hsaidClient)
  obtain rfl : server = said.server := Option.some.inj (hserver.symm.trans hsaidServer)
  obtain ⟨hlenC, hlenS⟩ := Said.got_length hvalid
  obtain ⟨hgotC, hsentC⟩ := hfirst.sent_prefix hsound.run
  obtain ⟨hgotS, hsentS⟩ := hsecond.sent_prefix hsound.run
  exact ⟨d, said, hd, hvalid, hkey, hclnt, hsaidClient, hsaidServer, hlenC, hgotC, hlenS, hgotS,
    hfirst.number, hsecond.number, hsentC, hsentS⟩

/-- Key `p` is routed to `h:1`, whose password is `q`. -/
def helloRow : Row :=
  ⟨some keyP, some hostOne, some keyQ⟩

/-- The client answers the challenge of sevens, and goes on with `ClientInit`. -/
def helloClient : List Byte := version ++ [2] ++ vncResponse [112] (List.replicate 16 7) ++ [1]

/-- The remote wants VNC authentication, and goes on with `SecurityResult`. -/
def helloServer : List Byte := version ++ [1, 2] ++ List.replicate 16 9 ++ [0, 0, 0, 0]

def helloReply (n : Nat) : Reply := ⟨n, some n, 7, [helloRow], some 4, helloServer⟩

/-- The two dialogues, the nine sections of `tie_fd`, and one turn of the relay in
    each direction. -/
def helloMoves : List Move :=
  [.accept 0 3 helloClient (List.replicate 16 0) (List.replicate 16 0)] ++
  ([0, 12, 12, 2, 1] ++ List.replicate 16 7 ++ [16, 16] ++ [0, 0, 0, 0, 0, 0] ++
    [0, 12, 12, 1, 1, 1, 16] ++ [0, 0, 0, 0, 0] ++ [16, 0, 0, 0]).map
      (fun n => .call 0 (helloReply n)) ++
  List.replicate 9 (.relay (.exec (.worker 0) .idle)) ++
  [.relay (.wait [(3, Proxy.readable), (4, Proxy.readable)]),
   .relay (.exec .poll .idle), .relay (.exec .poll ⟨[some [1]], [], []⟩),
   .relay (.exec .poll .idle), .relay (.exec .poll ⟨[some [0, 0, 0, 0]], [], []⟩),
   .relay (.exec .poll .idle),
   .relay (.wait [(3, Proxy.writable), (4, Proxy.writable)]),
   .relay (.exec .poll .idle), .relay (.exec .poll ⟨[], [4], []⟩),
   .relay (.exec .poll .idle), .relay (.exec .poll ⟨[], [1], []⟩)]

@[irreducible] def helloEnd : Service :=
  Lib.lastState (fun m s => if Proper s m then step m s else none) helloMoves start

theorem helloEnd_eq : helloEnd =
    Lib.lastState (fun m s => if Proper s m then step m s else none) helloMoves start := by
  unfold helloEnd
  rfl

theorem splice_hello :
    sent ⟨0, .second⟩ helloEnd.trace = [1] ∧ sent ⟨0, .first⟩ helloEnd.trace = [0, 0, 0, 0] ∧
    ∃ (o : Operator) (said : Said), helloEnd.operator 0 = some o ∧ said.Valid o.view.rows ∧
      said.client.got.length = 29 ∧ said.client.got <+: helloClient ∧
      said.server.got <+: helloServer ∧
      sent ⟨0, .second⟩ helloEnd.trace <+: helloClient.drop said.client.got.length ∧
      sent ⟨0, .first⟩ helloEnd.trace <+: helloServer.drop said.server.got.length := by
  have hrun : Run Proper helloEnd :=
    Run.of_moves (helloEnd_eq ▸ Lib.runActs_eq_lastState (by decide +kernel))
  have hallowed : Run (fun s m => Lone s ∨ Proper s m) helloEnd :=
    hrun.mono fun _ _ ⟨m, hproper, hstep⟩ => ⟨m, Or.inr hproper, hstep⟩
  have hsome : (helloEnd.operator 0).isSome := by decide +kernel
  obtain ⟨o, ho⟩ := Option.isSome_iff_exists.mp hsome
  have hlog : ∀ x ∈ ((helloEnd.operator 0).map Operator.log).getD [], Full x := by
    decide +kernel
  have hfull : ∀ x ∈ o.log, Full x := by
    rw [ho] at hlog
    exact hlog
  have ht : helloEnd.tied 0 = some ⟨0, helloClient, helloServer⟩ := by decide +kernel
  obtain ⟨d, said, -, hvalid, -, -, -, -, hlen, hgotC, -, hgotS, -, -, hsentC, hsentS⟩ :=
    splice hallowed ho ht hfull
  exact ⟨by decide +kernel, by decide +kernel, o, said, ho, hvalid, hlen, hgotC, hgotS, hsentC,
    hsentS⟩

end Spliced

end Service

end VncProxy.Handshake
