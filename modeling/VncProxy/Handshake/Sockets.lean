/-
  VncProxy.Handshake.Sockets

  The sockets of the service.  Each operator uses the sockets that it holds and no
  others (`run_session`), so no two of them read from one stream; and the bytes
  that an operator has got, what its pair has received after it, and what has not
  been read yet are the stream of the peer, as long as no number is used that has
  been handed out again.
-/
import VncProxy.Handshake.Sessions
import VncProxy.Proxy.Relay

namespace VncProxy.Handshake

open Lib (Prog)
open Polling (Desc)
open Proxy (Config Act Ep Event Instr)

-- ============================================================================
-- An operator keeps to its contract
-- ============================================================================

section Contract

variable {v : View} {clnt remote : Nat} {buf response : List Byte}

theorem greetClient_session (hclnt : (v.conns clnt).isSome) :
    (greetClient clnt buf response).wp session (fun v' r => v'.tied = v.tied ∧
      v'.locked = v.locked ∧ (r.isSome → (v'.conns clnt).isSome)) v := by
  unfold greetClient
  simp [View.next, View.Owes, hclnt]
  intros
  apply wp_randBytes trivial (fun _ => rfl)
  simp [hclnt]

theorem greetRemote_session (hne : clnt ≠ remote) (hclnt : (v.conns clnt).isSome)
    (hremote : (v.conns remote).isSome) :
    (greetRemote clnt remote buf).wp session (fun v' r => v'.locked = v.locked ∧
      (r.isSome → (v'.conns clnt).isSome ∧ (v'.conns remote).isSome)) v := by
  unfold greetRemote closeBoth
  simp [View.next, View.Owes, hclnt, hremote, hne]

theorem answerRemote_session {info : VncAuthInfo} {arrays : Arrays} {noneAuth vncAuth : Bool}
    (hne : clnt ≠ remote) (hclnt : (v.conns clnt).isSome) (hremote : (v.conns remote).isSome)
    (hlocked : v.locked = false) :
    (answerRemote clnt remote info arrays noneAuth vncAuth).wp session
      (fun v' r => v'.locked = false ∧
        (r = true → (v'.conns clnt).isSome ∧ (v'.conns remote).isSome)) v := by
  unfold answerRemote closeBoth authKey desBlocks
  simp [View.next, View.Owes, hclnt, hremote, hne, hlocked]

/-- Sockets are used by the operator that holds them, and the key register under the
    lock, whatever the answers. -/
theorem run_session :
    (run clnt buf response).wp session (fun v _ => v.locked = false) (View.start clnt) := by
  unfold run
  rw [Prog.wp_bind]
  apply Prog.wp_mono (greetClient_session (by simp [View.start]))
  rintro v arrays? ⟨htied, hlocked, hclnt⟩
  have htied : v.tied = none := htied
  have hlocked : v.locked = false := hlocked
  cases arrays? with
  | none => exact hlocked
  | some arrays =>
  have hclnt := hclnt rfl
  show Prog.wp session (authenticate _ _ >>= _) _ v
  rw [Prog.wp_bind]
  apply wp_authenticate session_careful htied hlocked
  intro v' r hconns _ hlocked'
  rw [← hconns] at hclnt
  show Prog.wp session (if r ≠ SQLITE_OK then _ else _) _ v'
  rw [Prog.wp_ite]
  constructor
  · intro _
    simp [View.next, View.Owes, hclnt, hlocked']
  intro _
  rw [Prog.wp_ite]
  constructor
  · intro _
    simp [View.next, View.Owes, hclnt, hlocked']
  intro _
  rw [Prog.wp_bind, wp_connectTo]
  refine ⟨trivial, ?_⟩
  intro remote? hfresh
  cases remote? with
  | none =>
    show Prog.wp session (close clnt) _ v'
    simp [View.next, View.Owes, hclnt, hlocked']
  | some remote =>
  have hne : clnt ≠ remote := by
    rintro rfl
    rw [hfresh clnt rfl] at hclnt
    cases hclnt
  have hclnt : ((v'.setConn remote ⟨[], []⟩).conns clnt).isSome := by
    rw [View.setConn_of_ne hne]
    exact hclnt
  show Prog.wp session (greetRemote _ _ _ >>= _) _ (v'.setConn remote ⟨[], []⟩)
  rw [Prog.wp_bind]
  apply Prog.wp_mono (greetRemote_session hne hclnt (by simp))
  rintro w types? ⟨hlocked, hconns⟩
  have hlocked : w.locked = false := hlocked.trans hlocked'
  cases types? with
  | none => exact hlocked
  | some types =>
  obtain ⟨hclnt, hremote⟩ := hconns rfl
  show Prog.wp session (answerRemote _ _ _ _ _ _ >>= _) _ w
  rw [Prog.wp_bind]
  apply Prog.wp_mono (answerRemote_session hne hclnt hremote hlocked)
  rintro w' ok ⟨hlocked, hconns⟩
  rw [Prog.wp_ite]
  constructor
  · intro _
    exact hlocked
  · intro hok
    obtain ⟨hclnt, hremote⟩ := hconns (not_not.mp hok)
    simp [View.next, View.Owes, hclnt, hremote, hne, hlocked]

end Contract

-- ============================================================================
-- Descriptors
-- ============================================================================

section Descriptors

variable {c c' : Config} {fd : Nat}

/-- The relay has made no step, and no number of an endpoint has changed. -/
structure Still (c c' : Config) : Prop where
  trace : c'.world.trace = c.world.trace
  pairs : c.world.pairs ≤ c'.world.pairs
  ep : ∀ e, e.pair < c.world.pairs → c'.world.ep e = c.world.ep e
  tied : ∀ e n, e.pair < c.world.pairs → c'.world.kernel.desc n = .tied e →
    c.world.kernel.desc n = .tied e

theorem Still.of_world (h : c'.world = c.world) : Still c c' := by
  refine ⟨by rw [h], by rw [h], fun _ _ => by rw [h], fun _ _ _ htied => ?_⟩
  rwa [h] at htied

theorem Still.refl (c : Config) : Still c c := Still.of_world rfl

theorem grab_spec (h : Proxy.step (.grab fd) c = some c') :
    Still c c' ∧ c.world.kernel.desc fd = .closed ∧
      c'.world.kernel.desc = Function.update c.world.kernel.desc fd .held := by
  simp only [Proxy.step] at h
  split at h
  · rename_i hguard
    obtain rfl := Option.some.inj h
    refine ⟨⟨rfl, Nat.le_refl _, fun _ _ => rfl, ?_⟩, hguard.2, rfl⟩
    intro e n _ htied
    by_cases hn : n = fd
    · subst hn
      simp [Polling.Kernel.setDesc] at htied
    · simpa [Polling.Kernel.setDesc, hn] using htied
  · cases h

theorem giveBack_spec (h : Proxy.step (.giveBack fd) c = some c') :
    Still c c' ∧ c'.world.kernel.desc = Function.update c.world.kernel.desc fd .closed := by
  simp only [Proxy.step] at h
  split at h
  · obtain rfl := Option.some.inj h
    refine ⟨⟨rfl, Nat.le_refl _, fun _ _ => rfl, ?_⟩, rfl⟩
    intro e n _ htied
    by_cases hn : n = fd
    · subst hn
      simp [Polling.Kernel.close] at htied
    · simpa [Polling.Kernel.close, hn] using htied
  · cases h

theorem cleanup_spec {valid : List (List Byte)}
    (h : Proxy.step (.cleanup valid) c = some c') : c'.world = c.world := by
  simp only [Proxy.step] at h
  split at h
  · obtain rfl := Option.some.inj h
    rfl
  · cases h

theorem tieFd_spec {key : List Byte} {fd1 fd2 : Nat}
    (h : Proxy.step (.tieFd key fd1 fd2) c = some c') :
    Still c c' ∧ fd1 ≠ fd2 ∧ c'.world.pairs = c.world.pairs + 1 ∧
      (c'.world.ep ⟨c.world.pairs, .first⟩).fd = fd1 ∧
      (c'.world.ep ⟨c.world.pairs, .second⟩).fd = fd2 ∧
      ∀ n, n ≠ fd1 → n ≠ fd2 → c'.world.kernel.desc n = c.world.kernel.desc n := by
  simp only [Proxy.step] at h
  split at h
  · rename_i hguard
    obtain rfl := Option.some.inj h
    refine ⟨⟨rfl, Nat.le_succ _, ?_, ?_⟩, hguard.2.2.2, rfl, ?_, ?_, ?_⟩
    · intro e he
      have hpair : ∀ side, e ≠ ⟨c.world.pairs, side⟩ := by
        rintro side rfl
        exact Nat.lt_irrefl _ he
      show (c.world.newPair fd1 fd2).ep e = _
      rw [Proxy.World.newPair_ep, if_neg (hpair _), if_neg (hpair _)]
    · intro e n he htied
      have hpair : ∀ side, (⟨c.world.pairs, side⟩ : Ep) ≠ e := by
        rintro side rfl
        exact Nat.lt_irrefl _ he
      change (c.world.newPair fd1 fd2).kernel.desc n = _ at htied
      rw [Proxy.World.newPair_desc, Function.update_apply, Function.update_apply] at htied
      split_ifs at htied with h2 h1
      · exact absurd (Desc.tied.inj htied) (hpair _)
      · exact absurd (Desc.tied.inj htied) (hpair _)
      · exact htied
    · show ((c.world.newPair fd1 fd2).ep _).fd = fd1
      simp [Proxy.World.newPair_ep, Proxy.EndPoint.new]
    · show ((c.world.newPair fd1 fd2).ep _).fd = fd2
      simp [Proxy.World.newPair_ep, Proxy.EndPoint.new]
    · intro n h1 h2
      show (c.world.newPair fd1 fd2).kernel.desc n = _
      rw [Proxy.World.newPair_desc, Function.update_of_ne h2, Function.update_of_ne h1]
  · cases h

theorem tieFd_desc {key : List Byte} {fd1 fd2 : Nat}
    (h : Proxy.step (.tieFd key fd1 fd2) c = some c') :
    c'.world.kernel.desc fd1 = .tied ⟨c.world.pairs, .first⟩ ∧
      c'.world.kernel.desc fd2 = .tied ⟨c.world.pairs, .second⟩ := by
  simp only [Proxy.step] at h
  split at h
  · rename_i hguard
    obtain rfl := Option.some.inj h
    show (c.world.newPair fd1 fd2).kernel.desc fd1 = _ ∧
      (c.world.newPair fd1 fd2).kernel.desc fd2 = _
    rw [Proxy.World.newPair_desc, Function.update_self, Function.update_of_ne hguard.2.2.2,
      Function.update_self]
    exact ⟨rfl, rfl⟩
  · cases h

theorem grab_pairs (h : Proxy.step (.grab fd) c = some c') : c'.world.pairs = c.world.pairs := by
  simp only [Proxy.step] at h
  split at h
  · exact Option.some.inj h ▸ rfl
  · cases h

theorem giveBack_pairs (h : Proxy.step (.giveBack fd) c = some c') :
    c'.world.pairs = c.world.pairs := by
  simp only [Proxy.step] at h
  split at h
  · exact Option.some.inj h ▸ rfl
  · cases h

end Descriptors

-- ============================================================================
-- One call
-- ============================================================================

namespace Service

/-- `n` is in the hands of an operator, and `c` was exchanged on it. -/
def Held (s : Service) (n : Nat) (c : Conn) : Prop :=
  s.desc n = .held ∧ c.got ++ s.input n = s.stream n

/-- Nothing has happened to number `n`. -/
structure Unmoved (s s' : Service) (n : Nat) : Prop where
  desc : s'.desc n = s.desc n
  input : s'.input n = s.input n
  stream : s'.stream n = s.stream n

theorem Unmoved.held {s s' : Service} {n : Nat} {c : Conn} (h : Unmoved s s' n) (hc : Held s n c) :
    Held s' n c := by
  rw [Held, h.desc, h.input, h.stream]
  exact hc

/-- What a call does to the service, apart from its answer. -/
structure Served (s s' : Service) (v v' : View) : Prop where
  run : Proxy.Run (fun _ _ => True) s'.config
  still : Still s.config s'.config
  operator : s'.operator = s.operator
  /-- a number that is neither the operator's nor free -/
  others : ∀ n, v.conns n = none → s.desc n ≠ .closed → Unmoved s s' n
  held : ∀ n c, v'.conns n = some c → Held s' n c
  /-- a number that has come into the operator's hands -/
  fresh : ∀ n, (v'.conns n).isSome → v.conns n = none → s.desc n = .closed

section Serve

variable {s s' : Service} {v : View} {i : Nat} {r : Reply}

/-- A call that touches no descriptor. -/
theorem Served.of_same {v' : View} (hrun : Proxy.Run (fun _ _ => True) s'.config)
    (hheld : ∀ n c, v.conns n = some c → Held s n c)
    (hworld : s'.config.world = s.config.world) (hinput : s'.input = s.input) (hstream : s'.stream = s.stream)
    (hoperator : s'.operator = s.operator)
    (hconns : ∀ n c', v'.conns n = some c' → ∃ c, v.conns n = some c ∧ c'.got = c.got) :
    Served s s' v v' := by
  have hsame : ∀ n, Unmoved s s' n := fun n =>
    ⟨by rw [desc, hworld]; rfl, by rw [hinput], by rw [hstream]⟩
  refine ⟨hrun, Still.of_world hworld, hoperator, fun n _ _ => hsame n, ?_, ?_⟩
  · intro n c' hc'
    obtain ⟨c, hc, hgot⟩ := hconns n c' hc'
    rw [Held, hgot]
    exact (hsame n).held (hheld n c hc)
  · intro n hn hnone
    obtain ⟨c', hc'⟩ := Option.isSome_iff_exists.mp hn
    obtain ⟨c, hc, -⟩ := hconns n c' hc'
    rw [hnone] at hc
    cases hc

theorem run_next {c c' : Config} {a : Act} (h : Proxy.Run (fun _ _ => True) c)
    (hs : Proxy.step a c = some c') : Proxy.Run (fun _ _ => True) c' :=
  Lib.Reach.step h ⟨a, trivial, hs⟩

/-- A socket is opened: what is sent on it has not been read. -/
theorem Served.of_opened {v' : View} {c : Config} {fd : Nat} {stream : List Byte}
    (hrun : Proxy.Run (fun _ _ => True) s.config)
    (hheld : ∀ n c, v.conns n = some c → Held s n c)
    (hgrab : Proxy.step (.grab fd) s.config = some c)
    (hconns : v'.conns = Function.update v.conns fd (some ⟨[], []⟩)) :
    Served s (s.opened c fd stream) v v' := by
  obtain ⟨hstill, hclosed, hdesc⟩ := grab_spec hgrab
  have hunmoved : ∀ n, n ≠ fd → Unmoved s (s.opened c fd stream) n := by
    intro n hn
    refine ⟨?_, Function.update_of_ne hn _ _, Function.update_of_ne hn _ _⟩
    show c.world.kernel.desc n = _
    rw [hdesc, Function.update_of_ne hn]
    rfl
  refine ⟨run_next hrun hgrab, hstill, rfl, ?_, ?_, ?_⟩
  · intro n _ hn
    apply hunmoved
    rintro rfl
    exact hn hclosed
  rotate_left
  · intro n hn hnone
    by_cases hfd : n = fd
    · subst hfd
      exact hclosed
    · rw [hconns, Function.update_of_ne hfd, hnone] at hn
      cases hn
  · intro n c' hc
    rw [hconns] at hc
    by_cases hn : n = fd
    · subst hn
      rw [Function.update_self] at hc
      obtain rfl := Option.some.inj hc
      refine ⟨?_, ?_⟩
      · show c.world.kernel.desc n = _
        rw [hdesc, Function.update_self]
      · show [] ++ Function.update s.input n stream n = Function.update s.stream n stream n
        rw [Function.update_self, Function.update_self, List.nil_append]
    · rw [Function.update_of_ne hn] at hc
      exact (hunmoved n hn).held (hheld n c' hc)

/-- Bytes are taken from a socket that the operator holds. -/
theorem Served.of_recv {fd n : Nat} (hrun : Proxy.Run (fun _ _ => True) s.config)
    (hheld : ∀ n c, v.conns n = some c → Held s n c) (hfd : (v.conns fd).isSome) :
    Served s { s with input := Function.update s.input fd ((s.input fd).drop n) } v
      (v.got fd ((s.input fd).take n)) := by
  have hunmoved : ∀ m, m ≠ fd →
      Unmoved s { s with input := Function.update s.input fd ((s.input fd).drop n) } m :=
    fun m hm => ⟨rfl, Function.update_of_ne hm _ _, rfl⟩
  refine ⟨hrun, Still.refl _, rfl, ?_, ?_, ?_⟩
  · intro m hm _
    apply hunmoved
    rintro rfl
    rw [hm] at hfd
    cases hfd
  rotate_left
  · intro m hm hnone
    rw [View.got_isSome, hnone] at hm
    cases hm
  · intro m c' hc'
    obtain ⟨c, hc, hgot'⟩ := View.of_got_conns hc'
    obtain ⟨hdesc, hgot⟩ := hheld m c hc
    refine ⟨hdesc, ?_⟩
    show c'.got ++ Function.update s.input fd ((s.input fd).drop n) m = s.stream m
    by_cases hm : m = fd
    · subst hm
      rw [hgot', if_pos rfl, Function.update_self, List.append_assoc, List.take_append_drop, hgot]
    · rw [hgot', if_neg hm, Function.update_of_ne hm, List.append_nil, hgot]

/-- A socket that the operator holds is closed. -/
theorem Served.of_close {fd : Nat} {c : Config} {v' : View}
    (hrun : Proxy.Run (fun _ _ => True) s.config)
    (hheld : ∀ n c, v.conns n = some c → Held s n c) (hfd : (v.conns fd).isSome)
    (hclose : Proxy.step (.giveBack fd) s.config = some c)
    (hconns : v'.conns = Function.update v.conns fd none) :
    Served s { s with config := c } v v' := by
  obtain ⟨hstill, hdesc⟩ := giveBack_spec hclose
  have hunmoved : ∀ n, n ≠ fd → Unmoved s { s with config := c } n := by
    intro n hn
    refine ⟨?_, rfl, rfl⟩
    show c.world.kernel.desc n = _
    rw [hdesc, Function.update_of_ne hn]
    rfl
  refine ⟨run_next hrun hclose, hstill, rfl, ?_, ?_, ?_⟩
  · intro n hn _
    apply hunmoved
    rintro rfl
    rw [hn] at hfd
    cases hfd
  rotate_left
  · intro n hn hnone
    rw [hconns, Function.update_apply, hnone, ite_self] at hn
    cases hn
  · intro n c' hc'
    rw [hconns] at hc'
    by_cases hn : n = fd
    · subst hn
      rw [Function.update_self] at hc'
      cases hc'
    · rw [Function.update_of_ne hn] at hc'
      exact (hunmoved n hn).held (hheld n c' hc')

/-- Two sockets that the operator holds are handed to the relay. -/
theorem Served.of_tieFd {key : List Byte} {fd1 fd2 : Nat} {c : Config} {v' : View}
    {tied : Nat → Option Tied} (hrun : Proxy.Run (fun _ _ => True) s.config)
    (hheld : ∀ n c, v.conns n = some c → Held s n c) (h1 : (v.conns fd1).isSome)
    (h2 : (v.conns fd2).isSome) (htie : Proxy.step (.tieFd key fd1 fd2) s.config = some c)
    (hconns : v'.conns = Function.update (Function.update v.conns fd1 none) fd2 none) :
    Served s { s with config := c, tied } v v' := by
  obtain ⟨hstill, -, -, -, -, hdesc⟩ := tieFd_spec htie
  have hunmoved : ∀ n, n ≠ fd1 → n ≠ fd2 → Unmoved s { s with config := c, tied } n :=
    fun n hn1 hn2 => ⟨hdesc n hn1 hn2, rfl, rfl⟩
  refine ⟨run_next hrun htie, hstill, rfl, ?_, ?_, ?_⟩
  · intro n hn _
    apply hunmoved
    · rintro rfl
      rw [hn] at h1
      cases h1
    · rintro rfl
      rw [hn] at h2
      cases h2
  rotate_left
  · intro n hn hnone
    rw [hconns, Function.update_apply, Function.update_apply, hnone, ite_self, ite_self] at hn
    cases hn
  · intro n c' hc'
    rw [hconns, Function.update_apply, Function.update_apply] at hc'
    split_ifs at hc' with hn2 hn1
    exact (hunmoved n hn1 hn2).held (hheld n c' hc')

/-- One call of an operator that keeps to its contract. -/
theorem serve_spec (hrun : Proxy.Run (fun _ _ => True) s.config)
    (hheld : ∀ n c, v.conns n = some c → Held s n c) {op : Call} {a : op.Ans} (howes : v.Owes op)
    (h : s.serve i r op = some (a, s')) : Served s s' v (v.next op a) := by
  have hkeep : ∀ n c', v.conns n = some c' → ∃ c, v.conns n = some c ∧ c'.got = c.got :=
    fun n c' hc' => ⟨c', hc', rfl⟩
  cases op with
  | setNonblocking fd b =>
    obtain ⟨rfl, rfl⟩ := Prod.mk.inj (Option.some.inj h)
    exact Served.of_same hrun hheld rfl rfl rfl rfl hkeep
  | send fd buf =>
    simp only [serve] at h
    split at h
    · obtain ⟨rfl, rfl⟩ := Prod.mk.inj (Option.some.inj h)
      apply Served.of_same hrun hheld rfl rfl rfl rfl
      exact fun n c' hc' => View.of_put_conns hc'
    · cases h
  | recv fd len =>
    simp only [serve] at h
    split at h
    · obtain ⟨rfl, rfl⟩ := Prod.mk.inj (Option.some.inj h)
      apply Served.of_same hrun hheld rfl rfl rfl rfl
      intro n c' hc'
      obtain ⟨c, hc, hgot⟩ := View.of_got_conns hc'
      exact ⟨c, hc, by simpa using hgot⟩
    · obtain ⟨rfl, rfl⟩ := Prod.mk.inj (Option.some.inj h)
      exact Served.of_recv hrun hheld howes
  | close fd =>
    obtain ⟨c, hclose, heq⟩ := Option.map_eq_some_iff.mp h
    obtain ⟨rfl, rfl⟩ := Prod.mk.inj heq
    exact Served.of_close hrun hheld howes hclose rfl
  | rand =>
    obtain ⟨rfl, rfl⟩ := Prod.mk.inj (Option.some.inj h)
    exact Served.of_same hrun hheld rfl rfl rfl rfl hkeep
  | connectTo addr =>
    simp only [serve] at h
    split at h
    · obtain ⟨rfl, rfl⟩ := Prod.mk.inj (Option.some.inj h)
      exact Served.of_same hrun hheld rfl rfl rfl rfl hkeep
    · obtain ⟨c, hgrab, heq⟩ := Option.map_eq_some_iff.mp h
      obtain ⟨rfl, rfl⟩ := Prod.mk.inj heq
      exact Served.of_opened hrun hheld hgrab rfl
  | tieFd key fd1 fd2 =>
    obtain ⟨c, htie, heq⟩ := Option.map_eq_some_iff.mp h
    obtain ⟨rfl, rfl⟩ := Prod.mk.inj heq
    exact Served.of_tieFd hrun hheld howes.1 howes.2.1 htie rfl
  | lock =>
    simp only [serve] at h
    split at h
    · obtain ⟨rfl, rfl⟩ := Prod.mk.inj (Option.some.inj h)
      exact Served.of_same hrun hheld rfl rfl rfl rfl hkeep
    · cases h
  | unlock =>
    simp only [serve] at h
    split at h
    · obtain ⟨rfl, rfl⟩ := Prod.mk.inj (Option.some.inj h)
      exact Served.of_same hrun hheld rfl rfl rfl rfl hkeep
    · cases h
  | selectRoutes =>
    obtain ⟨rfl, rfl⟩ := Prod.mk.inj (Option.some.inj h)
    exact Served.of_same hrun hheld rfl rfl rfl rfl hkeep
  | selectKeys =>
    obtain ⟨rfl, rfl⟩ := Prod.mk.inj (Option.some.inj h)
    exact Served.of_same hrun hheld rfl rfl rfl rfl hkeep
  | cleanup valid =>
    obtain ⟨c, hcleanup, heq⟩ := Option.map_eq_some_iff.mp h
    obtain ⟨rfl, rfl⟩ := Prod.mk.inj heq
    exact Served.of_same (run_next hrun hcleanup) hheld (cleanup_spec hcleanup) rfl rfl rfl hkeep
  | rfbUseKey knl =>
    obtain ⟨rfl, rfl⟩ := Prod.mk.inj (Option.some.inj h)
    exact Served.of_same hrun hheld rfl rfl rfl rfl hkeep
  | rfbDes inblock =>
    obtain ⟨rfl, rfl⟩ := Prod.mk.inj (Option.some.inj h)
    exact Served.of_same hrun hheld rfl rfl rfl rfl hkeep
  | abort => cases h
  | undefined => cases h

/-- What the contract grants is what happens. -/
theorem serve_grants (hheld : ∀ n c, v.conns n = some c → Held s n c) (hin : Inside s i v)
    {op : Call} {a : op.Ans} (howes : v.Owes op) (h : s.serve i r op = some (a, s')) :
    v.Grants op a := by
  cases op with
  | send fd buf =>
    simp only [serve] at h
    split at h
    · rename_i hle
      obtain ⟨rfl, -⟩ := Prod.mk.inj (Option.some.inj h)
      exact hle
    · cases h
  | recv fd len =>
    simp only [serve] at h
    split at h
    · obtain ⟨rfl, -⟩ := Prod.mk.inj (Option.some.inj h)
      intro bytes hbytes
      cases hbytes
    · obtain ⟨rfl, -⟩ := Prod.mk.inj (Option.some.inj h)
      intro bytes hbytes
      obtain rfl := Option.some.inj hbytes
      rw [List.length_take]
      omega
  | connectTo addr =>
    simp only [serve] at h
    split at h
    · obtain ⟨rfl, -⟩ := Prod.mk.inj (Option.some.inj h)
      intro fd hfd
      cases hfd
    · obtain ⟨c, hgrab, heq⟩ := Option.map_eq_some_iff.mp h
      obtain ⟨rfl, -⟩ := Prod.mk.inj heq
      intro fd hfd
      obtain rfl := Option.some.inj hfd
      apply Option.eq_none_iff_forall_ne_some.mpr
      intro c' hc'
      have hdesc : s.config.world.kernel.desc _ = _ := (hheld _ c' hc').1
      rw [(grab_spec hgrab).2.1] at hdesc
      cases hdesc
  | rfbDes inblock =>
    obtain ⟨rfl, -⟩ := Prod.mk.inj (Option.some.inj h)
    intro knl hknl
    rw [hin.register howes knl hknl]
  | setNonblocking | close | rand | tieFd | lock | unlock | selectRoutes | selectKeys | cleanup
  | rfbUseKey | abort | undefined => trivial

end Serve

-- ============================================================================
-- Pairs
-- ============================================================================

/-- Endpoint `e` goes on where the operator has stopped: what it has received follows
    `c` in the stream, and as long as it holds its socket nothing is left out. -/
structure Fed (s : Service) (e : Ep) (fd : Nat) (c : Conn) (stream : List Byte) : Prop where
  born : e.pair < s.config.world.pairs
  number : (s.config.world.ep e).fd = fd
  taken : c.got ++ Proxy.received e s.trace <+: stream
  rest : s.desc fd = .tied e → c.got ++ Proxy.received e s.trace ++ s.input fd = stream

/-- Both endpoints of the pair that was tied go on where the operator has stopped. -/
def TiedOk (s : Service) (t : Tied) (d : Splice) : Prop :=
  ∃ client server, d.client = some client ∧ d.server = some server ∧
    Fed s ⟨t.pair, .first⟩ d.clnt client t.client ∧
    Fed s ⟨t.pair, .second⟩ d.remote server t.server

section Pairs

variable {s s' : Service} {v : View} {i : Nat} {r : Reply}

theorem Fed.served {v' : View} {e : Ep} {fd : Nat} {c : Conn} {stream : List Byte}
    (h : Fed s e fd c stream) (hs : Served s s' v v')
    (hheld : ∀ n c, v.conns n = some c → Held s n c) : Fed s' e fd c stream := by
  have htrace : s'.trace = s.trace := hs.still.trace
  refine ⟨Nat.lt_of_lt_of_le h.born hs.still.pairs, ?_, htrace ▸ h.taken, ?_⟩
  · rw [hs.still.ep e h.born]
    exact h.number
  · intro htied
    have hbefore : s.desc fd = .tied e := hs.still.tied e fd h.born htied
    have hfree : v.conns fd = none := by
      apply Option.eq_none_iff_forall_ne_some.mpr
      intro c' hc'
      rw [(hheld fd c' hc').1] at hbefore
      cases hbefore
    have hmoved := hs.others fd hfree (by rw [hbefore]; exact fun h => by cases h)
    rw [hmoved.input, htrace]
    exact h.rest hbefore

theorem TiedOk.served {v' : View} {t : Tied} {d : Splice} (h : TiedOk s t d)
    (hs : Served s s' v v') (hheld : ∀ n c, v.conns n = some c → Held s n c) : TiedOk s' t d := by
  obtain ⟨client, server, hclient, hserver, hfirst, hsecond⟩ := h
  exact ⟨client, server, hclient, hserver, hfirst.served hs hheld, hsecond.served hs hheld⟩

/-- The pair that a `tie_fd` call makes. -/
theorem TiedOk.of_tieFd {key : List Byte} {fd1 fd2 : Nat} {c : Config} {tied : Nat → Option Tied}
    (hrun : Proxy.Run (fun _ _ => True) s.config)
    (hheld : ∀ n c, v.conns n = some c → Held s n c) (h1 : (v.conns fd1).isSome)
    (h2 : (v.conns fd2).isSome) (htie : Proxy.step (.tieFd key fd1 fd2) s.config = some c) :
    TiedOk { s with config := c, tied } ⟨s.config.world.pairs, s.stream fd1, s.stream fd2⟩
      ⟨key, fd1, fd2, v.conns fd1, v.conns fd2⟩ := by
  obtain ⟨hstill, -, hpairs, hfd1, hfd2, -⟩ := tieFd_spec htie
  have hnone : ∀ side, Proxy.received ⟨s.config.world.pairs, side⟩ c.world.trace = [] := by
    intro side
    rw [hstill.trace]
    exact ((Proxy.relayInv_run hrun).flow.unborn_silent (Nat.le_refl _)).1
  have hfed : ∀ side fd c', (c.world.ep ⟨s.config.world.pairs, side⟩).fd = fd →
      v.conns fd = some c' → Fed { s with config := c, tied } ⟨s.config.world.pairs, side⟩ fd c'
        (s.stream fd) := by
    intro side fd c' hfd hc'
    have hgot : c'.got ++ Proxy.received ⟨s.config.world.pairs, side⟩ c.world.trace ++ s.input fd =
        s.stream fd := by
      rw [hnone side, List.append_nil]
      exact (hheld fd c' hc').2
    refine ⟨?_, hfd, ⟨s.input fd, hgot⟩, fun _ => hgot⟩
    show s.config.world.pairs < c.world.pairs
    rw [hpairs]
    exact Nat.lt_succ_self _
  obtain ⟨client, hclient⟩ := Option.isSome_iff_exists.mp h1
  obtain ⟨server, hserver⟩ := Option.isSome_iff_exists.mp h2
  exact ⟨client, server, hclient, hserver, hfed .first fd1 client hfd1 hclient,
    hfed .second fd2 server hfd2 hserver⟩

/-- The table of pairs changes with a `tie_fd` call only. -/
theorem serve_tied {op : Call} {a : op.Ans} (h : s.serve i r op = some (a, s')) :
    (s'.tied = s.tied ∧ (v.next op a).tied = v.tied) ∨
      ∃ key fd1 fd2 c, op = .tieFd key fd1 fd2 ∧
        Proxy.step (.tieFd key fd1 fd2) s.config = some c ∧
        (v.next op a).tied = some ⟨key, fd1, fd2, v.conns fd1, v.conns fd2⟩ ∧
        s' = { s with
          config := c
          tied := Function.update s.tied i
            (some ⟨s.config.world.pairs, s.stream fd1, s.stream fd2⟩) } := by
  rcases serve_cases h with ⟨_, hop, rfl⟩ | ⟨rfl, -, rfl⟩ | ⟨rfl, -, rfl⟩ | ⟨_, rfl, rfl⟩ |
    ⟨_, _, rfl, -, rfl⟩ | ⟨addr, rfl, hconnect⟩ | ⟨_, _, rfl, -, rfl⟩ |
    ⟨key, fd1, fd2, c, rfl, htie, rfl⟩
  · exact Or.inl ⟨rfl, (View.next_plain v a hop).2.2⟩
  · exact Or.inl ⟨rfl, rfl⟩
  · exact Or.inl ⟨rfl, rfl⟩
  · exact Or.inl ⟨rfl, rfl⟩
  · exact Or.inl ⟨rfl, rfl⟩
  · have htied := (View.next_connectTo v addr a).2.2
    rcases hconnect with rfl | ⟨_, _, -, rfl⟩
    · exact Or.inl ⟨rfl, htied⟩
    · exact Or.inl ⟨rfl, htied⟩
  · exact Or.inl ⟨rfl, rfl⟩
  · exact Or.inr ⟨key, fd1, fd2, c, rfl, htie, rfl, rfl⟩

end Pairs

end Service

end VncProxy.Handshake
