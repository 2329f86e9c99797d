/-
  VncProxy.Proxy.Relay

  Relay integrity, in terms of descriptor numbers.  As long as no pair has been
  shut down every endpoint still holds the socket it was made for, so no two
  endpoints share a number and the bytes of an endpoint are the bytes of its
  descriptor.
-/
import VncProxy.Proxy.Frame

namespace VncProxy.Proxy

open Lib (Threads)
open Polling

-- ============================================================================
-- The whole system
-- ============================================================================

/-- Before the first shutdown no descriptor of an endpoint is closed, and every
    endpoint holds its own. -/
def Owned (c : Config) : Prop :=
  (∀ t e, .close e ∉ c.code t) ∧
    ∀ e, e.pair < c.world.pairs → c.world.kernel.desc (c.world.ep e).fd = .tied e

def Undisturbed (w : World) : Prop := ∀ e, .shutdown e ∉ w.trace

structure RelayInv (c : Config) : Prop where
  flow : Flow c.world
  placed : ∀ t, ∀ i ∈ c.code t, Placed c.world.pairs i
  owned : Undisturbed c.world → Owned c

section System

variable {c c' : Config}

theorem relayInv_start : RelayInv Config.start := by
  refine ⟨Flow.start, ?_, ?_⟩
  · intro t i hi
    simp [Config.start] at hi
  · intro _
    exact ⟨fun t e he => by simp [Config.start] at he, fun e he => absurd he (Nat.not_lt_zero _)⟩

/-- The world is unchanged and the new code is harmless. -/
theorem RelayInv.load (h : RelayInv c) (t : Tid) {is : List Instr}
    (his : ∀ i ∈ is, (∀ n, Placed n i) ∧ ∀ e, i ≠ .close e) : RelayInv (c.load t is) := by
  refine ⟨h.flow, ?_, ?_⟩
  · intro u i hi
    rcases Threads.mem_load hi with hi | hi
    · exact (his i hi).1 _
    · exact h.placed u i hi
  · intro hu
    obtain ⟨hclose, hdesc⟩ := h.owned hu
    refine ⟨?_, hdesc⟩
    intro u e he
    rcases Threads.mem_load he with he | he
    · exact (his _ he).2 e rfl
    · exact hclose u e he

theorem RelayInv.exec (h : RelayInv c) {t : Tid} {o : Oracle}
    (hs : step (.exec t o) c = some c') : RelayInv c' := by
  obtain ⟨i, rest, -, hcode, ⟨-, rfl⟩ | ⟨w, pre, hexec, rfl⟩⟩ := Threads.run_cases hs
  · exact ⟨h.flow, h.placed, h.owned⟩
  have hi : i ∈ c.code t := by
    rw [hcode]
    exact List.mem_cons_self
  have hframe := exec_frame h.flow hexec
  have hcodes : ∀ u, ∀ j ∈ (c.load t (pre ++ rest)).code u, j ∈ pre ∨ j ∈ c.code u := by
    intro u j hj
    by_cases hu : u = t
    · subst hu
      rw [Threads.load_code_self, List.mem_append] at hj
      rcases hj with hj | hj
      · exact Or.inl hj
      · rw [hcode]
        exact Or.inr (List.mem_cons_of_mem _ hj)
    · rw [Threads.load_code_of_ne _ hu] at hj
      exact Or.inr hj
  refine ⟨exec_flow h.flow (h.placed t i hi) hexec, ?_, ?_⟩
  · intro u j hj
    show Placed w.pairs j
    rcases hcodes u j hj with hj | hj
    · exact (exec_pre hexec j hj).1 _
    · rw [hframe.pairs]
      exact h.placed u j hj
  · intro hu
    obtain ⟨evs, htrace, -⟩ := hframe.trace
    have hbefore : Undisturbed c.world := by
      intro e he
      apply hu e
      show _ ∈ w.trace
      rw [htrace]
      exact List.mem_append_left _ he
    obtain ⟨hclose, hdesc⟩ := h.owned hbefore
    refine ⟨?_, ?_⟩
    · intro u e he
      rcases hcodes u _ he with he | he
      · -- a new `close` comes from a shutdown, which is in the trace by now
        have hi' := (exec_pre hexec _ he).2.1 e rfl
        subst hi'
        obtain ⟨rfl, -⟩ := Prod.mk.inj (Option.some.inj hexec)
        exact hu e (by simp)
      · exact hclose u e he
    · intro e he
      show w.kernel.desc (w.ep e).fd = _
      rw [hframe.fd, hframe.desc ?_]
      · exact hdesc e (hframe.pairs ▸ he)
      · intro x hx
        exact hclose t x (hx ▸ hi)

theorem tieFd_placed {p n : Nat} (hp : p < n) (key : Key) :
    ∀ i ∈ tieFd p key, Placed n i ∧ ∀ e, i ≠ .close e := by
  simp [tieFd, Placed, hp, Ep.other, Side.other]

theorem RelayInv.step {a : Act} (h : RelayInv c) (hs : step a c = some c') : RelayInv c' := by
  cases a with
  | exec t o => exact h.exec hs
  | wait batch =>
    simp only [Proxy.step] at hs
    split at hs
    · obtain ⟨is, his, rfl⟩ := Option.map_eq_some_iff.mp hs
      apply h.load
      intro i hi
      rcases List.mem_append.mp hi with hi | hi
      · obtain ⟨entry, -, r, -, rfl⟩ := mem_entries his hi
        simp [Placed]
      · rw [List.mem_singleton.mp hi]
        simp [Placed]
    · cases hs
  | tieFd key fd1 fd2 =>
    simp only [Proxy.step] at hs
    split at hs
    · rename_i hguard
      obtain ⟨-, hheld1, hheld2, hne⟩ := hguard
      obtain rfl := Option.some.inj hs
      refine ⟨h.flow.newPair fd1 fd2, ?_, ?_⟩
      · intro u i hi
        rcases Threads.mem_load hi with hi | hi
        · exact (tieFd_placed (Nat.lt_succ_self _) key i hi).1
        · have hold := h.placed u i hi
          cases i with
          | tie e o k => exact ⟨Nat.lt_succ_of_lt hold.1, hold.2⟩
          | ready e => exact Nat.lt_succ_of_lt hold
          | _ => trivial
      · intro hu
        obtain ⟨hclose, hdesc⟩ := h.owned hu
        refine ⟨?_, ?_⟩
        · intro u e he
          rcases Threads.mem_load he with he | he
          · exact (tieFd_placed (Nat.lt_succ_self _) key _ he).2 e rfl
          · exact hclose u e he
        · intro e he
          show (c.world.newPair fd1 fd2).kernel.desc ((c.world.newPair fd1 fd2).ep e).fd = _
          rw [World.newPair_ep, World.newPair_desc]
          obtain ⟨p, s⟩ := e
          by_cases hp : p = c.world.pairs
          · subst hp
            cases s <;> simp [EndPoint.new, hne]
          · have hlt : p < c.world.pairs := Nat.lt_of_le_of_ne (Nat.le_of_lt_succ he) hp
            have hown := hdesc ⟨p, s⟩ hlt
            have h1 : (c.world.ep ⟨p, s⟩).fd ≠ fd1 := by
              intro heq
              rw [heq, hheld1] at hown
              cases hown
            have h2 : (c.world.ep ⟨p, s⟩).fd ≠ fd2 := by
              intro heq
              rw [heq, hheld2] at hown
              cases hown
            simp [hp, h1, h2, hown]
    · cases hs
  | cleanup valid =>
    simp only [Proxy.step] at hs
    split at hs
    · obtain rfl := Option.some.inj hs
      apply h.load
      simp [Placed]
    · cases hs
  | grab fd =>
    simp only [Proxy.step] at hs
    split at hs
    · rename_i hguard
      obtain rfl := Option.some.inj hs
      refine ⟨h.flow.sameFlow (SameFlow.of_ep rfl rfl (List.append_nil _).symm (by simp)),
        h.placed, ?_⟩
      intro hu
      obtain ⟨hclose, hdesc⟩ := h.owned hu
      refine ⟨hclose, ?_⟩
      intro e he
      have hne : (c.world.ep e).fd ≠ fd := by
        intro heq
        have hown := hdesc e he
        rw [heq, hguard.2] at hown
        cases hown
      show Function.update c.world.kernel.desc fd .held (c.world.ep e).fd = _
      rw [Function.update_of_ne hne]
      exact hdesc e he
    · cases hs
  | giveBack fd =>
    simp only [Proxy.step] at hs
    split at hs
    · rename_i hguard
      obtain rfl := Option.some.inj hs
      refine ⟨h.flow.sameFlow (SameFlow.of_ep rfl rfl (List.append_nil _).symm (by simp)),
        h.placed, ?_⟩
      intro hu
      obtain ⟨hclose, hdesc⟩ := h.owned hu
      refine ⟨hclose, ?_⟩
      intro e he
      have hne : (c.world.ep e).fd ≠ fd := by
        intro heq
        have hown := hdesc e he
        rw [heq, hguard.2] at hown
        cases hown
      show Function.update c.world.kernel.desc fd .closed (c.world.ep e).fd = _
      rw [Function.update_of_ne hne]
      exact hdesc e he
    · cases hs

theorem relayInv_run {allowed : Config → Act → Prop} (h : Run allowed c) : RelayInv c := by
  refine Lib.Reach.invariant (I := RelayInv) ?_ ?_ h
  · rintro _ rfl
    exact relayInv_start
  · rintro s s' - hs ⟨a, -, hstep⟩
    exact hs.step hstep

/-- The bytes on a descriptor are the bytes of the one endpoint that has it. -/
theorem readFrom_fd (h : RelayInv c) (hu : Undisturbed c.world) {e : Ep}
    (he : e.pair < c.world.pairs) :
    readFrom (c.world.ep e).fd c.world.trace = received e c.world.trace ∧
      writtenTo (c.world.ep e).fd c.world.trace = sent e c.world.trace := by
  obtain ⟨-, hdesc⟩ := h.owned hu
  have hcall : ∀ x n call, Event.call x n call ∈ c.world.trace →
      (n = (c.world.ep e).fd ↔ x = e) := by
    intro x n call hmem
    obtain ⟨hx, rfl⟩ := h.flow.calls x n call hmem
    constructor
    · intro heq
      have hown := hdesc x hx
      rw [heq, hdesc e he] at hown
      injection hown with hown
      exact hown.symm
    · rintro rfl
      rfl
  constructor
  · apply List.flatMap_congr
    intro ev hev
    cases ev with
    | call x n call =>
      by_cases hx : x = e <;> simp [Event.readBy, hcall x n call hev, hx]
    | close | ctl | shutdown => rfl
  · apply List.flatMap_congr
    intro ev hev
    cases ev with
    | call x n call =>
      by_cases hx : x = e <;> simp [Event.writtenBy, hcall x n call hev, hx]
    | close | ctl | shutdown => rfl

/-- As long as no pair has been shut down, in both directions of every pair: the
    bytes read from one descriptor are the bytes written to the other followed by
    what its buffer holds. -/
theorem relay_integrity (hrun : Run (fun _ _ => True) c) (hu : Undisturbed c.world) {e : Ep}
    (he : e.pair < c.world.pairs) :
    readFrom (c.world.ep e).fd c.world.trace =
      writtenTo (c.world.ep e.other).fd c.world.trace ++ (c.world.ep e.other).buf.content := by
  have h := relayInv_run hrun
  rw [(readFrom_fd h hu he).1, (readFrom_fd h hu (e := e.other) he).2]
  exact h.flow.relay e

/-- Five bytes arrive for one side of a pair, and the other side takes three. -/
def relayActs : List Act :=
  tieActs [97] 3 4 ++
  [.wait [(3, ⟨true, false, false, false, false⟩), (4, ⟨false, true, false, false, false⟩)],
   .exec .poll .idle, .exec .poll ⟨[some [1, 2, 3, 4, 5]], [], []⟩,
   .exec .poll .idle, .exec .poll ⟨[], [3, -1], []⟩]

@[irreducible] def relayEnd : Config :=
  Lib.lastState (fun a c => if True then step a c else none) relayActs Config.start

theorem relayEnd_eq : relayEnd =
    Lib.lastState (fun a c => if True then step a c else none) relayActs Config.start := by
  unfold relayEnd
  rfl

theorem relayEnd_trace : relayEnd.world.trace =
    [.ctl .add 3, .ctl .add 4, .call ⟨0, .first⟩ 3 (.read 8192 (some [1, 2, 3, 4, 5])),
     .call ⟨0, .first⟩ 3 (.read 8187 none), .call ⟨0, .second⟩ 4 (.write [1, 2, 3, 4, 5] 3),
     .call ⟨0, .second⟩ 4 (.write [4, 5] (-1))] := by
  decide +kernel

theorem relay_integrity_five_bytes :
    readFrom (relayEnd.world.ep ⟨0, .first⟩).fd relayEnd.world.trace =
      writtenTo (relayEnd.world.ep ⟨0, .second⟩).fd relayEnd.world.trace ++
        (relayEnd.world.ep ⟨0, .second⟩).buf.content := by
  have hrun : Run (fun _ _ => True) relayEnd :=
    Run.of_acts (relayEnd_eq ▸ Lib.runActs_eq_lastState (by decide +kernel))
  have hu : Undisturbed relayEnd.world := by
    intro e he
    simp [relayEnd_trace] at he
  have hpairs : 0 < relayEnd.world.pairs := by decide +kernel
  exact relay_integrity (e := ⟨0, .first⟩) hrun hu hpairs

end System

end VncProxy.Proxy
