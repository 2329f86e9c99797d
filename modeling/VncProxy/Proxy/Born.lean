/-
  VncProxy.Proxy.Born

  No thread has a pointer to an endpoint that has not been made: the sections that
  are left to run, the registry, the removal list and the table of the kernel name
  endpoints of past `tie_fd` calls only, in every run.
-/
import VncProxy.Proxy.Relay

namespace VncProxy.Proxy

open Lib (Threads)
open Polling

/-- The endpoint that a section is about. -/
def Instr.about : Instr → Option Ep
  | .tie e _ _ | .refCopy e | .add e | .epollAdd e | .ready e | .shutdown e | .close e
  | .remove e | .pend e | .leaderPart e | .eraseLeader e | .logShutdown e | .release e
  | .event e _ | .handleRead e | .handleWrite e | .handleError e | .unregister e
  | .drop e => some e
  | .collect _ | .swapPending => none

/-- The pointers in the shared state. -/
structure Pointers (w : World) : Prop where
  leaders : ∀ x ∈ w.leaders, x.2.pair < w.pairs
  pending : ∀ e ∈ w.thread.pendingRemove, e.pair < w.pairs
  table : ∀ n r, w.kernel.table n = some r → r.ptr.pair < w.pairs

structure Born (c : Config) : Prop where
  world : Pointers c.world
  code : ∀ t, ∀ i ∈ c.code t, ∀ e, i.about = some e → e.pair < c.world.pairs

section Exec

variable {w w' : World} {o : Oracle} {i : Instr} {pre : List Instr}

/-- A step that makes no pointer. -/
theorem Pointers.of_eq (h : Pointers w) (hpairs : w'.pairs = w.pairs)
    (hleaders : w'.leaders = w.leaders) (hthread : w'.thread = w.thread)
    (hkernel : w'.kernel = w.kernel) : Pointers w' := by
  refine ⟨?_, ?_, ?_⟩
  · rw [hleaders, hpairs]
    exact h.leaders
  · rw [hthread, hpairs]
    exact h.pending
  · rw [hkernel, hpairs]
    exact h.table

/-- What the kernel holds of a registration is a pointer to `e`, or was there. -/
theorem table_update {e : Ep} (h : Pointers w) (he : e.pair < w.pairs) {fd : Nat}
    {ev : Option (Interest Ep)} (hev : ∀ r, ev = some r → r.ptr = e) :
    ∀ n r, Function.update w.kernel.table fd ev n = some r → r.ptr.pair < w.pairs := by
  intro n r hr
  rw [Function.update_apply] at hr
  split at hr
  · rw [hev r hr]
    exact he
  · exact h.table n r hr

theorem Pointers.updateMode {e : Ep} {newMode : Mode} (h : Pointers w) (he : e.pair < w.pairs)
    (hs : w.updateMode e newMode = some w') : Pointers w' := by
  rcases World.updateMode_cases hs with ⟨rfl, -⟩ | ⟨oldMode, rfl, -⟩
  · exact h
  · refine ⟨h.leaders, h.pending, table_update h he ?_⟩
    intro r hr
    rw [← Option.some.inj hr]
    rfl

theorem Pointers.handleRead {e : Ep} {offers : List (Option (List Byte))} (h : Pointers w)
    (hw : Flow w) (he : e.pair < w.pairs) (hs : w.handleRead e offers = some w') :
    Pointers w' := by
  cases hen : (w.ep e).enabled with
  | false =>
    rw [World.handleRead_disabled hen] at hs
    exact Option.some.inj hs ▸ h
  | true =>
    rcases hw.peer e with hpeer | hpeer
    · simp [World.handleRead, hen, hpeer] at hs
    obtain ⟨calls, buf, -, heq⟩ := World.handleRead_eq hen hpeer (hw.bufs e.other) offers
    have htr : Pointers (w.transferred e e.other calls buf) := h.of_eq rfl rfl rfl rfl
    rw [heq] at hs
    split at hs
    · exact htr.updateMode (e := e.other) he hs
    · exact Option.some.inj hs ▸ htr

theorem Pointers.handleWrite {e : Ep} {accepts : List Int} (h : Pointers w) (hw : Flow w)
    (he : e.pair < w.pairs) (hs : w.handleWrite e accepts = some w') : Pointers w' := by
  cases hen : (w.ep e).enabled with
  | false =>
    rw [World.handleWrite_disabled hen] at hs
    exact Option.some.inj hs ▸ h
  | true =>
    obtain ⟨calls, buf, -, heq⟩ := World.handleWrite_eq hen (hw.bufs e) accepts
    have htr : Pointers (w.transferred e e calls buf) := h.of_eq rfl rfl rfl rfl
    rw [heq] at hs
    exact htr.updateMode he hs

/-- The peer of an endpoint is of the same pair. -/
theorem Flow.peer_pair (hw : Flow w) {e peer : Ep} (h : (w.ep e).peer = some peer) :
    peer.pair = e.pair := by
  rcases hw.peer e with hp | hp <;> rw [hp] at h
  · cases h
  · rw [← Option.some.inj h, Ep.other_pair]

/-- A section makes pointers to the endpoints that it knows only. -/
theorem exec_pointers (hw : Flow w) (h : Pointers w)
    (hi : ∀ e, i.about = some e → e.pair < w.pairs) (hexec : exec o w i = some (w', pre)) :
    Pointers w' ∧ ∀ j ∈ pre, ∀ e, j.about = some e → e.pair < w.pairs := by
  have hnil : ∀ j ∈ ([] : List Instr), ∀ e, j.about = some e → e.pair < w.pairs := by simp
  cases i with
  | tie e other key =>
    obtain ⟨rfl, rfl⟩ := Prod.mk.inj (Option.some.inj hexec)
    refine ⟨⟨?_, h.pending, h.table⟩, hnil⟩
    intro x hx
    rcases List.mem_orderedInsert .. |>.mp hx with rfl | hx
    · exact hi e rfl
    · exact h.leaders x hx
  | refCopy | ready =>
    obtain ⟨rfl, rfl⟩ := Prod.mk.inj (Option.some.inj hexec)
    exact ⟨h.of_eq rfl rfl rfl rfl, hnil⟩
  | add e =>
    obtain ⟨-, -, rfl, rfl⟩ := exec_add.mp hexec
    exact ⟨⟨h.leaders, h.pending, h.table⟩, hnil⟩
  | epollAdd e =>
    obtain ⟨-, -, rfl, rfl⟩ := exec_epollAdd.mp hexec
    refine ⟨⟨h.leaders, h.pending, table_update h (hi e rfl) ?_⟩, hnil⟩
    intro r hr
    rw [← Option.some.inj hr]
    rfl
  | shutdown e =>
    obtain ⟨rfl, rfl⟩ := Prod.mk.inj (Option.some.inj hexec)
    refine ⟨h.of_eq rfl rfl rfl rfl, ?_⟩
    simpa [Instr.about] using hi e rfl
  | close e =>
    obtain ⟨rfl, rfl⟩ := Prod.mk.inj (Option.some.inj hexec)
    refine ⟨⟨h.leaders, h.pending, table_update h (hi e rfl) ?_⟩, hnil⟩
    intro r hr
    cases hr
  | remove e =>
    rcases exec_remove.mp hexec with ⟨-, -, rfl, rfl⟩ | ⟨-, -, rfl, rfl⟩
    · refine ⟨⟨h.leaders, h.pending, h.table⟩, ?_⟩
      simpa [Instr.about] using hi e rfl
    · exact ⟨h, hnil⟩
  | pend e =>
    obtain ⟨rfl, rfl⟩ := Prod.mk.inj (Option.some.inj hexec)
    refine ⟨⟨h.leaders, ?_, h.table⟩, hnil⟩
    intro x hx
    rcases List.mem_insert_iff.mp hx with rfl | hx
    · exact hi x rfl
    · exact h.pending x hx
  | leaderPart e =>
    obtain ⟨rfl, ⟨-, rfl⟩ | ⟨-, peer, hpeer, rfl⟩⟩ := exec_leaderPart.mp hexec
    · exact ⟨h, hnil⟩
    · have he := hi e rfl
      have hpair := hw.peer_pair hpeer
      refine ⟨h, ?_⟩
      simp [Instr.about, hpair, he]
  | eraseLeader e =>
    obtain ⟨rfl, rfl⟩ := Prod.mk.inj (Option.some.inj hexec)
    refine ⟨⟨?_, h.pending, h.table⟩, hnil⟩
    intro x hx
    exact h.leaders x (List.mem_of_mem_erase hx)
  | logShutdown e =>
    obtain ⟨-, rfl, rfl⟩ := exec_logShutdown.mp hexec
    exact ⟨h, hnil⟩
  | release e | drop e =>
    obtain ⟨-, rfl, rfl⟩ := exec_release (o := o) |>.mp hexec
    exact ⟨h.of_eq rfl rfl rfl rfl, hnil⟩
  | collect valid =>
    obtain ⟨rfl, rfl⟩ := Prod.mk.inj (Option.some.inj hexec)
    refine ⟨h, ?_⟩
    intro j hj e he
    obtain ⟨x, hx, rfl⟩ := List.mem_map.mp hj
    obtain rfl := Option.some.inj he
    obtain ⟨entry, hentry, rfl⟩ := List.mem_map.mp hx
    exact h.leaders entry (List.mem_of_mem_filter hentry)
  | event e ev =>
    obtain ⟨rfl, rfl⟩ := Prod.mk.inj (Option.some.inj hexec)
    refine ⟨h, ?_⟩
    intro j hj x hx
    rcases mem_dispatch hj with ⟨rfl, -⟩ | ⟨rfl, -⟩ | ⟨rfl, -⟩ <;>
      exact Option.some.inj hx ▸ hi e rfl
  | handleRead e =>
    obtain ⟨hr, rfl⟩ := exec_handleRead.mp hexec
    exact ⟨h.handleRead hw (hi e rfl) hr, hnil⟩
  | handleWrite e =>
    obtain ⟨hr, rfl⟩ := exec_handleWrite.mp hexec
    exact ⟨h.handleWrite hw (hi e rfl) hr, hnil⟩
  | handleError e =>
    have he := hi e rfl
    obtain ⟨rfl, ⟨-, rfl⟩ | ⟨-, -, rfl⟩ | ⟨-, -, peer, hpeer, rfl⟩⟩ := exec_handleError.mp hexec
    · exact ⟨h, hnil⟩
    · refine ⟨h, ?_⟩
      simpa [Instr.about] using he
    · refine ⟨h, ?_⟩
      simpa [Instr.about, hw.peer_pair hpeer] using he
  | swapPending =>
    obtain ⟨rfl, removePoll, hperm, rfl⟩ := exec_swapPending hexec
    refine ⟨⟨h.leaders, by simp [World.swapped], h.table⟩, ?_⟩
    intro j hj e he
    obtain ⟨x, hx, hjx⟩ := List.mem_flatMap.mp hj
    have hborn := h.pending x (hperm.mem_iff.mp hx)
    rcases List.mem_pair.mp hjx with rfl | rfl <;> exact Option.some.inj he ▸ hborn
  | unregister e =>
    obtain ⟨rfl, rfl⟩ := Prod.mk.inj (Option.some.inj hexec)
    refine ⟨⟨h.leaders, h.pending, ?_⟩, hnil⟩
    intro n r hr
    change (w.thread.unregister w.kernel (w.ep e).fd).table n = some r at hr
    unfold PollThread.unregister Kernel.epollDel at hr
    split at hr
    · have hnone : ∀ r : Interest Ep, none = some r → r.ptr = e := by
        intro r hr
        cases hr
      exact table_update h (hi e rfl) hnone n r hr
    · exact h.table n r hr

end Exec

section System

variable {c c' : Config}

theorem born_start : Born Config.start := by
  refine ⟨⟨?_, ?_, ?_⟩, ?_⟩
  · intro x hx
    cases hx
  · intro e he
    cases he
  · intro n r hr
    cases hr
  · intro t i hi
    cases hi

theorem Born.load (h : Born c) (t : Tid) {is : List Instr}
    (his : ∀ i ∈ is, ∀ e, i.about = some e → e.pair < c.world.pairs) : Born (c.load t is) := by
  refine ⟨h.world, ?_⟩
  intro u i hi
  rcases Threads.mem_load hi with hi | hi
  · exact his i hi
  · exact h.code u i hi

theorem Born.exec {t : Tid} {o : Oracle} (h : Born c) (hw : Flow c.world)
    (hs : step (.exec t o) c = some c') : Born c' := by
  obtain ⟨i, rest, -, hcode, ⟨-, rfl⟩ | ⟨w, pre, hexec, rfl⟩⟩ := Threads.run_cases hs
  · exact ⟨h.world, h.code⟩
  have hmem : ∀ j ∈ i :: rest, ∀ e, j.about = some e → e.pair < c.world.pairs := by
    rw [← hcode]
    exact h.code t
  obtain ⟨hworld, hpre⟩ := exec_pointers hw h.world (hmem i List.mem_cons_self) hexec
  have hpairs : w.pairs = c.world.pairs := (exec_frame hw hexec).pairs
  refine ⟨hworld, ?_⟩
  show ∀ u, ∀ j ∈ (c.load t (pre ++ rest)).code u, ∀ e, j.about = some e → e.pair < w.pairs
  rw [hpairs]
  refine (h.load t ?_ : Born (c.load t (pre ++ rest))).code
  intro j hj
  rcases List.mem_append.mp hj with hj | hj
  · exact hpre j hj
  · exact hmem j (List.mem_cons_of_mem _ hj)

theorem Born.step {a : Act} (h : Born c) (hw : Flow c.world) (hs : step a c = some c') :
    Born c' := by
  cases a with
  | exec t o => exact h.exec hw hs
  | wait batch =>
    simp only [Proxy.step] at hs
    split at hs
    · obtain ⟨is, his, rfl⟩ := Option.map_eq_some_iff.mp hs
      apply h.load
      intro i hi e he
      rcases List.mem_append.mp hi with hi | hi
      · obtain ⟨entry, -, r, hr, rfl⟩ := mem_entries his hi
        exact Option.some.inj he ▸ h.world.table _ r hr
      · rw [List.mem_singleton.mp hi] at he
        cases he
    · cases hs
  | tieFd key fd1 fd2 =>
    simp only [Proxy.step] at hs
    split at hs
    · obtain rfl := Option.some.inj hs
      have hnew : Pointers (c.world.newPair fd1 fd2) :=
        ⟨fun x hx => Nat.lt_succ_of_lt (h.world.leaders x hx),
          fun e he => Nat.lt_succ_of_lt (h.world.pending e he),
          fun n r hr => Nat.lt_succ_of_lt (h.world.table n r hr)⟩
      refine ⟨hnew, ?_⟩
      intro u i hi e he
      show e.pair < c.world.pairs + 1
      rcases Threads.mem_load hi with hi | hi
      · simp only [tieFd, List.mem_cons, List.not_mem_nil, or_false] at hi
        rcases hi with rfl | rfl | rfl | rfl | rfl | rfl | rfl | rfl | rfl <;>
          exact Option.some.inj he ▸ Nat.lt_succ_self _
      · exact Nat.lt_succ_of_lt (h.code u i hi e he)
    · cases hs
  | cleanup valid =>
    simp only [Proxy.step] at hs
    split at hs
    · obtain rfl := Option.some.inj hs
      apply h.load
      simp [Instr.about]
    · cases hs
  | grab fd =>
    simp only [Proxy.step] at hs
    split at hs
    · obtain rfl := Option.some.inj hs
      exact ⟨⟨h.world.leaders, h.world.pending, h.world.table⟩, h.code⟩
    · cases hs
  | giveBack fd =>
    simp only [Proxy.step] at hs
    split at hs
    · obtain rfl := Option.some.inj hs
      refine ⟨⟨h.world.leaders, h.world.pending, ?_⟩, h.code⟩
      intro n r hr
      change Function.update c.world.kernel.table fd none n = some r at hr
      rw [Function.update_apply] at hr
      split at hr
      · cases hr
      · exact h.world.table n r hr
    · cases hs

theorem born_run {allowed : Config → Act → Prop} (h : Run allowed c) : Born c := by
  refine Lib.Reach.invariant (I := Born) ?_ ?_ h
  · rintro _ rfl
    exact born_start
  · rintro s s' hrun hs ⟨a, -, hstep⟩
    exact hs.step (relayInv_run hrun).flow hstep

end System

end VncProxy.Proxy
