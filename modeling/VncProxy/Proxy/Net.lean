/-
  VncProxy.Proxy.Net

  The proxy on its network.  Each descriptor number has a socket, epoll is
  edge-triggered, and a call of `::read` or `::write` with a positive length
  returns nothing only if there is nothing to read or no room.  Bytes arrive,
  room appears and connections hang up at any time, also between the system calls
  of one handler.
-/
import VncProxy.Lib.EdgeTriggered
import VncProxy.Proxy.Frame

namespace VncProxy.Proxy

open Lib (Sock Mask Flags Covered)
open Polling

-- ============================================================================
-- System calls on sockets
-- ============================================================================

/-- The socket behind each descriptor number. -/
abbrev Net := Nat → Sock Byte

/-- What a call does to the socket it is made on. -/
structure CallOn (c : FdCall) (s s' : Sock Byte) : Prop where
  taken : s.rx = c.bytesRead ++ s'.rx
  given : s'.space + c.bytesWritten.length = s.space
  hup : s'.hup = s.hup
  pending : s'.pending = s.pending
  empty : ∀ len got, c = .read len got → 0 < len → c.ret ≤ 0 → s.rx = []
  full : ∀ buf r, c = .write buf r → buf ≠ [] → r ≤ 0 → s.space = 0

theorem CallOn.used {c : FdCall} {s s' : Sock Byte} (h : CallOn c s s') : s.Used s' :=
  ⟨⟨_, h.taken⟩, Nat.le.intro h.given, h.hup, h.pending⟩

/-- The registration of a number. -/
def World.mask (w : World) (fd : Nat) : Option Mask :=
  (w.kernel.table fd).map fun r => ⟨r.epollin, r.epollout⟩

/-- What the events of one section do to the sockets, with changes from outside in
    between.  The registrations are `mask` until the `epoll_ctl` of the section, if
    it has one, and `mask'` after it. -/
inductive After (mask mask' : Nat → Option Mask) : Net → List Event → Net → Prop
  | done (n : Net) : After mask mask' n [] n
  | env {n n₁ n' : Net} {evs : List Event} : (∀ fd, (n fd).Env (mask fd) (n₁ fd)) →
      After mask mask' n₁ evs n' → After mask mask' n evs n'
  | call {n n' : Net} {e : Ep} {fd : Nat} {c : FdCall} {s : Sock Byte} {evs : List Event} :
      CallOn c (n fd) s → After mask mask' (Function.update n fd s) evs n' →
      After mask mask' n (.call e fd c :: evs) n'
  | ctl (n : Net) (op : CtlOp) (fd : Nat) :
      After mask mask' n [.ctl op fd]
        (Function.update n fd ((mask' fd).elim (n fd) fun m => (n fd).arm m))
  | close (n : Net) (e : Ep) (fd : Nat) (s : Sock Byte) :
      After mask mask' n [.close e fd] (Function.update n fd s)
  | shutdown (n : Net) (e : Ep) : After mask mask' n [.shutdown e] n

namespace After

variable {mask mask' : Nat → Option Mask} {n n' : Net} {evs : List Event} {fd : Nat}
  {P : Sock Byte → Prop}

/-- What neither changes from outside nor calls disturb stays true of a socket, if
    the section has no `epoll_ctl` for it and does not close it. -/
theorem keep (h : After mask mask' n evs n') (henv : ∀ s s', P s → s.Env (mask fd) s' → P s')
    (hused : ∀ s s', P s → s.Used s' → P s')
    (hevs : (∀ op, .ctl op fd ∉ evs) ∧ ∀ e, .close e fd ∉ evs) (hP : P (n fd)) : P (n' fd) := by
  induction h with
  | done => exact hP
  | env he _ ih => exact ih hevs (henv _ _ hP (he fd))
  | @call n n' e m c s evs hcall _ ih =>
    apply ih ⟨fun op hop => hevs.1 op (List.mem_cons_of_mem _ hop),
      fun e he => hevs.2 e (List.mem_cons_of_mem _ he)⟩
    by_cases hm : fd = m
    · subst hm
      rw [Function.update_self]
      exact hused _ _ hP hcall.used
    · rwa [Function.update_of_ne hm]
  | ctl n op m =>
    have hm : fd ≠ m := by
      rintro rfl
      exact hevs.1 op List.mem_cons_self
    rwa [Function.update_of_ne hm]
  | close n e m s =>
    have hm : fd ≠ m := by
      rintro rfl
      exact hevs.2 e List.mem_cons_self
    rwa [Function.update_of_ne hm]
  | shutdown => exact hP

/-- The `epoll_ctl` of a section arms its socket. -/
theorem ctl_last {op : CtlOp} (h : After mask mask' n (evs ++ [.ctl op fd]) n') :
    ∃ s : Sock Byte, n' fd = (mask' fd).elim s fun m => s.arm m := by
  generalize hl : evs ++ [Event.ctl op fd] = l at h
  induction h generalizing evs with
  | done => simp at hl
  | env _ _ ih => exact ih hl
  | call _ _ ih =>
    cases evs with
    | nil => simp at hl
    | cons ev evs => exact ih (List.cons.inj hl).2
  | ctl n op' m =>
    cases evs with
    | nil =>
      obtain ⟨hev, -⟩ := List.cons.inj hl
      obtain ⟨rfl, rfl⟩ := Event.ctl.inj hev
      exact ⟨n fd, Function.update_self ..⟩
    | cons ev evs => simp at hl
  | close | shutdown =>
    cases evs with
    | nil => simp at hl
    | cons ev evs => simp at hl

/-- Behind a call of the section, the socket is as that call left it and the rest of
    the events follow. -/
theorem split {e : Ep} {c : FdCall} {evs' : List Event}
    (h : After mask mask' n (evs' ++ .call e fd c :: evs) n') :
    ∃ (n₁ : Net) (s : Sock Byte), CallOn c (n₁ fd) s ∧
      After mask mask' (Function.update n₁ fd s) evs n' := by
  generalize hl : evs' ++ .call e fd c :: evs = l at h
  induction h generalizing evs' with
  | done => simp at hl
  | env _ _ ih => exact ih hl
  | @call n n' x m c' s l hcall hrest ih =>
    cases evs' with
    | nil =>
      obtain ⟨hev, rfl⟩ := List.cons.inj hl
      obtain ⟨rfl, rfl, rfl⟩ := Event.call.inj hev
      exact ⟨n, s, hcall, hrest⟩
    | cons ev evs' =>
      obtain ⟨-, hl⟩ := List.cons.inj hl
      exact ih hl
  | ctl | close | shutdown =>
    cases evs' with
    | nil => simp at hl
    | cons ev evs' => simp at hl

end After

-- ============================================================================
-- Runs on a network
-- ============================================================================

/-- The conditions of an entry that `epoll_wait` returns. -/
def Events.flags (ev : Events) : Flags := ⟨ev.epollin, ev.epollout, ev.error⟩

/-- What `epoll_wait` returns is no longer pending. -/
def Net.report (n : Net) (batch : List (Nat × Events)) : Net := fun fd =>
  ((batch.lookup fd).map Events.flags).elim (n fd) fun f => (n fd).report f

/-- What a move of the proxy does to the sockets. -/
def Net.Effect (a : Act) (c c' : Config) (n n' : Net) : Prop :=
  match a with
  | .exec _ _ => ∃ evs, c'.world.trace = c.world.trace ++ evs ∧
      After c.world.mask c'.world.mask n evs n'
  | .wait batch => n' = n.report batch
  | .grab fd => ∀ m, m ≠ fd → n' m = n m
  | .tieFd _ _ _ | .cleanup _ | .giveBack _ => n' = n

/-- The proxy moves, or its network does. -/
inductive NetMove (allowed : Config → Act → Prop) : Config × Net → Config × Net → Prop
  | proxy {c c' : Config} {n n' : Net} (a : Act) : allowed c a → step a c = some c' →
      n.Effect a c c' n' → NetMove allowed (c, n) (c', n')
  | env {c : Config} {n n' : Net} : (∀ fd, (n fd).Env (c.world.mask fd) (n' fd)) →
      NetMove allowed (c, n) (c, n')

/-- Runs of the proxy on a network; the sockets may be in any state at first. -/
def NetRun (allowed : Config → Act → Prop) : Config × Net → Prop :=
  Lib.Reach (fun s => s.1 = Config.start) (NetMove allowed)

theorem NetRun.run {allowed : Config → Act → Prop} {s : Config × Net} (h : NetRun allowed s) :
    Run allowed s.1 := by
  refine Lib.Reach.invariant (I := fun s => Run allowed s.1) ?_ ?_ h
  · intro s hs
    exact Lib.Reach.start hs
  · rintro s s' - hs hmove
    cases hmove with
    | proxy a ha hstep _ => exact hs.step ⟨a, ha, hstep⟩
    | env _ => exact hs

theorem NetRun.mono {allowed allowed' : Config → Act → Prop} {s : Config × Net}
    (h : NetRun allowed s) (hsub : ∀ c a, allowed c a → allowed' c a) : NetRun allowed' s := by
  refine Lib.Reach.invariant (I := NetRun allowed') ?_ ?_ h
  · intro s hs
    exact Lib.Reach.start hs
  · rintro s s' - hs hmove
    apply hs.step
    cases hmove with
    | proxy a ha hstep heff => exact NetMove.proxy a (hsub _ a ha) hstep heff
    | env henv => exact NetMove.env henv

/-- One more section, with what it does to the sockets. -/
theorem NetRun.exec {allowed : Config → Act → Prop} {c : Config} {n n' : Net} {t : Tid} {o : Oracle}
    {i : Instr} {pre rest : List Instr} {w : World} {evs : List Event}
    (h : NetRun allowed (c, n)) (hallowed : allowed c (.exec t o)) (hcrash : c.crashed = none)
    (hcode : c.code t = i :: rest) (hexec : exec o c.world i = some (w, pre))
    (htrace : w.trace = c.world.trace ++ evs) (hafter : After c.world.mask w.mask n evs n') :
    NetRun allowed ({ c.load t (pre ++ rest) with world := w }, n') :=
  h.step (NetMove.proxy (.exec t o) hallowed (Lib.Threads.run_eq_some hcrash hcode hexec)
    ⟨evs, htrace, hafter⟩)

end VncProxy.Proxy
