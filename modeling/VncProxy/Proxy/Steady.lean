/-
  VncProxy.Proxy.Steady

  The relay of a tied pair does not stall.  `READ` is never dropped, a buffer with
  bytes asks for `WRITE`, and when the poll thread has nothing left to do for the
  pair, nothing can be done for it: nothing is to be read, and what is buffered
  meets a full socket.

  `read_from_fd` counts what it reads in an `int`.  A `handle_read` that gets 2^31
  bytes hands a negative count to the check in front of `update_mode`, and the
  buffer is left without `WRITE`.
-/
import VncProxy.Proxy.Cover
import VncProxy.Proxy.Play

namespace VncProxy.Proxy

open Lib (Threads Sock Mask Flags Covered)
open Polling

-- ============================================================================
-- The property
-- ============================================================================

/-- No event of the pair is pending, in a batch, or on its way to a handler. -/
def Quiet (s : Config × Net) (p : Nat) : Prop :=
  ∀ e : Ep, e.pair = p → (s.2 (s.1.world.fd e)).pending = ⟨false, false, false⟩ ∧
    ∀ i ∈ s.1.code .poll, i.io ≠ some e

structure Steady (s : Config × Net) (p : Nat) : Prop where
  modes : ∀ e : Ep, e.pair = p → ∃ mode r,
    s.1.world.thread.mode (s.1.world.fd e) = some mode ∧
    s.1.world.kernel.table (s.1.world.fd e) = some r ∧ r.ptr = e ∧
    mode.has Pollable.READ = true ∧ r.epollin = true ∧
    ((s.1.world.ep e).buf.content ≠ [] →
      mode.has Pollable.WRITE = true ∧ r.epollout = true)
  drained : Quiet s p → ∀ e : Ep, e.pair = p → (s.2 (s.1.world.fd e)).rx = [] ∧
    ((s.1.world.ep e).buf.content = [] ∨ (s.2 (s.1.world.fd e)).space = 0)

/-- A section that sees to input or output of an endpoint is its event or a handler
    of it. -/
theorem Instr.carries_io {e : Ep} {i : Instr}
    (h : (i.carries e).input = true ∨ (i.carries e).output = true) : i.io = some e := by
  cases i with
  | event x ev =>
    simp only [carries] at h
    split at h
    · rename_i hx
      rw [hx]
      rfl
    · simp at h
  | handleRead x | handleWrite x =>
    obtain rfl : x = e := by simpa [carries] using h
    rfl
  | _ => simp [carries] at h

/-- In every run, for every pair whose `tie_fd` has returned and that is not being
    shut down. -/
theorem steady {s : Config × Net} (hrun : NetRun CoverOk s) {p : Nat}
    (hp : p < s.1.world.pairs) (htied : s.1.code (.worker p) = [])
    (hstand : Standing s.1.world ⟨p, .first⟩) : Steady s p := by
  obtain ⟨hcover, b, d, pj, cj, tail, hinv⟩ := coverInv_run hrun
  have hb : b p = 9 := hinv.built hp htied
  have hbegun : ∀ e : Ep, e.pair = p → Standing s.1.world e := by
    rintro e rfl
    exact hstand
  have hwatched := fun (e : Ep) (he : e.pair = p) =>
    (hcover e (he ▸ hp) (hbegun e he)).of_registered hinv (hbegun e he)
      (registered_of_built (by rw [he]; omega))
  apply Steady.mk
  · intro e he
    obtain ⟨r, mode, -, htable, hmode, hagree, -⟩ := hwatched e he
    refine ⟨mode, r, hmode, htable, hagree.ptr, hagree.read, hagree.input, ?_⟩
    intro hleft
    have hbusy := hagree.busy hleft
    exact ⟨hbusy, hagree.output.trans hbusy⟩
  · intro hquiet e he
    obtain ⟨r, mode, -, -, -, hagree, hcov⟩ := hwatched e he
    obtain ⟨hpending, hcode⟩ := hquiet e he
    constructor
    · by_contra hrx
      rcases hcov.input (by simpa using hagree.input) hrx with hin | ⟨i, hi, hf⟩
      · rw [hpending] at hin
        cases hin
      · exact hcode i hi (Instr.carries_io (Or.inl hf))
    · by_contra hstuck
      rw [not_or] at hstuck
      have hout : r.epollout = true := hagree.output.trans (hagree.busy hstuck.1)
      rcases hcov.output (by simpa using hout) (Nat.pos_of_ne_zero hstuck.2) with hin | ⟨i, hi, hf⟩
      · rw [hpending] at hin
        cases hin
      · exact hcode i hi (Instr.carries_io (Or.inr hf))

-- ============================================================================
-- Runs
-- ============================================================================

/-- Sockets with nothing to read and room for three bytes. -/
def roomy : Net := fun _ => ⟨[], 3, false, ⟨false, false, false⟩⟩

/-- Two sockets are tied, and the events that report their room are handled. -/
def settledPlays : List Play :=
  List.map Play.act (tieActs [97] 3 4 ++ [.wait [(3, writable), (4, writable)]] ++
    List.replicate 5 (.exec .poll .idle))

/-- Five bytes arrive for one side, and the other side has room for three. -/
def blockedPlays : List Play :=
  settledPlays ++ [.arrive 3 [1, 2, 3, 4, 5]] ++
    List.map Play.act [.wait [(3, readable)], .exec .poll .idle,
      .exec .poll ⟨[some [1, 2, 3, 4, 5]], [], []⟩, .exec .poll .idle, .wait [(4, writable)],
      .exec .poll .idle, .exec .poll ⟨[], [3, -1], []⟩, .exec .poll .idle]

@[irreducible] def blockedEnd : Config × Net :=
  Lib.lastState (play CoverOk) blockedPlays (Config.start, roomy)

theorem blockedEnd_eq :
    blockedEnd = Lib.lastState (play CoverOk) blockedPlays (Config.start, roomy) := by
  unfold blockedEnd
  rfl

/-- The two bytes that are left wait for room. -/
theorem steady_blocked :
    Steady blockedEnd 0 ∧ (blockedEnd.1.world.ep ⟨0, .second⟩).buf.content = [4, 5] := by
  have hrun : NetRun CoverOk blockedEnd :=
    NetRun.of_plays (blockedEnd_eq ▸ Lib.runActs_eq_lastState (by decide +kernel))
  have hstand : Standing blockedEnd.1.world ⟨0, .first⟩ := by
    show Event.shutdown ⟨0, .first⟩ ∉ blockedEnd.1.world.trace
    decide +kernel
  exact ⟨steady hrun (by decide +kernel) (by decide +kernel) hstand, by decide +kernel⟩

-- ============================================================================
-- Too many bytes at once
-- ============================================================================

/-- Calls that take everything there is leave an empty socket. -/
theorem After.of_drains {bs : List Byte} {calls : List FdCall} (h : Marshal.Drains bs calls)
    {mask mask' : Nat → Option Mask} {n : Net} {fd : Nat} (e : Ep) (hrx : (n fd).rx = bs) :
    After mask mask' n (calls.map (Event.call e fd))
      (Function.update n fd { n fd with rx := [] }) := by
  induction h generalizing n with
  | nothing len =>
    have hanswers : Answers (n fd) (.read len none) := ⟨List.nil_prefix, fun _ _ => hrx⟩
    have heq : answered (n fd) (.read len none) = { n fd with rx := [] } := by
      simp [answered, FdCall.bytesRead, FdCall.bytesWritten, hrx]
    apply After.call hanswers.callOn
    rw [heq]
    exact After.done _
  | @some bs rest calls len hne _ ih =>
    have hanswers : Answers (n fd) (.read len (some bs)) := by
      refine ⟨⟨rest, hrx.symm⟩, ?_⟩
      intro _ hret
      have hpos := List.length_pos_iff.mpr hne
      simp only [FdCall.ret] at hret
      omega
    have heq : answered (n fd) (.read len (some bs)) = { n fd with rx := rest } := by
      simp [answered, FdCall.bytesRead, FdCall.bytesWritten, hrx]
    have hrest := ih (n := Function.update n fd (answered (n fd) (.read len (some bs))))
      (by rw [Function.update_self, heq])
    rw [Function.update_self, Function.update_idem, heq] at hrest
    apply After.call hanswers.callOn
    rw [heq]
    exact hrest

/-- No event is handled before `ready`, and no pair is shut down twice. -/
def Prompt (c : Config) (a : Act) : Prop := Mild c a ∧ Awake c a

section Uncounted

variable {c : Config} {n : Net} {e : Ep} {r : Interest Ep} {bs : List Byte}

/-- The next section of the poll thread is prompt, if it is no handler or one of an
    enabled endpoint other than `handle_error`. -/
theorem prompt_next {i : Instr} {rest : List Instr} {o : Oracle} (hcode : c.code .poll = i :: rest)
    (hi : i.errorOn = none ∧ i.collects = none)
    (hen : ∀ x ∈ i.handles, (c.world.ep x).enabled = true) : Prompt c (.exec .poll o) := by
  have hnext : c.next .poll = some i := by rw [Config.next, hcode, List.head?_cons]
  refine ⟨⟨?_, ?_⟩, ?_⟩
  · intro x hx
    rw [hnext, Option.bind_some, hi.1] at hx
    cases hx
  · intro valid hv
    rw [hnext, Option.bind_some, hi.2] at hv
    cases hv
  · intro x hx
    rw [hnext] at hx
    exact hen x hx

/-- Bytes whose number is stored as something that is not positive end up in the
    buffer of the peer, without an `update_mode`. -/
theorem uncounted (hrun : NetRun Prompt (c, n)) (hcrash : c.crashed = none)
    (hpoll : c.code .poll = []) (hen : (c.world.ep e).enabled = true)
    (hpeer : (c.world.ep e).peer = some e.other)
    (htable : c.world.kernel.table (c.world.ep e).fd = some r) (hptr : r.ptr = e)
    (hsock : (n (c.world.ep e).fd).rx = [] ∧ (n (c.world.ep e).fd).hup = false)
    (hcount : i32 bs.length ≤ 0) :
    ∃ c' n' calls buf, NetRun Prompt (c', n') ∧ c'.code (.worker e.pair) = c.code (.worker e.pair) ∧
      c'.world = c.world.transferred e e.other calls buf ∧
      buf.content = (c.world.ep e.other).buf.content ++ bs := by
  obtain ⟨b, d, pj, cj, tail, hinv⟩ :=
    mild_run False (fun c a ha => ha.1) False.elim hrun.run
  have hflow : Flow c.world := hinv.world.flow
  generalize hfd : (c.world.ep e).fd = fd at htable hsock
  -- the bytes arrive
  have henv : ∀ m, (n m).Env (c.world.mask m)
      (Function.update n fd ((n fd).arrive (c.world.mask fd) bs) m) := by
    intro m
    by_cases hm : m = fd
    · subst hm
      rw [Function.update_self]
      exact Sock.Env.of_arrive _ hsock.2
    · rw [Function.update_of_ne hm]
      exact Sock.Env.refl _ _
  have harrived := hrun.step (NetMove.env henv)
  generalize hn₁ : Function.update n fd ((n fd).arrive (c.world.mask fd) bs) = n₁ at harrived
  have hrx₁ : (n₁ fd).rx = bs := by
    rw [← hn₁, Function.update_self]
    show (n fd).rx ++ bs = bs
    rw [hsock.1, List.nil_append]
  -- `epoll_wait` reports them
  have hwait : step (.wait [(fd, readable)]) c =
      some (c.load .poll [.event e readable, .swapPending]) := by
    simp [step, hcrash, hpoll, maxNev, entries, htable, hptr]
  have hwaited : NetRun Prompt (c.load .poll [.event e readable, .swapPending],
      Net.report n₁ [(fd, readable)]) :=
    harrived.step (NetMove.proxy (.wait [(fd, readable)]) ⟨trivial, trivial⟩ hwait rfl)
  generalize hn₂ : Net.report n₁ [(fd, readable)] = n₂ at hwaited
  have hrx₂ : (n₂ fd).rx = bs := by
    rw [← hn₂]
    simpa [Net.report, Sock.report] using hrx₁
  -- the event leads to `handle_read`
  have hdispatch : exec .idle c.world (.event e readable) =
      some (c.world, [.handleRead e]) := rfl
  have hevent : NetRun Prompt ((c.load .poll [.event e readable, .swapPending]).load .poll
      [.handleRead e, .swapPending], n₂) := hwaited.exec
    (prompt_next (Threads.load_code_self _) ⟨rfl, rfl⟩ (by simp [Instr.handles])) hcrash
    (Threads.load_code_self _) hdispatch (List.append_nil _).symm (After.done n₂)
  -- which reads them all
  obtain ⟨offers, calls, buf, hread, hrec, hdrains⟩ :=
    Marshal.readFromFd_drains (hflow.bufs e.other) bs
  have hhandle : c.world.handleRead e offers = some (c.world.transferred e e.other calls buf) := by
    rw [World.handleRead_of hen hpeer hread, if_neg (by omega)]
  have hexec : exec ⟨offers, [], []⟩ c.world (.handleRead e) =
      some (c.world.transferred e e.other calls buf, []) := exec_handleRead.mpr ⟨hhandle, rfl⟩
  have hend := hevent.exec (o := ⟨offers, [], []⟩)
    (prompt_next (Threads.load_code_self _) ⟨rfl, rfl⟩ (by simpa [Instr.handles] using hen)) hcrash
    (Threads.load_code_self _) hexec rfl (After.of_drains hdrains e (by rw [hfd]; exact hrx₂))
  refine ⟨_, _, calls, buf, hend, ?_, rfl, ?_⟩
  · simp [Threads.load_code_of_ne]
  · rw [← hdrains.bytesRead]
    exact hrec.joined

end Uncounted

@[irreducible] def settledEnd : Config × Net :=
  Lib.lastState (play CoverOk) settledPlays (Config.start, roomy)

theorem settledEnd_eq :
    settledEnd = Lib.lastState (play CoverOk) settledPlays (Config.start, roomy) := by
  unfold settledEnd
  rfl

theorem i32_wraps {n : Nat} (hn : n = 2 ^ 31) : i32 n ≤ 0 := by
  unfold i32
  rw [Int.bmod_def]
  omega

/-- 2^31 bytes that arrive at once stay in the buffer without `WRITE`. -/
theorem steady_overflow : ¬ ∀ s, NetRun Prompt s → ∀ p, p < s.1.world.pairs →
    s.1.code (.worker p) = [] → Standing s.1.world ⟨p, .first⟩ → Steady s p := by
  intro h
  have hrun : NetRun Prompt settledEnd := by
    have hok : NetRun CoverOk settledEnd :=
      NetRun.of_plays (settledEnd_eq ▸ Lib.runActs_eq_lastState (by decide +kernel))
    exact hok.mono fun c a ha => ⟨ha.1, ha.2.1⟩
  have htable : settledEnd.1.world.kernel.table (settledEnd.1.world.ep ⟨0, .first⟩).fd =
      some ⟨⟨0, .first⟩, true, false⟩ := by decide +kernel
  have hmode : settledEnd.1.world.thread.mode (settledEnd.1.world.fd ⟨0, .second⟩) =
      some Pollable.READ := by decide +kernel
  have hstand : Event.shutdown ⟨0, .first⟩ ∉ settledEnd.1.world.trace := by decide +kernel
  have hbytes : (List.replicate (2 ^ 31) (0 : Byte)).length = 2 ^ 31 := List.length_replicate
  obtain ⟨c, n, calls, buf, hlast, hcode, hworld, hcon⟩ := uncounted (e := ⟨0, .first⟩) hrun
    (by decide +kernel) (by decide +kernel) (by decide +kernel) (by decide +kernel) htable rfl
    (by decide +kernel) (i32_wraps hbytes)
  have hpairs : 0 < c.world.pairs := by
    rw [hworld]
    show 0 < settledEnd.1.world.pairs
    decide +kernel
  have htied : c.code (.worker 0) = [] := by
    rw [hcode]
    decide +kernel
  have hbegun : Standing c.world ⟨0, .first⟩ := by
    rw [hworld]
    show Event.shutdown ⟨0, .first⟩ ∉ settledEnd.1.world.trace ++ calls.map _
    simp [hstand]
  obtain ⟨mode, r, hmode', -, -, -, -, hwrite⟩ :=
    (h (c, n) hlast 0 hpairs htied hbegun).modes ⟨0, .second⟩ rfl
  have hread : mode = Pollable.READ := by
    have hkept : c.world.thread.mode (c.world.fd ⟨0, .second⟩) = some Pollable.READ := by
      rw [hworld, World.fd, World.transferred_fd]
      exact hmode
    exact Option.some.inj (hmode'.symm.trans hkept)
  have hleft : (c.world.ep ⟨0, .second⟩).buf.content ≠ [] := by
    have hpeer : (⟨0, .second⟩ : Ep) = Ep.other ⟨0, .first⟩ := rfl
    rw [hworld, World.transferred_ep, if_pos hpeer]
    show buf.content ≠ []
    rw [hcon, ← List.length_pos_iff, List.length_append, hbytes]
    omega
  have hbusy := (hwrite hleft).1
  rw [hread] at hbusy
  exact absurd hbusy (by decide)

end VncProxy.Proxy
