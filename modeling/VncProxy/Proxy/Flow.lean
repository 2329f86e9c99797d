/-
  VncProxy.Proxy.Flow

  The bytes of the relay.  For each endpoint the bytes that `::read` delivered on
  it are the bytes that `::write` took on its peer followed by what waits in the
  peer's buffer, in every state that the threads can reach, whatever the order of
  the handlers and the results of the system calls.

  The invariant is `Flow`, on the shared state alone.  A section that neither
  moves bytes nor changes an endpoint's peer keeps it (`SameFlow`); the four that
  do are `tie`, `ready`, `handle_read` and `handle_write`.
-/
import VncProxy.Proxy.Sections

namespace VncProxy.Proxy

open Lib (Threads)
open Polling
open Marshal (Received Written)

-- ============================================================================
-- Bytes in the trace
-- ============================================================================

/-- The bytes that a call of endpoint `e` delivered. -/
def Event.readBy (e : Ep) : Event → List Byte
  | .call x _ c => if x = e then c.bytesRead else []
  | _ => []

/-- The bytes that a call of endpoint `e` handed over. -/
def Event.writtenBy (e : Ep) : Event → List Byte
  | .call x _ c => if x = e then c.bytesWritten else []
  | _ => []

/-- The bytes read so far from descriptor `fd`. -/
def readFrom (fd : Nat) (trace : List Event) : List Byte :=
  trace.flatMap fun
    | .call _ n c => if n = fd then c.bytesRead else []
    | _ => []

/-- The bytes written so far to descriptor `fd`. -/
def writtenTo (fd : Nat) (trace : List Event) : List Byte :=
  trace.flatMap fun
    | .call _ n c => if n = fd then c.bytesWritten else []
    | _ => []

def received (e : Ep) (trace : List Event) : List Byte := trace.flatMap (Event.readBy e)

def sent (e : Ep) (trace : List Event) : List Byte := trace.flatMap (Event.writtenBy e)

/-- Not a call of `::read` or `::write`. -/
def Event.Silent : Event → Prop
  | .call _ _ _ => False
  | _ => True

section Trace

variable {e x : Ep} {fd : Nat} {trace evs : List Event} {calls : List FdCall}

@[simp] theorem received_append :
    received e (trace ++ evs) = received e trace ++ received e evs := by
  simp [received]

@[simp] theorem sent_append : sent e (trace ++ evs) = sent e trace ++ sent e evs := by
  simp [sent]

theorem received_silent (h : ∀ ev ∈ evs, ev.Silent) : received e evs = [] := by
  unfold received
  rw [List.flatMap_eq_nil_iff]
  intro ev hev
  cases ev with
  | call => exact (h _ hev).elim
  | close | ctl | shutdown => rfl

theorem sent_silent (h : ∀ ev ∈ evs, ev.Silent) : sent e evs = [] := by
  unfold sent
  rw [List.flatMap_eq_nil_iff]
  intro ev hev
  cases ev with
  | call => exact (h _ hev).elim
  | close | ctl | shutdown => rfl

theorem received_calls :
    received e (calls.map (Event.call x fd)) =
      if x = e then calls.flatMap FdCall.bytesRead else [] := by
  unfold received
  rw [List.flatMap_map]
  by_cases h : x = e <;> simp [Event.readBy, h]

theorem sent_calls :
    sent e (calls.map (Event.call x fd)) =
      if x = e then calls.flatMap FdCall.bytesWritten else [] := by
  unfold sent
  rw [List.flatMap_map]
  by_cases h : x = e <;> simp [Event.writtenBy, h]

end Trace

-- ============================================================================
-- The invariant
-- ============================================================================

@[simp] theorem Ep.other_pair (e : Ep) : e.other.pair = e.pair := rfl

@[simp] theorem Ep.other_other (e : Ep) : e.other.other = e := by
  obtain ⟨p, s⟩ := e
  cases s <;> rfl

theorem Ep.other_ne (e : Ep) : e.other ≠ e := by
  obtain ⟨p, s⟩ := e
  cases s <;> simp [Ep.other, Side.other]

theorem Ep.other_eq_iff {e x : Ep} : e.other = x ↔ e = x.other := by
  constructor
  · intro h
    rw [← h, Ep.other_other]
  · intro h
    rw [h, Ep.other_other]

structure Flow (w : World) : Prop where
  peer : ∀ e, (w.ep e).peer = none ∨ (w.ep e).peer = some e.other
  leader : ∀ e, (w.ep e).leader = true → e.side = .first
  unborn : ∀ e, w.pairs ≤ e.pair → (w.ep e).enabled = false
  bufs : ∀ e, (w.ep e).buf.Inv
  calls : ∀ e fd c, Event.call e fd c ∈ w.trace → e.pair < w.pairs ∧ fd = (w.ep e).fd
  relay : ∀ e, received e w.trace = sent e.other w.trace ++ (w.ep e.other).buf.content

/-- A step that leaves the endpoints as they are, as far as bytes are concerned,
    and makes no call of `::read` or `::write`. -/
structure SameFlow (w w' : World) : Prop where
  pairs : w'.pairs = w.pairs
  fd : ∀ e, (w'.ep e).fd = (w.ep e).fd
  peer : ∀ e, (w'.ep e).peer = (w.ep e).peer
  leader : ∀ e, (w'.ep e).leader = (w.ep e).leader
  enabled : ∀ e, (w'.ep e).enabled = (w.ep e).enabled
  buf : ∀ e, (w'.ep e).buf = (w.ep e).buf
  trace : ∃ evs, w'.trace = w.trace ++ evs ∧ ∀ ev ∈ evs, ev.Silent

namespace Flow

variable {w w' : World}

theorem start : Flow World.start where
  peer _ := Or.inl rfl
  leader _ h := by simp [World.start, EndPoint.new] at h
  unborn _ _ := rfl
  bufs _ := Marshal.inv_empty
  calls _ _ _ h := by simp [World.start] at h
  relay _ := rfl

theorem sameFlow (h : Flow w) (hs : SameFlow w w') : Flow w' := by
  obtain ⟨evs, htrace, hsilent⟩ := hs.trace
  refine ⟨?_, ?_, ?_, ?_, ?_, ?_⟩
  · intro e
    rw [hs.peer]
    exact h.peer e
  · intro e hl
    rw [hs.leader] at hl
    exact h.leader e hl
  · intro e hp
    rw [hs.pairs] at hp
    rw [hs.enabled]
    exact h.unborn e hp
  · intro e
    rw [hs.buf]
    exact h.bufs e
  · intro e fd c hmem
    rw [htrace, List.mem_append] at hmem
    rw [hs.pairs, hs.fd]
    rcases hmem with hmem | hmem
    · exact h.calls e fd c hmem
    · exact (hsilent _ hmem).elim
  · intro e
    rw [htrace, received_append, sent_append, received_silent hsilent, sent_silent hsilent,
      hs.buf, List.append_nil, List.append_nil]
    exact h.relay e

/-- An unborn endpoint has read and written nothing. -/
theorem unborn_silent (h : Flow w) {e : Ep} (he : w.pairs ≤ e.pair) :
    received e w.trace = [] ∧ sent e w.trace = [] := by
  unfold received sent
  rw [List.flatMap_eq_nil_iff, List.flatMap_eq_nil_iff]
  constructor <;> intro ev hev <;> cases ev with
  | call x fd c =>
    have hlt := (h.calls x fd c hev).1
    have hne : x ≠ e := by
      intro heq
      subst heq
      omega
    simp [Event.readBy, Event.writtenBy, hne]
  | close | ctl | shutdown => rfl

theorem newPair (h : Flow w) (fd1 fd2 : Nat) : Flow (w.newPair fd1 fd2) := by
  have hep : ∀ e, ((w.newPair fd1 fd2).ep e = w.ep e ∧ e.pair ≠ w.pairs) ∨
      (e.pair = w.pairs ∧ ∃ fd, (w.newPair fd1 fd2).ep e = EndPoint.new fd) := by
    intro e
    obtain ⟨p, s⟩ := e
    rw [World.newPair_ep]
    by_cases hp : p = w.pairs
    · subst hp
      cases s <;> simp
    · simp [hp]
  refine ⟨?_, ?_, ?_, ?_, ?_, ?_⟩
  · intro e
    rcases hep e with ⟨heq, -⟩ | ⟨-, fd, heq⟩ <;> rw [heq]
    · exact h.peer e
    · exact Or.inl rfl
  · intro e hl
    rcases hep e with ⟨heq, -⟩ | ⟨-, fd, heq⟩ <;> rw [heq] at hl
    · exact h.leader e hl
    · cases hl
  · intro e hp
    rw [World.newPair_pairs] at hp
    rcases hep e with ⟨heq, -⟩ | ⟨-, fd, heq⟩ <;> rw [heq]
    · exact h.unborn e (Nat.le_of_succ_le hp)
    · rfl
  · intro e
    rcases hep e with ⟨heq, -⟩ | ⟨-, fd, heq⟩ <;> rw [heq]
    · exact h.bufs e
    · exact Marshal.inv_empty
  · intro e fd c hmem
    obtain ⟨hlt, hfd⟩ := h.calls e fd c hmem
    rcases hep e with ⟨heq, -⟩ | ⟨hp, -⟩
    · rw [heq]
      exact ⟨Nat.lt_succ_of_lt hlt, hfd⟩
    · omega
  · intro e
    rw [World.newPair_trace]
    rcases hep e.other with ⟨heq, -⟩ | ⟨hp, fd, heq⟩ <;> rw [heq]
    · exact h.relay e
    · rw [(h.unborn_silent (e := e) (by rw [← hp, Ep.other_pair])).1,
        (h.unborn_silent (e := e.other) (Nat.le_of_eq hp.symm)).2]
      rfl

theorem tie (h : Flow w) {e o : Ep} (hside : e.side = .first) (ho : o = e.other) (key : Key) :
    Flow (w.tie e o key) := by
  subst ho
  have hne := e.other_ne
  have hep : ∀ x, ((w.tie e e.other key).ep x).fd = (w.ep x).fd ∧
      ((w.tie e e.other key).ep x).enabled = (w.ep x).enabled ∧
      ((w.tie e e.other key).ep x).buf = (w.ep x).buf ∧
      (((w.tie e e.other key).ep x).peer = (w.ep x).peer ∨
        ((w.tie e e.other key).ep x).peer = some x.other) ∧
      (((w.tie e e.other key).ep x).leader = (w.ep x).leader ∨ x = e) := by
    intro x
    rw [World.tie_ep w e x hne]
    by_cases hx : x = e
    · simp [hx]
    · by_cases hx' : x = e.other
      · simp [hx', hne]
      · simp [hx, hx']
  refine ⟨?_, ?_, ?_, ?_, ?_, ?_⟩
  · intro x
    rcases (hep x).2.2.2.1 with hp | hp <;> rw [hp]
    · exact h.peer x
    · exact Or.inr rfl
  · intro x hl
    rcases (hep x).2.2.2.2 with hp | hp
    · exact h.leader x (hp ▸ hl)
    · rw [hp, hside]
  · intro x hp
    rw [(hep x).2.1]
    exact h.unborn x hp
  · intro x
    rw [(hep x).2.2.1]
    exact h.bufs x
  · intro x fd c hmem
    rw [(hep x).1]
    exact h.calls x fd c hmem
  · intro x
    rw [(hep x.other).2.2.1]
    exact h.relay x

theorem ready (h : Flow w) {e : Ep} (he : e.pair < w.pairs) : Flow (w.ready e) := by
  have hep : ∀ x, ((w.ready e).ep x).fd = (w.ep x).fd ∧
      ((w.ready e).ep x).peer = (w.ep x).peer ∧
      ((w.ready e).ep x).leader = (w.ep x).leader ∧
      ((w.ready e).ep x).buf = (w.ep x).buf ∧
      (x ≠ e → ((w.ready e).ep x).enabled = (w.ep x).enabled) := by
    intro x
    rw [World.ready_ep]
    by_cases hx : x = e <;> simp [hx]
  refine ⟨?_, ?_, ?_, ?_, ?_, ?_⟩
  · intro x
    rw [(hep x).2.1]
    exact h.peer x
  · intro x hl
    rw [(hep x).2.2.1] at hl
    exact h.leader x hl
  · intro x hp
    have hx : x ≠ e := by
      intro heq
      subst heq
      exact absurd he (Nat.not_lt.mpr hp)
    rw [(hep x).2.2.2.2 hx]
    exact h.unborn x hp
  · intro x
    rw [(hep x).2.2.2.1]
    exact h.bufs x
  · intro x fd c hmem
    rw [(hep x).1]
    exact h.calls x fd c hmem
  · intro x
    rw [(hep x.other).2.2.2.1]
    exact h.relay x

-- ============================================================================
-- The handlers
-- ============================================================================

theorem updateMode_sameFlow {e : Ep} {newMode : Mode} (hm : w.updateMode e newMode = some w') :
    SameFlow w w' := by
  rcases World.updateMode_cases hm with ⟨rfl, -⟩ | ⟨oldMode, rfl, -⟩
  · exact ⟨rfl, fun _ => rfl, fun _ => rfl, fun _ => rfl, fun _ => rfl, fun _ => rfl,
      [], by simp, by simp⟩
  · exact ⟨rfl, fun _ => rfl, fun _ => rfl, fun _ => rfl, fun _ => rfl, fun _ => rfl,
      [.ctl .mod (w.ep e).fd], rfl, by simp [Event.Silent]⟩

/-- Moving bytes between the descriptor of `e` and the buffer of `owner` keeps
    the invariant if it keeps the balance. -/
theorem transferred (h : Flow w) {e owner : Ep} {calls : List FdCall} {buf : Marshal}
    (he : e.pair < w.pairs) (hbuf : buf.Inv)
    (hbalance : ∀ x, received x w.trace ++ received x (calls.map (Event.call e (w.ep e).fd)) =
      sent x.other w.trace ++ sent x.other (calls.map (Event.call e (w.ep e).fd)) ++
        (if x.other = owner then buf.content else (w.ep x.other).buf.content)) :
    Flow (w.transferred e owner calls buf) := by
  refine ⟨?_, ?_, ?_, ?_, ?_, ?_⟩
  · intro x
    rw [World.transferred_peer]
    exact h.peer x
  · intro x hl
    rw [World.transferred_leader] at hl
    exact h.leader x hl
  · intro x hp
    rw [World.transferred_enabled]
    exact h.unborn x hp
  · intro x
    rw [World.transferred_ep]
    by_cases hx : x = owner
    · rw [if_pos hx]
      exact hbuf
    · rw [if_neg hx]
      exact h.bufs x
  · intro x fd c hmem
    rw [World.transferred_trace, List.mem_append] at hmem
    rw [World.transferred_fd, World.transferred_pairs]
    rcases hmem with hmem | hmem
    · exact h.calls x fd c hmem
    · obtain ⟨c', -, heq⟩ := List.mem_map.mp hmem
      obtain ⟨rfl, rfl, -⟩ := Event.call.inj heq
      exact ⟨he, rfl⟩
  · intro x
    rw [World.transferred_trace, received_append, sent_append, hbalance x,
      World.transferred_ep]
    split <;> rfl

/-- Only an endpoint that exists is enabled. -/
theorem born (h : Flow w) {e : Ep} (hen : (w.ep e).enabled = true) : e.pair < w.pairs := by
  apply Nat.lt_of_not_le
  intro hle
  rw [h.unborn e hle] at hen
  cases hen

/-- The bytes that `read_from_fd` moves. -/
theorem received (h : Flow w) {e : Ep} {calls : List FdCall} {buf : Marshal}
    (hen : (w.ep e).enabled = true) (hrec : Received (w.ep e.other).buf.chunks calls buf.chunks) :
    Flow (w.transferred e e.other calls buf) := by
  apply h.transferred (h.born hen) hrec.inv
  intro x
  rw [received_calls, sent_calls, hrec.bytesWritten, h.relay x]
  by_cases hx : e = x
  · subst hx
    simp only [if_true, ite_self, List.append_nil, List.append_assoc]
    rw [show buf.content = _ from hrec.joined]
    rfl
  · have hx' : ¬ x.other = e.other := by
      intro heq'
      apply hx
      rw [← Ep.other_other x, heq', Ep.other_other]
    simp [hx, hx']

/-- The bytes that `write_to_fd` moves. -/
theorem written (h : Flow w) {e : Ep} {calls : List FdCall} {buf : Marshal}
    (hen : (w.ep e).enabled = true) (hwr : Written (w.ep e).buf.chunks calls buf.chunks) :
    Flow (w.transferred e e calls buf) := by
  apply h.transferred (h.born hen) hwr.inv
  intro x
  rw [received_calls, sent_calls, hwr.bytesRead, h.relay x]
  by_cases hx : e = x.other
  · subst hx
    simp only [if_true, ite_self, List.append_nil, List.append_assoc]
    rw [show (w.ep x.other).buf.content = _ from hwr.split]
    rfl
  · simp [hx, Ne.symm hx]

theorem handleRead (h : Flow w) {e : Ep} {offers : List (Option (List Byte))}
    (hr : w.handleRead e offers = some w') : Flow w' := by
  cases hen : (w.ep e).enabled with
  | false =>
    rw [World.handleRead_disabled hen] at hr
    exact Option.some.inj hr ▸ h
  | true =>
    rcases h.peer e with hpeer | hpeer
    · simp [World.handleRead, hen, hpeer] at hr
    obtain ⟨calls, buf, hrec, heq⟩ := World.handleRead_eq hen hpeer (h.bufs e.other) offers
    have hflow := h.received hen hrec
    rw [heq] at hr
    split at hr
    · exact hflow.sameFlow (updateMode_sameFlow hr)
    · exact Option.some.inj hr ▸ hflow

theorem handleWrite (h : Flow w) {e : Ep} {accepts : List Int}
    (hr : w.handleWrite e accepts = some w') : Flow w' := by
  cases hen : (w.ep e).enabled with
  | false =>
    rw [World.handleWrite_disabled hen] at hr
    exact Option.some.inj hr ▸ h
  | true =>
    obtain ⟨calls, buf, hwr, heq⟩ := World.handleWrite_eq hen (h.bufs e) accepts
    rw [heq] at hr
    exact (h.written hen hwr).sameFlow (updateMode_sameFlow hr)

end Flow

-- ============================================================================
-- One section
-- ============================================================================

/-- `tie` and `ready` are only run on a pair that exists, `tie` with `ep1` as the
    leader. -/
def Placed (pairs : Nat) : Instr → Prop
  | .tie e o _ => e.pair < pairs ∧ e.side = .first ∧ o = e.other
  | .ready e => e.pair < pairs
  | _ => True

section Exec

variable {w w' : World} {o : Oracle} {i : Instr} {pre : List Instr}

theorem SameFlow.of_ep (hpairs : w'.pairs = w.pairs) (hep : w'.ep = w.ep)
    {evs : List Event} (htrace : w'.trace = w.trace ++ evs) (hsilent : ∀ ev ∈ evs, ev.Silent) :
    SameFlow w w' := by
  refine ⟨hpairs, ?_, ?_, ?_, ?_, ?_, evs, htrace, hsilent⟩ <;> intro e <;> rw [hep]

theorem sameFlow_refcnt (e : Ep) (n : Int) :
    SameFlow w (w.setEp e { w.ep e with refcnt := n }) := by
  refine ⟨rfl, ?_, ?_, ?_, ?_, ?_, [], by simp, by simp⟩ <;>
    intro x <;> by_cases hx : x = e <;> simp [hx, Function.update]

/-- The sections that move no bytes and change no peer. -/
theorem exec_sameFlow (hi : match i with
      | .tie _ _ _ | .ready _ | .handleRead _ | .handleWrite _ => False
      | _ => True)
    (h : exec o w i = some (w', pre)) : SameFlow w w' := by
  have hsame : ∀ v : World, v.pairs = w.pairs → v.ep = w.ep → v.trace = w.trace → SameFlow w v := by
    intro v hpairs hep htrace
    exact SameFlow.of_ep hpairs hep (htrace.trans (List.append_nil _).symm) (by simp)
  cases i with
  | tie | ready | handleRead | handleWrite => exact hi.elim
  | refCopy e =>
    obtain ⟨rfl, -⟩ := Prod.mk.inj (Option.some.inj h)
    exact sameFlow_refcnt e _
  | add e =>
    obtain ⟨-, -, rfl, -⟩ := exec_add.mp h
    exact hsame _ rfl rfl rfl
  | epollAdd e =>
    obtain ⟨-, -, rfl, -⟩ := exec_epollAdd.mp h
    exact SameFlow.of_ep rfl rfl rfl (by simp [Event.Silent])
  | shutdown e | close e =>
    obtain ⟨rfl, -⟩ := Prod.mk.inj (Option.some.inj h)
    exact SameFlow.of_ep rfl rfl rfl (by simp [Event.Silent])
  | remove e =>
    rcases exec_remove.mp h with ⟨-, -, rfl, -⟩ | ⟨-, -, rfl, -⟩ <;> exact hsame _ rfl rfl rfl
  | pend e | collect v | event e ev | unregister e | eraseLeader e | swapPending =>
    obtain ⟨rfl, -⟩ := Prod.mk.inj (Option.some.inj h)
    exact hsame _ rfl rfl rfl
  | leaderPart e =>
    obtain ⟨rfl, -⟩ := exec_leaderPart.mp h
    exact hsame _ rfl rfl rfl
  | logShutdown e =>
    obtain ⟨-, rfl, -⟩ := exec_logShutdown.mp h
    exact hsame _ rfl rfl rfl
  | release e | drop e =>
    obtain ⟨-, rfl, -⟩ := exec_release (o := o) |>.mp h
    exact sameFlow_refcnt e _
  | handleError e =>
    obtain ⟨rfl, -⟩ := exec_handleError.mp h
    exact hsame _ rfl rfl rfl

theorem exec_flow (hw : Flow w) (hi : Placed w.pairs i) (h : exec o w i = some (w', pre)) :
    Flow w' := by
  cases i with
  | tie e other key =>
    obtain ⟨rfl, -⟩ := Prod.mk.inj (Option.some.inj h)
    exact hw.tie hi.2.1 hi.2.2 key
  | ready e =>
    obtain ⟨rfl, -⟩ := Prod.mk.inj (Option.some.inj h)
    exact hw.ready hi
  | handleRead e => exact hw.handleRead (exec_handleRead.mp h).1
  | handleWrite e => exact hw.handleWrite (exec_handleWrite.mp h).1
  | _ => exact hw.sameFlow (exec_sameFlow trivial h)

end Exec

end VncProxy.Proxy
