/-
  VncProxy.Handshake.Service

  The whole proxy: the operators with their dialogues, and the relay that their
  `tie_fd` calls feed, on one set of descriptors.  Any number of operators run at
  the same time and share the key register; a move is one call of one operator,
  or one move of the relay.

  The peer of a socket sends the bytes `stream`, of which `input` has not been
  read yet.  `recv` and `::read` take from the front of it, whichever comes; a
  call on a closed number fails.
-/
import VncProxy.Handshake.Auth
import VncProxy.Proxy.Frame

namespace VncProxy.Handshake

open D3des (Register)
open Lib (Prog)
open Polling (Desc)
open Proxy (Config Act Ep Event Instr)

-- ============================================================================
-- State
-- ============================================================================

/-- A `VncOperator` in its thread, with the calls it has made so far. -/
structure Operator where
  clnt : Nat
  buf : List Byte
  response : List Byte
  log : List Exchange
  prog : Code Unit

/-- A `VncOperator` that is about to run. -/
def Operator.new (clnt : Nat) (buf response : List Byte) : Operator :=
  ⟨clnt, buf, response, [], run clnt buf response⟩

def Operator.view (o : Operator) : View := session.track (View.start o.clnt) o.log

/-- The pair that an operator has tied, and all that its two peers send. -/
structure Tied where
  pair : Nat
  client : List Byte
  server : List Byte
deriving DecidableEq, Repr

structure Service where
  config : Config
  stream : Nat → List Byte
  input : Nat → List Byte
  register : Register
  globalM : Option Nat
  operator : Nat → Option Operator
  tied : Nat → Option Tied

namespace Service

/-- Nobody has connected yet. -/
def start : Service :=
  ⟨Config.start, fun _ => [], fun _ => [], List.replicate 32 0, none, fun _ => none, fun _ => none⟩

/-- Who a descriptor number belongs to. -/
def desc (s : Service) : Nat → Desc Ep := s.config.world.kernel.desc

def trace (s : Service) : List Event := s.config.world.trace

/-- `fd` is a new socket. -/
def opened (s : Service) (config : Config) (fd : Nat) (stream : List Byte) : Service :=
  { s with
    config := config
    stream := Function.update s.stream fd stream
    input := Function.update s.input fd stream }

-- ============================================================================
-- Moves
-- ============================================================================

/-- What is not up to the process: results of calls, what the database holds, and
    who is at the other end of a new connection. -/
structure Reply where
  ret : Int
  count : Option Nat
  rand : Nat
  rows : List Row
  fd : Option Nat
  stream : List Byte
deriving DecidableEq, Repr

/-- A call of operator `i`: its answer, and the state after it.  `none` if it cannot
    be made now, or never returns. -/
def serve (s : Service) (i : Nat) (r : Reply) : (op : Call) → Option (op.Ans × Service)
  | .setNonblocking _ _ => some (r.ret, s)
  | .send _ buf => if r.ret ≤ buf.length then some (r.ret, s) else none
  | .recv fd len =>
    match r.count with
    | none => some (none, s)
    | some n =>
      let n := min n len
      some (some ((s.input fd).take n),
        { s with input := Function.update s.input fd ((s.input fd).drop n) })
  | .close fd => (Proxy.step (.giveBack fd) s.config).map fun config => ((), { s with config })
  | .rand => some (r.rand, s)
  | .connectTo _ =>
    match r.fd with
    | none => some (none, s)
    | some fd =>
      (Proxy.step (.grab fd) s.config).map fun config => (some fd, s.opened config fd r.stream)
  | .tieFd forwardKey fd1 fd2 =>
    (Proxy.step (.tieFd forwardKey fd1 fd2) s.config).map fun config =>
      ((), { s with
        config
        tied := Function.update s.tied i
          (some ⟨s.config.world.pairs, s.stream fd1, s.stream fd2⟩) })
  | .lock => if s.globalM = none then some ((), { s with globalM := some i }) else none
  | .unlock => if s.globalM = some i then some ((), { s with globalM := none }) else none
  | .selectRoutes => some ((r.rows, r.ret), s)
  | .selectKeys => some ((r.rows.map Row.forwardKey, r.ret), s)
  | .cleanup valid =>
    (Proxy.step (.cleanup valid) s.config).map fun config => ((), { s with config })
  | .rfbUseKey knl => some ((), { s with register := knl })
  | .rfbDes inblock => some (D3des.rfbDes s.register inblock, s)
  | .abort => none
  | .undefined => none

/-- The bytes that the events take from the sockets. -/
def consume (desc : Nat → Desc Ep) : List Event → (Nat → List Byte) → Option (Nat → List Byte)
  | [], input => some input
  | .call _ fd c :: evs, input =>
    if c.bytesRead <+: input fd ∧ (desc fd = .closed → c.bytesRead = [] ∧ c.bytesWritten = []) then
      consume desc evs (Function.update input fd ((input fd).drop c.bytesRead.length))
    else none
  | _ :: evs, input => consume desc evs input

inductive Move
  /-- `accept` returns a client, and a thread of the pool runs its operator -/
  | accept (i clnt : Nat) (stream buf response : List Byte)
  /-- operator `i` makes its next call -/
  | call (i : Nat) (r : Reply)
  /-- the poll thread, the cleanup thread or a `tie_fd` call goes on -/
  | relay (a : Act)
deriving DecidableEq, Repr

/-- The moves of the relay that no operator makes. -/
def inner : Act → Bool
  | .exec _ _ | .wait _ | .cleanup _ => true
  | .tieFd _ _ _ | .grab _ | .giveBack _ => false

def setOperator (s : Service) (i : Nat) (o : Operator) : Service :=
  { s with operator := Function.update s.operator i (some o) }

def step (m : Move) (s : Service) : Option Service :=
  match m with
  | .accept i clnt stream buf response =>
    if (s.operator i).isNone ∧ buf.length = 16 ∧ response.length = 16 then
      (Proxy.step (.grab clnt) s.config).map fun config =>
        (s.opened config clnt stream).setOperator i (Operator.new clnt buf response)
    else none
  | .call i r =>
    match s.operator i with
    | none => none
    | some o =>
      match o.prog with
      | .done _ => none
      | .call op next =>
        (s.serve i r op).map fun (a, s') =>
          s'.setOperator i { o with log := o.log ++ [⟨op, a⟩], prog := next a }
  | .relay a =>
    if inner a then
      (Proxy.step a s.config).bind fun config =>
        (consume s.desc (config.world.trace.drop s.trace.length) s.input).map fun input =>
          { s with config, input }
    else none

/-- Runs in which every move is one that `allowed` admits. -/
def Run (allowed : Service → Move → Prop) : Service → Prop :=
  Lib.Reach (· = start) fun s s' => ∃ m, allowed s m ∧ step m s = some s'

-- ============================================================================
-- Numbers that are handed out again
-- ============================================================================

end Service

/-- The endpoint on whose number a section makes a system call. -/
def uses : Instr → Option Ep
  | .handleRead e | .handleWrite e | .close e => some e
  | _ => none

/-- No section is run on an endpoint whose number has been handed out again. -/
def Proper (s : Service) : Service.Move → Prop
  | .relay (.exec t _) => ∀ i ∈ (s.config.code t).head?, ∀ e ∈ uses i,
      s.desc (s.config.world.ep e).fd = .tied e ∨ s.desc (s.config.world.ep e).fd = .closed
  | _ => True

instance (s : Service) (m : Service.Move) : Decidable (Proper s m) :=
  match m with
  | .relay (.exec t _) => inferInstanceAs (Decidable (∀ i ∈ (s.config.code t).head?,
      ∀ e ∈ uses i, s.desc (s.config.world.ep e).fd = .tied e ∨
        s.desc (s.config.world.ep e).fd = .closed))
  | .relay (.wait _) | .relay (.tieFd _ _ _) | .relay (.cleanup _) | .relay (.grab _)
  | .relay (.giveBack _) | .accept _ _ _ _ _ | .call _ _ => isTrue trivial

namespace Service

/-- A list of moves that goes through, each of them admitted where it is made, is
    a run. -/
theorem Run.of_moves {allowed : Service → Move → Prop} [∀ s m, Decidable (allowed s m)]
    {ms : List Move} {s : Service}
    (h : Lib.runActs (fun m s => if allowed s m then step m s else none) ms start = some s) :
    Run allowed s := by
  refine Lib.Reach.of_runActs ?_ (Lib.Reach.start rfl) h
  intro m _ t t' hstep
  by_cases hok : allowed t m
  · rw [if_pos hok] at hstep
    exact ⟨m, hok, hstep⟩
  · rw [if_neg hok] at hstep
    cases hstep

end Service

end VncProxy.Handshake
