/-
  VncProxy.Handshake.View

  What an operator has done so far, as far as it can be told from its own calls
  and their answers: the bytes it has got and sent on each socket that it holds,
  whether it is inside `global_m`, the key it has loaded there, the rows it was
  shown, and the pair it has tied.

  `session` is the contract of an operator with the rest of the process: it takes
  the lock before it touches the key register, and in return the register holds
  the key it has loaded itself.
-/
import VncProxy.Handshake.Operator

namespace VncProxy.Handshake

open D3des (Register)
open Lib (Prog Contract)

/-- The bytes got and sent on a socket since it was opened. -/
structure Conn where
  got : List Byte
  put : List Byte
deriving DecidableEq, Repr

/-- A `tie_fd` call, with what was exchanged on both sockets before it. -/
structure Splice where
  forwardKey : List Byte
  clnt : Nat
  remote : Nat
  client : Option Conn
  server : Option Conn

structure View where
  /-- the sockets that the operator holds -/
  conns : Nat → Option Conn
  locked : Bool
  /-- the key loaded since the lock was taken -/
  register : Option Register
  rows : List Row
  tied : Option Splice

namespace View

/-- `fd` is open, and `c` has been exchanged on it. -/
def setConn (v : View) (fd : Nat) (c : Conn) : View :=
  { v with conns := Function.update v.conns fd (some c) }

/-- The operator has been handed its client. -/
def start (clnt : Nat) : View :=
  setConn ⟨fun _ => none, false, none, [], none⟩ clnt ⟨[], []⟩

/-- Bytes got on `fd`. -/
def got (v : View) (fd : Nat) (bytes : List Byte) : View :=
  { v with
    conns := Function.update v.conns fd
      ((v.conns fd).map fun c => { c with got := c.got ++ bytes }) }

/-- Bytes sent on `fd`. -/
def put (v : View) (fd : Nat) (bytes : List Byte) : View :=
  { v with
    conns := Function.update v.conns fd
      ((v.conns fd).map fun c => { c with put := c.put ++ bytes }) }

/-- The view after a call. -/
def next (v : View) : (op : Call) → op.Ans → View
  | .send fd buf, (n : Int) => v.put fd (buf.take n.toNat)
  | .recv fd _, (r : Option (List Byte)) => v.got fd (r.getD [])
  | .close fd, _ => { v with conns := Function.update v.conns fd none }
  | .connectTo _, (r : Option Nat) =>
    match r with
    | some fd => v.setConn fd ⟨[], []⟩
    | none => v
  | .tieFd forwardKey fd1 fd2, _ =>
    { v with
      conns := Function.update (Function.update v.conns fd1 none) fd2 none
      tied := some ⟨forwardKey, fd1, fd2, v.conns fd1, v.conns fd2⟩ }
  | .lock, _ => { v with locked := true, register := none }
  | .unlock, _ => { v with locked := false }
  | .selectRoutes, (r : List Row × Int) => { v with rows := r.1 }
  | .rfbUseKey knl, _ => { v with register := some knl }
  | .setNonblocking _ _, _ | .rand, _ | .selectKeys, _ | .cleanup _, _ | .rfbDes _, _
  | .abort, _ | .undefined, _ => v

/-- A socket is used and closed by the one that holds it, and the register is
    touched under the lock. -/
def Owes (v : View) : Call → Prop
  | .setNonblocking fd _ | .send fd _ | .recv fd _ | .close fd => (v.conns fd).isSome
  | .tieFd _ fd1 fd2 => (v.conns fd1).isSome ∧ (v.conns fd2).isSome ∧ fd1 ≠ fd2
  | .lock => v.locked = false
  | .unlock | .rfbUseKey _ | .rfbDes _ => v.locked = true
  | _ => True

def Grants (v : View) : (op : Call) → op.Ans → Prop
  | .send _ buf, (n : Int) => n ≤ buf.length
  | .recv _ len, (r : Option (List Byte)) => ∀ bytes, r = some bytes → bytes.length ≤ len
  | .connectTo _, (r : Option Nat) => ∀ fd, r = some fd → v.conns fd = none
  | .rfbDes inblock, (outblock : List Byte) =>
    ∀ knl, v.register = some knl → outblock = D3des.rfbDes knl inblock
  | _, _ => True

section Next

variable (v : View) {op : Call} (a : op.Ans)

theorem next_plain (hop : op.plain = true) : (v.next op a).locked = v.locked ∧
    (v.next op a).register = v.register ∧ (v.next op a).tied = v.tied := by
  cases op <;> first | exact ⟨rfl, rfl, rfl⟩ | cases hop

theorem next_connectTo (addr : List Byte) (fd? : Option Nat) :
    (v.next (.connectTo addr) fd?).locked = v.locked ∧
      (v.next (.connectTo addr) fd?).register = v.register ∧
      (v.next (.connectTo addr) fd?).tied = v.tied := by
  cases fd? <;> exact ⟨rfl, rfl, rfl⟩

end Next

section Conns

variable {v : View} {fd n : Nat} {c : Conn} {bytes : List Byte}

@[simp] theorem setConn_self : (v.setConn fd c).conns fd = some c := by
  simp [setConn]

@[simp] theorem setConn_locked : (v.setConn fd c).locked = v.locked := rfl
@[simp] theorem setConn_rows : (v.setConn fd c).rows = v.rows := rfl
@[simp] theorem setConn_tied : (v.setConn fd c).tied = v.tied := rfl

@[simp] theorem setConn_got :
    (v.setConn fd c).got fd bytes = v.setConn fd ⟨c.got ++ bytes, c.put⟩ := by
  simp [setConn, got]

@[simp] theorem setConn_put :
    (v.setConn fd c).put fd bytes = v.setConn fd ⟨c.got, c.put ++ bytes⟩ := by
  simp [setConn, put]

theorem setConn_of_ne (h : n ≠ fd) : (v.setConn fd c).conns n = v.conns n := by
  simp [setConn, h]

theorem got_conns : (v.got fd bytes).conns = Function.update v.conns fd
    ((v.conns fd).map fun c => { c with got := c.got ++ bytes }) := rfl

theorem put_conns : (v.put fd bytes).conns = Function.update v.conns fd
    ((v.conns fd).map fun c => { c with put := c.put ++ bytes }) := rfl

/-- Nothing is got on a socket by sending. -/
theorem of_put_conns {c' : Conn} (h : (v.put fd bytes).conns n = some c') :
    ∃ c, v.conns n = some c ∧ c'.got = c.got := by
  by_cases hn : n = fd
  · subst hn
    rw [put_conns, Function.update_self] at h
    obtain ⟨c, hc, rfl⟩ := Option.map_eq_some_iff.mp h
    exact ⟨c, hc, rfl⟩
  · rw [put_conns, Function.update_of_ne hn] at h
    exact ⟨c', h, rfl⟩

/-- Bytes are got on one socket only. -/
theorem of_got_conns {c' : Conn} (h : (v.got fd bytes).conns n = some c') :
    ∃ c, v.conns n = some c ∧ c'.got = c.got ++ if n = fd then bytes else [] := by
  by_cases hn : n = fd
  · subst hn
    rw [got_conns, Function.update_self] at h
    obtain ⟨c, hc, rfl⟩ := Option.map_eq_some_iff.mp h
    exact ⟨c, hc, by simp⟩
  · rw [got_conns, Function.update_of_ne hn] at h
    exact ⟨c', h, by simp [hn]⟩

@[simp] theorem got_isSome : ((v.got fd bytes).conns n).isSome = (v.conns n).isSome := by
  by_cases h : n = fd
  · subst h
    simp [got]
  · simp [got, h]

@[simp] theorem put_isSome : ((v.put fd bytes).conns n).isSome = (v.conns n).isSome := by
  by_cases h : n = fd
  · subst h
    simp [put]
  · simp [put, h]

@[simp] theorem got_locked : (v.got fd bytes).locked = v.locked := rfl
@[simp] theorem got_tied : (v.got fd bytes).tied = v.tied := rfl
@[simp] theorem put_locked : (v.put fd bytes).locked = v.locked := rfl
@[simp] theorem put_tied : (v.put fd bytes).tied = v.tied := rfl

end Conns

end View

/-- What an operator owes and is granted in the process. -/
def session : Contract Call Call.Ans View := ⟨View.next, View.Owes, View.Grants⟩

/-- The part of the contract that does not rest on the descriptors: `global_m` and
    the key register, and that `tie_fd` is the last call. -/
def View.OwesLock (v : View) : Call → Prop
  | .lock => v.locked = false
  | .unlock | .rfbUseKey _ | .rfbDes _ => v.locked = true
  | _ => True

def View.GrantsLock (v : View) : (op : Call) → op.Ans → Prop
  | .rfbDes inblock, (outblock : List Byte) =>
    ∀ knl, v.register = some knl → outblock = D3des.rfbDes knl inblock
  | _, _ => True

def critical : Contract Call Call.Ans View :=
  ⟨View.next, fun v c => v.tied = none ∧ v.OwesLock c, View.GrantsLock⟩

/-- What a contract has to offer for a section under `global_m`. -/
structure Careful (k : Contract Call Call.Ans View) : Prop where
  next : ∀ v c a, k.next v c a = v.next c a
  lock : ∀ v, v.tied = none → v.locked = false → k.owes v .lock
  unlock : ∀ v, v.tied = none → v.locked = true → k.owes v .unlock
  rfbUseKey : ∀ v knl, v.tied = none → v.locked = true → k.owes v (.rfbUseKey knl)
  rfbDes : ∀ v inblock, v.tied = none → v.locked = true → k.owes v (.rfbDes inblock)
  selectRoutes : ∀ v, v.tied = none → k.owes v .selectRoutes
  undefined : ∀ v, v.tied = none → k.owes v .undefined
  grants : ∀ v inblock (outblock : List Byte), k.grants v (.rfbDes inblock) outblock →
    ∀ knl, v.register = some knl → outblock = D3des.rfbDes knl inblock

theorem session_careful : Careful session :=
  ⟨fun _ _ _ => rfl, fun _ _ => id, fun _ _ => id, fun _ _ _ => id, fun _ _ _ => id,
    fun _ _ => trivial, fun _ _ => trivial, fun _ _ _ => id⟩

theorem critical_careful : Careful critical :=
  ⟨fun _ _ _ => rfl, fun _ htied h => ⟨htied, h⟩, fun _ htied h => ⟨htied, h⟩,
    fun _ _ htied h => ⟨htied, h⟩, fun _ _ htied h => ⟨htied, h⟩, fun _ htied => ⟨htied, trivial⟩,
    fun _ htied => ⟨htied, trivial⟩, fun _ _ _ => id⟩

@[simp] theorem critical_owes (v : View) (c : Call) : critical.owes v c ↔ v.tied = none ∧ v.OwesLock c :=
  Iff.rfl

@[simp] theorem critical_next (v : View) (c : Call) (a : c.Ans) :
    critical.next v c a = v.next c a := rfl

@[simp] theorem session_owes (v : View) (c : Call) : session.owes v c = v.Owes c := rfl

@[simp] theorem session_next (v : View) (c : Call) (a : c.Ans) :
    session.next v c a = v.next c a := rfl

@[simp] theorem session_grants (v : View) (c : Call) (a : c.Ans) :
    session.grants v c a = v.Grants c a := rfl

/-- Every send is accepted in full, and every recv filled completely. -/
def Full : Exchange → Prop
  | ⟨.send _ buf, (n : Int)⟩ => n = buf.length
  | ⟨.recv _ len, (r : Option (List Byte))⟩ => ∃ bytes, r = some bytes ∧ bytes.length = len
  | _ => True

instance : DecidablePred Full := fun x =>
  match x with
  | ⟨.send _ buf, (n : Int)⟩ => inferInstanceAs (Decidable (n = buf.length))
  | ⟨.recv _ _, none⟩ => isFalse fun ⟨_, h, _⟩ => by cases h
  | ⟨.recv _ len, some bytes⟩ => decidable_of_iff (bytes.length = len)
      ⟨fun h => ⟨bytes, rfl, h⟩, fun ⟨_, hbytes, h⟩ => Option.some.inj hbytes ▸ h⟩
  | ⟨.setNonblocking _ _, _⟩ | ⟨.close _, _⟩ | ⟨.rand, _⟩ | ⟨.connectTo _, _⟩ | ⟨.tieFd _ _ _, _⟩
  | ⟨.lock, _⟩ | ⟨.unlock, _⟩ | ⟨.selectRoutes, _⟩ | ⟨.selectKeys, _⟩ | ⟨.cleanup _, _⟩
  | ⟨.rfbUseKey _, _⟩ | ⟨.rfbDes _, _⟩ => isTrue trivial

def fullSession : Contract Call Call.Ans View := session.also Full

theorem fullSession_careful : Careful fullSession :=
  ⟨fun _ _ _ => rfl, fun _ _ => id, fun _ _ => id, fun _ _ _ => id, fun _ _ _ => id,
    fun _ _ => trivial, fun _ _ => trivial, fun _ _ _ h => h.1⟩

end VncProxy.Handshake
