/-
  VncProxy.Handshake.Operator

  `VncOperator::run` of vncproxy.cc, as a program over the calls it makes: the
  dialogue with the client, the look-up of its answer in the table, the dialogue
  with the remote server, and `tie_fd` at the end.

  The arrays of `run` are lists of bytes that keep their length.  `buf` and
  `response` are not initialised, so what they hold at first is a parameter.  A
  write past the end of an array, a read past its end and a null pointer that is
  followed are the call `undefined`, which has no answer.
-/
import VncProxy.Lib.Prog
import VncProxy.Handshake.D3des

namespace VncProxy.Handshake

open D3des (Register Edf)
open Lib (Prog)

-- ============================================================================
-- Calls
-- ============================================================================

/-- The bytes of a `char*` before its terminating NUL. -/
structure CString where
  bytes : List Byte
  noNul : 0 ∉ bytes
deriving DecidableEq, Repr

/-- A row of the routing table, as sqlite hands it to a callback; `none` is NULL. -/
structure Row where
  forwardKey : Option CString
  destAddr : Option CString
  destPasswd : Option CString
deriving DecidableEq, Repr

inductive Call
  | setNonblocking (fd : Nat) (nonblocking : Bool)
  | send (fd : Nat) (buf : List Byte)
  | recv (fd : Nat) (len : Nat)
  | close (fd : Nat)
  | rand
  | connectTo (addr : List Byte)
  | tieFd (forwardKey : List Byte) (fd1 fd2 : Nat)
  /-- `Pthread_mutex_lock(&global_m)` -/
  | lock
  | unlock
  /-- `select forward_key, dest_addr, dest_passwd from vncproxy` -/
  | selectRoutes
  /-- `select forward_key from vncproxy` -/
  | selectKeys
  /-- `EndPoint::cleanup` -/
  | cleanup (valid : List (List Byte))
  | rfbUseKey (knl : Register)
  | rfbDes (inblock : List Byte)
  /-- `abort()` after a failed `verify` -/
  | abort
  | undefined
deriving DecidableEq, Repr

/-- What a call returns.  A negative result of `recv` or `connect_to` is `none`; a
    query returns the rows it has delivered and its result code. -/
@[reducible] def Call.Ans : Call → Type
  | .setNonblocking _ _ => Int
  | .send _ _ => Int
  | .recv _ _ => Option (List Byte)
  | .rand => Nat
  | .connectTo _ => Option Nat
  | .selectRoutes => List Row × Int
  | .selectKeys => List (Option CString) × Int
  | .rfbDes _ => List Byte
  | .close _ | .tieFd _ _ _ | .lock | .unlock | .cleanup _ | .rfbUseKey _ => Unit
  | .abort | .undefined => Empty

/-- A call that has to do with neither `global_m`, the key register nor the table of
    descriptors. -/
def Call.plain : Call → Bool
  | .lock | .unlock | .rfbUseKey _ | .close _ | .connectTo _ | .cleanup _ | .tieFd _ _ _ => false
  | _ => true

abbrev Code := Lib.Prog Call Call.Ans

/-- A call and what it returned. -/
abbrev Exchange := Lib.Exchange Call Call.Ans

def SQLITE_OK : Int := 0

-- ============================================================================
-- Arrays
-- ============================================================================

/-- `arr` after `bytes` are written to its front. -/
def overwrite (arr bytes : List Byte) : List Byte := bytes ++ arr.drop bytes.length

section Calls

variable (fd : Nat)

def setNonblocking (nonblocking : Bool) : Code Int :=
  Prog.perform (Call.setNonblocking fd nonblocking)

/-- `send(fd, buf, n, MSG_WAITALL)` of the `n` bytes `buf`. -/
def send (buf : List Byte) : Code Int := Prog.perform (Call.send fd buf)

def close : Code Unit := Prog.perform (Call.close fd)

def rand : Code Nat := Prog.perform Call.rand

def connectTo (addr : List Byte) : Code (Option Nat) := Prog.perform (Call.connectTo addr)

def tieFd (forwardKey : List Byte) (fd1 fd2 : Nat) : Code Unit :=
  Prog.perform (Call.tieFd forwardKey fd1 fd2)

def lock : Code Unit := Prog.perform Call.lock

def unlock : Code Unit := Prog.perform Call.unlock

def selectRoutes : Code (List Row × Int) := Prog.perform Call.selectRoutes

def selectKeys : Code (List (Option CString) × Int) := Prog.perform Call.selectKeys

def cleanup (valid : List (List Byte)) : Code Unit := Prog.perform (Call.cleanup valid)

def rfbDesKey (key : List Byte) (edf : Edf) : Code Unit :=
  Prog.perform (Call.rfbUseKey (D3des.rfbDesKey key edf))

def rfbDes (inblock : List Byte) : Code (List Byte) := Prog.perform (Call.rfbDes inblock)

def undefined {α : Type} : Code α := Prog.call Call.undefined Empty.elim

/-- `verify(p)` -/
def verify (p : Prop) [Decidable p] : Code Unit :=
  if p then return () else Prog.call Call.abort Empty.elim

/-- `recv(fd, arr, len, MSG_WAITALL)`: the return value, and the array after it. -/
def recv (arr : List Byte) (len : Nat) : Code (Int × List Byte) := do
  match ← Prog.perform (Call.recv fd len) with
  | none => return (-1, arr)
  | some bytes =>
    if bytes.length ≤ arr.length then return (bytes.length, overwrite arr bytes)
    else undefined

end Calls

/-- `arr[i]` -/
def load (arr : List Byte) (i : Nat) : Code Byte :=
  match arr[i]? with
  | some b => return b
  | none => undefined

/-- `strcmp` compares up to the terminating NUL. -/
def cString (arr : List Byte) : List Byte := arr.takeWhile (· ≠ 0)

/-- A `char` read into an `int`, where `char` is signed. -/
def charToInt (b : Byte) : Int := b.toInt8.toInt

/-- An `int` passed as a `size_t`. -/
def toSizeT (n : Int) : Nat := (n % 18446744073709551616).toNat

/-- `memcpy` of an `int32_t`, least significant byte first. -/
def hostBytes (v : BitVec 32) : List Byte :=
  [0, 8, 16, 24].map fun n => UInt8.ofNat (v >>> n).toNat

/-- `memset(auth_key, 0, 8)` and the `memcpy` of a key into it. -/
def authKey (key : List Byte) : Code (List Byte) :=
  if key.length ≤ 8 then return overwrite (List.replicate 8 0) key else undefined

/-- `for (int i = 0; i < 16; i += 8) rfbDes(challenge + i, response + i);` -/
def desBlocks (challenge : List Byte) : Code (List Byte) := do
  let first ← rfbDes (challenge.take 8)
  let second ← rfbDes (challenge.drop 8)
  return first ++ second

-- ============================================================================
-- The table
-- ============================================================================

/-- `vnc_auth_info` -/
structure VncAuthInfo where
  challenge : List Byte
  response : List Byte
  matched : Bool
  forwardKey : List Byte
  destAddr : List Byte
  hasDestPasswd : Bool
  destPasswd : List Byte
deriving DecidableEq, Repr

def VncAuthInfo.new (challenge response : List Byte) : VncAuthInfo :=
  ⟨challenge, response, false, [], [], false, []⟩

/-- A `char*` read as a string. -/
def deref (value : Option CString) : Code (List Byte) :=
  match value with
  | some s => return s.bytes
  | none => undefined

def vncAuthCallback (info : VncAuthInfo) (values : Row) : Code VncAuthInfo := do
  if info.matched then
    return info
  let authKey ← authKey (← deref values.forwardKey)
  rfbDesKey authKey .EN0
  let expectedResponse ← desBlocks info.challenge
  if info.response = expectedResponse then
    let forwardKey ← deref values.forwardKey
    let destAddr ← deref values.destAddr
    let info := { info with matched := true, forwardKey, destAddr }
    match values.destPasswd with
    | some destPasswd => return { info with hasDestPasswd := true, destPasswd := destPasswd.bytes }
    | none => return info
  return info

/-- The section of `run` under `global_m`, and the result code of its query. -/
def authenticate (challenge response : List Byte) : Code (VncAuthInfo × Int) := do
  lock
  let (rows, r) ← selectRoutes
  let info ← rows.foldlM vncAuthCallback (VncAuthInfo.new challenge response)
  unlock
  return (info, r)

/-- `collect_forward_key_callback` -/
def collectForwardKeyCallback (valid : List (List Byte)) (value : Option CString) :
    Code (List (List Byte)) := do
  let key ← deref value
  return valid.insert key

-- ============================================================================
-- The dialogues
-- ============================================================================

/-- `"RFB 003.008\n"` -/
def version : List Byte := [82, 70, 66, 32, 48, 48, 51, 46, 48, 48, 56, 10]

/-- `for (int i = 0; i < n; i++) challenge[i] = rand() & 0xFF;` -/
def randBytes : Nat → Code (List Byte)
  | 0 => return []
  | n + 1 => do
    let b ← rand
    return UInt8.ofNat b :: (← randBytes n)

/-- The arrays of `run` that outlive the dialogue with the client. -/
structure Arrays where
  buf : List Byte
  challenge : List Byte
  response : List Byte
deriving DecidableEq, Repr

/-- `run` up to the client's response; `none` if it has returned. -/
def greetClient (clnt : Nat) (buf response : List Byte) : Code (Option Arrays) := do
  -- ensure clnt socket is in blocking mode, so we can easily read/write full messages
  verify ((← setNonblocking clnt false) = 0)
  -- vnc hand shake, only support protocol version 3.8
  if (← send clnt version) < 0 then
    close clnt
    return none
  let (n, buf) ← recv clnt buf 12
  if n < 0 then
    close clnt
    return none
  let buf := buf.set 12 0
  if cString buf ≠ version then
    close clnt
    return none
  -- request passwd from client, which is used as redirect hint
  let buf := (buf.set 0 1).set 1 2
  if (← send clnt (buf.take 2)) < 0 then
    close clnt
    return none
  let (n, buf) ← recv clnt buf 1
  if n < 0 then
    close clnt
    return none
  -- challenge client for passwd
  let challenge ← randBytes 16
  if (← send clnt challenge) < 0 then
    close clnt
    return none
  let (n, response) ← recv clnt response 16
  if n < 0 then
    close clnt
    return none
  return some ⟨buf, challenge, response⟩

/-- The loop over the security types: is there a 1, is there a 2. -/
def scanTypes (buf : List Byte) (authTypes : Nat) : Code (Bool × Bool) :=
  (List.range authTypes).foldlM
    (fun (noneAuth, vncAuth) i => do
      let t ← load buf i
      return (noneAuth || t == 1, vncAuth || t == 2))
    (false, false)

/-- `close(remote_fd); close(clnt_);` -/
def closeBoth (clnt remote : Nat) : Code Unit := do
  close remote
  close clnt

/-- `run` from the remote's version to its security types; `none` if it has
    returned. -/
def greetRemote (clnt remote : Nat) (buf : List Byte) : Code (Option (Bool × Bool)) := do
  let (n, buf) ← recv remote buf 12
  if n < 0 ∨ buf.take 12 ≠ version then
    closeBoth clnt remote
    return none
  -- tell server to use protocol version 3.8
  if (← send remote version) < 0 then
    closeBoth clnt remote
    return none
  let (n, buf) ← recv remote buf 1
  if n < 0 then
    closeBoth clnt remote
    return none
  let authTypes := charToInt (← load buf 0)
  let (n, buf) ← recv remote buf (toSizeT authTypes)
  if n < 0 then
    closeBoth clnt remote
    return none
  return some (← scanTypes buf authTypes.toNat)

/-- `run` from the choice of a security type on; `false` if it has returned. -/
def answerRemote (clnt remote : Nat) (info : VncAuthInfo) (arrays : Arrays)
    (supportNoneAuth supportVncAuth : Bool) : Code Bool := do
  if supportNoneAuth then
    if (← send remote [1]) < 0 then
      closeBoth clnt remote
      return false
    return true
  else if supportVncAuth && info.hasDestPasswd then
    if (← send remote [2]) < 0 then
      closeBoth clnt remote
      return false
    let (n, challenge) ← recv remote arrays.challenge 16
    if n < 0 then
      closeBoth clnt remote
      return false
    -- calculate response, use global_m to protect rfbDes internal variables
    lock
    let authKey ← authKey info.destPasswd
    rfbDesKey authKey .EN0
    let response ← desBlocks challenge
    unlock
    if (← send remote response) < 0 then
      closeBoth clnt remote
      return false
    return true
  else
    -- auth type not supported
    closeBoth clnt remote
    return false

/-- `VncOperator::run` -/
def run (clnt : Nat) (buf response : List Byte) : Code Unit := do
  let some arrays ← greetClient clnt buf response | return ()
  let (info, r) ← authenticate arrays.challenge arrays.response
  if r ≠ SQLITE_OK then
    close clnt
    return ()
  if ¬ info.matched then
    -- tell client auth failed
    let _ ← send clnt ((overwrite arrays.buf (hostBytes 1)).take 4)
    close clnt
    return ()
  -- no need to reply 'pass', leave this to remote side
  let some remote ← connectTo info.destAddr | close clnt
  let some (noneAuth, vncAuth) ← greetRemote clnt remote arrays.buf | return ()
  if ¬ (← answerRemote clnt remote info arrays noneAuth vncAuth) then
    return ()
  -- tie the fd up, need nonblocking mode
  verify ((← setNonblocking clnt true) = 0)
  verify ((← setNonblocking remote true) = 0)
  tieFd info.forwardKey clnt remote

/-- One turn of the loop of `cleanup_thread`. -/
def cleanupTurn : Code Unit := do
  lock
  let (values, r) ← selectKeys
  let valid ← values.foldlM collectForwardKeyCallback []
  unlock
  if r ≠ SQLITE_OK then
    return ()
  cleanup valid

-- ============================================================================
-- Weakest preconditions of the small pieces
-- ============================================================================

section Rules

variable {S : Type} {k : Lib.Contract Call Call.Ans S} {s : S}

@[simp] theorem wp_setNonblocking {fd : Nat} {b : Bool} {Q : S → Int → Prop} :
    (setNonblocking fd b).wp k Q s ↔ k.owes s (.setNonblocking fd b) ∧
      ∀ n : Int, k.grants s (.setNonblocking fd b) n →
        Q (k.next s (.setNonblocking fd b) n) n := Iff.rfl

@[simp] theorem wp_send {fd : Nat} {buf : List Byte} {Q : S → Int → Prop} :
    (send fd buf).wp k Q s ↔ k.owes s (.send fd buf) ∧
      ∀ n : Int, k.grants s (.send fd buf) n → Q (k.next s (.send fd buf) n) n := Iff.rfl

@[simp] theorem wp_close {fd : Nat} {Q : S → Unit → Prop} :
    (close fd).wp k Q s ↔ k.owes s (.close fd) ∧
      ∀ u : Unit, k.grants s (.close fd) u → Q (k.next s (.close fd) u) u := Iff.rfl

@[simp] theorem wp_rand {Q : S → Nat → Prop} :
    rand.wp k Q s ↔ k.owes s .rand ∧
      ∀ n : Nat, k.grants s .rand n → Q (k.next s .rand n) n := Iff.rfl

@[simp] theorem wp_connectTo {addr : List Byte} {Q : S → Option Nat → Prop} :
    (connectTo addr).wp k Q s ↔ k.owes s (.connectTo addr) ∧
      ∀ r : Option Nat, k.grants s (.connectTo addr) r →
        Q (k.next s (.connectTo addr) r) r := Iff.rfl

@[simp] theorem wp_tieFd {key : List Byte} {fd1 fd2 : Nat} {Q : S → Unit → Prop} :
    (tieFd key fd1 fd2).wp k Q s ↔ k.owes s (.tieFd key fd1 fd2) ∧
      ∀ u : Unit, k.grants s (.tieFd key fd1 fd2) u →
        Q (k.next s (.tieFd key fd1 fd2) u) u := Iff.rfl

@[simp] theorem wp_lock {Q : S → Unit → Prop} :
    lock.wp k Q s ↔ k.owes s .lock ∧
      ∀ u : Unit, k.grants s .lock u → Q (k.next s .lock u) u := Iff.rfl

@[simp] theorem wp_unlock {Q : S → Unit → Prop} :
    unlock.wp k Q s ↔ k.owes s .unlock ∧
      ∀ u : Unit, k.grants s .unlock u → Q (k.next s .unlock u) u := Iff.rfl

@[simp] theorem wp_selectRoutes {Q : S → List Row × Int → Prop} :
    selectRoutes.wp k Q s ↔ k.owes s .selectRoutes ∧
      ∀ r : List Row × Int, k.grants s .selectRoutes r → Q (k.next s .selectRoutes r) r := Iff.rfl

@[simp] theorem wp_selectKeys {Q : S → List (Option CString) × Int → Prop} :
    selectKeys.wp k Q s ↔ k.owes s .selectKeys ∧
      ∀ r : List (Option CString) × Int, k.grants s .selectKeys r →
        Q (k.next s .selectKeys r) r := Iff.rfl

@[simp] theorem wp_cleanup {valid : List (List Byte)} {Q : S → Unit → Prop} :
    (cleanup valid).wp k Q s ↔ k.owes s (.cleanup valid) ∧
      ∀ u : Unit, k.grants s (.cleanup valid) u → Q (k.next s (.cleanup valid) u) u := Iff.rfl

@[simp] theorem wp_rfbDesKey {key : List Byte} {edf : Edf} {Q : S → Unit → Prop} :
    (rfbDesKey key edf).wp k Q s ↔ k.owes s (.rfbUseKey (D3des.rfbDesKey key edf)) ∧
      ∀ u : Unit, k.grants s (.rfbUseKey (D3des.rfbDesKey key edf)) u →
        Q (k.next s (.rfbUseKey (D3des.rfbDesKey key edf)) u) u := Iff.rfl

@[simp] theorem wp_rfbDes {inblock : List Byte} {Q : S → List Byte → Prop} :
    (rfbDes inblock).wp k Q s ↔ k.owes s (.rfbDes inblock) ∧
      ∀ outblock : List Byte, k.grants s (.rfbDes inblock) outblock →
        Q (k.next s (.rfbDes inblock) outblock) outblock := Iff.rfl

@[simp] theorem wp_undefined {α : Type} {Q : S → α → Prop} :
    (undefined : Code α).wp k Q s ↔ k.owes s .undefined := by
  show k.owes s .undefined ∧ _ ↔ _
  exact and_iff_left fun a => a.elim

@[simp] theorem wp_verify {p : Prop} [Decidable p] {Q : S → Unit → Prop} :
    (verify p).wp k Q s ↔ (p → Q s ()) ∧ (¬ p → k.owes s .abort) := by
  unfold verify
  rw [Prog.wp_ite]
  apply and_congr Iff.rfl
  apply imp_congr Iff.rfl
  show k.owes s .abort ∧ _ ↔ _
  exact and_iff_left fun a => a.elim

@[simp] theorem wp_load {arr : List Byte} {i : Nat} {Q : S → Byte → Prop} :
    (load arr i).wp k Q s ↔ (∀ b, arr[i]? = some b → Q s b) ∧
      (arr[i]? = none → k.owes s .undefined) := by
  unfold load
  cases arr[i]? <;> simp

@[simp] theorem wp_deref {value : Option CString} {Q : S → List Byte → Prop} :
    (deref value).wp k Q s ↔ (∀ c, value = some c → Q s c.bytes) ∧
      (value = none → k.owes s .undefined) := by
  cases value <;> simp [deref]

@[simp] theorem wp_recv {fd len : Nat} {arr : List Byte} {Q : S → Int × List Byte → Prop} :
    (recv fd arr len).wp k Q s ↔ k.owes s (.recv fd len) ∧
      (k.grants s (.recv fd len) none → Q (k.next s (.recv fd len) none) (-1, arr)) ∧
      ∀ bytes : List Byte, k.grants s (.recv fd len) (some bytes) →
        (bytes.length ≤ arr.length →
          Q (k.next s (.recv fd len) (some bytes)) (bytes.length, overwrite arr bytes)) ∧
        (¬ bytes.length ≤ arr.length →
          k.owes (k.next s (.recv fd len) (some bytes)) .undefined) := by
  unfold recv
  rw [Prog.wp_bind, Prog.wp_perform]
  apply and_congr Iff.rfl
  constructor
  · intro h
    refine ⟨fun hg => h none hg, ?_⟩
    intro bytes hg
    simpa using h (some bytes) hg
  · rintro ⟨hnone, hsome⟩ r hg
    cases r with
    | none => exact hnone hg
    | some bytes => simpa using hsome bytes hg

/-- As long as the count of types does not go past the array, the loop finds what
    is there. -/
theorem scanTypes_eq {buf : List Byte} {n : Nat} (h : n ≤ buf.length) :
    scanTypes buf n = pure ((buf.take n).contains 1, (buf.take n).contains 2) := by
  unfold scanTypes
  induction n with
  | zero => rfl
  | succ n ih =>
    have hn : n < buf.length := h
    rw [List.range_succ, List.foldlM_append, ih (Nat.le_of_lt hn)]
    have hone : (buf[n] == 1) = ((1 : Byte) == buf[n]) := BEq.comm
    have htwo : (buf[n] == 2) = ((2 : Byte) == buf[n]) := BEq.comm
    rw [pure_bind, List.foldlM_cons, List.take_add_one]
    simp only [List.foldlM_nil, load, List.getElem?_eq_getElem hn, Option.toList_some, pure_bind, bind_pure, hone,
      htwo, List.contains_append, List.contains_cons, List.contains_nil, Bool.or_false]

/-- As soon as it goes past the array, there is no telling what the loop reads. -/
theorem scanTypes_undefined {buf : List Byte} {n : Nat} (h : buf.length < n) :
    scanTypes buf n = undefined := by
  unfold scanTypes
  induction n with
  | zero => exact absurd h (Nat.not_lt_zero _)
  | succ n ih =>
    have hbind : ∀ {α β : Type} (f : α → Code β), (undefined >>= f : Code β) = undefined := by
      intro α β f
      show Prog.call _ _ = Prog.call _ _
      congr 1
      funext a
      exact a.elim
    rw [List.range_succ, List.foldlM_append]
    rcases Nat.lt_or_eq_of_le (Nat.le_of_lt_succ h) with hlt | rfl
    · rw [ih hlt, hbind]
    · have hscan := scanTypes_eq (Nat.le_refl buf.length)
      unfold scanTypes at hscan
      rw [hscan, pure_bind, List.foldlM_cons]
      simp only [load, List.getElem?_eq_none (Nat.le_refl _), hbind]

@[simp] theorem wp_scanTypes {buf : List Byte} {n : Nat} {Q : S → Bool × Bool → Prop} :
    (scanTypes buf n).wp k Q s ↔
      (n ≤ buf.length → Q s ((buf.take n).contains 1, (buf.take n).contains 2)) ∧
        (¬ n ≤ buf.length → k.owes s .undefined) := by
  by_cases h : n ≤ buf.length
  · rw [scanTypes_eq h, Prog.wp_pure]
    simp [h]
  · rw [scanTypes_undefined (Nat.lt_of_not_le h), wp_undefined]
    simp [h]

/-- A loop of calls that the contract takes no notice of. -/
theorem wp_randBytes {Q : S → List Byte → Prop} (howes : k.owes s .rand)
    (hnext : ∀ b : Nat, k.next s .rand b = s) (n : Nat)
    (hQ : ∀ bytes : List Byte, bytes.length = n → Q s bytes) : (randBytes n).wp k Q s := by
  induction n generalizing Q with
  | zero =>
    apply hQ
    rfl
  | succ n ih =>
    rw [randBytes, Prog.wp_bind, wp_rand]
    refine ⟨howes, ?_⟩
    intro b _
    rw [hnext b, Prog.wp_bind]
    apply ih
    intro bytes hlen
    apply hQ
    rw [List.length_cons, hlen]

end Rules

end VncProxy.Handshake
