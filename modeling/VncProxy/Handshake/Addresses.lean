/-
  VncProxy.Handshake.Addresses

  `connect_to` and `bind_on` of vncproxy.cc: both walk the list that `getaddrinfo` has
  returned and take the first candidate whose socket can be connected, or bound.  What is
  left of the calls of `connect_to` is one call of an operator: a number that was closed
  is held, or the table of descriptors is as it was.
-/
import VncProxy.Handshake.Service

namespace VncProxy.Handshake.Addresses

open Lib (Prog Contract)

-- ============================================================================
-- Calls
-- ============================================================================

/-- `struct addrinfo`, without the link to the next. -/
structure AddrInfo where
  family : Int
  socktype : Int
  protocol : Int
  addr : List Byte
deriving DecidableEq, Repr

inductive Call
  /-- for an IPv4 stream socket, with `AI_PASSIVE` or without; no node is `NULL` -/
  | getaddrinfo (node : Option (List Byte)) (service : List Byte) (passive : Bool)
  | socket (family socktype protocol : Int)
  /-- `SO_REUSEADDR` -/
  | setsockopt (sock : Int)
  | connect (sock : Int) (addr : List Byte)
  | bind (sock : Int) (addr : List Byte)
  | listen (sock : Int)
  | close (sock : Int)
  | freeaddrinfo (result : List AddrInfo)
  /-- `abort()` after a failed `verify` -/
  | abort
  | undefined
deriving DecidableEq, Repr

@[reducible] def Call.Ans : Call → Type
  | .getaddrinfo _ _ _ => Int × List AddrInfo
  | .socket _ _ _ | .setsockopt _ | .connect _ _ | .bind _ _ | .listen _ | .close _ => Int
  | .freeaddrinfo _ => Unit
  | .abort | .undefined => Empty

abbrev Code := Lib.Prog Call Call.Ans

abbrev Exchange := Lib.Exchange Call Call.Ans

def getaddrinfo (node : Option (List Byte)) (service : List Byte) (passive : Bool) :
    Code (Int × List AddrInfo) := Prog.perform (Call.getaddrinfo node service passive)

def socket (rp : AddrInfo) : Code Int :=
  Prog.perform (Call.socket rp.family rp.socktype rp.protocol)

def setsockopt (sock : Int) : Code Int := Prog.perform (Call.setsockopt sock)

def connect (sock : Int) (rp : AddrInfo) : Code Int := Prog.perform (Call.connect sock rp.addr)

def bind (sock : Int) (rp : AddrInfo) : Code Int := Prog.perform (Call.bind sock rp.addr)

def listen (sock : Int) : Code Int := Prog.perform (Call.listen sock)

def close (sock : Int) : Code Int := Prog.perform (Call.close sock)

def freeaddrinfo (result : List AddrInfo) : Code Unit := Prog.perform (Call.freeaddrinfo result)

def undefined {α : Type} : Code α := Prog.call Call.undefined Empty.elim

/-- `verify(p)` -/
def verify (p : Prop) [Decidable p] : Code Unit :=
  if p then return () else Prog.call Call.abort Empty.elim

-- ============================================================================
-- The two functions
-- ============================================================================

/-- `":"` -/
def colon : Byte := 58

/-- `"0.0.0.0"` -/
def anyHost : List Byte := [48, 46, 48, 46, 48, 46, 48]

/-- The loop of `connect_to` and of `bind_on`: `sock`, and `rp` with what it links to;
    no candidate is `NULL`. -/
def candidates (attempt : Int → AddrInfo → Code Int) :
    List AddrInfo → Int → Code (Int × List AddrInfo)
  | [], sock => return (sock, [])
  | rp :: next, _ => do
    let sock ← socket rp
    if sock = -1 then
      candidates attempt next sock
    else
      let _ ← setsockopt sock
      if (← attempt sock rp) = 0 then
        return (sock, rp :: next)
      let _ ← close sock
      candidates attempt next (-1)

/-- `connect_to`; `sock` is not initialised. -/
def connectTo (addr : List Byte) (sock : Int) : Code Int := do
  let some idx := addr.idxOf? colon | return -1
  let host := addr.take idx
  let port := addr.drop (idx + 1)
  let (r, result) ← getaddrinfo (some host) port false
  if r ≠ 0 then
    return -1
  let (sock, rp) ← candidates connect result sock
  freeaddrinfo result
  if rp = [] then
    -- failed to connect
    return -1
  return sock

/-- The address of a variable of the caller; `NULL` is 0. -/
abbrev Pointer := Nat

/-- `bind_on`: its result, and what it leaves in `*result` and `*rp`. -/
def bindOn (bindAddr : List Byte) (result rp : Pointer) :
    Code (Int × Option (List AddrInfo × List AddrInfo)) := do
  let some idx := bindAddr.idxOf? colon | return (-1, none)
  let host := bindAddr.take idx
  let port := bindAddr.drop (idx + 1)
  let (r, list) ← getaddrinfo (if host = anyHost then none else some host) port true
  if r ≠ 0 then
    return (-1, none)
  -- *rp = *result
  if rp = 0 ∨ result = 0 then
    undefined
  let (serverSock, cursor) ← candidates bind list (-1)
  if rp = 0 then
    -- failed to bind
    freeaddrinfo list
    return (-1, some (list, cursor))
  verify (serverSock ≥ 0)
  verify ((← listen serverSock) = 0)
  return (serverSock, some (list, cursor))

-- ============================================================================
-- Candidates and what becomes of them
-- ============================================================================

/-- A candidate, what `socket` returns for it, and what `connect` or `bind` does. -/
structure Try where
  cand : AddrInfo
  socket : Int
  attempt : Int
  /-- `socket` returns -1 or a descriptor -/
  valid : socket = -1 ∨ 0 ≤ socket

namespace Try

def Succeeds (t : Try) : Prop := t.socket ≠ -1 ∧ t.attempt = 0

instance : DecidablePred Succeeds := fun _ => inferInstanceAs (Decidable (_ ∧ _))

/-- The socket that is opened for a candidate, if it is. -/
def opened (t : Try) : List Int := if t.socket = -1 then [] else [t.socket]

end Try

/-- The candidates that are still to be tried, the sockets that have been opened and
    closed, and the lists that have been freed. -/
structure Books where
  left : List Try
  opened : List Int
  closed : List Int
  freed : List (List AddrInfo)

namespace Books

def start (tries : List Try) : Books := ⟨tries, [], [], []⟩

def next (s : Books) : (op : Call) → op.Ans → Books
  | .socket _ _ _, (n : Int) =>
    if n = -1 then { s with left := s.left.tail } else { s with opened := s.opened ++ [n] }
  | .connect _ _, _ | .bind _ _, _ => { s with left := s.left.tail }
  | .close sock, _ => { s with closed := s.closed ++ [sock] }
  | .freeaddrinfo result, _ => { s with freed := s.freed ++ [result] }
  | _, _ => s

end Books

/-- `getaddrinfo` returns the candidates, which fare as they do; `listen` succeeds. -/
def facing : Contract Call Call.Ans Books where
  next := Books.next
  owes _ op := op ≠ .abort ∧ op ≠ .undefined
  grants s op a :=
    match op, a with
    | .getaddrinfo _ _ _, (x : Int × List AddrInfo) => x = (0, s.left.map Try.cand)
    | .socket _ _ _, (n : Int) => ∀ t ∈ s.left.head?, n = t.socket
    | .connect _ _, (n : Int) | .bind _ _, (n : Int) => ∀ t ∈ s.left.head?, n = t.attempt
    | .listen _, (n : Int) => n = 0
    | _, _ => True

/-- What `prog` makes of the candidates: it does not abort; it uses the socket of the first
    that succeeds and has closed every other it opened; if none does, it has closed all,
    freed the list and returns -1. -/
def PicksFirst {α : Type} (tries : List Try) (prog : Code α) (sock : α → Int) : Prop :=
  ∀ log p, Prog.Goes prog log p → facing.Kept (Books.start tries) log →
    (∀ next, p ≠ .call .abort next ∧ p ≠ .call .undefined next) ∧
    ∀ a, p = .done a →
      (∀ pre t post, tries = pre ++ t :: post → (∀ t' ∈ pre, ¬ t'.Succeeds) → t.Succeeds →
        sock a = t.socket ∧ (facing.track (Books.start tries) log).opened =
          (facing.track (Books.start tries) log).closed ++ [t.socket]) ∧
      ((∀ t ∈ tries, ¬ t.Succeeds) → sock a = -1 ∧
        (facing.track (Books.start tries) log).opened =
          (facing.track (Books.start tries) log).closed ∧
        (facing.track (Books.start tries) log).freed = [tries.map Try.cand])

section Rules

variable {s : Books} {left : List Try} {t : Try} {opened closed : List Int}
variable {freed : List (List AddrInfo)} {sock : Int} {rp : AddrInfo}

/-- What is performed is within what the contract asks for, unless it is the end of the
    program. -/
theorem wp_facing (op : Call) {Q : Books → op.Ans → Prop} (hop : op ≠ .abort ∧ op ≠ .undefined) :
    (Prog.perform op : Code op.Ans).wp facing Q s ↔ ∀ a, facing.grants s op a → Q (s.next op a) a := by
  refine (Prog.wp_perform _).trans ?_
  exact and_iff_right hop

theorem wp_socket {Q : Books → Int → Prop} : (socket rp).wp facing Q ⟨t :: left, opened, closed, freed⟩ ↔
    Q (if t.socket = -1 then ⟨left, opened, closed, freed⟩
      else ⟨t :: left, opened ++ [t.socket], closed, freed⟩) t.socket := by
  apply (wp_facing (.socket _ _ _) (by simp)).trans
  apply Iff.intro
  · intro h
    apply h
    intro t' ht'
    rw [← Option.some.inj ht']
  · intro h n hn
    obtain rfl : n = t.socket := hn t rfl
    exact h

theorem wp_setsockopt {Q : Books → Int → Prop} : (setsockopt sock).wp facing Q s ↔ ∀ n, Q s n := by
  apply (wp_facing (.setsockopt sock) (by simp)).trans
  exact ⟨fun h n => h n trivial, fun h n _ => h n⟩

theorem wp_close {Q : Books → Int → Prop} : (close sock).wp facing Q s ↔
    ∀ n, Q { s with closed := s.closed ++ [sock] } n := by
  apply (wp_facing (.close sock) (by simp)).trans
  exact ⟨fun h n => h n trivial, fun h n _ => h n⟩

theorem wp_freeaddrinfo {result : List AddrInfo} {Q : Books → Unit → Prop} :
    (freeaddrinfo result).wp facing Q s ↔ Q { s with freed := s.freed ++ [result] } () := by
  apply (wp_facing (.freeaddrinfo result) (by simp)).trans
  exact ⟨fun h => h () trivial, fun h _ _ => h⟩

theorem wp_listen {Q : Books → Int → Prop} : (listen sock).wp facing Q s ↔ Q s 0 := by
  apply (wp_facing (.listen sock) (by simp)).trans
  exact forall_eq

theorem wp_getaddrinfo {node : Option (List Byte)} {service : List Byte} {passive : Bool}
    {Q : Books → Int × List AddrInfo → Prop} : (getaddrinfo node service passive).wp facing Q s ↔
      Q s (0, s.left.map Try.cand) := by
  apply (wp_facing (.getaddrinfo _ _ _) (by simp)).trans
  exact forall_eq

theorem wp_verify {p : Prop} [Decidable p] {Q : Books → Unit → Prop} :
    (verify p).wp facing Q s ↔ p ∧ Q s () := by
  unfold verify
  by_cases hp : p
  · simp [hp]
  · rw [if_neg hp]
    apply iff_of_false _ fun h => hp h.1
    exact fun h => h.1.1 rfl

/-- `connect` and `bind` alike. -/
def Attempts (attempt : Int → AddrInfo → Code Int) : Prop :=
  ∀ {sock rp t left opened closed freed} {Q : Books → Int → Prop},
    (attempt sock rp).wp facing Q ⟨t :: left, opened, closed, freed⟩ ↔
      Q ⟨left, opened, closed, freed⟩ t.attempt

theorem connect_attempts : Attempts connect := by
  intro sock rp t left opened closed freed Q
  apply (wp_facing (.connect _ _) (by simp)).trans
  exact ⟨fun h => h _ fun t' ht' => by rw [← Option.some.inj ht'],
    fun h n hn => by obtain rfl : n = t.attempt := hn t rfl; exact h⟩

theorem bind_attempts : Attempts bind := by
  intro sock rp t left opened closed freed Q
  apply (wp_facing (.bind _ _) (by simp)).trans
  exact ⟨fun h => h _ fun t' ht' => by rw [← Option.some.inj ht'],
    fun h n hn => by obtain rfl : n = t.attempt := hn t rfl; exact h⟩

end Rules

-- ============================================================================
-- The loop
-- ============================================================================

section Loop

variable {attempt : Int → AddrInfo → Code Int} {opened closed : List Int}
variable {freed : List (List AddrInfo)} {sock : Int}

/-- The sockets that are opened for the candidates of `tries`. -/
def openedFor (tries : List Try) : List Int := tries.flatMap Try.opened

/-- The candidates before the first that succeeds are opened and closed, and the loop stops
    there. -/
theorem candidates_stop (hattempt : Attempts attempt) {pre : List Try} {t : Try} {post : List Try}
    (hpre : ∀ t' ∈ pre, ¬ t'.Succeeds) (ht : t.Succeeds)
    {Q : Books → Int × List AddrInfo → Prop} :
    (candidates attempt ((pre ++ t :: post).map Try.cand) sock).wp facing Q
        ⟨pre ++ t :: post, opened, closed, freed⟩ ↔
      Q ⟨post, opened ++ openedFor pre ++ [t.socket], closed ++ openedFor pre, freed⟩
        (t.socket, (t :: post).map Try.cand) := by
  unfold Attempts at hattempt
  induction pre generalizing opened closed sock with
  | nil =>
    rw [List.nil_append, List.map_cons, candidates, Prog.wp_bind, wp_socket, if_neg ht.1, if_neg ht.1,
      Prog.wp_bind, wp_setsockopt]
    simp [hattempt, ht.2, openedFor]
  | cons t' pre ih =>
    obtain ⟨ht', hpre⟩ := List.forall_mem_cons.mp hpre
    rw [List.cons_append, List.map_cons, candidates, Prog.wp_bind, wp_socket]
    by_cases hsock : t'.socket = -1
    · rw [if_pos hsock, if_pos hsock, ih hpre]
      have hnone : openedFor (t' :: pre) = openedFor pre := by simp [openedFor, Try.opened, hsock]
      rw [hnone]
    · have hfail : t'.attempt ≠ 0 := fun h => ht' ⟨hsock, h⟩
      have hsome : openedFor (t' :: pre) = t'.socket :: openedFor pre := by
        simp [openedFor, Try.opened, hsock]
      rw [if_neg hsock, if_neg hsock, Prog.wp_bind, wp_setsockopt, hsome]
      simp [hattempt, hfail, wp_close]
      simpa using @ih (opened ++ [t'.socket]) (closed ++ [t'.socket]) (-1) hpre

/-- If none succeeds, all are opened and closed. -/
theorem candidates_through (hattempt : Attempts attempt) {tries : List Try}
    (htries : ∀ t ∈ tries, ¬ t.Succeeds) {Q : Books → Int × List AddrInfo → Prop} :
    (candidates attempt (tries.map Try.cand) sock).wp facing Q ⟨tries, opened, closed, freed⟩ ↔
      Q ⟨[], opened ++ openedFor tries, closed ++ openedFor tries, freed⟩
        (if tries = [] then sock else -1, []) := by
  unfold Attempts at hattempt
  induction tries generalizing opened closed sock with
  | nil => simp [candidates, openedFor]
  | cons t tries ih =>
    obtain ⟨ht, htries⟩ := List.forall_mem_cons.mp htries
    rw [List.map_cons, candidates, Prog.wp_bind, wp_socket]
    by_cases hsock : t.socket = -1
    · have hnone : openedFor (t :: tries) = openedFor tries := by
        simp [openedFor, Try.opened, hsock]
      rw [if_pos hsock, if_pos hsock, ih htries, hnone, hsock]
      simp
    · have hfail : t.attempt ≠ 0 := fun h => ht ⟨hsock, h⟩
      have hsome : openedFor (t :: tries) = t.socket :: openedFor tries := by
        simp [openedFor, Try.opened, hsock]
      rw [if_neg hsock, if_neg hsock, Prog.wp_bind, wp_setsockopt, hsome]
      simp [hattempt, hfail, wp_close, ih htries]

end Loop

-- ============================================================================
-- The first that succeeds
-- ============================================================================

section First

variable {tries : List Try} {addr : List Byte} {sock : Int} {result rp : Pointer}

/-- There is a first candidate that succeeds, or there is none. -/
theorem first_cases (tries : List Try) : (∀ t ∈ tries, ¬ t.Succeeds) ∨
    ∃ pre t post, tries = pre ++ t :: post ∧ (∀ t' ∈ pre, ¬ t'.Succeeds) ∧ t.Succeeds := by
  cases hfind : tries.find? (fun t => decide t.Succeeds) with
  | none => exact Or.inl (by simpa using hfind)
  | some t =>
    obtain ⟨ht, pre, post, heq, hpre⟩ := List.find?_eq_some_iff_append.mp hfind
    exact Or.inr ⟨pre, t, post, heq, by simpa using hpre, by simpa using ht⟩

theorem first_unique {pre pre' post post' : List Try} {t t' : Try}
    (heq : pre ++ t :: post = pre' ++ t' :: post') (hpre : ∀ u ∈ pre, ¬ u.Succeeds)
    (hpre' : ∀ u ∈ pre', ¬ u.Succeeds) (ht : t.Succeeds) (ht' : t'.Succeeds) :
    pre = pre' ∧ t = t' := by
  have hfind : ∀ {pre : List Try} {t : Try} (post : List Try), (∀ u ∈ pre, ¬ u.Succeeds) →
      t.Succeeds →
      (pre ++ t :: post).takeWhile (fun u => ¬ u.Succeeds) = pre := by
    intro pre t post hpre ht
    rw [List.takeWhile_append_of_pos (by simpa using hpre)]
    simp [ht]
  have hsame : pre = pre' := by
    rw [← hfind post hpre ht, heq, hfind _ hpre' ht']
  subst hsame
  exact ⟨rfl, (List.cons.inj (List.append_cancel_left heq)).1⟩

/-- One weakest precondition for each case is enough. -/
theorem picksFirst_of_wp {α : Type} {prog : Code α} {sock : α → Int}
    (hstop : ∀ pre t post, tries = pre ++ t :: post → (∀ t' ∈ pre, ¬ t'.Succeeds) → t.Succeeds →
      prog.wp facing (fun s a => sock a = t.socket ∧ s.opened = s.closed ++ [t.socket])
        (Books.start tries))
    (hthrough : (∀ t ∈ tries, ¬ t.Succeeds) →
      prog.wp facing (fun s a => sock a = -1 ∧ s.opened = s.closed ∧ s.freed = [tries.map Try.cand])
        (Books.start tries)) : PicksFirst tries prog sock := by
  intro log p hgoes hkept
  rcases first_cases tries with hnone | ⟨pre, t, post, heq, hpre, ht⟩
  · obtain ⟨howes, hdone⟩ := Prog.wp_iff_goes.mp (hthrough hnone) log p hgoes hkept
    refine ⟨?_, ?_⟩
    · intro next
      exact ⟨fun h => (howes .abort next h).1 rfl, fun h => (howes .undefined next h).2 rfl⟩
    · intro a ha
      refine ⟨?_, fun _ => hdone a ha⟩
      rintro pre t post rfl - ht
      exact absurd ht (hnone t (by simp))
  · obtain ⟨howes, hdone⟩ := Prog.wp_iff_goes.mp (hstop pre t post heq hpre ht) log p hgoes hkept
    refine ⟨?_, ?_⟩
    · intro next
      exact ⟨fun h => (howes .abort next h).1 rfl, fun h => (howes .undefined next h).2 rfl⟩
    · intro a ha
      refine ⟨?_, ?_⟩
      · intro pre' t' post' heq' hpre' ht'
        obtain ⟨-, rfl⟩ := first_unique (heq.symm.trans heq') hpre hpre' ht ht'
        exact hdone a ha
      · intro hnone
        exact absurd ht (hnone t (by simp [heq]))

/-- `connect_to` is right about every list. -/
theorem connectTo_picksFirst (hcolon : colon ∈ addr) :
    PicksFirst tries (connectTo addr sock) id := by
  obtain ⟨idx, hidx⟩ := Option.isSome_iff_exists.mp (List.isSome_idxOf?.mpr hcolon)
  apply picksFirst_of_wp
  · intro pre t post heq hpre ht
    unfold connectTo
    rw [hidx]
    show Prog.wp _ (getaddrinfo _ _ _ >>= _) _ _
    rw [Prog.wp_bind, wp_getaddrinfo]
    show Prog.wp _ (candidates _ _ _ >>= _) _ _
    rw [Prog.wp_bind, Books.start, heq, candidates_stop connect_attempts hpre ht]
    show Prog.wp _ (freeaddrinfo _ >>= _) _ _
    rw [Prog.wp_bind, wp_freeaddrinfo]
    exact ⟨rfl, rfl⟩
  · intro hnone
    unfold connectTo
    rw [hidx]
    show Prog.wp _ (getaddrinfo _ _ _ >>= _) _ _
    rw [Prog.wp_bind, wp_getaddrinfo]
    show Prog.wp _ (candidates _ _ _ >>= _) _ _
    rw [Prog.wp_bind, Books.start, candidates_through connect_attempts hnone]
    show Prog.wp _ (freeaddrinfo _ >>= _) _ _
    rw [Prog.wp_bind, wp_freeaddrinfo]
    exact ⟨rfl, rfl, rfl⟩

/-- `bind_on` after the list has come. -/
theorem wp_bindOn (hcolon : colon ∈ addr) (hresult : result ≠ 0) (hrp : rp ≠ 0)
    {Q : Books → Int × Option (List AddrInfo × List AddrInfo) → Prop} :
    (bindOn addr result rp).wp facing Q (Books.start tries) ↔
      (candidates bind (tries.map Try.cand) (-1)).wp facing
        (fun s x => x.1 ≥ 0 ∧ Q s (x.1, some (tries.map Try.cand, x.2))) (Books.start tries) := by
  obtain ⟨idx, hidx⟩ := Option.isSome_iff_exists.mp (List.isSome_idxOf?.mpr hcolon)
  unfold bindOn
  rw [hidx]
  show Prog.wp _ (getaddrinfo _ _ _ >>= _) _ _ ↔ _
  rw [Prog.wp_bind, wp_getaddrinfo]
  show Prog.wp _ (if rp = 0 ∨ result = 0 then _ else candidates _ _ _ >>= _) _ _ ↔ _
  rw [if_neg (not_or.mpr ⟨hrp, hresult⟩), Prog.wp_bind]
  apply Prog.wp_congr
  rintro s ⟨serverSock, cursor⟩
  show Prog.wp _ (if rp = 0 then _ else _) _ _ ↔ _
  rw [if_neg hrp, Prog.wp_bind, wp_verify, Prog.wp_bind, wp_listen, Prog.wp_bind, wp_verify]
  exact and_congr_right fun _ => and_iff_right rfl

/-- `bind_on` tests the address of the cursor, not the cursor, and runs into `verify` when
    all candidates have failed. -/
theorem bindOn_picksFirst_iff (hcolon : colon ∈ addr) (hresult : result ≠ 0) (hrp : rp ≠ 0) :
    PicksFirst tries (bindOn addr result rp) Prod.fst ↔ ∃ t ∈ tries, t.Succeeds := by
  apply Iff.intro
  · intro h
    by_contra hnone
    have hnone : ∀ t ∈ tries, ¬ t.Succeeds := fun t ht hs => hnone ⟨t, ht, hs⟩
    have hwp : (bindOn addr result rp).wp facing (fun _ _ => True) (Books.start tries) := by
      apply Prog.wp_iff_goes.mpr
      intro log q hgoes hkept
      refine ⟨?_, fun _ _ => trivial⟩
      rintro op next rfl
      refine ⟨?_, ?_⟩
      · rintro rfl
        exact ((h log _ hgoes hkept).1 next).1 rfl
      · rintro rfl
        exact ((h log _ hgoes hkept).1 next).2 rfl
    rw [wp_bindOn hcolon hresult hrp, Books.start, candidates_through bind_attempts hnone] at hwp
    have hsock : (if tries = [] then (-1 : Int) else -1) = -1 := ite_self _
    rw [hsock] at hwp
    exact absurd hwp.1 (by decide)
  · rintro ⟨t, hmem, ht⟩
    apply picksFirst_of_wp
    · intro pre t post heq hpre ht
      rw [wp_bindOn hcolon hresult hrp, Books.start, heq, candidates_stop bind_attempts hpre ht]
      exact ⟨t.valid.resolve_left ht.1, rfl, rfl⟩
    · intro hnone
      exact absurd ht (hnone t hmem)

/-- Both functions do as they should exactly if `bind_on` finds a candidate that can be
    bound; the addresses of `result` and `rp` are those of variables. -/
theorem picksFirst_iff {tries' : List Try} {bindAddr : List Byte} (hcolon : colon ∈ addr)
    (hcolon' : colon ∈ bindAddr) (hresult : result ≠ 0) (hrp : rp ≠ 0) :
    (PicksFirst tries (connectTo addr sock) id ∧
      PicksFirst tries' (bindOn bindAddr result rp) Prod.fst) ↔ ∃ t ∈ tries', t.Succeeds := by
  rw [and_iff_right (connectTo_picksFirst hcolon)]
  exact bindOn_picksFirst_iff hcolon' hresult hrp

/-- A candidate on the loopback address, whose port is taken. -/
def taken : Try := ⟨⟨2, 1, 6, [127, 0, 0, 1]⟩, 3, -1, Or.inr (by decide)⟩

def free : Try := ⟨⟨2, 1, 6, [127, 0, 0, 1]⟩, 4, 0, Or.inr (by decide)⟩

theorem picksFirst_iff_free :
    (PicksFirst [taken] (connectTo [49, 58, 49] 0) id ∧
      PicksFirst [taken, free] (bindOn [49, 58, 49] 8 16) Prod.fst) ↔
        ∃ t ∈ [taken, free], t.Succeeds :=
  picksFirst_iff (by decide) (by decide) (by decide) (by decide)

/-- With its one candidate taken, `bind_on` aborts where it means to return -1. -/
theorem bindOn_taken : ¬ PicksFirst [taken] (bindOn [49, 58, 49] 8 16) Prod.fst := by
  intro h
  obtain ⟨t, hmem, ht⟩ := (bindOn_picksFirst_iff (by decide) (by decide) (by decide)).mp h
  obtain rfl := List.mem_singleton.mp hmem
  exact absurd ht (by decide)

end First

-- ============================================================================
-- What an operator gets
-- ============================================================================

/-- The table of descriptors while `connect_to` is at work and nobody else: a socket gets a
    number that is closed, and is closed by the one that holds it. -/
def tabled : Contract Call Call.Ans (Nat → Polling.Desc Proxy.Ep) where
  next desc op a :=
    match op, a with
    | .socket _ _ _, (n : Int) =>
      if n = -1 then desc else Function.update desc n.toNat .held
    | .close sock, _ => Function.update desc sock.toNat .closed
    | _, _ => desc
  owes desc op := op ≠ .abort ∧ op ≠ .undefined ∧
    ∀ sock, op = .close sock → 0 ≤ sock ∧ desc sock.toNat = .held
  grants desc op a :=
    match op, a with
    | .socket _ _ _, (n : Int) => n = -1 ∨ (0 ≤ n ∧ desc n.toNat = .closed)
    | _, _ => True

section Table

variable {desc : Nat → Polling.Desc Proxy.Ep} {list : List AddrInfo} {addr : List Byte} {sock : Int}

theorem wp_socket_tabled {rp : AddrInfo} {Q : (Nat → Polling.Desc Proxy.Ep) → Int → Prop}
    (hnone : Q desc (-1))
    (hsome : ∀ fd : Nat, desc fd = .closed → Q (Function.update desc fd .held) fd) :
    (socket rp).wp tabled Q desc := by
  refine (Prog.wp_perform _).mpr ⟨by simp [tabled], ?_⟩
  rintro n (rfl | ⟨hpos, hclosed⟩)
  · exact hnone
  · obtain ⟨fd, rfl⟩ := Int.eq_ofNat_of_zero_le hpos
    have hfd : ((fd : Nat) : Int) ≠ -1 := by omega
    show Q (if ((fd : Nat) : Int) = -1 then desc else Function.update desc fd .held) fd
    rw [if_neg hfd]
    exact hsome fd hclosed

/-- Each socket but the one that is connected is closed again. -/
theorem candidates_tabled :
    (candidates connect list sock).wp tabled (fun desc' x =>
      (x.2 = [] ∧ desc' = desc) ∨ (x.2 ≠ [] ∧ ∃ fd : Nat, x.1 = fd ∧ desc fd = .closed ∧
        desc' = Function.update desc fd .held)) desc := by
  induction list generalizing sock with
  | nil => exact Or.inl ⟨rfl, rfl⟩
  | cons rp next ih =>
    rw [candidates, Prog.wp_bind]
    apply wp_socket_tabled
    · rw [if_pos rfl]
      exact ih
    intro fd hclosed
    have hfd : ((fd : Nat) : Int) ≠ -1 := by omega
    rw [if_neg hfd, Prog.wp_bind]
    refine (Prog.wp_perform _).mpr ⟨by simp [tabled], ?_⟩
    intro _ _
    rw [Prog.wp_bind]
    refine (Prog.wp_perform _).mpr ⟨by simp [tabled], ?_⟩
    intro r _
    rw [Prog.wp_ite]
    refine ⟨?_, ?_⟩
    · intro _
      exact Or.inr ⟨by simp, fd, rfl, hclosed, rfl⟩
    · intro _
      rw [Prog.wp_bind]
      refine (Prog.wp_perform _).mpr ⟨⟨by simp, by simp, ?_⟩, ?_⟩
      · rintro _ ⟨⟩
        exact ⟨Int.natCast_nonneg fd, Function.update_self ..⟩
      · intro _ _
        have hback : Function.update (Function.update desc fd .held) fd .closed = desc := by
          rw [Function.update_idem, ← hclosed, Function.update_eq_self]
        show Prog.wp tabled _ _ (Function.update (Function.update desc fd .held) fd .closed)
        rw [hback]
        exact ih

theorem connectTo_tabled :
    (connectTo addr sock).wp tabled (fun desc' n => (n = -1 ∧ desc' = desc) ∨
      ∃ fd : Nat, n = fd ∧ desc fd = .closed ∧ desc' = Function.update desc fd .held) desc := by
  unfold connectTo
  cases addr.idxOf? colon with
  | none => exact Or.inl ⟨rfl, rfl⟩
  | some idx =>
    show Prog.wp _ (getaddrinfo _ _ _ >>= _) _ _
    rw [Prog.wp_bind]
    refine (Prog.wp_perform _).mpr ⟨by simp [tabled], ?_⟩
    rintro ⟨r, result⟩ _
    show Prog.wp _ (if r ≠ 0 then _ else candidates _ _ _ >>= _) _ _
    rw [Prog.wp_ite]
    refine ⟨fun _ => Or.inl ⟨rfl, rfl⟩, ?_⟩
    intro _
    rw [Prog.wp_bind]
    apply Prog.wp_mono candidates_tabled
    rintro desc' ⟨n, rp⟩ hloop
    show Prog.wp _ (freeaddrinfo _ >>= _) _ _
    rw [Prog.wp_bind]
    refine (Prog.wp_perform _).mpr ⟨by simp [tabled], ?_⟩
    intro _ _
    show Prog.wp _ (if rp = [] then _ else _) _ _
    rw [Prog.wp_ite]
    rcases hloop with ⟨hrp, rfl⟩ | ⟨hrp, fd, hn, hclosed, rfl⟩
    · exact ⟨fun _ => Or.inl ⟨rfl, rfl⟩, fun h => absurd hrp h⟩
    · exact ⟨fun h => absurd h hrp, fun _ => Or.inr ⟨fd, hn, hclosed, rfl⟩⟩

/-- Whatever `connect_to` comes to is an answer that the service gives to the call of an
    operator, with the descriptors as `connect_to` leaves them. -/
theorem connectTo_served {s : Service} {i : Nat} {log : List Exchange} {n : Int}
    (hup : s.config.crashed = none) (hgoes : Prog.Goes (connectTo addr sock) log (.done n))
    (hkept : tabled.Kept s.desc log) :
    ∃ (r : Service.Reply) (s' : Service),
      s.serve i r (.connectTo addr) = some (if n = -1 then none else some n.toNat, s') ∧
        s'.desc = tabled.track s.desc log := by
  have hdone := (Prog.wp_iff_goes.mp connectTo_tabled log _ hgoes hkept).2 n rfl
  rcases hdone with ⟨rfl, hdesc⟩ | ⟨fd, rfl, hclosed, hdesc⟩
  · refine ⟨⟨0, none, 0, [], none, []⟩, s, rfl, hdesc.symm⟩
  · have hfd : ((fd : Nat) : Int) ≠ -1 := by omega
    obtain ⟨config, hgrab, hheld⟩ : ∃ config, Proxy.step (.grab fd) s.config = some config ∧
        config.world.kernel.desc = Function.update s.desc fd .held := ⟨_, if_pos ⟨hup, hclosed⟩, rfl⟩
    rw [if_neg hfd, hdesc]
    refine ⟨⟨0, none, 0, [], some fd, []⟩, s.opened config fd [], ?_, hheld⟩
    simp only [Service.serve]
    rw [hgrab]
    rfl

end Table

end VncProxy.Handshake.Addresses
