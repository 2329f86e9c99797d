/-
  VncProxy.Handshake.Ledger

  What `run` does with the two descriptors and the mutex that pass through its hands.
  Each early return of `run` cleans up by itself; the ledger of a log says what has been
  connected and closed by then, and whether `global_m` is still held.
-/
import VncProxy.Handshake.Routing

namespace VncProxy.Handshake

open Lib (Prog Contract)

-- ============================================================================
-- The ledger
-- ============================================================================

/-- The descriptors that `connect_to` has returned and those that have been closed, each
    as often as it happened, whether `global_m` is held, and the pair that is tied. -/
structure Ledger where
  connected : List Nat
  closed : List Nat
  held : Bool
  tied : Option (Nat × Nat)
deriving DecidableEq, Repr

namespace Ledger

def empty : Ledger := ⟨[], [], false, none⟩

def next (s : Ledger) : (op : Call) → op.Ans → Ledger
  | .connectTo _, (some fd : Option Nat) => { s with connected := s.connected ++ [fd] }
  | .close fd, _ => { s with closed := s.closed ++ [fd] }
  | .lock, _ => { s with held := true }
  | .unlock, _ => { s with held := false }
  | .tieFd _ fd1 fd2, _ => { s with tied := some (fd1, fd2) }
  | _, _ => s

/-- The ledger after a log. -/
def of (log : List Exchange) : Ledger := log.foldl (fun s x => s.next x.op x.ans) empty

/-- The books balance: nothing was connected and the client is closed, or a remote was
    connected, and then both are closed or both are tied and open. -/
inductive Settled (clnt : Nat) : Ledger → Prop
  | refused : Settled clnt ⟨[], [clnt], false, none⟩
  | failed (remote : Nat) : Settled clnt ⟨[remote], [remote, clnt], false, none⟩
  | tied (remote : Nat) : Settled clnt ⟨[remote], [], false, some (clnt, remote)⟩

end Ledger

/-- `set_nonblocking` succeeds; whatever else is called can return anything. -/
def accounted (clnt : Nat) : Contract Call Call.Ans Ledger where
  next := Ledger.next
  owes s op :=
    match op with
    | .tieFd _ fd1 fd2 => fd1 = clnt ∧ s = ⟨[fd2], [], false, none⟩
    | .lock => s.held = false
    | .unlock => s.held = true
    | .abort => False
    | _ => True
  grants _ op a :=
    match op, a with
    | .setNonblocking _ _, (n : Int) => n = 0
    | _, _ => True

section Rules

variable {clnt remote fd len : Nat} {s : Ledger} {arr buf response challenge key : List Byte}

@[simp] theorem accounted_undefined : (accounted clnt).owes s .undefined := trivial

theorem wp_setNonblocking_accounted {nonblocking : Bool} {Q : Ledger → Int → Prop} :
    (setNonblocking fd nonblocking).wp (accounted clnt) Q s ↔ Q s 0 := by
  rw [wp_setNonblocking]
  simp [accounted, Ledger.next]

theorem wp_send_accounted {Q : Ledger → Int → Prop} :
    (send fd buf).wp (accounted clnt) Q s ↔ ∀ n, Q s n := by
  rw [wp_send]
  simp [accounted, Ledger.next]

theorem wp_close_accounted {Q : Ledger → Unit → Prop} : (close fd).wp (accounted clnt) Q s ↔
    Q { s with closed := s.closed ++ [fd] } () := by
  rw [wp_close]
  simp [accounted, Ledger.next]
  exact ⟨fun h => h (), fun h _ => h⟩

theorem wp_closeBoth_accounted {Q : Ledger → Unit → Prop} :
    (closeBoth clnt remote).wp (accounted clnt) Q s ↔
      Q { s with closed := s.closed ++ [remote] ++ [clnt] } () := by
  unfold closeBoth
  rw [Prog.wp_bind, wp_close_accounted, wp_close_accounted]

theorem wp_recv_accounted {Q : Ledger → Int × List Byte → Prop} (hQ : ∀ x, Q s x) :
    (recv fd arr len).wp (accounted clnt) Q s := by
  rw [wp_recv]
  refine ⟨trivial, fun _ => hQ _, ?_⟩
  intro bytes _
  exact ⟨fun _ => hQ _, fun _ => trivial⟩

theorem wp_connectTo_accounted {addr : List Byte} {Q : Ledger → Option Nat → Prop} :
    (connectTo addr).wp (accounted clnt) Q s ↔
      Q s none ∧ ∀ remote, Q { s with connected := s.connected ++ [remote] } (some remote) := by
  rw [wp_connectTo]
  apply Iff.intro
  · rintro ⟨-, h⟩
    exact ⟨h none trivial, fun remote => h (some remote) trivial⟩
  · rintro ⟨hnone, hsome⟩
    refine ⟨trivial, ?_⟩
    intro r _
    cases r with
    | none => exact hnone
    | some remote => exact hsome remote

theorem wp_lock_accounted {Q : Ledger → Unit → Prop} : lock.wp (accounted clnt) Q s ↔
    s.held = false ∧ Q { s with held := true } () := by
  rw [wp_lock]
  simp [accounted, Ledger.next]
  exact fun _ => ⟨fun h => h (), fun h _ => h⟩

theorem wp_unlock_accounted {Q : Ledger → Unit → Prop} : unlock.wp (accounted clnt) Q s ↔
    s.held = true ∧ Q { s with held := false } () := by
  rw [wp_unlock]
  simp [accounted, Ledger.next]
  exact fun _ => ⟨fun h => h (), fun h _ => h⟩

theorem wp_tieFd_accounted {fd1 fd2 : Nat} {Q : Ledger → Unit → Prop} :
    (tieFd key fd1 fd2).wp (accounted clnt) Q s ↔
      (fd1 = clnt ∧ s = ⟨[fd2], [], false, none⟩) ∧ Q { s with tied := some (fd1, fd2) } () := by
  rw [wp_tieFd]
  exact and_congr Iff.rfl ⟨fun h => h () trivial, fun h _ _ => h⟩

theorem vncAuthCallback_accounted {info : VncAuthInfo} {row : Row} :
    (vncAuthCallback info row).wp (accounted clnt) (fun s' _ => s' = s) s := by
  unfold vncAuthCallback authKey desBlocks
  cases row.destPasswd <;> simp [accounted, Ledger.next]

/-- The look-up takes the mutex and gives it back. -/
theorem wp_authenticate_accounted {Q : Ledger → VncAuthInfo × Int → Prop} (hheld : s.held = false)
    (hQ : ∀ x, Q s x) : (authenticate challenge response).wp (accounted clnt) Q s := by
  unfold authenticate
  rw [Prog.wp_bind, wp_lock_accounted]
  refine ⟨hheld, ?_⟩
  rw [Prog.wp_bind, wp_selectRoutes]
  refine ⟨trivial, ?_⟩
  rintro ⟨rows, r⟩ -
  show Prog.wp _ (List.foldlM _ _ _ >>= _) _ _
  rw [Prog.wp_bind]
  apply Prog.wp_mono (Prog.wp_foldlM (I := fun _ s' _ => s' = { s with held := true }) rows
    (fun _ _ _ _ _ _ h => h ▸ vncAuthCallback_accounted) _ _ rfl)
  rintro _ info rfl
  rw [Prog.wp_bind, wp_unlock_accounted]
  refine ⟨rfl, ?_⟩
  have hback : ({ { s with held := true } with held := false } : Ledger) = s := by
    rw [← hheld]
  rw [hback]
  exact hQ _

/-- The dialogue with the client closes it when it fails, and nothing else. -/
theorem greetClient_accounted {Q : Ledger → Option Arrays → Prop}
    (hnone : Q { s with closed := s.closed ++ [clnt] } none) (hsome : ∀ arrays, Q s (some arrays)) :
    (greetClient clnt buf response).wp (accounted clnt) Q s := by
  have hclose : (do
      close clnt
      return none : Code (Option Arrays)).wp (accounted clnt) Q s := by
    rw [Prog.wp_bind, wp_close_accounted]
    exact hnone
  unfold greetClient
  rw [Prog.wp_bind, wp_setNonblocking_accounted, Prog.wp_bind, wp_verify]
  refine ⟨?_, fun h => absurd rfl h⟩
  intro _
  rw [Prog.wp_bind, wp_send_accounted]
  intro _
  rw [Prog.wp_ite]
  refine ⟨fun _ => hclose, ?_⟩
  intro _
  rw [Prog.wp_bind]
  apply wp_recv_accounted
  rintro ⟨n, buf⟩
  show Prog.wp _ (if _ then _ else _) _ _
  rw [Prog.wp_ite]
  refine ⟨fun _ => hclose, ?_⟩
  intro _
  rw [Prog.wp_ite]
  refine ⟨fun _ => hclose, ?_⟩
  intro _
  rw [Prog.wp_bind, wp_send_accounted]
  intro _
  rw [Prog.wp_ite]
  refine ⟨fun _ => hclose, ?_⟩
  intro _
  rw [Prog.wp_bind]
  apply wp_recv_accounted
  rintro ⟨n, buf⟩
  show Prog.wp _ (if _ then _ else _) _ _
  rw [Prog.wp_ite]
  refine ⟨fun _ => hclose, ?_⟩
  intro _
  rw [Prog.wp_bind]
  apply wp_randBytes trivial (fun _ => rfl)
  intro challenge _
  rw [Prog.wp_bind, wp_send_accounted]
  intro _
  rw [Prog.wp_ite]
  refine ⟨fun _ => hclose, ?_⟩
  intro _
  rw [Prog.wp_bind]
  apply wp_recv_accounted
  rintro ⟨n, response⟩
  show Prog.wp _ (if _ then _ else _) _ _
  rw [Prog.wp_ite]
  exact ⟨fun _ => hclose, fun _ => hsome _⟩

/-- The dialogue with the remote closes both when it fails, and nothing else. -/
theorem greetRemote_accounted {Q : Ledger → Option (Bool × Bool) → Prop}
    (hnone : Q { s with closed := s.closed ++ [remote] ++ [clnt] } none)
    (hsome : ∀ types, Q s (some types)) :
    (greetRemote clnt remote buf).wp (accounted clnt) Q s := by
  have hclose : (do
      closeBoth clnt remote
      return none : Code (Option (Bool × Bool))).wp (accounted clnt) Q s := by
    rw [Prog.wp_bind, wp_closeBoth_accounted]
    exact hnone
  unfold greetRemote
  rw [Prog.wp_bind]
  apply wp_recv_accounted
  rintro ⟨n, buf⟩
  show Prog.wp _ (if _ then _ else _) _ _
  rw [Prog.wp_ite]
  refine ⟨fun _ => hclose, ?_⟩
  intro _
  rw [Prog.wp_bind, wp_send_accounted]
  intro _
  rw [Prog.wp_ite]
  refine ⟨fun _ => hclose, ?_⟩
  intro _
  rw [Prog.wp_bind]
  apply wp_recv_accounted
  rintro ⟨n, buf⟩
  show Prog.wp _ (if _ then _ else _) _ _
  rw [Prog.wp_ite]
  refine ⟨fun _ => hclose, ?_⟩
  intro _
  rw [Prog.wp_bind, wp_load]
  refine ⟨?_, fun _ => trivial⟩
  intro count _
  rw [Prog.wp_bind]
  apply wp_recv_accounted
  rintro ⟨n, buf⟩
  show Prog.wp _ (if _ then _ else _) _ _
  rw [Prog.wp_ite]
  refine ⟨fun _ => hclose, ?_⟩
  intro _
  rw [Prog.wp_bind, wp_scanTypes]
  exact ⟨fun _ => hsome _, fun _ => trivial⟩

theorem answerRemote_accounted {info : VncAuthInfo} {arrays : Arrays} {noneAuth vncAuth : Bool}
    {Q : Ledger → Bool → Prop} (hheld : s.held = false)
    (hfalse : Q { s with closed := s.closed ++ [remote] ++ [clnt] } false) (htrue : Q s true) :
    (answerRemote clnt remote info arrays noneAuth vncAuth).wp (accounted clnt) Q s := by
  have hclose : (do
      closeBoth clnt remote
      return false : Code Bool).wp (accounted clnt) Q s := by
    rw [Prog.wp_bind, wp_closeBoth_accounted]
    exact hfalse
  have hlast : ∀ bytes : List Byte, (do
      if (← send remote bytes) < 0 then
        closeBoth clnt remote
        return false
      return true : Code Bool).wp (accounted clnt) Q s := by
    intro bytes
    rw [Prog.wp_bind, wp_send_accounted]
    intro _
    rw [Prog.wp_ite]
    exact ⟨fun _ => hclose, fun _ => htrue⟩
  unfold answerRemote
  rw [Prog.wp_ite]
  refine ⟨fun _ => hlast [1], ?_⟩
  intro _
  rw [Prog.wp_ite]
  refine ⟨?_, fun _ => hclose⟩
  intro _
  rw [Prog.wp_bind, wp_send_accounted]
  intro _
  rw [Prog.wp_ite]
  refine ⟨fun _ => hclose, ?_⟩
  intro _
  rw [Prog.wp_bind]
  apply wp_recv_accounted
  rintro ⟨n, challenge⟩
  show Prog.wp _ (if _ then _ else _) _ _
  rw [Prog.wp_ite]
  refine ⟨fun _ => hclose, ?_⟩
  intro _
  rw [Prog.wp_bind, wp_lock_accounted]
  refine ⟨hheld, ?_⟩
  have hback : ({ { s with held := true } with held := false } : Ledger) = s := by
    rw [← hheld]
  have hunlock : ∀ bytes : List Byte, (do
      unlock
      if (← send remote bytes) < 0 then
        closeBoth clnt remote
        return false
      return true : Code Bool).wp (accounted clnt) Q { s with held := true } := by
    intro bytes
    rw [Prog.wp_bind, wp_unlock_accounted, hback]
    exact ⟨rfl, hlast bytes⟩
  unfold authKey desBlocks
  by_cases hlen : info.destPasswd.length ≤ 8
  · rw [if_pos hlen]
    show Prog.wp _ (rfbDesKey _ _ >>= _) _ _
    rw [Prog.wp_bind, wp_rfbDesKey]
    refine ⟨trivial, ?_⟩
    intro _ _
    rw [bind_assoc, Prog.wp_bind, wp_rfbDes]
    refine ⟨trivial, ?_⟩
    intro first _
    rw [bind_assoc, Prog.wp_bind, wp_rfbDes]
    exact ⟨trivial, fun second _ => hunlock (first ++ second)⟩
  · rw [if_neg hlen, Prog.wp_bind, wp_undefined]
    trivial

/-- Every way through `run` settles the books. -/
theorem run_accounted : (run clnt buf response).wp (accounted clnt)
    (fun s _ => s.Settled clnt) .empty := by
  rw [run_eq, Prog.wp_bind]
  apply greetClient_accounted
  · exact Ledger.Settled.refused
  intro arrays
  show Prog.wp _ (authenticate _ _ >>= _) _ _
  rw [Prog.wp_bind]
  apply wp_authenticate_accounted rfl
  rintro ⟨info, r⟩
  show Prog.wp _ (finish _ _ _ _) _ _
  have hclose : (close clnt).wp (accounted clnt) (fun s _ => s.Settled clnt) .empty := by
    rw [wp_close_accounted]
    exact Ledger.Settled.refused
  unfold finish
  rw [Prog.wp_ite]
  refine ⟨fun _ => hclose, ?_⟩
  intro _
  rw [Prog.wp_ite]
  refine ⟨?_, ?_⟩
  · intro _
    rw [Prog.wp_bind, wp_send_accounted]
    exact fun _ => hclose
  intro _
  rw [Prog.wp_bind, wp_connectTo_accounted]
  refine ⟨hclose, ?_⟩
  intro remote
  show Prog.wp _ (greetRemote _ _ _ >>= _) _ _
  rw [Prog.wp_bind]
  apply greetRemote_accounted
  · exact Ledger.Settled.failed remote
  rintro ⟨noneAuth, vncAuth⟩
  show Prog.wp _ (answerRemote _ _ _ _ _ _ >>= _) _ _
  rw [Prog.wp_bind]
  apply answerRemote_accounted rfl
  · exact Ledger.Settled.failed remote
  show Prog.wp _ (setNonblocking _ _ >>= _) _ _
  rw [Prog.wp_bind, wp_setNonblocking_accounted, Prog.wp_bind, wp_verify]
  refine ⟨?_, fun h => absurd rfl h⟩
  intro _
  rw [Prog.wp_bind, wp_setNonblocking_accounted, Prog.wp_bind, wp_verify]
  refine ⟨?_, fun h => absurd rfl h⟩
  intro _
  rw [wp_tieFd_accounted]
  exact ⟨⟨rfl, rfl⟩, Ledger.Settled.tied remote⟩

end Rules

end VncProxy.Handshake
