/-
  VncProxy.Handshake.Streams

  The environment of one `run`: the client and the remote each send a stream of bytes
  that can end anywhere, the table does not change, and the challenge is given.  The
  contract `piped` asks for nothing but closed sockets once a recv has come back short.
-/
import VncProxy.Handshake.Tables

namespace VncProxy.Handshake

open Lib (Prog Contract)

-- ============================================================================
-- The environment
-- ============================================================================

/-- What is still to be received from both sides and to be generated, the key register,
    and whether a recv has come back with fewer bytes than it was asked for. -/
structure Streams where
  client : List Byte
  server : List Byte
  challenge : List Byte
  register : Option D3des.Register
  short : Bool

namespace Streams

def start (client server challenge : List Byte) : Streams :=
  ⟨client, server, challenge, none, false⟩

/-- A recv of `len` bytes that does not fail. -/
def recvd (s : Streams) (clnt fd len : Nat) (bytes : List Byte) : Streams :=
  { s with
    client := if fd = clnt then s.client.drop len else s.client
    server := if fd = clnt then s.server else s.server.drop len
    short := s.short || decide (bytes.length < len) }

def next (clnt : Nat) (s : Streams) : (op : Call) → op.Ans → Streams
  | .recv fd len, (some bytes : Option (List Byte)) => s.recvd clnt fd len bytes
  | .rand, _ => { s with challenge := s.challenge.tail }
  | .lock, _ => { s with register := none }
  | .rfbUseKey knl, _ => { s with register := some knl }
  | _, _ => s

section Recvd

variable {clnt remote len : Nat} {client server challenge : List Byte}
variable {register : Option D3des.Register} {short : Bool}

theorem recvd_client :
    (⟨client, server, challenge, register, short⟩ : Streams).recvd clnt clnt len (client.take len) =
      ⟨client.drop len, server, challenge, register, short || decide (client.length < len)⟩ := by
  simp [recvd]

theorem recvd_server (h : remote ≠ clnt) :
    (⟨client, server, challenge, register, short⟩ : Streams).recvd clnt remote len
        (server.take len) =
      ⟨client, server.drop len, challenge, register, short || decide (server.length < len)⟩ := by
  simp [recvd, h]

end Recvd

end Streams

/-- A recv waits until it is filled or the stream is at its end, or it fails. -/
def piped (clnt : Nat) (rows : List Row) : Contract Call Call.Ans Streams where
  next := Streams.next clnt
  owes s op := op ≠ .undefined ∧ (s.short = true → ∃ fd, op = .close fd)
  grants s op a :=
    match op, a with
    | .recv fd len, (r : Option (List Byte)) =>
      r = none ∨ r = some ((if fd = clnt then s.client else s.server).take len)
    | .rand, (n : Nat) => s.challenge.head? = some (UInt8.ofNat n)
    | .connectTo _, (r : Option Nat) => ∀ fd, r = some fd → fd ≠ clnt
    | .selectRoutes, (x : List Row × Int) => Delivers rows x
    | .rfbDes inblock, (outblock : List Byte) =>
      ∀ knl, s.register = some knl → outblock = D3des.rfbDes knl inblock
    | _, _ => True

-- ============================================================================
-- Rules
-- ============================================================================

section Rules

variable {clnt remote fd len : Nat} {rows : List Row} {s : Streams} {arr buf : List Byte}

@[simp] theorem piped_owes (op : Call) : (piped clnt rows).owes s op ↔
    op ≠ .undefined ∧ (s.short = true → ∃ fd, op = .close fd) := Iff.rfl

/-- Before the first recv that is short, everything but the undefined may be called. -/
theorem owes_whole {op : Call} (hop : op ≠ .undefined) (hclose : ∀ fd, op ≠ .close fd) :
    (piped clnt rows).owes s op ↔ s.short = false := by
  rw [piped_owes, and_iff_right hop]
  apply Iff.intro
  · intro h
    by_contra hshort
    obtain ⟨fd, hfd⟩ := h (Bool.eq_true_of_not_eq_false hshort)
    exact hclose fd hfd
  · intro h hshort
    rw [h] at hshort
    cases hshort

theorem owes_close : (piped clnt rows).owes s (.close fd) :=
  ⟨by simp, fun _ => ⟨fd, rfl⟩⟩

theorem wp_setNonblocking_piped {nonblocking : Bool} {Q : Streams → Int → Prop} :
    (setNonblocking fd nonblocking).wp (piped clnt rows) Q s ↔ s.short = false ∧ ∀ n, Q s n := by
  rw [wp_setNonblocking]
  apply and_congr (owes_whole (by simp) (by simp))
  exact ⟨fun h n => h n trivial, fun h n _ => h n⟩

theorem wp_send_piped {Q : Streams → Int → Prop} :
    (send fd buf).wp (piped clnt rows) Q s ↔ s.short = false ∧ ∀ n, Q s n := by
  rw [wp_send]
  apply and_congr (owes_whole (by simp) (by simp))
  exact ⟨fun h n => h n trivial, fun h n _ => h n⟩

theorem wp_close_piped {Q : Streams → Unit → Prop} :
    (close fd).wp (piped clnt rows) Q s ↔ Q s () := by
  rw [wp_close, and_iff_right owes_close]
  exact ⟨fun h => h () trivial, fun h _ _ => h⟩

theorem wp_closeBoth_piped {Q : Streams → Unit → Prop} :
    (closeBoth clnt remote).wp (piped clnt rows) Q s ↔ Q s () := by
  unfold closeBoth
  rw [Prog.wp_bind, wp_close_piped, wp_close_piped]

theorem wp_connectTo_piped {addr : List Byte} {Q : Streams → Option Nat → Prop} :
    (connectTo addr).wp (piped clnt rows) Q s ↔
      s.short = false ∧ Q s none ∧ ∀ remote, remote ≠ clnt → Q s (some remote) := by
  rw [wp_connectTo]
  apply and_congr (owes_whole (by simp) (by simp))
  apply Iff.intro
  · intro h
    refine ⟨h none ?_, ?_⟩
    · intro fd hfd
      cases hfd
    · intro remote hne
      apply h (some remote)
      intro fd hfd
      rwa [← Option.some.inj hfd]
  · rintro ⟨hnone, hsome⟩ r hr
    cases r with
    | none => exact hnone
    | some remote => exact hsome remote (hr remote rfl)

theorem wp_recv_piped {Q : Streams → Int × List Byte → Prop} :
    (recv fd arr len).wp (piped clnt rows) Q s ↔ s.short = false ∧ Q s (-1, arr) ∧
      (((if fd = clnt then s.client else s.server).take len).length ≤ arr.length ∧
        Q (s.recvd clnt fd len ((if fd = clnt then s.client else s.server).take len))
          (((if fd = clnt then s.client else s.server).take len).length,
            overwrite arr ((if fd = clnt then s.client else s.server).take len))) := by
  rw [wp_recv]
  apply and_congr (owes_whole (by simp) (by simp))
  apply Iff.intro
  · rintro ⟨hfail, hsome⟩
    obtain ⟨hfit, hover⟩ := hsome _ (Or.inr rfl)
    have hle : ((if fd = clnt then s.client else s.server).take len).length ≤ arr.length := by
      by_contra hlong
      exact (hover hlong).1 rfl
    exact ⟨hfail (Or.inl rfl), hle, hfit hle⟩
  · rintro ⟨hfail, hle, hfit⟩
    refine ⟨fun _ => hfail, ?_⟩
    rintro bytes (hbytes | hbytes)
    · cases hbytes
    · obtain rfl := Option.some.inj hbytes
      exact ⟨fun _ => hfit, fun hlong => absurd hle hlong⟩

theorem wp_lock_piped {Q : Streams → Unit → Prop} : lock.wp (piped clnt rows) Q s ↔
    s.short = false ∧ Q { s with register := none } () := by
  rw [wp_lock]
  apply and_congr (owes_whole (by simp) (by simp))
  exact ⟨fun h => h () trivial, fun h _ _ => h⟩

theorem wp_unlock_piped {Q : Streams → Unit → Prop} :
    unlock.wp (piped clnt rows) Q s ↔ s.short = false ∧ Q s () := by
  rw [wp_unlock]
  apply and_congr (owes_whole (by simp) (by simp))
  exact ⟨fun h => h () trivial, fun h _ _ => h⟩

theorem wp_tieFd_piped {key : List Byte} {fd1 fd2 : Nat} {Q : Streams → Unit → Prop} :
    (tieFd key fd1 fd2).wp (piped clnt rows) Q s ↔ s.short = false ∧ Q s () := by
  rw [wp_tieFd]
  apply and_congr (owes_whole (by simp) (by simp))
  exact ⟨fun h => h () trivial, fun h _ _ => h⟩

/-- The answer to a challenge needs no stream. -/
theorem wp_respond_piped (key challenge : List Byte) {Q : Streams → List Byte → Prop} :
    (do
      let authKey ← authKey key
      rfbDesKey authKey .EN0
      desBlocks challenge).wp (piped clnt rows) Q s ↔
        key.length ≤ 8 ∧ s.short = false ∧
          Q { s with register := some (D3des.rfbDesKey (overwrite (List.replicate 8 0) key) .EN0) }
            (vncResponse key challenge) := by
  unfold authKey desBlocks vncResponse
  by_cases hlen : key.length ≤ 8
  · simp [hlen, piped, Streams.next]
  · simp [hlen]

theorem wp_rand_piped {b : Byte} {Q : Streams → Nat → Prop} (hb : s.challenge.head? = some b) :
    rand.wp (piped clnt rows) Q s ↔ s.short = false ∧
      ∀ n : Nat, b = UInt8.ofNat n → Q { s with challenge := s.challenge.tail } n := by
  rw [wp_rand]
  apply and_congr (owes_whole (by simp) (by simp))
  apply forall_congr'
  intro n
  apply imp_congr_left
  show s.challenge.head? = some (UInt8.ofNat n) ↔ b = UInt8.ofNat n
  rw [hb, Option.some.injEq]

theorem wp_randBytes_piped {challenge : List Byte} {Q : Streams → List Byte → Prop}
    (hlen : 0 < challenge.length) : (randBytes challenge.length).wp (piped clnt rows) Q
        { s with challenge := challenge } ↔
      s.short = false ∧ Q { s with challenge := [] } challenge := by
  by_cases hshort : s.short = false
  · rw [and_iff_right hshort]
    clear hlen
    induction challenge generalizing Q with
    | nil => exact Iff.rfl
    | cons b challenge ih =>
      rw [List.length_cons, randBytes, Prog.wp_bind, wp_rand_piped rfl]
      refine (and_iff_right hshort).trans ?_
      have hrest : ∀ n : Nat, (do return UInt8.ofNat n :: (← randBytes challenge.length)
          : Code (List Byte)).wp (piped clnt rows) Q { s with challenge := challenge } ↔
            Q { s with challenge := [] } (UInt8.ofNat n :: challenge) := by
        intro n
        rw [Prog.wp_bind]
        exact ih
      apply Iff.intro
      · intro h
        have hb : b = UInt8.ofNat b.toNat := by simp
        have hlast := (hrest b.toNat).mp (h b.toNat hb)
        rwa [← hb] at hlast
      · rintro h n rfl
        exact (hrest n).mpr h
  · cases challenge with
    | nil => exact absurd hlen (Nat.lt_irrefl 0)
    | cons b challenge =>
      rw [List.length_cons, randBytes, Prog.wp_bind, wp_rand_piped rfl]
      simp [hshort]

end Rules

end VncProxy.Handshake
