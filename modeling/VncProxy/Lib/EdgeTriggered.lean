/-
  VncProxy.Lib.EdgeTriggered

  Stream sockets under edge-triggered polling.  A `Sock` is what one end of a
  connection offers to its owner, with the conditions that the kernel has
  pending for it.  `Sock.Env` is a change from outside: bytes arrive, room
  appears, the other end hangs up.  Such a change makes a condition pending when
  it becomes true, and no pending condition is forgotten while it is true; apart
  from that the environment is free.

  `Covered` is the invariant of every user of such an interface: each condition
  that is true and asked for is pending or in somebody's hands.
-/
import Mathlib.Data.List.Basic

namespace VncProxy.Lib

-- ============================================================================
-- Sockets
-- ============================================================================

/-- What a registration asks for; errors and hang-ups are always reported. -/
structure Mask where
  input : Bool
  output : Bool
deriving DecidableEq, Repr

/-- A set of conditions. -/
structure Flags where
  input : Bool
  output : Bool
  error : Bool
deriving DecidableEq, Repr

structure Sock (β : Type _) where
  rx : List β
  space : Nat
  hup : Bool
  pending : Flags
deriving DecidableEq, Repr

namespace Sock

variable {β : Type _}

/-- `ADD` and `MOD` make every condition in the mask that is true pending. -/
def arm (m : Mask) (s : Sock β) : Sock β :=
  { s with pending :=
    { input := s.pending.input || (m.input && !s.rx.isEmpty)
      output := s.pending.output || (m.output && decide (0 < s.space))
      error := s.pending.error || s.hup } }

/-- The conditions `f` have been reported. -/
def report (f : Flags) (s : Sock β) : Sock β :=
  { s with pending :=
    { input := s.pending.input && !f.input
      output := s.pending.output && !f.output
      error := s.pending.error && !f.error } }

/-- A change from outside, under the registration `m` if there is one. -/
structure Env (m : Option Mask) (s s' : Sock β) : Prop where
  /-- bytes arrive, but not after a hang-up -/
  arrived : ∃ bs, s'.rx = s.rx ++ bs ∧ (s.hup = true → bs = [])
  /-- room appears, or the connection is gone -/
  freed : s.space ≤ s'.space ∨ s'.hup = true ∧ s'.space = 0
  hung : s.hup = true → s'.hup = true
  edgeInput : m.any Mask.input = true → s'.rx ≠ s.rx → s'.pending.input = true
  edgeOutput : m.any Mask.output = true → s.space = 0 → 0 < s'.space → s'.pending.output = true
  edgeError : m.isSome = true → s.hup = false → s'.hup = true → s'.pending.error = true
  keepInput : s.pending.input = true → s'.rx ≠ [] → s'.pending.input = true
  keepOutput : s.pending.output = true → 0 < s'.space → s'.pending.output = true
  keepError : s.pending.error = true → s'.hup = true → s'.pending.error = true

/-- The owner has taken bytes and filled room. -/
structure Used (s s' : Sock β) : Prop where
  rx : ∃ bs, s.rx = bs ++ s'.rx
  space : s'.space ≤ s.space
  hup : s'.hup = s.hup
  pending : s'.pending = s.pending

theorem Env.refl (m : Option Mask) (s : Sock β) : Env m s s where
  arrived := ⟨[], by simp, fun _ => rfl⟩
  freed := Or.inl (Nat.le_refl _)
  hung := id
  edgeInput := by
    intro _ hne
    exact absurd rfl hne
  edgeOutput := by
    intro _ h0 hpos
    omega
  edgeError := by
    intro _ h0 h1
    rw [h0] at h1
    cases h1
  keepInput := fun h _ => h
  keepOutput := fun h _ => h
  keepError := fun h _ => h

/-- Bytes arrive. -/
def arrive (m : Option Mask) (bs : List β) (s : Sock β) : Sock β :=
  { s with
    rx := s.rx ++ bs
    pending := { s.pending with input := s.pending.input || (m.any Mask.input && !bs.isEmpty) } }

theorem Env.of_arrive (m : Option Mask) {bs : List β} {s : Sock β} (h : s.hup = false) :
    Env m s (s.arrive m bs) where
  arrived := ⟨bs, rfl, fun hhup => by rw [h] at hhup; cases hhup⟩
  freed := Or.inl (Nat.le_refl _)
  hung := id
  edgeInput := by
    intro hm hne
    have hbs : bs ≠ [] := by
      rintro rfl
      exact hne (List.append_nil _)
    simp [arrive, hm, hbs]
  edgeOutput := by
    intro _ h0 hpos
    change 0 < s.space at hpos
    omega
  edgeError := by
    intro _ h0 h1
    change s.hup = true at h1
    rw [h0] at h1
    cases h1
  keepInput := by
    intro hp _
    simp [arrive, hp]
  keepOutput := fun hp _ => hp
  keepError := fun hp _ => hp

end Sock

-- ============================================================================
-- Coverage
-- ============================================================================

/-- Each condition that is true and asked for is pending or in flight. -/
structure Covered {β : Type _} (m : Option Mask) (s : Sock β) (input output error : Prop) :
    Prop where
  input : m.any Mask.input = true → s.rx ≠ [] → s.pending.input = true ∨ input
  output : m.any Mask.output = true → 0 < s.space → s.pending.output = true ∨ output
  error : m.isSome = true → s.hup = true → s.pending.error = true ∨ error

namespace Covered

variable {β : Type _} {m : Option Mask} {s s' : Sock β} {input output error : Prop}

theorem imp (h : Covered m s input output error) {input' output' error' : Prop}
    (hin : input → input') (hout : output → output') (herr : error → error') :
    Covered m s input' output' error' :=
  ⟨fun hm hs => (h.input hm hs).imp id hin, fun hm hs => (h.output hm hs).imp id hout,
    fun hm hs => (h.error hm hs).imp id herr⟩

/-- Whatever happens outside makes itself pending. -/
theorem env (h : Covered m s input output error) (he : s.Env m s') :
    Covered m s' input output error := by
  apply Covered.mk
  · intro hm hrx
    by_cases hsame : s'.rx = s.rx
    · rcases h.input hm (hsame ▸ hrx) with hp | hp
      · exact Or.inl (he.keepInput hp hrx)
      · exact Or.inr hp
    · exact Or.inl (he.edgeInput hm hsame)
  · intro hm hpos
    by_cases hfull : s.space = 0
    · exact Or.inl (he.edgeOutput hm hfull hpos)
    · rcases h.output hm (Nat.pos_of_ne_zero hfull) with hp | hp
      · exact Or.inl (he.keepOutput hp hpos)
      · exact Or.inr hp
  · intro hm hhup
    cases hs : s.hup with
    | false => exact Or.inl (he.edgeError hm hs hhup)
    | true =>
      rcases h.error hm hs with hp | hp
      · exact Or.inl (he.keepError hp hhup)
      · exact Or.inr hp

/-- Taking bytes and filling room makes no condition true. -/
theorem used (h : Covered m s input output error) (hu : s.Used s') :
    Covered m s' input output error := by
  obtain ⟨⟨bs, hbs⟩, hspace, hhup, hpending⟩ := hu
  apply Covered.mk
  · intro hm hrx
    rw [hpending]
    apply h.input hm
    rw [hbs]
    simp [hrx]
  · intro hm hpos
    rw [hpending]
    exact h.output hm (Nat.lt_of_lt_of_le hpos hspace)
  · intro hm hs
    rw [hpending]
    exact h.error hm (hhup ▸ hs)

/-- A registration that is new or changed has nothing to catch up on. -/
theorem arm (k : Mask) (s : Sock β) : Covered (some k) (s.arm k) input output error := by
  apply Covered.mk
  · intro hm hrx
    left
    change s.rx ≠ [] at hrx
    simp only [Option.any_some] at hm
    simp [Sock.arm, hm, hrx]
  · intro hm hpos
    left
    change 0 < s.space at hpos
    simp only [Option.any_some] at hm
    simp [Sock.arm, hm, hpos]
  · intro _ hhup
    left
    change s.hup = true at hhup
    simp [Sock.arm, hhup]

/-- What has been reported is in flight. -/
theorem report (h : Covered m s input output error) (f : Flags) :
    Covered m (s.report f) (input ∨ f.input = true) (output ∨ f.output = true)
      (error ∨ f.error = true) := by
  apply Covered.mk
  · intro hm hrx
    cases hf : f.input with
    | true => exact Or.inr (Or.inr rfl)
    | false => exact (h.input hm hrx).imp (by simp [Sock.report, hf]) Or.inl
  · intro hm hpos
    cases hf : f.output with
    | true => exact Or.inr (Or.inr rfl)
    | false => exact (h.output hm hpos).imp (by simp [Sock.report, hf]) Or.inl
  · intro hm hhup
    cases hf : f.error with
    | true => exact Or.inr (Or.inr rfl)
    | false => exact (h.error hm hhup).imp (by simp [Sock.report, hf]) Or.inl

/-- When there is nothing left to read, nothing has to be in flight for it. -/
theorem of_empty (hrx : s.rx = []) : Covered m s False True True :=
  ⟨fun _ hne => absurd hrx hne, fun _ _ => Or.inr trivial, fun _ _ => Or.inr trivial⟩

/-- Nor when there is no room, or room is not asked for. -/
theorem of_full (hspace : m.any Mask.output = true → s.space = 0) :
    Covered m s True False True := by
  refine ⟨fun _ _ => Or.inr trivial, ?_, fun _ _ => Or.inr trivial⟩
  intro hm hpos
  rw [hspace hm] at hpos
  exact absurd hpos (Nat.lt_irrefl 0)

end Covered

end VncProxy.Lib
