/-
  VncProxy.Proxy.Play

  Runs on a network that can be executed.  A socket answers a call if it is one
  that it can give, `settle` takes the sockets through the events of a section,
  and `play` is one move of the proxy, or bytes that arrive.  Whatever can be
  played is a run (`NetRun.of_plays`).
-/
import VncProxy.Proxy.Net

namespace VncProxy.Proxy

open Lib (Sock Mask Flags)
open Polling

-- ============================================================================
-- Calls and sections
-- ============================================================================

/-- Whether the call is one that the socket can answer so. -/
def Answers (s : Sock Byte) : FdCall → Prop
  | .read len got =>
    got.getD [] <+: s.rx ∧ (0 < len → (FdCall.read len got).ret ≤ 0 → s.rx = [])
  | .write buf r => (buf.take r.toNat).length ≤ s.space ∧ (buf ≠ [] → r ≤ 0 → s.space = 0)

instance (s : Sock Byte) : ∀ c, Decidable (Answers s c)
  | .read _ _ | .write _ _ => inferInstanceAs (Decidable (_ ∧ _))

/-- The socket after a call. -/
def answered (s : Sock Byte) (c : FdCall) : Sock Byte :=
  { s with rx := s.rx.drop c.bytesRead.length, space := s.space - c.bytesWritten.length }

section Calls

variable {s : Sock Byte} {c : FdCall} {mask mask' : Nat → Option Mask} {n n' : Net}
  {evs : List Event}

theorem Answers.callOn (h : Answers s c) : CallOn c s (answered s c) := by
  cases c with
  | read len got =>
    obtain ⟨hfront, hempty⟩ := h
    refine ⟨(List.prefix_iff_eq_append.mp hfront).symm, rfl, rfl, rfl, ?_, by simp⟩
    intro len' got' heq
    obtain ⟨rfl, rfl⟩ := FdCall.read.inj heq
    exact hempty
  | write buf r =>
    obtain ⟨hroom, hfull⟩ := h
    refine ⟨rfl, Nat.sub_add_cancel hroom, rfl, rfl, by simp, ?_⟩
    intro buf' r' heq
    obtain ⟨rfl, rfl⟩ := FdCall.write.inj heq
    exact hfull

/-- The sockets after the events of a section, with nothing from outside in
    between. -/
def settle (mask' : Nat → Option Mask) : List Event → Net → Option Net
  | [], n => some n
  | .call _ fd c :: evs, n =>
    if Answers (n fd) c then settle mask' evs (Function.update n fd (answered (n fd) c)) else none
  | [.ctl _ fd], n => some (Function.update n fd ((mask' fd).elim (n fd) fun m => (n fd).arm m))
  | [.close _ _], n => some n
  | [.shutdown _], n => some n
  | _, _ => none

theorem settle_after (h : settle mask' evs n = some n') : After mask mask' n evs n' := by
  induction evs generalizing n with
  | nil => exact Option.some.inj h ▸ After.done n
  | cons ev evs ih =>
    cases ev with
    | call e fd c =>
      simp only [settle] at h
      split at h
      · rename_i hanswers
        exact After.call hanswers.callOn (ih h)
      · cases h
    | ctl op fd =>
      cases evs with
      | nil => exact Option.some.inj h ▸ After.ctl n op fd
      | cons => cases h
    | close e fd =>
      cases evs with
      | nil =>
        have hsame : After mask mask' n [.close e fd] (Function.update n fd (n fd)) :=
          After.close n e fd (n fd)
        rw [Function.update_eq_self] at hsame
        exact Option.some.inj h ▸ hsame
      | cons => cases h
    | shutdown e =>
      cases evs with
      | nil => exact Option.some.inj h ▸ After.shutdown n e
      | cons => cases h

end Calls

-- ============================================================================
-- Runs
-- ============================================================================

inductive Play
  /-- a move of the proxy -/
  | act (a : Act)
  /-- bytes arrive on a descriptor -/
  | arrive (fd : Nat) (bs : List Byte)

section Play

variable {allowed : Config → Act → Prop} [∀ c a, Decidable (allowed c a)]

/-- The sockets after a move of the proxy. -/
def effect (a : Act) (c c' : Config) (n : Net) : Option Net :=
  match a with
  | .exec _ _ =>
    if c.world.trace <+: c'.world.trace then
      settle c'.world.mask (c'.world.trace.drop c.world.trace.length) n
    else none
  | .wait batch => some (n.report batch)
  | .tieFd _ _ _ | .cleanup _ | .grab _ | .giveBack _ => some n

theorem effect_spec {a : Act} {c c' : Config} {n n' : Net} (h : effect a c c' n = some n') :
    n.Effect a c c' n' := by
  cases a with
  | exec t o =>
    simp only [effect] at h
    split at h
    · rename_i hfront
      exact ⟨_, List.prefix_iff_eq_append.mp hfront |>.symm, settle_after h⟩
    · cases h
  | grab fd =>
    intro m _
    exact congrFun (Option.some.inj h).symm m
  | _ => exact (Option.some.inj h).symm

variable (allowed) in
def play (p : Play) (s : Config × Net) : Option (Config × Net) :=
  match p with
  | .act a =>
    if allowed s.1 a then do
      let c' ← step a s.1
      return (c', ← effect a s.1 c' s.2)
    else none
  | .arrive fd bs =>
    if (s.2 fd).hup then none
    else some (s.1, Function.update s.2 fd ((s.2 fd).arrive (s.1.world.mask fd) bs))

theorem play_move {p : Play} {s s' : Config × Net} (h : play allowed p s = some s') :
    NetMove allowed s s' := by
  obtain ⟨c, n⟩ := s
  cases p with
  | act a =>
    simp only [play] at h
    split at h
    · rename_i hallowed
      simp only [Option.bind_eq_bind, Option.bind_eq_some_iff, Option.pure_def,
        Option.some.injEq] at h
      obtain ⟨c', hstep, n', heffect, rfl⟩ := h
      exact NetMove.proxy a hallowed hstep (effect_spec heffect)
    · cases h
  | arrive fd bs =>
    simp only [play] at h
    split at h
    · cases h
    · rename_i hhup
      obtain rfl := Option.some.inj h
      apply NetMove.env
      intro m
      by_cases hm : m = fd
      · subst hm
        rw [Function.update_self]
        exact Sock.Env.of_arrive _ (Bool.not_eq_true _ ▸ hhup)
      · rw [Function.update_of_ne hm]
        exact Sock.Env.refl _ _

theorem NetRun.of_plays {ps : List Play} {n : Net} {s : Config × Net}
    (h : Lib.runActs (play allowed) ps (Config.start, n) = some s) : NetRun allowed s :=
  Lib.Reach.of_runActs (fun _ _ _ _ hp => play_move hp) (Lib.Reach.start rfl) h

end Play

end VncProxy.Proxy
