/-
  VncProxy.Lib.Reach

  Runs of a transition system.  `Reach init next s` says that some run from an
  initial state ends in `s`; an invariant is what every initial state has and
  every step keeps.  `runActs` executes a list of actions of a system whose step
  is a partial function, which is how a concrete run is exhibited.
-/
import Mathlib.Logic.Relation

namespace VncProxy.Lib

section Reach

variable {S : Type _} {init : S → Prop} {next : S → S → Prop}

/-- `s` is the last state of a run. -/
def Reach (init : S → Prop) (next : S → S → Prop) (s : S) : Prop :=
  ∃ s₀, init s₀ ∧ Relation.ReflTransGen next s₀ s

namespace Reach

theorem start {s : S} (h : init s) : Reach init next s :=
  ⟨s, h, Relation.ReflTransGen.refl⟩

theorem step {s s' : S} (h : Reach init next s) (hs : next s s') : Reach init next s' := by
  obtain ⟨s₀, h₀, hrun⟩ := h
  exact ⟨s₀, h₀, hrun.tail hs⟩

/-- More steps allow more runs. -/
theorem mono {next' : S → S → Prop} {s : S} (h : Reach init next s)
    (hnext : ∀ s s', next s s' → next' s s') : Reach init next' s := by
  obtain ⟨s₀, h₀, hrun⟩ := h
  refine ⟨s₀, h₀, ?_⟩
  induction hrun with
  | refl => exact Relation.ReflTransGen.refl
  | tail _ hlast ih => exact ih.tail (hnext _ _ hlast)

/-- The invariant rule.  A step may use that it starts in a reachable state. -/
theorem invariant {I : S → Prop} (h₀ : ∀ s, init s → I s)
    (hstep : ∀ s s', Reach init next s → I s → next s s' → I s') {s : S}
    (h : Reach init next s) : I s := by
  obtain ⟨s₀, hinit, hrun⟩ := h
  induction hrun with
  | refl => exact h₀ s₀ hinit
  | tail hpre hlast ih => exact hstep _ _ ⟨s₀, hinit, hpre⟩ ih hlast

end Reach

end Reach

section Run

variable {S A : Type _} {step : A → S → Option S}

/-- The actions one after the other; `none` as soon as one of them is not
    possible. -/
def runActs (step : A → S → Option S) : List A → S → Option S
  | [], s => some s
  | a :: as, s => (step a s).bind (runActs step as)

/-- A run that is executed is a run. -/
theorem Reach.of_runActs {init : S → Prop} {next : S → S → Prop} {as : List A} {s s' : S}
    (hnext : ∀ a ∈ as, ∀ t t', step a t = some t' → next t t') (h : Reach init next s)
    (hrun : runActs step as s = some s') : Reach init next s' := by
  induction as generalizing s with
  | nil =>
    rw [runActs, Option.some.injEq] at hrun
    exact hrun ▸ h
  | cons a as ih =>
    obtain ⟨t, ht, hrest⟩ := Option.bind_eq_some_iff.mp hrun
    exact ih (fun b hb => hnext b (List.mem_cons_of_mem _ hb))
      (h.step (hnext a List.mem_cons_self s t ht)) hrest

/-- The last state of the actions, or `d` if they do not go through. -/
def lastState (step : A → S → Option S) (as : List A) (d : S) : S :=
  (runActs step as d).getD d

theorem runActs_eq_lastState {as : List A} {d : S} (h : (runActs step as d).isSome) :
    runActs step as d = some (lastState step as d) := by
  obtain ⟨s, hs⟩ := Option.isSome_iff_exists.mp h
  rw [lastState, hs, Option.getD_some]

end Run

end VncProxy.Lib
