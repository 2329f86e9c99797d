/-
  VncProxy.Lib.Verify

  Programs with run-time checks, as computations in `Option`: `none` is the
  abort a failed check causes, `some a` is a normal result.  `verify p` is the
  check itself.  The lemmas say how a check behaves at the head of a sequence,
  forwards (the check holds, so it can be dropped) and backwards (the sequence
  produced a result, so the check held).
-/
import Mathlib.Data.Option.Basic

namespace VncProxy.Lib

/-- A run-time check: continue if `p` holds, abort otherwise. -/
def verify (p : Prop) [Decidable p] : Option Unit :=
  if p then some () else none

variable {α : Type _}

@[simp] theorem verify_eq_some {p : Prop} [Decidable p] {u : Unit} :
    verify p = some u ↔ p := by
  by_cases h : p <;> simp [verify, h]

/-- A check that holds drops out of a sequence. -/
theorem verify_bind {p : Prop} [Decidable p] (h : p) (k : Unit → Option α) :
    (verify p).bind k = k () := by
  rw [verify, if_pos h, Option.bind_some]

/-- A check that fails aborts the whole sequence. -/
theorem verify_bind_none {p : Prop} [Decidable p] (h : ¬ p) (k : Unit → Option α) :
    (verify p).bind k = none := by
  rw [verify, if_neg h, Option.bind_none]

/-- A checked sequence has a result exactly if the check holds and the rest of
    the sequence has that result. -/
@[simp] theorem verify_bind_eq_some {p : Prop} [Decidable p] {k : Unit → Option α} {a : α} :
    (verify p).bind k = some a ↔ p ∧ k () = some a := by
  by_cases h : p
  · rw [verify_bind h, and_iff_right h]
  · rw [verify_bind_none h]
    simp [h]

end VncProxy.Lib
