/-
  VncProxy.Lib.Weight

  A measure of the sections that the threads of a program still have to run.
-/
import VncProxy.Lib.Threads
import Mathlib

namespace VncProxy.Lib.Threads

variable {T I W : Type _} [Fintype T]

/-- The sum of `f` over all sections of all threads. -/
def weight (f : I → Nat) (c : Threads T I W) : Nat := ∑ t, ((c.code t).map f).sum

variable {f : I → Nat} {c : Threads T I W}

theorem weight_eq_zero (h : ∀ t, c.code t = []) : c.weight f = 0 := by
  apply Finset.sum_eq_zero
  intro t _
  rw [h t, List.map_nil, List.sum_nil]

theorem le_weight {t : T} {i : I} (h : i ∈ c.code t) : f i ≤ c.weight f := by
  have hcode : f i ≤ ((c.code t).map f).sum :=
    List.single_le_sum (fun _ _ => Nat.zero_le _) _ (List.mem_map_of_mem h)
  exact hcode.trans (Finset.single_le_sum (f := fun t => ((c.code t).map f).sum)
    (fun _ _ => Nat.zero_le _) (Finset.mem_univ t))

/-- New code for one thread changes the measure by what it weighs more than the old. -/
theorem weight_load [DecidableEq T] (t : T) (is : List I) :
    (c.load t is).weight f + ((c.code t).map f).sum = c.weight f + (is.map f).sum := by
  have hnew : (c.load t is).weight f =
      (is.map f).sum + ∑ u ∈ Finset.univ.erase t, ((c.code u).map f).sum := by
    rw [weight, ← Finset.add_sum_erase _ _ (Finset.mem_univ t), load_code_self]
    congr 1
    apply Finset.sum_congr rfl
    intro u hu
    rw [load_code_of_ne is (Finset.ne_of_mem_erase hu)]
  have hold : c.weight f =
      ((c.code t).map f).sum + ∑ u ∈ Finset.univ.erase t, ((c.code u).map f).sum := by
    rw [weight, ← Finset.add_sum_erase _ _ (Finset.mem_univ t)]
  omega

end VncProxy.Lib.Threads
