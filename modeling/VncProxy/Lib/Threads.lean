/-
  VncProxy.Lib.Threads

  Threads over one shared state.  Each thread has the list of the atomic
  sections it still has to run; running the first of them changes the shared
  state and may put further sections in front of the rest (a call, a branch).
  A section that fails a check stops the whole program, and `crashed` remembers
  which section that was.
-/
import Mathlib.Logic.Function.Basic

namespace VncProxy.Lib

structure Threads (T I W : Type _) where
  world : W
  code : T → List I
  crashed : Option I

namespace Threads

variable {T I W : Type _} [DecidableEq T]

/-- Give thread `t` new code. -/
def load (c : Threads T I W) (t : T) (is : List I) : Threads T I W :=
  { c with code := Function.update c.code t is }

/-- Thread `t` runs its next section. -/
def run (exec : W → I → Option (W × List I)) (t : T) (c : Threads T I W) :
    Option (Threads T I W) :=
  match c.crashed, c.code t with
  | none, i :: rest =>
    match exec c.world i with
    | some (w, pre) => some { c.load t (pre ++ rest) with world := w }
    | none => some { c with crashed := some i }
  | _, _ => none

variable {exec : W → I → Option (W × List I)} {t u : T} {c c' : Threads T I W}

@[simp] theorem load_world (is : List I) : (c.load t is).world = c.world := rfl

@[simp] theorem load_crashed (is : List I) : (c.load t is).crashed = c.crashed := rfl

@[simp] theorem load_code_self (is : List I) : (c.load t is).code t = is := by
  simp [load]

theorem load_code_of_ne (is : List I) (h : u ≠ t) : (c.load t is).code u = c.code u := by
  simp [load, h]

theorem mem_load {is : List I} {j : I} (h : j ∈ (c.load t is).code u) :
    j ∈ is ∨ j ∈ c.code u := by
  by_cases hu : u = t
  · subst hu
    exact Or.inl (by simpa using h)
  · exact Or.inr (by rwa [load_code_of_ne is hu] at h)

/-- What one step of a thread can do: its first section fails, or it succeeds
    and is replaced by what it leads to. -/
theorem run_cases (h : run exec t c = some c') :
    ∃ i rest, c.crashed = none ∧ c.code t = i :: rest ∧
      ((exec c.world i = none ∧ c' = { c with crashed := some i }) ∨
        ∃ w pre, exec c.world i = some (w, pre) ∧
          c' = { c.load t (pre ++ rest) with world := w }) := by
  unfold run at h
  split at h
  · rename_i i rest hcrash hcode
    refine ⟨i, rest, hcrash, hcode, ?_⟩
    split at h
    · rename_i w pre hexec
      exact Or.inr ⟨w, pre, hexec, (Option.some.inj h).symm⟩
    · rename_i hexec
      exact Or.inl ⟨hexec, (Option.some.inj h).symm⟩
  · cases h

/-- A thread that has code left in a program that has not crashed can run. -/
theorem run_eq_some {i : I} {rest pre : List I} {w : W} (hcrash : c.crashed = none)
    (hcode : c.code t = i :: rest) (hexec : exec c.world i = some (w, pre)) :
    run exec t c = some { c.load t (pre ++ rest) with world := w } := by
  simp only [run, hcrash, hcode, hexec]

end Threads

section Completes

variable {O I W : Type _} {exec : O → W → I → Option (W × List I)} {is js : List I} {w w' : W}

/-- The sections of a list, with what they lead to, run to the end without a break. -/
inductive Completes (exec : O → W → I → Option (W × List I)) : List I → W → W → Prop
  | nil (w : W) : Completes exec [] w w
  | cons {o : O} {i : I} {rest pre : List I} {w w₁ w' : W} : exec o w i = some (w₁, pre) →
      Completes exec (pre ++ rest) w₁ w' → Completes exec (i :: rest) w w'

@[simp] theorem completes_nil : Completes exec [] w w' ↔ w' = w := by
  constructor
  · intro h
    cases h
    rfl
  · rintro rfl
    exact Completes.nil _

theorem completes_cons {i : I} : Completes exec (i :: js) w w' ↔
    ∃ o w₁ pre, exec o w i = some (w₁, pre) ∧ Completes exec (pre ++ js) w₁ w' := by
  constructor
  · intro h
    cases h with
    | cons hexec hrest => exact ⟨_, _, _, hexec, hrest⟩
  · rintro ⟨o, w₁, pre, hexec, hrest⟩
    exact Completes.cons hexec hrest

/-- A section that does one thing, whatever the world answers. -/
theorem completes_cons_iff [Nonempty O] {i : I} {ok : Prop} {w₀ : W} {pre₀ : List I}
    (h : ∀ o w₁ pre, exec o w i = some (w₁, pre) ↔ ok ∧ w₁ = w₀ ∧ pre = pre₀) :
    Completes exec (i :: js) w w' ↔ ok ∧ Completes exec (pre₀ ++ js) w₀ w' := by
  rw [completes_cons]
  constructor
  · rintro ⟨o, w₁, pre, hexec, hrest⟩
    obtain ⟨hok, rfl, rfl⟩ := (h o w₁ pre).mp hexec
    exact ⟨hok, hrest⟩
  · rintro ⟨hok, hrest⟩
    obtain ⟨o⟩ := ‹Nonempty O›
    exact ⟨o, w₀, pre₀, (h o w₀ pre₀).mpr ⟨hok, rfl, rfl⟩, hrest⟩

theorem completes_append : Completes exec (is ++ js) w w' ↔
    ∃ w₁, Completes exec is w w₁ ∧ Completes exec js w₁ w' := by
  constructor
  · intro h
    generalize hcode : is ++ js = code at h
    induction h generalizing is with
    | nil w =>
      obtain ⟨rfl, rfl⟩ := List.append_eq_nil_iff.mp hcode
      exact ⟨w, Completes.nil w, Completes.nil w⟩
    | cons hexec hrest ih =>
      cases is with
      | nil =>
        subst hcode
        exact ⟨_, Completes.nil _, Completes.cons hexec hrest⟩
      | cons i is =>
        obtain ⟨rfl, rfl⟩ := List.cons.inj hcode
        obtain ⟨w₁, hfirst, hsecond⟩ := ih (List.append_assoc _ _ _)
        exact ⟨w₁, Completes.cons hexec hfirst, hsecond⟩
  · rintro ⟨w₁, hfirst, hsecond⟩
    induction hfirst with
    | nil => exact hsecond
    | cons hexec _ ih =>
      have hrest := ih hsecond
      rw [List.append_assoc] at hrest
      exact Completes.cons hexec hrest

/-- The sections of a list run to the end, with the same answer of the world each time. -/
def complete (exec : O → W → I → Option (W × List I)) (o : O) : Nat → List I → W → Option W
  | _, [], w => some w
  | 0, _ :: _, _ => none
  | n + 1, i :: rest, w => (exec o w i).bind fun (w₁, pre) => complete exec o n (pre ++ rest) w₁

theorem Completes.of_complete {o : O} {n : Nat} (h : complete exec o n is w = some w') :
    Completes exec is w w' := by
  induction n generalizing is w with
  | zero =>
    cases is with
    | nil => exact Option.some.inj h ▸ Completes.nil w
    | cons i rest => cases h
  | succ n ih =>
    cases is with
    | nil => exact Option.some.inj h ▸ Completes.nil w
    | cons i rest =>
      obtain ⟨⟨w₁, pre⟩, hexec, hrest⟩ := Option.bind_eq_some_iff.mp h
      exact Completes.cons hexec (ih hrest)

/-- What each section keeps, by itself and with what it leads to, the list keeps. -/
theorem Completes.each {P : W → Prop}
    (his : ∀ i ∈ is, ∀ w w', P w → Completes exec [i] w w' → P w') (h : Completes exec is w w')
    (hw : P w) : P w' := by
  induction is generalizing w with
  | nil => exact completes_nil.mp h ▸ hw
  | cons i is ih =>
    obtain ⟨w₁, hfirst, hrest⟩ := completes_append.mp (show Completes exec ([i] ++ is) w w' from h)
    exact ih (fun j hj => his j (List.mem_cons_of_mem _ hj)) hrest
      (his i List.mem_cons_self w w₁ hw hfirst)

end Completes

end VncProxy.Lib
