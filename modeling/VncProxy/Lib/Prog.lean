/-
  VncProxy.Lib.Prog

  Programs that call the world around them.  A program is done, or it makes a
  call and goes on with the answer, whatever that is.  `Goes p log q` says that
  `p` can make the calls of `log`, be given the answers there, and have `q` left.

  A `Contract` says over a state of its own what a program owes at each call and
  what it may count on in the answer.  `wp` is the weakest precondition of a
  program under a contract; it is computed call by call, so that a straight-line
  program is proved by rewriting, and `wp_goes` carries it over to the calls that
  a program has really made.
-/
import Mathlib.Data.List.Basic

namespace VncProxy.Lib

inductive Prog (Op : Type) (Ans : Op → Type) (α : Type) where
  | done (a : α)
  | call (op : Op) (next : Ans op → Prog Op Ans α)

/-- A call and its answer. -/
structure Exchange (Op : Type) (Ans : Op → Type) where
  op : Op
  ans : Ans op

/-- What a program owes when it makes a call and what it may count on when the
    answer comes, with the state that both speak of. -/
structure Contract (Op : Type) (Ans : Op → Type) (S : Type _) where
  next : S → (op : Op) → Ans op → S
  owes : S → Op → Prop
  grants : S → (op : Op) → Ans op → Prop

section Prog

variable {Op : Type} {Ans : Op → Type} {α β γ : Type} {S : Type _}

namespace Prog

def bind : Prog Op Ans α → (α → Prog Op Ans β) → Prog Op Ans β
  | .done a, f => f a
  | .call op next, f => .call op fun a => (next a).bind f

instance : Monad (Prog Op Ans) where
  pure := .done
  bind := bind

theorem bind_assoc (p : Prog Op Ans α) (f : α → Prog Op Ans β) (g : β → Prog Op Ans γ) :
    (p.bind f).bind g = p.bind fun a => (f a).bind g := by
  induction p with
  | done a => rfl
  | call op next ih =>
    show call op (fun a => ((next a).bind f).bind g) = _
    simp only [ih]
    rfl

theorem bind_done (p : Prog Op Ans α) : p.bind done = p := by
  induction p with
  | done a => rfl
  | call op next ih =>
    show call op (fun a => (next a).bind done) = _
    simp only [ih]

instance : LawfulMonad (Prog Op Ans) :=
  LawfulMonad.mk' _ bind_done (fun _ _ => rfl) bind_assoc

/-- Make one call. -/
def perform (op : Op) : Prog Op Ans (Ans op) := .call op .done

inductive Goes : Prog Op Ans α → List (Exchange Op Ans) → Prog Op Ans α → Prop
  | refl (p : Prog Op Ans α) : Goes p [] p
  | call {op : Op} {next : Ans op → Prog Op Ans α} {a : Ans op} {log : List (Exchange Op Ans)}
      {q : Prog Op Ans α} : Goes (next a) log q → Goes (.call op next) (⟨op, a⟩ :: log) q

theorem Goes.snoc {p : Prog Op Ans α} {log : List (Exchange Op Ans)} {op : Op}
    {next : Ans op → Prog Op Ans α} (h : Goes p log (.call op next)) (a : Ans op) :
    Goes p (log ++ [⟨op, a⟩]) (next a) := by
  generalize hq : Prog.call op next = q at h
  induction h with
  | refl p =>
    subst hq
    exact Goes.call (Goes.refl _)
  | call _ ih => exact Goes.call (ih hq)

/-- A run of a sequence is still in the first part, or through with it. -/
theorem Goes.bind_cases {p : Prog Op Ans α} {f : α → Prog Op Ans β} {log : List (Exchange Op Ans)}
    {q : Prog Op Ans β} (h : Goes (p >>= f) log q) :
    (∃ op next, Goes p log (.call op next) ∧ q = .call op next >>= f) ∨
      ∃ pre post a, log = pre ++ post ∧ Goes p pre (.done a) ∧ Goes (f a) post q := by
  induction p generalizing log with
  | done a => exact Or.inr ⟨[], log, a, rfl, Goes.refl _, h⟩
  | call op next ih =>
    change Goes (.call op fun a => next a >>= f) log q at h
    cases h with
    | refl => exact Or.inl ⟨op, next, Goes.refl _, rfl⟩
    | call h =>
      rcases ih _ h with ⟨op', next', hp, rfl⟩ | ⟨pre, post, b, rfl, hp, hq⟩
      · exact Or.inl ⟨op', next', hp.call, rfl⟩
      · exact Or.inr ⟨_, post, b, rfl, hp.call, hq⟩

/-- What is left of a sequence when the first part is through. -/
theorem Goes.bind_done {p : Prog Op Ans α} {f : α → Prog Op Ans β}
    {pre post : List (Exchange Op Ans)} {a : α} {q : Prog Op Ans β} (hp : Goes p pre (.done a))
    (h : Goes (p >>= f) (pre ++ post) q) : Goes (f a) post q := by
  generalize hdone : Prog.done a = r at hp
  induction hp with
  | refl p =>
    subst hdone
    exact h
  | call _ ih =>
    change Goes (.call _ fun a => _ >>= f) _ q at h
    cases h with
    | call h => exact ih h hdone

/-- A sequence goes on when the first part is through. -/
theorem Goes.bind {p : Prog Op Ans α} {f : α → Prog Op Ans β} {pre post : List (Exchange Op Ans)}
    {a : α} {q : Prog Op Ans β} (hp : Goes p pre (.done a)) (h : Goes (f a) post q) :
    Goes (p >>= f) (pre ++ post) q := by
  generalize hdone : Prog.done a = r at hp
  induction hp with
  | refl p =>
    subst hdone
    exact h
  | call _ ih => exact (ih hdone).call

/-- What a log leaves of a program, if the program can have made it. -/
def follow [DecidableEq Op] : Prog Op Ans α → List (Exchange Op Ans) → Option (Prog Op Ans α)
  | p, [] => some p
  | .done _, _ :: _ => none
  | .call op next, x :: log => if h : x.op = op then (next (h ▸ x.ans)).follow log else none

theorem follow_nil [DecidableEq Op] (p : Prog Op Ans α) : p.follow [] = some p := by
  cases p <;> rfl

theorem follow_eq_some [DecidableEq Op] {p q : Prog Op Ans α} {log : List (Exchange Op Ans)} :
    p.follow log = some q ↔ Goes p log q := by
  constructor
  · intro h
    induction log generalizing p with
    | nil =>
      rw [follow_nil] at h
      exact Option.some.inj h ▸ Goes.refl p
    | cons x log ih =>
      cases p with
      | done a => cases h
      | call op next =>
        obtain ⟨op', a⟩ := x
        unfold follow at h
        split at h
        · rename_i hop
          subst hop
          exact (ih h).call
        · cases h
  · intro h
    induction h with
    | refl p => exact follow_nil p
    | call _ ih =>
      unfold follow
      rw [dif_pos rfl]
      exact ih

/-- The result of a program that is done. -/
def result? : Prog Op Ans α → Option α
  | .done a => some a
  | .call _ _ => none

/-- A log that leads to a result. -/
theorem goes_of_result [DecidableEq Op] {p : Prog Op Ans α} {log : List (Exchange Op Ans)} {a : α}
    (h : (p.follow log).bind result? = some a) : Goes p log (.done a) := by
  obtain ⟨q, hq, ha⟩ := Option.bind_eq_some_iff.mp h
  cases q with
  | done b =>
    obtain rfl := Option.some.inj ha
    exact follow_eq_some.mp hq
  | call op next => cases ha

/-- The call that a program is about to make. -/
def head? : Prog Op Ans α → Option Op
  | .done _ => none
  | .call op _ => some op

/-- A log that leads to a call. -/
theorem goes_of_head [DecidableEq Op] {p : Prog Op Ans α} {log : List (Exchange Op Ans)} {op : Op}
    (h : (p.follow log).bind head? = some op) : ∃ next, Goes p log (.call op next) := by
  obtain ⟨q, hq, hop⟩ := Option.bind_eq_some_iff.mp h
  cases q with
  | done a => cases hop
  | call op' next =>
    obtain rfl := Option.some.inj hop
    exact ⟨next, follow_eq_some.mp hq⟩

/-- The weakest precondition for the result to satisfy `Q`. -/
def wp (k : Contract Op Ans S) : Prog Op Ans α → (S → α → Prop) → S → Prop
  | .done a, Q, s => Q s a
  | .call op next, Q, s =>
    k.owes s op ∧ ∀ a, k.grants s op a → (next a).wp k Q (k.next s op a)

end Prog

namespace Contract

/-- The state after the calls of a log. -/
def track (k : Contract Op Ans S) (s : S) (log : List (Exchange Op Ans)) : S :=
  log.foldl (fun s x => k.next s x.op x.ans) s

/-- Every answer of the log is one that the contract grants. -/
def Kept (k : Contract Op Ans S) : S → List (Exchange Op Ans) → Prop
  | _, [] => True
  | s, x :: log => k.grants s x.op x.ans ∧ k.Kept (k.next s x.op x.ans) log

/-- The contract that grants `extra` on top. -/
def also (k : Contract Op Ans S) (extra : Exchange Op Ans → Prop) : Contract Op Ans S :=
  { k with grants := fun s op a => k.grants s op a ∧ extra ⟨op, a⟩ }

variable {k : Contract Op Ans S} {s : S} {log : List (Exchange Op Ans)}

@[simp] theorem track_nil : k.track s [] = s := rfl

theorem track_snoc (x : Exchange Op Ans) :
    k.track s (log ++ [x]) = k.next (k.track s log) x.op x.ans := by
  simp [track]

theorem track_append (log' : List (Exchange Op Ans)) :
    k.track s (log ++ log') = k.track (k.track s log) log' := by
  simp [track]

theorem kept_append {log' : List (Exchange Op Ans)} :
    k.Kept s (log ++ log') ↔ k.Kept s log ∧ k.Kept (k.track s log) log' := by
  induction log generalizing s with
  | nil => simp [Kept]
  | cons x log ih =>
    rw [List.cons_append, Kept, Kept, ih, and_assoc]
    rfl

theorem kept_snoc (x : Exchange Op Ans) :
    k.Kept s (log ++ [x]) ↔ k.Kept s log ∧ k.grants (k.track s log) x.op x.ans := by
  rw [kept_append]
  simp [Kept]

/-- A log is kept when what it answers does not depend on the state. -/
theorem kept_of_forall {ok : Exchange Op Ans → Prop}
    (hgrants : ∀ s x, ok x → k.grants s x.op x.ans) (h : ∀ x ∈ log, ok x) : k.Kept s log := by
  induction log generalizing s with
  | nil => trivial
  | cons x log ih =>
    obtain ⟨hx, hlog⟩ := List.forall_mem_cons.mp h
    exact ⟨hgrants s x hx, ih hlog⟩

/-- A contract that grants everything is always kept. -/
theorem kept_of_grants (h : ∀ s op a, k.grants s op a) : k.Kept s log := by
  induction log generalizing s with
  | nil => trivial
  | cons x log ih => exact ⟨h s x.op x.ans, ih⟩

theorem Kept.also {extra : Exchange Op Ans → Prop} (h : k.Kept s log)
    (hextra : ∀ x ∈ log, extra x) : (k.also extra).Kept s log := by
  induction log generalizing s with
  | nil => exact h
  | cons x log ih =>
    exact ⟨⟨h.1, hextra x List.mem_cons_self⟩,
      ih h.2 fun y hy => hextra y (List.mem_cons_of_mem _ hy)⟩

/-- A contract that grants as much, over a state that has more to it. -/
theorem Kept.map {S' : Type _} {k' : Contract Op Ans S'} (f : S' → S)
    (hnext : ∀ s op a, f (k'.next s op a) = k.next (f s) op a)
    (hgrants : ∀ s op a, k.grants (f s) op a → k'.grants s op a) {s' : S'}
    (h : k.Kept (f s') log) : k'.Kept s' log := by
  induction log generalizing s' with
  | nil => exact h
  | cons x log ih =>
    refine ⟨hgrants _ _ _ h.1, ih ?_⟩
    rw [hnext]
    exact h.2

end Contract

namespace Prog

variable {k : Contract Op Ans S} {s : S} {p : Prog Op Ans α} {Q : S → α → Prop}

@[simp] theorem wp_pure (a : α) : (pure a : Prog Op Ans α).wp k Q s ↔ Q s a := Iff.rfl

@[simp] theorem wp_perform (op : Op) {Q : S → Ans op → Prop} :
    (perform op).wp k Q s ↔ k.owes s op ∧ ∀ a, k.grants s op a → Q (k.next s op a) a := Iff.rfl

@[simp] theorem wp_bind (f : α → Prog Op Ans β) {Q : S → β → Prop} :
    (p >>= f).wp k Q s ↔ p.wp k (fun s a => (f a).wp k Q s) s := by
  induction p generalizing s with
  | done a => rfl
  | call op next ih =>
    show (k.owes s op ∧ ∀ a, k.grants s op a → (next a >>= f).wp k Q (k.next s op a)) ↔ _
    simp only [ih]
    rfl

@[simp] theorem wp_map (f : α → β) {Q : S → β → Prop} :
    (f <$> p).wp k Q s ↔ p.wp k (fun s a => Q s (f a)) s := by
  rw [map_eq_pure_bind, wp_bind]
  rfl

@[simp] theorem wp_ite {c : Prop} [Decidable c] (q : Prog Op Ans α) :
    (if c then p else q).wp k Q s ↔ (c → p.wp k Q s) ∧ (¬ c → q.wp k Q s) := by
  by_cases h : c <;> simp [h]

theorem wp_mono {Q' : S → α → Prop} (h : p.wp k Q s) (hQ : ∀ s a, Q s a → Q' s a) :
    p.wp k Q' s := by
  induction p generalizing s with
  | done a => exact hQ s a h
  | call op next ih => exact ⟨h.1, fun a ha => ih a (h.2 a ha)⟩

theorem wp_congr {Q' : S → α → Prop} (hQ : ∀ s a, Q s a ↔ Q' s a) : p.wp k Q s ↔ p.wp k Q' s := by
  apply Iff.intro
  · intro h
    exact wp_mono h fun s a => (hQ s a).mp
  · intro h
    exact wp_mono h fun s a => (hQ s a).mpr

/-- A loop over a list keeps what its body keeps, `I` of the part that is behind. -/
theorem wp_foldlM {f : β → γ → Prog Op Ans β} {I : List γ → S → β → Prop} (xs : List γ)
    (hbody : ∀ pre x post s b, xs = pre ++ x :: post → I pre s b →
      (f b x).wp k (I (pre ++ [x])) s) :
    ∀ s b, I [] s b → (xs.foldlM f b).wp k (I xs) s := by
  have hloop : ∀ post pre s b, xs = pre ++ post → I pre s b →
      (post.foldlM f b).wp k (I xs) s := by
    intro post
    induction post with
    | nil =>
      rintro pre s b rfl h
      simpa using h
    | cons x post ih =>
      intro pre s b hxs h
      rw [List.foldlM_cons, wp_bind]
      apply wp_mono (hbody pre x post s b hxs h)
      intro s' b' h'
      exact ih (pre ++ [x]) s' b' (by rw [hxs, List.append_assoc]; rfl) h'
  intro s b h
  exact hloop xs [] s b rfl h

/-- Where a program has got to, its weakest precondition still holds. -/
theorem wp_goes {q : Prog Op Ans α} {log : List (Exchange Op Ans)} (hgoes : Goes p log q)
    (hkept : k.Kept s log) (h : p.wp k Q s) : q.wp k Q (k.track s log) := by
  induction hgoes generalizing s with
  | refl p => exact h
  | call _ ih => exact ih hkept.2 (h.2 _ hkept.1)

/-- The weakest precondition speaks of all the places that the program can get to,
    and of nothing else. -/
theorem wp_iff_goes : p.wp k Q s ↔ ∀ log q, Goes p log q → k.Kept s log →
    (∀ op next, q = .call op next → k.owes (k.track s log) op) ∧
      ∀ a, q = .done a → Q (k.track s log) a := by
  apply Iff.intro
  · intro h log q hgoes hkept
    have hq := wp_goes hgoes hkept h
    refine ⟨?_, ?_⟩
    · rintro op next rfl
      exact hq.1
    · rintro a rfl
      exact hq
  · intro h
    induction p generalizing s with
    | done a => exact (h [] _ (Goes.refl _) trivial).2 a rfl
    | call op next ih =>
      refine ⟨(h [] _ (Goes.refl _) trivial).1 op next rfl, ?_⟩
      intro a ha
      apply ih
      intro log q hgoes hkept
      exact h (⟨op, a⟩ :: log) q hgoes.call ⟨ha, hkept⟩

/-- Every call that has been made was owed when it was made. -/
theorem owes_of_goes {q : Prog Op Ans α} {log : List (Exchange Op Ans)} (hgoes : Goes p log q)
    (hkept : k.Kept s log) (h : p.wp k Q s) {pre post : List (Exchange Op Ans)}
    {x : Exchange Op Ans} (hlog : log = pre ++ x :: post) : k.owes (k.track s pre) x.op := by
  induction hgoes generalizing s pre with
  | refl => simp at hlog
  | call _ ih =>
    cases pre with
    | nil =>
      obtain ⟨rfl, -⟩ := List.cons.inj hlog
      exact h.1
    | cons y pre =>
      obtain ⟨rfl, hrest⟩ := List.cons.inj hlog
      exact ih hkept.2 (h.2 _ hkept.1) hrest

end Prog

end Prog

end VncProxy.Lib
