/-
  VncProxy.Lib.Relate

  Two programs side by side, and one program under two contracts.

  `Agree` says that two programs make the same calls as long as they are given the
  same answers, and that their results are related.  `wp_sim` moves a weakest
  precondition from one contract to another, where the two do not differ on the
  calls that the program makes.
-/
import VncProxy.Lib.Prog

namespace VncProxy.Lib

section Relate

variable {Op : Type} {Ans : Op → Type} {α β γ δ : Type} {S S' : Type _}

namespace Prog

-- ============================================================================
-- One program under two contracts
-- ============================================================================

/-- The program makes no other calls. -/
def Only (ok : Op → Prop) (p : Prog Op Ans α) : Prop :=
  p.wp (S := Unit) ⟨fun _ _ _ => (), fun _ op => ok op, fun _ _ _ => True⟩ (fun _ _ => True) ()

theorem wp_sim {k : Contract Op Ans S} {k' : Contract Op Ans S'} {ok : Op → Prop}
    {I : S' → S → Prop} {p : Prog Op Ans α} (hp : p.Only ok)
    (howes : ∀ s' s op, I s' s → ok op → (k'.owes s' op ↔ k.owes s op))
    (hgrants : ∀ s' s op a, I s' s → ok op → (k'.grants s' op a ↔ k.grants s op a))
    (hnext : ∀ s' s op a, I s' s → ok op → I (k'.next s' op a) (k.next s op a))
    {Q : S → α → Prop} {Q' : S' → α → Prop}
    (hQ : ∀ s' s a, I s' s → (Q' s' a ↔ Q s a)) {s' : S'} {s : S} (hI : I s' s) :
    p.wp k' Q' s' ↔ p.wp k Q s := by
  induction p generalizing s' s with
  | done a => exact hQ s' s a hI
  | call op next ih =>
    obtain ⟨hok, hrest⟩ := hp
    apply and_congr (howes s' s op hI hok)
    apply forall_congr'
    intro a
    apply imp_congr (hgrants s' s op a hI hok)
    exact ih a (hrest a trivial) (hnext s' s op a hI hok)

-- ============================================================================
-- Two programs under one contract
-- ============================================================================

/-- The programs make the same calls, for the answers that are granted, and come to
    related results. -/
def Agree (k : Contract Op Ans S) (R : S → α → β → Prop) :
    Prog Op Ans α → Prog Op Ans β → S → Prop
  | .done a, q, s => ∃ b, q = .done b ∧ R s a b
  | .call op next, q, s => ∃ next', q = .call op next' ∧
      ∀ a, k.grants s op a → Agree k R (next a) (next' a) (k.next s op a)

section Agree

variable {k : Contract Op Ans S} {R : S → α → β → Prop} {s : S}

theorem Agree.done {a : α} {b : β} (h : R s a b) :
    Agree k R (pure a : Prog Op Ans α) (pure b) s := ⟨b, rfl, h⟩

/-- The same call, and then the rest. -/
theorem Agree.call {op : Op} {f : Ans op → Prog Op Ans α} {g : Ans op → Prog Op Ans β}
    (h : ∀ a, k.grants s op a → Agree k R (f a) (g a) (k.next s op a)) :
    Agree k R (Prog.perform op >>= f) (Prog.perform op >>= g) s := ⟨_, rfl, h⟩

/-- A program agrees with itself. -/
theorem Agree.self {R : S → α → α → Prop} {p : Prog Op Ans α}
    (h : p.wp k (fun s a => R s a a) s) : Agree k R p p s := by
  induction p generalizing s with
  | done a => exact Agree.done h
  | call op next ih => exact ⟨next, rfl, fun a ha => ih a (h.2 a ha)⟩

theorem Agree.refl {R : S → α → α → Prop} (h : ∀ s a, R s a a) (p : Prog Op Ans α) :
    Agree k R p p s := by
  induction p generalizing s with
  | done a => exact Agree.done (h s a)
  | call op next ih => exact ⟨next, rfl, fun a _ => ih a⟩

theorem Agree.bind {R' : S → γ → δ → Prop} {p : Prog Op Ans α} {q : Prog Op Ans β}
    {f : α → Prog Op Ans γ} {g : β → Prog Op Ans δ} (h : Agree k R p q s)
    (hfg : ∀ s a b, R s a b → Agree k R' (f a) (g b) s) :
    Agree k R' (p >>= f) (q >>= g) s := by
  induction p generalizing q s with
  | done a =>
    obtain ⟨b, rfl, hb⟩ := h
    exact hfg s a b hb
  | call op next ih =>
    obtain ⟨next', rfl, hnext⟩ := h
    exact ⟨_, rfl, fun a ha => ih a (hnext a ha)⟩

/-- What the one can do under the contract, the other can do as well. -/
theorem Agree.goes {p p' : Prog Op Ans α} {q : Prog Op Ans β} {log : List (Exchange Op Ans)}
    (h : Agree k R p q s) (hgoes : Goes p log p') (hkept : k.Kept s log) :
    ∃ q', Goes q log q' ∧ Agree k R p' q' (k.track s log) := by
  induction hgoes generalizing q s with
  | refl p => exact ⟨q, Goes.refl q, h⟩
  | call _ ih =>
    obtain ⟨next', rfl, hnext⟩ := h
    obtain ⟨q', hq', hagree⟩ := ih (hnext _ hkept.1) hkept.2
    exact ⟨q', hq'.call, hagree⟩

theorem Agree.head {p : Prog Op Ans α} {q : Prog Op Ans β} (h : Agree k R p q s) :
    q.head? = p.head? := by
  cases p with
  | done a =>
    obtain ⟨b, rfl, -⟩ := h
    rfl
  | call op next =>
    obtain ⟨next', rfl, -⟩ := h
    rfl

end Agree

end Prog

end Relate

end VncProxy.Lib
