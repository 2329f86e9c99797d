/-
  VncProxy.Proxy.Ages

  The life of a pair in two numbers: how many sections of its `tie_fd` have run,
  and how far its shutdown has come (`0` before anyone has decided to shut it
  down, `15` when the shutdown is over).  The ages determine the marks of the
  pair and the code that is left to run for it, and each section makes the pair
  one section older (`build_step`, `down_step`).
-/
import VncProxy.Proxy.Milestones
import Mathlib.Tactic.IntervalCases

namespace VncProxy.Proxy

open Lib (Threads)
open Polling

-- ============================================================================
-- Ages
-- ============================================================================

namespace Side

/-- The age at which `tie` has run: it ties both sides at once. -/
def tieAt : Side → Nat
  | first => 1
  | second => 1

/-- The age at which `ref_copy` of `PollThread::add` has run. -/
def refAt : Side → Nat
  | first => 2
  | second => 5

def addAt : Side → Nat
  | first => 3
  | second => 6

def regAt : Side → Nat
  | first => 4
  | second => 7

def readyAt : Side → Nat
  | first => 8
  | second => 9

/-- The age at which the shutdown of the pair has entered `shutdown` of this
    endpoint. -/
def beginAt : Side → Nat
  | first => 2
  | second => 7

def closeAt : Side → Nat
  | first => 3
  | second => 8

def removeAt : Side → Nat
  | first => 4
  | second => 9

def pendAt : Side → Nat
  | first => 5
  | second => 10

def releaseAt : Side → Nat
  | first => 15
  | second => 12

/-- Only the leader has an entry to erase. -/
def eraseAt : Side → Nat
  | first => 13
  | second => 16

end Side

/-- The endpoints whose pair has reached the age of a milestone. -/
def past (T : Side → Nat) (age : Nat → Nat) : Set Ep := {e | T e.side ≤ age e.pair}

@[simp] theorem mem_past {T : Side → Nat} {age : Nat → Nat} {e : Ep} :
    e ∈ past T age ↔ T e.side ≤ age e.pair := Iff.rfl

/-- One pair gets one section older. -/
def bump (age : Nat → Nat) (p : Nat) : Nat → Nat := Function.update age p (age p + 1)

@[simp] theorem bump_self (age : Nat → Nat) (p : Nat) : bump age p p = age p + 1 := by
  simp [bump]

theorem bump_of_ne (age : Nat → Nat) {p q : Nat} (h : q ≠ p) : bump age p q = age q := by
  simp [bump, h]

section Past

variable {T : Side → Nat} {age : Nat → Nat} {p k : Nat}

theorem past_bump_same (hk : age p = k) (h1 : T .first ≠ k + 1) (h2 : T .second ≠ k + 1) :
    past T (bump age p) = past T age := by
  ext ⟨q, s⟩
  by_cases hq : q = p
  · subst hq
    simp only [mem_past, bump_self, hk]
    cases s <;> omega
  · simp only [mem_past, bump_of_ne age hq]

theorem past_bump_first (hk : age p = k) (h1 : T .first = k + 1) (h2 : T .second ≠ k + 1) :
    past T (bump age p) = insert ⟨p, .first⟩ (past T age) := by
  ext ⟨q, s⟩
  by_cases hq : q = p
  · subst hq
    simp only [mem_past, bump_self, hk, Set.mem_insert_iff, Ep.mk.injEq, true_and]
    cases s <;> simp <;> omega
  · simp [bump_of_ne age hq, hq]

theorem past_bump_second (hk : age p = k) (h1 : T .first ≠ k + 1) (h2 : T .second = k + 1) :
    past T (bump age p) = insert ⟨p, .second⟩ (past T age) := by
  ext ⟨q, s⟩
  by_cases hq : q = p
  · subst hq
    simp only [mem_past, bump_self, hk, Set.mem_insert_iff, Ep.mk.injEq, true_and]
    cases s <;> simp <;> omega
  · simp [bump_of_ne age hq, hq]

theorem past_bump_both (hk : age p = k) (h1 : T .first = k + 1) (h2 : T .second = k + 1) :
    past T (bump age p) = insert ⟨p, .first⟩ (insert ⟨p, .second⟩ (past T age)) := by
  ext ⟨q, s⟩
  by_cases hq : q = p
  · subst hq
    simp only [mem_past, bump_self, hk, Set.mem_insert_iff, Ep.mk.injEq, true_and]
    cases s <;> simp <;> omega
  · simp [bump_of_ne age hq, hq]

/-- Deciding to shut down the pairs `ps` passes no milestone. -/
theorem past_claim {ps : List Nat} (h0 : ∀ q ∈ ps, age q = 0) (hT : ∀ s, 2 ≤ T s) :
    past T (fun q => if q ∈ ps then 1 else age q) = past T age := by
  ext ⟨q, s⟩
  have hs := hT s
  by_cases hq : q ∈ ps
  · simp only [mem_past, hq, if_true, h0 q hq]
    omega
  · simp only [mem_past, hq, if_false]

end Past

/-- The marks of all endpoints: `b` is how far each pair is built, `d` how far
    each pair is shut down. -/
def marks (b d : Nat → Nat) : Marks where
  tied := past Side.tieAt b
  taken := past Side.refAt b
  added := past Side.addAt b
  registered := past Side.regAt b
  ready := past Side.readyAt b
  begun := past Side.beginAt d
  closed := past Side.closeAt d
  removed := past Side.removeAt d
  pended := past Side.pendAt d
  released := past Side.releaseAt d
  erased := past Side.eraseAt d

structure Ages (pairs : Nat) (b d : Nat → Nat) : Prop where
  built_le : ∀ p, b p ≤ 9
  down_le : ∀ p, d p ≤ 15
  /-- a pair is only shut down when at most `ep2->ready()` is left of its `tie_fd` -/
  built : ∀ p, 1 ≤ d p → 8 ≤ b p
  born : ∀ p, 1 ≤ b p → p < pairs

theorem Ages.ordered {pairs : Nat} {b d : Nat → Nat} (h : Ages pairs b d) :
    (marks b d).Ordered := by
  refine ⟨?_, ?_, ?_, ?_, ?_, ?_⟩ <;> rintro ⟨p, s⟩ hx <;>
    have hbuilt := h.built p <;>
    simp only [marks, mem_past] at hx ⊢ <;> cases s <;>
    simp only [Side.tieAt, Side.refAt, Side.addAt, Side.regAt, Side.closeAt, Side.removeAt,
      Side.pendAt] at hx ⊢ <;> omega

-- ============================================================================
-- Code by age
-- ============================================================================

/-- What is left of the shutdown of pair `p`, by its age. -/
def downCode (p : Nat) : Nat → List Instr
  | 1 => [.shutdown ⟨p, .first⟩]
  | 2 => [.close ⟨p, .first⟩, .remove ⟨p, .first⟩, .leaderPart ⟨p, .first⟩,
      .release ⟨p, .first⟩]
  | 3 => [.remove ⟨p, .first⟩, .leaderPart ⟨p, .first⟩, .release ⟨p, .first⟩]
  | 4 => [.pend ⟨p, .first⟩, .leaderPart ⟨p, .first⟩, .release ⟨p, .first⟩]
  | 5 => [.leaderPart ⟨p, .first⟩, .release ⟨p, .first⟩]
  | 6 => [.shutdown ⟨p, .second⟩, .eraseLeader ⟨p, .first⟩, .logShutdown ⟨p, .first⟩,
      .release ⟨p, .first⟩]
  | 7 => [.close ⟨p, .second⟩, .remove ⟨p, .second⟩, .leaderPart ⟨p, .second⟩,
      .release ⟨p, .second⟩, .eraseLeader ⟨p, .first⟩, .logShutdown ⟨p, .first⟩,
      .release ⟨p, .first⟩]
  | 8 => [.remove ⟨p, .second⟩, .leaderPart ⟨p, .second⟩, .release ⟨p, .second⟩,
      .eraseLeader ⟨p, .first⟩, .logShutdown ⟨p, .first⟩, .release ⟨p, .first⟩]
  | 9 => [.pend ⟨p, .second⟩, .leaderPart ⟨p, .second⟩, .release ⟨p, .second⟩,
      .eraseLeader ⟨p, .first⟩, .logShutdown ⟨p, .first⟩, .release ⟨p, .first⟩]
  | 10 => [.leaderPart ⟨p, .second⟩, .release ⟨p, .second⟩, .eraseLeader ⟨p, .first⟩,
      .logShutdown ⟨p, .first⟩, .release ⟨p, .first⟩]
  | 11 => [.release ⟨p, .second⟩, .eraseLeader ⟨p, .first⟩, .logShutdown ⟨p, .first⟩,
      .release ⟨p, .first⟩]
  | 12 => [.eraseLeader ⟨p, .first⟩, .logShutdown ⟨p, .first⟩, .release ⟨p, .first⟩]
  | 13 => [.logShutdown ⟨p, .first⟩, .release ⟨p, .first⟩]
  | 14 => [.release ⟨p, .first⟩]
  | _ => []

/-- There is something left exactly from the decision to the last release. -/
theorem downCode_cons {p k : Nat} {i : Instr} {is : List Instr} (h : downCode p k = i :: is) :
    1 ≤ k ∧ k ≤ 14 := by
  unfold downCode at h
  split at h <;> first | omega | cases h

theorem downCode_ne_nil {p k : Nat} (h1 : 1 ≤ k) (h2 : k ≤ 14) : downCode p k ≠ [] := by
  interval_cases k <;> simp [downCode]

-- ============================================================================
-- Marks by age
-- ============================================================================

/-- The milestone that the section at age `k` of a `tie_fd` passes. -/
def Marks.build (m : Marks) (p : Nat) : Nat → Marks
  | 0 => { m with tied := insert ⟨p, .first⟩ (insert ⟨p, .second⟩ m.tied) }
  | 1 => { m with taken := insert ⟨p, .first⟩ m.taken }
  | 2 => { m with added := insert ⟨p, .first⟩ m.added }
  | 3 => { m with registered := insert ⟨p, .first⟩ m.registered }
  | 4 => { m with taken := insert ⟨p, .second⟩ m.taken }
  | 5 => { m with added := insert ⟨p, .second⟩ m.added }
  | 6 => { m with registered := insert ⟨p, .second⟩ m.registered }
  | 7 => { m with ready := insert ⟨p, .first⟩ m.ready }
  | 8 => { m with ready := insert ⟨p, .second⟩ m.ready }
  | _ => m

/-- The milestone that the section at age `k` of a shutdown passes, if any. -/
def Marks.down (m : Marks) (p : Nat) : Nat → Marks
  | 1 => { m with begun := insert ⟨p, .first⟩ m.begun }
  | 2 => { m with closed := insert ⟨p, .first⟩ m.closed }
  | 3 => { m with removed := insert ⟨p, .first⟩ m.removed }
  | 4 => { m with pended := insert ⟨p, .first⟩ m.pended }
  | 6 => { m with begun := insert ⟨p, .second⟩ m.begun }
  | 7 => { m with closed := insert ⟨p, .second⟩ m.closed }
  | 8 => { m with removed := insert ⟨p, .second⟩ m.removed }
  | 9 => { m with pended := insert ⟨p, .second⟩ m.pended }
  | 11 => { m with released := insert ⟨p, .second⟩ m.released }
  | 12 => { m with erased := insert ⟨p, .first⟩ m.erased }
  | 14 => { m with released := insert ⟨p, .first⟩ m.released }
  | _ => m

theorem marks_build {b d : Nat → Nat} {p k : Nat} (hk : b p = k) (hlt : k < 9) :
    marks (bump b p) d = (marks b d).build p k := by
  interval_cases k <;> ext1
  all_goals first
    | rfl
    | exact past_bump_first hk (by decide) (by decide)
    | exact past_bump_second hk (by decide) (by decide)
    | exact past_bump_both hk (by decide) (by decide)
    | exact past_bump_same hk (by decide) (by decide)

theorem marks_down {b d : Nat → Nat} {p k : Nat} (hk : d p = k) (h1 : 1 ≤ k) (h14 : k ≤ 14) :
    marks b (bump d p) = (marks b d).down p k := by
  interval_cases k <;> ext1
  all_goals first
    | rfl
    | exact past_bump_first hk (by decide) (by decide)
    | exact past_bump_second hk (by decide) (by decide)
    | exact past_bump_same hk (by decide) (by decide)

theorem marks_claim {b d : Nat → Nat} {ps : List Nat} (h0 : ∀ q ∈ ps, d q = 0) :
    marks b (fun q => if q ∈ ps then 1 else d q) = marks b d := by
  ext1
  all_goals first
    | rfl
    | exact past_claim h0 (by intro s; cases s <;> decide)

section Step

variable {w w' : World} {b d : Nat → Nat} {drops : List Ep} {o : Oracle} {p : Nat}
  {i : Instr} {pre is : List Instr}

/-- A pollable that has not been handed to the removal pass, or waits for it. -/
def Kept (w : World) (m : Marks) (e : Ep) : Prop :=
  e ∉ m.pended ∨ e ∈ w.thread.pendingRemove

/-- One section of a shutdown makes the pair one section older. -/
theorem down_step (h : WorldInv w (marks b d) drops) (ha : Ages w.pairs b d)
    (hcode : downCode p (d p) = i :: is) (hexec : exec o w i = some (w', pre)) :
    WorldInv w' (marks b (bump d p)) drops ∧ pre ++ is = downCode p (d p + 1) ∧
      w'.pairs = w.pairs ∧ ∀ e, Kept w (marks b d) e → Kept w' (marks b (bump d p)) e := by
  have ho := ha.ordered
  obtain ⟨h1, h14⟩ := downCode_cons hcode
  have hb : 8 ≤ b p := ha.built p h1
  have hp : p < w.pairs := ha.born p (by omega)
  have hpeer : ∀ s, (w.ep ⟨p, s⟩).peer = some (Ep.other ⟨p, s⟩) ∧
      ((w.ep ⟨p, s⟩).leader = true ↔ s = .first) := by
    intro s
    apply (h.tie ⟨p, s⟩).1
    show Side.tieAt s ≤ b p
    cases s <;> simp only [Side.tieAt] <;> omega
  have hadd : ∀ s, (⟨p, s⟩ : Ep) ∈ (marks b d).added := by
    intro s
    show Side.addAt s ≤ b p
    cases s <;> simp only [Side.addAt] <;> omega
  have htaken : ∀ s, (⟨p, s⟩ : Ep) ∈ (marks b d).taken := by
    intro s
    show Side.refAt s ≤ b p
    cases s <;> simp only [Side.refAt] <;> omega
  have hsame : ∀ m : Marks, m.pended = (marks b d).pended → ∀ v : World,
      v.thread.pendingRemove = w.thread.pendingRemove →
      ∀ e, Kept w (marks b d) e → Kept v m e := by
    intro m hm v hv e he
    unfold Kept at he ⊢
    rw [hm, hv]
    exact he
  have hpend : ∀ x : Ep, x ∉ (marks b d).pended → ∀ e, Kept w (marks b d) e →
      Kept (w.pended x) { marks b d with pended := insert x (marks b d).pended } e := by
    intro x hx e he
    by_cases hex : e = x
    · subst hex
      right
      show e ∈ w.thread.pendingRemove.insert e
      simp
    · rcases he with he | he
      · left
        intro hmem
        rcases Set.mem_insert_iff.mp hmem with heq | hmem
        · exact hex heq
        · exact he hmem
      · right
        show e ∈ w.thread.pendingRemove.insert x
        simp [he]
  generalize hk : d p = k at hcode h1 h14 ⊢
  rw [marks_down hk h1 h14]
  interval_cases k <;> obtain ⟨rfl, rfl⟩ := List.cons.inj hcode
  · -- entering `shutdown` of the leader
    obtain ⟨rfl, rfl⟩ := Prod.mk.inj (Option.some.inj hexec)
    exact ⟨h.shutdown_step (by simp [marks, Side.beginAt, hk]), rfl, rfl, hsame _ rfl _ rfl⟩
  · obtain ⟨rfl, rfl⟩ := Prod.mk.inj (Option.some.inj hexec)
    exact ⟨h.close_step ho hp (by simp [marks, Side.closeAt, hk]), rfl, rfl, hsame _ rfl _ rfl⟩
  · have hrem : (⟨p, .first⟩ : Ep) ∉ (marks b d).removed := by simp [marks, Side.removeAt, hk]
    rcases exec_remove.mp hexec with ⟨-, -, rfl, rfl⟩ | ⟨hin, -⟩
    · exact ⟨h.remove_step (hadd _) hrem, rfl, rfl, hsame _ rfl _ rfl⟩
    · exact absurd ((h.set.mem _).mpr ⟨hadd _, hrem⟩) hin
  · have hnot : (⟨p, .first⟩ : Ep) ∉ (marks b d).pended := by simp [marks, Side.pendAt, hk]
    obtain ⟨rfl, rfl⟩ := Prod.mk.inj (Option.some.inj hexec)
    exact ⟨h.pend_step (htaken _) hnot, rfl, rfl, hpend _ hnot⟩
  · -- the leader goes on to shut down its peer
    obtain ⟨rfl, ⟨hl, -⟩ | ⟨-, peer, hpe, rfl⟩⟩ := exec_leaderPart.mp hexec
    · rw [(hpeer .first).2.mpr rfl] at hl
      cases hl
    · rw [(hpeer .first).1] at hpe
      obtain rfl := Option.some.inj hpe
      exact ⟨h, rfl, rfl, hsame _ rfl _ rfl⟩
  · obtain ⟨rfl, rfl⟩ := Prod.mk.inj (Option.some.inj hexec)
    exact ⟨h.shutdown_step (by simp [marks, Side.beginAt, hk]), rfl, rfl, hsame _ rfl _ rfl⟩
  · obtain ⟨rfl, rfl⟩ := Prod.mk.inj (Option.some.inj hexec)
    exact ⟨h.close_step ho hp (by simp [marks, Side.closeAt, hk]), rfl, rfl, hsame _ rfl _ rfl⟩
  · have hrem : (⟨p, .second⟩ : Ep) ∉ (marks b d).removed := by simp [marks, Side.removeAt, hk]
    rcases exec_remove.mp hexec with ⟨-, -, rfl, rfl⟩ | ⟨hin, -⟩
    · exact ⟨h.remove_step (hadd _) hrem, rfl, rfl, hsame _ rfl _ rfl⟩
    · exact absurd ((h.set.mem _).mpr ⟨hadd _, hrem⟩) hin
  · have hnot : (⟨p, .second⟩ : Ep) ∉ (marks b d).pended := by simp [marks, Side.pendAt, hk]
    obtain ⟨rfl, rfl⟩ := Prod.mk.inj (Option.some.inj hexec)
    exact ⟨h.pend_step (htaken _) hnot, rfl, rfl, hpend _ hnot⟩
  · -- the peer is not a leader
    obtain ⟨rfl, ⟨-, rfl⟩ | ⟨hl, -⟩⟩ := exec_leaderPart.mp hexec
    · exact ⟨h, rfl, rfl, hsame _ rfl _ rfl⟩
    · exact absurd ((hpeer .second).2.mp hl) (by decide)
  · obtain ⟨-, rfl, rfl⟩ := exec_release (o := o) |>.mp hexec
    exact ⟨h.release_step (by simp [marks, Side.releaseAt, hk]), rfl, rfl, hsame _ rfl _ rfl⟩
  · obtain ⟨rfl, rfl⟩ := Prod.mk.inj (Option.some.inj hexec)
    exact ⟨h.eraseLeader_step, rfl, rfl, hsame _ rfl _ rfl⟩
  · obtain ⟨-, rfl, rfl⟩ := exec_logShutdown.mp hexec
    exact ⟨h, rfl, rfl, hsame _ rfl _ rfl⟩
  · obtain ⟨-, rfl, rfl⟩ := exec_release (o := o) |>.mp hexec
    exact ⟨h.release_step (by simp [marks, Side.releaseAt, hk]), rfl, rfl, hsame _ rfl _ rfl⟩

/-- One section of a `tie_fd` makes the pair one section older. -/
theorem build_step (h : WorldInv w (marks b d) drops) (ha : Ages w.pairs b d) {key : Key}
    (hp : p < w.pairs) (hcode : (tieFd p key).drop (b p) = i :: is)
    (hexec : exec o w i = some (w', pre)) :
    WorldInv w' (marks (bump b p) d) drops ∧ pre = [] ∧ is = (tieFd p key).drop (b p + 1) ∧
      w'.pairs = w.pairs ∧ b p < 9 ∧ w'.thread.pendingRemove = w.thread.pendingRemove := by
  have ho := ha.ordered
  have hlt : b p < 9 := by
    by_contra hge
    have hlen : (tieFd p key).length ≤ b p := Nat.not_lt.mp hge
    rw [List.drop_of_length_le hlen] at hcode
    cases hcode
  have hd : b p < 8 → d p = 0 := by
    intro hyoung
    by_contra hne
    have hbuilt := ha.built p (by omega)
    omega
  generalize hk : b p = k at hcode hlt hd ⊢
  rw [marks_build hk hlt]
  interval_cases k <;> simp only [Nat.reduceLT, forall_const] at hd <;>
    obtain ⟨rfl, rfl⟩ := List.cons.inj hcode
  · obtain ⟨rfl, rfl⟩ := Prod.mk.inj (Option.some.inj hexec)
    exact ⟨h.tie_step (e := ⟨p, .first⟩) rfl hp (by simp [marks, Side.tieAt, hk])
      (by simp [marks, Side.eraseAt, hd]) key, rfl, rfl, rfl, by decide, rfl⟩
  · obtain ⟨rfl, rfl⟩ := Prod.mk.inj (Option.some.inj hexec)
    exact ⟨h.refCopy_step (by simp [marks, Side.refAt, hk]) (by simp [marks, Side.pendAt, hd]),
      rfl, rfl, rfl, by decide, rfl⟩
  · obtain ⟨hin, hmode, rfl, rfl⟩ := exec_add.mp hexec
    exact ⟨h.add_step hin hmode (by simp [marks, Side.removeAt, hd]), rfl, rfl, rfl, by decide,
      rfl⟩
  · obtain ⟨-, -, rfl, rfl⟩ := exec_epollAdd.mp hexec
    exact ⟨h.epollAdd_step ho (by simp [marks, Side.tieAt, hk]) (by simp [marks, Side.closeAt, hd]), rfl, rfl,
      rfl, by decide, rfl⟩
  · obtain ⟨rfl, rfl⟩ := Prod.mk.inj (Option.some.inj hexec)
    exact ⟨h.refCopy_step (by simp [marks, Side.refAt, hk]) (by simp [marks, Side.pendAt, hd]),
      rfl, rfl, rfl, by decide, rfl⟩
  · obtain ⟨hin, hmode, rfl, rfl⟩ := exec_add.mp hexec
    exact ⟨h.add_step hin hmode (by simp [marks, Side.removeAt, hd]), rfl, rfl, rfl, by decide,
      rfl⟩
  · obtain ⟨-, -, rfl, rfl⟩ := exec_epollAdd.mp hexec
    exact ⟨h.epollAdd_step ho (by simp [marks, Side.tieAt, hk]) (by simp [marks, Side.closeAt, hd]), rfl, rfl,
      rfl, by decide, rfl⟩
  · obtain ⟨rfl, rfl⟩ := Prod.mk.inj (Option.some.inj hexec)
    exact ⟨h.ready_step hp, rfl, rfl, rfl, by decide, rfl⟩
  · obtain ⟨rfl, rfl⟩ := Prod.mk.inj (Option.some.inj hexec)
    exact ⟨h.ready_step hp, rfl, rfl, rfl, by decide, rfl⟩

end Step

end VncProxy.Proxy
