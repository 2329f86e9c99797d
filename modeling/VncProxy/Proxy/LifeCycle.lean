/-
  VncProxy.Proxy.LifeCycle

  The threads against the ages of the pairs.  `Inv` says what code each thread
  has left, given the ages, and that the shared state is as the marks say.  It
  holds in every run in which a shutdown is only decided on for a pair that nobody
  is shutting down already and of whose `tie_fd` at most `ep2->ready()` is left
  (`Mild`).
-/
import VncProxy.Proxy.Ages

namespace VncProxy.Proxy

open Lib (Threads)
open Polling

-- ============================================================================
-- The code of the poll thread
-- ============================================================================

def dropOf : Instr → Option Ep
  | .drop e => some e
  | _ => none

/-- The references that the removal pass still has to drop. -/
def drops (is : List Instr) : List Ep := is.filterMap dropOf

def removal (rs : List Ep) : List Instr := rs.flatMap fun e => [.unregister e, .drop e]

def IoList (w : World) (m : Marks) (is : List Instr) : Prop :=
  ∀ i ∈ is, ∃ e, i.io = some e ∧ e ∈ m.registered ∧ Kept w m e

/-- What the poll thread has left to do, but for a shutdown it is in: events and
    then the removal pass, or a part of the removal pass. -/
inductive Tail (w : World) (m : Marks) : List Instr → Prop
  | events (io : List Instr) : IoList w m io → Tail w m (io ++ [.swapPending])
  | removal (rs : List Ep) : Tail w m (removal rs)
  | dropping (e : Ep) (rs : List Ep) : Tail w m (.drop e :: removal rs)

section Tail

variable {w w' : World} {m m' : Marks} {is : List Instr}

@[simp] theorem drops_removal (rs : List Ep) : drops (removal rs) = rs := by
  induction rs with
  | nil => rfl
  | cons e rs ih =>
    have hcons : removal (e :: rs) = .unregister e :: .drop e :: removal rs := rfl
    rw [hcons]
    simp only [drops, List.filterMap_cons, dropOf] at ih ⊢
    rw [ih]

theorem IoList.drops (h : IoList w m is) : drops (is ++ [.swapPending]) = [] := by
  unfold Proxy.drops
  rw [List.filterMap_eq_nil_iff]
  intro i hi
  rcases List.mem_append.mp hi with hi | hi
  · obtain ⟨e, he, -⟩ := h i hi
    cases i <;> first | rfl | cases he
  · rw [List.mem_singleton.mp hi]
    rfl

theorem IoList.mono (h : IoList w m is) (hreg : m.registered ⊆ m'.registered)
    (hkept : ∀ e, Kept w m e → Kept w' m' e) : IoList w' m' is := by
  intro i hi
  obtain ⟨e, he, hr, hk⟩ := h i hi
  exact ⟨e, he, hreg hr, hkept e hk⟩

theorem Tail.mono (h : Tail w m is) (hreg : m.registered ⊆ m'.registered)
    (hkept : ∀ e, Kept w m e → Kept w' m' e) : Tail w' m' is := by
  cases h with
  | events io hio => exact Tail.events io (hio.mono hreg hkept)
  | removal rs => exact Tail.removal rs
  | dropping e rs => exact Tail.dropping e rs

/-- What the poll thread can do next, when it is not in a shutdown. -/
theorem Tail.cases_cons {i : Instr} {rest : List Instr} (h : Tail w m (i :: rest)) :
    (i = .swapPending ∧ rest = []) ∨
    (∃ e io, i.io = some e ∧ rest = io ++ [.swapPending] ∧ e ∈ m.registered ∧ Kept w m e ∧
      IoList w m io) ∨
    (∃ e rs, i = .unregister e ∧ rest = .drop e :: Proxy.removal rs) ∨
    (∃ e rs, i = .drop e ∧ rest = Proxy.removal rs) := by
  generalize hl : i :: rest = l at h
  cases h with
  | events io hio =>
    cases io with
    | nil =>
      obtain ⟨rfl, rfl⟩ := List.cons.inj hl
      exact Or.inl ⟨rfl, rfl⟩
    | cons j io =>
      obtain ⟨rfl, rfl⟩ := List.cons.inj hl
      obtain ⟨e, he, hreg, hkept⟩ := hio i List.mem_cons_self
      exact Or.inr (Or.inl ⟨e, io, he, rfl, hreg, hkept,
        fun j hj => hio j (List.mem_cons_of_mem _ hj)⟩)
  | removal rs =>
    cases rs with
    | nil => cases hl
    | cons e rs =>
      obtain ⟨rfl, rfl⟩ := List.cons.inj hl
      exact Or.inr (Or.inr (Or.inl ⟨e, rs, rfl, rfl⟩))
  | dropping e rs =>
    obtain ⟨rfl, rfl⟩ := List.cons.inj hl
    exact Or.inr (Or.inr (Or.inr ⟨e, rs, rfl, rfl⟩))

theorem Tail.mem_cases {i : Instr} (h : Tail w m is) (hi : i ∈ is) :
    (∃ e, i.io = some e) ∨ i = .swapPending ∨ ∃ e, i = .unregister e ∨ i = .drop e := by
  have hremoval : ∀ rs : List Ep, i ∈ Proxy.removal rs →
      ∃ e, i = .unregister e ∨ i = .drop e := by
    intro rs hrs
    obtain ⟨x, -, hx⟩ := List.mem_flatMap.mp hrs
    exact ⟨x, List.mem_pair.mp hx⟩
  cases h with
  | events io hio =>
    rcases List.mem_append.mp hi with hi | hi
    · obtain ⟨e, he, -⟩ := hio i hi
      exact Or.inl ⟨e, he⟩
    · exact Or.inr (Or.inl (List.mem_singleton.mp hi))
  | removal rs => exact Or.inr (Or.inr (hremoval rs hi))
  | dropping e rs =>
    rcases List.mem_cons.mp hi with rfl | hi
    · exact Or.inr (Or.inr ⟨e, Or.inr rfl⟩)
    · exact Or.inr (Or.inr (hremoval rs hi))

/-- The handlers of an event are about its endpoint. -/
theorem IoList.dispatch {e : Ep} {io : List Instr} (h : IoList w m io) (he : e ∈ m.registered)
    (hk : Kept w m e) (ev : Events) : IoList w m (dispatch e ev ++ io) := by
  intro i hi
  rcases List.mem_append.mp hi with hi | hi
  · refine ⟨e, ?_, he, hk⟩
    rcases mem_dispatch hi with ⟨rfl, -⟩ | ⟨rfl, -⟩ | ⟨rfl, -⟩ <;> rfl
  · exact h i hi

end Tail

theorem past_bump_subset {T : Side → Nat} {age : Nat → Nat} {p : Nat} :
    past T age ⊆ past T (bump age p) := by
  intro e he
  rw [mem_past] at he ⊢
  by_cases hp : e.pair = p
  · rw [hp] at he ⊢
    rw [bump_self]
    omega
  · rwa [bump_of_ne age hp]

-- ============================================================================
-- The invariant of the whole system
-- ============================================================================

/-- The code that is left of the shutdowns of the pairs `js`. -/
def jobs (d : Nat → Nat) (js : List Nat) : List Instr := js.flatMap fun p => downCode p (d p)

/-- The reference of the poll manager is still there: the pollable is registered,
    waits for the removal pass or is in it. -/
def Held (w : World) (m : Marks) (tail : List Instr) (e : Ep) : Prop :=
  Kept w m e ∨ e ∈ drops tail

/-- `pj` and `cj` are the pairs that the poll thread and the cleanup thread are
    shutting down.  `safe` says whether the run keeps `DropOk`. -/
structure Inv (safe : Prop) (c : Config) (b d : Nat → Nat) (pj cj : List Nat) (tail : List Instr) : Prop where
  world : WorldInv c.world (marks b d) (drops tail)
  ages : Ages c.world.pairs b d
  workers : ∀ p, p < c.world.pairs → ∃ key, c.code (.worker p) = (tieFd p key).drop (b p)
  free : ∀ p, c.world.pairs ≤ p → c.code (.worker p) = []
  poll : c.code .poll = jobs d pj ++ tail
  shape : Tail c.world (marks b d) tail
  dropped : ∀ e ∈ drops tail, e ∈ (marks b d).pended
  cleanup : c.code .cleanup = jobs d cj ∨ (cj = [] ∧ ∃ valid, c.code .cleanup = [.collect valid])
  nodup : (pj ++ cj).Nodup
  active : ∀ p, p ∈ pj ++ cj ↔ 1 ≤ d p ∧ d p ≤ 14
  /-- the log line at the end of a shutdown will find the leader's peer alive -/
  held : safe → ∀ p ∈ pj ++ cj, d p ≤ 13 → Held c.world (marks b d) tail ⟨p, .second⟩
  returned : safe → ∀ p, 1 ≤ d p → b p = 9

/-- Nobody has begun to shut the pair of `e` down. -/
def Standing (w : World) (e : Ep) : Prop := .shutdown ⟨e.pair, .first⟩ ∉ w.trace

/-- Nobody has started to shut the pair down or decided to. -/
def Undecided (c : Config) (p : Nat) : Prop :=
  .shutdown ⟨p, .first⟩ ∉ c.world.trace ∧ .shutdown ⟨p, .first⟩ ∉ c.code .poll ∧
    .shutdown ⟨p, .first⟩ ∉ c.code .cleanup

instance (c : Config) (p : Nat) : Decidable (Undecided c p) :=
  inferInstanceAs (Decidable (_ ∧ _))

/-- The `tie_fd` of the pair has returned, and nobody has started to shut the pair
    down or decided to. -/
def Idle (c : Config) (p : Nat) : Prop := c.code (.worker p) = [] ∧ Undecided c p

instance (c : Config) (p : Nat) : Decidable (Idle c p) := inferInstanceAs (Decidable (_ ∧ _))

/-- At most `ep2->ready()` is left of the `tie_fd` of the pair. -/
def Joined (c : Config) (p : Nat) : Prop := ∀ i ∈ c.code (.worker p), i = .ready ⟨p, .second⟩

instance (c : Config) (p : Nat) : Decidable (Joined c p) :=
  inferInstanceAs (Decidable (∀ i ∈ c.code (.worker p), _))

def Instr.errorOn : Instr → Option Ep
  | .handleError e => some e
  | _ => none

def Instr.collects : Instr → Option (List Key)
  | .collect valid => some valid
  | _ => none

def Instr.adds : Instr → Option Ep
  | .add e => some e
  | _ => none

/-- The endpoint of a handler. -/
def Instr.handles : Instr → Option Ep
  | .handleRead e | .handleWrite e | .handleError e => some e
  | _ => none

def Instr.reads : Instr → Option Ep
  | .handleRead e => some e
  | _ => none

/-- The section that thread `t` runs next. -/
def Config.next (c : Config) (t : Tid) : Option Instr := (c.code t).head?

/-- A shutdown is only decided on for an idle pair. -/
def Calm (c : Config) : Act → Prop
  | .exec t _ =>
    (∀ e ∈ (c.next t).bind Instr.errorOn, (c.world.ep e).enabled = true → Idle c e.pair) ∧
      ∀ valid ∈ (c.next t).bind Instr.collects,
        ∀ e ∈ World.outliers valid c.world.leaders, Idle c e.pair
  | _ => True

instance (c : Config) : ∀ a, Decidable (Calm c a)
  | .exec _ _ => inferInstanceAs (Decidable (_ ∧ _))
  | .wait _ | .tieFd _ _ _ | .cleanup _ | .grab _ | .giveBack _ => isTrue trivial

/-- A shutdown is only decided on for a pair that nobody is shutting down, and by
    `cleanup` only when the poll manager has both endpoints. -/
def Mild (c : Config) : Act → Prop
  | .exec t _ =>
    (∀ e ∈ (c.next t).bind Instr.errorOn, (c.world.ep e).enabled = true →
      Undecided c e.pair) ∧
      ∀ valid ∈ (c.next t).bind Instr.collects,
        ∀ e ∈ World.outliers valid c.world.leaders, Joined c e.pair ∧ Undecided c e.pair
  | _ => True

instance (c : Config) : ∀ a, Decidable (Mild c a)
  | .exec _ _ => inferInstanceAs (Decidable (_ ∧ _))
  | .wait _ | .tieFd _ _ _ | .cleanup _ | .grab _ | .giveBack _ => isTrue trivial

theorem Calm.mild {c : Config} {a : Act} (h : Calm c a) : Mild c a := by
  cases a with
  | exec t o =>
    refine ⟨fun e he hen => (h.1 e he hen).2, ?_⟩
    intro valid hv e he
    obtain ⟨hcode, hun⟩ := h.2 valid hv e he
    refine ⟨?_, hun⟩
    intro i hi
    rw [hcode] at hi
    cases hi
  | _ => trivial

/-- The sections of the shutdown of `e` up to its log line. -/
def Instr.logs (e : Ep) : Instr → Bool
  | .shutdown x | .leaderPart x | .logShutdown x => x = e
  | _ => false

/-- The removal pass does not release an endpoint that the cleanup thread still has
    to look at for its log line. -/
def DropOk (c : Config) : Act → Prop
  | .exec t _ =>
    t = .poll → ∀ e ∈ (c.next .poll).bind dropOf, e.side = .second →
      ∀ i ∈ c.code .cleanup, i.logs ⟨e.pair, .first⟩ = false
  | _ => True

instance (c : Config) : ∀ a, Decidable (DropOk c a)
  | .exec t _ => inferInstanceAs (Decidable (t = .poll → _))
  | .wait _ | .tieFd _ _ _ | .cleanup _ | .grab _ | .giveBack _ => isTrue trivial

section Jobs

variable {b d : Nat → Nat} {js : List Nat} {tail rest pre is : List Instr} {i : Instr} {p : Nat}

theorem jobs_congr {d' : Nat → Nat} (h : ∀ q ∈ js, d' q = d q) : jobs d' js = jobs d js := by
  unfold jobs
  apply List.flatMap_congr
  intro q hq
  rw [h q hq]

/-- The next section belongs to the first shutdown that is left, if any. -/
theorem jobs_head (hact : ∀ q ∈ js, 1 ≤ d q ∧ d q ≤ 14) (h : jobs d js ++ tail = i :: rest) :
    (js = [] ∧ tail = i :: rest) ∨
      ∃ p ps is, js = p :: ps ∧ downCode p (d p) = i :: is ∧ rest = is ++ (jobs d ps ++ tail) := by
  cases js with
  | nil => exact Or.inl ⟨rfl, h⟩
  | cons p ps =>
    obtain ⟨h1, h14⟩ := hact p List.mem_cons_self
    obtain ⟨j, is, hj⟩ := List.exists_cons_of_ne_nil (downCode_ne_nil (p := p) h1 h14)
    have hcons : jobs d (p :: ps) = downCode p (d p) ++ jobs d ps := rfl
    rw [hcons, hj, List.cons_append, List.cons_append] at h
    obtain ⟨rfl, rfl⟩ := List.cons.inj h
    exact Or.inr ⟨p, ps, is, rfl, hj, List.append_assoc _ _ _⟩

/-- The pairs that are left when `p`, at age `k`, gets one section older. -/
def advance (p k : Nat) (ps : List Nat) : List Nat := if k = 14 then ps else p :: ps

theorem jobs_advance {ps : List Nat} (hp : p ∉ ps) (hcode : pre ++ is = downCode p (d p + 1)) :
    pre ++ (is ++ (jobs d ps ++ tail)) =
      jobs (bump d p) (advance p (d p) ps) ++ tail := by
  have hps : jobs (bump d p) ps = jobs d ps := by
    apply jobs_congr
    intro q hq
    apply bump_of_ne
    rintro rfl
    exact hp hq
  unfold advance
  by_cases hk : d p = 14
  · rw [if_pos hk, hps]
    rw [hk] at hcode
    obtain ⟨rfl, rfl⟩ := List.append_eq_nil_iff.mp hcode
    rfl
  · rw [if_neg hk]
    have hcons : jobs (bump d p) (p :: ps) = downCode p (bump d p p) ++ jobs (bump d p) ps := rfl
    rw [hcons, bump_self, hps, ← hcode, List.append_assoc, List.append_assoc]

theorem mem_advance {ps : List Nat} {k q : Nat} :
    q ∈ advance p k ps ↔ q ∈ ps ∨ (q = p ∧ k ≠ 14) := by
  unfold advance
  split
  · rename_i hk
    simp [hk]
  · rename_i hk
    simp [hk, or_comm]

theorem bump_le {n q : Nat} (h : bump d p q ≤ n) : d q ≤ n := by
  by_cases hq : q = p
  · subst hq
    rw [bump_self] at h
    omega
  · rwa [bump_of_ne d hq] at h

theorem Ages.bump_down {pairs : Nat} (h : Ages pairs b d) (h1 : 1 ≤ d p) (h14 : d p ≤ 14) :
    Ages pairs b (bump d p) := by
  refine ⟨h.built_le, ?_, ?_, h.born⟩
  · intro q
    by_cases hq : q = p
    · subst hq
      rw [bump_self]
      omega
    · rw [bump_of_ne d hq]
      exact h.down_le q
  · intro q hq1
    by_cases hq : q = p
    · subst hq
      exact h.built q h1
    · rw [bump_of_ne d hq] at hq1
      exact h.built q hq1

theorem Ages.bump_build {pairs : Nat} (h : Ages pairs b d) (hlt : b p < 9) (hp : p < pairs) :
    Ages pairs (bump b p) d := by
  refine ⟨?_, h.down_le, ?_, ?_⟩
  · intro q
    by_cases hq : q = p
    · subst hq
      rw [bump_self]
      omega
    · rw [bump_of_ne b hq]
      exact h.built_le q
  · intro q hq1
    have hbuilt := h.built q hq1
    by_cases hq : q = p
    · subst hq
      rw [bump_self]
      omega
    · rw [bump_of_ne b hq]
      exact hbuilt
  · intro q hq1
    by_cases hq : q = p
    · subst hq
      exact hp
    · rw [bump_of_ne b hq] at hq1
      exact h.born q hq1

/-- Deciding on the shutdown of `ps`. -/
def claim (d : Nat → Nat) (ps : List Nat) : Nat → Nat := fun q => if q ∈ ps then 1 else d q

theorem Ages.claim {pairs : Nat} {ps : List Nat} (h : Ages pairs b d)
    (hps : ∀ q ∈ ps, 8 ≤ b q) : Ages pairs b (claim d ps) := by
  refine ⟨h.built_le, ?_, ?_, h.born⟩
  · intro q
    unfold Proxy.claim
    have := h.down_le q
    split <;> omega
  · intro q hq1
    unfold Proxy.claim at hq1
    split at hq1
    · exact hps q ‹_›
    · exact h.built q hq1

theorem jobs_claim (ps : List Nat) :
    jobs (claim d ps) ps = ps.map fun p => .shutdown ⟨p, .first⟩ := by
  have hone : ∀ qs ⊆ ps, jobs (claim d ps) qs = qs.map fun p => .shutdown ⟨p, .first⟩ := by
    intro qs hqs
    induction qs with
    | nil => rfl
    | cons q qs ih =>
      have hq : claim d ps q = 1 := if_pos (hqs List.mem_cons_self)
      have hcons : jobs (claim d ps) (q :: qs) =
          downCode q (claim d ps q) ++ jobs (claim d ps) qs := rfl
      rw [hcons, hq, ih fun x hx => hqs (List.mem_cons_of_mem _ hx)]
      rfl
  exact hone ps (List.Subset.refl ps)

end Jobs

namespace Inv

variable {safe : Prop} {c c' : Config} {b d : Nat → Nat} {pj cj : List Nat}
  {tail : List Instr}

theorem start : Inv safe Config.start (fun _ => 0) (fun _ => 0) [] [] [] := by
  have hpos : ∀ T : Side → Nat, (∀ s, 1 ≤ T s) → ∀ e, e ∉ past T (fun _ => 0) := by
    intro T hT e he
    have h1 := hT e.side
    rw [mem_past] at he
    omega
  refine ⟨⟨Flow.start, ?_, ?_, ?_, ⟨?_, List.nodup_nil, ?_, by simp [Config.start, World.start,
    Polling.PollThread.empty]⟩, ?_, ⟨?_, ?_⟩, ⟨List.nodup_nil, ?_⟩, ⟨List.nodup_nil, ?_⟩,
    ⟨?_, ?_⟩⟩, ⟨fun _ => Nat.zero_le _, fun _ => Nat.zero_le _, ?_, ?_⟩, ?_, fun _ _ => rfl, rfl,
    Tail.removal [], by simp [drops], Or.inl rfl, List.nodup_nil, by simp, by simp, by simp⟩
  · intro e he
    exact absurd he (hpos _ (by intro s; cases s <;> decide) e)
  · intro e
    refine ⟨fun he => absurd he (hpos _ (by intro s; cases s <;> decide) e), ?_⟩
    constructor
    · intro hen
      cases hen
    · intro he
      exact absurd he (hpos _ (by intro s; cases s <;> decide) e)
  · intro e he
    exact absurd he (Nat.not_lt_zero _)
  · intro e
    constructor
    · intro he
      cases he
    · rintro ⟨he, -⟩
      exact absurd he (hpos _ (by intro s; cases s <;> decide) e)
  · intro n
    simp [Config.start, World.start, Polling.PollThread.empty]
  · intro e he
    exact absurd he (Nat.not_lt_zero _)
  · intro n r hr
    cases hr
  · intro e he
    exact absurd he (hpos _ (by intro s; cases s <;> decide) e)
  · intro e he
    cases he
  · intro k e
    constructor
    · intro he
      cases he
    · rintro ⟨-, he, -⟩
      exact absurd he (hpos _ (by intro s; cases s <;> decide) e)
  · intro e
    exact (ind_neg (hpos Side.beginAt (by intro s; cases s <;> decide) e)).symm
  · intro e
    exact (ind_neg (hpos Side.closeAt (by intro s; cases s <;> decide) e)).symm
  · intro p hp
    exact absurd hp (by decide)
  · intro p hp
    exact absurd hp (by decide)
  · intro p hp
    exact absurd hp (Nat.not_lt_zero _)

/-- The `tie_fd` of the pair has returned. -/
theorem built (h : Inv safe c b d pj cj tail) {p : Nat} (hp : p < c.world.pairs)
    (hcode : c.code (.worker p) = []) : b p = 9 := by
  obtain ⟨key, hkey⟩ := h.workers p hp
  rw [hcode] at hkey
  have hlen := congrArg List.length hkey
  have hle := h.ages.built_le p
  rw [List.length_drop] at hlen
  have h9 : (tieFd p key).length = 9 := rfl
  rw [h9, List.length_nil] at hlen
  omega

theorem joined (h : Inv safe c b d pj cj tail) {p : Nat} (hp : p < c.world.pairs)
    (hj : Joined c p) : 8 ≤ b p := by
  obtain ⟨key, hkey⟩ := h.workers p hp
  by_contra hlt
  have hin : .ready ⟨p, .first⟩ ∈ c.code (.worker p) := by
    rw [hkey]
    generalize b p = k at hlt
    interval_cases k <;> simp [tieFd]
  exact absurd (hj _ hin) (by simp)

/-- An endpoint is only enabled at the end of `tie_fd`. -/
theorem enabled_built (h : Inv safe c b d pj cj tail) {e : Ep}
    (hen : (c.world.ep e).enabled = true) : 8 ≤ b e.pair := by
  have hready : Side.readyAt e.side ≤ b e.pair := (h.world.tie e).2.mp hen
  cases hs : e.side <;> rw [hs] at hready <;> simp only [Side.readyAt] at hready <;> omega

theorem undecided (h : Inv safe c b d pj cj tail) {p : Nat} (hu : Undecided c p) : d p = 0 := by
  obtain ⟨htrace, hpoll, hcleanup⟩ := hu
  by_contra hne
  have hbegun : ¬ 2 ≤ d p := by
    intro h2
    have hcount := h.world.trace.shutdowns ⟨p, .first⟩
    have hin : (⟨p, .first⟩ : Ep) ∈ (marks b d).begun := h2
    rw [ind_pos hin] at hcount
    apply htrace
    rw [← List.count_pos_iff, hcount]
    exact Nat.one_pos
  have hone : d p = 1 := by omega
  have hjob : ∀ js, p ∈ js → .shutdown ⟨p, .first⟩ ∈ jobs d js := by
    intro js hjs
    apply List.mem_flatMap.mpr
    exact ⟨p, hjs, by simp [hone, downCode]⟩
  rcases List.mem_append.mp ((h.active p).mpr (by omega)) with hin | hin
  · apply hpoll
    rw [h.poll]
    exact List.mem_append_left _ (hjob pj hin)
  · rcases h.cleanup with hc | ⟨rfl, -⟩
    · apply hcleanup
      rw [hc]
      exact hjob cj hin
    · cases hin

-- ============================================================================
-- One move of a thread
-- ============================================================================

variable {w : World} {o : Oracle} {i : Instr} {pre rest : List Instr} {p : Nat}

/-- A worker runs a section of its `tie_fd`. -/
theorem exec_worker (h : Inv safe c b d pj cj tail) (hcode : c.code (.worker p) = i :: rest)
    (hexec : exec o c.world i = some (w, pre)) :
    Inv safe { c.load (.worker p) (pre ++ rest) with world := w } (bump b p) d pj cj tail := by
  have hp : p < c.world.pairs := by
    by_contra hge
    rw [h.free p (Nat.not_lt.mp hge)] at hcode
    cases hcode
  obtain ⟨key, hkey⟩ := h.workers p hp
  rw [hkey] at hcode
  obtain ⟨hw, rfl, rfl, hpairs, hlt, hpend⟩ := build_step h.world h.ages hp hcode hexec
  have hkept : ∀ e, Kept c.world (marks b d) e → Kept w (marks (bump b p) d) e := by
    intro e he
    unfold Kept at he ⊢
    rw [hpend]
    exact he
  refine ⟨hw, ?_, ?_, ?_, h.poll, h.shape.mono past_bump_subset hkept, h.dropped, h.cleanup,
    h.nodup, h.active, fun hs q hq hd => (h.held hs q hq hd).imp (hkept _) id, ?_⟩
  · show Ages w.pairs _ _
    rw [hpairs]
    exact h.ages.bump_build hlt hp
  · intro q hq
    change q < w.pairs at hq
    rw [hpairs] at hq
    by_cases hqp : q = p
    · subst hqp
      refine ⟨key, ?_⟩
      show (c.load (.worker q) _).code (.worker q) = _
      rw [Threads.load_code_self, bump_self]
      rfl
    · obtain ⟨key', hkey'⟩ := h.workers q hq
      refine ⟨key', ?_⟩
      show (c.load (.worker p) _).code (.worker q) = _
      rw [Threads.load_code_of_ne _ (by simpa using hqp), bump_of_ne b hqp]
      exact hkey'
  · intro q hq
    change w.pairs ≤ q at hq
    rw [hpairs] at hq
    have hqp : q ≠ p := by omega
    show (c.load (.worker p) _).code (.worker q) = _
    rw [Threads.load_code_of_ne _ (by simpa using hqp)]
    exact h.free q hq
  · intro hs q hq
    have h9 := h.returned hs q hq
    have hqp : q ≠ p := by
      rintro rfl
      omega
    rw [bump_of_ne b hqp]
    exact h9

/-- The parts of the invariant that a section of a shutdown changes in the same
    way on either thread. -/
theorem advance_active (h : Inv safe c b d pj cj tail) {ps : List Nat} (js : List Nat)
    (h1 : 1 ≤ d p) (h14 : d p ≤ 14) (hin : ∀ q, q ∈ pj ++ cj ↔ q = p ∨ q ∈ ps)
    (hjs : ∀ q, q ∈ js ↔ (q = p ∧ d p ≠ 14) ∨ q ∈ ps) (hps : p ∉ ps) :
    ∀ q, q ∈ js ↔ 1 ≤ bump d p q ∧ bump d p q ≤ 14 := by
  intro q
  rw [hjs]
  by_cases hq : q = p
  · subst hq
    rw [bump_self]
    simp only [true_and, hps, or_false]
    omega
  · rw [bump_of_ne d hq, ← h.active q, hin q]
    simp [hq]

theorem returned_bump (h : Inv safe c b d pj cj tail) (hs : safe) (h1 : 1 ≤ d p) (q : Nat)
    (hq1 : 1 ≤ bump d p q) : b q = 9 := by
  by_cases hq : q = p
  · subst hq
    exact h.returned hs q h1
  · rw [bump_of_ne d hq] at hq1
    exact h.returned hs q hq1

/-- The poll thread runs a section of a shutdown. -/
theorem exec_poll_job (h : Inv safe c b d pj cj tail) {ps : List Nat} {is : List Instr}
    (hpj : pj = p :: ps) (hdown : downCode p (d p) = i :: is)
    (hexec : exec o c.world i = some (w, pre)) :
    Inv safe { c.load .poll (pre ++ (is ++ (jobs d ps ++ tail))) with world := w } b (bump d p)
      (advance p (d p) ps) cj tail := by
  subst hpj
  obtain ⟨h1, h14⟩ := downCode_cons hdown
  obtain ⟨hw, hcode, hpairs, hkept⟩ := down_step h.world h.ages hdown hexec
  have hnodup : p ∉ ps ++ cj ∧ (ps ++ cj).Nodup := List.nodup_cons.mp h.nodup
  have hpps : p ∉ ps := fun hp => hnodup.1 (List.mem_append_left _ hp)
  have hpcj : p ∉ cj := fun hp => hnodup.1 (List.mem_append_right _ hp)
  refine ⟨hw, ?_, ?_, ?_, ?_, h.shape.mono (Set.Subset.refl _) hkept, ?_, ?_, ?_, ?_, ?_,
    fun hs => h.returned_bump hs h1⟩
  · show Ages w.pairs _ _
    rw [hpairs]
    exact h.ages.bump_down h1 h14
  · intro q hq
    exact h.workers q (hpairs ▸ hq)
  · intro q hq
    exact h.free q (hpairs ▸ hq)
  · show (c.load .poll _).code .poll = _
    rw [Threads.load_code_self]
    exact jobs_advance hpps hcode
  · intro e he
    exact past_bump_subset (h.dropped e he)
  · show (c.load .poll (pre ++ (is ++ (jobs d ps ++ tail)))).code .cleanup = _ ∨ _
    rw [Threads.load_code_of_ne _ (by decide), jobs_congr (d := d)]
    · exact h.cleanup
    · intro q hq
      apply bump_of_ne
      rintro rfl
      exact hpcj hq
  · unfold advance
    split
    · exact hnodup.2
    · exact h.nodup
  · refine h.advance_active (advance p (d p) ps ++ cj) h1 h14 (by simp) ?_ hnodup.1
    intro q
    rw [List.mem_append, mem_advance, List.mem_append]
    tauto
  · intro hs q hq hdq
    have hq' : q ∈ p :: ps ++ cj := by
      rw [List.mem_append, mem_advance] at hq
      simp only [List.cons_append, List.mem_cons, List.mem_append]
      tauto
    exact (h.held hs q hq' (bump_le hdq)).imp (hkept _) id

/-- The cleanup thread runs a section of a shutdown. -/
theorem exec_cleanup_job (h : Inv safe c b d pj cj tail) {ps : List Nat} {is : List Instr}
    (hcj : cj = p :: ps) (hdown : downCode p (d p) = i :: is)
    (hexec : exec o c.world i = some (w, pre)) :
    Inv safe { c.load .cleanup (pre ++ (is ++ jobs d ps)) with world := w } b (bump d p) pj
      (advance p (d p) ps) tail := by
  subst hcj
  obtain ⟨h1, h14⟩ := downCode_cons hdown
  obtain ⟨hw, hcode, hpairs, hkept⟩ := down_step h.world h.ages hdown hexec
  have hnodup : p ∉ pj ++ ps ∧ (pj ++ ps).Nodup := List.nodup_middle.mp h.nodup |> List.nodup_cons.mp
  have hppj : p ∉ pj := fun hp => hnodup.1 (List.mem_append_left _ hp)
  have hpps : p ∉ ps := fun hp => hnodup.1 (List.mem_append_right _ hp)
  refine ⟨hw, ?_, ?_, ?_, ?_, h.shape.mono (Set.Subset.refl _) hkept, ?_, ?_, ?_, ?_, ?_,
    fun hs => h.returned_bump hs h1⟩
  · show Ages w.pairs _ _
    rw [hpairs]
    exact h.ages.bump_down h1 h14
  · intro q hq
    exact h.workers q (hpairs ▸ hq)
  · intro q hq
    exact h.free q (hpairs ▸ hq)
  · show (c.load .cleanup (pre ++ (is ++ jobs d ps))).code .poll = _
    rw [Threads.load_code_of_ne _ (by decide), jobs_congr (d := d)]
    · exact h.poll
    · intro q hq
      apply bump_of_ne
      rintro rfl
      exact hppj hq
  · intro e he
    exact past_bump_subset (h.dropped e he)
  · left
    show (c.load .cleanup _).code .cleanup = _
    rw [Threads.load_code_self]
    have hadv : pre ++ (is ++ (jobs d ps ++ [])) = _ := jobs_advance hpps hcode
    simpa using hadv
  · unfold advance
    split
    · exact hnodup.2
    · exact h.nodup
  · refine h.advance_active (pj ++ advance p (d p) ps) h1 h14 ?_ ?_ hnodup.1
    · intro q
      simp only [List.mem_append, List.mem_cons]
      tauto
    · intro q
      rw [List.mem_append, mem_advance, List.mem_append]
      tauto
  · intro hs q hq hdq
    have hq' : q ∈ pj ++ p :: ps := by
      rw [List.mem_append, mem_advance] at hq
      simp only [List.mem_append, List.mem_cons]
      tauto
    exact (h.held hs q hq' (bump_le hdq)).imp (hkept _) id

/-- Deciding on the shutdown of idle pairs disturbs no shutdown under way. -/
theorem claim_jobs (h : Inv safe c b d pj cj tail) {ps : List Nat} (h0 : ∀ q ∈ ps, d q = 0) :
    (∀ q ∈ pj ++ cj, q ∉ ps) ∧ jobs (claim d ps) pj = jobs d pj ∧
      jobs (claim d ps) cj = jobs d cj ∧
      ∀ q, (q ∈ ps ∨ q ∈ pj ++ cj) ↔ 1 ≤ claim d ps q ∧ claim d ps q ≤ 14 := by
  have hdisj : ∀ q ∈ pj ++ cj, q ∉ ps := by
    intro q hq hps
    have h1 := ((h.active q).mp hq).1
    rw [h0 q hps] at h1
    cases h1
  refine ⟨hdisj, ?_, ?_, ?_⟩
  · exact jobs_congr fun q hq => if_neg (hdisj q (List.mem_append_left _ hq))
  · exact jobs_congr fun q hq => if_neg (hdisj q (List.mem_append_right _ hq))
  · intro q
    unfold claim
    by_cases hq : q ∈ ps
    · simp [hq]
    · rw [if_neg hq, ← h.active q]
      simp [hq]

/-- A pair whose shutdown has only been decided on is still registered. -/
theorem claim_held (h : Inv safe c b d pj cj tail) {ps : List Nat} (h0 : ∀ q ∈ ps, d q = 0)
    (hs : safe) {q : Nat} (hq : q ∈ ps ∨ q ∈ pj ++ cj) (hd : claim d ps q ≤ 13) :
    Held c.world (marks b d) tail ⟨q, .second⟩ := by
  by_cases hps : q ∈ ps
  · left
    left
    show ¬ Side.pendAt .second ≤ d q
    rw [h0 q hps]
    decide
  · have hd' : d q ≤ 13 := by
      unfold claim at hd
      rwa [if_neg hps] at hd
    exact h.held hs q (hq.resolve_left hps) hd'

theorem claim_returned (h : Inv safe c b d pj cj tail) {ps : List Nat} (hs : safe)
    (hps : ∀ q ∈ ps, b q = 9) (q : Nat) (hq1 : 1 ≤ claim d ps q) : b q = 9 := by
  unfold claim at hq1
  split at hq1
  · exact hps q ‹_›
  · exact h.returned hs q hq1

/-- The cleanup thread collects the pairs of the routes that are gone. -/
theorem exec_collect (h : Inv safe c b d pj cj tail) {valid : List Key}
    (hcode : c.code .cleanup = .collect valid :: rest)
    (hmild : ∀ e ∈ World.outliers valid c.world.leaders, Joined c e.pair ∧ Undecided c e.pair)
    (hcalm : safe → ∀ e ∈ World.outliers valid c.world.leaders, Idle c e.pair)
    (hexec : exec o c.world (.collect valid) = some (w, pre)) :
    ∃ ps, Inv safe { c.load .cleanup (pre ++ rest) with world := w } b (claim d ps) pj ps tail := by
  obtain ⟨rfl, rfl⟩ := Prod.mk.inj (Option.some.inj hexec)
  have hcj : cj = [] ∧ rest = [] := by
    rcases h.cleanup with hc | ⟨rfl, v, hc⟩
    · rw [hc, ← List.append_nil (jobs d cj)] at hcode
      rcases jobs_head (fun q hq => (h.active q).mp (List.mem_append_right _ hq)) hcode with
        ⟨-, hnil⟩ | ⟨p, ps, is, -, hdown, -⟩
      · cases hnil
      · unfold downCode at hdown
        split at hdown <;> cases hdown
    · rw [hc] at hcode
      exact ⟨rfl, (List.cons.inj hcode).2.symm⟩
  obtain ⟨rfl, rfl⟩ := hcj
  -- the leaders collected, by pair
  have hmem : ∀ e ∈ World.outliers valid c.world.leaders,
      e.side = .first ∧ e.pair < c.world.pairs := by
    intro e he
    obtain ⟨⟨k, x⟩, hx, rfl⟩ := List.mem_map.mp he
    obtain ⟨hside, htied, -⟩ := (h.world.leaders.mem k x).mp (List.mem_filter.mp hx).1
    exact ⟨hside, h.world.born x htied⟩
  have hnodup : (World.outliers valid c.world.leaders).Nodup := by
    apply List.Nodup.map_on _ (h.world.leaders.nodup.filter _)
    rintro ⟨k, x⟩ hx ⟨k', x'⟩ hx' (rfl : x = x')
    have hk := ((h.world.leaders.mem k x).mp (List.mem_filter.mp hx).1).2.2.2
    have hk' := ((h.world.leaders.mem k' x).mp (List.mem_filter.mp hx').1).2.2.2
    rw [hk, hk']
  refine ⟨(World.outliers valid c.world.leaders).map Ep.pair, ?_⟩
  have hidle : ∀ q ∈ (World.outliers valid c.world.leaders).map Ep.pair,
      8 ≤ b q ∧ d q = 0 ∧ (safe → b q = 9) := by
    intro q hq
    obtain ⟨e, he, rfl⟩ := List.mem_map.mp hq
    obtain ⟨hj, hu⟩ := hmild e he
    exact ⟨h.joined (hmem e he).2 hj, h.undecided hu,
      fun hs => h.built (hmem e he).2 (hcalm hs e he).1⟩
  have hcodes : (World.outliers valid c.world.leaders).map Instr.shutdown =
      ((World.outliers valid c.world.leaders).map Ep.pair).map
        fun p => .shutdown ⟨p, .first⟩ := by
    rw [List.map_map]
    apply List.map_congr_left
    intro e he
    obtain ⟨p, s⟩ := e
    obtain rfl : s = .first := (hmem _ he).1
    rfl
  have hps : ((World.outliers valid c.world.leaders).map Ep.pair).Nodup := by
    apply List.Nodup.map_on _ hnodup
    rintro ⟨q, s⟩ hx ⟨q', s'⟩ hx' (rfl : q = q')
    obtain rfl : s = .first := (hmem _ hx).1
    obtain rfl : s' = .first := (hmem _ hx').1
    rfl
  generalize (World.outliers valid c.world.leaders).map Ep.pair = ps at hidle hcodes hps
  have hzero : ∀ q ∈ ps, d q = 0 := fun q hq => (hidle q hq).2.1
  obtain ⟨hdisj, hjobs, -, hactive⟩ := h.claim_jobs hzero
  have hmarks : marks b (claim d ps) = marks b d := marks_claim hzero
  refine ⟨hmarks ▸ h.world, h.ages.claim fun q hq => (hidle q hq).1, h.workers, h.free, ?_,
    hmarks ▸ h.shape, hmarks ▸ h.dropped, Or.inl ?_, ?_, ?_, ?_,
    fun hs => h.claim_returned hs fun q hq => (hidle q hq).2.2 hs⟩
  · show (c.load .cleanup _).code .poll = _
    rw [Threads.load_code_of_ne _ (by decide), hjobs]
    exact h.poll
  · show (c.load .cleanup _).code .cleanup = _
    rw [Threads.load_code_self, List.append_nil, jobs_claim, hcodes]
  · apply List.Nodup.append h.nodup.of_append_left hps
    intro q hq hqs
    exact hdisj q (List.mem_append_left _ hq) hqs
  · intro q
    rw [← hactive q]
    simp only [List.append_nil, List.mem_append]
    tauto
  · intro hs q hq hd
    rw [hmarks]
    apply h.claim_held hzero hs _ hd
    simp only [List.append_nil]
    exact (List.mem_append.mp hq).symm

/-- The world changes and the poll thread goes on with `is`. -/
theorem with_tail (h : Inv safe c b d [] cj tail) {is : List Instr}
    (hw : WorldInv w (marks b d) (drops is)) (hpairs : w.pairs = c.world.pairs)
    (hshape : Tail w (marks b d) is) (hdropped : ∀ e ∈ drops is, e ∈ (marks b d).pended)
    (hheld : safe → ∀ q ∈ cj, d q ≤ 13 → Held w (marks b d) is ⟨q, .second⟩) :
    Inv safe { c.load .poll is with world := w } b d [] cj is := by
  refine ⟨hw, ?_, ?_, ?_, ?_, hshape, hdropped, ?_, h.nodup, h.active, hheld, h.returned⟩
  · show Ages w.pairs _ _
    rw [hpairs]
    exact h.ages
  · intro q hq
    exact h.workers q (hpairs ▸ hq)
  · intro q hq
    exact h.free q (hpairs ▸ hq)
  · show (c.load .poll is).code .poll = _
    rw [Threads.load_code_self]
    rfl
  · show (c.load .poll is).code .cleanup = _ ∨ _
    rw [Threads.load_code_of_ne _ (by decide)]
    exact h.cleanup

/-- Whichever side an error is on, the leader is shut down. -/
theorem error_shuts (h : Inv safe c b d pj cj tail) {e : Ep}
    (hen : (c.world.ep e).enabled = true)
    (hexec : exec o c.world (.handleError e) = some (w, pre)) :
    pre = [.shutdown ⟨e.pair, .first⟩] := by
  have hready := (h.world.tie e).2.mp hen
  obtain ⟨hpeer, hleader⟩ := (h.world.tie e).1 (by
    obtain ⟨p, s⟩ := e
    cases s <;> simp only [marks, mem_past, Side.tieAt, Side.readyAt] at * <;> omega)
  obtain ⟨-, hpre⟩ := exec_handleError.mp hexec
  obtain ⟨p, s⟩ := e
  rcases hpre with ⟨hfalse, -⟩ | ⟨-, hl, rfl⟩ | ⟨-, hl, peer, hp, rfl⟩
  · rw [hen] at hfalse
    cases hfalse
  · obtain rfl : s = .first := hleader.mp hl
    rfl
  · rw [hpeer] at hp
    obtain rfl := Option.some.inj hp
    cases s with
    | first =>
      rw [hleader.mpr rfl] at hl
      cases hl
    | second => rfl

/-- The poll thread handles an error: unless the endpoint is not enabled, the
    shutdown of its pair begins. -/
theorem exec_error (h : Inv safe c b d [] cj tail) (hdrops : drops tail = []) {e : Ep}
    {io : List Instr} (hio : IoList c.world (marks b d) io)
    (hmild : (c.world.ep e).enabled = true → Undecided c e.pair)
    (hcalm : safe → (c.world.ep e).enabled = true → Idle c e.pair)
    (hexec : exec o c.world (.handleError e) = some (w, pre)) :
    ∃ d' pj', Inv safe { c.load .poll (pre ++ (io ++ [.swapPending])) with world := w } b d' pj' cj
      (io ++ [.swapPending]) := by
  obtain ⟨rfl, hpre⟩ := exec_handleError.mp hexec
  have hsame : drops tail = drops (io ++ [.swapPending]) := hdrops.trans hio.drops.symm
  have hw : WorldInv c.world (marks b d) (drops (io ++ [.swapPending])) := hsame ▸ h.world
  have hnone : ∀ x ∈ drops (io ++ [.swapPending]), x ∈ (marks b d).pended := by
    rw [hio.drops]
    intro x hx
    cases hx
  cases hen : (c.world.ep e).enabled with
  | false =>
    have hnil : pre = [] := by
      rcases hpre with ⟨-, hnil⟩ | ⟨htrue, -⟩ | ⟨htrue, -⟩
      · exact hnil
      · rw [hen] at htrue
        cases htrue
      · rw [hen] at htrue
        cases htrue
    subst hnil
    refine ⟨d, [], h.with_tail hw rfl (Tail.events io hio) hnone ?_⟩
    intro hs q hq hd
    unfold Held
    rw [List.nil_append, ← hsame]
    exact h.held hs q hq hd
  | true =>
    have hborn := h.world.flow.born hen
    have hd := h.undecided (hmild hen)
    have hb := h.enabled_built hen
    have hshut := h.error_shuts hen hexec
    subst hshut
    have hzero : ∀ q ∈ [e.pair], d q = 0 := by
      intro q hq
      rw [List.mem_singleton.mp hq]
      exact hd
    obtain ⟨hdisj, -, hjobs, hactive⟩ := h.claim_jobs hzero
    have hmarks : marks b (claim d [e.pair]) = marks b d := marks_claim hzero
    have htail : Tail c.world (marks b d) (io ++ [.swapPending]) := Tail.events io hio
    refine ⟨claim d [e.pair], [e.pair], hmarks ▸ hw, h.ages.claim ?_, h.workers, h.free, ?_,
      hmarks ▸ htail, hmarks ▸ hnone, ?_, ?_, ?_, ?_, ?_⟩
    · intro q hq
      rw [List.mem_singleton.mp hq]
      exact hb
    · show (c.load .poll _).code .poll = _
      rw [Threads.load_code_self, jobs_claim]
      rfl
    · show (c.load .poll ([.shutdown ⟨e.pair, .first⟩] ++ (io ++ [.swapPending]))).code .cleanup =
        _ ∨ _
      rw [Threads.load_code_of_ne _ (by decide), hjobs]
      exact h.cleanup
    · apply List.nodup_cons.mpr
      refine ⟨?_, h.nodup⟩
      intro hin
      exact hdisj e.pair hin List.mem_cons_self
    · intro q
      rw [← hactive q]
      simp
    · intro hs q hq hd
      rw [hmarks]
      unfold Held
      rw [← hsame]
      exact h.claim_held hzero hs (by simpa using hq) hd
    · intro hs
      apply h.claim_returned hs
      intro q hq
      rw [List.mem_singleton.mp hq]
      exact h.built hborn (hcalm hs hen).1

/-- A shutdown of the cleanup thread that has not come past its log line still has
    a section that leads there. -/
theorem logs_of_mem (h : Inv safe c b d pj cj tail) {q : Nat} (hq : q ∈ cj) (hd : d q ≤ 13) :
    ∃ i ∈ c.code .cleanup, i.logs ⟨q, .first⟩ = true := by
  have h1 := ((h.active q).mp (List.mem_append_right _ hq)).1
  have hin : ∃ i ∈ downCode q (d q), i.logs ⟨q, .first⟩ = true := by
    generalize d q = k at h1 hd
    interval_cases k <;> simp [downCode, Instr.logs]
  rcases h.cleanup with hc | ⟨rfl, -⟩
  · obtain ⟨i, hi, hl⟩ := hin
    rw [hc]
    exact ⟨i, List.mem_flatMap.mpr ⟨q, hq, hi⟩, hl⟩
  · cases hq

/-- The poll thread moves on, when it is not in a shutdown. -/
theorem exec_poll_tail (h : Inv safe c b d [] cj tail) (htail : tail = i :: rest)
    (hmild : ∀ e, i = .handleError e → (c.world.ep e).enabled = true → Undecided c e.pair)
    (hcalm : safe → ∀ e, i = .handleError e → (c.world.ep e).enabled = true → Idle c e.pair)
    (hdrop : safe → ∀ e, i = .drop e → e.side = .second →
      ∀ j ∈ c.code .cleanup, j.logs ⟨e.pair, .first⟩ = false)
    (hexec : exec o c.world i = some (w, pre)) :
    ∃ d' pj' tail',
      Inv safe { c.load .poll (pre ++ rest) with world := w } b d' pj' cj tail' := by
  subst htail
  have ho := h.ages.ordered
  rcases h.shape.cases_cons with ⟨rfl, rfl⟩ | ⟨e, io, hi, rfl, hreg, hkept, hio⟩ |
    ⟨e, rs, rfl, rfl⟩ | ⟨e, rs, rfl, rfl⟩
  · -- the pending pollables become the removal pass
    obtain ⟨rfl, removePoll, hperm, rfl⟩ := exec_swapPending hexec
    have hdrops : drops (removePoll.flatMap fun e => [.unregister e, .drop e]) = removePoll :=
      drops_removal removePoll
    rw [List.append_nil]
    refine ⟨d, [], _, h.with_tail ?_ rfl (Tail.removal removePoll) ?_ ?_⟩
    · rw [hdrops]
      exact h.world.swap_step hperm
    · rw [hdrops]
      intro x hx
      exact h.world.pending.mem x (hperm.mem_iff.mp hx)
    · intro hs q hq hd
      rcases h.held hs q hq hd with (hk | hk) | hk
      · exact Or.inl (Or.inl hk)
      · right
        rw [hdrops]
        exact hperm.mem_iff.mpr hk
      · cases hk
  · have hdrops : drops (i :: (io ++ [.swapPending])) = [] := by
      have hcons : IoList c.world (marks b d) (i :: io) :=
        List.forall_mem_cons.mpr ⟨⟨e, hi, hreg, hkept⟩, hio⟩
      exact hcons.drops
    have hw : WorldInv c.world (marks b d) [] := hdrops ▸ h.world
    have hnone : ∀ is : List Instr, IoList c.world (marks b d) is →
        ∀ x ∈ drops (is ++ [.swapPending]), x ∈ (marks b d).pended := by
      intro is his x hx
      rw [his.drops] at hx
      cases hx
    have hheld : safe → ∀ q ∈ cj, d q ≤ 13 → Kept c.world (marks b d) ⟨q, .second⟩ := by
      intro hs q hq hd
      rcases h.held hs q hq hd with hk | hk
      · exact hk
      · rw [hdrops] at hk
        cases hk
    have hmove : ∀ v : World, WorldInv v (marks b d) [] → v.pairs = c.world.pairs →
        (∀ x ∈ c.world.thread.pendingRemove, x ∈ v.thread.pendingRemove) →
        Inv safe { c.load .poll (io ++ [.swapPending]) with world := v } b d [] cj
          (io ++ [.swapPending]) := by
      intro v hv hpairs hpend
      have hkeep : ∀ x, Kept c.world (marks b d) x → Kept v (marks b d) x := by
        intro x hx
        exact hx.imp id (hpend x)
      exact h.with_tail (hio.drops ▸ hv) hpairs
        ((Tail.events io hio).mono (Set.Subset.refl _) hkeep) (hnone io hio)
        fun hs q hq hd => Or.inl (hkeep _ (hheld hs q hq hd))
    cases i with
    | event x ev =>
      obtain rfl := Option.some.inj hi
      obtain ⟨rfl, rfl⟩ := Prod.mk.inj (Option.some.inj hexec)
      have hio' := hio.dispatch hreg hkept ev
      refine ⟨d, [], dispatch x ev ++ io ++ [.swapPending], ?_⟩
      rw [← List.append_assoc]
      exact h.with_tail (hio'.drops ▸ hw) rfl (Tail.events _ hio') (hnone _ hio')
        fun hs q hq hd => Or.inl (hheld hs q hq hd)
    | handleRead x =>
      obtain ⟨hr, rfl⟩ := exec_handleRead.mp hexec
      have hframe := handleRead_frame h.world.flow hr
      exact ⟨d, [], _, hmove w (hw.handleRead_step ho hr) hframe.pairs
        fun y hy => (hframe.pending y hy).resolve_left (by simp)⟩
    | handleWrite x =>
      obtain ⟨hr, rfl⟩ := exec_handleWrite.mp hexec
      have hframe := handleWrite_frame h.world.flow hr
      exact ⟨d, [], _, hmove w (hw.handleWrite_step ho hr) hframe.pairs
        fun y hy => (hframe.pending y hy).resolve_left (by simp)⟩
    | handleError x =>
      obtain ⟨d', pj', hinv⟩ := h.exec_error hdrops hio (hmild x rfl) (fun hs => hcalm hs x rfl)
        hexec
      exact ⟨d', pj', _, hinv⟩
    | _ => cases hi
  · obtain ⟨rfl, rfl⟩ := Prod.mk.inj (Option.some.inj hexec)
    have hdrops : drops (.unregister e :: .drop e :: removal rs) =
        drops (.drop e :: removal rs) := rfl
    refine ⟨d, [], _, h.with_tail ?_ rfl (Tail.dropping e rs) ?_ ?_⟩
    · exact hdrops ▸ h.world.unregister_step ho
    · exact hdrops ▸ h.dropped
    · exact h.held
  · obtain ⟨-, rfl, rfl⟩ := exec_drop (o := o) |>.mp hexec
    have hdrops : drops (.drop e :: removal rs) = e :: drops (removal rs) := rfl
    have hworld := h.world
    have hdropped := h.dropped
    rw [hdrops] at hworld hdropped
    refine ⟨d, [], _, h.with_tail hworld.drop_step rfl (Tail.removal rs) ?_ ?_⟩
    · intro x hx
      exact hdropped x (List.mem_cons_of_mem _ hx)
    · intro hs q hq hd
      rcases h.held hs q hq hd with hk | hk
      · exact Or.inl hk
      · right
        rw [hdrops] at hk
        rcases List.mem_cons.mp hk with heq | hk
        · subst heq
          obtain ⟨j, hj, hl⟩ := h.logs_of_mem hq hd
          rw [hdrop hs _ rfl rfl j hj] at hl
          cases hl
        · exact hk

/-- A thread runs its next section. -/
theorem exec_step (h : Inv safe c b d pj cj tail) {t : Tid} (hmild : Mild c (.exec t o))
    (hcalm : safe → Calm c (.exec t o)) (hdrop : safe → DropOk c (.exec t o)) (hs : step (.exec t o) c = some c') :
    ∃ b' d' pj' cj' tail', Inv safe c' b' d' pj' cj' tail' := by
  obtain ⟨i, rest, -, hcode, ⟨-, rfl⟩ | ⟨w, pre, hexec, rfl⟩⟩ := Threads.run_cases hs
  · exact ⟨b, d, pj, cj, tail, h.world, h.ages, h.workers, h.free, h.poll, h.shape, h.dropped,
      h.cleanup, h.nodup, h.active, h.held, h.returned⟩
  cases t with
  | worker p => exact ⟨bump b p, d, pj, cj, tail, h.exec_worker hcode hexec⟩
  | poll =>
    have hpoll := h.poll
    rw [hcode] at hpoll
    rcases jobs_head (fun q hq => (h.active q).mp (List.mem_append_left _ hq)) hpoll.symm with
      ⟨rfl, htail⟩ | ⟨p, ps, is, hpj, hdown, rfl⟩
    · have hmild' : ∀ e, i = .handleError e → (c.world.ep e).enabled = true →
          Undecided c e.pair := by
        rintro e rfl
        apply hmild.1
        simp [Config.next, hcode, Instr.errorOn]
      have hcalm' : safe → ∀ e, i = .handleError e → (c.world.ep e).enabled = true →
          Idle c e.pair := by
        rintro hs e rfl
        apply (hcalm hs).1
        simp [Config.next, hcode, Instr.errorOn]
      have hdrop' : safe → ∀ e, i = .drop e → e.side = .second →
          ∀ j ∈ c.code .cleanup, j.logs ⟨e.pair, .first⟩ = false := by
        rintro hs e rfl
        apply hdrop hs rfl
        simp [Config.next, hcode, dropOf]
      obtain ⟨d', pj', tail', hinv⟩ := h.exec_poll_tail htail hmild' hcalm' hdrop' hexec
      exact ⟨b, d', pj', cj, tail', hinv⟩
    · exact ⟨b, _, _, cj, tail, h.exec_poll_job hpj hdown hexec⟩
  | cleanup =>
    have hnotcollect : ∀ p k is v, downCode p k ≠ .collect v :: is := by
      intro p k is v heq
      unfold downCode at heq
      split at heq <;> cases heq
    rcases h.cleanup with hc | ⟨rfl, v, hc⟩
    · rw [hc, ← List.append_nil (jobs d cj)] at hcode
      rcases jobs_head (fun q hq => (h.active q).mp (List.mem_append_right _ hq)) hcode with
        ⟨-, hnil⟩ | ⟨p, ps, is, hcj, hdown, rfl⟩
      · cases hnil
      · rw [List.append_nil]
        exact ⟨b, _, pj, _, tail, h.exec_cleanup_job hcj hdown hexec⟩
    · rw [hc] at hcode
      obtain ⟨rfl, rfl⟩ := List.cons.inj hcode
      have hmild' : ∀ e ∈ World.outliers v c.world.leaders,
          Joined c e.pair ∧ Undecided c e.pair := by
        apply hmild.2
        simp [Config.next, hc, Instr.collects]
      have hcalm' : safe → ∀ e ∈ World.outliers v c.world.leaders, Idle c e.pair := by
        intro hs
        apply (hcalm hs).2
        simp [Config.next, hc, Instr.collects]
      obtain ⟨ps, hinv⟩ := h.exec_collect hc hmild' hcalm' hexec
      exact ⟨b, _, pj, ps, tail, hinv⟩

-- ============================================================================
-- Moves of the environment
-- ============================================================================

/-- Every entry of a batch carries an endpoint that is registered and not
    closed. -/
theorem entries_io (h : Inv safe c b d pj cj tail) {batch : List (Nat × Events)} {is : List Instr}
    (he : entries c.world.kernel batch = some is) : IoList c.world (marks b d) is := by
  intro i hi
  obtain ⟨entry, -, r, hr, rfl⟩ := mem_entries he hi
  obtain ⟨-, hreg, hcl⟩ := h.world.table.sound _ r hr
  have ho := h.ages.ordered
  refine ⟨r.ptr, rfl, hreg, Or.inl ?_⟩
  intro hp
  exact hcl (ho.removed_closed (ho.pended_removed hp))

/-- The poll thread with nothing to do. -/
theorem poll_nil (h : Inv safe c b d pj cj tail) (hp : c.code .poll = []) : pj = [] ∧ tail = [] := by
  have hpoll := h.poll
  rw [hp] at hpoll
  obtain ⟨hjobs, htail⟩ := List.append_eq_nil_iff.mp hpoll.symm
  refine ⟨?_, htail⟩
  cases pj with
  | nil => rfl
  | cons p ps =>
    obtain ⟨h1, h14⟩ := (h.active p).mp List.mem_cons_self
    exact absurd (List.append_eq_nil_iff.mp hjobs).1 (downCode_ne_nil h1 h14)

theorem wait_step {batch : List (Nat × Events)} (h : Inv safe c b d pj cj tail)
    (hs : step (.wait batch) c = some c') : ∃ tail', Inv safe c' b d [] cj tail' := by
  simp only [step] at hs
  split at hs
  · rename_i hguard
    obtain ⟨is, his, rfl⟩ := Option.map_eq_some_iff.mp hs
    obtain ⟨rfl, rfl⟩ := h.poll_nil hguard.2.1
    have hio := h.entries_io his
    have hw : WorldInv c.world (marks b d) (drops (is ++ [.swapPending])) :=
      hio.drops ▸ h.world
    refine ⟨_, h.with_tail hw rfl (Tail.events is hio) ?_ ?_⟩
    · rw [hio.drops]
      intro x hx
      cases hx
    · intro hs q hq hd
      rcases h.held hs q hq hd with hk | hk
      · exact Or.inl hk
      · cases hk
  · cases hs

theorem tieFd_step {key : Key} {fd1 fd2 : Nat} (h : Inv safe c b d pj cj tail)
    (hs : step (.tieFd key fd1 fd2) c = some c') : Inv safe c' b d pj cj tail := by
  simp only [step] at hs
  split at hs
  · rename_i hguard
    obtain ⟨-, h1, h2, hne⟩ := hguard
    obtain rfl := Option.some.inj hs
    have ha := h.ages
    have hb0 : b c.world.pairs = 0 := by
      by_contra hb
      exact absurd (ha.born c.world.pairs (by omega)) (Nat.lt_irrefl _)
    have hd0 : d c.world.pairs = 0 := by
      by_contra hd
      have hbuilt := ha.built c.world.pairs (by omega)
      omega
    have hworld : WorldInv (c.world.newPair fd1 fd2) (marks b d) (drops tail) := by
      apply h.world.newPair_step ha.ordered h1 h2 hne
      · rintro ⟨p, s⟩ hx
        simp only [marks, mem_past] at hx ⊢
        cases s <;> simp only [Side.readyAt, Side.tieAt] at * <;> omega
      · rintro ⟨p, s⟩ rfl hx
        simp only [marks, mem_past, hd0] at hx
        cases s <;> cases hx
      · intro e he
        have hp := h.dropped e he
        exact h.world.born e (ha.ordered.taken_tied (ha.ordered.pended_taken hp))
    refine ⟨hworld, ⟨ha.built_le, ha.down_le, ha.built, ?_⟩, ?_, ?_, h.poll, ?_, h.dropped,
      h.cleanup, h.nodup, h.active, h.held, h.returned⟩
    · intro p hp
      exact Nat.lt_succ_of_lt (ha.born p hp)
    · intro p hp
      show ∃ key, (c.load (.worker c.world.pairs) _).code (.worker p) = _
      by_cases hpp : p = c.world.pairs
      · subst hpp
        refine ⟨key, ?_⟩
        rw [Threads.load_code_self, hb0]
        rfl
      · rw [Threads.load_code_of_ne _ (by simpa using hpp)]
        exact h.workers p (Nat.lt_of_le_of_ne (Nat.le_of_lt_succ hp) hpp)
    · intro p hp
      have hp' : c.world.pairs + 1 ≤ p := hp
      show (c.load (.worker c.world.pairs) _).code (.worker p) = _
      rw [Threads.load_code_of_ne _ (by simp; omega)]
      exact h.free p (Nat.le_of_succ_le hp')
    · exact h.shape.mono (Set.Subset.refl _) fun e he => he
  · cases hs

/-- The cleanup thread with nothing to do. -/
theorem cleanup_nil (h : Inv safe c b d pj cj tail) (hc : c.code .cleanup = []) : cj = [] := by
  rcases h.cleanup with hcode | ⟨rfl, -⟩
  · cases cj with
    | nil => rfl
    | cons p ps =>
      obtain ⟨h1, h14⟩ := (h.active p).mp (by simp)
      rw [hc] at hcode
      exact absurd (List.append_eq_nil_iff.mp hcode.symm).1 (downCode_ne_nil h1 h14)
  · rfl

theorem cleanup_step {valid : List Key} (h : Inv safe c b d pj cj tail)
    (hs : step (.cleanup valid) c = some c') : Inv safe c' b d pj [] tail := by
  simp only [step] at hs
  split at hs
  · rename_i hguard
    obtain rfl := Option.some.inj hs
    obtain rfl := h.cleanup_nil hguard.2
    refine ⟨h.world, h.ages, h.workers, h.free, h.poll, h.shape, h.dropped,
      Or.inr ⟨rfl, valid, ?_⟩, h.nodup, h.active, h.held, h.returned⟩
    exact Threads.load_code_self _
  · cases hs

theorem step (h : Inv safe c b d pj cj tail) {a : Act} (hmild : Mild c a)
    (hcalm : safe → Calm c a) (hdrop : safe → DropOk c a) (hs : step a c = some c') :
    ∃ b' d' pj' cj' tail', Inv safe c' b' d' pj' cj' tail' := by
  cases a with
  | exec t o => exact h.exec_step hmild hcalm hdrop hs
  | wait batch =>
    obtain ⟨tail', hinv⟩ := h.wait_step hs
    exact ⟨_, _, _, _, _, hinv⟩
  | tieFd key fd1 fd2 => exact ⟨_, _, _, _, _, h.tieFd_step hs⟩
  | cleanup valid => exact ⟨_, _, _, _, _, h.cleanup_step hs⟩
  | grab fd =>
    simp only [Proxy.step] at hs
    split at hs
    · rename_i hguard
      obtain rfl := Option.some.inj hs
      exact ⟨b, d, pj, cj, tail, h.world.grab_step hguard.2, h.ages, h.workers, h.free, h.poll,
        h.shape.mono (Set.Subset.refl _) fun e he => he, h.dropped, h.cleanup, h.nodup, h.active,
        h.held, h.returned⟩
    · cases hs
  | giveBack fd =>
    simp only [Proxy.step] at hs
    split at hs
    · rename_i hguard
      obtain rfl := Option.some.inj hs
      exact ⟨b, d, pj, cj, tail, h.world.giveBack_step h.ages.ordered hguard.2, h.ages, h.workers,
        h.free, h.poll, h.shape.mono (Set.Subset.refl _) fun e he => he, h.dropped, h.cleanup,
        h.nodup, h.active, h.held, h.returned⟩
    · cases hs

end Inv

/-- In every run that shuts a pair down at most once, and only after `ep1->ready()`,
    the threads are where the ages say. -/
theorem mild_run (safe : Prop) {allowed : Config → Act → Prop} {c : Config}
    (hmild : ∀ c a, allowed c a → Mild c a)
    (hsafe : safe → ∀ c a, allowed c a → Calm c a ∧ DropOk c a) (h : Run allowed c) :
    ∃ b d pj cj tail, Inv safe c b d pj cj tail := by
  refine Lib.Reach.invariant (I := fun c => ∃ b d pj cj tail, Inv safe c b d pj cj tail) ?_ ?_ h
  · rintro _ rfl
    exact ⟨_, _, _, _, _, Inv.start⟩
  · rintro s s' - ⟨b, d, pj, cj, tail, hinv⟩ ⟨a, ha, hstep⟩
    exact hinv.step (hmild s a ha) (fun hs => (hsafe hs s a ha).1) (fun hs => (hsafe hs s a ha).2)
      hstep

end VncProxy.Proxy
