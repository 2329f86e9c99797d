/-
  VncProxy.Proxy.Atomic

  Calls that run to their end with nothing in between.  Taken so, `shutdown` of a
  leader is one step of the shared state (`World.down`), and `cleanup` is one such
  step for each of the pairs it has collected.
-/
import VncProxy.Proxy.Filed

namespace VncProxy.Proxy

open Lib (Completes completes_cons completes_cons_iff completes_append completes_nil)
open Polling

instance : Nonempty Oracle := ⟨Oracle.idle⟩

-- ============================================================================
-- shutdown
-- ============================================================================

namespace World

variable (w : World) (e : Ep)

/-- After `PollThread::remove`. -/
def left : World := if e ∈ w.thread.pollSet then (w.removed e).pended e else w

/-- After `shutdown` of one endpoint, up to the part for the leader. -/
def half : World := ((w.emit [.shutdown e]).closed e).left e

/-- After `shutdown` of the leader of pair `p`. -/
def down (p : Nat) : World :=
  ((((w.half ⟨p, .first⟩).half ⟨p, .second⟩).released ⟨p, .second⟩).forgotten
    ⟨p, .first⟩).released ⟨p, .first⟩

/-- The checks of `remove` go through. -/
def Removable : Prop := e ∈ w.thread.pollSet ↔ w.thread.mode (w.ep e).fd ≠ none

section Fields

variable {w e} (x : Ep)

@[simp] theorem left_ep : (w.left e).ep = w.ep := by
  unfold left
  split <;> rfl

@[simp] theorem left_pairs : (w.left e).pairs = w.pairs := by
  unfold left
  split <;> rfl

@[simp] theorem left_leaders : (w.left e).leaders = w.leaders := by
  unfold left
  split <;> rfl

@[simp] theorem left_kernel : (w.left e).kernel = w.kernel := by
  unfold left
  split <;> rfl

@[simp] theorem left_trace : (w.left e).trace = w.trace := by
  unfold left
  split <;> rfl

@[simp] theorem left_pollSet : (w.left e).thread.pollSet = w.thread.pollSet.erase e := by
  unfold left
  split
  · rfl
  · rename_i hin
    rw [List.erase_of_not_mem hin]

theorem left_mode (h : w.Removable e) :
    (w.left e).thread.mode = Function.update w.thread.mode (w.ep e).fd none := by
  unfold left
  split
  · rfl
  · rename_i hin
    have hnone : w.thread.mode (w.ep e).fd = none := by
      by_contra hsome
      exact hin (h.mpr hsome)
    rw [← hnone, Function.update_eq_self]

theorem left_pending {y : Ep} (h : y ∈ (w.left e).thread.pendingRemove) :
    y = e ∨ y ∈ w.thread.pendingRemove := by
  unfold left at h
  split at h
  · exact List.mem_insert_iff.mp h
  · exact Or.inr h

@[simp] theorem half_ep : (w.half e).ep = w.ep := by simp [half]
@[simp] theorem half_pairs : (w.half e).pairs = w.pairs := by simp [half]
@[simp] theorem half_leaders : (w.half e).leaders = w.leaders := by simp [half]

@[simp] theorem half_desc : (w.half e).kernel.desc =
    Function.update w.kernel.desc (w.ep e).fd .closed := by
  simp [half]

@[simp] theorem half_table : (w.half e).kernel.table =
    Function.update w.kernel.table (w.ep e).fd none := by
  simp [half]

@[simp] theorem half_trace :
    (w.half e).trace = w.trace ++ [.shutdown e, .close e (w.ep e).fd] := by
  simp [half]

@[simp] theorem half_pollSet : (w.half e).thread.pollSet = w.thread.pollSet.erase e := by
  simp [half]

theorem half_mode (h : w.Removable e) :
    (w.half e).thread.mode = Function.update w.thread.mode (w.ep e).fd none := by
  unfold half
  exact left_mode h

theorem half_pending {y : Ep} (h : y ∈ (w.half e).thread.pendingRemove) :
    y = e ∨ y ∈ w.thread.pendingRemove := by
  exact left_pending (w := (w.emit [.shutdown e]).closed e) h

end Fields

end World

section Shutdown

variable {w w' : World} {e : Ep} {rest : List Instr}

/-- A section that neither fails nor branches. -/
theorem completes_plain {i : Instr} {w₀ : World} {pre₀ : List Instr}
    (h : ∀ o, exec o w i = some (w₀, pre₀)) :
    Completes exec (i :: rest) w w' ↔ Completes exec (pre₀ ++ rest) w₀ w' := by
  have hexec : ∀ o w₁ pre,
      exec o w i = some (w₁, pre) ↔ True ∧ w₁ = w₀ ∧ pre = pre₀ := by
    intro o w₁ pre
    rw [h o]
    simp [eq_comm]
  rw [completes_cons_iff hexec, true_and]

theorem completes_remove : Completes exec (.remove e :: rest) w w' ↔
    w.Removable e ∧ Completes exec rest (w.left e) w' := by
  have hexec : ∀ o, exec o (w.removed e) (.pend e) = some ((w.removed e).pended e, []) :=
    fun _ => rfl
  have hpend : Completes exec (.pend e :: rest) (w.removed e) w' ↔
      Completes exec rest ((w.removed e).pended e) w' := completes_plain hexec
  rw [completes_cons]
  unfold World.Removable World.left
  constructor
  · rintro ⟨o, w₁, pre, hexec, hrest⟩
    rcases exec_remove.mp hexec with ⟨hin, hmode, rfl, rfl⟩ | ⟨hout, hmode, rfl, rfl⟩
    · rw [if_pos hin]
      exact ⟨iff_of_true hin hmode, hpend.mp hrest⟩
    · rw [if_neg hout]
      exact ⟨iff_of_false hout (not_not.mpr hmode), hrest⟩
  · rintro ⟨hok, hrest⟩
    by_cases hin : e ∈ w.thread.pollSet
    · rw [if_pos hin] at hrest
      exact ⟨.idle, _, _, exec_remove.mpr (Or.inl ⟨hin, hok.mp hin, rfl, rfl⟩), hpend.mpr hrest⟩
    · rw [if_neg hin] at hrest
      refine ⟨.idle, _, _, exec_remove.mpr (Or.inr ⟨hin, ?_, rfl, rfl⟩), hrest⟩
      by_contra hmode
      exact hin (hok.mpr hmode)

theorem completes_release : Completes exec (.release e :: rest) w w' ↔
    1 ≤ (w.ep e).refcnt ∧ Completes exec rest (w.released e) w' :=
  completes_cons_iff fun _ _ _ => exec_release

/-- `shutdown` of one endpoint, up to the part for the leader. -/
theorem completes_half : Completes exec (.shutdown e :: rest) w w' ↔
    w.Removable e ∧ Completes exec (.leaderPart e :: .release e :: rest) (w.half e) w' := by
  have hbegin : ∀ o, exec o w (.shutdown e) =
      some (w.emit [.shutdown e], [.close e, .remove e, .leaderPart e, .release e]) := fun _ => rfl
  have hclose : ∀ o, exec o (w.emit [.shutdown e]) (.close e) =
      some ((w.emit [.shutdown e]).closed e, []) := fun _ => rfl
  rw [completes_plain hbegin, List.cons_append, completes_plain hclose, List.nil_append,
    List.cons_append, completes_remove]
  rfl

/-- The whole `shutdown` of a leader. -/
theorem completes_down {p : Nat} (hlead : (w.ep ⟨p, .first⟩).leader = true)
    (hpeer : (w.ep ⟨p, .first⟩).peer = some ⟨p, .second⟩)
    (hfollow : (w.ep ⟨p, .second⟩).leader = false) :
    Completes exec (.shutdown ⟨p, .first⟩ :: rest) w w' ↔
      w.Removable ⟨p, .first⟩ ∧ (w.half ⟨p, .first⟩).Removable ⟨p, .second⟩ ∧
        1 ≤ (w.ep ⟨p, .second⟩).refcnt ∧ 1 ≤ (w.ep ⟨p, .first⟩).refcnt ∧
          Completes exec rest (w.down p) w' := by
  have hfirst : ∀ o, exec o (w.half ⟨p, .first⟩) (.leaderPart ⟨p, .first⟩) =
      some (w.half ⟨p, .first⟩,
        [.shutdown ⟨p, .second⟩, .eraseLeader ⟨p, .first⟩, .logShutdown ⟨p, .first⟩]) := by
    intro o
    simp [exec, hlead, hpeer]
  have hsecond : ∀ o, exec o ((w.half ⟨p, .first⟩).half ⟨p, .second⟩) (.leaderPart ⟨p, .second⟩) =
      some ((w.half ⟨p, .first⟩).half ⟨p, .second⟩, []) := by
    intro o
    simp [exec, hfollow]
  have herase : ∀ v o, exec o v (.eraseLeader ⟨p, .first⟩) =
      some (v.forgotten ⟨p, .first⟩, []) := fun _ _ => rfl
  have hlog : ∀ v o, (v.ep ⟨p, .first⟩).peer = some ⟨p, .second⟩ →
      exec o v (.logShutdown ⟨p, .first⟩) = some (v, []) := by
    intro v o hv
    simp [exec, hv]
  have hpeer' : (((((w.half ⟨p, .first⟩).half ⟨p, .second⟩).released
      ⟨p, .second⟩).forgotten ⟨p, .first⟩).ep ⟨p, .first⟩).peer = some ⟨p, .second⟩ := by
    simp [World.released_ep, hpeer]
  rw [completes_half, completes_plain hfirst, List.cons_append, completes_half,
    completes_plain hsecond, List.nil_append, completes_release, List.cons_append,
    completes_plain (herase _), List.nil_append, List.cons_append,
    completes_plain fun o => hlog _ o hpeer', List.nil_append, List.nil_append, completes_release]
  simp [World.down, World.released_ep]

end Shutdown

-- ============================================================================
-- The state after shutdown
-- ============================================================================

namespace World

section Down

variable {w : World} {p : Nat}

@[simp] theorem down_pairs : (w.down p).pairs = w.pairs := by simp [down]

theorem down_ep (x : Ep) : (w.down p).ep x =
    if x.pair = p then { w.ep x with refcnt := (w.ep x).refcnt - 1 } else w.ep x := by
  obtain ⟨q, s⟩ := x
  unfold down
  rw [released_ep, forgotten_ep, released_ep, released_ep, half_ep, half_ep]
  by_cases hq : q = p
  · subst hq
    cases s <;> simp
  · simp [hq]

theorem down_leaders : (w.down p).leaders =
    eraseLeader (w.key ⟨p, .first⟩) ⟨p, .first⟩ w.leaders := by
  simp [down, forgotten, released_ep, key]

theorem down_trace : (w.down p).trace = w.trace ++
    [.shutdown ⟨p, .first⟩, .close ⟨p, .first⟩ (w.fd ⟨p, .first⟩),
      .shutdown ⟨p, .second⟩, .close ⟨p, .second⟩ (w.fd ⟨p, .second⟩)] := by
  simp [down, fd]

theorem down_desc : (w.down p).kernel.desc = Function.update
    (Function.update w.kernel.desc (w.fd ⟨p, .first⟩) .closed) (w.fd ⟨p, .second⟩) .closed := by
  simp [down, fd]

theorem down_table : (w.down p).kernel.table = Function.update
    (Function.update w.kernel.table (w.fd ⟨p, .first⟩) none) (w.fd ⟨p, .second⟩) none := by
  simp [down, fd]

theorem down_pollSet : (w.down p).thread.pollSet =
    (w.thread.pollSet.erase ⟨p, .first⟩).erase ⟨p, .second⟩ := by
  simp [down]

theorem down_mode (hfirst : w.Removable ⟨p, .first⟩)
    (hsecond : (w.half ⟨p, .first⟩).Removable ⟨p, .second⟩) : (w.down p).thread.mode =
      Function.update (Function.update w.thread.mode (w.fd ⟨p, .first⟩) none)
        (w.fd ⟨p, .second⟩) none := by
  have hmode : (w.down p).thread.mode =
      ((w.half ⟨p, .first⟩).half ⟨p, .second⟩).thread.mode := rfl
  rw [hmode, half_mode hsecond, half_mode hfirst, half_ep]
  rfl

theorem down_pending {x : Ep} (h : x ∈ (w.down p).thread.pendingRemove) :
    x.pair = p ∨ x ∈ w.thread.pendingRemove := by
  rcases half_pending (w := w.half ⟨p, .first⟩) (e := ⟨p, .second⟩) h with rfl | h
  · exact Or.inl rfl
  · rcases half_pending h with rfl | h
    · exact Or.inl rfl
    · exact Or.inr h

theorem down_fd : (w.down p).fd = w.fd := by
  funext x
  unfold fd
  rw [down_ep]
  split <;> rfl

theorem down_key : (w.down p).key = w.key := by
  funext x
  unfold key
  rw [down_ep]
  split <;> rfl

theorem down_closes (x : Ep) : (w.down p).trace.countP (Event.closes x) =
    w.trace.countP (Event.closes x) + if x.pair = p then 1 else 0 := by
  obtain ⟨q, s⟩ := x
  rw [down_trace, List.countP_append]
  congr 1
  by_cases hq : q = p
  · subst hq
    cases s <;> simp [Event.closes]
  · have hne : p ≠ q := fun h => hq h.symm
    simp [Event.closes, hq, hne]

end Down

/-- The leader of pair `p` is in the registry. -/
def Listed (w : World) (p : Nat) : Prop := ∃ k, (k, (⟨p, .first⟩ : Ep)) ∈ w.leaders

end World

-- ============================================================================
-- Between two calls
-- ============================================================================

theorem SetInv.erase {fd : Ep → Nat} {pollSet : List Ep} {mode : Nat → Option Mode}
    {added removed : Set Ep} {e : Ep} (h : SetInv fd pollSet mode added removed)
    (hok : e ∈ pollSet ↔ mode (fd e) ≠ none) :
    SetInv fd (pollSet.erase e) (Function.update mode (fd e) none) added (insert e removed) := by
  by_cases hin : e ∈ pollSet
  · exact h.remove hin
  · have hnone : mode (fd e) = none := by
      by_contra hmode
      exact hin (hok.mpr hmode)
    have hmode : Function.update mode (fd e) none = mode := by
      rw [← hnone, Function.update_eq_self]
    rw [List.erase_of_not_mem hin, hmode]
    refine ⟨?_, h.nodup, h.mode, h.distinct⟩
    intro x
    rw [h.mem, Set.mem_insert_iff, not_or]
    constructor
    · rintro ⟨hadd, hrem⟩
      refine ⟨hadd, ?_, hrem⟩
      rintro rfl
      exact hin ((h.mem x).mpr ⟨hadd, hrem⟩)
    · rintro ⟨hadd, -, hrem⟩
      exact ⟨hadd, hrem⟩

/-- What holds between two calls: a pair is in the registry exactly as long as both its
    endpoints are polled, and then it has not been closed and nobody has dropped it. -/
structure Tidy (w : World) : Prop where
  flow : Flow w
  tied : ∀ e, e.pair < w.pairs →
    (w.ep e).peer = some e.other ∧ ((w.ep e).leader = true ↔ e.side = .first)
  entry : ∀ k e, (k, e) ∈ w.leaders → e.side = .first ∧ e.pair < w.pairs ∧ k = w.key e
  nodup : w.leaders.Nodup
  set : SetInv w.fd w.thread.pollSet w.thread.mode {e | w.Listed e.pair} ∅
  desc : ∀ e, w.Listed e.pair → w.kernel.desc (w.fd e) = .tied e
  refs : ∀ e, w.Listed e.pair → 2 ≤ (w.ep e).refcnt
  pending : ∀ e ∈ w.thread.pendingRemove, e.pair < w.pairs ∧ ¬ w.Listed e.pair
  unclosed : ∀ e, w.pairs ≤ e.pair ∨ w.Listed e.pair → w.trace.countP (Event.closes e) = 0

namespace Tidy

variable {w w' : World} {p : Nat}

theorem start : Tidy World.start := by
  have hlisted : ∀ q, ¬ World.start.Listed q := by
    rintro q ⟨k, hk⟩
    cases hk
  refine ⟨Flow.start, fun e he => absurd he (Nat.not_lt_zero _), ?_, List.nodup_nil,
    ⟨?_, List.nodup_nil, ?_, ?_⟩, fun e he => absurd he (hlisted _),
    fun e he => absurd he (hlisted _), ?_, fun e _ => rfl⟩
  · intro k e he
    cases he
  · intro e
    refine ⟨?_, fun he => absurd he.1 (hlisted _)⟩
    intro he
    cases he
  · intro n
    refine ⟨fun hn => absurd rfl hn, ?_⟩
    rintro ⟨e, he, -⟩
    cases he
  · intro e he
    cases he
  · intro e he
    cases he

theorem listed_born (h : Tidy w) (hp : w.Listed p) : p < w.pairs := by
  obtain ⟨k, hk⟩ := hp
  exact (h.entry k _ hk).2.1

theorem polled (h : Tidy w) {e : Ep} (he : w.Listed e.pair) : e ∈ w.thread.pollSet :=
  (h.set.mem e).mpr ⟨he, fun h => h⟩

theorem listed_of_polled (h : Tidy w) {e : Ep} (he : e ∈ w.thread.pollSet) : w.Listed e.pair :=
  ((h.set.mem e).mp he).1

theorem leader_entry (h : Tidy w) (hp : w.Listed p) :
    (w.key ⟨p, .first⟩, (⟨p, .first⟩ : Ep)) ∈ w.leaders := by
  obtain ⟨k, hk⟩ := hp
  rwa [(h.entry k _ hk).2.2] at hk

theorem peers (h : Tidy w) (hp : p < w.pairs) : (w.ep ⟨p, .first⟩).leader = true ∧
    (w.ep ⟨p, .first⟩).peer = some ⟨p, .second⟩ ∧ (w.ep ⟨p, .second⟩).leader = false := by
  refine ⟨(h.tied ⟨p, .first⟩ hp).2.mpr rfl, (h.tied ⟨p, .first⟩ hp).1, ?_⟩
  have hfollow := (h.tied ⟨p, .second⟩ hp).2
  simpa using hfollow

/-- A pair leaves the registry when its leader is shut down, and no other pair
    does. -/
theorem listed_down (h : Tidy w) {q : Nat} : (w.down p).Listed q ↔ w.Listed q ∧ q ≠ p := by
  unfold World.Listed
  simp only [World.down_leaders, World.eraseLeader, h.nodup.mem_erase_iff, ne_eq, Prod.mk.injEq]
  constructor
  · rintro ⟨k, hne, hk⟩
    refine ⟨⟨k, hk⟩, ?_⟩
    rintro rfl
    exact hne ⟨(h.entry k _ hk).2.2, rfl⟩
  · rintro ⟨⟨k, hk⟩, hne⟩
    refine ⟨k, ?_, hk⟩
    rintro ⟨-, heq⟩
    exact hne (congrArg Ep.pair heq)

theorem flow_down (h : Flow w) : Flow (w.down p) := by
  apply h.sameFlow
  refine ⟨World.down_pairs, ?_, ?_, ?_, ?_, ?_, _, World.down_trace, by simp [Event.Silent]⟩ <;>
    intro e <;> rw [World.down_ep] <;> split <;> rfl

theorem set_down (h : Tidy w) (hfirst : w.Removable ⟨p, .first⟩)
    (hsecond : (w.half ⟨p, .first⟩).Removable ⟨p, .second⟩) :
    SetInv w.fd (w.down p).thread.pollSet (w.down p).thread.mode
      {e | w.Listed e.pair} (insert ⟨p, .second⟩ (insert ⟨p, .first⟩ ∅)) := by
  rw [World.down_pollSet, World.down_mode hfirst hsecond]
  apply (h.set.erase hfirst).erase
  have hok := hsecond
  unfold World.Removable at hok
  rw [World.half_pollSet, World.half_mode hfirst, World.half_ep] at hok
  exact hok

/-- The numbers of the pair that is shut down belong to no pair that stays. -/
theorem fd_ne (h : Tidy w) (hfirst : w.Removable ⟨p, .first⟩)
    (hsecond : (w.half ⟨p, .first⟩).Removable ⟨p, .second⟩) {x : Ep} (hx : w.Listed x.pair)
    (hne : x.pair ≠ p) : w.fd x ≠ w.fd ⟨p, .first⟩ ∧ w.fd x ≠ w.fd ⟨p, .second⟩ := by
  have hset := h.set_down hfirst hsecond
  have hin : x ∈ (w.down p).thread.pollSet := by
    rw [hset.mem]
    refine ⟨hx, ?_⟩
    rintro (rfl | rfl | hx)
    · exact hne rfl
    · exact hne rfl
    · exact hx
  have hmode := (hset.mode (w.fd x)).mpr ⟨x, hin, rfl⟩
  rw [World.down_mode hfirst hsecond] at hmode
  constructor <;> intro heq <;> rw [heq] at hmode
  · rw [Function.update_apply] at hmode
    split at hmode
    · exact hmode rfl
    · rw [Function.update_self] at hmode
      exact hmode rfl
  · rw [Function.update_self] at hmode
    exact hmode rfl

/-- `shutdown` of a leader, that of a pair that is gone included. -/
theorem down (h : Tidy w) (hp : p < w.pairs) (hfirst : w.Removable ⟨p, .first⟩)
    (hsecond : (w.half ⟨p, .first⟩).Removable ⟨p, .second⟩) : Tidy (w.down p) := by
  refine ⟨flow_down h.flow, ?_, ?_, ?_, ?_, ?_, ?_, ?_, ?_⟩
  · intro e he
    have htied := h.tied e (by rwa [World.down_pairs] at he)
    rw [World.down_ep]
    split <;> exact htied
  · intro k e hk
    rw [World.down_leaders] at hk
    rw [World.down_pairs, World.down_key]
    exact h.entry k e (List.mem_of_mem_erase hk)
  · rw [World.down_leaders]
    exact h.nodup.erase _
  · have hset := h.set_down hfirst hsecond
    rw [World.down_fd]
    refine ⟨?_, hset.nodup, hset.mode, hset.distinct⟩
    intro x
    rw [hset.mem, Set.mem_ofPred_eq, Set.mem_ofPred_eq, h.listed_down, Set.mem_insert_iff,
      Set.mem_insert_iff]
    obtain ⟨q, s⟩ := x
    cases s <;> simp
  · intro e he
    obtain ⟨hlisted, hne⟩ := h.listed_down.mp he
    obtain ⟨h1, h2⟩ := h.fd_ne hfirst hsecond hlisted hne
    rw [World.down_fd, World.down_desc, Function.update_of_ne h2, Function.update_of_ne h1]
    exact h.desc e hlisted
  · intro e he
    obtain ⟨hlisted, hne⟩ := h.listed_down.mp he
    rw [World.down_ep, if_neg hne]
    exact h.refs e hlisted
  · intro e he
    rw [World.down_pairs, h.listed_down]
    rcases World.down_pending he with heq | hpend
    · exact ⟨heq ▸ hp, fun hlisted => hlisted.2 heq⟩
    · obtain ⟨hborn, hgone⟩ := h.pending e hpend
      exact ⟨hborn, fun hlisted => hgone hlisted.1⟩
  · intro e he
    have hne : e.pair ≠ p := by
      rintro rfl
      rcases he with hborn | hlisted
      · rw [World.down_pairs] at hborn
        exact Nat.not_le_of_lt hp hborn
      · exact (h.listed_down.mp hlisted).2 rfl
    rw [World.down_closes, if_neg hne, h.unclosed e]
    rcases he with hborn | hlisted
    · exact Or.inl (by rwa [World.down_pairs] at hborn)
    · exact Or.inr (h.listed_down.mp hlisted).1

/-- The `shutdown` of a pair that is in the registry goes through. -/
theorem removable (h : Tidy w) (hp : w.Listed p) :
    w.Removable ⟨p, .first⟩ ∧ (w.half ⟨p, .first⟩).Removable ⟨p, .second⟩ := by
  have hin1 : (⟨p, .first⟩ : Ep) ∈ w.thread.pollSet := h.polled hp
  have hin2 : (⟨p, .second⟩ : Ep) ∈ w.thread.pollSet := h.polled hp
  have hmode1 := (h.set.mode (w.fd ⟨p, .first⟩)).mpr ⟨_, hin1, rfl⟩
  have hmode2 := (h.set.mode (w.fd ⟨p, .second⟩)).mpr ⟨_, hin2, rfl⟩
  have hfirst : w.Removable ⟨p, .first⟩ := iff_of_true hin1 hmode1
  have hfd : w.fd ⟨p, .second⟩ ≠ w.fd ⟨p, .first⟩ := by
    intro heq
    cases h.set.distinct _ hin2 _ hin1 heq
  refine ⟨hfirst, iff_of_true ?_ ?_⟩
  · rw [World.half_pollSet]
    exact (List.mem_erase_of_ne (by simp)).mpr hin2
  · rw [World.half_mode hfirst, World.half_ep]
    show Function.update w.thread.mode (w.fd ⟨p, .first⟩) none (w.fd ⟨p, .second⟩) ≠ none
    rwa [Function.update_of_ne hfd]

theorem completes_shutdown (h : Tidy w) (hp : p < w.pairs) {rest : List Instr} :
    Completes exec (.shutdown ⟨p, .first⟩ :: rest) w w' ↔
      w.Removable ⟨p, .first⟩ ∧ (w.half ⟨p, .first⟩).Removable ⟨p, .second⟩ ∧
        1 ≤ (w.ep ⟨p, .second⟩).refcnt ∧ 1 ≤ (w.ep ⟨p, .first⟩).refcnt ∧
          Completes exec rest (w.down p) w' := by
  obtain ⟨hlead, hpeer, hfollow⟩ := h.peers hp
  exact completes_down hlead hpeer hfollow

end Tidy

end VncProxy.Proxy
