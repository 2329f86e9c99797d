/-
  VncProxy.Proxy.Prune

  `cleanup` closes the pairs whose key is gone and no others.  Calls are taken as
  atomic here; between two of them, whatever has been called so far, the state is
  tidy, so `cleanup` shuts down one pair after the other and each shutdown erases
  the entry of its own pair.
-/
import VncProxy.Proxy.Atomic
import Mathlib.Data.List.Induction

namespace VncProxy.Proxy

open Lib (Completes completes_cons completes_cons_iff completes_append completes_nil)
open Polling

-- ============================================================================
-- Calls that leave the registry alone
-- ============================================================================

/-- The registry and the poll set are as they were, and so are the descriptors and the
    references of the pairs that are listed. -/
structure Keeps (w w' : World) : Prop where
  pairs : w'.pairs = w.pairs
  fields : ∀ e, (w'.ep e).fd = (w.ep e).fd ∧ (w'.ep e).peer = (w.ep e).peer ∧
    (w'.ep e).leader = (w.ep e).leader ∧ (w'.ep e).forwardKey = (w.ep e).forwardKey
  leaders : w'.leaders = w.leaders
  pollSet : w'.thread.pollSet = w.thread.pollSet
  mode : ∀ n, w'.thread.mode n ≠ none ↔ w.thread.mode n ≠ none
  desc : ∀ e, w.Listed e.pair → w'.kernel.desc (w.fd e) = w.kernel.desc (w.fd e)
  refs : ∀ e, w.Listed e.pair → (w'.ep e).refcnt = (w.ep e).refcnt
  pending : ∀ e ∈ w'.thread.pendingRemove, e ∈ w.thread.pendingRemove
  closes : ∀ e, w'.trace.countP (Event.closes e) = w.trace.countP (Event.closes e)

section Keeps

variable {w w' : World} {e : Ep}

theorem Keeps.fd_eq (h : Keeps w w') : w'.fd = w.fd := funext fun e => (h.fields e).1

theorem Keeps.listed (h : Keeps w w') {p : Nat} : w'.Listed p ↔ w.Listed p := by
  unfold World.Listed
  rw [h.leaders]

theorem Keeps.trans {w'' : World} (h : Keeps w w') (h' : Keeps w' w'') : Keeps w w'' := by
  refine ⟨h'.pairs.trans h.pairs, ?_, h'.leaders.trans h.leaders, h'.pollSet.trans h.pollSet,
    fun n => (h'.mode n).trans (h.mode n), ?_, ?_, fun e he => h.pending e (h'.pending e he),
    fun e => (h'.closes e).trans (h.closes e)⟩
  · intro e
    obtain ⟨h1, h2, h3, h4⟩ := h.fields e
    obtain ⟨h1', h2', h3', h4'⟩ := h'.fields e
    exact ⟨h1'.trans h1, h2'.trans h2, h3'.trans h3, h4'.trans h4⟩
  · intro e he
    have hsecond := h'.desc e (h.listed.mpr he)
    rw [h.fd_eq] at hsecond
    exact hsecond.trans (h.desc e he)
  · intro e he
    exact (h'.refs e (h.listed.mpr he)).trans (h.refs e he)

theorem Keeps.refl (w : World) : Keeps w w :=
  ⟨rfl, fun _ => ⟨rfl, rfl, rfl, rfl⟩, rfl, rfl, fun _ => Iff.rfl, fun _ _ => rfl, fun _ _ => rfl,
    fun _ => id, fun _ => rfl⟩

theorem Tidy.keeps (h : Tidy w) (hk : Keeps w w') (hflow : Flow w') : Tidy w' := by
  have hkey : w'.key = w.key := funext fun e => (hk.fields e).2.2.2
  refine ⟨hflow, ?_, ?_, ?_, ?_, ?_, ?_, ?_, ?_⟩
  · intro e he
    obtain ⟨-, hpeer, hleader, -⟩ := hk.fields e
    rw [hpeer, hleader]
    exact h.tied e (hk.pairs ▸ he)
  · rw [hk.leaders, hk.pairs, hkey]
    exact h.entry
  · rw [hk.leaders]
    exact h.nodup
  · rw [hk.pollSet, hk.fd_eq]
    refine ⟨?_, h.set.nodup, fun n => (hk.mode n).trans (h.set.mode n), h.set.distinct⟩
    intro e
    rw [h.set.mem, Set.mem_ofPred_eq, Set.mem_ofPred_eq, hk.listed]
  · intro e he
    rw [hk.fd_eq, hk.desc e (hk.listed.mp he)]
    exact h.desc e (hk.listed.mp he)
  · intro e he
    rw [hk.refs e (hk.listed.mp he)]
    exact h.refs e (hk.listed.mp he)
  · intro e he
    rw [hk.pairs, hk.listed]
    exact h.pending e (hk.pending e he)
  · intro e he
    rw [hk.pairs, hk.listed] at he
    rw [hk.closes]
    exact h.unclosed e he

theorem keeps_updateMode {newMode : Mode} (h : w.updateMode e newMode = some w') : Keeps w w' := by
  rcases World.updateMode_cases h with ⟨rfl, -⟩ | ⟨oldMode, rfl, -, hold, -⟩
  · exact Keeps.refl _
  · refine ⟨rfl, fun _ => ⟨rfl, rfl, rfl, rfl⟩, rfl, rfl, ?_, fun _ _ => rfl, fun _ _ => rfl,
      fun _ => id, ?_⟩
    · intro n
      show Function.update w.thread.mode (w.ep e).fd (some newMode) n ≠ none ↔ _
      by_cases hn : n = (w.ep e).fd
      · subst hn
        simp [hold]
      · rw [Function.update_of_ne hn]
    · intro x
      show (w.trace ++ [Event.ctl .mod (w.ep e).fd]).countP _ = _
      simp [Event.closes]

theorem keeps_transferred (owner : Ep) (calls : List FdCall) (buf : Marshal) :
    Keeps w (w.transferred e owner calls buf) := by
  refine ⟨rfl, ?_, rfl, rfl, fun _ => Iff.rfl, fun _ _ => rfl, ?_, fun _ => id, ?_⟩
  · intro x
    simp
  · intro x _
    simp
  · intro x
    have hnone : (calls.map (Event.call e (w.ep e).fd)).countP (Event.closes x) = 0 := by
      rw [List.countP_eq_zero]
      intro ev hev
      obtain ⟨c, -, rfl⟩ := List.mem_map.mp hev
      simp [Event.closes]
    rw [World.transferred_trace, List.countP_append, hnone, Nat.add_zero]

theorem keeps_handleRead {offers : List (Option (List Byte))} (hw : Flow w)
    (h : w.handleRead e offers = some w') : Keeps w w' := by
  cases hen : (w.ep e).enabled with
  | false =>
    rw [World.handleRead_disabled hen] at h
    exact Option.some.inj h ▸ Keeps.refl w
  | true =>
    rcases hw.peer e with hpeer | hpeer
    · simp [World.handleRead, hen, hpeer] at h
    obtain ⟨calls, buf, -, heq⟩ := World.handleRead_eq hen hpeer (hw.bufs e.other) offers
    rw [heq] at h
    split at h
    · exact (keeps_transferred _ _ _).trans (keeps_updateMode h)
    · exact Option.some.inj h ▸ keeps_transferred _ _ _

theorem keeps_handleWrite {accepts : List Int} (hw : Flow w)
    (h : w.handleWrite e accepts = some w') : Keeps w w' := by
  cases hen : (w.ep e).enabled with
  | false =>
    rw [World.handleWrite_disabled hen] at h
    exact Option.some.inj h ▸ Keeps.refl w
  | true =>
    obtain ⟨calls, buf, -, heq⟩ := World.handleWrite_eq hen (hw.bufs e) accepts
    rw [heq] at h
    exact (keeps_transferred _ _ _).trans (keeps_updateMode h)

/-- A socket that belongs to no pair is handed out or given back. -/
theorem keeps_kernel (h : Tidy w) {k : Kernel Ep} (hdesc : ∀ n, (∃ e, w.kernel.desc n = .tied e) →
    k.desc n = w.kernel.desc n) : Keeps w { w with kernel := k } := by
  refine ⟨rfl, fun _ => ⟨rfl, rfl, rfl, rfl⟩, rfl, rfl, fun _ => Iff.rfl, ?_, fun _ _ => rfl,
    fun _ => id, fun _ => rfl⟩
  intro e he
  exact hdesc _ ⟨e, h.desc e he⟩

/-- The removal pass drops an endpoint that is not listed any more. -/
theorem keeps_released (he : ¬ w.Listed e.pair) : Keeps w (w.released e) := by
  refine ⟨rfl, ?_, rfl, rfl, fun _ => Iff.rfl, fun _ _ => rfl, ?_, fun _ => id, fun _ => rfl⟩
  · intro x
    rw [World.released_ep]
    split_ifs with hx
    · rw [hx]
      exact ⟨rfl, rfl, rfl, rfl⟩
    · exact ⟨rfl, rfl, rfl, rfl⟩
  · intro x hx
    rw [World.released_ep, if_neg]
    rintro rfl
    exact he hx

end Keeps

-- ============================================================================
-- tie_fd
-- ============================================================================

namespace World

variable (w : World) (e : Ep)

/-- After `PollThread::add`. -/
def joined : World := ((w.refCopy e).added e).registered e

/-- After `tie_fd`. -/
def tiedUp (key : Key) (fd1 fd2 : Nat) : World :=
  (((((w.newPair fd1 fd2).tie ⟨w.pairs, .first⟩ ⟨w.pairs, .second⟩ key).joined
    ⟨w.pairs, .first⟩).joined ⟨w.pairs, .second⟩).ready ⟨w.pairs, .first⟩).ready ⟨w.pairs, .second⟩

section Fields

variable {w e} {key : Key} {fd1 fd2 : Nat}

theorem joined_ep (x : Ep) : (w.joined e).ep x =
    if x = e then { w.ep e with refcnt := (w.ep e).refcnt + 1 } else w.ep x := by
  show (w.refCopy e).ep x = _
  exact refCopy_ep w e x

theorem joined_mode : (w.joined e).thread.mode =
    Function.update w.thread.mode (w.ep e).fd (some pollMode) := by
  show Function.update w.thread.mode ((w.refCopy e).ep e).fd _ = _
  rw [refCopy_ep, if_pos rfl]

/-- The endpoints after `tie_fd`: the two new ones have a reference of their own and one
    of the poll manager. -/
theorem tiedUp_ep (x : Ep) : (w.tiedUp key fd1 fd2).ep x =
    if x = ⟨w.pairs, .first⟩ then
      { EndPoint.new fd1 with
        forwardKey := key, leader := true, peer := some ⟨w.pairs, .second⟩, enabled := true,
        refcnt := 2 }
    else if x = ⟨w.pairs, .second⟩ then
      { EndPoint.new fd2 with
        peer := some ⟨w.pairs, .first⟩, enabled := true, refcnt := 2 }
    else w.ep x := by
  have hne : (⟨w.pairs, .second⟩ : Ep) ≠ ⟨w.pairs, .first⟩ := by simp
  have hne' : (⟨w.pairs, .first⟩ : Ep) ≠ ⟨w.pairs, .second⟩ := by simp
  unfold tiedUp
  by_cases hx : x = ⟨w.pairs, .first⟩
  · subst hx
    simp only [ready_ep, joined_ep, tie_ep _ _ _ hne, newPair_ep, if_true, if_neg hne, if_neg hne']
    rfl
  · by_cases hx' : x = ⟨w.pairs, .second⟩
    · subst hx'
      simp only [ready_ep, joined_ep, tie_ep _ _ _ hne, newPair_ep, if_true, if_neg hne,
        if_neg hne']
      rfl
    · simp only [ready_ep, joined_ep, tie_ep _ _ _ hne, newPair_ep, if_neg hx, if_neg hx']

theorem tiedUp_leaders : (w.tiedUp key fd1 fd2).leaders =
    insertLeader key ⟨w.pairs, .first⟩ w.leaders := by
  show ((w.newPair fd1 fd2).tie _ _ key).leaders = _
  rw [tie_entries, newPair_leaders]

theorem tiedUp_desc : (w.tiedUp key fd1 fd2).kernel.desc = Function.update
    (Function.update w.kernel.desc fd1 (.tied ⟨w.pairs, .first⟩)) fd2
      (.tied ⟨w.pairs, .second⟩) := rfl

theorem tiedUp_pairs : (w.tiedUp key fd1 fd2).pairs = w.pairs + 1 := rfl

theorem tiedUp_pollSet : (w.tiedUp key fd1 fd2).thread.pollSet =
    ⟨w.pairs, .second⟩ :: ⟨w.pairs, .first⟩ :: w.thread.pollSet := rfl

theorem tiedUp_pending : (w.tiedUp key fd1 fd2).thread.pendingRemove = w.thread.pendingRemove :=
  rfl

theorem tiedUp_mode : (w.tiedUp key fd1 fd2).thread.mode =
    Function.update (Function.update w.thread.mode fd1 (some pollMode)) fd2 (some pollMode) := by
  have hne : (⟨w.pairs, .second⟩ : Ep) ≠ ⟨w.pairs, .first⟩ := by simp
  have hfd1 : (((w.newPair fd1 fd2).tie ⟨w.pairs, .first⟩ ⟨w.pairs, .second⟩ key).ep
      ⟨w.pairs, .first⟩).fd = fd1 := by
    rw [tie_ep _ _ _ hne, if_pos rfl, newPair_ep, if_pos rfl]
    rfl
  have hfd2 : (((w.newPair fd1 fd2).tie ⟨w.pairs, .first⟩ ⟨w.pairs, .second⟩ key).ep
      ⟨w.pairs, .second⟩).fd = fd2 := by
    rw [tie_ep _ _ _ hne, if_neg hne, if_pos rfl, newPair_ep, if_neg hne, if_pos rfl]
    rfl
  unfold tiedUp
  rw [ready_thread, ready_thread, joined_mode, joined_mode, joined_ep, if_neg hne, hfd1, hfd2,
    tie_thread, newPair_thread]

theorem tiedUp_closes (x : Ep) : (w.tiedUp key fd1 fd2).trace.countP (Event.closes x) =
    w.trace.countP (Event.closes x) := by
  show (((w.trace ++ [_]) ++ [_]) : List Event).countP _ = _
  simp [Event.closes]

theorem tiedUp_old {x : Ep} (hx : x.pair < w.pairs) :
    (w.tiedUp key fd1 fd2).ep x = w.ep x := by
  have hne : x.pair ≠ w.pairs := Nat.ne_of_lt hx
  rw [tiedUp_ep, if_neg (fun h => hne (congrArg Ep.pair h)),
    if_neg (fun h => hne (congrArg Ep.pair h))]

end Fields

end World

section Tie

variable {w w' : World} {e : Ep} {rest : List Instr} {key : Key} {fd1 fd2 : Nat}

theorem completes_join (h : Completes exec (.refCopy e :: .add e :: .epollAdd e :: rest) w w') :
    e ∉ w.thread.pollSet ∧ w.thread.mode (w.ep e).fd = none ∧
      Completes exec rest (w.joined e) w' := by
  have hcopy : ∀ o, exec o w (.refCopy e) = some (w.refCopy e, []) := fun _ => rfl
  rw [completes_plain hcopy, List.nil_append, completes_cons] at h
  obtain ⟨o, w₁, pre, hadd, h⟩ := h
  obtain ⟨hin, hmode, rfl, rfl⟩ := exec_add.mp hadd
  rw [List.nil_append, completes_cons] at h
  obtain ⟨o, w₂, pre, hepoll, h⟩ := h
  obtain ⟨-, -, rfl, rfl⟩ := exec_epollAdd.mp hepoll
  rw [World.refCopy_ep, if_pos rfl] at hmode
  exact ⟨hin, hmode, h⟩

theorem completes_tieFd (hne : fd1 ≠ fd2)
    (h : Completes exec (tieFd w.pairs key) (w.newPair fd1 fd2) w') :
    w.thread.mode fd1 = none ∧ w.thread.mode fd2 = none ∧ w' = w.tiedUp key fd1 fd2 := by
  have htie : ∀ o, exec o (w.newPair fd1 fd2) (.tie ⟨w.pairs, .first⟩ ⟨w.pairs, .second⟩ key) =
      some ((w.newPair fd1 fd2).tie ⟨w.pairs, .first⟩ ⟨w.pairs, .second⟩ key, []) := fun _ => rfl
  have hready : ∀ v x o, exec o v (.ready x) = some (v.ready x, []) := fun _ _ _ => rfl
  unfold tieFd at h
  rw [completes_plain htie, List.nil_append] at h
  obtain ⟨-, hmode1, h⟩ := completes_join h
  obtain ⟨-, hmode2, h⟩ := completes_join h
  rw [completes_plain (hready _ _), List.nil_append, completes_plain (hready _ _), List.nil_append,
    completes_nil] at h
  have hside : (⟨w.pairs, .second⟩ : Ep) ≠ ⟨w.pairs, .first⟩ := by simp
  rw [World.joined_mode, World.joined_ep, if_neg hside] at hmode2
  simp only [World.tie_ep _ _ _ hside, World.newPair_ep, if_true, if_neg hside] at hmode1 hmode2
  refine ⟨hmode1, ?_, h⟩
  rwa [Function.update_of_ne (show (EndPoint.new fd2).fd ≠ (EndPoint.new fd1).fd from hne.symm)]
    at hmode2

theorem tiedUp_listed {p : Nat} :
    (w.tiedUp key fd1 fd2).Listed p ↔ p = w.pairs ∨ w.Listed p := by
  unfold World.Listed
  simp only [World.tiedUp_leaders, World.insertLeader, List.mem_orderedInsert, Prod.mk.injEq,
    Ep.mk.injEq, and_true]
  constructor
  · rintro ⟨k, ⟨-, rfl⟩ | hk⟩
    · exact Or.inl rfl
    · exact Or.inr ⟨k, hk⟩
  · rintro (rfl | ⟨k, hk⟩)
    · exact ⟨key, Or.inl ⟨rfl, rfl⟩⟩
    · exact ⟨k, Or.inr hk⟩

theorem tiedUp_fd : (w.tiedUp key fd1 fd2).fd ⟨w.pairs, .first⟩ = fd1 ∧
    (w.tiedUp key fd1 fd2).fd ⟨w.pairs, .second⟩ = fd2 := by
  have hside : (⟨w.pairs, .second⟩ : Ep) ≠ ⟨w.pairs, .first⟩ := by simp
  unfold World.fd
  rw [World.tiedUp_ep, World.tiedUp_ep, if_pos rfl, if_neg hside, if_pos rfl]
  exact ⟨rfl, rfl⟩

theorem Tidy.set_tiedUp (h : Tidy w) (hne : fd1 ≠ fd2) (hmode1 : w.thread.mode fd1 = none)
    (hmode2 : w.thread.mode fd2 = none) :
    SetInv (w.tiedUp key fd1 fd2).fd (w.tiedUp key fd1 fd2).thread.pollSet
      (w.tiedUp key fd1 fd2).thread.mode {e | (w.tiedUp key fd1 fd2).Listed e.pair} ∅ := by
  obtain ⟨hfd1, hfd2⟩ : (w.tiedUp key fd1 fd2).fd ⟨w.pairs, .first⟩ = fd1 ∧
    (w.tiedUp key fd1 fd2).fd ⟨w.pairs, .second⟩ = fd2 := tiedUp_fd
  have hunlisted : ∀ s, (⟨w.pairs, s⟩ : Ep) ∉ w.thread.pollSet := by
    intro s hs
    exact Nat.lt_irrefl _ (h.listed_born (h.listed_of_polled hs))
  have hlisted : {e : Ep | (w.tiedUp key fd1 fd2).Listed e.pair} =
      insert ⟨w.pairs, .second⟩ (insert ⟨w.pairs, .first⟩ {e | w.Listed e.pair}) := by
    ext ⟨q, s⟩
    rw [Set.mem_ofPred_eq, tiedUp_listed]
    cases s <;> simp
  rw [World.tiedUp_pollSet, World.tiedUp_mode, hlisted]
  generalize hfd : (w.tiedUp key fd1 fd2).fd = fd at hfd1 hfd2
  subst hfd1 hfd2
  have hset : SetInv fd w.thread.pollSet w.thread.mode {e | w.Listed e.pair} ∅ := by
    apply h.set.congr
    intro e he
    rw [← hfd]
    exact congrArg EndPoint.fd (World.tiedUp_old (h.listed_born he))
  apply (hset.add (hunlisted .first) hmode1 (fun h => h) pollMode).add
  · simp [hunlisted]
  · rw [Function.update_of_ne hne.symm, hmode2]
  · exact fun h => h

/-- `tie_fd` lists the new pair and changes nothing about the others. -/
theorem Tidy.tiedUp (h : Tidy w) (hheld1 : w.kernel.desc fd1 = .held)
    (hheld2 : w.kernel.desc fd2 = .held) (hne : fd1 ≠ fd2) (hmode1 : w.thread.mode fd1 = none)
    (hmode2 : w.thread.mode fd2 = none) (hflow : Flow (w.tiedUp key fd1 fd2)) :
    Tidy (w.tiedUp key fd1 fd2) := by
  refine ⟨hflow, ?_, ?_, ?_, h.set_tiedUp hne hmode1 hmode2, ?_, ?_, ?_, ?_⟩
  · rintro ⟨q, s⟩ hq
    rw [World.tiedUp_pairs] at hq
    rcases Nat.lt_succ_iff_lt_or_eq.mp hq with hlt | heq
    · rw [World.tiedUp_old hlt]
      exact h.tied ⟨q, s⟩ hlt
    · obtain rfl : q = w.pairs := heq
      rw [World.tiedUp_ep]
      cases s <;> simp [EndPoint.new, Ep.other, Side.other]
  · intro k e hk
    rw [World.tiedUp_leaders, World.insertLeader, List.mem_orderedInsert] at hk
    unfold World.key
    rcases hk with heq | hk
    · obtain ⟨rfl, rfl⟩ := Prod.mk.inj heq
      refine ⟨rfl, Nat.lt_succ_self _, ?_⟩
      rw [World.tiedUp_ep, if_pos rfl]
    · obtain ⟨hfirst, hborn, hkey⟩ := h.entry k e hk
      refine ⟨hfirst, Nat.lt_succ_of_lt hborn, ?_⟩
      rw [World.tiedUp_old hborn]
      exact hkey
  · rw [World.tiedUp_leaders]
    refine (List.perm_orderedInsert _ _ _).nodup_iff.mpr (List.nodup_cons.mpr ⟨?_, h.nodup⟩)
    intro hk
    exact Nat.lt_irrefl _ (h.entry _ _ hk).2.1
  · rintro ⟨q, s⟩ hq
    rw [World.tiedUp_desc]
    rcases tiedUp_listed.mp hq with heq | hq
    · obtain rfl : q = w.pairs := heq
      cases s
      · rw [tiedUp_fd.1, Function.update_of_ne hne, Function.update_self]
      · rw [tiedUp_fd.2, Function.update_self]
    · have hdesc := h.desc ⟨q, s⟩ hq
      have hfd : (w.tiedUp key fd1 fd2).fd ⟨q, s⟩ = w.fd ⟨q, s⟩ :=
        congrArg EndPoint.fd (World.tiedUp_old (h.listed_born hq))
      have hne1 : w.fd ⟨q, s⟩ ≠ fd1 := by
        rintro heq
        rw [heq, hheld1] at hdesc
        cases hdesc
      have hne2 : w.fd ⟨q, s⟩ ≠ fd2 := by
        rintro heq
        rw [heq, hheld2] at hdesc
        cases hdesc
      rw [hfd, Function.update_of_ne hne2, Function.update_of_ne hne1, hdesc]
  · rintro ⟨q, s⟩ hq
    rcases tiedUp_listed.mp hq with heq | hq
    · obtain rfl : q = w.pairs := heq
      rw [World.tiedUp_ep]
      cases s <;> simp
    · rw [World.tiedUp_old (h.listed_born hq)]
      exact h.refs ⟨q, s⟩ hq
  · intro e he
    rw [World.tiedUp_pending] at he
    obtain ⟨hborn, hgone⟩ := h.pending e he
    rw [World.tiedUp_pairs, tiedUp_listed, not_or]
    exact ⟨Nat.lt_succ_of_lt hborn, Nat.ne_of_lt hborn, hgone⟩
  · intro e he
    rw [World.tiedUp_pairs, tiedUp_listed] at he
    rw [World.tiedUp_closes]
    apply h.unclosed
    rcases he with hborn | heq | hlisted
    · exact Or.inl (Nat.le_of_succ_le hborn)
    · exact Or.inl (Nat.le_of_eq heq.symm)
    · exact Or.inr hlisted

end Tie

-- ============================================================================
-- cleanup
-- ============================================================================

section Prune

variable {w w' : World} {ps : List Nat}

/-- The shutdowns that `cleanup` makes of the pairs it has collected. -/
def shutdowns (ps : List Nat) : List Instr := ps.map fun p => .shutdown ⟨p, .first⟩

/-- Pairs that are listed can be shut down one after the other, and in one way only. -/
theorem Tidy.completes_shutdowns (h : Tidy w) (hps : ps.Nodup) (hlisted : ∀ p ∈ ps, w.Listed p) :
    Completes exec (shutdowns ps) w w' ↔ w' = ps.foldl World.down w := by
  induction ps generalizing w with
  | nil => exact completes_nil
  | cons p ps ih =>
    obtain ⟨hp, hps⟩ := List.nodup_cons.mp hps
    have hlist := hlisted p List.mem_cons_self
    have hborn := h.listed_born hlist
    obtain ⟨hfirst, hsecond⟩ := h.removable hlist
    have href1 := h.refs ⟨p, .first⟩ hlist
    have href2 := h.refs ⟨p, .second⟩ hlist
    have hrest : ∀ q ∈ ps, (w.down p).Listed q := by
      intro q hq
      refine h.listed_down.mpr ⟨hlisted q (List.mem_cons_of_mem _ hq), ?_⟩
      rintro rfl
      exact hp hq
    show Completes exec (.shutdown ⟨p, .first⟩ :: shutdowns ps) w w' ↔ _
    rw [h.completes_shutdown hborn, ih (h.down hborn hfirst hsecond) hps hrest, List.foldl_cons]
    constructor
    · exact fun hall => hall.2.2.2.2
    · intro heq
      exact ⟨hfirst, hsecond, by omega, by omega, heq⟩

/-- What has become of an endpoint that was closed. -/
structure Shut (w w' : World) (e : Ep) : Prop where
  closes : w'.trace.countP (Event.closes e) = 1
  desc : w'.kernel.desc (w.fd e) = .closed
  pollSet : e ∉ w'.thread.pollSet
  mode : w'.thread.mode (w.fd e) = none

/-- Nothing has become of an endpoint. -/
structure Same (w w' : World) (e : Ep) : Prop where
  ep : w'.ep e = w.ep e
  closes : w'.trace.countP (Event.closes e) = w.trace.countP (Event.closes e)
  pollSet : e ∈ w'.thread.pollSet ↔ e ∈ w.thread.pollSet
  mode : w'.thread.mode (w.fd e) = w.thread.mode (w.fd e)
  desc : w'.kernel.desc (w.fd e) = w.kernel.desc (w.fd e)
  table : w'.kernel.table (w.fd e) = w.kernel.table (w.fd e)

/-- The state after pairs `ps` have been shut down. -/
structure Pruned (w w' : World) (ps : List Nat) : Prop where
  tidy : Tidy w'
  leaders : w'.leaders = w.leaders.filter fun x => x.2.pair ∉ ps
  shut : ∀ e, e.pair ∈ ps → Shut w w' e
  same : ∀ e, w.Listed e.pair → e.pair ∉ ps → Same w w' e
  rest : ∀ e, e.pair ∉ ps → w'.ep e = w.ep e ∧
    w'.trace.countP (Event.closes e) = w.trace.countP (Event.closes e)

theorem Tidy.shut_down (h : Tidy w) {p : Nat} (hp : w.Listed p) (s : Side) :
    Shut w (w.down p) ⟨p, s⟩ := by
  obtain ⟨hfirst, hsecond⟩ := h.removable hp
  have hset := h.set_down hfirst hsecond
  have hout : (⟨p, s⟩ : Ep) ∉ (w.down p).thread.pollSet := by
    rw [hset.mem]
    cases s <;> simp
  refine ⟨?_, ?_, hout, ?_⟩
  · rw [World.down_closes, if_pos rfl, h.unclosed ⟨p, s⟩ (Or.inr hp)]
  · rw [World.down_desc]
    cases s <;> simp [Function.update_apply]
  · rw [World.down_mode hfirst hsecond]
    cases s <;> simp [Function.update_apply]

theorem Tidy.same_down (h : Tidy w) {p : Nat} (hp : w.Listed p) {e : Ep} (he : w.Listed e.pair)
    (hne : e.pair ≠ p) : Same w (w.down p) e := by
  obtain ⟨hfirst, hsecond⟩ := h.removable hp
  obtain ⟨h1, h2⟩ := h.fd_ne hfirst hsecond he hne
  have hside : ∀ s, e ≠ ⟨p, s⟩ := by
    rintro s rfl
    exact hne rfl
  refine ⟨?_, ?_, ?_, ?_, ?_, ?_⟩
  · rw [World.down_ep, if_neg hne]
  · rw [World.down_closes, if_neg hne, Nat.add_zero]
  · rw [World.down_pollSet, List.mem_erase_of_ne (hside .second),
      List.mem_erase_of_ne (hside .first)]
  · rw [World.down_mode hfirst hsecond, Function.update_of_ne h2, Function.update_of_ne h1]
  · rw [World.down_desc, Function.update_of_ne h2, Function.update_of_ne h1]
  · rw [World.down_table, Function.update_of_ne h2, Function.update_of_ne h1]

/-- What is closed stays closed. -/
theorem Tidy.shut_later (h : Tidy w') {p : Nat} (hp : w'.Listed p) {e : Ep} (hs : Shut w w' e)
    (hne : e.pair ≠ p) : Shut w (w'.down p) e := by
  obtain ⟨hfirst, hsecond⟩ := h.removable hp
  refine ⟨?_, ?_, ?_, ?_⟩
  · rw [World.down_closes, if_neg hne, hs.closes]
  · rw [World.down_desc, Function.update_apply, Function.update_apply, hs.desc]
    split_ifs <;> rfl
  · rw [World.down_pollSet]
    intro hin
    exact hs.pollSet (List.mem_of_mem_erase (List.mem_of_mem_erase hin))
  · rw [World.down_mode hfirst hsecond, Function.update_apply, Function.update_apply, hs.mode]
    split_ifs <;> rfl

theorem Same.trans {w'' : World} {e : Ep} (h : Same w w' e) (h' : Same w' w'' e) :
    Same w w'' e := by
  have hfd : w'.fd e = w.fd e := congrArg EndPoint.fd h.ep
  refine ⟨h'.ep.trans h.ep, h'.closes.trans h.closes, h'.pollSet.trans h.pollSet, ?_, ?_, ?_⟩
  · have hmode := h'.mode
    rw [hfd] at hmode
    exact hmode.trans h.mode
  · have hdesc := h'.desc
    rw [hfd] at hdesc
    exact hdesc.trans h.desc
  · have htable := h'.table
    rw [hfd] at htable
    exact htable.trans h.table

theorem Pruned.nil (h : Tidy w) : Pruned w w [] := by
  refine ⟨h, ?_, ?_, ?_, ?_⟩
  · simp
  · intro e he
    cases he
  · intro e _ _
    exact ⟨rfl, rfl, Iff.rfl, rfl, rfl, rfl⟩
  · intro e _
    exact ⟨rfl, rfl⟩

/-- One more pair. -/
theorem Pruned.snoc {p : Nat} (h : Pruned w w' ps) (hw : Tidy w) (hp : w.Listed p) (hnew : p ∉ ps) :
    Pruned w (w'.down p) (ps ++ [p]) := by
  have hmem : ∀ q, q ∈ ps ++ [p] ↔ q ∈ ps ∨ q = p := by simp
  have hentry := hw.leader_entry hp
  have hp' : w'.Listed p := by
    refine ⟨w.key ⟨p, .first⟩, ?_⟩
    rw [h.leaders, List.mem_filter]
    exact ⟨hentry, by simpa using hnew⟩
  obtain ⟨hfirst, hsecond⟩ := h.tidy.removable hp'
  refine ⟨h.tidy.down (h.tidy.listed_born hp') hfirst hsecond, ?_, ?_, ?_, ?_⟩
  · -- the shutdown erases the entry of its own pair
    have hkey : w'.key ⟨p, .first⟩ = w.key ⟨p, .first⟩ :=
      congrArg EndPoint.forwardKey (h.rest ⟨p, .first⟩ hnew).1
    rw [World.down_leaders, World.eraseLeader, hkey, h.tidy.nodup.erase_eq_filter, h.leaders,
      List.filter_filter]
    apply List.filter_congr
    rintro ⟨k, e⟩ hk
    obtain ⟨hside, -, rfl⟩ := hw.entry k e hk
    obtain ⟨q, s⟩ := e
    obtain rfl : s = .first := hside
    rw [Bool.eq_iff_iff]
    by_cases hq : q = p
    · subst hq
      simp
    · simp [hq]
  · intro e he
    rcases (hmem _).mp he with hin | heq
    · refine h.tidy.shut_later hp' (h.shut e hin) ?_
      rintro rfl
      exact hnew hin
    · obtain ⟨q, s⟩ := e
      obtain rfl : q = p := heq
      have hs := h.tidy.shut_down hp' s
      have hfd : w'.fd ⟨q, s⟩ = w.fd ⟨q, s⟩ := congrArg EndPoint.fd (h.rest ⟨q, s⟩ hnew).1
      refine ⟨hs.closes, ?_, hs.pollSet, ?_⟩
      · rw [← hfd]
        exact hs.desc
      · rw [← hfd]
        exact hs.mode
  · intro e he hout
    rw [hmem, not_or] at hout
    have hlisted' : w'.Listed e.pair := by
      refine ⟨w.key ⟨e.pair, .first⟩, ?_⟩
      rw [h.leaders, List.mem_filter]
      exact ⟨hw.leader_entry he, by simpa using hout.1⟩
    exact (h.same e he hout.1).trans (h.tidy.same_down hp' hlisted' hout.2)
  · intro e hout
    rw [hmem, not_or] at hout
    obtain ⟨hep, hcloses⟩ := h.rest e hout.1
    rw [World.down_ep, if_neg hout.2, World.down_closes, if_neg hout.2]
    exact ⟨hep, hcloses⟩

theorem pruned_foldl (h : Tidy w) (hps : ps.Nodup) (hlisted : ∀ p ∈ ps, w.Listed p) :
    Pruned w (ps.foldl World.down w) ps := by
  induction ps using List.reverseRecOn with
  | nil => exact Pruned.nil h
  | append_singleton ps p ih =>
    obtain ⟨hps, -, hdisj⟩ := List.nodup_append.mp hps
    rw [List.foldl_append]
    apply (ih hps fun q hq => hlisted q (List.mem_append_left _ hq)).snoc h
    · exact hlisted p (by simp)
    · intro hp
      exact hdisj p hp p (by simp) rfl

end Prune

-- ============================================================================
-- Runs of calls
-- ============================================================================

/-- One call, with nothing in between. -/
inductive Called : World → World → Prop
  /-- `accept` or `connect_to` hands out a number -/
  | grab {w : World} {fd : Nat} : w.kernel.desc fd = .closed →
      Called w { w with kernel := w.kernel.setDesc fd .held }
  /-- a worker closes a socket that it does not tie -/
  | giveBack {w : World} {fd : Nat} : w.kernel.desc fd = .held →
      Called w { w with kernel := w.kernel.close fd }
  | tieFd {w w' : World} {key : Key} {fd1 fd2 : Nat} : w.kernel.desc fd1 = .held →
      w.kernel.desc fd2 = .held → fd1 ≠ fd2 →
      Completes exec (tieFd w.pairs key) (w.newPair fd1 fd2) w' → Called w w'
  /-- `shutdown` of a leader, the first one or a further one -/
  | shutdown {w w' : World} {p : Nat} : p < w.pairs →
      Completes exec [.shutdown ⟨p, .first⟩] w w' → Called w w'
  /-- the handlers that an event leads to -/
  | event {w w' : World} {e : Ep} {ev : Events} : e.pair < w.pairs →
      Completes exec [.event e ev] w w' → Called w w'
  /-- the removal pass of the poll thread -/
  | removal {w w' : World} : Completes exec [.swapPending] w w' → Called w w'
  | cleanup {w w' : World} {valid : List Key} : Completes exec [.collect valid] w w' → Called w w'

def CallRun : World → Prop := Lib.Reach (· = World.start) Called

section Calls

variable {w w' : World} {e : Ep} {p : Nat} {valid : List Key}

theorem completes_flow {is : List Instr} (h : Completes exec is w w') (hw : Flow w)
    (his : ∀ i ∈ is, Placed w.pairs i) : Flow w' := by
  induction h with
  | nil => exact hw
  | cons hexec _ ih =>
    apply ih (exec_flow hw (his _ List.mem_cons_self) hexec)
    intro j hj
    rcases List.mem_append.mp hj with hj | hj
    · exact (exec_pre hexec j hj).1 _
    · rw [(exec_frame hw hexec).pairs]
      exact his j (List.mem_cons_of_mem _ hj)

/-- The `shutdown` of a leader, whether it goes on from a pair that is listed or not. -/
theorem Tidy.shutdown (h : Tidy w) (hp : p < w.pairs)
    (hs : Completes exec [.shutdown ⟨p, .first⟩] w w') : Tidy w' ∧ w'.pairs = w.pairs := by
  rw [h.completes_shutdown hp, completes_nil] at hs
  obtain ⟨hfirst, hsecond, -, -, rfl⟩ := hs
  exact ⟨h.down hp hfirst hsecond, World.down_pairs⟩

theorem Tidy.handler (h : Tidy w) (he : e.pair < w.pairs) {ev : Events} {i : Instr}
    (hi : i ∈ dispatch e ev) (hs : Completes exec [i] w w') : Tidy w' ∧ w'.pairs = w.pairs := by
  rw [completes_cons] at hs
  obtain ⟨o, w₁, pre, hexec, hrest⟩ := hs
  rw [List.append_nil] at hrest
  rcases mem_dispatch hi with ⟨rfl, -⟩ | ⟨rfl, -⟩ | ⟨rfl, -⟩
  · obtain ⟨hread, rfl⟩ := exec_handleRead.mp hexec
    obtain rfl := completes_nil.mp hrest
    have hkeeps := keeps_handleRead h.flow hread
    exact ⟨h.keeps hkeeps (h.flow.handleRead hread), hkeeps.pairs⟩
  · obtain ⟨hwrite, rfl⟩ := exec_handleWrite.mp hexec
    obtain rfl := completes_nil.mp hrest
    have hkeeps := keeps_handleWrite h.flow hwrite
    exact ⟨h.keeps hkeeps (h.flow.handleWrite hwrite), hkeeps.pairs⟩
  · obtain ⟨rfl, ⟨-, rfl⟩ | ⟨-, hlead, rfl⟩ | ⟨-, hlead, peer, hpeer, rfl⟩⟩ :=
      exec_handleError.mp hexec
    · obtain rfl := completes_nil.mp hrest
      exact ⟨h, rfl⟩
    · obtain ⟨q, s⟩ := e
      obtain rfl : s = .first := h.flow.leader _ hlead
      exact h.shutdown he hrest
    · obtain ⟨hpeer', hside⟩ := h.tied e he
      obtain rfl := Option.some.inj (hpeer'.symm.trans hpeer)
      obtain ⟨q, s⟩ := e
      cases s with
      | first =>
        rw [hside.mpr rfl] at hlead
        cases hlead
      | second => exact h.shutdown he hrest

theorem Tidy.event (h : Tidy w) (he : e.pair < w.pairs) {ev : Events}
    (hs : Completes exec [.event e ev] w w') : Tidy w' := by
  have hdispatch : ∀ o, exec o w (.event e ev) = some (w, dispatch e ev) := fun _ => rfl
  rw [completes_plain hdispatch, List.append_nil] at hs
  have hall := hs.each (P := fun v => Tidy v ∧ e.pair < v.pairs) ?_ ⟨h, he⟩
  · exact hall.1
  · rintro i hi v v' ⟨hv, hlt⟩ hs
    obtain ⟨hv', hpairs⟩ := hv.handler hlt hi hs
    exact ⟨hv', hpairs ▸ hlt⟩

/-- One section of the removal pass, on an endpoint that is not listed. -/
theorem Tidy.removal (h : Tidy w) (he : ¬ w.Listed e.pair) {i : Instr}
    (hi : i = .unregister e ∨ i = .drop e) (hs : Completes exec [i] w w') :
    Tidy w' ∧ w'.leaders = w.leaders := by
  rw [completes_cons] at hs
  obtain ⟨o, w₁, pre, hexec, hrest⟩ := hs
  have hflow : Flow w₁ := by
    rcases hi with rfl | rfl
    · exact exec_flow (i := .unregister e) h.flow trivial hexec
    · exact exec_flow (i := .drop e) h.flow trivial hexec
  rcases hi with rfl | rfl
  · obtain ⟨rfl, rfl⟩ := Prod.mk.inj (Option.some.inj hexec)
    obtain rfl := completes_nil.mp hrest
    refine ⟨h.keeps (keeps_kernel h ?_) hflow, rfl⟩
    intro n _
    exact congrFun (World.unregistered_desc w e) n
  · obtain ⟨-, rfl, rfl⟩ := exec_drop.mp hexec
    obtain rfl := completes_nil.mp hrest
    exact ⟨h.keeps (keeps_released he) hflow, rfl⟩

theorem Tidy.removalPass (h : Tidy w) (hs : Completes exec [.swapPending] w w') : Tidy w' := by
  rw [completes_cons] at hs
  obtain ⟨o, w₁, pre, hexec, hrest⟩ := hs
  have hflow : Flow w₁ := exec_flow (i := .swapPending) h.flow trivial hexec
  obtain ⟨rfl, removePoll, hperm, rfl⟩ := exec_swapPending hexec
  rw [List.append_nil] at hrest
  have hgone : ∀ x ∈ removePoll, ¬ w.Listed x.pair :=
    fun x hx => (h.pending x (hperm.mem_iff.mp hx)).2
  have hswap : Keeps w w.swapped := by
    refine ⟨rfl, fun _ => ⟨rfl, rfl, rfl, rfl⟩, rfl, rfl, fun _ => Iff.rfl, fun _ _ => rfl,
      fun _ _ => rfl, ?_, fun _ => rfl⟩
    intro x hx
    cases hx
  have hall := hrest.each (P := fun v => Tidy v ∧ v.leaders = w.leaders) ?_
    ⟨h.keeps hswap hflow, rfl⟩
  · exact hall.1
  · rintro i hi v v' ⟨hv, hsame⟩ hs
    obtain ⟨x, hx, hix⟩ := List.mem_flatMap.mp hi
    have hx' : ¬ v.Listed x.pair := by
      unfold World.Listed
      rw [hsame]
      exact hgone x hx
    obtain ⟨hv', hsame'⟩ := hv.removal hx' (List.mem_pair.mp hix) hs
    exact ⟨hv', hsame'.trans hsame⟩

/-- The pairs whose key is not valid any more. -/
def outlying (valid : List Key) (leaders : List (Key × Ep)) : List Nat :=
  (World.outliers valid leaders).map Ep.pair

theorem outlying_eq (valid : List Key) (leaders : List (Key × Ep)) : outlying valid leaders =
    (leaders.filter fun entry => entry.1 ∉ valid).map fun entry => entry.2.pair := by
  rw [outlying, World.outliers, List.map_map]
  rfl

theorem Tidy.collected (h : Tidy w) :
    (World.outliers valid w.leaders).map Instr.shutdown = shutdowns (outlying valid w.leaders) := by
  unfold World.outliers shutdowns
  rw [outlying_eq, List.map_map, List.map_map]
  apply List.map_congr_left
  rintro ⟨k, e⟩ hmem
  have hside := (h.entry k e (List.mem_of_mem_filter hmem)).1
  obtain ⟨q, s⟩ := e
  obtain rfl : s = .first := hside
  rfl

theorem mem_outlying {leaders : List (Key × Ep)} : p ∈ outlying valid leaders ↔
    ∃ k e, (k, e) ∈ leaders ∧ k ∉ valid ∧ e.pair = p := by
  rw [outlying_eq]
  simp only [List.mem_map, List.mem_filter, decide_eq_true_eq, Prod.exists]
  constructor
  · rintro ⟨k, e, ⟨hmem, hk⟩, rfl⟩
    exact ⟨k, e, hmem, hk, rfl⟩
  · rintro ⟨k, e, hmem, hk, rfl⟩
    exact ⟨k, e, ⟨hmem, hk⟩, rfl⟩

theorem Tidy.entry_unique (h : Tidy w) {k k' : Key} {e e' : Ep} (hmem : (k, e) ∈ w.leaders)
    (hmem' : (k', e') ∈ w.leaders) (hpair : e.pair = e'.pair) : (k, e) = (k', e') := by
  obtain ⟨hside, -, rfl⟩ := h.entry k e hmem
  obtain ⟨hside', -, rfl⟩ := h.entry k' e' hmem'
  obtain ⟨q, s⟩ := e
  obtain ⟨q', s'⟩ := e'
  obtain rfl : s = .first := hside
  obtain rfl : s' = .first := hside'
  obtain rfl : q = q' := hpair
  rfl

theorem Tidy.outlying_nodup (h : Tidy w) : (outlying valid w.leaders).Nodup := by
  rw [outlying_eq]
  apply (h.nodup.filter _).map_on
  rintro ⟨k, e⟩ hmem ⟨k', e'⟩ hmem' hpair
  exact h.entry_unique (List.mem_of_mem_filter hmem) (List.mem_of_mem_filter hmem') hpair

theorem Tidy.outlying_listed (h : Tidy w) : ∀ p ∈ outlying valid w.leaders, w.Listed p := by
  intro p hp
  obtain ⟨k, e, hmem, -, rfl⟩ := mem_outlying.mp hp
  have hside := (h.entry k e hmem).1
  obtain ⟨q, s⟩ := e
  obtain rfl : s = .first := hside
  exact ⟨k, hmem⟩

/-- `cleanup` goes through, and comes to one `shutdown` for each pair that it has
    collected. -/
theorem Tidy.cleanup (h : Tidy w) : Completes exec [.collect valid] w w' ↔
    w' = (outlying valid w.leaders).foldl World.down w := by
  have hcollect : ∀ o, exec o w (.collect valid) =
      some (w, (World.outliers valid w.leaders).map Instr.shutdown) := fun _ => rfl
  rw [completes_plain hcollect, List.append_nil, h.collected]
  exact h.completes_shutdowns h.outlying_nodup h.outlying_listed

theorem Tidy.called (h : Tidy w) (hs : Called w w') : Tidy w' := by
  cases hs with
  | @grab fd hclosed =>
    have hkeeps : Keeps w { w with kernel := w.kernel.setDesc fd .held } := by
      apply keeps_kernel h
      rintro n ⟨e, he⟩
      apply Function.update_of_ne
      rintro rfl
      rw [hclosed] at he
      cases he
    exact h.keeps hkeeps (h.flow.sameFlow (SameFlow.of_ep rfl rfl (List.append_nil _).symm (by simp)))
  | @giveBack fd hheld =>
    have hkeeps : Keeps w { w with kernel := w.kernel.close fd } := by
      apply keeps_kernel h
      rintro n ⟨e, he⟩
      apply Function.update_of_ne
      rintro rfl
      rw [hheld] at he
      cases he
    exact h.keeps hkeeps (h.flow.sameFlow (SameFlow.of_ep rfl rfl (List.append_nil _).symm (by simp)))
  | tieFd hheld1 hheld2 hne hs =>
    have hflow := completes_flow hs (h.flow.newPair _ _)
      fun i hi => (tieFd_placed (Nat.lt_succ_self _) _ i hi).1
    obtain ⟨hmode1, hmode2, rfl⟩ := completes_tieFd hne hs
    exact h.tiedUp hheld1 hheld2 hne hmode1 hmode2 hflow
  | shutdown hp hs => exact (h.shutdown hp hs).1
  | event he hs => exact h.event he hs
  | removal hs => exact h.removalPass hs
  | cleanup hs =>
    obtain rfl := h.cleanup.mp hs
    exact (pruned_foldl h h.outlying_nodup h.outlying_listed).tidy

theorem tidy_run (h : CallRun w) : Tidy w := by
  apply h.invariant
  · rintro _ rfl
    exact Tidy.start
  · intro s s' _ hs hcall
    exact hs.called hcall

/-- What `cleanup` has done. -/
structure Cleaned (valid : List Key) (w w' : World) : Prop where
  leaders : w'.leaders = w.leaders.filter fun entry => entry.1 ∈ valid
  shut : ∀ k l, (k, l) ∈ w.leaders → k ∉ valid → ∀ e : Ep, e.pair = l.pair → Shut w w' e
  same : ∀ k l, (k, l) ∈ w.leaders → k ∈ valid → ∀ e : Ep, e.pair = l.pair → Same w w' e
  rest : ∀ e, ¬ w.Listed e.pair → w'.ep e = w.ep e ∧
    w'.trace.countP (Event.closes e) = w.trace.countP (Event.closes e)

theorem Tidy.cleaned (h : Tidy w) :
    Cleaned valid w ((outlying valid w.leaders).foldl World.down w) := by
  have hpruned : Pruned w ((outlying valid w.leaders).foldl World.down w)
      (outlying valid w.leaders) := pruned_foldl h h.outlying_nodup h.outlying_listed
  have hkept : ∀ k l, (k, l) ∈ w.leaders → (l.pair ∈ outlying valid w.leaders ↔ k ∉ valid) := by
    intro k l hmem
    rw [mem_outlying]
    constructor
    · rintro ⟨k', l', hmem', hk', hpair⟩
      obtain ⟨rfl, -⟩ := Prod.mk.inj (h.entry_unique hmem' hmem hpair)
      exact hk'
    · intro hk
      exact ⟨k, l, hmem, hk, rfl⟩
  have hentry : ∀ k (l : Ep), (k, l) ∈ w.leaders → w.Listed l.pair := by
    intro k l hmem
    have hside := (h.entry k l hmem).1
    obtain ⟨q, s⟩ := l
    obtain rfl : s = .first := hside
    exact ⟨k, hmem⟩
  refine ⟨?_, ?_, ?_, ?_⟩
  · rw [hpruned.leaders]
    apply List.filter_congr
    rintro ⟨k, l⟩ hmem
    apply decide_eq_decide.mpr
    rw [hkept k l hmem, not_not]
  · intro k l hmem hk e he
    apply hpruned.shut
    rw [he]
    exact (hkept k l hmem).mpr hk
  · intro k l hmem hk e he
    apply hpruned.same
    · rw [he]
      exact hentry k l hmem
    · rw [he, hkept k l hmem]
      exact not_not.mpr hk
  · intro e he
    apply hpruned.rest
    intro houtlying
    exact he (h.outlying_listed _ houtlying)

end Calls

end VncProxy.Proxy
