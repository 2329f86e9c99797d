/-
  VncProxy.Proxy.Milestones

  The life of an endpoint as a list of milestones: tied, counted by the poll
  manager, added, registered, ready; then shut down, closed, removed, pending,
  released, erased.  `Marks` is the set of endpoints that have passed each of
  them, and `WorldInv` says what the shared state looks like, given the marks:
  the reference counts, the poll set, the descriptors, the registry and the
  trace are all functions of who has got how far.

  Each section of the source takes one endpoint past one milestone, and has one
  lemma here.
-/
import VncProxy.Proxy.Frame
import Mathlib.Data.Set.Insert

namespace VncProxy.Proxy

open Polling
open Marshal (Received Written)

-- ============================================================================
-- Marks
-- ============================================================================

/-- The endpoints that have passed each milestone. -/
@[ext]
structure Marks where
  tied : Set Ep
  taken : Set Ep
  added : Set Ep
  registered : Set Ep
  ready : Set Ep
  begun : Set Ep
  closed : Set Ep
  removed : Set Ep
  pended : Set Ep
  released : Set Ep
  erased : Set Ep

/-- The milestones come in this order. -/
structure Marks.Ordered (m : Marks) : Prop where
  taken_tied : m.taken ⊆ m.tied
  added_taken : m.added ⊆ m.taken
  registered_added : m.registered ⊆ m.added
  removed_closed : m.removed ⊆ m.closed
  pended_removed : m.pended ⊆ m.removed
  pended_taken : m.pended ⊆ m.taken

/-- `1` if `p` holds and `0` if not. -/
noncomputable def ind (p : Prop) : Nat := open Classical in if p then 1 else 0

@[simp] theorem ind_pos {p : Prop} (h : p) : ind p = 1 := if_pos h

@[simp] theorem ind_neg {p : Prop} (h : ¬ p) : ind p = 0 := if_neg h

theorem ind_congr {p q : Prop} (h : p ↔ q) : ind p = ind q := by
  rw [propext h]

theorem ind_insert_of_ne {α : Type} {x e : α} {S : Set α} (h : x ≠ e) :
    ind (x ∈ insert e S) = ind (x ∈ S) :=
  ind_congr (by simp [h])

def World.fd (w : World) (e : Ep) : Nat := (w.ep e).fd

def World.refcnt (w : World) (e : Ep) : Int := (w.ep e).refcnt

def World.key (w : World) (e : Ep) : Key := (w.ep e).forwardKey

/-- `close(fd_)` of this endpoint. -/
def Event.closes (e : Ep) : Event → Bool
  | .close x _ => x = e
  | _ => false

-- ============================================================================
-- The parts of the invariant
-- ============================================================================

section Parts

variable (pairs : Nat) (ep : Ep → EndPoint) (fd : Ep → Nat)

def TieInv (tied ready : Set Ep) : Prop :=
  ∀ e, (e ∈ tied → (ep e).peer = some e.other ∧ ((ep e).leader = true ↔ e.side = .first)) ∧
    ((ep e).enabled = true ↔ e ∈ ready)

/-- One reference from construction until `release`, one of the poll manager from
    `ref_copy` until the removal pass drops it. -/
def RefInv (refcnt : Ep → Int) (pending drops : List Ep) (taken pended released : Set Ep) :
    Prop :=
  ∀ e, e.pair < pairs →
    refcnt e = ind (e ∉ released) + ind (e ∈ taken ∧ e ∉ pended) + pending.count e +
      drops.count e

structure SetInv (pollSet : List Ep) (mode : Nat → Option Mode) (added removed : Set Ep) :
    Prop where
  mem : ∀ e, e ∈ pollSet ↔ e ∈ added ∧ e ∉ removed
  nodup : pollSet.Nodup
  mode : ∀ n, mode n ≠ none ↔ ∃ e ∈ pollSet, fd e = n
  distinct : ∀ e ∈ pollSet, ∀ x ∈ pollSet, fd e = fd x → e = x

def DescInv (desc : Nat → Desc Ep) (closed : Set Ep) : Prop :=
  ∀ e, e.pair < pairs → e ∉ closed → desc (fd e) = .tied e

structure TableInv (table : Nat → Option (Interest Ep)) (registered closed : Set Ep) :
    Prop where
  sound : ∀ n r, table n = some r → fd r.ptr = n ∧ r.ptr ∈ registered ∧ r.ptr ∉ closed
  complete : ∀ e ∈ registered, e ∉ closed → ∃ r, table (fd e) = some r ∧ r.ptr = e

structure PendInv (pending : List Ep) (pended : Set Ep) : Prop where
  nodup : pending.Nodup
  mem : ∀ e ∈ pending, e ∈ pended

structure LeaderInv (key : Ep → Key) (leaders : List (Key × Ep)) (tied erased : Set Ep) :
    Prop where
  nodup : leaders.Nodup
  mem : ∀ k e, (k, e) ∈ leaders ↔ e.side = .first ∧ e ∈ tied ∧ e ∉ erased ∧ k = key e

structure TraceInv (trace : List Event) (begun closed : Set Ep) : Prop where
  shutdowns : ∀ e, trace.count (.shutdown e) = ind (e ∈ begun)
  closes : ∀ e, trace.countP (Event.closes e) = ind (e ∈ closed)

end Parts

/-- The shared state, given the marks and the references that the removal pass
    still has to drop. -/
structure WorldInv (w : World) (m : Marks) (drops : List Ep) : Prop where
  flow : Flow w
  born : ∀ e ∈ m.tied, e.pair < w.pairs
  tie : TieInv w.ep m.tied m.ready
  refs : RefInv w.pairs w.refcnt w.thread.pendingRemove drops m.taken m.pended m.released
  set : SetInv w.fd w.thread.pollSet w.thread.mode m.added m.removed
  desc : DescInv w.pairs w.fd w.kernel.desc m.closed
  table : TableInv w.fd w.kernel.table m.registered m.closed
  pending : PendInv w.thread.pendingRemove m.pended
  leaders : LeaderInv w.key w.leaders m.tied m.erased
  trace : TraceInv w.trace m.begun m.closed

-- ============================================================================
-- The parts under change
-- ============================================================================

section Change

variable {pairs : Nat} {ep ep' : Ep → EndPoint} {fd fd' : Ep → Nat} {e : Ep}

theorem SetInv.congr {pollSet : List Ep} {mode : Nat → Option Mode} {added removed : Set Ep}
    (h : SetInv fd pollSet mode added removed) (hfd : ∀ e ∈ added, fd' e = fd e) :
    SetInv fd' pollSet mode added removed := by
  have hin : ∀ e ∈ pollSet, fd' e = fd e := fun e he => hfd e ((h.mem e).mp he).1
  refine ⟨h.mem, h.nodup, ?_, ?_⟩
  · intro n
    rw [h.mode]
    constructor
    · rintro ⟨e, he, rfl⟩
      exact ⟨e, he, hin e he⟩
    · rintro ⟨e, he, rfl⟩
      exact ⟨e, he, (hin e he).symm⟩
  · intro e he x hx heq
    rw [hin e he, hin x hx] at heq
    exact h.distinct e he x hx heq

theorem TableInv.congr {table : Nat → Option (Interest Ep)} {registered closed : Set Ep}
    (h : TableInv fd table registered closed) (hfd : ∀ e ∈ registered, fd' e = fd e) :
    TableInv fd' table registered closed := by
  constructor
  · intro n r hr
    obtain ⟨hn, hreg, hcl⟩ := h.sound n r hr
    exact ⟨by rw [hfd _ hreg, hn], hreg, hcl⟩
  · intro e he hcl
    rw [hfd e he]
    exact h.complete e he hcl

theorem LeaderInv.congr {key key' : Ep → Key} {leaders : List (Key × Ep)}
    {tied erased : Set Ep} (h : LeaderInv key leaders tied erased)
    (hkey : ∀ e ∈ tied, key' e = key e) : LeaderInv key' leaders tied erased := by
  refine ⟨h.nodup, ?_⟩
  intro k e
  rw [h.mem]
  constructor <;> rintro ⟨hs, ht, hne, hk⟩
  · exact ⟨hs, ht, hne, by rw [hkey e ht, hk]⟩
  · exact ⟨hs, ht, hne, by rw [hk, hkey e ht]⟩

/-- Events that neither start a shutdown nor close anything. -/
theorem TraceInv.emit {trace evs : List Event} {begun closed : Set Ep}
    (h : TraceInv trace begun closed) (hs : ∀ e, .shutdown e ∉ evs)
    (hc : ∀ e n, .close e n ∉ evs) : TraceInv (trace ++ evs) begun closed := by
  constructor
  · intro e
    rw [List.count_append, h.shutdowns, List.count_eq_zero.mpr (hs e), Nat.add_zero]
  · intro e
    have hnone : evs.countP (Event.closes e) = 0 := by
      rw [List.countP_eq_zero]
      intro ev hev
      cases ev with
      | close x n => exact absurd hev (hc x n)
      | call | ctl | shutdown => simp [Event.closes]
    rw [List.countP_append, h.closes, hnone, Nat.add_zero]

theorem SetInv.add {pollSet : List Ep} {mode : Nat → Option Mode} {added removed : Set Ep}
    (h : SetInv fd pollSet mode added removed) (hin : e ∉ pollSet) (hmode : mode (fd e) = none)
    (hrem : e ∉ removed) (newMode : Mode) :
    SetInv fd (e :: pollSet) (Function.update mode (fd e) (some newMode)) (insert e added)
      removed := by
  have hother : ∀ x ∈ pollSet, fd x ≠ fd e := by
    intro x hx heq
    exact (h.mode (fd e)).mpr ⟨x, hx, heq⟩ hmode
  refine ⟨?_, List.nodup_cons.mpr ⟨hin, h.nodup⟩, ?_, ?_⟩
  · intro x
    rw [List.mem_cons, Set.mem_insert_iff, h.mem]
    constructor
    · rintro (rfl | ⟨ha, hr⟩)
      · exact ⟨Or.inl rfl, hrem⟩
      · exact ⟨Or.inr ha, hr⟩
    · rintro ⟨rfl | ha, hr⟩
      · exact Or.inl rfl
      · exact Or.inr ⟨ha, hr⟩
  · intro n
    by_cases hn : n = fd e
    · subst hn
      simp
    · rw [Function.update_of_ne hn, h.mode]
      constructor
      · rintro ⟨x, hx, hfd⟩
        exact ⟨x, List.mem_cons_of_mem _ hx, hfd⟩
      · rintro ⟨x, hx, rfl⟩
        rcases List.mem_cons.mp hx with rfl | hx
        · exact absurd rfl hn
        · exact ⟨x, hx, rfl⟩
  · intro x hx y hy heq
    rcases List.mem_cons.mp hx with rfl | hx' <;> rcases List.mem_cons.mp hy with rfl | hy'
    · rfl
    · exact absurd heq.symm (hother y hy')
    · exact absurd heq (hother x hx')
    · exact h.distinct x hx' y hy' heq

theorem SetInv.remove {pollSet : List Ep} {mode : Nat → Option Mode} {added removed : Set Ep}
    (h : SetInv fd pollSet mode added removed) (hin : e ∈ pollSet) :
    SetInv fd (pollSet.erase e) (Function.update mode (fd e) none) added (insert e removed) := by
  have hmem : ∀ x, x ∈ pollSet.erase e ↔ x ≠ e ∧ x ∈ pollSet :=
    fun x => h.nodup.mem_erase_iff
  refine ⟨?_, h.nodup.erase e, ?_, ?_⟩
  · intro x
    rw [hmem, h.mem, Set.mem_insert_iff, not_or]
    constructor
    · rintro ⟨hne, ha, hr⟩
      exact ⟨ha, hne, hr⟩
    · rintro ⟨ha, hne, hr⟩
      exact ⟨hne, ha, hr⟩
  · intro n
    by_cases hn : n = fd e
    · subst hn
      rw [Function.update_self]
      refine ⟨fun hne => absurd rfl hne, ?_⟩
      rintro ⟨x, hx, heq⟩
      obtain ⟨hne, hx⟩ := (hmem x).mp hx
      exact absurd (h.distinct x hx e hin heq) hne
    · rw [Function.update_of_ne hn, h.mode]
      constructor
      · rintro ⟨x, hx, rfl⟩
        refine ⟨x, (hmem x).mpr ⟨?_, hx⟩, rfl⟩
        rintro rfl
        exact hn rfl
      · rintro ⟨x, hx, heq⟩
        exact ⟨x, ((hmem x).mp hx).2, heq⟩
  · intro x hx y hy heq
    exact h.distinct x ((hmem x).mp hx).2 y ((hmem y).mp hy).2 heq

/-- Two endpoints that are not closed hold different descriptors. -/
theorem DescInv.ne {desc : Nat → Desc Ep} {closed : Set Ep} (h : DescInv pairs fd desc closed)
    {x : Ep} (he : e.pair < pairs) (hec : e ∉ closed) (hx : x.pair < pairs) (hxc : x ∉ closed)
    (hne : x ≠ e) : fd x ≠ fd e := by
  intro heq
  have h1 := h x hx hxc
  rw [heq, h e he hec] at h1
  injection h1 with h1
  exact hne h1.symm

theorem DescInv.update {desc : Nat → Desc Ep} {closed : Set Ep}
    (h : DescInv pairs fd desc closed) {n : Nat} {d : Desc Ep}
    (hn : ∀ e, desc n ≠ .tied e) : DescInv pairs fd (Function.update desc n d) closed := by
  intro e he hec
  have hown := h e he hec
  have hne : fd e ≠ n := by
    rintro rfl
    exact hn e hown
  rw [Function.update_of_ne hne]
  exact hown

end Change

-- ============================================================================
-- One lemma for each section
-- ============================================================================

section Fields

variable (w : World) (e : Ep)

theorem World.released_fd : (w.released e).fd = w.fd := by
  funext x
  unfold World.fd
  rw [World.released_ep]
  split_ifs with hx
  · rw [hx]
  · rfl

theorem World.released_key : (w.released e).key = w.key := by
  funext x
  unfold World.key
  rw [World.released_ep]
  split_ifs with hx
  · rw [hx]
  · rfl

theorem World.refCopy_fd : (w.refCopy e).fd = w.fd := by
  funext x
  unfold World.fd
  rw [World.refCopy_ep]
  split_ifs with hx
  · rw [hx]
  · rfl

theorem World.refCopy_key : (w.refCopy e).key = w.key := by
  funext x
  unfold World.key
  rw [World.refCopy_ep]
  split_ifs with hx
  · rw [hx]
  · rfl

theorem World.ready_fields :
    (w.ready e).fd = w.fd ∧ (w.ready e).key = w.key ∧ (w.ready e).refcnt = w.refcnt := by
  refine ⟨?_, ?_, ?_⟩ <;> funext x <;> simp only [World.fd, World.key, World.refcnt] <;>
    rw [World.ready_ep] <;> split_ifs with hx <;> simp [hx]

theorem World.transferred_fields (owner : Ep) (calls : List FdCall) (buf : Marshal) :
    (w.transferred e owner calls buf).fd = w.fd ∧
      (w.transferred e owner calls buf).key = w.key ∧
      (w.transferred e owner calls buf).refcnt = w.refcnt := by
  refine ⟨?_, ?_, ?_⟩ <;> funext x
  · exact World.transferred_fd owner calls buf x
  · exact World.transferred_forwardKey owner calls buf x
  · exact World.transferred_refcnt owner calls buf x

end Fields

namespace WorldInv

variable {w w' : World} {m : Marks} {drops : List Ep} {e : Ep}

/-- `tie`, on a pair that is not tied yet. -/
theorem tie_step (h : WorldInv w m drops) (hside : e.side = .first) (he : e.pair < w.pairs)
    (hnew : e ∉ m.tied) (herased : e ∉ m.erased) (key : Key) :
    WorldInv (w.tie e e.other key) { m with tied := insert e (insert e.other m.tied) } drops := by
  have hne := e.other_ne
  have hfields : (w.tie e e.other key).fd = w.fd ∧
      (w.tie e e.other key).refcnt = w.refcnt := by
    constructor <;> funext x <;> simp only [World.fd, World.refcnt] <;>
      rw [World.tie_ep w e x hne] <;> split_ifs with h1 h2 <;> simp_all
  have hkey : ∀ x, x ≠ e → (w.tie e e.other key).key x = w.key x := by
    intro x hx
    unfold World.key
    rw [World.tie_ep w e x hne, if_neg hx]
    split_ifs with h2 <;> simp_all
  have hkey' : (w.tie e e.other key).key e = key := by
    unfold World.key
    rw [World.tie_ep w e e hne, if_pos rfl]
  have hsecond : e.other.side ≠ .first := by
    obtain ⟨p, s⟩ := e
    cases s with
    | first => simp [Ep.other, Side.other]
    | second => cases hside
  refine ⟨h.flow.tie hside rfl key, ?_, ?_, ?_, ?_, ?_, ?_, h.pending, ?_, h.trace⟩
  · intro x hx
    rcases hx with rfl | rfl | hx
    · exact he
    · exact he
    · exact h.born x hx
  · intro x
    obtain ⟨htied, hready⟩ := h.tie x
    rw [World.tie_ep w e x hne]
    by_cases hx : x = e
    · subst hx
      simp [hside, hready]
    · by_cases hx' : x = e.other
      · subst hx'
        have hl : (w.ep e.other).leader ≠ true := fun hl => hsecond (h.flow.leader _ hl)
        simp [hne, hsecond, hl, hready]
      · rw [if_neg hx, if_neg hx']
        refine ⟨?_, hready⟩
        rintro (hx'' | hx'' | hx'')
        · exact absurd hx'' hx
        · exact absurd hx'' hx'
        · exact htied hx''
  · rw [hfields.2]
    exact h.refs
  · rw [hfields.1]
    exact h.set
  · rw [hfields.1]
    exact h.desc
  · rw [hfields.1]
    exact h.table
  · have hnotin : ∀ k, (k, e) ∉ w.leaders := by
      intro k hmem
      exact hnew ((h.leaders.mem k e).mp hmem).2.1
    rw [World.tie_leaders w e hne]
    constructor
    · exact (List.perm_orderedInsert _ _ _).nodup_iff.mpr
        (List.nodup_cons.mpr ⟨hnotin key, h.leaders.nodup⟩)
    · intro k x
      rw [World.insertLeader, List.mem_orderedInsert, h.leaders.mem, Prod.mk.injEq,
        Set.mem_insert_iff, Set.mem_insert_iff]
      by_cases hx : x = e
      · subst hx
        simp [hkey', hside, hnew, herased]
      · rw [hkey x hx]
        constructor
        · rintro (⟨-, rfl⟩ | ⟨hs, ht, hr⟩)
          · exact absurd rfl hx
          · exact ⟨hs, Or.inr (Or.inr ht), hr⟩
        · rintro ⟨hs, rfl | rfl | ht, hr⟩
          · exact absurd rfl hx
          · exact absurd hs hsecond
          · exact Or.inr ⟨hs, ht, hr⟩

/-- `ref_copy` of `PollThread::add`. -/
theorem refCopy_step (h : WorldInv w m drops) (htaken : e ∉ m.taken) (hpend : e ∉ m.pended) :
    WorldInv (w.refCopy e) { m with taken := insert e m.taken } drops := by
  have htie : TieInv (w.refCopy e).ep m.tied m.ready := by
    intro x
    rw [World.refCopy_ep]
    split_ifs with hx
    · subst hx
      exact h.tie x
    · exact h.tie x
  refine ⟨h.flow.sameFlow (sameFlow_refcnt e _), h.born, htie, ?_, ?_, ?_, ?_, h.pending, ?_,
    h.trace⟩
  · intro x hx
    have hold := h.refs x hx
    unfold World.refcnt at hold ⊢
    rw [World.refCopy_ep]
    by_cases hxe : x = e
    · subst hxe
      rw [ind_neg (p := x ∈ m.taken ∧ x ∉ m.pended) (fun hh => htaken hh.1)] at hold
      rw [if_pos rfl, ind_pos (p := x ∈ insert x m.taken ∧ x ∉ m.pended)
        ⟨Set.mem_insert _ _, hpend⟩]
      dsimp only [World.refCopy_thread] at hold ⊢
      push_cast at hold ⊢
      omega
    · rw [if_neg hxe, ind_congr (p := x ∈ insert e m.taken ∧ x ∉ m.pended)
        (q := x ∈ m.taken ∧ x ∉ m.pended) (by rw [Set.mem_insert_iff]; simp [hxe])]
      exact hold
  · rw [World.refCopy_fd]
    exact h.set
  · rw [World.refCopy_fd]
    exact h.desc
  · rw [World.refCopy_fd]
    exact h.table
  · rw [World.refCopy_key]
    exact h.leaders

/-- The section of `PollThread::add` under `m_`. -/
theorem add_step (h : WorldInv w m drops) (hin : e ∉ w.thread.pollSet)
    (hmode : w.thread.mode (w.ep e).fd = none) (hrem : e ∉ m.removed) :
    WorldInv (w.added e) { m with added := insert e m.added } drops :=
  ⟨h.flow.sameFlow (SameFlow.of_ep rfl rfl (List.append_nil _).symm (by simp)), h.born, h.tie,
    h.refs, h.set.add hin hmode hrem pollMode, h.desc, h.table, h.pending, h.leaders, h.trace⟩

/-- `EPOLL_CTL_ADD`. -/
theorem epollAdd_step (h : WorldInv w m drops) (ho : m.Ordered) (he : e ∈ m.tied)
    (hclosed : e ∉ m.closed) :
    WorldInv (w.registered e) { m with registered := insert e m.registered } drops := by
  refine ⟨h.flow.sameFlow (SameFlow.of_ep rfl rfl rfl (by simp [Event.Silent])), h.born, h.tie,
    h.refs, h.set, h.desc, ?_, h.pending, h.leaders, h.trace.emit (by simp) (by simp)⟩
  have hother : ∀ x ∈ m.registered, x ∉ m.closed → x ≠ e → w.fd x ≠ w.fd e := by
    intro x hx hxc hne
    have htied := ho.taken_tied (ho.added_taken (ho.registered_added hx))
    exact h.desc.ne (h.born e he) hclosed (h.born x htied) hxc hne
  constructor
  · intro n r hr
    change Function.update w.kernel.table (w.fd e) _ n = some r at hr
    by_cases hn : n = w.fd e
    · subst hn
      rw [Function.update_self] at hr
      obtain rfl := Option.some.inj hr
      exact ⟨rfl, Set.mem_insert _ _, hclosed⟩
    · rw [Function.update_of_ne hn] at hr
      obtain ⟨hfd, hreg, hcl⟩ := h.table.sound n r hr
      exact ⟨hfd, Set.mem_insert_of_mem _ hreg, hcl⟩
  · intro x hx hxc
    change ∃ r, Function.update w.kernel.table (w.fd e) _ (w.fd x) = some r ∧ _
    by_cases hxe : x = e
    · subst hxe
      rw [Function.update_self]
      exact ⟨_, rfl, rfl⟩
    · have hreg : x ∈ m.registered := (Set.mem_insert_iff.mp hx).resolve_left hxe
      rw [Function.update_of_ne (hother x hreg hxc hxe)]
      exact h.table.complete x hreg hxc

theorem ready_step (h : WorldInv w m drops) (he : e.pair < w.pairs) :
    WorldInv (w.ready e) { m with ready := insert e m.ready } drops := by
  obtain ⟨hfd, hkey, href⟩ := w.ready_fields e
  refine ⟨h.flow.ready he, h.born, ?_, ?_, ?_, ?_, ?_, h.pending, ?_, h.trace⟩
  · intro x
    obtain ⟨htied, hready⟩ := h.tie x
    rw [World.ready_ep]
    by_cases hx : x = e
    · subst hx
      simp only [if_true, Set.mem_insert_iff, true_or]
      exact ⟨htied, trivial⟩
    · rw [if_neg hx, Set.mem_insert_iff]
      simp only [hx, false_or]
      exact ⟨htied, hready⟩
  · rw [href]
    exact h.refs
  · rw [hfd]
    exact h.set
  · rw [hfd]
    exact h.desc
  · rw [hfd]
    exact h.table
  · rw [hkey]
    exact h.leaders

/-- Entering `shutdown`. -/
theorem shutdown_step (h : WorldInv w m drops) (hb : e ∉ m.begun) :
    WorldInv (w.emit [.shutdown e]) { m with begun := insert e m.begun } drops := by
  refine ⟨h.flow.sameFlow (SameFlow.of_ep rfl rfl rfl (by simp [Event.Silent])), h.born, h.tie,
    h.refs, h.set, h.desc, h.table, h.pending, h.leaders, ?_, ?_⟩
  · intro x
    rw [World.emit_trace, List.count_append, h.trace.shutdowns]
    by_cases hx : x = e
    · subst hx
      rw [ind_neg hb, ind_pos (Set.mem_insert _ _)]
      simp
    · rw [ind_insert_of_ne hx]
      simp [Ne.symm hx]
  · intro x
    rw [World.emit_trace, List.countP_append, h.trace.closes]
    simp [Event.closes]

/-- `close(fd_)`. -/
theorem close_step (h : WorldInv w m drops) (ho : m.Ordered) (he : e.pair < w.pairs)
    (hclosed : e ∉ m.closed) :
    WorldInv (w.closed e) { m with closed := insert e m.closed } drops := by
  have hother : ∀ x, x.pair < w.pairs → x ∉ insert e m.closed → w.fd x ≠ w.fd e := by
    intro x hx hxc
    rw [Set.mem_insert_iff, not_or] at hxc
    exact h.desc.ne he hclosed hx hxc.2 hxc.1
  refine ⟨h.flow.sameFlow (SameFlow.of_ep rfl rfl rfl (by simp [Event.Silent])), h.born, h.tie,
    h.refs, h.set, ?_, ⟨?_, ?_⟩, h.pending, h.leaders, ⟨?_, ?_⟩⟩
  · intro x hx hxc
    show Function.update w.kernel.desc (w.fd e) .closed (w.fd x) = _
    rw [Function.update_of_ne (hother x hx hxc)]
    exact h.desc x hx fun hc => hxc (Set.mem_insert_of_mem _ hc)
  · intro n r hr
    change Function.update w.kernel.table (w.fd e) none n = some r at hr
    by_cases hn : n = w.fd e
    · subst hn
      rw [Function.update_self] at hr
      cases hr
    · rw [Function.update_of_ne hn] at hr
      obtain ⟨hfd, hreg, hcl⟩ := h.table.sound n r hr
      refine ⟨hfd, hreg, ?_⟩
      rw [Set.mem_insert_iff, not_or]
      refine ⟨?_, hcl⟩
      rintro rfl
      exact hn hfd.symm
  · intro x hx hxc
    have htied := ho.taken_tied (ho.added_taken (ho.registered_added hx))
    show ∃ r, Function.update w.kernel.table (w.fd e) none (w.fd x) = some r ∧ _
    rw [Function.update_of_ne (hother x (h.born x htied) hxc)]
    exact h.table.complete x hx fun hc => hxc (Set.mem_insert_of_mem _ hc)
  · intro x
    rw [World.closed_trace, List.count_append, h.trace.shutdowns]
    simp
  · intro x
    rw [World.closed_trace, List.countP_append, h.trace.closes]
    by_cases hx : x = e
    · subst hx
      rw [ind_neg hclosed, ind_pos (Set.mem_insert _ _)]
      simp [Event.closes]
    · rw [ind_insert_of_ne hx]
      simp [Event.closes, Ne.symm hx]

/-- The section of `PollThread::remove` under `m_`. -/
theorem remove_step (h : WorldInv w m drops) (hadd : e ∈ m.added) (hrem : e ∉ m.removed) :
    WorldInv (w.removed e) { m with removed := insert e m.removed } drops :=
  ⟨h.flow.sameFlow (SameFlow.of_ep rfl rfl (List.append_nil _).symm (by simp)), h.born, h.tie,
    h.refs, h.set.remove ((h.set.mem e).mpr ⟨hadd, hrem⟩), h.desc, h.table, h.pending, h.leaders,
    h.trace⟩

/-- `pending_remove_.insert`. -/
theorem pend_step (h : WorldInv w m drops) (htaken : e ∈ m.taken) (hpend : e ∉ m.pended) :
    WorldInv (w.pended e) { m with pended := insert e m.pended } drops := by
  have hnot : e ∉ w.thread.pendingRemove := fun hmem => hpend (h.pending.mem e hmem)
  have hnew : (w.pended e).thread.pendingRemove = e :: w.thread.pendingRemove := by
    simp [World.pended, PollThread.pend, hnot]
  refine ⟨h.flow.sameFlow (SameFlow.of_ep rfl rfl (List.append_nil _).symm (by simp)), h.born,
    h.tie, ?_, h.set, h.desc, h.table, ?_, h.leaders, h.trace⟩
  · rw [hnew]
    intro x hx
    have hold := h.refs x hx
    show w.refcnt x = _
    by_cases hxe : x = e
    · subst hxe
      rw [ind_pos (p := x ∈ m.taken ∧ x ∉ m.pended) ⟨htaken, hpend⟩] at hold
      rw [ind_neg (p := x ∈ m.taken ∧ x ∉ insert x m.pended)
        (fun hh => hh.2 (Set.mem_insert _ _)), List.count_cons_self]
      push_cast at hold ⊢
      omega
    · rw [ind_congr (p := x ∈ m.taken ∧ x ∉ insert e m.pended)
        (q := x ∈ m.taken ∧ x ∉ m.pended) (by rw [Set.mem_insert_iff]; simp [hxe]),
        List.count_cons_of_ne (Ne.symm hxe)]
      exact hold
  · rw [hnew]
    constructor
    · exact List.nodup_cons.mpr ⟨hnot, h.pending.nodup⟩
    · intro x hx
      rcases List.mem_cons.mp hx with rfl | hx
      · exact Set.mem_insert _ _
      · exact Set.mem_insert_of_mem _ (h.pending.mem x hx)

/-- `release` of the reference from construction. -/
theorem release_step (h : WorldInv w m drops) (hrel : e ∉ m.released) :
    WorldInv (w.released e) { m with released := insert e m.released } drops := by
  have htie : TieInv (w.released e).ep m.tied m.ready := by
    intro x
    rw [World.released_ep]
    split_ifs with hx
    · subst hx
      exact h.tie x
    · exact h.tie x
  refine ⟨h.flow.sameFlow (sameFlow_refcnt e _), h.born, htie, ?_, ?_, ?_, ?_, h.pending, ?_,
    h.trace⟩
  · intro x hx
    have hold := h.refs x hx
    unfold World.refcnt at hold ⊢
    rw [World.released_ep]
    by_cases hxe : x = e
    · subst hxe
      rw [ind_pos (p := x ∉ m.released) hrel] at hold
      rw [if_pos rfl, ind_neg (p := x ∉ insert x m.released)
        (fun hh => hh (Set.mem_insert _ _))]
      dsimp only [World.released_thread] at hold ⊢
      push_cast at hold ⊢
      omega
    · rw [if_neg hxe, ind_congr (p := x ∉ insert e m.released) (q := x ∉ m.released)
        (by simp [hxe])]
      exact hold
  · rw [World.released_fd]
    exact h.set
  · rw [World.released_fd]
    exact h.desc
  · rw [World.released_fd]
    exact h.table
  · rw [World.released_key]
    exact h.leaders

/-- `release` in the removal pass, of the reference of the poll manager. -/
theorem drop_step (h : WorldInv w m (e :: drops)) : WorldInv (w.released e) m drops := by
  have htie : TieInv (w.released e).ep m.tied m.ready := by
    intro x
    rw [World.released_ep]
    split_ifs with hx
    · subst hx
      exact h.tie x
    · exact h.tie x
  refine ⟨h.flow.sameFlow (sameFlow_refcnt e _), h.born, htie, ?_, ?_, ?_, ?_, h.pending, ?_,
    h.trace⟩
  · intro x hx
    have hold := h.refs x hx
    unfold World.refcnt at hold ⊢
    rw [World.released_ep]
    by_cases hxe : x = e
    · subst hxe
      rw [List.count_cons_self] at hold
      rw [if_pos rfl]
      dsimp only [World.released_thread] at hold ⊢
      push_cast at hold ⊢
      omega
    · rw [List.count_cons_of_ne (Ne.symm hxe)] at hold
      rw [if_neg hxe]
      exact hold
  · rw [World.released_fd]
    exact h.set
  · rw [World.released_fd]
    exact h.desc
  · rw [World.released_fd]
    exact h.table
  · rw [World.released_key]
    exact h.leaders

/-- The leader's entry leaves the registry. -/
theorem eraseLeader_step (h : WorldInv w m drops) :
    WorldInv (w.forgotten e) { m with erased := insert e m.erased } drops := by
  refine ⟨h.flow.sameFlow (SameFlow.of_ep rfl rfl (List.append_nil _).symm (by simp)), h.born,
    h.tie, h.refs, h.set, h.desc, h.table, h.pending, ⟨h.leaders.nodup.erase _, ?_⟩, h.trace⟩
  intro k x
  show (k, x) ∈ w.leaders.erase (w.key e, e) ↔ _
  rw [h.leaders.nodup.mem_erase_iff, h.leaders.mem]
  constructor
  · rintro ⟨hne, hs, ht, her, rfl⟩
    refine ⟨hs, ht, ?_, rfl⟩
    rw [Set.mem_insert_iff, not_or]
    refine ⟨?_, her⟩
    rintro rfl
    exact hne rfl
  · rintro ⟨hs, ht, her, rfl⟩
    rw [Set.mem_insert_iff, not_or] at her
    refine ⟨?_, hs, ht, her.2, rfl⟩
    intro heq
    exact her.1 (Prod.mk.inj heq).2

/-- The pending pollables become the ones the removal pass has to drop. -/
theorem swap_step (h : WorldInv w m []) {removePoll : List Ep}
    (hperm : removePoll.Perm w.thread.pendingRemove) : WorldInv w.swapped m removePoll := by
  refine ⟨h.flow.sameFlow (SameFlow.of_ep rfl rfl (List.append_nil _).symm (by simp)), h.born,
    h.tie, ?_, h.set, h.desc, h.table, ⟨List.nodup_nil, by simp⟩, h.leaders, h.trace⟩
  intro x hx
  have hold := h.refs x hx
  rw [List.count_nil] at hold
  rw [World.swapped_pendingRemove, List.count_nil, hperm.count_eq]
  show w.refcnt x = _
  push_cast at hold ⊢
  omega

/-- The kernel side of the removal pass spares every endpoint that is still
    registered: `mode_` has its number. -/
theorem unregister_step (h : WorldInv w m drops) (ho : m.Ordered) :
    WorldInv (w.unregistered e) m drops := by
  refine ⟨h.flow.sameFlow (SameFlow.of_ep rfl rfl (List.append_nil _).symm (by simp)), h.born,
    h.tie, h.refs, h.set, ?_, ?_, h.pending, h.leaders, h.trace⟩
  · rw [World.unregistered_desc]
    exact h.desc
  · show TableInv w.fd (w.thread.unregister w.kernel (w.fd e)).table m.registered m.closed
    unfold PollThread.unregister
    split
    · rename_i hmode
      constructor
      · intro n r hr
        change Function.update w.kernel.table (w.fd e) none n = some r at hr
        by_cases hn : n = w.fd e
        · subst hn
          rw [Function.update_self] at hr
          cases hr
        · rw [Function.update_of_ne hn] at hr
          exact h.table.sound n r hr
      · intro x hx hxc
        have hin : x ∈ w.thread.pollSet :=
          (h.set.mem x).mpr ⟨ho.registered_added hx, fun hr => hxc (ho.removed_closed hr)⟩
        have hne : w.fd x ≠ w.fd e := by
          intro heq
          exact (h.set.mode (w.fd e)).mpr ⟨x, hin, heq⟩ hmode
        show ∃ r, Function.update w.kernel.table (w.fd e) none (w.fd x) = some r ∧ _
        rw [Function.update_of_ne hne]
        exact h.table.complete x hx hxc
    · exact h.table

theorem updateMode_step (h : WorldInv w m drops) (ho : m.Ordered) {newMode : Mode}
    (hm : w.updateMode e newMode = some w') : WorldInv w' m drops := by
  have hflow := h.flow.sameFlow (Flow.updateMode_sameFlow hm)
  rcases World.updateMode_cases hm with ⟨rfl, -⟩ | ⟨oldMode, rfl, hin, hmode, -, htable⟩
  · exact h
  refine ⟨hflow, h.born, h.tie, h.refs, ⟨h.set.mem, h.set.nodup, ?_, h.set.distinct⟩, h.desc,
    ⟨?_, ?_⟩, h.pending, h.leaders, h.trace.emit (by simp) (by simp)⟩
  · intro n
    show Function.update w.thread.mode (w.fd e) _ n ≠ none ↔
      ∃ x ∈ w.thread.pollSet, w.fd x = n
    rw [← h.set.mode n]
    by_cases hn : n = w.fd e
    · subst hn
      have hold : w.thread.mode (w.fd e) ≠ none := by
        intro heq
        exact Option.some_ne_none _ (hmode.symm.trans heq)
      simp [hold]
    · rw [Function.update_of_ne hn]
  · -- the registration under the number is the one of `e` itself
    obtain ⟨r, hr⟩ := Option.ne_none_iff_exists'.mp htable
    obtain ⟨hfd, hreg, hcl⟩ := h.table.sound _ r hr
    have hrin : r.ptr ∈ w.thread.pollSet :=
      (h.set.mem _).mpr ⟨ho.registered_added hreg, fun hrm => hcl (ho.removed_closed hrm)⟩
    have hptr : r.ptr = e := h.set.distinct _ hrin e hin hfd
    intro n r' hr'
    change Function.update w.kernel.table (w.fd e) _ n = some r' at hr'
    by_cases hn : n = w.fd e
    · subst hn
      rw [Function.update_self] at hr'
      obtain rfl := Option.some.inj hr'
      exact ⟨rfl, hptr ▸ hreg, hptr ▸ hcl⟩
    · rw [Function.update_of_ne hn] at hr'
      exact h.table.sound n r' hr'
  · intro x hx hxc
    show ∃ r, Function.update w.kernel.table (w.fd e) _ (w.fd x) = some r ∧ _
    by_cases hfd : w.fd x = w.fd e
    · have hxin : x ∈ w.thread.pollSet :=
        (h.set.mem x).mpr ⟨ho.registered_added hx, fun hr => hxc (ho.removed_closed hr)⟩
      have hxe : x = e := h.set.distinct x hxin e hin hfd
      subst hxe
      rw [Function.update_self]
      exact ⟨_, rfl, rfl⟩
    · rw [Function.update_of_ne hfd]
      exact h.table.complete x hx hxc

theorem transferred_step (h : WorldInv w m drops) {owner : Ep} {calls : List FdCall}
    {buf : Marshal} (hflow : Flow (w.transferred e owner calls buf)) :
    WorldInv (w.transferred e owner calls buf) m drops := by
  obtain ⟨hfd, hkey, href⟩ := w.transferred_fields e owner calls buf
  refine ⟨hflow, h.born, ?_, ?_, ?_, ?_, ?_, h.pending, ?_, h.trace.emit (by simp) (by simp)⟩
  · intro x
    rw [World.transferred_peer, World.transferred_leader, World.transferred_enabled]
    exact h.tie x
  · rw [href]
    exact h.refs
  · rw [hfd]
    exact h.set
  · rw [hfd]
    exact h.desc
  · rw [hfd]
    exact h.table
  · rw [hkey]
    exact h.leaders

theorem handleRead_step (h : WorldInv w m drops) (ho : m.Ordered)
    {offers : List (Option (List Byte))} (hr : w.handleRead e offers = some w') :
    WorldInv w' m drops := by
  cases hen : (w.ep e).enabled with
  | false =>
    rw [World.handleRead_disabled hen] at hr
    exact Option.some.inj hr ▸ h
  | true =>
    rcases h.flow.peer e with hpeer | hpeer
    · simp [World.handleRead, hen, hpeer] at hr
    obtain ⟨calls, buf, hrec, heq⟩ := World.handleRead_eq hen hpeer (h.flow.bufs e.other) offers
    have ht := h.transferred_step (h.flow.received hen hrec)
    rw [heq] at hr
    split at hr
    · exact ht.updateMode_step ho hr
    · exact Option.some.inj hr ▸ ht

theorem handleWrite_step (h : WorldInv w m drops) (ho : m.Ordered) {accepts : List Int}
    (hr : w.handleWrite e accepts = some w') : WorldInv w' m drops := by
  cases hen : (w.ep e).enabled with
  | false =>
    rw [World.handleWrite_disabled hen] at hr
    exact Option.some.inj hr ▸ h
  | true =>
    obtain ⟨calls, buf, hwr, heq⟩ := World.handleWrite_eq hen (h.flow.bufs e) accepts
    rw [heq] at hr
    exact (h.transferred_step (h.flow.written hen hwr)).updateMode_step ho hr

/-- Two sockets that a worker holds become the sockets of a new pair. -/
theorem newPair_step (h : WorldInv w m drops) (ho : m.Ordered) {fd1 fd2 : Nat}
    (h1 : w.kernel.desc fd1 = .held) (h2 : w.kernel.desc fd2 = .held) (hne : fd1 ≠ fd2)
    (hready : m.ready ⊆ m.tied) (hfree : ∀ e, e.pair = w.pairs → e ∉ m.released)
    (hdrops : ∀ e ∈ drops, e.pair < w.pairs) : WorldInv (w.newPair fd1 fd2) m drops := by
  have hep : ∀ x, x.pair ≠ w.pairs → (w.newPair fd1 fd2).ep x = w.ep x := by
    intro x hx
    obtain ⟨p, s⟩ := x
    have hp : p ≠ w.pairs := hx
    rw [World.newPair_ep]
    simp [hp]
  have hnew : ∀ x, x.pair = w.pairs → ∃ n, (w.newPair fd1 fd2).ep x = EndPoint.new n := by
    rintro ⟨p, s⟩ rfl
    rw [World.newPair_ep]
    cases s <;> simp
  have htied : ∀ x ∈ m.tied, x.pair ≠ w.pairs := fun x hx => Nat.ne_of_lt (h.born x hx)
  have hfd : ∀ x ∈ m.added, (w.newPair fd1 fd2).fd x = w.fd x := by
    intro x hx
    unfold World.fd
    rw [hep x (htied x (ho.taken_tied (ho.added_taken hx)))]
  refine ⟨h.flow.newPair fd1 fd2, ?_, ?_, ?_, h.set.congr hfd, ?_,
    h.table.congr fun x hx => hfd x (ho.registered_added hx), h.pending,
    h.leaders.congr ?_, h.trace⟩
  · intro x hx
    exact Nat.lt_succ_of_lt (h.born x hx)
  · intro x
    by_cases hx : x.pair = w.pairs
    · obtain ⟨n, hn⟩ := hnew x hx
      rw [hn]
      refine ⟨fun ht => absurd hx (htied x ht), ?_⟩
      constructor
      · intro hen
        cases hen
      · intro hr
        exact absurd hx (htied x (hready hr))
    · rw [hep x hx]
      exact h.tie x
  · intro x hx
    by_cases hxp : x.pair = w.pairs
    · obtain ⟨n, hn⟩ := hnew x hxp
      have hnt : x ∉ m.taken := fun ht => htied x (ho.taken_tied ht) hxp
      have hnp : x ∉ w.thread.pendingRemove := by
        intro hmem
        exact hnt (ho.pended_taken (h.pending.mem x hmem))
      have hnd : x ∉ drops := fun hmem => Nat.ne_of_lt (hdrops x hmem) hxp
      rw [World.refcnt, hn, ind_pos (hfree x hxp), ind_neg (fun hh => hnt hh.1),
        World.newPair_thread, List.count_eq_zero.mpr hnp, List.count_eq_zero.mpr hnd]
      rfl
    · have hlt : x.pair < w.pairs :=
        Nat.lt_of_le_of_ne (Nat.le_of_lt_succ hx) hxp
      rw [World.refcnt, hep x hxp]
      exact h.refs x hlt
  · intro x hx hxc
    by_cases hxp : x.pair = w.pairs
    · obtain ⟨p, s⟩ := x
      obtain rfl : p = w.pairs := hxp
      rw [World.newPair_desc, World.fd, World.newPair_ep]
      cases s <;> simp [EndPoint.new, hne]
    · have hlt : x.pair < w.pairs :=
        Nat.lt_of_le_of_ne (Nat.le_of_lt_succ hx) hxp
      have hown := h.desc x hlt hxc
      rw [World.newPair_desc, World.fd, hep x hxp]
      change Function.update (Function.update w.kernel.desc fd1 _) fd2 _ (w.fd x) = _
      have hne1 : w.fd x ≠ fd1 := by
        intro heq
        rw [heq, h1] at hown
        cases hown
      have hne2 : w.fd x ≠ fd2 := by
        intro heq
        rw [heq, h2] at hown
        cases hown
      rw [Function.update_of_ne hne2, Function.update_of_ne hne1]
      exact hown
  · intro x hx
    unfold World.key
    rw [hep x (htied x hx)]

/-- A number is handed out. -/
theorem grab_step (h : WorldInv w m drops) {fd : Nat} (hfd : w.kernel.desc fd = .closed) :
    WorldInv { w with kernel := w.kernel.setDesc fd .held } m drops :=
  ⟨h.flow.sameFlow (SameFlow.of_ep rfl rfl (List.append_nil _).symm (by simp)), h.born, h.tie,
    h.refs, h.set, h.desc.update (by simp [hfd]), h.table, h.pending, h.leaders, h.trace⟩

/-- A worker closes a socket that it holds. -/
theorem giveBack_step (h : WorldInv w m drops) (ho : m.Ordered) {fd : Nat}
    (hfd : w.kernel.desc fd = .held) :
    WorldInv { w with kernel := w.kernel.close fd } m drops := by
  have hother : ∀ x ∈ m.registered, x ∉ m.closed → w.fd x ≠ fd := by
    intro x hx hxc heq
    have hown := h.desc x (h.born x (ho.taken_tied (ho.added_taken (ho.registered_added hx)))) hxc
    rw [heq, hfd] at hown
    cases hown
  refine ⟨h.flow.sameFlow (SameFlow.of_ep rfl rfl (List.append_nil _).symm (by simp)), h.born,
    h.tie, h.refs, h.set, h.desc.update (by simp [hfd]), ⟨?_, ?_⟩, h.pending, h.leaders, h.trace⟩
  · intro n r hr
    change Function.update w.kernel.table fd none n = some r at hr
    by_cases hn : n = fd
    · subst hn
      rw [Function.update_self] at hr
      cases hr
    · rw [Function.update_of_ne hn] at hr
      exact h.table.sound n r hr
  · intro x hx hxc
    show ∃ r, Function.update w.kernel.table fd none (w.fd x) = some r ∧ _
    rw [Function.update_of_ne (hother x hx hxc)]
    exact h.table.complete x hx hxc

end WorldInv

end VncProxy.Proxy
