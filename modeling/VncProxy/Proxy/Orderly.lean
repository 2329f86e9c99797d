/-
  VncProxy.Proxy.Orderly

  The end of a connection that one side closes in good order.  `handle_error` runs
  after `handle_read` in the same turn of the loop and shuts the pair down at once,
  whatever waits in the buffer of the other side.  Nothing is lost in the runs in
  which the hang-up is taken up with that buffer empty and brings no bytes along.
-/
import VncProxy.Proxy.LifeFacts

namespace VncProxy.Proxy

open Lib (Threads)
open Polling

-- ============================================================================
-- The property
-- ============================================================================

/-- When the endpoint of the side that stays open is closed, every byte that was read
    from its peer has been written to it. -/
def Delivered (closer : Nat → Side) (c : Config) : Prop :=
  ∀ (e : Ep) (fd : Nat) (pre post : List Event), c.world.trace = pre ++ .close e fd :: post →
    e.side ≠ closer e.pair → sent e pre = received e.other pre

/-- Of each pair only one side hangs up, and nobody calls `cleanup`. -/
def OneSide (closer : Nat → Side) (c : Config) : Act → Prop
  | .cleanup _ => False
  | .wait batch => ∀ entry ∈ batch, entry.2.error = true → ∀ r ∈ c.world.kernel.table entry.1,
      r.ptr.side = closer r.ptr.pair
  | _ => True

instance (closer : Nat → Side) (c : Config) : ∀ a, Decidable (OneSide closer c a)
  | .cleanup _ => isFalse id
  | .wait batch => inferInstanceAs (Decidable (∀ entry ∈ batch, _))
  | .exec _ _ | .tieFd _ _ _ | .grab _ | .giveBack _ => isTrue trivial

/-- The endpoint of an entry with a hang-up. -/
def Instr.hangsUp : Instr → Option Ep
  | .event e ev => if ev.error then some e else none
  | _ => none

/-- A hang-up is taken up when the buffer of the other side is empty, and the
    `handle_read` in front of `handle_error` finds nothing to read. -/
def Flushed (c : Config) : Act → Prop
  | .exec t o =>
    (∀ e ∈ (c.next t).bind Instr.hangsUp, (c.world.ep e.other).buf.content = []) ∧
      ∀ e ∈ (c.next t).bind Instr.reads, .handleError e ∈ c.code t →
        ∀ r ∈ exec o c.world (.handleRead e), received e r.1.trace = received e c.world.trace
  | _ => True

instance (c : Config) : ∀ a, Decidable (Flushed c a)
  | .exec _ _ => inferInstanceAs (Decidable (_ ∧ _))
  | .wait _ | .tieFd _ _ _ | .cleanup _ | .grab _ | .giveBack _ => isTrue trivial

-- ============================================================================
-- Hang-ups on their way
-- ============================================================================

/-- The endpoint of an entry with a hang-up, or of its handler. -/
def Instr.erring : Instr → Option Ep
  | .event e ev => if ev.error then some e else none
  | .handleError e => some e
  | _ => none

/-- The hang-ups that the poll thread has still to handle. -/
def hangUps (is : List Instr) : List Ep := is.filterMap Instr.erring

section HangUps

variable {w w' : World} {o : Oracle} {i : Instr} {pre rest : List Instr} {e : Ep}

theorem Instr.erring_io {x : Ep} (h : i.erring = some x) : i.io = some x := by
  cases i with
  | event y ev =>
    simp only [erring] at h
    split at h
    · exact h
    · cases h
  | handleError y => exact h
  | _ => cases h

theorem hangUps_dispatch (e : Ep) (ev : Events) :
    hangUps (dispatch e ev) = (Instr.event e ev).erring.toList := by
  cases hin : ev.epollin <;> cases hout : ev.epollout <;> cases herr : ev.error <;>
    simp only [hangUps, dispatch, Instr.erring, hin, hout, herr] <;> rfl

/-- A section leads to no hang-up but its own. -/
theorem exec_hangUps (h : exec o w i = some (w', pre)) :
    (hangUps (pre ++ rest)).Sublist (hangUps (i :: rest)) := by
  have hcons : hangUps (i :: rest) = i.erring.toList ++ hangUps rest := by
    unfold hangUps
    rw [List.filterMap_cons]
    cases i.erring <;> rfl
  have happend : hangUps (pre ++ rest) = hangUps pre ++ hangUps rest := List.filterMap_append
  rw [hcons, happend, List.append_sublist_append_right]
  have hnone : (∀ x, i.io = some x → ∀ j ∈ pre, j.io = none) → hangUps pre = [] := by
    intro hio
    apply List.filterMap_eq_nil_iff.mpr
    intro j hj
    cases hje : j.erring with
    | none => rfl
    | some x =>
      have hjx := Instr.erring_io hje
      rw [hio x ((exec_pre h j hj).2.2 x hjx) j hj] at hjx
      cases hjx
  cases i with
  | event x ev =>
    obtain ⟨-, rfl⟩ := Prod.mk.inj (Option.some.inj h)
    rw [hangUps_dispatch]
  | handleError x =>
    obtain ⟨-, ⟨-, rfl⟩ | ⟨-, -, rfl⟩ | ⟨-, -, peer, -, rfl⟩⟩ := exec_handleError.mp h <;>
      simp [hangUps, Instr.erring]
  | handleRead x =>
    obtain ⟨-, rfl⟩ := exec_handleRead.mp h
    exact List.nil_sublist _
  | handleWrite x =>
    obtain ⟨-, rfl⟩ := exec_handleWrite.mp h
    exact List.nil_sublist _
  | _ =>
    rw [hnone (fun x hx => by cases hx)]
    exact List.nil_sublist _

/-- The hang-ups of a batch, if each registration is about its number. -/
theorem entries_hangUps {k : Kernel Ep} {fd : Ep → Nat} {batch : List (Nat × Events)}
    {is : List Instr} (hfd : ∀ n r, k.table n = some r → fd r.ptr = n)
    (hnodup : (batch.map Prod.fst).Nodup) (h : entries k batch = some is) :
    (hangUps is).Nodup := by
  induction batch generalizing is with
  | nil =>
    obtain rfl := Option.some.inj h
    exact List.nodup_nil
  | cons entry batch ih =>
    obtain ⟨hnew, hnodup'⟩ := List.nodup_cons.mp hnodup
    simp only [entries, Option.bind_eq_bind, Option.bind_eq_some_iff, Option.pure_def,
      Option.some.injEq] at h
    obtain ⟨r, hr, is', his', rfl⟩ := h
    have hrest := ih hnodup' his'
    have hfresh : r.ptr ∉ hangUps is' := by
      intro hmem
      obtain ⟨i, hi, herr⟩ := List.mem_filterMap.mp hmem
      obtain ⟨entry', hentry, r', hr', rfl⟩ := mem_entries his' hi
      have hptr : r'.ptr = r.ptr := Option.some.inj (Instr.erring_io herr)
      apply hnew
      rw [← hfd _ r hr, ← hptr, hfd _ r' hr']
      exact List.mem_map_of_mem hentry
    unfold hangUps
    rw [List.filterMap_cons]
    cases herr : (Instr.event r.ptr entry.2).erring with
    | none => exact hrest
    | some x =>
      obtain rfl := Option.some.inj (Instr.erring_io herr)
      exact List.nodup_cons.mpr ⟨hfresh, hrest⟩

end HangUps

-- ============================================================================
-- The invariant
-- ============================================================================

/-- The hang-ups of a batch are of different pairs that nobody is shutting down, and
    the buffer of the other side is empty from the moment a hang-up is taken up until
    the descriptor of that side is closed. -/
structure OrderlyInv (closer : Nat → Side) (c : Config) : Prop where
  ages : ∃ b d pj cj tail, Inv False c b d pj cj tail
  cleanup : c.code .cleanup = []
  nodup : (hangUps (c.code .poll)).Nodup
  hangUp : ∀ e ∈ hangUps (c.code .poll), e.side = closer e.pair ∧ Undecided c e.pair
  flushed : ∀ e, .handleError e ∈ c.code .poll → (c.world.ep e.other).buf.content = []
  drained : ∀ e, e.side ≠ closer e.pair → ¬ Undecided c e.pair →
    c.world.trace.any (Event.closes e) = true ∨ (c.world.ep e).buf.content = []
  delivered : Delivered closer c

section Step

variable {closer : Nat → Side} {c c' : Config} {t : Tid} {o : Oracle} {i : Instr}
  {pre rest : List Instr} {w : World} {e x : Ep} {b d : Nat → Nat} {pj cj : List Nat}
  {tail : List Instr}

theorem Ep.eq_of_side (hp : e.pair = x.pair) (hs : e.side = x.side) : e = x := by
  obtain ⟨p, s⟩ := e
  obtain ⟨q, s'⟩ := x
  exact (Ep.mk.injEq ..).mpr ⟨hp, hs⟩

theorem Ep.eq_other_of_side (hp : e.pair = x.pair) (hs : e.side ≠ x.side) : e = x.other := by
  apply Ep.eq_of_side (x := x.other) hp
  cases he : e.side <;> cases hx : x.side <;> simp_all [Ep.other, Side.other]

/-- A section keeps an empty buffer empty, but for a `handle_read` that gets bytes for
    it. -/
theorem exec_empty (hw : Flow c.world) (hexec : exec o c.world i = some (w, pre))
    (hread : i = .handleRead e.other → received e.other w.trace = received e.other c.world.trace)
    (hcon : (c.world.ep e).buf.content = []) : (w.ep e).buf.content = [] := by
  obtain ⟨evs, htrace, hfrom⟩ := (exec_frame hw hexec).trace
  have hbalance : Flow w → received e.other w.trace = received e.other c.world.trace →
      (w.ep e).buf.content = [] := by
    intro hw' hsame
    have hold := hw.relay e.other
    have hnew := hw'.relay e.other
    rw [Ep.other_other] at hold hnew
    rw [hsame, hold, hcon, htrace, sent_append, List.append_assoc] at hnew
    exact (List.append_eq_nil_iff.mp (List.append_cancel_left hnew).symm).2
  rcases exec_buf hw hexec e with hbuf | hi | rfl
  · rw [hbuf]
    exact hcon
  · have hread' := hread hi
    subst hi
    exact hbalance (hw.handleRead (exec_handleRead.mp hexec).1) hread'
  · have hnone : received e.other evs = [] := by
      unfold received
      rw [List.flatMap_eq_nil_iff]
      intro ev hev
      cases ev with
      | call x n call =>
        rcases hfrom _ hev with hi | hi <;> cases hi
        simp [Event.readBy, e.other_ne.symm]
      | close | ctl | shutdown => rfl
    apply hbalance (hw.handleWrite (exec_handleWrite.mp hexec).1)
    rw [htrace, received_append, hnone, List.append_nil]

/-- `handle_error` comes from an event with a hang-up. -/
theorem exec_handleError_mem (hexec : exec o c.world i = some (w, pre))
    (he : .handleError e ∈ pre) : ∃ ev, i = .event e ev ∧ ev.error = true := by
  have hio := (exec_pre hexec _ he).2.2 e rfl
  cases i with
  | event x ev =>
    obtain rfl := Option.some.inj hio
    obtain ⟨-, rfl⟩ := Prod.mk.inj (Option.some.inj hexec)
    rcases mem_dispatch he with ⟨hi, -⟩ | ⟨hi, -⟩ | ⟨-, herr⟩
    · cases hi
    · cases hi
    · exact ⟨ev, rfl, herr⟩
  | handleRead x =>
    obtain ⟨-, rfl⟩ := exec_handleRead.mp hexec
    cases he
  | handleWrite x =>
    obtain ⟨-, rfl⟩ := exec_handleWrite.mp hexec
    cases he
  | handleError x =>
    obtain ⟨-, ⟨-, rfl⟩ | ⟨-, -, rfl⟩ | ⟨-, -, peer, -, rfl⟩⟩ := exec_handleError.mp hexec <;>
      simp at he
  | _ => cases hio

/-- A descriptor is closed by a section of its own, behind everything that is in the
    trace so far. -/
theorem exec_closes (hw : Flow c.world) (hexec : exec o c.world i = some (w, pre)) {fd : Nat}
    {evs post : List Event} (htrace : w.trace = evs ++ .close e fd :: post) :
    (∃ post', c.world.trace = evs ++ .close e fd :: post') ∨
      (i = .close e ∧ evs = c.world.trace) := by
  obtain ⟨new, hnew, hfrom⟩ := (exec_frame hw hexec).trace
  rw [hnew] at htrace
  have hmine : ∀ front, new = front ++ .close e fd :: post → i = .close e ∧ front = [] := by
    intro front hfront
    have hi : i = .close e := hfrom (.close e fd) (by simp [hfront])
    subst hi
    obtain ⟨rfl, -⟩ := Prod.mk.inj (Option.some.inj hexec)
    have hone : new = [.close e (c.world.ep e).fd] := (List.append_cancel_left hnew).symm
    rw [hone] at hfront
    cases front with
    | nil => exact ⟨rfl, rfl⟩
    | cons ev front => simp at hfront
  rcases List.append_eq_append_iff.mp htrace with ⟨front, hevs, hfront⟩ | ⟨back, hback, hpost⟩
  · obtain ⟨hi, rfl⟩ := hmine front hfront
    rw [List.append_nil] at hevs
    exact Or.inr ⟨hi, hevs⟩
  · cases back with
    | nil =>
      obtain ⟨hi, -⟩ := hmine [] hpost.symm
      rw [List.append_nil] at hback
      exact Or.inr ⟨hi, hback.symm⟩
    | cons ev back =>
      obtain ⟨rfl, -⟩ := List.cons.inj hpost
      exact Or.inl ⟨back, hback⟩

theorem OrderlyInv.start : OrderlyInv closer Config.start := by
  refine ⟨⟨_, _, _, _, _, Inv.start⟩, rfl, List.nodup_nil, ?_, ?_, fun _ _ _ => Or.inr rfl, ?_⟩
  · intro e he
    cases he
  · intro e he
    cases he
  · intro e fd pre post htrace
    simp [Config.start, World.start] at htrace

/-- What is decided on is not forgotten: the moves of an orderly run are mild. -/
theorem OrderlyInv.mild (h : OrderlyInv closer c) (a : Act) : Mild c a := by
  obtain ⟨b, d, pj, cj, tail, hinv⟩ := h.ages
  cases a with
  | exec t o =>
    constructor
    · intro e he _
      obtain ⟨i, hi, hie⟩ := Option.bind_eq_some_iff.mp he
      obtain ⟨rest, hcode⟩ := List.head?_eq_some_iff.mp hi
      obtain rfl : i = .handleError e := by
        cases i <;> simp_all [Instr.errorOn]
      obtain ⟨rfl, -, -⟩ := hinv.io_poll hcode rfl
      apply (h.hangUp e _).2
      apply List.mem_filterMap.mpr
      exact ⟨_, hcode ▸ List.mem_cons_self, rfl⟩
    · intro valid hv
      obtain ⟨i, hi, hiv⟩ := Option.bind_eq_some_iff.mp hv
      obtain ⟨rest, hcode⟩ := List.head?_eq_some_iff.mp hi
      obtain rfl : i = .collect valid := by
        cases i <;> simp_all [Instr.collects]
      exfalso
      rw [hinv.collect_cleanup hcode, h.cleanup] at hcode
      cases hcode
  | _ => trivial

/-- What one section of a thread keeps. -/
theorem OrderlyInv.exec (h : OrderlyInv closer c) (hinv : Inv False c b d pj cj tail)
    (hcode : c.code t = i :: rest) (hexec : exec o c.world i = some (w, pre))
    (hflushed : Flushed c (.exec t o))
    (hinv' : ∃ b d pj cj tail, Inv False { c.load t (pre ++ rest) with world := w } b d pj cj tail) :
    OrderlyInv closer { c.load t (pre ++ rest) with world := w } := by
  have hflow := hinv.world.flow
  have hnext : c.next t = some i := by rw [Config.next, hcode, List.head?_cons]
  have ht : t ≠ .cleanup := by
    rintro rfl
    rw [h.cleanup] at hcode
    cases hcode
  have hcleanup : (c.load t (pre ++ rest)).code .cleanup = [] := by
    rw [Threads.load_code_of_ne _ ht.symm]
    exact h.cleanup
  have hcollect : ∀ valid, i ≠ .collect valid := by
    rintro valid rfl
    exact ht (hinv.collect_cleanup hcode)
  -- the hang-ups that are left were there before
  have hsub : (hangUps ((c.load t (pre ++ rest)).code .poll)).Sublist (hangUps (c.code .poll)) := by
    by_cases htp : t = .poll
    · subst htp
      rw [Threads.load_code_self, hcode]
      exact exec_hangUps hexec
    · rw [Threads.load_code_of_ne _ (Ne.symm htp)]
  have hmine : ∀ x, i = .handleError x → t = .poll ∧ x ∈ hangUps (c.code .poll) := by
    rintro x rfl
    obtain ⟨rfl, -, -⟩ := hinv.io_poll hcode rfl
    exact ⟨rfl, List.mem_filterMap.mpr ⟨_, hcode ▸ List.mem_cons_self, rfl⟩⟩
  -- deciding on a shutdown takes a hang-up
  have hdecided : ∀ p, ¬ Undecided { c.load t (pre ++ rest) with world := w } p →
      ¬ Undecided c p ∨ ∃ x, i = .handleError x ∧ x.pair = p := by
    intro p hp
    by_contra hno
    rw [not_or, not_not] at hno
    apply hp
    exact hinv.keeps_undecided hcode hexec hno.1 (fun x hx hxp => hno.2 ⟨x, hx, hxp⟩) hcollect
  have hclosed : ∀ e, c.world.trace.any (Event.closes e) = true →
      w.trace.any (Event.closes e) = true := by
    intro e he
    obtain ⟨evs, htrace, -⟩ := (exec_frame hflow hexec).trace
    rw [htrace, List.any_append, he, Bool.true_or]
  refine ⟨hinv', hcleanup, h.nodup.sublist hsub, ?_, ?_, ?_, ?_⟩
  · intro e he
    have hold := hsub.subset he
    obtain ⟨hside, hund⟩ := h.hangUp e hold
    refine ⟨hside, hinv.keeps_undecided hcode hexec hund ?_ hcollect⟩
    -- a hang-up that is handled is the only one of its pair
    rintro x rfl hpair
    obtain ⟨rfl, hx⟩ := hmine x rfl
    have hsame : e = x := by
      have hxside := (h.hangUp x hx).1
      rw [hpair, ← hside] at hxside
      exact Ep.eq_of_side hpair.symm hxside.symm
    have hin : e ∈ hangUps rest := by
      rw [Threads.load_code_self] at he
      obtain ⟨-, ⟨-, rfl⟩ | ⟨-, -, rfl⟩ | ⟨-, -, peer, -, rfl⟩⟩ := exec_handleError.mp hexec <;>
        exact he
    have hnodup := h.nodup
    rw [hcode] at hnodup
    exact (List.nodup_cons.mp hnodup).1 (hsame ▸ hin)
  · intro e he
    -- one that was there already
    have hkeep : .handleError e ∈ c.code .poll → (w.ep e.other).buf.content = [] := by
      intro hin
      apply exec_empty hflow hexec _ (h.flushed e hin)
      rw [Ep.other_other]
      rintro rfl
      obtain ⟨rfl, -, -⟩ := hinv.io_poll hcode rfl
      exact hflushed.2 e (by rw [hnext]; rfl) hin (w, pre) hexec
    by_cases htp : t = .poll
    · subst htp
      change .handleError e ∈ (c.load .poll (pre ++ rest)).code .poll at he
      rw [Threads.load_code_self] at he
      rcases List.mem_append.mp he with hin | hin
      · obtain ⟨ev, rfl, herr⟩ := exec_handleError_mem hexec hin
        have hcon := hflushed.1 e (by rw [hnext]; simp [Instr.hangsUp, herr])
        obtain ⟨rfl, -⟩ := Prod.mk.inj (Option.some.inj hexec)
        exact hcon
      · exact hkeep (hcode ▸ List.mem_cons_of_mem _ hin)
    · change .handleError e ∈ (c.load t (pre ++ rest)).code .poll at he
      rw [Threads.load_code_of_ne _ (Ne.symm htp)] at he
      exact hkeep he
  · intro e hside hdec
    rcases hdecided e.pair hdec with hold | ⟨x, rfl, hpair⟩
    · cases hio : i.io with
      | some x =>
        -- a handler runs when no shutdown is under way
        left
        obtain ⟨rfl, rfl, -⟩ := hinv.io_poll hcode hio
        apply hclosed
        have hcj := hinv.cleanup_nil h.cleanup
        have hact := (hinv.active e.pair).not.mp (by simp [hcj])
        have hle := hinv.ages.down_le e.pair
        rw [hinv.undecided_iff] at hold
        rw [hinv.closed_iff]
        show Side.closeAt e.side ≤ d e.pair
        cases e.side <;> simp only [Side.closeAt] <;> omega
      | none =>
        rcases h.drained e hside hold with hcl | hcon
        · exact Or.inl (hclosed e hcl)
        · right
          apply exec_empty hflow hexec _ hcon
          rintro rfl
          cases hio
    · right
      obtain ⟨rfl, hx⟩ := hmine x rfl
      have hother : e = x.other := by
        apply Ep.eq_other_of_side hpair.symm
        rw [(h.hangUp x hx).1, hpair]
        exact hside
      obtain ⟨rfl, -⟩ := exec_handleError.mp hexec
      rw [hother]
      exact h.flushed x (hcode ▸ List.mem_cons_self)
  · intro e fd evs post htrace hside
    rcases exec_closes hflow hexec htrace with ⟨post', hold⟩ | ⟨rfl, rfl⟩
    · exact h.delivered e fd evs post' hold hside
    · have hdec : ¬ Undecided c e.pair := by
        intro hu
        exact (hinv.next_down hcode (Or.inl rfl)).1 hu.1
      have hcon : (c.world.ep e).buf.content = [] := by
        rcases h.drained e hside hdec with hcl | hcon
        · exact absurd (hinv.closed_iff.mp hcl) (hinv.close_fresh hcode)
        · exact hcon
      have hrelay := hflow.relay e.other
      rw [Ep.other_other, hcon, List.append_nil] at hrelay
      exact hrelay.symm

/-- A batch brings hang-ups of pairs that nobody is shutting down. -/
theorem OrderlyInv.wait {batch : List (Nat × Events)} {is : List Instr} (h : OrderlyInv closer c)
    (hinv : Inv False c b d pj cj tail) (hidle : c.code .poll = [])
    (hnodup : (batch.map Prod.fst).Nodup) (his : entries c.world.kernel batch = some is)
    (hside : OneSide closer c (.wait batch))
    (hinv' : ∃ b d pj cj tail, Inv False (c.load .poll (is ++ [.swapPending])) b d pj cj tail) :
    OrderlyInv closer (c.load .poll (is ++ [.swapPending])) := by
  have hloads : (c.load .poll (is ++ [.swapPending])).code .poll = is ++ [.swapPending] :=
    Threads.load_code_self _
  have hhangs : hangUps (is ++ [.swapPending]) = hangUps is := by
    unfold hangUps
    rw [List.filterMap_append]
    exact List.append_nil _
  obtain ⟨rfl, -⟩ := hinv.poll_nil hidle
  have hcj := hinv.cleanup_nil h.cleanup
  have hkeep : ∀ p, Undecided c p → Undecided (c.load .poll (is ++ [.swapPending])) p := by
    rintro p ⟨htrace, -, hcleanup⟩
    refine ⟨htrace, ?_, hcleanup⟩
    rw [hloads]
    intro hin
    rcases List.mem_append.mp hin with hi | hi
    · obtain ⟨entry, -, r, -, heq⟩ := mem_entries his hi
      cases heq
    · simp at hi
  refine ⟨hinv', h.cleanup, ?_, ?_, ?_, ?_, h.delivered⟩
  · rw [hloads, hhangs]
    exact entries_hangUps (fun n r hr => (hinv.world.table.sound n r hr).1) hnodup his
  · intro e he
    rw [hloads, hhangs] at he
    obtain ⟨i, hi, herr⟩ := List.mem_filterMap.mp he
    obtain ⟨entry, hentry, r, hr, rfl⟩ := mem_entries his hi
    obtain rfl : r.ptr = e := Option.some.inj (Instr.erring_io herr)
    have herror : entry.2.error = true := by
      simp only [Instr.erring] at herr
      split at herr
      · assumption
      · cases herr
    have hzero : d r.ptr.pair = 0 := by
      have hopen : ¬ Side.closeAt r.ptr.side ≤ d r.ptr.pair := (hinv.world.table.sound _ r hr).2.2
      have hact := (hinv.active r.ptr.pair).not.mp (by simp [hcj])
      have hle := hinv.ages.down_le r.ptr.pair
      cases hs : r.ptr.side <;> rw [hs] at hopen <;> simp only [Side.closeAt] at hopen <;> omega
    exact ⟨hside entry hentry herror r hr, hkeep _ (hinv.undecided_iff.mpr hzero)⟩
  · intro e he
    rw [hloads] at he
    rcases List.mem_append.mp he with hi | hi
    · obtain ⟨entry, -, r, -, heq⟩ := mem_entries his hi
      cases heq
    · simp at hi
  · intro e hne hdec
    exact h.drained e hne fun hu => hdec (hkeep _ hu)

theorem OrderlyInv.step {a : Act} (h : OrderlyInv closer c) (hside : OneSide closer c a)
    (hflushed : Flushed c a) (hs : Proxy.step a c = some c') : OrderlyInv closer c' := by
  obtain ⟨b, d, pj, cj, tail, hinv⟩ := h.ages
  have hinv' := hinv.step (h.mild a) False.elim False.elim hs
  cases a with
  | exec t o =>
    obtain ⟨i, rest, -, hcode, ⟨-, rfl⟩ | ⟨w, pre, hexec, rfl⟩⟩ := Threads.run_cases hs
    · exact ⟨hinv', h.cleanup, h.nodup, h.hangUp, h.flushed, h.drained, h.delivered⟩
    · exact h.exec hinv hcode hexec hflushed hinv'
  | wait batch =>
    simp only [Proxy.step] at hs
    split at hs
    · rename_i hguard
      obtain ⟨is, his, rfl⟩ := Option.map_eq_some_iff.mp hs
      exact h.wait hinv hguard.2.1 hguard.2.2.2 his hside hinv'
    · cases hs
  | tieFd key fd1 fd2 =>
    simp only [Proxy.step] at hs
    split at hs
    · obtain rfl := Option.some.inj hs
      have hcode : ∀ u, (∀ p, u ≠ .worker p) →
          (c.load (.worker c.world.pairs) (tieFd c.world.pairs key)).code u = c.code u :=
        fun u hu => Threads.load_code_of_ne _ (hu _)
      have hpoll := hcode .poll (by simp)
      have hcleanup := hcode .cleanup (by simp)
      have hcon : ∀ e, (c.world.ep e).buf.content = [] →
          ((c.world.newPair fd1 fd2).ep e).buf.content = [] := by
        intro e he
        rw [World.newPair_ep]
        split_ifs
        · exact EndPoint.new_content fd1
        · exact EndPoint.new_content fd2
        · exact he
      have hund : ∀ p, Undecided c p ↔ Undecided { c.load (.worker c.world.pairs)
          (tieFd c.world.pairs key) with world := c.world.newPair fd1 fd2 } p := by
        intro p
        unfold Undecided
        rw [hpoll, hcleanup]
        rfl
      refine ⟨hinv', hcleanup.trans h.cleanup, ?_, ?_, ?_, ?_, h.delivered⟩
      · rw [hpoll]
        exact h.nodup
      · rw [hpoll]
        intro e he
        obtain ⟨hs', hu⟩ := h.hangUp e he
        exact ⟨hs', (hund _).mp hu⟩
      · rw [hpoll]
        intro e he
        exact hcon _ (h.flushed e he)
      · intro e hne hdec
        exact (h.drained e hne fun hu => hdec ((hund _).mp hu)).imp id (hcon e)
    · cases hs
  | cleanup valid => exact hside.elim
  | grab fd | giveBack fd =>
    simp only [Proxy.step] at hs
    split at hs
    · obtain rfl := Option.some.inj hs
      exact ⟨hinv', h.cleanup, h.nodup, h.hangUp, h.flushed, h.drained, h.delivered⟩
    · cases hs

end Step

/-- In every run in which one side of each pair hangs up, and does so when nothing of it
    is left on the way. -/
theorem orderly {closer : Nat → Side} {c : Config}
    (hrun : Run (fun c a => OneSide closer c a ∧ Flushed c a) c) : Delivered closer c := by
  have hinv : OrderlyInv closer c := by
    refine Lib.Reach.invariant (I := OrderlyInv closer) ?_ ?_ hrun
    · rintro _ rfl
      exact OrderlyInv.start
    · rintro s s' - hs ⟨a, ⟨hside, hflushed⟩, hstep⟩
      exact hs.step hside hflushed hstep
  exact hinv.delivered

/-- Three bytes arrive and are passed on, and then their sender closes its side. -/
def flushedActs : List Act :=
  tieActs [97] 3 4 ++
    [.wait [(3, readable)], .exec .poll .idle, .exec .poll ⟨[some [1, 2, 3]], [], []⟩,
      .exec .poll .idle, .wait [(4, writable)], .exec .poll .idle, .exec .poll ⟨[], [3], []⟩,
      .exec .poll .idle, .wait [(3, closing)], .exec .poll .idle,
      .exec .poll ⟨[some []], [], []⟩] ++ List.replicate 20 (.exec .poll .idle)

@[irreducible] def flushedEnd : Config :=
  Lib.lastState (fun a c => if OneSide (fun _ => .first) c a ∧ Flushed c a then step a c else none)
    flushedActs Config.start

theorem flushedEnd_eq : flushedEnd = Lib.lastState
    (fun a c => if OneSide (fun _ => .first) c a ∧ Flushed c a then step a c else none)
    flushedActs Config.start := by
  unfold flushedEnd
  rfl

theorem orderly_flushed : Delivered (fun _ => .first) flushedEnd ∧
    .close ⟨0, .second⟩ 4 ∈ flushedEnd.world.trace := by
  have hrun : Run (fun c a => OneSide (fun _ => .first) c a ∧ Flushed c a) flushedEnd :=
    Run.of_acts (flushedEnd_eq ▸ Lib.runActs_eq_lastState (by decide +kernel))
  exact ⟨orderly hrun, by decide +kernel⟩

/-- The last bytes come in one entry with the hang-up. -/
def tailActs : List Act :=
  tieActs [97] 3 4 ++
    [.wait [(3, closing)], .exec .poll .idle, .exec .poll ⟨[some [1, 2, 3], some []], [], []⟩] ++
    List.replicate 8 (.exec .poll .idle)

@[irreducible] def tailEnd : Config :=
  Lib.lastState (fun a c => if OneSide (fun _ => .first) c a then step a c else none) tailActs
    Config.start

theorem tailEnd_eq : tailEnd = Lib.lastState
    (fun a c => if OneSide (fun _ => .first) c a then step a c else none) tailActs
    Config.start := by
  unfold tailEnd
  rfl

theorem tailEnd_trace : tailEnd.world.trace =
    [.ctl .add 3, .ctl .add 4, .call ⟨0, .first⟩ 3 (.read 8192 (some [1, 2, 3])),
      .call ⟨0, .first⟩ 3 (.read 8189 (some [])), .shutdown ⟨0, .first⟩,
      .close ⟨0, .first⟩ 3, .shutdown ⟨0, .second⟩] ++ .close ⟨0, .second⟩ 4 :: [] := by
  decide +kernel

/-- They have been read, and are never written. -/
theorem orderly_tail_lost :
    ¬ ∀ closer c, Run (OneSide closer) c → Delivered closer c := by
  intro h
  have hrun : Run (OneSide fun _ => .first) tailEnd :=
    Run.of_acts (tailEnd_eq ▸ Lib.runActs_eq_lastState (by decide +kernel))
  have hsame := h _ _ hrun ⟨0, .second⟩ 4 _ _ tailEnd_trace (by decide)
  exact absurd hsame (by decide)

end VncProxy.Proxy
