/-
  VncProxy.Proxy.Frame

  What a section leaves alone, and where the events of the trace come from: one
  lemma for all sections (`exec_frame`), and one about the sections that a
  section leads to (`exec_pre`).
-/
import VncProxy.Proxy.Flow

namespace VncProxy.Proxy

open Polling

-- ============================================================================
-- What every section leaves alone
-- ============================================================================

section Exec

variable {w w' : World} {o : Oracle} {i : Instr} {pre : List Instr}

/-- The sections that leave an event of this kind in the trace. -/
def Event.From (i : Instr) : Event → Prop
  | .call e _ _ => i = .handleRead e ∨ i = .handleWrite e
  | .close e _ => i = .close e
  | .ctl _ _ => True
  | .shutdown e => i = .shutdown e

/-- What a section leaves alone, unless it is the one that is there to change it. -/
structure Frame (i : Instr) (w w' : World) : Prop where
  pairs : w'.pairs = w.pairs
  fd : ∀ e, (w'.ep e).fd = (w.ep e).fd
  desc : (∀ e, i ≠ .close e) → w'.kernel.desc = w.kernel.desc
  pollSet : ∀ e ∈ w.thread.pollSet, i = .remove e ∨ e ∈ w'.thread.pollSet
  pending : ∀ e ∈ w.thread.pendingRemove, i = .swapPending ∨ e ∈ w'.thread.pendingRemove
  trace : ∃ evs, w'.trace = w.trace ++ evs ∧ ∀ ev ∈ evs, ev.From i

/-- A section that changes neither the poll thread nor a descriptor. -/
theorem Frame.same {evs : List Event} (hpairs : w'.pairs = w.pairs)
    (hfd : ∀ e, (w'.ep e).fd = (w.ep e).fd) (hdesc : w'.kernel.desc = w.kernel.desc)
    (hthread : w'.thread = w.thread) (htrace : w'.trace = w.trace ++ evs)
    (hevs : ∀ ev ∈ evs, ev.From i) : Frame i w w' := by
  apply Frame.mk hpairs hfd (fun _ => hdesc)
  · intro e he
    exact Or.inr (hthread ▸ he)
  · intro e he
    exact Or.inr (hthread ▸ he)
  · exact ⟨evs, htrace, hevs⟩

theorem Frame.refl (i : Instr) (w : World) : Frame i w w :=
  Frame.same rfl (fun _ => rfl) rfl rfl (List.append_nil _).symm (by simp)

theorem Frame.trans {w₁ w₂ w₃ : World} (h : Frame i w₁ w₂) (h' : Frame i w₂ w₃) :
    Frame i w₁ w₃ := by
  obtain ⟨evs, htr, hev⟩ := h.trace
  obtain ⟨evs', htr', hev'⟩ := h'.trace
  apply Frame.mk (h'.pairs.trans h.pairs) (fun e => (h'.fd e).trans (h.fd e))
    (fun hi => (h'.desc hi).trans (h.desc hi))
  · intro e he
    exact (h.pollSet e he).elim Or.inl (h'.pollSet e)
  · intro e he
    exact (h.pending e he).elim Or.inl (h'.pending e)
  · refine ⟨evs ++ evs', ?_, ?_⟩
    · rw [htr', htr, List.append_assoc]
    · intro ev hmem
      exact (List.mem_append.mp hmem).elim (hev ev) (hev' ev)

theorem updateMode_frame {e : Ep} {newMode : Mode} (h : w.updateMode e newMode = some w') :
    Frame i w w' := by
  rcases World.updateMode_cases h with ⟨rfl, -⟩ | ⟨oldMode, rfl, -⟩
  · exact Frame.refl i w'
  · exact ⟨rfl, fun _ => rfl, fun _ => rfl, fun _ he => Or.inr he, fun _ he => Or.inr he, _, rfl,
      by simp [Event.From]⟩

theorem transferred_frame (e owner : Ep) (calls : List FdCall) (buf : Marshal)
    (hi : i = .handleRead e ∨ i = .handleWrite e) :
    Frame i w (w.transferred e owner calls buf) := by
  refine Frame.same rfl (fun x => World.transferred_fd owner calls buf x) rfl rfl rfl ?_
  intro ev hev
  obtain ⟨call, -, rfl⟩ := List.mem_map.mp hev
  exact hi

theorem handleRead_frame (hw : Flow w) {e : Ep} {offers : List (Option (List Byte))}
    (h : w.handleRead e offers = some w') : Frame (.handleRead e) w w' := by
  cases hen : (w.ep e).enabled with
  | false =>
    rw [World.handleRead_disabled hen] at h
    exact Option.some.inj h ▸ Frame.refl _ w
  | true =>
    rcases hw.peer e with hpeer | hpeer
    · simp [World.handleRead, hen, hpeer] at h
    obtain ⟨calls, buf, -, heq⟩ := World.handleRead_eq hen hpeer (hw.bufs e.other) offers
    have htr : Frame (.handleRead e) w (w.transferred e e.other calls buf) :=
      transferred_frame e e.other calls buf (Or.inl rfl)
    rw [heq] at h
    split at h
    · exact htr.trans (updateMode_frame h)
    · exact Option.some.inj h ▸ htr

theorem handleWrite_frame (hw : Flow w) {e : Ep} {accepts : List Int}
    (h : w.handleWrite e accepts = some w') : Frame (.handleWrite e) w w' := by
  cases hen : (w.ep e).enabled with
  | false =>
    rw [World.handleWrite_disabled hen] at h
    exact Option.some.inj h ▸ Frame.refl _ w
  | true =>
    obtain ⟨calls, buf, -, heq⟩ := World.handleWrite_eq hen (hw.bufs e) accepts
    rw [heq] at h
    exact (transferred_frame e e calls buf (Or.inr rfl)).trans (updateMode_frame h)

theorem exec_frame (hw : Flow w) (h : exec o w i = some (w', pre)) : Frame i w w' := by
  have hnil : ∀ v : World, v.trace = w.trace → v.trace = w.trace ++ [] :=
    fun v hv => hv.trans (List.append_nil _).symm
  cases i with
  | tie e other key =>
    obtain ⟨rfl, -⟩ := Prod.mk.inj (Option.some.inj h)
    refine Frame.same rfl ?_ rfl rfl (hnil _ rfl) (by simp)
    intro x
    simp only [World.tie, World.setEp_ep, Function.update_apply]
    split_ifs <;> simp_all
  | ready e =>
    obtain ⟨rfl, -⟩ := Prod.mk.inj (Option.some.inj h)
    refine Frame.same rfl ?_ rfl rfl (hnil _ rfl) (by simp)
    intro x
    rw [World.ready_ep]
    split_ifs with hx
    · rw [hx]
    · rfl
  | refCopy e =>
    obtain ⟨rfl, -⟩ := Prod.mk.inj (Option.some.inj h)
    refine Frame.same rfl ?_ rfl rfl (hnil _ rfl) (by simp)
    intro x
    rw [World.refCopy_ep]
    split_ifs with hx
    · rw [hx]
    · rfl
  | add e =>
    obtain ⟨-, -, rfl, -⟩ := exec_add.mp h
    exact ⟨rfl, fun _ => rfl, fun _ => rfl, fun _ he => Or.inr (List.mem_cons_of_mem _ he),
      fun _ he => Or.inr he, [], hnil _ rfl, by simp⟩
  | epollAdd e =>
    obtain ⟨-, -, rfl, -⟩ := exec_epollAdd.mp h
    exact Frame.same rfl (fun _ => rfl) rfl rfl rfl (by simp [Event.From])
  | shutdown e =>
    obtain ⟨rfl, -⟩ := Prod.mk.inj (Option.some.inj h)
    exact Frame.same rfl (fun _ => rfl) rfl rfl rfl (by simp [Event.From])
  | close e =>
    obtain ⟨rfl, -⟩ := Prod.mk.inj (Option.some.inj h)
    exact ⟨rfl, fun _ => rfl, fun hne => absurd rfl (hne e), fun _ he => Or.inr he,
      fun _ he => Or.inr he, _, rfl, by simp [Event.From]⟩
  | remove e =>
    rcases exec_remove.mp h with ⟨-, -, rfl, -⟩ | ⟨-, -, rfl, -⟩
    · refine ⟨rfl, fun _ => rfl, fun _ => rfl, ?_, fun _ he => Or.inr he, [], hnil _ rfl, by simp⟩
      intro x hx
      by_cases hxe : x = e
      · exact Or.inl (hxe ▸ rfl)
      · exact Or.inr ((List.mem_erase_of_ne hxe).mpr hx)
    · exact Frame.refl _ w'
  | pend e =>
    obtain ⟨rfl, -⟩ := Prod.mk.inj (Option.some.inj h)
    exact ⟨rfl, fun _ => rfl, fun _ => rfl, fun _ he => Or.inr he,
      fun _ he => Or.inr (List.mem_insert_of_mem he), [], hnil _ rfl, by simp⟩
  | swapPending =>
    obtain ⟨rfl, -⟩ := Prod.mk.inj (Option.some.inj h)
    exact ⟨rfl, fun _ => rfl, fun _ => rfl, fun _ he => Or.inr he, fun _ _ => Or.inl rfl, [],
      hnil _ rfl, by simp⟩
  | collect v | event e ev | eraseLeader e =>
    obtain ⟨rfl, -⟩ := Prod.mk.inj (Option.some.inj h)
    exact Frame.same rfl (fun _ => rfl) rfl rfl (hnil _ rfl) (by simp)
  | unregister e =>
    obtain ⟨rfl, -⟩ := Prod.mk.inj (Option.some.inj h)
    exact Frame.same rfl (fun _ => rfl) (w.unregistered_desc e) rfl (hnil _ rfl) (by simp)
  | leaderPart e =>
    obtain ⟨rfl, -⟩ := exec_leaderPart.mp h
    exact Frame.refl _ w'
  | logShutdown e =>
    obtain ⟨-, rfl, -⟩ := exec_logShutdown.mp h
    exact Frame.refl _ w'
  | release e | drop e =>
    obtain ⟨-, rfl, -⟩ := exec_release (o := o) |>.mp h
    refine Frame.same rfl ?_ rfl rfl (hnil _ rfl) (by simp)
    intro x
    rw [World.released_ep]
    split_ifs with hx
    · rw [hx]
    · rfl
  | handleError e =>
    obtain ⟨rfl, -⟩ := exec_handleError.mp h
    exact Frame.refl _ w'
  | handleRead e => exact handleRead_frame hw (exec_handleRead.mp h).1
  | handleWrite e => exact handleWrite_frame hw (exec_handleWrite.mp h).1

/-- The endpoint of an event or a handler. -/
def Instr.io : Instr → Option Ep
  | .event e _ | .handleRead e | .handleWrite e | .handleError e => some e
  | _ => none

/-- The sections that a section leads to are none of `tie_fd`, only `shutdown`
    leads to `close`, and only an event leads to handlers, of its endpoint. -/
theorem exec_pre (h : exec o w i = some (w', pre)) :
    ∀ j ∈ pre, (∀ n, Placed n j) ∧ (∀ e, j = .close e → i = .shutdown e) ∧
      ∀ e, j.io = some e → i.io = some e := by
  cases i with
  | tie | ready | refCopy | pend | close | eraseLeader | unregister =>
    obtain ⟨-, rfl⟩ := Prod.mk.inj (Option.some.inj h)
    simp
  | shutdown e =>
    obtain ⟨-, rfl⟩ := Prod.mk.inj (Option.some.inj h)
    simp [Placed, Instr.io]
  | collect v =>
    obtain ⟨-, rfl⟩ := Prod.mk.inj (Option.some.inj h)
    simp [Placed, Instr.io]
  | event e ev =>
    obtain ⟨-, rfl⟩ := Prod.mk.inj (Option.some.inj h)
    intro j hj
    rcases mem_dispatch hj with ⟨rfl, -⟩ | ⟨rfl, -⟩ | ⟨rfl, -⟩ <;> simp [Placed, Instr.io]
  | add e =>
    obtain ⟨-, -, -, rfl⟩ := exec_add.mp h
    simp
  | epollAdd e =>
    obtain ⟨-, -, -, rfl⟩ := exec_epollAdd.mp h
    simp
  | remove e =>
    rcases exec_remove.mp h with ⟨-, -, -, rfl⟩ | ⟨-, -, -, rfl⟩ <;> simp [Placed, Instr.io]
  | leaderPart e =>
    obtain ⟨-, ⟨-, rfl⟩ | ⟨-, peer, -, rfl⟩⟩ := exec_leaderPart.mp h <;> simp [Placed, Instr.io]
  | logShutdown e =>
    obtain ⟨-, -, rfl⟩ := exec_logShutdown.mp h
    simp
  | release e | drop e =>
    obtain ⟨-, -, rfl⟩ := exec_release (o := o) |>.mp h
    simp
  | handleError e =>
    obtain ⟨-, ⟨-, rfl⟩ | ⟨-, -, rfl⟩ | ⟨-, -, peer, -, rfl⟩⟩ := exec_handleError.mp h <;>
      simp [Placed, Instr.io]
  | handleRead e =>
    obtain ⟨-, rfl⟩ := exec_handleRead.mp h
    simp
  | handleWrite e =>
    obtain ⟨-, rfl⟩ := exec_handleWrite.mp h
    simp
  | swapPending =>
    obtain ⟨-, removePoll, -, rfl⟩ := exec_swapPending h
    intro j hj
    obtain ⟨x, -, hx⟩ := List.mem_flatMap.mp hj
    rcases List.mem_pair.mp hx with rfl | rfl <;> simp [Placed, Instr.io]

/-- Who decides on a shutdown: the error handler of the pair, the leader for its
    peer, or `cleanup`. -/
theorem exec_shutdowns (hw : Flow w) (h : exec o w i = some (w', pre)) {x : Ep}
    (hx : .shutdown x ∈ pre) : (∃ e, i = .handleError e ∧ x.pair = e.pair) ∨ x.side = .second ∨
      ∃ valid, i = .collect valid := by
  cases i with
  | handleError e =>
    left
    refine ⟨e, rfl, ?_⟩
    obtain ⟨-, ⟨-, rfl⟩ | ⟨-, -, rfl⟩ | ⟨-, -, peer, hpeer, rfl⟩⟩ := exec_handleError.mp h
    · cases hx
    · obtain rfl : x = e := by simpa using hx
      rfl
    · obtain rfl : x = peer := by simpa using hx
      rcases hw.peer e with hp | hp
      · rw [hp] at hpeer
        cases hpeer
      · rw [hp] at hpeer
        rw [← Option.some.inj hpeer, Ep.other_pair]
  | leaderPart e =>
    right
    left
    obtain ⟨-, ⟨-, rfl⟩ | ⟨hl, peer, hpeer, rfl⟩⟩ := exec_leaderPart.mp h
    · cases hx
    · obtain rfl : x = peer := by simpa using hx
      rcases hw.peer e with hp | hp
      · rw [hp] at hpeer
        cases hpeer
      · rw [hp] at hpeer
        rw [← Option.some.inj hpeer, Ep.other, hw.leader e hl]
        rfl
  | collect valid => exact Or.inr (Or.inr ⟨valid, rfl⟩)
  | swapPending =>
    obtain ⟨-, removePoll, -, rfl⟩ := exec_swapPending h
    obtain ⟨y, -, hy⟩ := List.mem_flatMap.mp hx
    simp at hy
  | event e ev =>
    obtain ⟨-, rfl⟩ := Prod.mk.inj (Option.some.inj h)
    rcases mem_dispatch hx with ⟨hi, -⟩ | ⟨hi, -⟩ | ⟨hi, -⟩ <;> cases hi
  | tie | ready | refCopy | pend | close | eraseLeader | unregister | shutdown =>
    obtain ⟨-, rfl⟩ := Prod.mk.inj (Option.some.inj h)
    simp at hx
  | add e =>
    obtain ⟨-, -, -, rfl⟩ := exec_add.mp h
    cases hx
  | epollAdd e =>
    obtain ⟨-, -, -, rfl⟩ := exec_epollAdd.mp h
    cases hx
  | remove e =>
    rcases exec_remove.mp h with ⟨-, -, -, rfl⟩ | ⟨-, -, -, rfl⟩ <;> simp at hx
  | logShutdown e =>
    obtain ⟨-, -, rfl⟩ := exec_logShutdown.mp h
    cases hx
  | release e | drop e =>
    obtain ⟨-, -, rfl⟩ := exec_release (o := o) |>.mp h
    cases hx
  | handleRead e =>
    obtain ⟨-, rfl⟩ := exec_handleRead.mp h
    cases hx
  | handleWrite e =>
    obtain ⟨-, rfl⟩ := exec_handleWrite.mp h
    cases hx

/-- Whose buffer a section changes. -/
theorem exec_buf (hw : Flow w) (h : exec o w i = some (w', pre)) (e : Ep) :
    (w'.ep e).buf = (w.ep e).buf ∨ i = .handleRead e.other ∨ i = .handleWrite e := by
  cases i with
  | tie x other key =>
    obtain ⟨rfl, -⟩ := Prod.mk.inj (Option.some.inj h)
    left
    simp only [World.tie, World.setEp_ep, Function.update_apply]
    split_ifs <;> simp_all
  | ready x =>
    obtain ⟨rfl, -⟩ := Prod.mk.inj (Option.some.inj h)
    left
    rw [World.ready_ep]
    split_ifs with hx
    · rw [hx]
    · rfl
  | handleRead x =>
    by_cases hx : x = e.other
    · exact Or.inr (Or.inl (hx ▸ rfl))
    left
    have hr := (exec_handleRead.mp h).1
    have hne : e ≠ x.other := fun heq => hx (Ep.other_eq_iff.mp heq.symm)
    cases hen : (w.ep x).enabled with
    | false =>
      rw [World.handleRead_disabled hen] at hr
      exact Option.some.inj hr ▸ rfl
    | true =>
      rcases hw.peer x with hpeer | hpeer
      · simp [World.handleRead, hen, hpeer] at hr
      obtain ⟨calls, buf, -, heq⟩ := World.handleRead_eq hen hpeer (hw.bufs x.other) o.offers
      have hsame : ((w.transferred x x.other calls buf).ep e).buf = (w.ep e).buf := by
        rw [World.transferred_ep, if_neg hne]
      rw [heq] at hr
      split at hr
      · rw [(Flow.updateMode_sameFlow hr).buf, hsame]
      · rw [← Option.some.inj hr, hsame]
  | handleWrite x =>
    by_cases hx : x = e
    · exact Or.inr (Or.inr (hx ▸ rfl))
    left
    have hr := (exec_handleWrite.mp h).1
    cases hen : (w.ep x).enabled with
    | false =>
      rw [World.handleWrite_disabled hen] at hr
      exact Option.some.inj hr ▸ rfl
    | true =>
      obtain ⟨calls, buf, -, heq⟩ := World.handleWrite_eq hen (hw.bufs x) o.accepts
      rw [heq] at hr
      rw [(Flow.updateMode_sameFlow hr).buf, World.transferred_ep, if_neg (Ne.symm hx)]
  | _ => exact Or.inl ((exec_sameFlow trivial h).buf e)

/-- An entry of a batch becomes an event of the endpoint in the kernel's table. -/
theorem mem_entries {k : Kernel Ep} {batch : List (Nat × Events)} {is : List Instr}
    (h : entries k batch = some is) (hi : i ∈ is) :
    ∃ entry ∈ batch, ∃ r, k.table entry.1 = some r ∧ i = .event r.ptr entry.2 := by
  induction batch generalizing is with
  | nil =>
    obtain rfl := Option.some.inj h
    cases hi
  | cons entry batch ih =>
    simp only [entries, Option.bind_eq_bind, Option.bind_eq_some_iff, Option.pure_def,
      Option.some.injEq] at h
    obtain ⟨r, hr, is', his', rfl⟩ := h
    rcases List.mem_cons.mp hi with rfl | hi
    · exact ⟨entry, List.mem_cons_self, r, hr, rfl⟩
    · obtain ⟨entry', hmem, hrest⟩ := ih his' hi
      exact ⟨entry', List.mem_cons_of_mem _ hmem, hrest⟩

end Exec

end VncProxy.Proxy
