/-
  VncProxy.Proxy.Cover

  Nothing is forgotten under edge triggering.  For an endpoint that is registered
  and not being shut down, the cached mode and the kernel's registration agree, a
  buffer with bytes asks for `WRITE`, and each condition of its socket is pending
  in the kernel or on its way to a handler (`Watched`).  It holds in every run in
  which a handler finds its endpoint enabled and the count of bytes that
  `handle_read` gets does not overflow.
-/
import VncProxy.Proxy.Net
import VncProxy.Proxy.LifeFacts

namespace VncProxy.Proxy

open Lib (Threads Sock Mask Flags Covered)
open Polling
open Marshal (Received Written)

-- ============================================================================
-- Sections that are not about an endpoint
-- ============================================================================

/-- What a section of somebody else leaves alone. -/
structure Untouched (e : Ep) (w w' : World) : Prop where
  fd : w'.fd e = w.fd e
  buf : (w'.ep e).buf = (w.ep e).buf
  pollSet : e ∈ w'.thread.pollSet ↔ e ∈ w.thread.pollSet
  mode : e ∈ w.thread.pollSet → w'.thread.mode (w.fd e) = w.thread.mode (w.fd e)
  table : e ∈ w.thread.pollSet → w'.kernel.table (w.fd e) = w.kernel.table (w.fd e)
  trace : ∃ evs, w'.trace = w.trace ++ evs ∧ (e ∈ w.thread.pollSet →
    (∀ op, .ctl op (w.fd e) ∉ evs) ∧ ∀ x, .close x (w.fd e) ∉ evs)

section Untouched

variable {w w' w'' : World} {e x : Ep} {o : Oracle} {i : Instr} {pre : List Instr}

/-- A section that changes no registration. -/
theorem Untouched.same (hfd : w'.fd e = w.fd e) (hbuf : (w'.ep e).buf = (w.ep e).buf)
    (hset : w'.thread.pollSet = w.thread.pollSet) (hmode : w'.thread.mode = w.thread.mode)
    (htable : w'.kernel.table = w.kernel.table) {evs : List Event}
    (htrace : w'.trace = w.trace ++ evs)
    (hevs : (∀ op n, .ctl op n ∉ evs) ∧ ∀ x n, .close x n ∉ evs) : Untouched e w w' :=
  ⟨hfd, hbuf, by rw [hset], fun _ => by rw [hmode], fun _ => by rw [htable], evs, htrace,
    fun _ => ⟨fun op => hevs.1 op _, fun x => hevs.2 x _⟩⟩

theorem Untouched.refl (e : Ep) (w : World) : Untouched e w w :=
  Untouched.same rfl rfl rfl rfl rfl (List.append_nil _).symm (by simp)

theorem Untouched.trans (h : Untouched e w w') (h' : Untouched e w' w'') :
    Untouched e w w'' := by
  obtain ⟨evs, htr, hev⟩ := h.trace
  obtain ⟨evs', htr', hev'⟩ := h'.trace
  refine ⟨h'.fd.trans h.fd, h'.buf.trans h.buf, h'.pollSet.trans h.pollSet, ?_, ?_, evs ++ evs',
    ?_, ?_⟩
  · intro he
    rw [← h.mode he, ← h.fd]
    exact h'.mode (h.pollSet.mpr he)
  · intro he
    rw [← h.table he, ← h.fd]
    exact h'.table (h.pollSet.mpr he)
  · rw [htr', htr, List.append_assoc]
  · intro he
    obtain ⟨hctl, hclose⟩ := hev he
    obtain ⟨hctl', hclose'⟩ := hev' (h.pollSet.mpr he)
    rw [h.fd] at hctl' hclose'
    exact ⟨fun op hop => (List.mem_append.mp hop).elim (hctl op) (hctl' op),
      fun x hx => (List.mem_append.mp hx).elim (hclose x) (hclose' x)⟩

/-- `update_mode` of another endpoint: if both are registered their numbers
    differ. -/
theorem updateMode_untouched {newMode : Mode} (hm : w.updateMode x newMode = some w')
    (hdist : x ∈ w.thread.pollSet → e ∈ w.thread.pollSet → w.fd x = w.fd e → x = e)
    (hne : x ≠ e) : Untouched e w w' := by
  rcases World.updateMode_cases hm with ⟨rfl, -⟩ | ⟨oldMode, rfl, hin, -⟩
  · exact Untouched.refl e w'
  · have hfd : e ∈ w.thread.pollSet → w.fd e ≠ (w.ep x).fd :=
      fun he heq => hne (hdist hin he heq.symm)
    refine ⟨rfl, rfl, Iff.rfl, ?_, ?_, _, rfl, ?_⟩
    · intro he
      exact Function.update_of_ne (hfd he) _ _
    · intro he
      exact Function.update_of_ne (hfd he) _ _
    · intro he
      have hne' := hfd he
      simp [hne']

theorem transferred_untouched {owner : Ep} (hne : owner ≠ e) (calls : List FdCall)
    (buf : Marshal) : Untouched e w (w.transferred x owner calls buf) := by
  have hep : (w.transferred x owner calls buf).ep e = w.ep e := by
    rw [World.transferred_ep, if_neg (Ne.symm hne)]
  refine Untouched.same ?_ ?_ rfl rfl rfl rfl (by simp)
  · show ((w.transferred x owner calls buf).ep e).fd = _
    rw [hep]
    rfl
  · rw [hep]

theorem handleRead_untouched (hw : Flow w) {offers : List (Option (List Byte))}
    (hr : w.handleRead x offers = some w')
    (hdist : ∀ y, y ∈ w.thread.pollSet → e ∈ w.thread.pollSet → w.fd y = w.fd e → y = e)
    (hne : (w.ep x).enabled = true → x.other ≠ e) : Untouched e w w' := by
  cases hen : (w.ep x).enabled with
  | false =>
    rw [World.handleRead_disabled hen] at hr
    exact Option.some.inj hr ▸ Untouched.refl e w
  | true =>
    rcases hw.peer x with hpeer | hpeer
    · simp [World.handleRead, hen, hpeer] at hr
    obtain ⟨calls, buf, -, heq⟩ := World.handleRead_eq hen hpeer (hw.bufs x.other) offers
    have htr : Untouched e w (w.transferred x x.other calls buf) :=
      transferred_untouched (hne hen) calls buf
    rw [heq] at hr
    split at hr
    · refine htr.trans (updateMode_untouched hr ?_ (hne hen))
      simp only [World.fd, World.transferred_fd, World.transferred_thread]
      exact hdist x.other
    · exact Option.some.inj hr ▸ htr

theorem handleWrite_untouched (hw : Flow w) {accepts : List Int}
    (hr : w.handleWrite x accepts = some w')
    (hdist : ∀ y, y ∈ w.thread.pollSet → e ∈ w.thread.pollSet → w.fd y = w.fd e → y = e)
    (hne : (w.ep x).enabled = true → x ≠ e) : Untouched e w w' := by
  cases hen : (w.ep x).enabled with
  | false =>
    rw [World.handleWrite_disabled hen] at hr
    exact Option.some.inj hr ▸ Untouched.refl e w
  | true =>
    obtain ⟨calls, buf, -, heq⟩ := World.handleWrite_eq hen (hw.bufs x) accepts
    have htr : Untouched e w (w.transferred x x calls buf) :=
      transferred_untouched (hne hen) calls buf
    rw [heq] at hr
    refine htr.trans (updateMode_untouched hr ?_ (hne hen))
    simp only [World.fd, World.transferred_fd, World.transferred_thread]
    exact hdist x

end Untouched

namespace Inv

variable {safe : Prop} {c : Config} {b d : Nat → Nat} {pj cj : List Nat} {tail : List Instr}
  {rest pre : List Instr} {t : Tid} {e : Ep} {o : Oracle} {i : Instr} {w : World}

/-- A section that is not about an endpoint leaves it alone, unless the endpoint is
    being shut down. -/
theorem exec_untouched (h : Inv safe c b d pj cj tail) (hcode : c.code t = i :: rest)
    (hexec : exec o c.world i = some (w, pre)) (hpair : e.pair < c.world.pairs)
    (he : Standing c.world e) (hadd : i ≠ .add e) (hreg : i ≠ .epollAdd e)
    (hread : i = .handleRead e.other → (c.world.ep e.other).enabled = false)
    (hwrite : i = .handleWrite e → (c.world.ep e).enabled = false) :
    Untouched e c.world w := by
  have hopen := (h.standing_open he).1
  have hflow := h.world.flow
  have hdist : ∀ y, y ∈ c.world.thread.pollSet → e ∈ c.world.thread.pollSet →
      c.world.fd y = c.world.fd e → y = e := fun y hy he' => h.world.set.distinct y hy e he'
  have hmode : e ∈ c.world.thread.pollSet → c.world.thread.mode (c.world.fd e) ≠ none :=
    fun hin => (h.world.set.mode _).mpr ⟨e, hin, rfl⟩
  have hframe := exec_frame hflow hexec
  have hfd : w.fd e = c.world.fd e := hframe.fd e
  have hnil : ∀ v : World, v.trace = c.world.trace → v.trace = c.world.trace ++ [] :=
    fun v hv => hv.trans (List.append_nil _).symm
  cases i with
  | tie x other key =>
    obtain ⟨rfl, -⟩ := Prod.mk.inj (Option.some.inj hexec)
    refine Untouched.same hfd ?_ rfl rfl rfl (hnil _ rfl) (by simp)
    simp only [World.tie, World.setEp_ep, Function.update_apply]
    split_ifs <;> simp_all
  | ready x =>
    obtain ⟨rfl, -⟩ := Prod.mk.inj (Option.some.inj hexec)
    refine Untouched.same hfd ?_ rfl rfl rfl (hnil _ rfl) (by simp)
    rw [World.ready_ep]
    split_ifs with hx
    · rw [hx]
    · rfl
  | refCopy x | pend x | collect v | event x ev | eraseLeader x | swapPending =>
    have hbuf := (exec_sameFlow trivial hexec).buf e
    obtain ⟨rfl, -⟩ := Prod.mk.inj (Option.some.inj hexec)
    exact Untouched.same hfd hbuf rfl rfl rfl (hnil _ rfl) (by simp)
  | shutdown x =>
    obtain ⟨rfl, -⟩ := Prod.mk.inj (Option.some.inj hexec)
    exact Untouched.same rfl rfl rfl rfl rfl rfl (by simp)
  | leaderPart x =>
    obtain ⟨rfl, -⟩ := exec_leaderPart.mp hexec
    exact Untouched.refl e c.world
  | logShutdown x =>
    obtain ⟨-, rfl, -⟩ := exec_logShutdown.mp hexec
    exact Untouched.refl e c.world
  | handleError x =>
    obtain ⟨rfl, -⟩ := exec_handleError.mp hexec
    exact Untouched.refl e c.world
  | release x | drop x =>
    have hbuf := (exec_sameFlow trivial hexec).buf e
    obtain ⟨-, rfl, -⟩ := exec_release (o := o) |>.mp hexec
    exact Untouched.same hfd hbuf rfl rfl rfl (hnil _ rfl) (by simp)
  | add x =>
    obtain ⟨-, hnone, rfl, -⟩ := exec_add.mp hexec
    have hne : e ∈ c.world.thread.pollSet → c.world.fd e ≠ (c.world.ep x).fd := by
      intro hin heq
      exact hmode hin (heq ▸ hnone)
    refine ⟨rfl, rfl, ?_, ?_, fun _ => rfl, [], hnil _ rfl, by simp⟩
    · have hxe : e ≠ x := fun heq => hadd (heq ▸ rfl)
      simp [World.added, hxe]
    · intro hin
      exact Function.update_of_ne (hne hin) _ _
  | epollAdd x =>
    obtain ⟨-, -, rfl, -⟩ := exec_epollAdd.mp hexec
    have hxe : e ≠ x := fun heq => hreg (heq ▸ rfl)
    obtain ⟨hxp, -, -, hxc⟩ := h.next_epollAdd hcode
    have hne : c.world.fd e ≠ (c.world.ep x).fd := h.world.desc.ne hxp hxc hpair hopen hxe
    refine ⟨rfl, rfl, Iff.rfl, fun _ => rfl, ?_, _, rfl, ?_⟩
    · intro _
      exact Function.update_of_ne hne _ _
    · intro _
      simp [hne]
  | close x =>
    obtain ⟨rfl, -⟩ := Prod.mk.inj (Option.some.inj hexec)
    obtain ⟨hx, hxp⟩ := h.next_down hcode (Or.inl rfl)
    have hxe : e ≠ x := fun heq => hx (heq ▸ he)
    have hne : c.world.fd e ≠ (c.world.ep x).fd :=
      h.world.desc.ne hxp (h.close_fresh hcode) hpair hopen hxe
    refine ⟨rfl, rfl, Iff.rfl, fun _ => rfl, ?_, _, rfl, ?_⟩
    · intro _
      exact Function.update_of_ne hne _ _
    · intro _
      simp [hne]
  | remove x =>
    obtain ⟨hx, -⟩ := h.next_down hcode (Or.inr rfl)
    rcases exec_remove.mp hexec with ⟨hin, -, rfl, -⟩ | ⟨-, -, rfl, -⟩
    · have hxe : e ≠ x := fun heq => hx (heq ▸ he)
      have hne : e ∈ c.world.thread.pollSet → c.world.fd e ≠ (c.world.ep x).fd :=
        fun he' heq => hxe (hdist x hin he' heq.symm).symm
      refine ⟨rfl, rfl, List.mem_erase_of_ne hxe, ?_, fun _ => rfl, [], hnil _ rfl, by simp⟩
      intro he'
      exact Function.update_of_ne (hne he') _ _
    · exact Untouched.refl e c.world
  | unregister x =>
    obtain ⟨rfl, -⟩ := Prod.mk.inj (Option.some.inj hexec)
    refine ⟨rfl, rfl, Iff.rfl, fun _ => rfl, ?_, [], hnil _ rfl, by simp⟩
    intro hin
    show (c.world.thread.unregister c.world.kernel (c.world.ep x).fd).table _ = _
    unfold PollThread.unregister
    split
    · rename_i hnone
      have hne : c.world.fd e ≠ (c.world.ep x).fd := fun heq => hmode hin (heq ▸ hnone)
      exact Function.update_of_ne hne _ _
    · rfl
  | handleRead x =>
    refine handleRead_untouched hflow (exec_handleRead.mp hexec).1 hdist ?_
    intro hen heq
    obtain rfl := Ep.other_eq_iff.mp heq
    rw [hread rfl] at hen
    cases hen
  | handleWrite x =>
    refine handleWrite_untouched hflow (exec_handleWrite.mp hexec).1 hdist ?_
    rintro hen rfl
    rw [hwrite rfl] at hen
    cases hen

end Inv

-- ============================================================================
-- On the way to a handler
-- ============================================================================

/-- The conditions of `e` that a section will see to.  A hang-up is seen to until
    the shutdown has begun. -/
def Instr.carries (e : Ep) : Instr → Flags
  | .event x ev => if x = e then ev.flags else ⟨false, false, false⟩
  | .handleRead x => ⟨x = e, false, false⟩
  | .handleWrite x => ⟨false, x = e, false⟩
  | .handleError x => ⟨false, false, x = e⟩
  | .shutdown x => ⟨false, false, x = ⟨e.pair, .first⟩⟩
  | _ => ⟨false, false, false⟩

/-- A condition of `e` has been dispatched and not been seen to. -/
def InFlight (f : Flags → Bool) (is : List Instr) (e : Ep) : Prop :=
  ∃ i ∈ is, f (i.carries e) = true

section InFlight

variable {c : Config} {t : Tid} {f : Flags → Bool} {i : Instr} {pre rest is : List Instr} {e : Ep}
  {o : Oracle} {w : World}

theorem InFlight.mono {is' : List Instr} (h : InFlight f is e) (hsub : ∀ i ∈ is, i ∈ is') :
    InFlight f is' e := by
  obtain ⟨i, hi, hf⟩ := h
  exact ⟨i, hsub i hi, hf⟩

/-- A condition stays in flight while sections run that do not see to it. -/
theorem InFlight.run (h : InFlight f (c.code .poll) e) (hcode : c.code t = i :: rest)
    (hi : f (i.carries e) = true → InFlight f pre e) :
    InFlight f ((c.load t (pre ++ rest)).code .poll) e := by
  by_cases ht : t = .poll
  · subst ht
    rw [Threads.load_code_self]
    rw [hcode] at h
    obtain ⟨j, hj, hf⟩ := h
    rcases List.mem_cons.mp hj with rfl | hj
    · exact (hi hf).mono fun k hk => List.mem_append_left _ hk
    · exact ⟨j, List.mem_append_right _ hj, hf⟩
  · rw [Threads.load_code_of_ne _ (Ne.symm ht)]
    exact h

/-- An event is split into the handlers of its conditions. -/
theorem dispatch_inFlight {ev : Events} :
    (ev.flags.input = true → InFlight Flags.input (dispatch e ev) e) ∧
      (ev.flags.output = true → InFlight Flags.output (dispatch e ev) e) ∧
      (ev.flags.error = true → InFlight Flags.error (dispatch e ev) e) := by
  refine ⟨?_, ?_, ?_⟩ <;> intro hf
  · exact ⟨.handleRead e, by simp [dispatch, show ev.epollin = true from hf], by simp [Instr.carries]⟩
  · exact ⟨.handleWrite e, by simp [dispatch, show ev.epollout = true from hf],
      by simp [Instr.carries]⟩
  · exact ⟨.handleError e, by simp [dispatch, show ev.error = true from hf],
      by simp [Instr.carries]⟩

/-- `EPOLLIN` is in flight until `handle_read`. -/
theorem input_run (h : InFlight Flags.input (c.code .poll) e) (hcode : c.code t = i :: rest)
    (hexec : exec o c.world i = some (w, pre)) (hi : i ≠ .handleRead e) :
    InFlight Flags.input ((c.load t (pre ++ rest)).code .poll) e := by
  apply h.run hcode
  intro hf
  cases i with
  | event x ev =>
    obtain ⟨-, rfl⟩ := Prod.mk.inj (Option.some.inj hexec)
    simp only [Instr.carries] at hf
    split at hf
    · rename_i hx
      exact hx ▸ dispatch_inFlight.1 hf
    · cases hf
  | handleRead x =>
    exfalso
    exact hi (by simpa [Instr.carries] using hf)
  | _ => cases hf

theorem output_run (h : InFlight Flags.output (c.code .poll) e) (hcode : c.code t = i :: rest)
    (hexec : exec o c.world i = some (w, pre)) (hi : i ≠ .handleWrite e) :
    InFlight Flags.output ((c.load t (pre ++ rest)).code .poll) e := by
  apply h.run hcode
  intro hf
  cases i with
  | event x ev =>
    obtain ⟨-, rfl⟩ := Prod.mk.inj (Option.some.inj hexec)
    simp only [Instr.carries] at hf
    split at hf
    · rename_i hx
      exact hx ▸ dispatch_inFlight.2.1 hf
    · cases hf
  | handleWrite x =>
    exfalso
    exact hi (by simpa [Instr.carries] using hf)
  | _ => cases hf

/-- A hang-up is in flight until the shutdown begins, if `handle_error` finds the
    endpoint enabled. -/
theorem error_run {safe : Prop} {b d : Nat → Nat} {pj cj : List Nat} {tail : List Instr}
    (hinv : Inv safe c b d pj cj tail) (h : InFlight Flags.error (c.code .poll) e)
    (hcode : c.code t = i :: rest) (hexec : exec o c.world i = some (w, pre))
    (hen : i = .handleError e → (c.world.ep e).enabled = true) (hstand : Standing w e) :
    InFlight Flags.error ((c.load t (pre ++ rest)).code .poll) e := by
  apply h.run hcode
  intro hf
  cases i with
  | event x ev =>
    obtain ⟨-, rfl⟩ := Prod.mk.inj (Option.some.inj hexec)
    simp only [Instr.carries] at hf
    split at hf
    · rename_i hx
      exact hx ▸ dispatch_inFlight.2.2 hf
    · cases hf
  | handleError x =>
    obtain rfl : x = e := by simpa [Instr.carries] using hf
    rw [hinv.error_shuts (hen rfl) hexec]
    exact ⟨_, List.mem_cons_self, by simp [Instr.carries]⟩
  | shutdown x =>
    exfalso
    obtain rfl : x = ⟨e.pair, .first⟩ := by simpa [Instr.carries] using hf
    obtain ⟨rfl, -⟩ := Prod.mk.inj (Option.some.inj hexec)
    apply hstand
    simp
  | _ => cases hf

end InFlight

-- ============================================================================
-- The invariant
-- ============================================================================

/-- The registration, the cached mode and the buffer of an endpoint. -/
structure Agree (e : Ep) (r : Interest Ep) (mode : Mode) (content : List Byte) : Prop where
  ptr : r.ptr = e
  read : mode.has Pollable.READ = true
  input : r.epollin = true
  output : r.epollout = mode.has Pollable.WRITE
  busy : content ≠ [] → mode.has Pollable.WRITE = true

/-- How far the poll manager has got with an endpoint, and that nothing has been
    forgotten since it is registered. -/
inductive Watched (c : Config) (n : Net) (e : Ep) : Prop
  | outside : e ∉ c.world.thread.pollSet → (c.world.ep e).buf.content = [] → Watched c n e
  | added : e ∈ c.world.thread.pollSet → c.world.kernel.table (c.world.fd e) = none →
      c.world.thread.mode (c.world.fd e) = some pollMode → (c.world.ep e).buf.content = [] →
      Watched c n e
  | registered (r : Interest Ep) (mode : Mode) : e ∈ c.world.thread.pollSet →
      c.world.kernel.table (c.world.fd e) = some r →
      c.world.thread.mode (c.world.fd e) = some mode → Agree e r mode (c.world.ep e).buf.content →
      Covered (some ⟨r.epollin, r.epollout⟩) (n (c.world.fd e))
        (InFlight Flags.input (c.code .poll) e) (InFlight Flags.output (c.code .poll) e)
        (InFlight Flags.error (c.code .poll) e) → Watched c n e

/-- Every endpoint whose pair is not being shut down is watched. -/
def CoverInv (s : Config × Net) : Prop :=
  ∀ e, e.pair < s.1.world.pairs → Standing s.1.world e → Watched s.1 s.2 e

/-- A handler finds its endpoint enabled. -/
def Awake (c : Config) : Act → Prop
  | .exec t _ => ∀ e ∈ (c.next t).bind Instr.handles, (c.world.ep e).enabled = true
  | _ => True

instance (c : Config) : ∀ a, Decidable (Awake c a)
  | .exec t _ => inferInstanceAs (Decidable (∀ e ∈ (c.next t).bind Instr.handles, _))
  | .wait _ | .tieFd _ _ _ | .cleanup _ | .grab _ | .giveBack _ => isTrue trivial

/-- The bytes that one `handle_read` gets are fewer than an `int` can count. -/
def Countable (c : Config) : Act → Prop
  | .exec t o => ∀ e ∈ (c.next t).bind Instr.reads, ∀ r ∈ exec o c.world (.handleRead e),
      (received e r.1.trace).length < (received e c.world.trace).length + 2 ^ 31
  | _ => True

instance (c : Config) : ∀ a, Decidable (Countable c a)
  | .exec t _ => inferInstanceAs (Decidable (∀ e ∈ (c.next t).bind Instr.reads, _))
  | .wait _ | .tieFd _ _ _ | .cleanup _ | .grab _ | .giveBack _ => isTrue trivial

/-- The moves under which nothing is forgotten. -/
def CoverOk (c : Config) (a : Act) : Prop := Mild c a ∧ Awake c a ∧ Countable c a

instance (c : Config) (a : Act) : Decidable (CoverOk c a) :=
  inferInstanceAs (Decidable (_ ∧ _))

section Step

variable {safe : Prop} {c : Config} {b d : Nat → Nat} {pj cj : List Nat} {tail : List Instr}
  {t : Tid} {i : Instr} {pre rest : List Instr} {e : Ep} {o : Oracle} {w : World} {n n' : Net}
  {evs : List Event}

/-- The events of a handler are its calls and what follows them. -/
theorem handler_events {x owner : Ep} {calls : List FdCall} {buf : Marshal}
    (hframe : Frame i (c.world.transferred x owner calls buf) w)
    (htrace : w.trace = c.world.trace ++ evs) :
    ∃ evs', evs = calls.map (Event.call x (c.world.fd x)) ++ evs' := by
  obtain ⟨evs', htr, -⟩ := hframe.trace
  refine ⟨evs', ?_⟩
  rw [World.transferred_trace, List.append_assoc] at htr
  exact List.append_cancel_left (htrace.symm.trans htr)

/-- The last call of a handler, and what follows it. -/
theorem After.last_call {mask mask' : Nat → Option Mask} {fd : Nat} {calls : List FdCall}
    {call : FdCall} {evs' : List Event}
    (h : After mask mask' n (calls.map (Event.call e fd) ++ evs') n')
    (hlast : calls.getLast? = some call) :
    ∃ (n₁ : Net) (s : Sock Byte), CallOn call (n₁ fd) s ∧
      After mask mask' (Function.update n₁ fd s) evs' n' := by
  obtain ⟨init, rfl⟩ := List.getLast?_eq_some_iff.mp hlast
  rw [List.map_append, List.append_assoc] at h
  exact h.split

/-- `handle_read` leaves nothing to read, but for what arrives meanwhile. -/
theorem handleRead_drains (hw : Flow c.world) (hen : (c.world.ep e).enabled = true)
    (hr : c.world.handleRead e o.offers = some w) (htrace : w.trace = c.world.trace ++ evs)
    (hafter : After c.world.mask w.mask n evs n')
    (hevs : (∀ op, .ctl op (c.world.fd e) ∉ evs) ∧ ∀ x, .close x (c.world.fd e) ∉ evs) :
    Covered (c.world.mask (c.world.fd e)) (n' (c.world.fd e)) False True True := by
  rcases hw.peer e with hpeer | hpeer
  · simp [World.handleRead, hen, hpeer] at hr
  obtain ⟨calls, buf, hrec, heq⟩ := World.handleRead_eq hen hpeer (hw.bufs e.other) o.offers
  rw [heq] at hr
  have hframe : Frame (.handleRead e) (c.world.transferred e e.other calls buf) w := by
    split at hr
    · exact updateMode_frame hr
    · exact Option.some.inj hr ▸ Frame.refl _ _
  obtain ⟨evs', rfl⟩ := handler_events hframe htrace
  obtain ⟨len, got, hlast, hlen, hret⟩ := hrec.ended
  obtain ⟨n₁, s, hon, hrest⟩ := hafter.last_call hlast
  have hempty : s.rx = [] := by
    have htaken := hon.taken
    rw [hon.empty len got rfl hlen hret] at htaken
    exact (List.append_eq_nil_iff.mp htaken.symm).2
  refine hrest.keep (P := fun s => Covered _ s False True True)
    (fun s s' hs he => hs.env he) (fun s s' hs hu => hs.used hu) ?_ ?_
  · exact ⟨fun op hop => hevs.1 op (List.mem_append_right _ hop),
      fun x hx => hevs.2 x (List.mem_append_right _ hx)⟩
  · show Covered _ (Function.update n₁ (c.world.fd e) s (c.world.fd e)) _ _ _
    rw [Function.update_self]
    exact Covered.of_empty hempty

/-- An endpoint that is left alone is watched as before, if its socket is covered as
    before. -/
theorem Watched.of_untouched {c' : Config} (h : Watched c n e)
    (hun : Untouched e c.world c'.world)
    (hcov : ∀ m, e ∈ c.world.thread.pollSet → c.world.mask (c.world.fd e) = some m →
      Covered (some m) (n (c.world.fd e)) (InFlight Flags.input (c.code .poll) e)
        (InFlight Flags.output (c.code .poll) e) (InFlight Flags.error (c.code .poll) e) →
      Covered (some m) (n' (c.world.fd e)) (InFlight Flags.input (c'.code .poll) e)
        (InFlight Flags.output (c'.code .poll) e) (InFlight Flags.error (c'.code .poll) e)) :
    Watched c' n' e := by
  cases h with
  | outside hset hcon =>
    apply Watched.outside
    · exact fun hin => hset (hun.pollSet.mp hin)
    · rw [hun.buf]
      exact hcon
  | added hset htable hmode hcon =>
    apply Watched.added
    · exact hun.pollSet.mpr hset
    · rw [hun.fd, hun.table hset]
      exact htable
    · rw [hun.fd, hun.mode hset]
      exact hmode
    · rw [hun.buf]
      exact hcon
  | registered r mode hset htable hmode hagree hreg =>
    apply Watched.registered r mode
    · exact hun.pollSet.mpr hset
    · rw [hun.fd, hun.table hset]
      exact htable
    · rw [hun.fd, hun.mode hset]
      exact hmode
    · rw [hun.buf]
      exact hagree
    · rw [hun.fd]
      exact hcov _ hset (by simp [World.mask, htable]) hreg

/-- A section that is not about the endpoint, or only reads from its socket or
    handles its error. -/
theorem Watched.elsewhere (hinv : Inv safe c b d pj cj tail) (h : Watched c n e)
    (hcode : c.code t = i :: rest) (hexec : exec o c.world i = some (w, pre))
    (htrace : w.trace = c.world.trace ++ evs)
    (hafter : After c.world.mask w.mask n evs n') (hun : Untouched e c.world w)
    (hstand : Standing w e)
    (hread : i = .handleRead e → (c.world.ep e).enabled = true) (hwrite : i ≠ .handleWrite e)
    (herror : i = .handleError e → (c.world.ep e).enabled = true) :
    Watched { c.load t (pre ++ rest) with world := w } n' e := by
  obtain ⟨evs', htrace', hevs⟩ := hun.trace
  obtain rfl : evs' = evs := List.append_cancel_left (htrace'.symm.trans htrace)
  refine h.of_untouched hun ?_
  intro m hset hmask hcov
  have hkeep := hafter.keep (P := fun s => Covered _ s _ _ _)
    (fun s s' hs he => hs.env (hmask ▸ he)) (fun s s' hs hu => hs.used hu) (hevs hset) hcov
  have hflight := hkeep.imp id (fun hout => output_run hout hcode hexec hwrite)
    (fun herr => error_run hinv herr hcode hexec herror hstand)
  by_cases hi : i = .handleRead e
  · subst hi
    have hdrained := handleRead_drains hinv.world.flow (hread rfl) (exec_handleRead.mp hexec).1
      htrace hafter (hevs hset)
    rw [hmask] at hdrained
    exact ⟨fun hm hrx => (hdrained.input hm hrx).imp id False.elim, hflight.output, hflight.error⟩
  · exact hflight.imp (fun hin => input_run hin hcode hexec hi) id id

/-- Behind `EPOLL_CTL_ADD` of the second endpoint both are registered. -/
theorem registered_of_built (hb : 7 ≤ b e.pair) : e ∈ (marks b d).registered := by
  show Side.regAt e.side ≤ b e.pair
  cases e.side <;> simp only [Side.regAt] <;> omega

/-- An endpoint that has been registered is watched as such. -/
theorem Watched.of_registered (hinv : Inv safe c b d pj cj tail) (h : Watched c n e)
    (hstand : Standing c.world e) (hreg : e ∈ (marks b d).registered) :
    ∃ r mode, e ∈ c.world.thread.pollSet ∧ c.world.kernel.table (c.world.fd e) = some r ∧
      c.world.thread.mode (c.world.fd e) = some mode ∧
      Agree e r mode (c.world.ep e).buf.content ∧
      Covered (some ⟨r.epollin, r.epollout⟩) (n (c.world.fd e))
        (InFlight Flags.input (c.code .poll) e) (InFlight Flags.output (c.code .poll) e)
        (InFlight Flags.error (c.code .poll) e) := by
  obtain ⟨hopen, hrem⟩ := hinv.standing_open hstand
  have hset : e ∈ c.world.thread.pollSet :=
    (hinv.world.set.mem e).mpr ⟨hinv.ages.ordered.registered_added hreg, hrem⟩
  cases h with
  | outside hout _ => exact absurd hset hout
  | added _ htable _ _ =>
    obtain ⟨r, hr, -⟩ := hinv.world.table.complete e hreg hopen
    rw [htable] at hr
    cases hr
  | registered r mode hset htable hmode hagree hcov =>
    exact ⟨r, mode, hset, htable, hmode, hagree, hcov⟩

/-- `modEvent` and the mode it is made from agree. -/
theorem Agree.rearmed {mode : Mode} {content : List Byte}
    (hread : mode.has Pollable.READ = true)
    (hbusy : content ≠ [] → mode.has Pollable.WRITE = true) :
    Agree e (PollThread.modEvent e mode) mode content :=
  ⟨rfl, hread, hread, rfl, hbusy⟩

/-- After an `update_mode` that came to `epoll_ctl` nothing is forgotten. -/
theorem Watched.of_rearmed {c' : Config} {v : World} {newMode : Mode} {evs' : List Event}
    {mask : Nat → Option Mask} (hworld : c'.world = v.rearmed e newMode)
    (hset : e ∈ v.thread.pollSet)
    (hafter : After mask c'.world.mask n (evs' ++ [.ctl .mod (v.fd e)]) n')
    (hread : newMode.has Pollable.READ = true)
    (hbusy : (v.ep e).buf.content ≠ [] → newMode.has Pollable.WRITE = true) : Watched c' n' e := by
  have hfd : c'.world.fd e = v.fd e := by rw [hworld]; rfl
  have htable : c'.world.kernel.table (v.fd e) = some (PollThread.modEvent e newMode) := by
    rw [hworld]
    exact Function.update_self ..
  obtain ⟨s, hs⟩ := hafter.ctl_last
  rw [World.mask, htable] at hs
  apply Watched.registered (PollThread.modEvent e newMode) newMode
  · rw [hworld]
    exact hset
  · rw [hfd, htable]
  · rw [hfd, hworld]
    exact Function.update_self ..
  · rw [hworld]
    exact Agree.rearmed hread hbusy
  · rw [hfd, hs]
    exact Covered.arm _ s

/-- `handle_read` of the peer: either bytes have come for the buffer, and the
    endpoint asks for `WRITE` if it did not before, or nothing has changed. -/
theorem Watched.peer_read (hinv : Inv safe c b d pj cj tail) (h : Watched c n e)
    (hcode : c.code t = .handleRead e.other :: rest)
    (hexec : exec o c.world (.handleRead e.other) = some (w, pre))
    (hen : (c.world.ep e.other).enabled = true)
    (hcount : (received e.other w.trace).length <
      (received e.other c.world.trace).length + 2 ^ 31)
    (htrace : w.trace = c.world.trace ++ evs) (hafter : After c.world.mask w.mask n evs n')
    (hbegun : Standing c.world e) (hstand : Standing w e) :
    Watched { c.load t (pre ++ rest) with world := w } n' e := by
  have hflow := hinv.world.flow
  obtain ⟨r, mode, hset, htable, hmode, hagree, hcov⟩ := h.of_registered hinv hbegun
    (registered_of_built (Nat.le_of_succ_le (hinv.enabled_built (e := e.other) hen)))
  have hr := (exec_handleRead.mp hexec).1
  have hpeer : (c.world.ep e.other).peer = some e := by
    rcases hflow.peer e.other with hpeer | hpeer
    · simp [World.handleRead, hen, hpeer] at hr
    · rw [hpeer, Ep.other_other]
  obtain ⟨calls, buf, hrec, heq⟩ := World.handleRead_eq hen hpeer (hflow.bufs e) o.offers
  have hcon : ((c.world.transferred e.other e calls buf).ep e).buf = buf := by
    rw [World.transferred_ep, if_pos rfl]
  have hmask : c.world.mask (c.world.fd e) = some ⟨r.epollin, r.epollout⟩ := by
    simp [World.mask, htable]
  -- what holds if the registration has not changed
  have hsame : w = c.world.transferred e.other e calls buf →
      Agree e r mode buf.content → Watched { c.load t (pre ++ rest) with world := w } n' e := by
    intro hw hagree'
    obtain rfl : evs = calls.map (Event.call e.other (c.world.fd e.other)) := by
      rw [hw] at htrace
      exact (List.append_cancel_left htrace).symm
    have hquiet :
        (∀ op, .ctl op (c.world.fd e) ∉ calls.map (Event.call e.other (c.world.fd e.other))) ∧
        ∀ x, .close x (c.world.fd e) ∉ calls.map (Event.call e.other (c.world.fd e.other)) := by
      simp
    have hkeep := hafter.keep (P := fun s => Covered _ s _ _ _)
      (fun s s' hs he => hs.env (hmask ▸ he)) (fun s s' hs hu => hs.used hu) hquiet hcov
    have hfd : w.fd e = c.world.fd e := by
      rw [hw]
      exact World.transferred_fd e calls buf e
    apply Watched.registered r mode
    · show e ∈ w.thread.pollSet
      rw [hw]
      exact hset
    · show w.kernel.table (w.fd e) = some r
      rw [hfd, hw]
      exact htable
    · show w.thread.mode (w.fd e) = some mode
      rw [hfd, hw]
      exact hmode
    · show Agree e r mode (w.ep e).buf.content
      rw [hw, hcon]
      exact hagree'
    · show Covered _ (n' (w.fd e)) _ _ _
      rw [hfd]
      exact hkeep.imp
        (fun hin => input_run hin hcode hexec (by simpa using e.other_ne))
        (fun hout => output_run hout hcode hexec (by simp))
        (fun herr => error_run hinv herr hcode hexec (by simp) hstand)
  rw [heq] at hr
  split at hr
  · rcases World.updateMode_cases hr with ⟨rfl, hold⟩ | ⟨oldMode, rfl, hin, -⟩
    · have hold' := hold hset
      rw [World.transferred_thread, World.transferred_fd] at hold'
      obtain rfl : mode = Pollable.READ ||| Pollable.WRITE := Option.some.inj (hmode.symm.trans hold')
      exact hsame rfl ⟨hagree.ptr, hagree.read, hagree.input, hagree.output, fun _ => by decide⟩
    · obtain rfl : evs = calls.map (Event.call e.other (c.world.fd e.other)) ++
          [.ctl .mod ((c.world.transferred e.other e calls buf).fd e)] := by
        rw [World.rearmed_trace, World.transferred_trace, List.append_assoc] at htrace
        exact (List.append_cancel_left htrace).symm
      exact Watched.of_rearmed rfl hin hafter (by decide) (fun _ => by decide)
  · rename_i hle
    obtain rfl := Option.some.inj hr
    apply hsame rfl
    have hbytes : calls.flatMap FdCall.bytesRead = [] := by
      rw [World.transferred_trace, received_append, received_calls, if_pos rfl,
        List.length_append] at hcount
      rw [i32_eq (by omega) (by omega)] at hle
      apply List.eq_nil_of_length_eq_zero
      omega
    have hjoined : buf.content = (c.world.ep e).buf.content := by
      have hj := hrec.joined
      rw [hbytes, List.append_nil] at hj
      exact hj
    rw [hjoined]
    exact hagree

/-- `handle_write`: what is left in the buffer still asks for `WRITE`, and `WRITE`
    is only dropped when nothing is left. -/
theorem Watched.own_write (hinv : Inv safe c b d pj cj tail) (h : Watched c n e)
    (hcode : c.code t = .handleWrite e :: rest)
    (hexec : exec o c.world (.handleWrite e) = some (w, pre))
    (hen : (c.world.ep e).enabled = true)
    (htrace : w.trace = c.world.trace ++ evs) (hafter : After c.world.mask w.mask n evs n')
    (hbegun : Standing c.world e) (hstand : Standing w e) :
    Watched { c.load t (pre ++ rest) with world := w } n' e := by
  obtain ⟨r, mode, hset, htable, hmode, hagree, hcov⟩ := h.of_registered hinv hbegun
    (registered_of_built (Nat.le_of_succ_le (hinv.enabled_built hen)))
  have hr := (exec_handleWrite.mp hexec).1
  obtain ⟨calls, buf, hwr, heq⟩ := World.handleWrite_eq hen (hinv.world.flow.bufs e) o.accepts
  have hcon : ((c.world.transferred e e calls buf).ep e).buf = buf := by
    rw [World.transferred_ep, if_pos rfl]
  have hfd : (c.world.transferred e e calls buf).fd e = c.world.fd e :=
    World.transferred_fd e calls buf e
  have hmask : c.world.mask (c.world.fd e) = some ⟨r.epollin, r.epollout⟩ := by
    simp [World.mask, htable]
  rw [heq] at hr
  generalize hnew : (if buf.content ≠ [] then Pollable.READ ||| Pollable.WRITE else Pollable.READ)
    = newMode at hr
  have hread : newMode.has Pollable.READ = true := by
    rw [← hnew]
    split <;> decide
  have hwrite : newMode.has Pollable.WRITE = true ↔ buf.content ≠ [] := by
    rw [← hnew]
    split
    · rename_i hleft
      exact iff_of_true (by decide) hleft
    · rename_i hleft
      exact iff_of_false (by decide) hleft
  rcases World.updateMode_cases hr with ⟨rfl, hold⟩ | ⟨oldMode, rfl, hin, -⟩
  · have hold' := hold hset
    rw [World.transferred_thread, World.transferred_fd] at hold'
    obtain rfl : mode = newMode := Option.some.inj (hmode.symm.trans hold')
    obtain rfl : evs = calls.map (Event.call e (c.world.fd e)) :=
      (List.append_cancel_left htrace).symm
    have hquiet : (∀ op, .ctl op (c.world.fd e) ∉ calls.map (Event.call e (c.world.fd e))) ∧
        ∀ x, .close x (c.world.fd e) ∉ calls.map (Event.call e (c.world.fd e)) := by
      simp
    have hkeep := hafter.keep (P := fun s => Covered _ s _ _ _)
      (fun s s' hs he => hs.env (hmask ▸ he)) (fun s s' hs hu => hs.used hu) hquiet hcov
    -- bytes that are left met a full socket
    have hfull : Covered (some ⟨r.epollin, r.epollout⟩) (n' (c.world.fd e)) True False True := by
      by_cases hleft : buf.content = []
      · refine ⟨fun _ _ => Or.inr trivial, ?_, fun _ _ => Or.inr trivial⟩
        intro hm _
        exfalso
        rw [Option.any_some, hagree.output, hwrite] at hm
        exact hm hleft
      · obtain ⟨bytes, ret, hlast, hne, hle⟩ := hwr.refused hleft
        rw [← List.append_nil (calls.map _)] at hafter
        obtain ⟨n₁, s, hon, hrest⟩ := hafter.last_call hlast
        have hspace : s.space = 0 := by
          have hgiven := hon.given
          rw [hon.full bytes ret rfl hne hle] at hgiven
          omega
        refine hrest.keep (P := fun s => Covered _ s True False True)
          (fun s s' hs he => hs.env (hmask ▸ he)) (fun s s' hs hu => hs.used hu) (by simp) ?_
        rw [Function.update_self]
        exact Covered.of_full fun _ => hspace
    apply Watched.registered r mode
    · exact hset
    · show c.world.kernel.table ((c.world.transferred e e calls buf).fd e) = some r
      rw [hfd]
      exact htable
    · show c.world.thread.mode ((c.world.transferred e e calls buf).fd e) = some mode
      rw [hfd]
      exact hmode
    · show Agree e r mode ((c.world.transferred e e calls buf).ep e).buf.content
      rw [hcon]
      exact ⟨hagree.ptr, hagree.read, hagree.input, hagree.output, hwrite.mpr⟩
    · show Covered _ (n' ((c.world.transferred e e calls buf).fd e)) _ _ _
      rw [hfd]
      refine ⟨?_, fun hm hpos => (hfull.output hm hpos).imp id False.elim, ?_⟩
      · exact (hkeep.imp (fun hin => input_run hin hcode hexec (by simp)) id id).input
      · exact (hkeep.imp id id
          (fun herr => error_run hinv herr hcode hexec (by simp) hstand)).error
  · obtain rfl : evs = calls.map (Event.call e (c.world.fd e)) ++
        [.ctl .mod ((c.world.transferred e e calls buf).fd e)] := by
      rw [World.rearmed_trace, World.transferred_trace, List.append_assoc] at htrace
      exact (List.append_cancel_left htrace).symm
    refine Watched.of_rearmed rfl hin hafter hread ?_
    rw [hcon]
    exact hwrite.mpr

/-- `PollThread::add` takes an endpoint that is outside. -/
theorem Watched.taken (hinv : Inv safe c b d pj cj tail) (h : Watched c n e)
    (hcode : c.code t = .add e :: rest) (hexec : exec o c.world (.add e) = some (w, pre)) :
    Watched { c.load t (pre ++ rest) with world := w } n' e := by
  obtain ⟨hin, -, rfl, -⟩ := exec_add.mp hexec
  obtain ⟨hpair, hadd, hopen⟩ := hinv.add_new hcode
  cases h with
  | outside _ hcon =>
    apply Watched.added
    · exact List.mem_cons_self
    · show c.world.kernel.table (c.world.fd e) = none
      apply Option.eq_none_iff_forall_ne_some.mpr
      intro r hr
      obtain ⟨hfd, hreg, hcl⟩ := hinv.world.table.sound _ r hr
      have hne : r.ptr ≠ e := by
        rintro rfl
        exact hadd (hinv.ages.ordered.registered_added hreg)
      have ho := hinv.ages.ordered
      have hborn := hinv.world.born _ (ho.taken_tied (ho.added_taken (ho.registered_added hreg)))
      exact hinv.world.desc.ne hpair hopen hborn hcl hne hfd
    · exact Function.update_self ..
    · exact hcon
  | added hset _ _ _ => exact absurd hset hin
  | registered _ _ hset _ _ _ _ => exact absurd hset hin

/-- `EPOLL_CTL_ADD` reports what is already there. -/
theorem Watched.armed (hinv : Inv safe c b d pj cj tail) (h : Watched c n e)
    (hcode : c.code t = .epollAdd e :: rest)
    (hexec : exec o c.world (.epollAdd e) = some (w, pre))
    (htrace : w.trace = c.world.trace ++ evs) (hafter : After c.world.mask w.mask n evs n') :
    Watched { c.load t (pre ++ rest) with world := w } n' e := by
  obtain ⟨-, hnone, rfl, -⟩ := exec_epollAdd.mp hexec
  obtain ⟨-, hadd, hrem, -⟩ := hinv.next_epollAdd hcode
  cases h with
  | outside hset _ => exact absurd ((hinv.world.set.mem e).mpr ⟨hadd, hrem⟩) hset
  | registered r mode _ htable _ _ _ =>
    exfalso
    change c.world.kernel.table (c.world.fd e) = none at hnone
    rw [hnone] at htable
    cases htable
  | added hset _ hmode hcon =>
    have htable : (c.world.registered e).kernel.table (c.world.fd e) =
        some (PollThread.addEvent e pollMode) := Function.update_self ..
    obtain rfl : evs = [] ++ [.ctl .add (c.world.fd e)] := (List.append_cancel_left htrace).symm
    obtain ⟨s, hs⟩ := hafter.ctl_last
    rw [World.mask, htable] at hs
    apply Watched.registered (PollThread.addEvent e pollMode) pollMode
    · exact hset
    · exact htable
    · exact hmode
    · exact ⟨rfl, by decide, rfl, rfl, fun _ => by decide⟩
    · show Covered _ (n' (c.world.fd e)) _ _ _
      rw [hs]
      exact Covered.arm _ s

/-- What one section of a thread keeps. -/
theorem CoverInv.exec (hinv : Inv safe c b d pj cj tail) (h : CoverInv (c, n))
    (hcode : c.code t = i :: rest) (hexec : exec o c.world i = some (w, pre))
    (hawake : Awake c (.exec t o)) (hcount : Countable c (.exec t o))
    (htrace : w.trace = c.world.trace ++ evs) (hafter : After c.world.mask w.mask n evs n') :
    CoverInv ({ c.load t (pre ++ rest) with world := w }, n') := by
  intro e hpair hstand
  change e.pair < w.pairs at hpair
  change Standing w e at hstand
  rw [(exec_frame hinv.world.flow hexec).pairs] at hpair
  have hbegun : Standing c.world e := by
    intro hmem
    apply hstand
    rw [htrace]
    exact List.mem_append_left _ hmem
  have hnext : c.next t = some i := by rw [Config.next, hcode, List.head?_cons]
  have hen : ∀ x, i.handles = some x → (c.world.ep x).enabled = true := by
    intro x hx
    apply hawake
    rw [hnext]
    exact hx
  have hold := h e hpair hbegun
  by_cases hread : i = .handleRead e.other
  · subst hread
    have hlt := hcount e.other (by rw [hnext]; rfl) (w, pre) hexec
    exact hold.peer_read hinv hcode hexec (hen _ rfl) hlt htrace hafter hbegun hstand
  by_cases hwrite : i = .handleWrite e
  · subst hwrite
    exact hold.own_write hinv hcode hexec (hen _ rfl) htrace hafter hbegun hstand
  by_cases hadd : i = .add e
  · subst hadd
    exact hold.taken hinv hcode hexec
  by_cases hreg : i = .epollAdd e
  · subst hreg
    exact hold.armed hinv hcode hexec htrace hafter
  have hun := hinv.exec_untouched hcode hexec hpair hbegun hadd hreg
    (fun hi => absurd hi hread) (fun hi => absurd hi hwrite)
  exact hold.elsewhere hinv hcode hexec htrace hafter hun hstand
    (fun hi => hen e (hi ▸ rfl)) hwrite (fun hi => hen e (hi ▸ rfl))

/-- A batch has an event for each entry that is registered. -/
theorem entries_lookup {k : Kernel Ep} {batch : List (Nat × Events)} {is : List Instr} {fd : Nat}
    {ev : Events} {r : Interest Ep} (h : entries k batch = some is)
    (hev : batch.lookup fd = some ev) (hr : k.table fd = some r) : .event r.ptr ev ∈ is := by
  induction batch generalizing is with
  | nil => cases hev
  | cons entry batch ih =>
    obtain ⟨m, ev'⟩ := entry
    simp only [entries, Option.bind_eq_bind, Option.bind_eq_some_iff, Option.pure_def,
      Option.some.injEq] at h
    obtain ⟨r', hr', is', his', rfl⟩ := h
    by_cases hm : fd = m
    · subst hm
      rw [List.lookup_cons_self, Option.some.injEq] at hev
      rw [hr, Option.some.injEq] at hr'
      rw [hev, hr']
      exact List.mem_cons_self
    · rw [List.lookup_cons, beq_false_of_ne hm] at hev
      exact List.mem_cons_of_mem _ (ih his' hev)

/-- What `epoll_wait` reports is in flight. -/
theorem Watched.reported {batch : List (Nat × Events)} {is : List Instr} (h : Watched c n e)
    (hidle : c.code .poll = []) (his : entries c.world.kernel batch = some is) :
    Watched (c.load .poll (is ++ [.swapPending])) (n.report batch) e := by
  have hnone : ∀ f : Flags → Bool, InFlight f (c.code .poll) e → False := by
    intro f hf
    rw [hidle] at hf
    obtain ⟨i, hi, -⟩ := hf
    cases hi
  cases h with
  | outside hset hcon => exact Watched.outside hset hcon
  | added hset htable hmode hcon => exact Watched.added hset htable hmode hcon
  | registered r mode hset htable hmode hagree hreg =>
    refine Watched.registered r mode hset htable hmode hagree ?_
    show Covered _ (n.report batch (c.world.fd e)) _ _ _
    rw [Threads.load_code_self]
    cases hev : batch.lookup (c.world.fd e) with
    | none =>
      rw [Net.report, hev]
      exact hreg.imp (fun hf => (hnone _ hf).elim) (fun hf => (hnone _ hf).elim)
        (fun hf => (hnone _ hf).elim)
    | some ev =>
      have hin := entries_lookup his hev htable
      rw [hagree.ptr] at hin
      have hmem := List.mem_append_left [.swapPending] hin
      have hevent : ∀ f : Flags → Bool, f ev.flags = true →
          InFlight f (is ++ [.swapPending]) e := by
        intro f hf
        exact ⟨_, hmem, by simpa [Instr.carries] using hf⟩
      rw [Net.report, hev]
      exact (hreg.report ev.flags).imp
        (fun hf => hf.elim (fun hf => (hnone _ hf).elim) (hevent Flags.input))
        (fun hf => hf.elim (fun hf => (hnone _ hf).elim) (hevent Flags.output))
        (fun hf => hf.elim (fun hf => (hnone _ hf).elim) (hevent Flags.error))

/-- A socket that is handed out or given back belongs to no endpoint. -/
theorem Inv.fd_ne (hinv : Inv safe c b d pj cj tail) (hpair : e.pair < c.world.pairs)
    (hstand : Standing c.world e) (fd : Nat) (hfd : ∀ x, c.world.kernel.desc fd ≠ .tied x) :
    c.world.fd e ≠ fd := by
  rintro rfl
  exact hfd e (hinv.world.desc e hpair (hinv.standing_open hstand).1)

/-- What one move of the proxy keeps. -/
theorem CoverInv.step {c' : Config} {a : Act} (hinv : Inv safe c b d pj cj tail)
    (h : CoverInv (c, n)) (hawake : Awake c a) (hcount : Countable c a)
    (hstep : step a c = some c') (heff : n.Effect a c c' n') : CoverInv (c', n') := by
  cases a with
  | exec t o =>
    obtain ⟨evs, htrace, hafter⟩ := heff
    obtain ⟨i, rest, -, hcode, ⟨-, rfl⟩ | ⟨w, pre, hexec, rfl⟩⟩ := Threads.run_cases hstep
    · obtain rfl : evs = [] := (List.self_eq_append_right.mp htrace)
      intro e hpair hstand
      refine (h e hpair hstand).of_untouched (Untouched.refl e _) ?_
      intro m _ hmask hcov
      exact hafter.keep (P := fun s => Covered _ s _ _ _)
        (fun s s' hs he => hs.env (hmask ▸ he)) (fun s s' hs hu => hs.used hu) (by simp) hcov
    · exact h.exec hinv hcode hexec hawake hcount htrace hafter
  | wait batch =>
    simp only [Proxy.step] at hstep
    split at hstep
    · rename_i hguard
      obtain ⟨is, his, rfl⟩ := Option.map_eq_some_iff.mp hstep
      obtain rfl := heff
      intro e hpair hstand
      exact (h e hpair hstand).reported hguard.2.1 his
    · cases hstep
  | tieFd key fd1 fd2 =>
    simp only [Proxy.step] at hstep
    split at hstep
    · obtain rfl := Option.some.inj hstep
      obtain rfl := heff
      have hpoll : (c.load (.worker c.world.pairs) (tieFd c.world.pairs key)).code .poll =
          c.code .poll := Threads.load_code_of_ne _ (by simp)
      intro e hpair hstand
      by_cases hnew : e.pair = c.world.pairs
      · apply Watched.outside
        · intro hin
          have ho := hinv.ages.ordered
          have hadd := ((hinv.world.set.mem e).mp hin).1
          have hborn := hinv.world.born e (ho.taken_tied (ho.added_taken hadd))
          omega
        · show ((c.world.newPair fd1 fd2).ep e).buf.content = []
          obtain ⟨p, s⟩ := e
          change p = _ at hnew
          subst hnew
          rw [World.newPair_ep]
          split_ifs with h1 h2
          · exact EndPoint.new_content fd1
          · exact EndPoint.new_content fd2
          · cases s <;> simp at h1 h2
      · have hlt : e.pair < c.world.pairs :=
          Nat.lt_of_le_of_ne (Nat.le_of_lt_succ hpair) hnew
        have hep : (c.world.newPair fd1 fd2).ep e = c.world.ep e := by
          rw [World.newPair_ep, if_neg (fun heq => hnew (congrArg Ep.pair heq)),
            if_neg (fun heq => hnew (congrArg Ep.pair heq))]
        refine (h e hlt hstand).of_untouched ?_ ?_
        · have htrace : (c.world.newPair fd1 fd2).trace = c.world.trace ++ [] :=
            (List.append_nil _).symm
          refine Untouched.same ?_ ?_ ?_ ?_ ?_ htrace (by simp)
          · show ((c.world.newPair fd1 fd2).ep e).fd = _
            rw [hep]
            rfl
          · exact congrArg EndPoint.buf hep
          · rfl
          · rfl
          · rfl
        · intro m _ _ hcov
          rw [← hpoll] at hcov
          exact hcov
    · cases hstep
  | cleanup valid =>
    simp only [Proxy.step] at hstep
    split at hstep
    · obtain rfl := Option.some.inj hstep
      obtain rfl := heff
      intro e hpair hstand
      refine (h e hpair hstand).of_untouched (Untouched.refl e _) ?_
      intro m _ _ hcov
      rw [Threads.load_code_of_ne _ (by simp)]
      exact hcov
    · cases hstep
  | grab fd =>
    simp only [Proxy.step] at hstep
    split at hstep
    · rename_i hguard
      obtain rfl := Option.some.inj hstep
      intro e hpair hstand
      have hne := hinv.fd_ne hpair hstand fd (by simp [hguard.2])
      refine (h e hpair hstand).of_untouched (Untouched.same rfl rfl rfl rfl rfl
        (List.append_nil _).symm (by simp)) ?_
      intro m _ _ hcov
      have hsock : n' (c.world.fd e) = n (c.world.fd e) := heff _ hne
      show Covered _ (n' (c.world.fd e)) _ _ _
      rw [hsock]
      exact hcov
    · cases hstep
  | giveBack fd =>
    simp only [Proxy.step] at hstep
    split at hstep
    · rename_i hguard
      obtain rfl := Option.some.inj hstep
      obtain rfl := heff
      intro e hpair hstand
      have hne := hinv.fd_ne hpair hstand fd (by simp [hguard.2])
      refine (h e hpair hstand).of_untouched ⟨rfl, rfl, Iff.rfl, fun _ => rfl, ?_, [],
        (List.append_nil _).symm, by simp⟩ fun m _ _ hcov => hcov
      intro _
      exact Function.update_of_ne hne _ _
    · cases hstep

/-- In every run of a network that shuts no pair down twice, in which the handlers find
    their endpoints enabled and can count what they read, nothing is forgotten. -/
theorem coverInv_run {s : Config × Net} (h : NetRun CoverOk s) :
    CoverInv s ∧ ∃ b d pj cj tail, Inv False s.1 b d pj cj tail := by
  have hmild : ∀ s, NetRun CoverOk s → ∃ b d pj cj tail, Inv False s.1 b d pj cj tail :=
    fun s hs => mild_run False (fun _ _ ha => ha.1) False.elim hs.run
  refine ⟨?_, hmild s h⟩
  refine Lib.Reach.invariant (I := CoverInv) ?_ ?_ h
  · rintro ⟨_, n⟩ rfl e hpair
    exact absurd hpair (Nat.not_lt_zero _)
  · rintro ⟨c, n⟩ ⟨c', n'⟩ hreach hs hmove
    obtain ⟨b, d, pj, cj, tail, hinv⟩ := hmild _ hreach
    cases hmove with
    | proxy a ha hstep heff => exact hs.step hinv ha.2.1 ha.2.2 hstep heff
    | env henv =>
      intro e hpair hstand
      refine (hs e hpair hstand).of_untouched (Untouched.refl e _) ?_
      intro m _ hmask hcov
      exact hcov.env (hmask ▸ henv _)

end Step

end VncProxy.Proxy
