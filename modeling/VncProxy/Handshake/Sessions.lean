/-
  VncProxy.Handshake.Sessions

  Operators side by side, sharing one key register.  `run` touches the register
  under `global_m` only (`run_critical`), so what an operator has loaded there is
  there when it encrypts, whatever the others do in between; the log of each
  operator is one that it could have with a register of its own.
-/
import VncProxy.Handshake.Service

namespace VncProxy.Handshake

open Lib (Prog)
open Proxy (Act)

-- ============================================================================
-- The register is touched under the lock
-- ============================================================================

section Contract

variable {v : View} {clnt remote : Nat} {buf response : List Byte}

theorem greetClient_critical (htied : v.tied = none) :
    (greetClient clnt buf response).wp critical
      (fun v' _ => v'.tied = none ∧ v'.locked = v.locked) v := by
  unfold greetClient
  simp [View.next, View.OwesLock, htied]
  intros
  refine wp_randBytes ?_ (fun _ => rfl) _ ?_
  · exact ⟨htied, trivial⟩
  · simp [htied]

theorem greetRemote_critical (htied : v.tied = none) :
    (greetRemote clnt remote buf).wp critical
      (fun v' _ => v'.tied = none ∧ v'.locked = v.locked) v := by
  unfold greetRemote closeBoth
  simp [View.next, View.OwesLock, htied]

theorem answerRemote_critical {info : VncAuthInfo} {arrays : Arrays} {noneAuth vncAuth : Bool}
    (htied : v.tied = none) (hlocked : v.locked = false) :
    (answerRemote clnt remote info arrays noneAuth vncAuth).wp critical
      (fun v' _ => v'.tied = none ∧ v'.locked = false) v := by
  unfold answerRemote closeBoth authKey desBlocks
  simp [View.next, View.OwesLock, htied, hlocked]

theorem run_critical :
    (run clnt buf response).wp critical (fun v _ => v.locked = false) (View.start clnt) := by
  unfold run
  rw [Prog.wp_bind]
  apply Prog.wp_mono (greetClient_critical rfl)
  rintro v arrays? ⟨htied, hlocked⟩
  have hlocked : v.locked = false := hlocked
  cases arrays? with
  | none => exact hlocked
  | some arrays =>
  show Prog.wp critical (authenticate _ _ >>= _) _ v
  rw [Prog.wp_bind]
  apply wp_authenticate critical_careful htied hlocked
  intro v' r _ htied' hlocked'
  show Prog.wp critical (if r ≠ SQLITE_OK then _ else _) _ v'
  rw [Prog.wp_ite]
  constructor
  · intro _
    simp [View.next, View.OwesLock, htied', hlocked']
  intro _
  rw [Prog.wp_ite]
  constructor
  · intro _
    simp [View.next, View.OwesLock, htied', hlocked']
  intro _
  rw [Prog.wp_bind, wp_connectTo]
  refine ⟨⟨htied', trivial⟩, ?_⟩
  intro remote? _
  cases remote? with
  | none =>
    show Prog.wp critical (close clnt) _ v'
    simp [View.next, View.OwesLock, htied', hlocked']
  | some remote =>
  show Prog.wp critical (greetRemote _ _ _ >>= _) _ (v'.setConn remote ⟨[], []⟩)
  rw [Prog.wp_bind]
  apply Prog.wp_mono (greetRemote_critical (v := v'.setConn remote ⟨[], []⟩) htied')
  rintro w types? ⟨htiedw, hw⟩
  have hw : w.locked = false := hw.trans hlocked'
  cases types? with
  | none => exact hw
  | some types =>
  show Prog.wp critical (answerRemote _ _ _ _ _ _ >>= _) _ w
  rw [Prog.wp_bind]
  apply Prog.wp_mono (answerRemote_critical htiedw hw)
  rintro w' ok ⟨htied'', hw'⟩
  rw [Prog.wp_ite]
  constructor
  · intro _
    exact hw'
  · intro _
    simp [View.next, View.OwesLock, htied'', hw']

end Contract

-- ============================================================================
-- One call
-- ============================================================================

namespace Service

section Serve

variable {s s' : Service} {v : View} {i : Nat} {r : Reply}

/-- All that a call can do. -/
theorem serve_cases {op : Call} {a : op.Ans} (h : s.serve i r op = some (a, s')) :
    (∃ input, op.plain = true ∧ s' = { s with input }) ∨
    (op = .lock ∧ s.globalM = none ∧ s' = { s with globalM := some i }) ∨
    (op = .unlock ∧ s.globalM = some i ∧ s' = { s with globalM := none }) ∨
    (∃ knl, op = .rfbUseKey knl ∧ s' = { s with register := knl }) ∨
    (∃ fd config, op = .close fd ∧ Proxy.step (.giveBack fd) s.config = some config ∧
      s' = { s with config }) ∨
    (∃ addr, op = .connectTo addr ∧ (s' = s ∨ ∃ fd config,
      Proxy.step (.grab fd) s.config = some config ∧ s' = s.opened config fd r.stream)) ∨
    (∃ valid config, op = .cleanup valid ∧ Proxy.step (.cleanup valid) s.config = some config ∧
      s' = { s with config }) ∨
    ∃ key fd1 fd2 config, op = .tieFd key fd1 fd2 ∧
      Proxy.step (.tieFd key fd1 fd2) s.config = some config ∧ s' = { s with
        config
        tied := Function.update s.tied i
          (some ⟨s.config.world.pairs, s.stream fd1, s.stream fd2⟩) } := by
  cases op with
  | abort | undefined => cases h
  | setNonblocking | rand | selectRoutes | selectKeys | rfbDes =>
    obtain ⟨-, rfl⟩ := Prod.mk.inj (Option.some.inj h)
    exact Or.inl ⟨s.input, rfl, rfl⟩
  | send fd buf =>
    simp only [serve] at h
    split at h
    · obtain ⟨-, rfl⟩ := Prod.mk.inj (Option.some.inj h)
      exact Or.inl ⟨s.input, rfl, rfl⟩
    · cases h
  | recv fd len =>
    simp only [serve] at h
    split at h <;>
    · obtain ⟨-, rfl⟩ := Prod.mk.inj (Option.some.inj h)
      exact Or.inl ⟨_, rfl, rfl⟩
  | lock =>
    simp only [serve] at h
    split at h
    · rename_i hfree
      obtain ⟨-, rfl⟩ := Prod.mk.inj (Option.some.inj h)
      exact Or.inr (Or.inl ⟨rfl, hfree, rfl⟩)
    · cases h
  | unlock =>
    simp only [serve] at h
    split at h
    · rename_i hmine
      obtain ⟨-, rfl⟩ := Prod.mk.inj (Option.some.inj h)
      exact Or.inr (Or.inr (Or.inl ⟨rfl, hmine, rfl⟩))
    · cases h
  | rfbUseKey knl =>
    obtain ⟨-, rfl⟩ := Prod.mk.inj (Option.some.inj h)
    exact Or.inr (Or.inr (Or.inr (Or.inl ⟨knl, rfl, rfl⟩)))
  | close fd =>
    obtain ⟨c, hclose, heq⟩ := Option.map_eq_some_iff.mp h
    obtain ⟨-, rfl⟩ := Prod.mk.inj heq
    exact Or.inr (Or.inr (Or.inr (Or.inr (Or.inl ⟨fd, c, rfl, hclose, rfl⟩))))
  | connectTo addr =>
    refine Or.inr (Or.inr (Or.inr (Or.inr (Or.inr (Or.inl ⟨addr, rfl, ?_⟩)))))
    simp only [serve] at h
    split at h
    · obtain ⟨-, rfl⟩ := Prod.mk.inj (Option.some.inj h)
      exact Or.inl rfl
    · obtain ⟨c, hgrab, heq⟩ := Option.map_eq_some_iff.mp h
      obtain ⟨-, rfl⟩ := Prod.mk.inj heq
      exact Or.inr ⟨_, c, hgrab, rfl⟩
  | cleanup valid =>
    obtain ⟨c, hcleanup, heq⟩ := Option.map_eq_some_iff.mp h
    obtain ⟨-, rfl⟩ := Prod.mk.inj heq
    exact Or.inr (Or.inr (Or.inr (Or.inr (Or.inr (Or.inr (Or.inl ⟨valid, c, rfl, hcleanup, rfl⟩))))))
  | tieFd key fd1 fd2 =>
    obtain ⟨c, htie, heq⟩ := Option.map_eq_some_iff.mp h
    obtain ⟨-, rfl⟩ := Prod.mk.inj heq
    exact Or.inr (Or.inr (Or.inr (Or.inr (Or.inr (Or.inr (Or.inr
      ⟨key, fd1, fd2, c, rfl, htie, rfl⟩))))))

/-- A call changes no operator. -/
theorem serve_operator {op : Call} {a : op.Ans} (h : s.serve i r op = some (a, s')) :
    s'.operator = s.operator := by
  rcases serve_cases h with ⟨_, -, rfl⟩ | ⟨-, -, rfl⟩ | ⟨-, -, rfl⟩ | ⟨_, -, rfl⟩ |
    ⟨_, _, -, -, rfl⟩ | ⟨_, -, rfl | ⟨_, _, -, rfl⟩⟩ | ⟨_, _, -, -, rfl⟩ |
    ⟨_, _, _, _, -, -, rfl⟩ <;> rfl

/-- The call leaves the lock and the register alone. -/
structure Aside (s s' : Service) (v v' : View) : Prop where
  globalM : s'.globalM = s.globalM
  register : s'.register = s.register
  locked : v'.locked = v.locked
  loaded : v'.register = v.register

/-- The calls under `global_m`, or none of them. -/
theorem serve_aside {op : Call} {a : op.Ans} (h : s.serve i r op = some (a, s')) :
    (op = .lock ∧ s.globalM = none ∧ s' = { s with globalM := some i }) ∨
    (op = .unlock ∧ s.globalM = some i ∧ s' = { s with globalM := none }) ∨
    (∃ knl, op = .rfbUseKey knl ∧ s' = { s with register := knl }) ∨
    Aside s s' v (v.next op a) := by
  rcases serve_cases h with ⟨_, hop, rfl⟩ | hlock | hunlock | hkey | hrest
  · obtain ⟨hlocked, hloaded, -⟩ := View.next_plain v a hop
    exact Or.inr (Or.inr (Or.inr ⟨rfl, rfl, hlocked, hloaded⟩))
  · exact Or.inl hlock
  · exact Or.inr (Or.inl hunlock)
  · exact Or.inr (Or.inr (Or.inl hkey))
  · right
    right
    right
    rcases hrest with ⟨_, _, rfl, -, rfl⟩ | ⟨addr, rfl, rfl | ⟨_, _, -, rfl⟩⟩ | ⟨_, _, rfl, -, rfl⟩ |
      ⟨_, _, _, _, rfl, -, rfl⟩
    · exact ⟨rfl, rfl, rfl, rfl⟩
    · obtain ⟨hlocked, hloaded, -⟩ := View.next_connectTo v addr a
      exact ⟨rfl, rfl, hlocked, hloaded⟩
    · obtain ⟨hlocked, hloaded, -⟩ := View.next_connectTo v addr a
      exact ⟨rfl, rfl, hlocked, hloaded⟩
    · exact ⟨rfl, rfl, rfl, rfl⟩
    · exact ⟨rfl, rfl, rfl, rfl⟩

/-- The lock is the operator's while it is inside, and the register is what it has
    loaded there. -/
structure Inside (s : Service) (i : Nat) (v : View) : Prop where
  globalM : v.locked = true → s.globalM = some i
  register : v.locked = true → ∀ knl, v.register = some knl → s.register = knl

theorem Inside.of_not_locked (hlocked : v.locked = false) : Inside s i v := by
  constructor <;>
  · intro h
    rw [hlocked] at h
    cases h

theorem Inside.serve (hin : Inside s i v) {op : Call} {a : op.Ans} (howes : v.OwesLock op)
    (h : s.serve i r op = some (a, s')) : Inside s' i (v.next op a) := by
  rcases serve_aside (v := v) h with ⟨rfl, -, rfl⟩ | ⟨rfl, -, rfl⟩ | ⟨knl, rfl, rfl⟩ | haside
  · exact ⟨fun _ => rfl, fun _ _ hnone => by cases hnone⟩
  · exact Inside.of_not_locked rfl
  · exact ⟨fun _ => hin.globalM howes, fun _ _ hknl => Option.some.inj hknl⟩
  · refine ⟨fun hlocked => ?_, fun hlocked => ?_⟩
    · rw [haside.globalM]
      exact hin.globalM (haside.locked ▸ hlocked)
    · rw [haside.register, haside.loaded]
      exact hin.register (haside.locked ▸ hlocked)

/-- Two operators are not inside at the same time. -/
theorem Inside.alone {j : Nat} {v' : View} (hi : Inside s i v) (hj : Inside s j v') (hji : j ≠ i)
    (hlocked : v.locked = true) : v'.locked = false := by
  rw [← Bool.not_eq_true]
  intro hlocked'
  have hgi := hi.globalM hlocked
  rw [hj.globalM hlocked'] at hgi
  exact hji (Option.some.inj hgi)

/-- An operator does not get in the way of another one that is inside. -/
theorem Inside.serve_other {j : Nat} {v' : View} (hj : Inside s j v') (hji : j ≠ i)
    (hi : Inside s i v) {op : Call} {a : op.Ans} (howes : v.OwesLock op)
    (h : s.serve i r op = some (a, s')) : Inside s' j v' := by
  rcases serve_aside (v := v) h with ⟨rfl, hfree, rfl⟩ | ⟨rfl, -, -⟩ | ⟨knl, rfl, -⟩ | haside
  · apply Inside.of_not_locked
    rw [← Bool.not_eq_true]
    intro hlocked
    rw [hj.globalM hlocked] at hfree
    cases hfree
  · exact Inside.of_not_locked (hi.alone hj hji howes)
  · exact Inside.of_not_locked (hi.alone hj hji howes)
  · refine ⟨?_, ?_⟩
    · rw [haside.globalM]
      exact hj.globalM
    · rw [haside.register]
      exact hj.register

/-- What the critical section is granted is what happens. -/
theorem serve_critical (hin : Inside s i v) {op : Call} {a : op.Ans} (howes : v.OwesLock op)
    (h : s.serve i r op = some (a, s')) : v.GrantsLock op a := by
  cases op with
  | rfbDes inblock =>
    obtain ⟨rfl, -⟩ := Prod.mk.inj (Option.some.inj h)
    intro knl hknl
    rw [hin.register howes knl hknl]
  | _ => trivial

end Serve

-- ============================================================================
-- Whole runs
-- ============================================================================

/-- An operator has made the calls of `run`, with answers that a register of its own
    could have given. -/
structure OperatorOk (s : Service) (i : Nat) (o : Operator) : Prop where
  buf : o.buf.length = 16
  response : o.response.length = 16
  goes : Prog.Goes (run o.clnt o.buf o.response) o.log o.prog
  kept : critical.Kept (View.start o.clnt) o.log
  inside : Inside s i o.view

def Guarded (s : Service) : Prop := ∀ i o, s.operator i = some o → OperatorOk s i o

section Steps

variable {s s' : Service}

/-- What an operator owes at its next call. -/
theorem OperatorOk.owes {i : Nat} {o : Operator} (h : OperatorOk s i o) {op : Call}
    {next : op.Ans → Code Unit} (hprog : o.prog = .call op next) : o.view.tied = none ∧ o.view.OwesLock op := by
  have hwp := Prog.wp_goes h.goes h.kept run_critical
  rw [hprog] at hwp
  exact hwp.1

theorem call_cases {i : Nat} {r : Reply} (h : step (.call i r) s = some s') :
    ∃ o op next a s₁, s.operator i = some o ∧ o.prog = .call op next ∧
      s.serve i r op = some (a, s₁) ∧
      s' = s₁.setOperator i { o with log := o.log ++ [⟨op, a⟩], prog := next a } := by
  simp only [step] at h
  split at h
  · cases h
  · rename_i o ho
    split at h
    · cases h
    · rename_i op next hprog
      obtain ⟨⟨a, s₁⟩, hserve, rfl⟩ := Option.map_eq_some_iff.mp h
      exact ⟨o, op, next, a, s₁, ho, hprog, hserve, rfl⟩

@[simp] theorem setOperator_operator (i j : Nat) (o : Operator) :
    (s.setOperator i o).operator j = if j = i then some o else s.operator j := by
  simp [setOperator, Function.update_apply]

/-- What only the lock and the register have a part in. -/
theorem Inside.of_eq {i : Nat} {v : View} (h : Inside s i v) (hglobalM : s'.globalM = s.globalM)
    (hregister : s'.register = s.register) : Inside s' i v := by
  constructor
  · rw [hglobalM]
    exact h.globalM
  · rw [hregister]
    exact h.register

theorem OperatorOk.of_eq {i : Nat} {o : Operator} (h : OperatorOk s i o)
    (hglobalM : s'.globalM = s.globalM) (hregister : s'.register = s.register) :
    OperatorOk s' i o :=
  ⟨h.buf, h.response, h.goes, h.kept, h.inside.of_eq hglobalM hregister⟩

theorem Guarded.call {i : Nat} {r : Reply} (h : Guarded s) (hs : step (.call i r) s = some s') :
    Guarded s' := by
  obtain ⟨o, op, next, a, s₁, ho, hprog, hserve, rfl⟩ := call_cases hs
  have hok := h i o ho
  obtain ⟨-, howes⟩ := hok.owes hprog
  intro j o' ho'
  rw [setOperator_operator] at ho'
  split at ho'
  · rename_i hj
    subst hj
    obtain rfl := Option.some.inj ho'
    refine ⟨hok.buf, hok.response, ?_, ?_, ?_⟩
    · have hgoes := hok.goes
      rw [hprog] at hgoes
      exact hgoes.snoc a
    · rw [Lib.Contract.kept_snoc]
      exact ⟨hok.kept, serve_critical hok.inside howes hserve⟩
    · have hin : Inside s₁ j (o.view.next op a) := hok.inside.serve howes hserve
      rw [Operator.view, Lib.Contract.track_snoc]
      exact hin.of_eq rfl rfl
  · rename_i hj
    rw [serve_operator hserve] at ho'
    have hok' := h j o' ho'
    have hin := hok'.inside.serve_other hj hok.inside howes hserve
    exact ⟨hok'.buf, hok'.response, hok'.goes, hok'.kept, hin.of_eq rfl rfl⟩

theorem accept_cases {i clnt : Nat} {stream buf response : List Byte}
    (h : step (.accept i clnt stream buf response) s = some s') :
    ∃ c, s.operator i = none ∧ buf.length = 16 ∧ response.length = 16 ∧
      Proxy.step (.grab clnt) s.config = some c ∧
      s' = (s.opened c clnt stream).setOperator i (Operator.new clnt buf response) := by
  simp only [step] at h
  split at h
  · rename_i hguard
    obtain ⟨c, hgrab, rfl⟩ := Option.map_eq_some_iff.mp h
    exact ⟨c, Option.isNone_iff_eq_none.mp hguard.1, hguard.2.1, hguard.2.2, hgrab, rfl⟩
  · cases h

theorem Guarded.accept {i clnt : Nat} {stream buf response : List Byte} (h : Guarded s)
    (hs : step (.accept i clnt stream buf response) s = some s') : Guarded s' := by
  obtain ⟨c, -, hbuf, hresponse, -, rfl⟩ := accept_cases hs
  intro j o' ho'
  rw [setOperator_operator] at ho'
  split at ho'
  · obtain rfl := Option.some.inj ho'
    exact ⟨hbuf, hresponse, Prog.Goes.refl _, trivial, Inside.of_not_locked rfl⟩
  · exact (h j o' ho').of_eq rfl rfl

theorem relay_cases {a : Act} (h : step (.relay a) s = some s') :
    ∃ c input, inner a = true ∧ Proxy.step a s.config = some c ∧
      consume s.desc (c.world.trace.drop s.trace.length) s.input = some input ∧
      s' = { s with config := c, input } := by
  simp only [step] at h
  split at h
  · rename_i hinner
    obtain ⟨c, hstep, h⟩ := Option.bind_eq_some_iff.mp h
    obtain ⟨input, hinput, rfl⟩ := Option.map_eq_some_iff.mp h
    exact ⟨c, input, hinner, hstep, hinput, rfl⟩
  · cases h

theorem Guarded.relay {a : Act} (h : Guarded s) (hs : step (.relay a) s = some s') :
    Guarded s' := by
  obtain ⟨c, input, -, -, -, rfl⟩ := relay_cases hs
  intro j o ho
  exact (h j o ho).of_eq rfl rfl

/-- Whatever the order of the moves, every operator is as it could be alone. -/
theorem guarded_run {allowed : Service → Move → Prop} (h : Run allowed s) : Guarded s := by
  apply h.invariant
  · rintro s rfl i o ho
    cases ho
  · rintro s s' - hs ⟨m, -, hstep⟩
    cases m with
    | accept i clnt stream buf response => exact hs.accept hstep
    | call i r => exact hs.call hstep
    | relay a => exact hs.relay hstep

end Steps

end Service

end VncProxy.Handshake
