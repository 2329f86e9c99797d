/-
  VncProxy.Handshake.CleanupTurn

  Deleting a route closes exactly its connections: a turn of `cleanup_thread` calls
  `cleanup` only with all the keys of the table, and `cleanup` closes the pairs that
  are registered under another key.
-/
import VncProxy.Handshake.Auth
import VncProxy.Proxy.Prune

namespace VncProxy.Handshake

open Lib (Prog Contract Completes)
open Proxy (CallRun Cleaned)

/-- The key is that of a row. -/
def Valid (values : List (Option CString)) (key : List Byte) : Prop :=
  ∃ value ∈ values, value.map CString.bytes = some key

/-- What a turn may do once the query has returned. -/
def pruning (values : List (Option CString)) (r : Int) : Contract Call Call.Ans Unit where
  next _ _ _ := ()
  owes _ op :=
    match op with
    | .unlock | .undefined => True
    | .cleanup valid => r = SQLITE_OK ∧ ∀ key, key ∈ valid ↔ Valid values key
    | _ => False
  grants _ _ _ := True

section Turn

variable {values : List (Option CString)} {r : Int}

/-- The rest of the turn, from the rows on. -/
def prune (values : List (Option CString)) (r : Int) : Code Unit := do
  let valid ← values.foldlM collectForwardKeyCallback []
  unlock
  if r ≠ SQLITE_OK then
    return ()
  cleanup valid

theorem prune_pruning : (prune values r).wp (pruning values r) (fun _ _ => True) () := by
  unfold prune
  rw [Prog.wp_bind]
  have hloop := Prog.wp_foldlM (k := pruning values r) (f := collectForwardKeyCallback)
    (I := fun pre _ valid => ∀ key, key ∈ valid ↔ Valid pre key) values (by
      rintro pre value post _ valid - hvalid
      unfold collectForwardKeyCallback
      rw [Prog.wp_bind, wp_deref]
      refine ⟨?_, fun _ => trivial⟩
      rintro c rfl
      rw [Prog.wp_pure]
      intro key
      rw [List.mem_insert_iff, hvalid]
      simp [Valid, or_and_right, exists_or, or_comm, eq_comm])
    () [] (by simp [Valid])
  apply Prog.wp_mono hloop
  rintro - valid hvalid
  rw [Prog.wp_bind, wp_unlock]
  refine ⟨trivial, ?_⟩
  intro _ _
  rw [Prog.wp_ite]
  refine ⟨fun _ => trivial, ?_⟩
  intro hok
  rw [wp_cleanup]
  exact ⟨⟨not_not.mp hok, hvalid⟩, fun _ _ => trivial⟩

/-- The first calls of a turn: the lock and the query. -/
theorem turn_cases {log : List Exchange} {p : Code Unit} (h : Prog.Goes cleanupTurn log p) :
    ((log = [] ∨ log = [⟨.lock, ()⟩]) ∧ ∀ valid next, p ≠ .call (.cleanup valid) next) ∨
      ∃ values r rest, log = ⟨.lock, ()⟩ :: ⟨.selectKeys, (values, r)⟩ :: rest ∧
        Prog.Goes (prune values r) rest p := by
  change Prog.Goes (.call .lock fun _ => .call .selectKeys
    fun (a : List (Option CString) × Int) => prune a.1 a.2) log p at h
  cases h with
  | refl => exact Or.inl ⟨Or.inl rfl, by simp⟩
  | call h =>
    cases h with
    | refl => exact Or.inl ⟨Or.inr rfl, by simp⟩
    | call h => exact Or.inr ⟨_, _, _, rfl, h⟩

end Turn

/-- What a turn has done, or is about to do. -/
structure TurnOk (log : List Exchange) (p : Code Unit) (values : List (Option CString)) (r : Int) :
    Prop where
  calls : ∀ x ∈ log, x.op = .lock ∨ x.op = .selectKeys ∨ x.op = .unlock ∨
    ∃ valid, x.op = .cleanup valid
  cleaned : ∀ valid, ⟨.cleanup valid, ()⟩ ∈ log → r = SQLITE_OK ∧ ∀ key, key ∈ valid ↔ Valid values key
  cleans : ∀ valid next, p = .call (.cleanup valid) next →
    r = SQLITE_OK ∧ ∀ key, key ∈ valid ↔ Valid values key

theorem turn_ok {log : List Exchange} {p : Code Unit} {values : List (Option CString)} {r : Int}
    (h : Prog.Goes cleanupTurn log p) (hquery : ⟨.selectKeys, (values, r)⟩ ∈ log) :
    TurnOk log p values r := by
  rcases turn_cases h with ⟨rfl | rfl, -⟩ | ⟨values', r', rest, rfl, hrest⟩
  · cases hquery
  · simp at hquery
  have hkept : (pruning values' r').Kept () rest := Contract.kept_of_grants fun _ _ _ => trivial
  have howes : ∀ x ∈ rest, (pruning values' r').owes () x.op := by
    intro x hx
    obtain ⟨pre, post, rfl⟩ := List.append_of_mem hx
    exact Prog.owes_of_goes hrest hkept prune_pruning rfl
  have hsame : values = values' ∧ r = r' := by
    rcases List.mem_cons.mp hquery with hx | hx
    · cases hx
    · rcases List.mem_cons.mp hx with hx | hx
      · cases hx
        exact ⟨rfl, rfl⟩
      · exact (howes _ hx).elim
  obtain ⟨rfl, rfl⟩ := hsame
  refine ⟨?_, ?_, ?_⟩
  · intro x hx
    rcases List.mem_cons.mp hx with rfl | hx
    · exact Or.inl rfl
    · rcases List.mem_cons.mp hx with rfl | hx
      · exact Or.inr (Or.inl rfl)
      · have howed := howes x hx
        obtain ⟨op, a⟩ := x
        cases op with
        | unlock => exact Or.inr (Or.inr (Or.inl rfl))
        | cleanup valid => exact Or.inr (Or.inr (Or.inr ⟨valid, rfl⟩))
        | undefined => exact a.elim
        | _ => exact howed.elim
  · intro valid hx
    rcases List.mem_cons.mp hx with hx | hx
    · cases hx
    · rcases List.mem_cons.mp hx with hx | hx
      · cases hx
      · exact howes _ hx
  · rintro valid next rfl
    exact (Prog.wp_goes hrest hkept prune_pruning).1

/-- Whatever has been called before, `cleanup` goes through, takes the keys that are not
    valid out of the registry and no others, and closes both sockets of their pairs and
    of no others; and it is only called with all the keys of a query that has not
    failed. -/
theorem deleted_route :
    (∀ w, CallRun w → ∀ valid, ∃ w',
      (∀ w'', Completes Proxy.exec [.collect valid] w w'' ↔ w'' = w') ∧ Cleaned valid w w') ∧
    ∀ log p values r, Prog.Goes cleanupTurn log p → ⟨.selectKeys, (values, r)⟩ ∈ log →
      TurnOk log p values r := by
  refine ⟨?_, ?_⟩
  · intro w hrun valid
    have htidy := Proxy.tidy_run hrun
    exact ⟨_, fun w'' => htidy.cleanup, htidy.cleaned⟩
  · intro log p values r hgoes hquery
    exact turn_ok hgoes hquery

/-- Two sockets are accepted and tied. -/
def tieNext (t : List Byte × Nat × Nat) (w : Proxy.World) : Option Proxy.World :=
  if w.kernel.desc t.2.1 = .closed ∧ w.kernel.desc t.2.2 = .closed ∧ t.2.1 ≠ t.2.2 then
    let w : Proxy.World :=
      { w with kernel := (w.kernel.setDesc t.2.1 .held).setDesc t.2.2 .held }
    Lib.complete Proxy.exec .idle 9 (Proxy.tieFd w.pairs t.1) (w.newPair t.2.1 t.2.2)
  else none

theorem CallRun.tieNext {w w' : Proxy.World} {t : List Byte × Nat × Nat} (h : CallRun w)
    (hs : tieNext t w = some w') : CallRun w' := by
  unfold Handshake.tieNext at hs
  split at hs
  · rename_i hguard
    obtain ⟨hclosed1, hclosed2, hne⟩ := hguard
    have hgrab1 := h.step (Proxy.Called.grab hclosed1)
    have hclosed2' : ({ w with kernel := w.kernel.setDesc t.2.1 .held } :
        Proxy.World).kernel.desc t.2.2 = .closed := by
      show Function.update _ _ _ _ = _
      rw [Function.update_of_ne hne.symm, hclosed2]
    have hgrab2 := hgrab1.step (Proxy.Called.grab hclosed2')
    refine hgrab2.step (Proxy.Called.tieFd ?_ ?_ hne (Completes.of_complete hs))
    · show Function.update (Function.update _ _ _) _ _ _ = _
      rw [Function.update_of_ne hne, Function.update_self]
    · exact Function.update_self ..
  · cases hs

theorem CallRun.ties {w w' : Proxy.World} {ts : List (List Byte × Nat × Nat)} (h : CallRun w)
    (hs : Lib.runActs Handshake.tieNext ts w = some w') : CallRun w' := by
  induction ts generalizing w with
  | nil => exact Option.some.inj hs ▸ h
  | cons t ts ih =>
    obtain ⟨w₁, hfirst, hrest⟩ := Option.bind_eq_some_iff.mp hs
    exact ih (CallRun.tieNext h hfirst) hrest

/-- Two connections with key `a` and one with key `b`. -/
def threeTied : List (List Byte × Nat × Nat) := [([97], 3, 4), ([98], 5, 6), ([97], 7, 8)]

@[irreducible] def threeEnd : Proxy.World := Lib.lastState tieNext threeTied Proxy.World.start

theorem threeEnd_eq : threeEnd = Lib.lastState tieNext threeTied Proxy.World.start := by
  unfold threeEnd
  rfl

/-- Only key `b` is left in the table: the two connections with key `a` are closed.  If
    the query has failed behind this key, nothing is. -/
theorem deleted_route_three : CallRun threeEnd ∧
    (∃ w', Completes Proxy.exec [.collect [[98]]] threeEnd w' ∧
      w'.leaders = [([98], ⟨1, .first⟩)] ∧ Proxy.Shut threeEnd w' ⟨0, .second⟩ ∧
      Proxy.Same threeEnd w' ⟨1, .second⟩ ∧ Proxy.Shut threeEnd w' ⟨2, .first⟩) ∧
    ∀ p, Prog.Goes cleanupTurn
      [⟨.lock, ()⟩, ⟨.selectKeys, ([some ⟨[98], by decide⟩], 1)⟩] p →
        ∀ valid next, p ≠ .call (.cleanup valid) next := by
  have hrun : CallRun threeEnd := by
    rw [threeEnd_eq]
    exact CallRun.ties (Lib.Reach.start rfl) (Lib.runActs_eq_lastState (by decide +kernel))
  have hleaders : threeEnd.leaders =
      [([97], ⟨0, .first⟩), ([97], ⟨2, .first⟩), ([98], ⟨1, .first⟩)] := by
    rw [threeEnd_eq]
    decide +kernel
  obtain ⟨w', hcompletes, hcleaned⟩ := deleted_route.1 threeEnd hrun [[98]]
  refine ⟨hrun, ⟨w', (hcompletes w').mpr rfl, ?_, ?_, ?_, ?_⟩, ?_⟩
  · rw [hcleaned.leaders, hleaders]
    decide
  · exact hcleaned.shut [97] ⟨0, .first⟩ (by simp [hleaders]) (by decide) _ rfl
  · exact hcleaned.same [98] ⟨1, .first⟩ (by simp [hleaders]) (by decide) _ rfl
  · exact hcleaned.shut [97] ⟨2, .first⟩ (by simp [hleaders]) (by decide) _ rfl
  · intro p hgoes valid next hnext
    have hfailed := ((deleted_route.2 _ p [some ⟨[98], by decide⟩] 1 hgoes (by simp)).cleans valid next hnext).1
    cases hfailed

end VncProxy.Handshake
