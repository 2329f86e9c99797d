/-
  VncProxy.Handshake.OwnRow

  A password routes to its own row.  DES uses the low seven bits of each byte of a
  key; among rows whose keys differ in these bits, the one whose key the client has
  used is the one that is found, and the pair is filed under its key.
-/
import VncProxy.Handshake.KeySchedule
import VncProxy.Handshake.Routing
import VncProxy.Handshake.Splice
import VncProxy.Proxy.Filed

namespace VncProxy.Handshake

open Lib (Prog Contract)
open Proxy (Config Filed)

-- ============================================================================
-- The bits of a forward key
-- ============================================================================

/-- The bits of a key that DES uses, padded like `auth_key`. -/
def keyBits (key : List Byte) : List Byte :=
  (overwrite (List.replicate 8 0) key).map (· &&& 0x7f)

/-- The register that a key leaves. -/
def schedule (key : List Byte) : D3des.Register :=
  D3des.rfbDesKey (overwrite (List.replicate 8 0) key) .EN0

theorem length_authKey {key : List Byte} (h : key.length ≤ 8) :
    (overwrite (List.replicate 8 0) key).length = 8 := by
  simp only [overwrite, List.length_append, List.length_drop, List.length_replicate]
  omega

/-- Keys that are alike in these bits are the same key to DES, and no others are. -/
theorem schedule_eq_iff {key key' : List Byte} (h : key.length ≤ 8) (h' : key'.length ≤ 8) :
    schedule key = schedule key' ↔ keyBits key = keyBits key' := by
  unfold schedule keyBits
  have hlen := length_authKey h
  have hlen' := length_authKey h'
  rw [D3des.rfbDesKey_eq_iff]
  constructor
  · intro hbits
    apply List.ext_getElem
    · rw [List.length_map, List.length_map, hlen, hlen']
    · intro k hk hk'
      rw [List.length_map] at hk hk'
      have hbit := hbits k (by omega)
      rw [List.getD_eq_getElem _ _ hk, List.getD_eq_getElem _ _ hk'] at hbit
      rwa [List.getElem_map, List.getElem_map]
  · intro heq k hk
    have hget := congrArg (·[k]?) heq
    have hk' : k < (overwrite (List.replicate 8 0) key).length := by omega
    have hk'' : k < (overwrite (List.replicate 8 0) key').length := by omega
    rw [List.getElem?_map, List.getElem?_map, List.getElem?_eq_getElem hk',
      List.getElem?_eq_getElem hk''] at hget
    rw [List.getD_eq_getElem _ _ hk', List.getD_eq_getElem _ _ hk'']
    exact Option.some.inj hget

-- ============================================================================
-- The row that is found
-- ============================================================================

section Rows

variable {challenge : List Byte} {rows : List Row} {row : Row}

/-- Different registers encrypt the challenge differently, for the keys of these
    rows. -/
def Distinguishes (challenge : List Byte) (rows : List Row) : Prop :=
  ∀ row ∈ rows, ∀ row' ∈ rows,
    schedule (column row.forwardKey) ≠ schedule (column row'.forwardKey) →
      vncResponse (column row.forwardKey) challenge ≠ vncResponse (column row'.forwardKey) challenge

theorem Row.Readable.length_column (h : row.Readable) : (column row.forwardKey).length ≤ 8 := by
  obtain ⟨key, hkey, hlen⟩ := h.key
  simpa [column, hkey] using hlen

theorem Row.Readable.answers_iff (h : row.Readable) {response : List Byte} :
    row.Answers challenge response ↔ response = vncResponse (column row.forwardKey) challenge := by
  obtain ⟨key, hkey, -⟩ := h.key
  simp [Row.Answers, column, hkey]

theorem firstMatch_own (hreadable : ∀ row ∈ rows, row.Readable)
    (hkeys : rows.Pairwise fun row row' =>
      keyBits (column row.forwardKey) ≠ keyBits (column row'.forwardKey))
    (hdes : Distinguishes challenge rows) (hrow : row ∈ rows) :
    firstMatch challenge (vncResponse (column row.forwardKey) challenge) rows = some row := by
  obtain ⟨before, after, rfl⟩ := List.append_of_mem hrow
  have hanswers : row.Answers challenge (vncResponse (column row.forwardKey) challenge) :=
    (hreadable row hrow).answers_iff.mpr rfl
  have hothers : ∀ row' ∈ before,
      ¬ row'.Answers challenge (vncResponse (column row.forwardKey) challenge) := by
    intro row' hbefore hanswers'
    have hrow' : row' ∈ before ++ row :: after := List.mem_append_left _ hbefore
    have hbits := (List.pairwise_append.mp hkeys).2.2 row' hbefore row List.mem_cons_self
    have hschedule : schedule (column row'.forwardKey) ≠ schedule (column row.forwardKey) := by
      intro heq
      exact hbits ((schedule_eq_iff (hreadable row' hrow').length_column
        (hreadable row hrow).length_column).mp heq)
    exact hdes row' hrow' row hrow hschedule
      ((hreadable row' hrow').answers_iff.mp hanswers').symm
  rw [firstMatch, List.find?_append, List.find?_eq_none.mpr (by simpa using hothers),
    Option.none_or, List.find?_cons_of_pos (by simpa using hanswers)]

end Rows

-- ============================================================================
-- The key of the pair
-- ============================================================================

/-- With a row in hand the operator goes on to connect to its address. -/
theorem finish_connects {clnt : Nat} {arrays : Arrays} {challenge response : List Byte}
    {row : Row} {x : Exchange} {post : List Exchange} {p : Code Unit}
    (h : Prog.Goes (finish clnt arrays (VncAuthInfo.ofRow challenge response row) SQLITE_OK)
      (x :: post) p) : x.op = .connectTo (column row.destAddr) := by
  have hfinish : ∃ next, finish clnt arrays (VncAuthInfo.ofRow challenge response row) SQLITE_OK =
      .call (.connectTo (column row.destAddr)) next := ⟨_, rfl⟩
  obtain ⟨next, hnext⟩ := hfinish
  rw [hnext] at h
  cases h with
  | call _ => rfl

/-- The pair that an operator has tied was tied by one of its calls. -/
theorem tied_mem {log : List Exchange} {v : View} {d : Splice}
    (h : (critical.track v log).tied = some d) :
    v.tied = some d ∨ ⟨.tieFd d.forwardKey d.clnt d.remote, ()⟩ ∈ log := by
  induction log using List.reverseRecOn with
  | nil => exact Or.inl h
  | append_singleton log x ih =>
    rw [Contract.track_snoc, critical_next] at h
    rw [List.mem_append, List.mem_singleton, ← or_assoc]
    obtain ⟨op, a⟩ := x
    cases op with
    | tieFd key fd1 fd2 =>
      obtain rfl := Option.some.inj h
      exact Or.inr rfl
    | connectTo addr =>
      rw [(View.next_connectTo _ addr a).2.2] at h
      exact Or.inl (ih h)
    | _ => exact Or.inl (ih h)

namespace Service

variable {s s' : Service} {i : Nat}

/-- A pair that an operator has tied is filed under the key that it was tied with. -/
def Keyed (s : Service) : Prop :=
  ∀ i t, s.tied i = some t → t.pair < s.config.world.pairs ∧
    ∃ o d, s.operator i = some o ∧ o.view.tied = some d ∧ Filed s.config t.pair d.forwardKey

/-- A move that ties no pair. -/
theorem Keyed.carry (h : Keyed s) (hrun : Proxy.Run (fun _ _ => True) s.config)
    (hconfig : s'.config = s.config ∨ ∃ a, Proxy.step a s.config = some s'.config)
    (htied : s'.tied = s.tied) (hops : ∀ j o d, s.operator j = some o → o.view.tied = some d →
      s'.operator j = some o) : Keyed s' := by
  intro j t ht
  rw [htied] at ht
  obtain ⟨hlt, o, d, ho, hd, hfiled⟩ := h j t ht
  have ho' := hops j o d ho hd
  rcases hconfig with hsame | ⟨a, hs⟩
  · rw [hsame]
    exact ⟨hlt, o, d, ho', hd, hsame ▸ hfiled⟩
  · have hw := (Proxy.relayInv_run hrun).flow
    exact ⟨Nat.lt_of_lt_of_le hlt (Proxy.step_pairs hw hs), o, d, ho', hd, hfiled.step hlt hw hs⟩

theorem Keyed.call {r : Reply} (h : Keyed s) (hg : Guarded s)
    (hrun : Proxy.Run (fun _ _ => True) s.config) (hs : step (.call i r) s = some s') :
    Keyed s' := by
  obtain ⟨o, op, next, a, s₁, ho, hprog, hserve, rfl⟩ := call_cases hs
  have hnone : o.view.tied = none := ((hg i o ho).owes hprog).1
  have hops : ∀ j o₁ d, s.operator j = some o₁ → o₁.view.tied = some d →
      (s₁.setOperator i { o with log := o.log ++ [⟨op, a⟩], prog := next a }).operator j =
        some o₁ := by
    intro j o₁ d ho₁ hd
    have hj : j ≠ i := by
      rintro rfl
      obtain rfl := Option.some.inj (ho.symm.trans ho₁)
      rw [hnone] at hd
      cases hd
    rw [setOperator_operator, if_neg hj, serve_operator hserve, ho₁]
  rcases serve_cases hserve with ⟨_, -, rfl⟩ | ⟨-, -, rfl⟩ | ⟨-, -, rfl⟩ | ⟨_, -, rfl⟩ |
    ⟨_, _, -, hact, rfl⟩ | ⟨_, -, rfl | ⟨_, _, hact, rfl⟩⟩ | ⟨_, _, -, hact, rfl⟩ |
    ⟨key, fd1, fd2, c, rfl, hact, rfl⟩
  · exact h.carry hrun (Or.inl rfl) rfl hops
  · exact h.carry hrun (Or.inl rfl) rfl hops
  · exact h.carry hrun (Or.inl rfl) rfl hops
  · exact h.carry hrun (Or.inl rfl) rfl hops
  · exact h.carry hrun (Or.inr ⟨_, hact⟩) rfl hops
  · exact h.carry hrun (Or.inl rfl) rfl hops
  · exact h.carry hrun (Or.inr ⟨_, hact⟩) rfl hops
  · exact h.carry hrun (Or.inr ⟨_, hact⟩) rfl hops
  · have hborn := Proxy.born_run hrun
    have hw := (Proxy.relayInv_run hrun).flow
    intro j t ht
    change Function.update s.tied i _ j = some t at ht
    rw [Function.update_apply] at ht
    split at ht
    · rename_i hj
      subst hj
      obtain rfl := Option.some.inj ht
      obtain ⟨hlt, hfiled⟩ := Proxy.filed_tieFd hborn hact
      refine ⟨hlt, { o with log := o.log ++ [⟨.tieFd key fd1 fd2, a⟩], prog := next a },
        ⟨key, fd1, fd2, o.view.conns fd1, o.view.conns fd2⟩, ?_, ?_, hfiled⟩
      · rw [setOperator_operator, if_pos rfl]
      · rw [Operator.view, Contract.track_snoc]
        rfl
    · obtain ⟨hlt, o₁, d, ho₁, hd, hfiled⟩ := h j t ht
      exact ⟨Nat.lt_of_lt_of_le hlt (Proxy.step_pairs hw hact), o₁, d, hops j o₁ d ho₁ hd, hd,
        hfiled.step hlt hw hact⟩

theorem keyed_run {allowed : Service → Move → Prop} (h : Run allowed s) : Keyed s := by
  apply h.invariant
  · rintro s rfl i t ht
    cases ht
  · rintro s s' hrun hs ⟨m, -, hstep⟩
    cases m with
    | accept i clnt stream buf response =>
      obtain ⟨c, hnone, -, -, hgrab, rfl⟩ := accept_cases hstep
      refine hs.carry (config_run hrun) (Or.inr ⟨_, hgrab⟩) rfl ?_
      intro j o d ho _
      have hj : j ≠ i := by
        rintro rfl
        rw [hnone] at ho
        cases ho
      rw [setOperator_operator, if_neg hj]
      exact ho
    | call i r => exact hs.call (guarded_run hrun) (config_run hrun) hstep
    | relay a =>
      obtain ⟨c, input, -, hact, -, rfl⟩ := relay_cases hstep
      exact hs.carry (config_run hrun) (Or.inr ⟨_, hact⟩) rfl fun _ _ _ ho _ => ho

/-- A client that answers with the key of a row, where no two rows have keys that are
    alike in the bits that DES uses: nothing goes wrong in the look-up, and after it
    the operator goes by this row, connects to its address, and ties the pair under
    its key. -/
theorem own_row {allowed : Service → Move → Prop} (h : Run allowed s) {o : Operator}
    (ho : s.operator i = some o) {pre rest : List Exchange} {arrays : Arrays} {rows : List Row}
    {r : Int} (hlog : o.log = pre ++ ⟨.lock, ()⟩ :: ⟨.selectRoutes, (rows, r)⟩ :: rest)
    (hgreet : Prog.Goes (greetClient o.clnt o.buf o.response) pre (.done (some arrays)))
    (hreadable : ∀ row ∈ rows, row.Readable)
    (hkeys : rows.Pairwise fun row row' =>
      keyBits (column row.forwardKey) ≠ keyBits (column row'.forwardKey))
    (hdes : Distinguishes arrays.challenge rows) {row : Row} (hrow : row ∈ rows)
    (hanswer : arrays.response = vncResponse (column row.forwardKey) arrays.challenge) :
    (∃ op next, op ≠ .undefined ∧ Prog.Goes (authenticate arrays.challenge arrays.response)
        (⟨.lock, ()⟩ :: ⟨.selectRoutes, (rows, r)⟩ :: rest) (.call op next)) ∨
      ∃ during post, rest = during ++ post ∧
        Prog.Goes (authenticate arrays.challenge arrays.response)
          (⟨.lock, ()⟩ :: ⟨.selectRoutes, (rows, r)⟩ :: during)
          (.done (VncAuthInfo.ofRow arrays.challenge arrays.response row, r)) ∧
        Prog.Goes (finish o.clnt arrays
          (VncAuthInfo.ofRow arrays.challenge arrays.response row) r) post o.prog ∧
        (r = SQLITE_OK → ∀ x ∈ post.head?, x.op = .connectTo (column row.destAddr)) ∧
        (∀ addr (fd? : Option Nat), ⟨.connectTo addr, fd?⟩ ∈ post →
          addr = column row.destAddr) ∧
        ∀ t, s.tied i = some t → Filed s.config t.pair (column row.forwardKey) := by
  obtain ⟨v, htied, hlocked, hkept, hview, hgoes⟩ := greeted h ho hlog hgreet
  rcases hgoes.bind_cases with ⟨op, next, hp, -⟩ | ⟨during, post, ⟨info, r'⟩, hsplit, hauth, hpost⟩
  · refine Or.inl ⟨op, next, ?_, hp⟩
    rintro rfl
    exact (Prog.wp_goes (authenticate_lookup hp) (defined_kept hkept.2.2)
      (lookup_defined hreadable)).1 rfl
  right
  have hkeptSplit := hkept
  rw [hsplit, Contract.kept_append] at hkeptSplit
  rw [hsplit, Contract.track_append] at hview
  obtain ⟨hnone, rows', tail, rfl, rfl⟩ := found htied hlocked hkeptSplit.1 hauth
  simp only [List.cons_append, List.cons.injEq, Lib.Exchange.mk.injEq, heq_eq_eq, Prod.mk.injEq,
    true_and] at hsplit
  obtain ⟨⟨rfl, rfl⟩, rfl⟩ := hsplit
  have hfirst : scan arrays.challenge arrays.response rows =
      VncAuthInfo.ofRow arrays.challenge arrays.response row := by
    apply scan_eq_ofRow
    rw [hanswer]
    exact firstMatch_own hreadable hkeys hdes hrow
  have hout := Outcome.of_goes hpost hkeptSplit.2
  rw [hfirst] at hauth hpost hout
  refine ⟨tail, post, rfl, hauth, hpost, ?_, ?_, ?_⟩
  · rintro rfl x hx
    cases post with
    | nil => cases hx
    | cons y post =>
      obtain rfl := Option.some.inj hx
      exact finish_connects hpost
  · intro addr fd? hmem
    exact (hout.connected addr fd? hmem).2
  · intro t ht
    obtain ⟨-, o', d, ho', hd, hfiled⟩ := keyed_run h i t ht
    obtain rfl := Option.some.inj (ho.symm.trans ho')
    rw [hview] at hd
    rcases tied_mem hd with hd | hmem
    · rw [hnone] at hd
      cases hd
    · rw [hout.tied _ _ _ hmem] at hfiled
      exact hfiled

/-- What a query for the routes has returned. -/
def shown : Exchange → Option (List Row × Int)
  | ⟨.selectRoutes, (answer : List Row × Int)⟩ => some answer
  | _ => none

theorem shown_eq_some {x : Exchange} {answer : List Row × Int} (h : shown x = some answer) :
    x = ⟨.selectRoutes, answer⟩ := by
  obtain ⟨op, a⟩ := x
  cases op <;> first | exact Option.some.inj h ▸ rfl | cases h

/-- A log with the lock and the query in two places. -/
theorem log_split {log : List Exchange} {n : Nat} {answer : List Row × Int}
    (hlock : log[n]?.map (·.op) = some .lock) (hshown : log[n + 1]?.bind shown = some answer) :
    log = log.take n ++ ⟨.lock, ()⟩ :: ⟨.selectRoutes, answer⟩ :: log.drop (n + 2) := by
  obtain ⟨⟨op, a⟩, hx, hop⟩ := Option.map_eq_some_iff.mp hlock
  obtain ⟨y, hy, hanswer⟩ := Option.bind_eq_some_iff.mp hshown
  obtain rfl : op = .lock := hop
  obtain rfl := shown_eq_some hanswer
  obtain ⟨hn, hx⟩ := List.getElem?_eq_some_iff.mp hx
  obtain ⟨hn', hy⟩ := List.getElem?_eq_some_iff.mp hy
  conv_lhs => rw [← List.take_append_drop n log, List.drop_eq_getElem_cons hn,
    List.drop_eq_getElem_cons hn', hx, hy]

/-- What there is to check about an operator: the result of its greeting, the calls
    with which it takes the lock and gets the rows, whether it is still in the
    section under the lock, and a call after that. -/
structure Checkpoints where
  greeted : Option (Option Arrays)
  locks : Option Call
  shown : Option (List Row × Int)
  inside : Bool
  after : Option Call
deriving DecidableEq

def checkpoints (arrays : Arrays) (o : Operator) : Checkpoints where
  greeted := ((greetClient o.clnt o.buf o.response).follow (o.log.take 23)).bind Prog.result?
  locks := o.log[23]?.map (·.op)
  shown := o.log[24]?.bind shown
  inside := ((authenticate arrays.challenge arrays.response).follow (o.log.drop 23)).isSome
  after := (o.log.drop 25)[4]?.map (·.op)

theorem own_row_two : ∃ (o : Operator) (during post : List Exchange),
    twoEnd.operator 0 = some o ∧ o.log.drop 25 = during ++ post ∧
      Prog.Goes (authenticate twoArrays.challenge twoArrays.response)
        (⟨.lock, ()⟩ :: ⟨.selectRoutes, (twoRows, 0)⟩ :: during)
        (.done (VncAuthInfo.ofRow twoArrays.challenge twoArrays.response twoRows[1], 0)) ∧
      ∀ addr (fd? : Option Nat), ⟨.connectTo addr, fd?⟩ ∈ post → addr = [104, 58, 50] := by
  have hrun : Run (fun _ _ => True) twoEnd :=
    Run.of_moves (twoEnd_eq ▸ Lib.runActs_eq_lastState (by decide +kernel))
  have hcheck : (twoEnd.operator 0).map (checkpoints twoArrays) = some
      ⟨some (some twoArrays), some .lock, some (twoRows, 0), false,
        some (.rfbDes (List.replicate 8 7))⟩ := by
    decide +kernel
  obtain ⟨o, ho, hcheck⟩ := Option.map_eq_some_iff.mp hcheck
  simp only [checkpoints, Checkpoints.mk.injEq] at hcheck
  obtain ⟨hgreet, hlock, hshown, hpast, -⟩ := hcheck
  have hlog := log_split hlock hshown
  have hreadable : ∀ row ∈ twoRows, row.Readable := by
    intro row hrow
    rcases List.mem_pair.mp hrow with rfl | rfl <;> exact ⟨⟨_, rfl, by decide⟩, rfl⟩
  have hdes : Distinguishes twoArrays.challenge twoRows := by
    unfold Distinguishes
    decide +kernel
  have hanswer : twoArrays.response =
      vncResponse (column twoRows[1].forwardKey) twoArrays.challenge := rfl
  rcases own_row hrun ho hlog (Prog.goes_of_result hgreet) hreadable (by decide +kernel) hdes
    (List.getElem_mem _) hanswer with
    ⟨op, next, -, hp⟩ | ⟨during, post, hrest, hauth, -, -, hconnect, -⟩
  · rw [← List.append_cancel_left (hlog.symm.trans (List.take_append_drop 23 o.log).symm),
      Prog.follow_eq_some.mpr hp] at hpast
    cases hpast
  · exact ⟨o, during, post, ho, hrest, hauth, hconnect⟩

/-- Keys that differ in the most significant bit of a byte only. -/
def alikeRows : List Row :=
  [⟨some ⟨[97], by decide⟩, some hostOne, none⟩, ⟨some ⟨[225], by decide⟩, some hostTwo, none⟩]

def alikeCall (n : Nat) : Move := .call 0 ⟨n, some n, 7, alikeRows, none, []⟩

/-- A client that answers with the second key is greeted, and its row is looked up. -/
def alikeMoves : List Move :=
  [.accept 0 3 (twoClient [225]) (List.replicate 16 0) (List.replicate 16 0)] ++
  twoGreeting.map alikeCall ++ List.replicate 7 (alikeCall 0)

@[irreducible] def alikeEnd : Service :=
  Lib.lastState (fun m s => if True then step m s else none) alikeMoves start

theorem alikeEnd_eq : alikeEnd =
    Lib.lastState (fun m s => if True then step m s else none) alikeMoves start := by
  unfold alikeEnd
  rfl

/-- What the greeting leaves in the operator's arrays. -/
def alikeArrays : Arrays :=
  ⟨[2, 2] ++ version.drop 2 ++ [0, 0, 0, 0], List.replicate 16 7,
    vncResponse [225] (List.replicate 16 7)⟩

/-- The two keys are not the same, but they leave the same register, so the client of
    the second row is sent to the address of the first. -/
theorem own_row_alike : ∃ (o : Operator) (pre rest : List Exchange) (fd? : Option Nat),
    Run (fun _ _ => True) alikeEnd ∧ alikeEnd.operator 0 = some o ∧
      o.log = pre ++ ⟨.lock, ()⟩ :: ⟨.selectRoutes, (alikeRows, SQLITE_OK)⟩ :: rest ∧
      Prog.Goes (greetClient o.clnt o.buf o.response) pre (.done (some alikeArrays)) ∧
      (∀ row ∈ alikeRows, row.Readable) ∧
      (alikeRows.Pairwise fun row row' => row.forwardKey ≠ row'.forwardKey) ∧
      (∀ row ∈ alikeRows, ∀ row' ∈ alikeRows,
        schedule (column row.forwardKey) = schedule (column row'.forwardKey)) ∧
      alikeArrays.response = vncResponse (column alikeRows[1].forwardKey) alikeArrays.challenge ∧
      ⟨.connectTo (column alikeRows[0].destAddr), fd?⟩ ∈ rest ∧
      column alikeRows[0].destAddr ≠ column alikeRows[1].destAddr := by
  have hrun : Run (fun _ _ => True) alikeEnd :=
    Run.of_moves (alikeEnd_eq ▸ Lib.runActs_eq_lastState (by decide +kernel))
  have hcheck : (alikeEnd.operator 0).map (checkpoints alikeArrays) = some
      ⟨some (some alikeArrays), some .lock, some (alikeRows, SQLITE_OK), false,
        some (.connectTo [104, 58, 49])⟩ := by
    decide +kernel
  obtain ⟨o, ho, hcheck⟩ := Option.map_eq_some_iff.mp hcheck
  simp only [checkpoints, Checkpoints.mk.injEq] at hcheck
  obtain ⟨hgreet, hlock, hshown, -, hconnect⟩ := hcheck
  obtain ⟨⟨op, fd?⟩, hget, hop⟩ := Option.map_eq_some_iff.mp hconnect
  obtain rfl : op = .connectTo [104, 58, 49] := hop
  have hlog := log_split hlock hshown
  have hreadable : ∀ row ∈ alikeRows, row.Readable := by
    intro row hrow
    rcases List.mem_pair.mp hrow with rfl | rfl <;> exact ⟨⟨_, rfl, by decide⟩, rfl⟩
  have hsame : ∀ row ∈ alikeRows, ∀ row' ∈ alikeRows,
      schedule (column row.forwardKey) = schedule (column row'.forwardKey) := by
    decide +kernel
  have hanswer : alikeArrays.response =
      vncResponse (column alikeRows[1].forwardKey) alikeArrays.challenge := rfl
  have hmem : ⟨.connectTo [104, 58, 49], fd?⟩ ∈ o.log.drop 25 := List.mem_of_getElem? hget
  exact ⟨o, o.log.take 23, o.log.drop 25, fd?, hrun, ho, hlog, Prog.goes_of_result hgreet,
    hreadable, by decide, hsame, hanswer, hmem, by decide⟩

end Service

end VncProxy.Handshake
