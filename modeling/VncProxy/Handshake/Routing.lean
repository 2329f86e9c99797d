/-
  VncProxy.Handshake.Routing

  What becomes of a client's answer, with any number of operators at work on one
  key register.  An operator that is through with its greeting either is still in
  the section under `global_m`, or has found the first row that answers, and from
  then on uses the address, the key and the password of that row and of no other.
-/
import VncProxy.Handshake.Sessions
import Mathlib.Data.List.Induction

namespace VncProxy.Handshake

open Lib (Prog Contract)

-- ============================================================================
-- The section under the lock goes through
-- ============================================================================

/-- The callback can copy the row's key into `auth_key` and read its columns. -/
structure Row.Readable (row : Row) : Prop where
  key : ∃ key, row.forwardKey = some key ∧ key.bytes.length ≤ 8
  addr : row.destAddr.isSome

/-- No write past the end of an array, and no null pointer that is followed. -/
def defined : Contract Call Call.Ans View :=
  { critical with owes := fun _ op => op ≠ .undefined }

@[simp] theorem defined_owes (v : View) (op : Call) : defined.owes v op ↔ op ≠ .undefined := Iff.rfl

section Defined

variable {v : View} {challenge response : List Byte} {rows : List Row} {r : Int}

theorem defined_kept {log : List Exchange} (h : critical.Kept v log) : defined.Kept v log := by
  refine Contract.Kept.map (k := critical) id ?_ ?_ h
  · exact fun _ _ _ => rfl
  · exact fun _ _ _ => id

theorem vncAuthCallback_defined {info : VncAuthInfo} {row : Row} (h : row.Readable) :
    (vncAuthCallback info row).wp defined (fun _ _ => True) v := by
  obtain ⟨⟨key, hkey, hlen⟩, haddr⟩ := h
  obtain ⟨addr, haddr⟩ := Option.isSome_iff_exists.mp haddr
  unfold vncAuthCallback authKey desBlocks
  cases hpasswd : row.destPasswd <;> simp [hkey, hlen, haddr]

theorem lookup_defined (h : ∀ row ∈ rows, row.Readable) :
    (do
      let info ← rows.foldlM vncAuthCallback (VncAuthInfo.new challenge response)
      unlock
      return (info, r)).wp defined (fun _ _ => True) v := by
  rw [Prog.wp_bind]
  apply Prog.wp_mono (Q := fun _ _ => True)
  · apply Prog.wp_foldlM (I := fun _ _ _ => True) rows _ v _ trivial
    intro pre row post v' info hrows _
    apply vncAuthCallback_defined
    apply h
    rw [hrows]
    exact List.mem_append_right _ List.mem_cons_self
  · intro v' info _
    simp

/-- What is left of the section after the query. -/
theorem authenticate_lookup {tail : List Exchange} {p : Code (VncAuthInfo × Int)}
    (h : Prog.Goes (authenticate challenge response)
      (⟨.lock, ()⟩ :: ⟨.selectRoutes, (rows, r)⟩ :: tail) p) :
    Prog.Goes (do
      let info ← rows.foldlM vncAuthCallback (VncAuthInfo.new challenge response)
      unlock
      return (info, r)) tail p := by
  change Prog.Goes (.call .lock fun _ => .call .selectRoutes fun (a : List Row × Int) => do
    let info ← a.1.foldlM vncAuthCallback (VncAuthInfo.new challenge response)
    unlock
    return (info, a.2)) _ p at h
  cases h with
  | call h =>
    cases h with
    | call h => exact h

/-- The first calls of the section: the lock and the query. -/
theorem authenticate_cases {during : List Exchange} {p : Code (VncAuthInfo × Int)}
    (h : Prog.Goes (authenticate challenge response) during p) :
    (∃ next, p = .call .lock next) ∨ (∃ next, p = .call .selectRoutes next) ∨
      ∃ rows r tail, during = ⟨.lock, ()⟩ :: ⟨.selectRoutes, (rows, r)⟩ :: tail := by
  change Prog.Goes (.call .lock fun _ => .call .selectRoutes fun (a : List Row × Int) => do
    let info ← a.1.foldlM vncAuthCallback (VncAuthInfo.new challenge response)
    unlock
    return (info, a.2)) during p at h
  cases h with
  | refl => exact Or.inl ⟨_, rfl⟩
  | call h =>
    cases h with
    | refl => exact Or.inr (Or.inl ⟨_, rfl⟩)
    | call h => exact Or.inr (Or.inr ⟨_, _, _, rfl⟩)

end Defined

-- ============================================================================
-- What follows
-- ============================================================================

/-- The rest of `run`, from the result of the look-up on. -/
def finish (clnt : Nat) (arrays : Arrays) (info : VncAuthInfo) (r : Int) : Code Unit := do
  if r ≠ SQLITE_OK then
    close clnt
    return ()
  if ¬ info.matched then
    let _ ← send clnt ((overwrite arrays.buf (hostBytes 1)).take 4)
    close clnt
    return ()
  let some remote ← connectTo info.destAddr | close clnt
  let some (noneAuth, vncAuth) ← greetRemote clnt remote arrays.buf | return ()
  if ¬ (← answerRemote clnt remote info arrays noneAuth vncAuth) then
    return ()
  verify ((← setNonblocking clnt true) = 0)
  verify ((← setNonblocking remote true) = 0)
  tieFd info.forwardKey clnt remote

theorem run_eq (clnt : Nat) (buf response : List Byte) : run clnt buf response = (do
    let some arrays ← greetClient clnt buf response | return ()
    let (info, r) ← authenticate arrays.challenge arrays.response
    finish clnt arrays info r) := rfl

/-- What the operator has heard in the last 16-byte answer on each socket, and what
    it makes of the row it carries. -/
def answering (arrays : Arrays) (info : VncAuthInfo) :
    Contract Call Call.Ans (View × (Nat → Option (List Byte))) where
  next s op a := ⟨s.1.next op a,
    match op, a with
    | .recv fd 16, (some bytes : Option (List Byte)) => Function.update s.2 fd (some bytes)
    | _, _ => s.2⟩
  owes s op :=
    match op with
    | .connectTo addr => info.matched = true ∧ addr = info.destAddr
    | .tieFd key _ _ => key = info.forwardKey
    | .send fd buf => buf.length = 16 → ∃ bytes, s.2 fd = some bytes ∧
        buf = vncResponse info.destPasswd (overwrite arrays.challenge bytes)
    | _ => True
  grants s op a := s.1.GrantsLock op a

section Answering

variable {arrays : Arrays} {info : VncAuthInfo} {s : View × (Nat → Option (List Byte))}

@[simp] theorem answering_next (op : Call) (a : op.Ans) : (answering arrays info).next s op a =
    ⟨s.1.next op a,
      match op, a with
      | .recv fd 16, (some bytes : Option (List Byte)) => Function.update s.2 fd (some bytes)
      | _, _ => s.2⟩ := rfl

theorem greetRemote_answering {clnt remote : Nat} {buf : List Byte} :
    (greetRemote clnt remote buf).wp (answering arrays info) (fun _ _ => True) s := by
  unfold greetRemote closeBoth
  simp [answering, version]

theorem answerRemote_answering {clnt remote : Nat} {noneAuth vncAuth : Bool} :
    (answerRemote clnt remote info arrays noneAuth vncAuth).wp (answering arrays info)
      (fun _ _ => True) s := by
  unfold answerRemote closeBoth authKey desBlocks
  simp [answering, View.next, View.GrantsLock]
  intros
  rfl

theorem finish_answering {clnt : Nat} {r : Int} :
    (finish clnt arrays info r).wp (answering arrays info) (fun _ _ => True) s := by
  unfold finish
  rw [Prog.wp_ite]
  constructor
  · intro _
    simp [answering]
  intro _
  rw [Prog.wp_ite]
  constructor
  · intro _
    simp [answering]
    omega
  intro hmatched
  rw [Prog.wp_bind, wp_connectTo]
  refine ⟨⟨not_not.mp hmatched, rfl⟩, ?_⟩
  intro remote? _
  cases remote? with
  | none =>
    show Prog.wp _ (close clnt) _ _
    simp [answering]
  | some remote =>
  show Prog.wp _ (greetRemote _ _ _ >>= _) _ _
  rw [Prog.wp_bind]
  apply Prog.wp_mono greetRemote_answering
  rintro s₁ types? -
  cases types? with
  | none => trivial
  | some types =>
  show Prog.wp _ (answerRemote _ _ _ _ _ _ >>= _) _ _
  rw [Prog.wp_bind]
  apply Prog.wp_mono answerRemote_answering
  rintro s₂ ok -
  rw [Prog.wp_ite]
  constructor
  · intro _
    trivial
  · intro _
    simp [answering]

/-- What has been heard is in the log. -/
theorem heard_mem {log : List Exchange} {v : View} {fd : Nat} {bytes : List Byte}
    (h : ((answering arrays info).track (v, fun _ => none) log).2 fd = some bytes) :
    ⟨.recv fd 16, some bytes⟩ ∈ log := by
  induction log using List.reverseRecOn with
  | nil => cases h
  | append_singleton log x ih =>
    rw [Contract.track_snoc, answering_next] at h
    obtain ⟨op, a⟩ := x
    rw [List.mem_append, List.mem_singleton]
    dsimp only at h
    split at h
    · rename_i n bytes'
      by_cases hn : fd = n
      · subst hn
        rw [Function.update_self] at h
        obtain rfl := Option.some.inj h
        exact Or.inr rfl
      · rw [Function.update_of_ne hn] at h
        exact Or.inl (ih h)
    · exact Or.inl (ih h)

theorem answering_kept {log : List Exchange} {v : View} (h : critical.Kept v log) :
    (answering arrays info).Kept (v, fun _ => none) log := by
  refine Contract.Kept.map (k := critical) Prod.fst ?_ ?_ h
  · exact fun _ _ _ => rfl
  · exact fun _ _ _ => id

end Answering

-- ============================================================================
-- The first row that answers
-- ============================================================================

/-- What comes of a look-up in `rows`, for the calls `post` that follow it. -/
structure Outcome (arrays : Arrays) (rows : List Row) (info : VncAuthInfo)
    (post : List Exchange) : Prop where
  matched : info.matched = true ↔
    ∃ row ∈ rows, row.Answers arrays.challenge arrays.response
  carried : ∀ row, firstMatch arrays.challenge arrays.response rows = some row →
    info.forwardKey = column row.forwardKey ∧ info.destAddr = column row.destAddr ∧
      (info.hasDestPasswd = true ↔ row.destPasswd ≠ none) ∧
      info.destPasswd = column row.destPasswd
  connected : ∀ addr (fd? : Option Nat), ⟨.connectTo addr, fd?⟩ ∈ post →
    info.matched = true ∧ addr = info.destAddr
  tied : ∀ key fd1 fd2, ⟨.tieFd key fd1 fd2, ()⟩ ∈ post → key = info.forwardKey
  answered : ∀ fd buf (n : Int), ⟨.send fd buf, n⟩ ∈ post → buf.length = 16 →
    ∃ bytes : List Byte, ⟨.recv fd 16, some bytes⟩ ∈ post ∧
      buf = vncResponse info.destPasswd (overwrite arrays.challenge bytes)

section Scan

variable {challenge response : List Byte} {rows : List Row}

theorem scan_matched_iff : (scan challenge response rows).matched = true ↔
    ∃ row ∈ rows, row.Answers challenge response := by
  rw [scan_matched, firstMatch]
  constructor
  · rintro ⟨row, hrow⟩
    exact ⟨row, List.mem_of_find?_eq_some hrow, by simpa using List.find?_some hrow⟩
  · rintro ⟨row, hmem, hanswers⟩
    apply Option.isSome_iff_exists.mp
    rw [List.find?_isSome]
    exact ⟨row, hmem, by simpa using hanswers⟩

theorem scan_eq_ofRow {row : Row} (h : firstMatch challenge response rows = some row) :
    scan challenge response rows = VncAuthInfo.ofRow challenge response row := by
  simp only [scan, h]

end Scan

/-- What the operator does after its look-up it owes to the row that was found. -/
theorem Outcome.of_goes {arrays : Arrays} {rows : List Row} {r : Int} {clnt : Nat}
    {post : List Exchange} {p : Code Unit} {v : View}
    (hpost : Prog.Goes (finish clnt arrays (scan arrays.challenge arrays.response rows) r) post p)
    (hkept : critical.Kept v post) :
    Outcome arrays rows (scan arrays.challenge arrays.response rows) post := by
  have howes : ∀ x ∈ post, ∃ heard : Nat → Option (List Byte),
      (∀ fd bytes, heard fd = some bytes → ⟨.recv fd 16, some bytes⟩ ∈ post) ∧
      (answering arrays (scan arrays.challenge arrays.response rows)).owes (v, heard) x.op := by
    intro x hx
    obtain ⟨pre', post', rfl⟩ := List.append_of_mem hx
    have howed := Prog.owes_of_goes hpost (answering_kept hkept) finish_answering rfl
    refine ⟨_, ?_, howed⟩
    intro fd bytes hbytes
    exact List.mem_append_left _ (heard_mem hbytes)
  refine ⟨scan_matched_iff, ?_, ?_, ?_, ?_⟩
  · intro row hrow
    rw [scan_eq_ofRow hrow]
    exact ⟨rfl, rfl, by simp [VncAuthInfo.ofRow, Option.isSome_iff_ne_none], rfl⟩
  · intro addr fd? hmem
    obtain ⟨heard, -, howed⟩ := howes _ hmem
    exact howed
  · intro key fd1 fd2 hmem
    obtain ⟨heard, -, howed⟩ := howes _ hmem
    exact howed
  · intro fd buf n hmem hlen
    obtain ⟨heard, hheard, howed⟩ := howes _ hmem
    obtain ⟨bytes, hbytes, hbuf⟩ := howed hlen
    exact ⟨bytes, hheard fd bytes hbytes, hbuf⟩

namespace Service

variable {s : Service} {i : Nat}

section Greeted

variable {allowed : Service → Move → Prop} {o : Operator} {pre rest : List Exchange}
variable {arrays : Arrays}

/-- An operator that is through with its greeting has nothing tied and does not hold
    the lock. -/
theorem greeted (h : Run allowed s) (ho : s.operator i = some o) (hlog : o.log = pre ++ rest)
    (hgreet : Prog.Goes (greetClient o.clnt o.buf o.response) pre (.done (some arrays))) :
    ∃ v : View, v.tied = none ∧ v.locked = false ∧ critical.Kept v rest ∧
      o.view = critical.track v rest ∧
      Prog.Goes (authenticate arrays.challenge arrays.response >>= fun x =>
        finish o.clnt arrays x.1 x.2) rest o.prog := by
  have hok := guarded_run h i o ho
  have hkept := hok.kept
  have hgoes := hok.goes
  rw [hlog, Contract.kept_append] at hkept
  rw [hlog, run_eq] at hgoes
  obtain ⟨htied, hlocked⟩ := Prog.wp_goes hgreet hkept.1 (greetClient_critical rfl)
  have hrest := Prog.Goes.bind_done hgreet hgoes
  refine ⟨_, htied, hlocked, hkept.2, ?_, hrest⟩
  rw [Operator.view, hlog, Contract.track_append]
  rfl

/-- With a row that the callback can read in every place, the section under
    `global_m` goes through. -/
theorem no_undefined {v : View} {challenge response : List Byte} {p : Code (VncAuthInfo × Int)}
    (hp : Prog.Goes (authenticate challenge response) rest p) (hkept : critical.Kept v rest)
    (hreadable : ∀ rows r, ⟨.selectRoutes, ((rows, r) : List Row × Int)⟩ ∈ rest →
      ∀ row ∈ rows, row.Readable) : ∀ next, p ≠ .call .undefined next := by
  rintro next rfl
  rcases authenticate_cases hp with ⟨_, hcall⟩ | ⟨_, hcall⟩ | ⟨rows, r, tail, rfl⟩
  · cases hcall
  · cases hcall
  · have hdefined := defined_kept hkept.2.2
    exact (Prog.wp_goes (authenticate_lookup hp) hdefined
      (lookup_defined (hreadable rows r (by simp)))).1 rfl

/-- The look-up finds the first row that answers, and ties nothing. -/
theorem found {v : View} {challenge response : List Byte} {during : List Exchange}
    {info : VncAuthInfo} {r : Int} (htied : v.tied = none) (hlocked : v.locked = false)
    (hkept : critical.Kept v during)
    (hauth : Prog.Goes (authenticate challenge response) during (.done (info, r))) :
    (critical.track v during).tied = none ∧
      ∃ rows tail, during = ⟨.lock, ()⟩ :: ⟨.selectRoutes, (rows, r)⟩ :: tail ∧
        info = scan challenge response rows := by
  refine ⟨?_, ?_⟩
  · refine Prog.wp_goes (Q := fun v' _ => v'.tied = none) hauth hkept ?_
    apply wp_authenticate critical_careful htied hlocked
    intro v' r _ htied' _
    exact htied'
  rcases authenticate_cases hauth with ⟨_, hcall⟩ | ⟨_, hcall⟩ | ⟨rows, r', tail, rfl⟩
  · cases hcall
  · cases hcall
  have hfound : (info, r) = (scan challenge response rows, r') :=
    Prog.wp_goes (Q := fun _ x => x = (scan challenge response rows, r'))
      (authenticate_lookup hauth) hkept.2.2 (wp_lookup (v := View.next (v.next .lock ()) .selectRoutes (rows, r'))
        critical_careful htied rfl fun _ _ _ => rfl)
  obtain ⟨rfl, rfl⟩ := Prod.mk.inj hfound
  exact ⟨rows, tail, rfl, rfl⟩

end Greeted

/-- For any number of operators and any order of their calls: an operator's answers
    are those of a key register of its own; and once it is through with its greeting
    it is in the section under `global_m`, where nothing goes wrong, or it has found
    the first row that answers its challenge, and goes by that row. -/
theorem first_match {allowed : Service → Move → Prop} (h : Run allowed s) {o : Operator}
    (ho : s.operator i = some o) {pre rest : List Exchange} {arrays : Arrays}
    (hlog : o.log = pre ++ rest)
    (hgreet : Prog.Goes (greetClient o.clnt o.buf o.response) pre (.done (some arrays))) :
    critical.Kept (View.start o.clnt) o.log ∧
    ((∃ p, Prog.Goes (authenticate arrays.challenge arrays.response) rest p ∧
        ((∀ rows r, ⟨.selectRoutes, ((rows, r) : List Row × Int)⟩ ∈ rest →
          ∀ row ∈ rows, row.Readable) → ∀ next, p ≠ .call .undefined next)) ∨
      ∃ rows r during post, rest = during ++ post ∧
        ⟨.selectRoutes, ((rows, r) : List Row × Int)⟩ ∈ during ∧
        Prog.Goes (authenticate arrays.challenge arrays.response) during
          (.done (scan arrays.challenge arrays.response rows, r)) ∧
        Outcome arrays rows (scan arrays.challenge arrays.response rows) post) := by
  refine ⟨(guarded_run h i o ho).kept, ?_⟩
  obtain ⟨v, htied, hlocked, hkept, -, hgoes⟩ := greeted h ho hlog hgreet
  rcases hgoes.bind_cases with ⟨op, next, hp, -⟩ | ⟨during, post, ⟨info, r⟩, rfl, hauth, hpost⟩
  · exact Or.inl ⟨_, hp, no_undefined hp hkept⟩
  · right
    obtain ⟨hkeptDuring, hkeptPost⟩ := Contract.kept_append.mp hkept
    obtain ⟨-, rows, tail, rfl, rfl⟩ := found htied hlocked hkeptDuring hauth
    exact ⟨rows, r, _, post, rfl, by simp, hauth, Outcome.of_goes hpost hkeptPost⟩

def keyP : CString := ⟨[112], by decide⟩

def keyQ : CString := ⟨[113], by decide⟩

/-- "h:1" -/
def hostOne : CString := ⟨[104, 58, 49], by decide⟩

/-- "h:2" -/
def hostTwo : CString := ⟨[104, 58, 50], by decide⟩

def passwdX : CString := ⟨[120], by decide⟩

/-- Keys `p` and `q`. -/
def twoRows : List Row :=
  [⟨some keyP, some hostOne, none⟩, ⟨some keyQ, some hostTwo, some passwdX⟩]

/-- A client that answers a challenge of sevens with `key`. -/
def twoClient (key : List Byte) : List Byte :=
  version ++ [2] ++ vncResponse key (List.replicate 16 7)

/-- An operator's greeting of such a client, all sends and receives in full. -/
def twoGreeting : List Nat := [0, 12, 12, 2, 1] ++ List.replicate 16 7 ++ [16, 16]

def twoCall (i n : Nat) : Move := .call i ⟨n, some n, 7, twoRows, none, []⟩

/-- Two clients are greeted in turns.  The second goes through the section under
    `global_m` first and leaves its key in the register; the first then looks up its
    row, and tries to connect. -/
def twoMoves : List Move :=
  [.accept 0 3 (twoClient [113]) (List.replicate 16 0) (List.replicate 16 0),
   .accept 1 5 (twoClient [112]) (List.replicate 16 0) (List.replicate 16 0)] ++
  twoGreeting.flatMap (fun n => [twoCall 0 n, twoCall 1 n]) ++
  List.replicate 6 (twoCall 1 0) ++ [twoCall 0 0, twoCall 0 0, twoCall 0 0, twoCall 1 0] ++
  List.replicate 7 (twoCall 0 0)

@[irreducible] def twoEnd : Service :=
  Lib.lastState (fun m s => if True then step m s else none) twoMoves start

theorem twoEnd_eq : twoEnd =
    Lib.lastState (fun m s => if True then step m s else none) twoMoves start := by
  unfold twoEnd
  rfl

/-- What the greeting leaves in the first operator's arrays. -/
def twoArrays : Arrays :=
  ⟨[2, 2] ++ version.drop 2 ++ [0, 0, 0, 0], List.replicate 16 7,
    vncResponse [113] (List.replicate 16 7)⟩

theorem first_match_two : ∃ (o : Operator) (rows : List Row) (r : Int)
    (during post : List Exchange), twoEnd.operator 0 = some o ∧
      critical.Kept (View.start o.clnt) o.log ∧ o.log.drop 23 = during ++ post ∧
      ⟨.selectRoutes, ((rows, r) : List Row × Int)⟩ ∈ during ∧
      Outcome twoArrays rows (scan twoArrays.challenge twoArrays.response rows) post := by
  have hrun : Run (fun _ _ => True) twoEnd :=
    Run.of_moves (twoEnd_eq ▸ Lib.runActs_eq_lastState (by decide +kernel))
  have hgreeted : ((twoEnd.operator 0).bind fun o =>
      ((greetClient o.clnt o.buf o.response).follow (o.log.take 23)).bind Prog.result?) =
        some (some twoArrays) := by
    decide +kernel
  have hpast : ((twoEnd.operator 0).bind fun o => (authenticate twoArrays.challenge
      twoArrays.response).follow (o.log.drop 23)).isNone := by
    decide +kernel
  obtain ⟨o, ho, hgreet⟩ := Option.bind_eq_some_iff.mp hgreeted
  rw [ho, Option.bind_some] at hpast
  obtain ⟨hkept, ⟨p, hp, -⟩ | ⟨rows, r, during, post, hrest, hmem, -, hout⟩⟩ :=
    first_match hrun ho (List.take_append_drop 23 o.log).symm (Prog.goes_of_result hgreet)
  · rw [Prog.follow_eq_some.mpr hp] at hpast
    cases hpast
  · exact ⟨o, rows, r, during, post, ho, hkept, hrest, hmem, hout⟩

end Service

end VncProxy.Handshake
