/-
  VncProxy.Handshake.Refusal

  What a client that is turned away has been sent.  Up to the challenge that is the
  server's part of an RFB 3.8 handshake; the reply of a failed look-up is the word 1 in
  the order of the host, where the protocol has it in big endian.
-/
import VncProxy.Handshake.Dialogue
import VncProxy.Handshake.Routing

namespace VncProxy.Handshake

open Lib (Prog Contract)

-- ============================================================================
-- What is sent
-- ============================================================================

/-- The bytes of a send to the client that it has accepted. -/
def saidTo (clnt : Nat) (x : Exchange) : List Byte :=
  match x with
  | ⟨.send fd buf, (n : Int)⟩ => if fd = clnt then buf.take n.toNat else []
  | _ => []

/-- The bytes that the client has been sent. -/
def said (clnt : Nat) (log : List Exchange) : List Byte := log.flatMap (saidTo clnt)

/-- `SecurityResult`, failed: a word in big endian. -/
def securityResultFailed : List Byte := [0, 0, 0, 1]

/-- The beginning of a handshake of RFB 3.8 that fails, from the side of the server: its
    version, one security type, a challenge, and the result. -/
def Legal (bytes : List Byte) : Prop :=
  ∃ challenge : List Byte, challenge.length = 16 ∧
    bytes <+: version ++ [1, 2] ++ challenge ++ securityResultFailed

/-- Sockets that are in blocking mode: a send is accepted in full, or fails.  `connect_to`
    does not return the descriptor of the client, which is open. -/
def Blocking (clnt : Nat) (x : Exchange) : Prop :=
  match x with
  | ⟨.send _ buf, (n : Int)⟩ => n < 0 ∨ n = buf.length
  | ⟨.connectTo _, (r : Option Nat)⟩ => r ≠ some clnt
  | _ => True

/-- The client is greeted to the end, its response answers no row of the query, which
    succeeds, and a send on its socket after that does not fail. -/
def Refused (clnt : Nat) (buf response : List Byte) (log : List Exchange) : Prop :=
  ∃ pre rest arrays rows bytes, ∃ n : Int, log = pre ++ rest ∧
    Prog.Goes (greetClient clnt buf response) pre (.done (some arrays)) ∧
    ⟨.selectRoutes, ((rows, SQLITE_OK) : List Row × Int)⟩ ∈ rest ∧
    (∀ row ∈ rows, ¬ row.Answers arrays.challenge arrays.response) ∧
    ⟨.send clnt bytes, n⟩ ∈ rest ∧ 0 ≤ n

-- ============================================================================
-- Contracts
-- ============================================================================

/-- The part of a handshake before the result. -/
def Begun (bytes : List Byte) : Prop :=
  ∃ challenge : List Byte, challenge.length = 16 ∧ bytes <+: version ++ [1, 2] ++ challenge

/-- Wherever something is called, the handshake is before its result. -/
def saying (clnt : Nat) : Contract Call Call.Ans (List Byte) where
  next s op a := s ++ saidTo clnt ⟨op, a⟩
  owes s _ := Begun s
  grants _ op a := Blocking clnt ⟨op, a⟩

/-- Nothing is sent to the client. -/
def silent (clnt : Nat) : Contract Call Call.Ans Unit where
  next _ _ _ := ()
  owes _ op := ∀ buf, op ≠ .send clnt buf
  grants _ op a := Blocking clnt ⟨op, a⟩

section Rules

variable {clnt : Nat} {s : List Byte} {u : Unit} {buf response : List Byte} {log : List Exchange}

theorem track_saying : (saying clnt).track s log = s ++ said clnt log := by
  induction log generalizing s with
  | nil => simp [said]
  | cons x log ih =>
    show (saying clnt).track (s ++ saidTo clnt x) log = _
    rw [ih, List.append_assoc]
    rfl

theorem saying_kept (h : ∀ x ∈ log, Blocking clnt x) : (saying clnt).Kept s log :=
  Contract.kept_of_forall (fun _ _ hx => hx) h

theorem silent_kept (h : ∀ x ∈ log, Blocking clnt x) : (silent clnt).Kept u log :=
  Contract.kept_of_forall (fun _ _ hx => hx) h

theorem said_append (log' : List Exchange) : said clnt (log ++ log') =
    said clnt log ++ said clnt log' := List.flatMap_append

/-- What is not sent to the client is not said. -/
theorem said_silent (h : ∀ x ∈ log, ∀ buf, x.op ≠ .send clnt buf) : said clnt log = [] := by
  unfold said
  rw [List.flatMap_eq_nil_iff]
  intro x hx
  have hop := h x hx
  obtain ⟨op, a⟩ := x
  match op, a with
  | .send fd buf, (n : Int) =>
    have hne : fd ≠ clnt := by
      rintro rfl
      exact hop buf rfl
    exact if_neg hne
  | .setNonblocking _ _, _ | .recv _ _, _ | .close _, _ | .rand, _ | .connectTo _, _
  | .tieFd _ _ _, _ | .lock, _ | .unlock, _ | .selectRoutes, _ | .selectKeys, _ | .cleanup _, _
  | .rfbUseKey _, _ | .rfbDes _, _ | .abort, _ | .undefined, _ => rfl

/-- A program that owes nothing to the client says nothing to it. -/
theorem silent_of_wp {α : Type} {p q : Code α} {Q : Unit → α → Prop}
    (hp : p.wp (silent clnt) Q ()) (hgoes : Prog.Goes p log q)
    (hlog : ∀ x ∈ log, Blocking clnt x) : ∀ x ∈ log, ∀ buf, x.op ≠ .send clnt buf := by
  intro x hx
  obtain ⟨pre, post, hsplit⟩ := List.append_of_mem hx
  exact Prog.owes_of_goes hgoes (silent_kept hlog) hp hsplit

/-- A send in the right place says what is next, or fails. -/
theorem wp_send_saying {α : Type} {f g : Code α} {Q : List Byte → α → Prop}
    (hs : Begun s)
    (hf : f.wp (saying clnt) Q s) (hg : g.wp (saying clnt) Q (s ++ buf)) :
    (do if (← send clnt buf) < 0 then f else g).wp (saying clnt) Q s := by
  rw [Prog.wp_bind, wp_send]
  refine ⟨hs, ?_⟩
  intro n hn
  have hn : n < 0 ∨ n = buf.length := hn
  rw [Prog.wp_ite]
  have hsaid : (saying clnt).next s (.send clnt buf) n = s ++ buf.take n.toNat := by
    show s ++ (if clnt = clnt then buf.take n.toNat else []) = _
    rw [if_pos rfl]
  rw [hsaid]
  refine ⟨?_, ?_⟩
  · intro hneg
    have hzero : n.toNat = 0 := by omega
    rw [hzero, List.take_zero, List.append_nil]
    exact hf
  · intro hpos
    obtain rfl : n = buf.length := by omega
    rw [Int.toNat_natCast, List.take_length]
    exact hg

/-- A recv says nothing. -/
theorem wp_recv_saying {fd len : Nat} {arr : List Byte} {Q : List Byte → Int × List Byte → Prop}
    (hs : Begun s)
    (hfail : Q s (-1, arr)) (hQ : ∀ bytes : List Byte, bytes.length ≤ arr.length →
      Q s (bytes.length, overwrite arr bytes)) :
    (recv fd arr len).wp (saying clnt) Q s := by
  have hnext : ∀ r : Option (List Byte), (saying clnt).next s (.recv fd len) r = s :=
    fun _ => List.append_nil s
  rw [wp_recv]
  refine ⟨hs, ?_, ?_⟩
  · intro _
    rw [hnext]
    exact hfail
  · intro bytes _
    rw [hnext]
    exact ⟨hQ bytes, fun _ => hs⟩

end Rules

-- ============================================================================
-- The parts of the dialogue
-- ============================================================================

section Dialogue

variable {clnt : Nat} {buf response : List Byte} {log : List Exchange}

theorem greetClient_saying (hbuf : buf.length = 16) :
    (greetClient clnt buf response).wp (saying clnt) (fun s r =>
      Begun s ∧ ∀ arrays, r = some arrays → arrays.challenge.length = 16 ∧ arrays.buf.length = 16 ∧
        s = version ++ [1, 2] ++ arrays.challenge) [] := by
  have hany : (List.replicate 16 (0 : Byte)).length = 16 := by simp
  have hclose : ∀ s, Begun s → (do
      close clnt
      return none : Code (Option Arrays)).wp (saying clnt) (fun s r =>
        Begun s ∧ ∀ arrays, r = some arrays → arrays.challenge.length = 16 ∧
          arrays.buf.length = 16 ∧ s = version ++ [1, 2] ++ arrays.challenge) s := by
    intro s hs
    rw [Prog.wp_bind, wp_close]
    refine ⟨hs, ?_⟩
    intro _ _
    have hnext : (saying clnt).next s (.close clnt) () = s := List.append_nil s
    rw [hnext]
    refine ⟨hs, ?_⟩
    rintro arrays ⟨⟩
  have hnil : Begun [] := ⟨_, hany, List.nil_prefix⟩
  have hversion : Begun ([] ++ version) :=
    ⟨_, hany, by rw [List.append_assoc]; exact List.prefix_append _ _⟩
  have htypes : Begun ([] ++ version ++ [1, 2]) := ⟨_, hany, List.prefix_append _ _⟩
  unfold greetClient
  rw [Prog.wp_bind, wp_setNonblocking]
  refine ⟨hnil, ?_⟩
  intro r _
  rw [Prog.wp_bind, wp_verify]
  refine ⟨?_, fun _ => hnil⟩
  intro _
  apply wp_send_saying hnil (hclose _ hnil)
  rw [Prog.wp_bind]
  apply wp_recv_saying hversion
  · exact (Prog.wp_ite _).mpr ⟨fun _ => hclose _ hversion, fun h => absurd recv_failed h⟩
  intro bytes hbytes
  have harr : (overwrite buf bytes).length = 16 := by rw [length_overwrite hbytes, hbuf]
  show Prog.wp _ (if _ then _ else _) _ _
  rw [if_neg (natCast_not_neg _), Prog.wp_ite]
  refine ⟨fun _ => hclose _ hversion, ?_⟩
  intro _
  dsimp only
  rw [take_types (by rw [List.length_set, harr]; decide)]
  apply wp_send_saying hversion (hclose _ hversion)
  rw [Prog.wp_bind]
  apply wp_recv_saying htypes
  · exact (Prog.wp_ite _).mpr ⟨fun _ => hclose _ htypes, fun h => absurd recv_failed h⟩
  intro type htype
  have harr : (overwrite ((((overwrite buf bytes).set 12 0).set 0 1).set 1 2) type).length = 16 := by
    rw [length_overwrite htype]
    simp [harr]
  show Prog.wp _ (if _ then _ else _) _ _
  rw [if_neg (natCast_not_neg _), Prog.wp_bind]
  apply wp_randBytes htypes (fun _ => List.append_nil _)
  intro challenge hchallenge
  have hall : Begun ([] ++ version ++ [1, 2] ++ challenge) :=
    ⟨challenge, hchallenge, List.prefix_rfl⟩
  apply wp_send_saying htypes (hclose _ htypes)
  rw [Prog.wp_bind]
  apply wp_recv_saying hall
  · exact (Prog.wp_ite _).mpr ⟨fun _ => hclose _ hall, fun h => absurd recv_failed h⟩
  intro answer _
  show Prog.wp _ (if _ then _ else _) _ _
  rw [if_neg (natCast_not_neg _), Prog.wp_pure]
  refine ⟨hall, ?_⟩
  rintro arrays ⟨⟩
  exact ⟨hchallenge, harr, rfl⟩

theorem authenticate_silent {challenge response : List Byte} :
    (authenticate challenge response).wp (silent clnt) (fun _ _ => True) () := by
  unfold authenticate
  simp [silent]
  intro _ _ rows r _
  apply Prog.wp_foldlM (I := fun _ _ _ => True) rows _ _ _ trivial
  intro pre row post _ info _ _
  unfold vncAuthCallback authKey desBlocks
  cases row.destPasswd <;> simp

/-- Once a row is found, or the query has failed, the client is sent nothing. -/
theorem finish_silent {arrays : Arrays} {info : VncAuthInfo} {r : Int}
    (h : r = SQLITE_OK → info.matched = true) :
    (finish clnt arrays info r).wp (silent clnt) (fun _ _ => True) () := by
  unfold finish
  rw [Prog.wp_ite]
  refine ⟨?_, ?_⟩
  · intro _
    simp [silent]
  intro hr
  rw [if_neg (not_not.mpr (h (not_not.mp hr))), Prog.wp_bind, wp_connectTo]
  refine ⟨by simp [silent], ?_⟩
  intro remote? hfresh
  cases remote? with
  | none =>
    show Prog.wp _ (close clnt) _ _
    simp [silent]
  | some remote =>
    have hne : remote ≠ clnt := by
      rintro rfl
      exact hfresh rfl
    show Prog.wp _ (greetRemote _ _ _ >>= _) _ _
    rw [Prog.wp_bind]
    apply Prog.wp_mono (Q := fun _ _ => True)
    · unfold greetRemote closeBoth
      simp [silent, hne]
    rintro _ types? -
    cases types? with
    | none => trivial
    | some types =>
      show Prog.wp _ (answerRemote _ _ _ _ _ _ >>= _) _ _
      rw [Prog.wp_bind]
      apply Prog.wp_mono (Q := fun _ _ => True)
      · unfold answerRemote closeBoth authKey desBlocks
        simp [silent, hne]
      rintro _ ok -
      cases ok <;> simp [silent]

end Dialogue

-- ============================================================================
-- The whole dialogue
-- ============================================================================

theorem Begun.legal {bytes : List Byte} (h : Begun bytes) : Legal bytes := by
  obtain ⟨challenge, hlen, hprefix⟩ := h
  exact ⟨challenge, hlen, hprefix.trans (List.prefix_append _ _)⟩

/-- The word 1 in the order of the host is not the result of a handshake. -/
theorem not_legal_hostBytes {challenge : List Byte} (hlen : challenge.length = 16) :
    ¬ Legal (version ++ [1, 2] ++ challenge ++ hostBytes 1) := by
  rintro ⟨challenge', hlen', hprefix⟩
  have heq := hprefix.eq_of_length (by simp [hlen, hlen', hostBytes, securityResultFailed])
  obtain ⟨-, hword⟩ := List.append_inj heq (by simp [hlen, hlen'])
  exact absurd hword (by decide)

section Legal

variable {clnt : Nat} {buf response : List Byte} {log : List Exchange} {p : Code Unit}

/-- A program that is done goes no further. -/
theorem goes_done_append {α : Type} {q q' : Code α} {a : α} {pre rest : List Exchange}
    (hpre : Prog.Goes q pre (.done a)) (h : Prog.Goes q (pre ++ rest) q') :
    rest = [] ∧ q' = .done a := by
  have hrest : Prog.Goes (pure a : Code α) rest q' := by
    apply Prog.Goes.bind_done hpre
    rwa [bind_pure]
  cases hrest with
  | refl => exact ⟨rfl, rfl⟩

/-- A program comes to its end once. -/
theorem goes_done_unique {α : Type} {q : Code α} {a b : α} {pre pre' rest rest' : List Exchange}
    (hpre : Prog.Goes q pre (.done a)) (hpre' : Prog.Goes q pre' (.done b))
    (heq : pre ++ rest = pre' ++ rest') : a = b ∧ rest = rest' := by
  rcases List.append_eq_append_iff.mp heq with ⟨more, rfl, rfl⟩ | ⟨more, rfl, rfl⟩
  · obtain ⟨rfl, hdone⟩ := goes_done_append hpre hpre'
    exact ⟨(Prog.done.inj hdone).symm, rfl⟩
  · obtain ⟨rfl, hdone⟩ := goes_done_append hpre' hpre
    exact ⟨Prog.done.inj hdone, rfl⟩

/-- The reply of a failed look-up. -/
theorem finish_unmatched {arrays : Arrays} {info : VncAuthInfo} {post : List Exchange}
    (hmatched : info.matched = false)
    (h : Prog.Goes (finish clnt arrays info SQLITE_OK) post p) :
    post = [] ∨ ∃ n : Int, ∃ last : List Exchange,
      post = ⟨.send clnt (hostBytes 1), n⟩ :: last ∧ ∀ x ∈ last, ∀ buf, x.op ≠ .send clnt buf := by
  have hreply : finish clnt arrays info SQLITE_OK = (do
      let _ ← send clnt (hostBytes 1)
      close clnt
      return ()) := by
    have htake : (overwrite arrays.buf (hostBytes 1)).take 4 = hostBytes 1 := take_overwrite rfl
    unfold finish
    rw [if_neg (not_not.mpr rfl), hmatched, if_pos Bool.false_ne_true, htake]
  rw [hreply] at h
  change Prog.Goes (.call (.send clnt (hostBytes 1)) fun _ => .call (.close clnt) fun _ =>
    .done ()) post p at h
  cases h with
  | refl => exact Or.inl rfl
  | call h =>
    refine Or.inr ⟨_, _, rfl, ?_⟩
    cases h with
    | refl => simp
    | call h =>
      cases h with
      | refl => simp

/-- The bytes that the client has been sent are those of a handshake unless the reply of a
    failed look-up is among them. -/
theorem legal_iff (hbuf : buf.length = 16) (hgoes : Prog.Goes (run clnt buf response) log p)
    (hkept : critical.Kept (View.start clnt) log) (hblocking : ∀ x ∈ log, Blocking clnt x) :
    Legal (said clnt log) ↔ ¬ Refused clnt buf response log := by
  rw [run_eq] at hgoes
  have hsaying : (greetClient clnt buf response).wp _ _ _ := greetClient_saying hbuf
  rcases hgoes.bind_cases with ⟨op, next, hgreet, -⟩ | ⟨pre, rest, arrays?, rfl, hgreet, hrest⟩
  · -- still in the dialogue with the client
    have hlegal := (Prog.wp_iff_goes.mp hsaying log _ hgreet (saying_kept hblocking)).1 op next rfl
    rw [track_saying] at hlegal
    apply iff_of_true hlegal.legal
    rintro ⟨pre, rest, arrays, rows, bytes, n, rfl, hpre, -, -, hmem, -⟩
    obtain ⟨-, hdone⟩ := goes_done_append hpre hgreet
    cases hdone
  have hblocked : ∀ x ∈ rest, Blocking clnt x := fun x hx => hblocking x (List.mem_append_right _ hx)
  obtain ⟨hbegun, harrays⟩ := (Prog.wp_iff_goes.mp hsaying pre _ hgreet
    (saying_kept fun x hx => hblocking x (List.mem_append_left _ hx))).2 arrays? rfl
  rw [track_saying, List.nil_append] at hbegun harrays
  -- nothing is said to the client after its dialogue but the reply
  have hsilent : (∀ x ∈ rest, ∀ buf, x.op ≠ .send clnt buf) →
      (Legal (said clnt (pre ++ rest)) ↔ ¬ Refused clnt buf response (pre ++ rest)) := by
    intro hnone
    rw [said_append, said_silent hnone, List.append_nil]
    apply iff_of_true hbegun.legal
    rintro ⟨pre', rest', arrays, rows, bytes, n, heq, hpre, -, -, hmem, -⟩
    obtain ⟨-, rfl⟩ := goes_done_unique hgreet hpre heq
    exact hnone _ hmem bytes rfl
  cases arrays? with
  | none =>
    obtain rfl : rest = [] := by
      cases hrest
      rfl
    apply hsilent
    simp
  | some arrays =>
    obtain ⟨hchallenge, -, hall⟩ := harrays arrays rfl
    obtain ⟨hkeptPre, hkeptRest⟩ := Contract.kept_append.mp hkept
    obtain ⟨htied, hlocked⟩ := Prog.wp_goes hgreet hkeptPre (greetClient_critical rfl)
    rcases Prog.Goes.bind_cases hrest with ⟨op, next, hauth, -⟩ |
      ⟨during, post, ⟨info, r⟩, rfl, hauth, hpost⟩
    · exact hsilent (silent_of_wp authenticate_silent hauth hblocked)
    have hduring : ∀ x ∈ during, ∀ buf, x.op ≠ .send clnt buf :=
      silent_of_wp authenticate_silent hauth fun x hx => hblocked x (List.mem_append_left _ hx)
    have hblockedPost : ∀ x ∈ post, Blocking clnt x :=
      fun x hx => hblocked x (List.mem_append_right _ hx)
    obtain ⟨-, rows, tail, hquery, hinfo⟩ :=
      Service.found htied hlocked (Contract.kept_append.mp hkeptRest).1 hauth
    by_cases hmatched : r = SQLITE_OK → info.matched = true
    · apply hsilent
      intro x hx
      rcases List.mem_append.mp hx with hx | hx
      · exact hduring x hx
      · exact silent_of_wp (finish_silent hmatched) hpost hblockedPost x hx
    obtain ⟨rfl, hunmatched⟩ := Classical.not_imp.mp hmatched
    have hnone : ∀ row ∈ rows, ¬ row.Answers arrays.challenge arrays.response := by
      intro row hrow hanswers
      rw [hinfo] at hunmatched
      exact hunmatched (scan_matched_iff.mpr ⟨row, hrow, hanswers⟩)
    rcases finish_unmatched (Bool.not_eq_true _ ▸ hunmatched) hpost with rfl | ⟨n, last, rfl, hlast⟩
    · apply hsilent
      rwa [List.append_nil]
    have hsent : said clnt (pre ++ (during ++ ⟨.send clnt (hostBytes 1), n⟩ :: last)) =
        version ++ [1, 2] ++ arrays.challenge ++ (hostBytes 1).take n.toNat := by
      have hreply : said clnt (⟨.send clnt (hostBytes 1), n⟩ :: last) =
          (hostBytes 1).take n.toNat ++ said clnt last := by
        show (if clnt = clnt then _ else _) ++ said clnt last = _
        rw [if_pos rfl]
      rw [said_append, said_append, said_silent hduring, hall, hreply, said_silent hlast,
        List.append_nil, List.nil_append]
    have hn : n < 0 ∨ n = 4 := hblockedPost _ List.mem_cons_self
    rw [hsent]
    rcases hn with hneg | rfl
    · -- the reply is not accepted
      have hzero : n.toNat = 0 := by omega
      rw [hzero, List.take_zero, List.append_nil, ← hall]
      apply iff_of_true hbegun.legal
      rintro ⟨pre', rest', arrays', rows', bytes, n', heq, hpre, -, -, hmem, hpos⟩
      obtain ⟨-, rfl⟩ := goes_done_unique hgreet hpre heq
      rcases List.mem_append.mp hmem with hmem | hmem
      · exact hduring _ hmem bytes rfl
      · rcases List.mem_cons.mp hmem with hmem | hmem
        · cases hmem
          omega
        · exact hlast _ hmem bytes rfl
    · apply iff_of_false (not_legal_hostBytes hchallenge)
      rw [not_not]
      refine ⟨pre, _, arrays, rows, hostBytes 1, 4, rfl, hgreet, ?_, hnone, ?_, by decide⟩
      · rw [hquery]
        simp
      · simp

/-- A client with a key that no row has. -/
def refusedLog : List Exchange :=
  [⟨.setNonblocking 3 false, (0 : Int)⟩, ⟨.send 3 version, (12 : Int)⟩,
    ⟨.recv 3 12, some version⟩, ⟨.send 3 [1, 2], (2 : Int)⟩, ⟨.recv 3 1, some [2]⟩] ++
  List.replicate 16 ⟨.rand, (7 : Nat)⟩ ++
  [⟨.send 3 (List.replicate 16 7), (16 : Int)⟩,
    ⟨.recv 3 16, some (List.replicate 16 0)⟩, ⟨.lock, ()⟩,
    ⟨.selectRoutes, (([], SQLITE_OK) : List Row × Int)⟩, ⟨.unlock, ()⟩,
    ⟨.send 3 [1, 0, 0, 0], (4 : Int)⟩, ⟨.close 3, ()⟩]

theorem refusedLog_goes : Prog.Goes (run 3 (List.replicate 16 0) (List.replicate 16 0)) refusedLog
    (.done ()) := Prog.goes_of_result (by decide +kernel)

theorem legal_iff_refused : Legal (said 3 refusedLog) ↔
    ¬ Refused 3 (List.replicate 16 0) (List.replicate 16 0) refusedLog := by
  apply legal_iff (by simp) refusedLog_goes
  · simp [refusedLog, List.replicate, Contract.Kept, critical, View.GrantsLock]
  · simp [refusedLog, List.replicate, Blocking, version]

/-- It is sent the word in little endian. -/
theorem refused_little_endian :
    Prog.Goes (run 3 (List.replicate 16 0) (List.replicate 16 0)) refusedLog (.done ()) ∧
      (∀ x ∈ refusedLog, ∀ key fd1 fd2, x.op ≠ .tieFd key fd1 fd2) ∧
      ¬ Legal (said 3 refusedLog) := by
  refine ⟨refusedLog_goes, by simp [refusedLog], ?_⟩
  have hsaid : said 3 refusedLog =
      version ++ [1, 2] ++ List.replicate 16 7 ++ hostBytes 1 := by decide +kernel
  rw [hsaid]
  exact not_legal_hostBytes (by simp)

end Legal

end VncProxy.Handshake
