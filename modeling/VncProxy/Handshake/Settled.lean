/-
  VncProxy.Handshake.Settled

  Which runs settle their books.  `Ledger` shows that every way out of `run` does.
  What is left are the places where there is no way out, because an array has been
  left behind or a NULL is read.  It takes one of four kinds of answer to get there,
  and after any of them `run` gets there, whatever else is answered.
-/
import VncProxy.Handshake.Bounds
import VncProxy.Handshake.Ledger
import VncProxy.Handshake.Tables

namespace VncProxy.Handshake

open Lib (Prog Contract)

-- ============================================================================
-- Harmful answers
-- ============================================================================

/-- Up to the first row that answers, the keys can be copied into `auth_key`, and that
    row has an address. -/
structure Legible (challenge response : List Byte) (rows : List Row) : Prop where
  keys : ∀ pre row post, rows = pre ++ row :: post →
    (∀ row' ∈ pre, ¬ row'.Answers challenge response) → row.Fits
  addr : ∀ row, firstMatch challenge response rows = some row → row.destAddr ≠ none

/-- What was sent and what was received last, the password of the row that was found,
    and whether there has been a harmful answer. -/
structure Watch where
  sent : List Byte
  got : List Byte
  passwd : List Byte
  harmed : Prop

namespace Watch

def start : Watch := ⟨[], [], [], False⟩

/-- More bytes than any of the arrays holds; security types for a count that goes past
    `buf`; a challenge that is to be answered with a password too long for `auth_key`;
    rows that cannot be looked through.  `response` is the array before the client's
    answer is received. -/
def Harms (response : List Byte) (w : Watch) (x : Exchange) : Prop :=
  match x with
  | ⟨.recv _ len, (some bytes : Option (List Byte))⟩ =>
    16 < bytes.length ∨ (16 < len ∧ len < 128) ∨ (w.sent = [2] ∧ 8 < w.passwd.length)
  | ⟨.selectRoutes, (x : List Row × Int)⟩ => ¬ Legible w.sent (overwrite response w.got) x.1
  | _ => False

def next (response : List Byte) (w : Watch) (x : Exchange) : Watch :=
  match x with
  | ⟨.send _ buf, _⟩ => { w with sent := buf }
  | ⟨.recv fd len, (some bytes : Option (List Byte))⟩ =>
    { w with
      got := bytes
      harmed := w.harmed ∨ w.Harms response ⟨.recv fd len, some bytes⟩ }
  | ⟨.selectRoutes, (x : List Row × Int)⟩ =>
    { w with
      passwd := (scan w.sent (overwrite response w.got) x.1).destPasswd
      harmed := w.harmed ∨ w.Harms response ⟨.selectRoutes, x⟩ }
  | _ => w

end Watch

/-- None of the answers of the log is harmful where it comes. -/
def Harmless (response : List Byte) (log : List Exchange) : Prop :=
  ¬ (log.foldl (Watch.next response) Watch.start).harmed

/-- There is no way on: `run` has returned, or it has made a call that does not come back. -/
def Ended (p : Code Unit) : Prop := ∀ op next, p = .call op next → IsEmpty op.Ans

/-- `run` meets undefined behaviour after a harmful answer only. -/
def heeded (response : List Byte) : Contract Call Call.Ans (View × Watch) where
  next s op a := (s.1.next op a, s.2.next response ⟨op, a⟩)
  owes s op := op = .undefined → s.2.harmed
  grants s op a := s.1.GrantsLock op a

-- ============================================================================
-- The look-up
-- ============================================================================

section Lookup

variable {challenge response : List Byte} {row : Row} {rows : List Row}

theorem legible_nil : Legible challenge response [] := by
  refine ⟨?_, ?_⟩
  · intro pre row post h
    simp at h
  · intro row h
    cases h

/-- A row that answers is the last that is looked at. -/
theorem legible_cons : Legible challenge response (row :: rows) ↔
    row.Fits ∧ (row.Answers challenge response → row.destAddr ≠ none) ∧
      (¬ row.Answers challenge response → Legible challenge response rows) := by
  have hkeys := @walk_cons Row (fun row => row.Answers challenge response) Row.Fits row rows
  by_cases hanswers : row.Answers challenge response
  · have hfirst : firstMatch challenge response (row :: rows) = some row :=
      List.find?_cons_of_pos (by simpa using hanswers)
    apply Iff.intro
    · intro h
      exact ⟨(hkeys.mp h.keys).1, fun _ => h.addr row hfirst, fun hnot => absurd hanswers hnot⟩
    · rintro ⟨hfits, haddr, -⟩
      refine ⟨hkeys.mpr ⟨hfits, fun hnot => absurd hanswers hnot⟩, ?_⟩
      intro row' hrow'
      obtain rfl := Option.some.inj (hfirst.symm.trans hrow')
      exact haddr hanswers
  · have hfirst : firstMatch challenge response (row :: rows) =
        firstMatch challenge response rows :=
      List.find?_cons_of_neg (by simpa using hanswers)
    apply Iff.intro
    · intro h
      have hall := hkeys.mp h.keys
      exact ⟨hall.1, fun h => absurd h hanswers, fun _ =>
        ⟨hall.2 hanswers, fun row' hrow' => h.addr row' (hfirst.trans hrow')⟩⟩
    · rintro ⟨hfits, -, hrest⟩
      have hrest := hrest hanswers
      exact ⟨hkeys.mpr ⟨hfits, fun _ => hrest.keys⟩,
        fun row' hrow' => hrest.addr row' (hfirst.symm.trans hrow')⟩

end Lookup

section Rules

variable {clnt remote fd len : Nat} {v : View} {w : Watch}
variable {arr buf response challenge answer : List Byte}

@[simp] theorem heeded_owes (s : View × Watch) (op : Call) :
    (heeded response).owes s op ↔ (op = .undefined → s.2.harmed) := Iff.rfl

@[simp] theorem heeded_next (op : Call) (a : op.Ans) :
    (heeded response).next (v, w) op a = (v.next op a, w.next response ⟨op, a⟩) := rfl

@[simp] theorem heeded_grants (op : Call) (a : op.Ans) :
    (heeded response).grants (v, w) op a ↔ v.GrantsLock op a := Iff.rfl

@[simp] theorem start_harmed : ¬ Watch.start.harmed := id

/-- A key that has been loaded is the key of the blocks that follow. -/
theorem wp_respond_heeded {key : List Byte} {Q : View × Watch → List Byte → Prop}
    (hlong : 8 < key.length → w.harmed)
    (hQ : key.length ≤ 8 → ∀ v, Q (v, w) (vncResponse key challenge)) :
    (do
      let authKey ← authKey key
      rfbDesKey authKey .EN0
      desBlocks challenge).wp (heeded response) Q (v, w) := by
  unfold authKey desBlocks
  by_cases hlen : key.length ≤ 8
  · simp [hlen, View.next, View.GrantsLock, Watch.next]
    exact hQ hlen _
  · simp [hlen]
    exact hlong (Nat.lt_of_not_le hlen)

theorem vncAuthCallback_heeded {row : Row} {Q : View × Watch → VncAuthInfo → Prop}
    (hfits : ¬ row.Fits → w.harmed)
    (haddr : row.Answers challenge answer → row.destAddr = none → w.harmed)
    (hQ : row.Fits → (row.Answers challenge answer → row.destAddr ≠ none) →
      ∀ v, Q (v, w) (scan challenge answer [row])) :
    (vncAuthCallback (VncAuthInfo.new challenge answer) row).wp (heeded response) Q (v, w) := by
  cases hkey : row.forwardKey with
  | none =>
    unfold vncAuthCallback
    simp [VncAuthInfo.new, hkey]
    exact hfits (by simp [Row.Fits, hkey])
  | some key =>
    have hanswers : row.Answers challenge answer ↔ answer = vncResponse key.bytes challenge := by
      simp [Row.Answers, hkey]
    have hlong : row.Fits ↔ key.bytes.length ≤ 8 := by simp [Row.Fits, hkey]
    rw [hlong, Nat.not_le] at hfits
    rw [hlong] at hQ
    cases hdest : row.destAddr with
    | some addr =>
      rw [vncAuthCallback_new hkey hdest]
      have hfound := @wp_respond_heeded v w response challenge key.bytes (fun s e => Q s
        (if answer = e then VncAuthInfo.ofRow challenge answer row
          else VncAuthInfo.new challenge answer)) hfits ?_
      · simpa only [Prog.wp_bind, Prog.wp_pure] using hfound
      · intro hlen v
        have hQ := hQ hlen (fun _ => by simp [hdest]) v
        rw [scan_singleton] at hQ
        simpa only [hanswers] using hQ
    | none =>
      -- the row's address is read only if the row answers
      have hfound := @wp_respond_heeded v w response challenge key.bytes (fun s e =>
        (answer = e → s.2.harmed) ∧ (answer ≠ e → Q s (VncAuthInfo.new challenge answer))) hfits ?_
      · unfold vncAuthCallback
        simp only [VncAuthInfo.new, hkey, deref, pure_bind] at hfound ⊢
        simpa [hdest] using hfound
      · intro hlen v
        refine ⟨fun h => haddr (hanswers.mpr h) hdest, ?_⟩
        intro hne
        have hnot : ¬ row.Answers challenge answer := fun h => hne (hanswers.mp h)
        have hQ := hQ hlen (fun h => absurd h hnot) v
        rw [scan_singleton_not hnot] at hQ
        exact hQ

/-- The look-up gets through the rows that are legible, and gets stuck in others. -/
theorem scan_heeded {rows : List Row} {Q : View × Watch → VncAuthInfo → Prop}
    (hillegible : ¬ Legible challenge answer rows → w.harmed)
    (hQ : Legible challenge answer rows → ∀ v, Q (v, w) (scan challenge answer rows)) :
    (rows.foldlM vncAuthCallback (VncAuthInfo.new challenge answer)).wp (heeded response) Q
      (v, w) := by
  induction rows generalizing v with
  | nil => exact hQ legible_nil v
  | cons row rows ih =>
    rw [legible_cons] at hillegible hQ
    rw [List.foldlM_cons, Prog.wp_bind]
    apply vncAuthCallback_heeded
    · exact fun hfits => hillegible fun h => hfits h.1
    · exact fun hanswers haddr => hillegible fun h => h.2.1 hanswers haddr
    intro hfits haddr v
    by_cases hanswers : row.Answers challenge answer
    · have hmatched : (VncAuthInfo.ofRow challenge answer row).matched = true := rfl
      have hfirst : scan challenge answer (row :: rows) = VncAuthInfo.ofRow challenge answer row :=
        scan_eq_ofRow (List.find?_cons_of_pos (by simpa using hanswers))
      rw [scan_singleton_answers hanswers, foldlM_matched hmatched, Prog.wp_pure, ← hfirst]
      exact hQ ⟨hfits, haddr, fun hnot => absurd hanswers hnot⟩ v
    · have hskip : scan challenge answer (row :: rows) = scan challenge answer rows := by
        unfold scan firstMatch
        rw [List.find?_cons_of_neg (by simpa using hanswers)]
      rw [scan_singleton_not hanswers]
      apply ih
      · exact fun hrows => hillegible fun h => hrows (h.2.2 hanswers)
      · intro hrows v
        rw [← hskip]
        exact hQ ⟨hfits, haddr, fun _ => hrows⟩ v

/-- Past the look-up, the rows were legible. -/
theorem authenticate_heeded {Q : View × Watch → VncAuthInfo × Int → Prop}
    (hsent : w.sent = challenge) (hgot : overwrite response w.got = answer) (hw : ¬ w.harmed)
    (hQ : ∀ v w' rows r, ¬ w'.harmed → w'.sent = challenge →
      w'.passwd = (scan challenge answer rows).destPasswd →
      Q (v, w') (scan challenge answer rows, r)) :
    (authenticate challenge answer).wp (heeded response) Q (v, w) := by
  unfold authenticate
  simp only [Prog.wp_bind, wp_lock, wp_selectRoutes, heeded_owes, heeded_next]
  refine ⟨by simp, ?_⟩
  intro _ _
  refine ⟨by simp, ?_⟩
  rintro ⟨rows, r⟩ -
  show Prog.wp _ (List.foldlM _ _ _) _ (_, _)
  apply scan_heeded
  · intro hrows
    refine Or.inr ?_
    show ¬ Legible w.sent (overwrite response w.got) rows
    rw [hsent, hgot]
    exact hrows
  · intro hrows v
    rw [wp_unlock]
    refine ⟨by simp, ?_⟩
    intro _ _
    apply hQ
    · rintro (h | h)
      · exact hw h
      · have hnot : ¬ Legible w.sent (overwrite response w.got) rows := h
        rw [hsent, hgot] at hnot
        exact hnot hrows
    · exact hsent
    · show (scan w.sent (overwrite response w.got) rows).destPasswd = _
      rw [hsent, hgot]

-- ============================================================================
-- The dialogues
-- ============================================================================

theorem wp_send_heeded {Q : View × Watch → Int → Prop}
    (hQ : ∀ v n, Q (v, { w with sent := buf }) n) :
    (send fd buf).wp (heeded response) Q (v, w) := by
  rw [wp_send]
  exact ⟨by simp, fun n _ => hQ _ n⟩

theorem wp_close_heeded {Q : View × Watch → Unit → Prop} (hQ : ∀ v, Q (v, w) ()) :
    (close fd).wp (heeded response) Q (v, w) := by
  rw [wp_close]
  exact ⟨by simp, fun _ _ => hQ _⟩

theorem wp_closeBoth_heeded {Q : View × Watch → Unit → Prop} (hQ : ∀ v, Q (v, w) ()) :
    (closeBoth clnt remote).wp (heeded response) Q (v, w) := by
  unfold closeBoth
  rw [Prog.wp_bind]
  exact wp_close_heeded fun _ => wp_close_heeded hQ

theorem wp_setNonblocking_heeded {nonblocking : Bool} {Q : View × Watch → Int → Prop}
    (hQ : ∀ v n, Q (v, w) n) : (setNonblocking fd nonblocking).wp (heeded response) Q (v, w) := by
  rw [wp_setNonblocking]
  exact ⟨by simp, fun n _ => hQ _ n⟩

/-- The bytes fit into the array, or that was it. -/
theorem wp_recv_heeded {Q : View × Watch → Int × List Byte → Prop} (harr : arr.length = 16)
    (hfail : ∀ v, Q (v, w) (-1, arr))
    (hQ : ∀ v w' bytes, (overwrite arr bytes).length = 16 →
      (w'.harmed ↔ w.harmed ∨ (16 < len ∧ len < 128) ∨ (w.sent = [2] ∧ 8 < w.passwd.length)) →
      w'.sent = w.sent → w'.passwd = w.passwd → w'.got = bytes →
      Q (v, w') (bytes.length, overwrite arr bytes)) :
    (recv fd arr len).wp (heeded response) Q (v, w) := by
  rw [wp_recv]
  refine ⟨by simp, fun _ => hfail _, ?_⟩
  intro bytes _
  refine ⟨?_, ?_⟩
  · intro hfit
    rw [harr] at hfit
    apply hQ
    · rw [length_overwrite (harr ▸ hfit), harr]
    · simp [Watch.next, Watch.Harms, Nat.not_lt.mpr hfit]
    · rfl
    · rfl
    · rfl
  · intro hlong _
    rw [harr, Nat.not_le] at hlong
    exact Or.inr (Or.inl hlong)

/-- A recv of a part of the dialogue whose length is fixed. -/
theorem wp_recv_heeded_le {Q : View × Watch → Int × List Byte → Prop} (harr : arr.length = 16)
    (hw : ¬ w.harmed) (hlen : len ≤ 16) (hshort : w.sent = [2] → w.passwd.length ≤ 8)
    (hfail : ∀ v, Q (v, w) (-1, arr))
    (hQ : ∀ v w' bytes, (overwrite arr bytes).length = 16 → ¬ w'.harmed →
      w'.sent = w.sent → w'.passwd = w.passwd → w'.got = bytes →
      Q (v, w') (bytes.length, overwrite arr bytes)) :
    (recv fd arr len).wp (heeded response) Q (v, w) := by
  apply wp_recv_heeded harr hfail
  intro v w' bytes hbytes hharmed
  apply hQ v w' bytes hbytes
  rw [hharmed]
  rintro (h | h | ⟨htwo, hlong⟩)
  · exact hw h
  · omega
  · exact absurd (hshort htwo) (Nat.not_le.mpr hlong)

theorem wp_randBytes_heeded {n : Nat} {Q : View × Watch → List Byte → Prop}
    (hQ : ∀ v bytes, bytes.length = n → Q (v, w) bytes) :
    (randBytes n).wp (heeded response) Q (v, w) := by
  apply wp_randBytes
  · simp
  · intro b
    rfl
  · exact hQ v

/-- No answer of the client is harmful, apart from one that is too long. -/
theorem greetClient_heeded {Q : View × Watch → Option Arrays → Prop} (hbuf : buf.length = 16)
    (hresponse : response.length = 16) (hw : ¬ w.harmed) (hpasswd : w.passwd = [])
    (hnone : ∀ v w', ¬ w'.harmed → Q (v, w') none)
    (hsome : ∀ v w' arrays, ¬ w'.harmed → arrays.buf.length = 16 → arrays.challenge.length = 16 →
      w'.sent = arrays.challenge → overwrite response w'.got = arrays.response →
      Q (v, w') (some arrays)) :
    (greetClient clnt buf response).wp (heeded response) Q (v, w) := by
  have hclose : ∀ (v : View) (w' : Watch), ¬ w'.harmed → (do
      close clnt
      return none : Code (Option Arrays)).wp (heeded response) Q (v, w') := by
    intro v w' hw'
    rw [Prog.wp_bind]
    exact wp_close_heeded fun _ => hnone _ _ hw'
  unfold greetClient
  rw [Prog.wp_bind]
  apply wp_setNonblocking_heeded
  intro v n
  rw [Prog.wp_bind, wp_verify]
  refine ⟨?_, fun _ => by simp⟩
  intro _
  rw [Prog.wp_bind]
  apply wp_send_heeded
  intro v n
  rw [Prog.wp_ite]
  refine ⟨fun _ => hclose _ _ hw, ?_⟩
  intro _
  rw [Prog.wp_bind]
  apply wp_recv_heeded_le hbuf
  · exact hw
  · omega
  · simp [hpasswd]
  · intro v
    exact hclose _ _ hw
  intro v w₁ bytes hbuf₁ hw₁ _ hpasswd₁ _
  have hempty₁ : w₁.passwd = [] := hpasswd₁.trans hpasswd
  show Prog.wp _ (if _ then _ else _) _ _
  rw [Prog.wp_ite]
  refine ⟨fun _ => hclose _ _ hw₁, ?_⟩
  intro _
  rw [Prog.wp_ite]
  refine ⟨fun _ => hclose _ _ hw₁, ?_⟩
  intro _
  rw [Prog.wp_bind]
  apply wp_send_heeded
  intro v n
  rw [Prog.wp_ite]
  refine ⟨fun _ => hclose _ _ hw₁, ?_⟩
  intro _
  rw [Prog.wp_bind]
  apply wp_recv_heeded_le (by simp [hbuf₁])
  · exact hw₁
  · omega
  · simp [hempty₁]
  · intro v
    exact hclose _ _ hw₁
  intro v w₂ type hbuf₂ hw₂ _ hpasswd₂ _
  have hempty₂ : w₂.passwd = [] := hpasswd₂.trans hempty₁
  show Prog.wp _ (if _ then _ else _) _ _
  rw [Prog.wp_ite]
  refine ⟨fun _ => hclose _ _ hw₂, ?_⟩
  intro _
  rw [Prog.wp_bind]
  apply wp_randBytes_heeded
  intro v challenge hchallenge
  rw [Prog.wp_bind]
  apply wp_send_heeded
  intro v n
  rw [Prog.wp_ite]
  refine ⟨fun _ => hclose _ _ hw₂, ?_⟩
  intro _
  rw [Prog.wp_bind]
  apply wp_recv_heeded_le hresponse
  · exact hw₂
  · omega
  · simp [hempty₂]
  · intro v
    exact hclose _ _ hw₂
  intro v w₃ answer _ hw₃ hsent _ hgot
  show Prog.wp _ (if _ then _ else _) _ _
  rw [Prog.wp_ite]
  refine ⟨fun _ => hclose _ _ hw₃, ?_⟩
  intro _
  exact hsome _ _ _ hw₃ hbuf₂ hchallenge hsent (by rw [hgot])

theorem version_ne : version ≠ [2] := by decide

/-- A count is harmful if the loop over the types goes past `buf`; one that is negative as a
    `char` asks for a length that no stream fills, and the loop is not run. -/
theorem count_harms {b : Byte} : (16 < toSizeT (charToInt b) ∧ toSizeT (charToInt b) < 128) ↔
    16 < (charToInt b).toNat := by
  have hb := b.toNat_lt
  unfold toSizeT
  rw [charToInt_eq]
  split <;> omega

/-- The count of security types is harmful, or the loop over them stays inside `buf`. -/
theorem greetRemote_heeded {Q : View × Watch → Option (Bool × Bool) → Prop}
    (hbuf : buf.length = 16) (hw : ¬ w.harmed) (htwo : w.sent ≠ [2])
    (hnone : ∀ v w', ¬ w'.harmed → Q (v, w') none)
    (hsome : ∀ v w' types, ¬ w'.harmed → w'.passwd = w.passwd → Q (v, w') (some types)) :
    (greetRemote clnt remote buf).wp (heeded response) Q (v, w) := by
  have hclose : ∀ (v : View) (w' : Watch), ¬ w'.harmed → (do
      closeBoth clnt remote
      return none : Code (Option (Bool × Bool))).wp (heeded response) Q (v, w') := by
    intro v w' hw'
    rw [Prog.wp_bind]
    exact wp_closeBoth_heeded fun _ => hnone _ _ hw'
  unfold greetRemote
  rw [Prog.wp_bind]
  apply wp_recv_heeded_le hbuf
  · exact hw
  · omega
  · exact fun h => absurd h htwo
  · intro v
    show Prog.wp _ (if _ then _ else _) _ _
    rw [if_pos (Or.inl recv_failed)]
    exact hclose _ _ hw
  intro v w₁ bytes hbuf₁ hw₁ _ hpasswd₁ _
  show Prog.wp _ (if _ then _ else _) _ _
  rw [Prog.wp_ite]
  refine ⟨fun _ => hclose _ _ hw₁, ?_⟩
  intro _
  rw [Prog.wp_bind]
  apply wp_send_heeded
  intro v n
  rw [Prog.wp_ite]
  refine ⟨fun _ => hclose _ _ hw₁, ?_⟩
  intro _
  rw [Prog.wp_bind]
  apply wp_recv_heeded_le hbuf₁
  · exact hw₁
  · omega
  · intro h
    exact absurd h version_ne
  · intro v
    exact hclose _ _ hw₁
  intro v w₂ count hbuf₂ hw₂ hsent₂ hpasswd₂ _
  show Prog.wp _ (if _ then _ else _) _ _
  rw [Prog.wp_ite]
  refine ⟨fun _ => hclose _ _ hw₂, ?_⟩
  intro _
  rw [Prog.wp_bind, wp_load]
  refine ⟨?_, ?_⟩
  · intro b _
    rw [Prog.wp_bind]
    apply wp_recv_heeded hbuf₂
    · intro v
      exact hclose _ _ hw₂
    intro v w₃ types hbuf₃ hharmed hsent₃ hpasswd₃ _
    have hother : ¬ (w₂.sent = [2] ∧ 8 < w₂.passwd.length) := by
      rw [hsent₂]
      exact fun h => version_ne h.1
    rw [or_iff_right hw₂, or_iff_left hother, count_harms] at hharmed
    show Prog.wp _ (if _ then _ else _) _ _
    rw [Prog.wp_ite]
    refine ⟨fun h => absurd h (natCast_not_neg _), ?_⟩
    intro _
    rw [Prog.wp_bind, wp_scanTypes, hbuf₃, ← Nat.not_lt, ← hharmed, not_not]
    refine ⟨?_, fun h _ => h⟩
    intro hinside
    exact hsome _ _ _ hinside (hpasswd₃.trans (hpasswd₂.trans hpasswd₁))
  · intro hnone
    rw [List.getElem?_eq_none_iff] at hnone
    omega

/-- The challenge of the remote is harmful, or the password that answers it fits. -/
theorem answerRemote_heeded {info : VncAuthInfo} {arrays : Arrays} {noneAuth vncAuth : Bool}
    {Q : View × Watch → Bool → Prop} (hchallenge : arrays.challenge.length = 16)
    (hpasswd : w.passwd = info.destPasswd) (hw : ¬ w.harmed)
    (hQ : ∀ v w' ok, ¬ w'.harmed → Q (v, w') ok) :
    (answerRemote clnt remote info arrays noneAuth vncAuth).wp (heeded response) Q (v, w) := by
  have hclose : ∀ (v : View) (w' : Watch), ¬ w'.harmed → (do
      closeBoth clnt remote
      return false : Code Bool).wp (heeded response) Q (v, w') := by
    intro v w' hw'
    rw [Prog.wp_bind]
    exact wp_closeBoth_heeded fun _ => hQ _ _ _ hw'
  have hlast : ∀ (v : View) (w' : Watch) (bytes : List Byte), ¬ w'.harmed → (do
      if (← send remote bytes) < 0 then
        closeBoth clnt remote
        return false
      return true : Code Bool).wp (heeded response) Q (v, w') := by
    intro v w' bytes hw'
    rw [Prog.wp_bind]
    apply wp_send_heeded
    intro v n
    rw [Prog.wp_ite]
    exact ⟨fun _ => hclose _ _ hw', fun _ => hQ _ _ _ hw'⟩
  unfold answerRemote
  rw [Prog.wp_ite]
  refine ⟨fun _ => hlast _ _ [1] hw, ?_⟩
  intro _
  rw [Prog.wp_ite]
  refine ⟨?_, fun _ => hclose _ _ hw⟩
  intro _
  rw [Prog.wp_bind]
  apply wp_send_heeded
  intro v n
  rw [Prog.wp_ite]
  refine ⟨fun _ => hclose _ _ hw, ?_⟩
  intro _
  rw [Prog.wp_bind]
  apply wp_recv_heeded hchallenge
  · intro v
    exact hclose _ _ hw
  intro v w' challenge _ hharmed _ _ _
  have hlong : w'.harmed ↔ 8 < info.destPasswd.length := by
    rw [hharmed]
    simp [hw, hpasswd]
  show Prog.wp _ (if _ then _ else _) _ _
  rw [Prog.wp_ite]
  refine ⟨fun h => absurd h (natCast_not_neg _), ?_⟩
  intro _
  rw [Prog.wp_bind, wp_lock]
  refine ⟨by simp, ?_⟩
  intro _ _
  have hrespond := @wp_respond_heeded (v.next .lock ()) w' response
    (overwrite arrays.challenge challenge) info.destPasswd
    (fun s bytes => (do
      unlock
      if (← send remote bytes) < 0 then
        closeBoth clnt remote
        return false
      return true : Code Bool).wp (heeded response) Q s) hlong.mpr ?_
  · simp only [Prog.wp_bind] at hrespond ⊢
    exact hrespond
  · intro hfits v
    rw [Prog.wp_bind, wp_unlock]
    refine ⟨by simp, ?_⟩
    intro _ _
    exact hlast _ _ _ fun h => absurd hfits (Nat.not_le.mpr (hlong.mp h))

/-- `run` comes to its end if no answer is harmful, and does not if one is. -/
theorem run_heeded (hbuf : buf.length = 16) (hresponse : response.length = 16) :
    (run clnt buf response).wp (heeded response) (fun s _ => ¬ s.2.harmed)
      (v, Watch.start) := by
  have hverify : ∀ (v : View) (w' : Watch) (key : List Byte) (remote : Nat), ¬ w'.harmed → (do
      verify ((← setNonblocking clnt true) = 0)
      verify ((← setNonblocking remote true) = 0)
      tieFd key clnt remote : Code Unit).wp (heeded response) (fun s _ => ¬ s.2.harmed)
        (v, w') := by
    intro v w' key remote hw'
    rw [Prog.wp_bind]
    apply wp_setNonblocking_heeded
    intro v n
    rw [Prog.wp_bind, wp_verify]
    refine ⟨?_, fun _ => by simp⟩
    intro _
    rw [Prog.wp_bind]
    apply wp_setNonblocking_heeded
    intro v n
    rw [Prog.wp_bind, wp_verify]
    refine ⟨?_, fun _ => by simp⟩
    intro _
    rw [wp_tieFd]
    exact ⟨by simp, fun _ _ => hw'⟩
  rw [run_eq, Prog.wp_bind]
  apply greetClient_heeded hbuf hresponse start_harmed rfl
  · intro v w' hw'
    exact hw'
  intro v w₁ arrays hw₁ hbuf₁ hchallenge hsent hanswer
  show Prog.wp _ (authenticate _ _ >>= _) _ _
  rw [Prog.wp_bind]
  apply authenticate_heeded hsent hanswer hw₁
  intro v w₂ rows r hw₂ hsent₂ hpasswd₂
  show Prog.wp _ (finish _ _ _ _) _ _
  unfold finish
  rw [Prog.wp_ite]
  refine ⟨fun _ => wp_close_heeded fun _ => hw₂, ?_⟩
  intro _
  rw [Prog.wp_ite]
  refine ⟨?_, ?_⟩
  · intro _
    rw [Prog.wp_bind]
    apply wp_send_heeded
    intro v n
    exact wp_close_heeded fun _ => hw₂
  intro _
  rw [Prog.wp_bind, wp_connectTo]
  refine ⟨by simp, ?_⟩
  intro remote? _
  cases remote? with
  | none =>
    show Prog.wp _ (close clnt) _ _
    exact wp_close_heeded fun _ => hw₂
  | some remote =>
    show Prog.wp _ (greetRemote _ _ _ >>= _) _ _
    rw [Prog.wp_bind]
    apply greetRemote_heeded hbuf₁ hw₂
    · intro htwo
      rw [← hsent₂, htwo] at hchallenge
      cases hchallenge
    · intro v w' hw'
      exact hw'
    intro v w₃ types hw₃ hpasswd₃
    show Prog.wp _ (answerRemote _ _ _ _ _ _ >>= _) _ _
    rw [Prog.wp_bind]
    apply answerRemote_heeded hchallenge (hpasswd₃.trans hpasswd₂) hw₃
    intro v w₄ ok hw₄
    cases ok with
    | false => exact hw₄
    | true => exact hverify v w₄ _ remote hw₄

end Rules

-- ============================================================================
-- The books of every run
-- ============================================================================

section Books

variable {clnt : Nat} {buf response : List Byte} {log : List Exchange} {p : Code Unit}

theorem heeded_kept {v : View} {w : Watch} (h : critical.Kept v log) :
    (heeded response).Kept (v, w) log := by
  have hfst : critical.Kept (Prod.fst (v, w)) log := h
  exact Contract.Kept.map Prod.fst (fun _ _ _ => rfl) (fun _ _ _ h => h) hfst

theorem track_heeded {v : View} {w : Watch} : ((heeded response).track (v, w) log).2 =
    log.foldl (Watch.next response) w := by
  induction log generalizing v w with
  | nil => rfl
  | cons x log ih => exact ih

/-- Whatever is answered, as long as `set_nonblocking` succeeds: at its end, `run` has
    tied the client to its remote with both open, or has returned with the client, and the
    remote if there is one, closed once, and in both cases without `global_m`, exactly if
    no answer has been harmful.  That the key register is `run`'s own under the lock is
    what `critical` grants every operator. -/
theorem run_settles (hbuf : buf.length = 16) (hresponse : response.length = 16)
    (hgoes : Prog.Goes (run clnt buf response) log p) (hended : Ended p)
    (hnonblocking : ∀ fd nonblocking (n : Int), ⟨.setNonblocking fd nonblocking, n⟩ ∈ log → n = 0)
    (hkept : critical.Kept (View.start clnt) log) :
    (p = .done () ∧ (Ledger.of log).Settled clnt) ↔ Harmless response log := by
  have haccounted : (accounted clnt).Kept .empty log := by
    apply Contract.kept_of_forall (fun _ _ hx => hx)
    rintro ⟨op, a⟩ hx
    cases op <;> first | exact hnonblocking _ _ a hx | trivial
  have hbooks := Prog.wp_iff_goes.mp run_accounted log p hgoes haccounted
  have hheeded := Prog.wp_iff_goes.mp (run_heeded hbuf hresponse) log p hgoes
    (heeded_kept hkept)
  have hledger : (accounted clnt).track .empty log = Ledger.of log := rfl
  rw [hledger] at hbooks
  rw [track_heeded] at hheeded
  cases p with
  | done u =>
    apply iff_of_true
    · exact ⟨rfl, hbooks.2 () rfl⟩
    · exact hheeded.2 () rfl
  | call op next =>
    apply iff_of_false
    · rintro ⟨hdone, -⟩
      cases hdone
    · intro hharmless
      have hop := hended op next rfl
      have howed := hheeded.1 op next rfl
      rw [heeded_owes, track_heeded] at howed
      have hdefined : op ≠ .undefined := fun h => hharmless (howed h)
      have halive : op ≠ .abort := by
        rintro rfl
        exact hbooks.1 .abort next rfl
      cases op <;> first
        | exact hdefined rfl
        | exact halive rfl
        | exact hop.elim default

end Books

/-- A remote that asks for a password, and a row that has none for it. -/
def unsupportedLog : List Exchange :=
  soleGreeting ++ soleLookup ++
  [⟨.connectTo [104, 58, 49], some 5⟩, ⟨.recv 5 12, some version⟩, ⟨.send 5 version, (12 : Int)⟩,
    ⟨.recv 5 1, some [1]⟩, ⟨.recv 5 1, some [2]⟩, ⟨.close 5, ()⟩, ⟨.close 3, ()⟩]

theorem run_settles_unsupported :
    Ledger.of unsupportedLog = ⟨[5], [5, 3], false, none⟩ ∧
    Harmless (List.replicate 16 0) unsupportedLog := by
  have hgoes : Prog.Goes (run 3 (List.replicate 16 0) (List.replicate 16 0)) unsupportedLog
      (.done ()) := Prog.goes_of_result (by decide +kernel)
  refine ⟨rfl, ?_⟩
  apply (run_settles (by simp) (by simp) hgoes ?_ ?_ ?_).mp
  · exact ⟨rfl, Ledger.Settled.failed 5⟩
  · intro op next h
    cases h
  · intro fd nonblocking n hn
    simp [unsupportedLog, soleGreeting, soleLookup] at hn
    exact hn.2
  · simp [unsupportedLog, soleGreeting, soleLookup, List.replicate, Contract.Kept, critical,
      View.GrantsLock, View.next]
    decide +kernel

/-- The same client, and a row with a key that is too long. -/
def longKeyLog : List Exchange :=
  soleGreeting ++ [⟨.lock, ()⟩, ⟨.selectRoutes, (longKey, SQLITE_OK)⟩]

/-- It is stuck with the client open and `global_m` held. -/
theorem run_settles_longKey :
    Ledger.of longKeyLog = ⟨[], [], true, none⟩ ∧
    ¬ ∀ clnt buf response log p, buf.length = 16 → response.length = 16 →
      Prog.Goes (run clnt buf response) log p → Ended p →
      (∀ fd nonblocking (n : Int), ⟨.setNonblocking fd nonblocking, n⟩ ∈ log → n = 0) →
      critical.Kept (View.start clnt) log →
        p = .done () ∧ (Ledger.of log).Settled clnt := by
  refine ⟨rfl, ?_⟩
  intro h
  obtain ⟨next, hgoes⟩ : ∃ next, Prog.Goes (run 3 (List.replicate 16 0) (List.replicate 16 0))
      longKeyLog (.call .undefined next) := Prog.goes_of_head (by decide +kernel)
  have hended : Ended (.call .undefined next) := by
    rintro op next' ⟨⟩
    exact inferInstanceAs (IsEmpty Empty)
  have hdone := (h 3 _ _ longKeyLog _ (by simp) (by simp) hgoes hended ?_ ?_).1
  · cases hdone
  · intro fd nonblocking n hn
    simp [longKeyLog, soleGreeting] at hn
    exact hn.2
  · simp [longKeyLog, soleGreeting, List.replicate, Contract.Kept, critical, View.GrantsLock]

end VncProxy.Handshake
