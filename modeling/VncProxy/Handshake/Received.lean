/-
  VncProxy.Handshake.Received

  One `run` on streams that can end at any byte.  `run` tests a recv for an error only,
  not for the number of bytes, so an array can hold what an earlier message, or nobody,
  has left there.  `Received` says of the streams and the table when that makes no
  difference.
-/
import VncProxy.Lib.Relate
import VncProxy.Handshake.Bounds
import VncProxy.Handshake.Streams

namespace VncProxy.Handshake

open Lib (Prog Contract)

-- ============================================================================
-- What is enough
-- ============================================================================

/-- The security type that `run` chooses, with this password for the remote. -/
def choice (types : List Byte) (destPasswd : Option CString) : Option Byte :=
  if 1 ∈ types then some 1 else if 2 ∈ types ∧ destPasswd ≠ none then some 2 else none

/-- A remote that passes for the version sends a count, and all its types, and its
    challenge if it is to be answered; or it sends too little, and `run` stops there:
    the count is negative, or what stands in the place of the missing types is nothing
    that `run` could choose. -/
def Whole (row : Row) (server : List Byte) : Prop :=
  PassesVersion server → ∃ count types, server = version ++ count :: types ∧
    ((count.toNat ≤ 16 ∧ count.toNat ≤ types.length ∧
        (choice (types.take count.toNat) row.destPasswd = some 2 →
          count.toNat + 16 ≤ types.length ∧ (column row.destPasswd).length ≤ 8)) ∨
      (128 ≤ count.toNat ∧ types.length ≤ 16) ∨
      (types.length < count.toNat ∧ count.toNat ≤ 13 ∧
        choice ((overwrite (count :: version.tail ++ [0]) types).take count.toNat)
          row.destPasswd = none))

/-- A client that passes for the version sends its type and its whole response; the
    keys that are compared with it fit, and the remote of the row found is as above. -/
def Received (rows : List Row) (client server challenge : List Byte) : Prop :=
  client.take 12 <+: version → 29 ≤ client.length ∧
    (∀ pre row post, rows = pre ++ row :: post →
      (∀ row' ∈ pre, ¬ row'.Answers challenge ((client.drop 13).take 16)) → row.Fits) ∧
    ∀ row, firstMatch challenge ((client.drop 13).take 16) rows = some row → Whole row server

-- ============================================================================
-- The client
-- ============================================================================

section Client

variable {clnt : Nat} {rows : List Row} {buf response client server challenge : List Byte}

theorem greetClient_piped {Q : Streams → Option Arrays → Prop} (hbuf : buf.length = 16)
    (hresponse : response.length = 16) (hchallenge : challenge.length = 16)
    (hnone : ∀ s, Q s none) :
    (greetClient clnt buf response).wp (piped clnt rows) Q (Streams.start client server challenge) ↔
      (cString ((overwrite buf (client.take 12)).set 12 0) = version → 13 ≤ client.length ∧
        Q ⟨client.drop 29, server, [], none, decide (client.length < 29)⟩
          (some ⟨overwrite ((((overwrite buf (client.take 12)).set 12 0).set 0 1).set 1 2)
            ((client.drop 12).take 1), challenge, overwrite response ((client.drop 13).take 16)⟩)) := by
  have hrand : ∀ (c : List Byte) (short : Bool) (Q : Streams → List Byte → Prop),
      (randBytes 16).wp (piped clnt rows) Q ⟨c, server, challenge, none, short⟩ ↔
        short = false ∧ Q ⟨c, server, [], none, short⟩ challenge := by
    intro c short Q
    rw [← hchallenge]
    exact wp_randBytes_piped (s := ⟨c, server, challenge, none, short⟩) (by omega)
  have harr : (overwrite buf (client.take 12)).length = 16 := by
    rw [length_overwrite, hbuf]
    rw [hbuf, List.length_take]
    omega
  unfold greetClient
  simp only [Prog.wp_bind, wp_setNonblocking_piped, wp_verify, wp_send_piped, Prog.wp_ite,
    wp_close_piped, Prog.wp_pure, wp_recv_piped, hnone, Streams.start, true_and, piped_owes,
    if_true, Streams.recvd_client, hrand]
  simp [hbuf, hresponse, harr]
  have hshort : 13 ≤ client.length → (decide (client.length < 12) ||
      decide (client.length - 12 = 0) || decide (client.length - 13 < 16)) =
        decide (client.length < 29) := by
    intro hlong
    rw [Bool.eq_iff_iff]
    simp
    omega
  apply Iff.intro
  · intro h hcmp
    obtain ⟨hlong, hQ⟩ := ((h 0 (by omega) hcmp).2 0 (by omega)).2.2 0 (by omega)
    have hlong : 13 ≤ client.length := by omega
    rw [hshort hlong] at hQ
    exact ⟨hlong, hQ⟩
  · intro h _ _ hcmp
    obtain ⟨hlong, hQ⟩ := h hcmp
    have hsent : 12 ≤ client.length ∧ ¬ client.length - 12 = 0 := by omega
    rw [hshort hlong]
    exact ⟨hsent.1, fun _ _ => ⟨hsent.1, hsent, fun _ _ => ⟨hsent, hQ⟩⟩⟩

/-- The calls of the section under `global_m`. -/
def Call.Lookup : Call → Prop
  | .lock | .unlock | .selectRoutes | .rfbUseKey _ | .rfbDes _ | .undefined => True
  | _ => False

theorem authenticate_only : (authenticate challenge response).Only Call.Lookup := by
  unfold Prog.Only authenticate
  simp [Call.Lookup]
  intro rows
  apply Prog.wp_mono (Q := fun _ _ => True)
  · apply Prog.wp_foldlM (I := fun _ _ _ => True) rows _ () _ trivial
    intro pre row post _ info _ _
    unfold vncAuthCallback authKey desBlocks
    cases row.destPasswd <;> simp
  · simp

/-- The streams do not matter to the look-up. -/
theorem wp_authenticate_piped (hrows : Storable rows) {s : Streams} (hshort : s.short = false)
    {Q : Streams → VncAuthInfo × Int → Prop} {R : VncAuthInfo × Int → Prop}
    (hQ : ∀ register x, Q { s with register := register } x ↔ R x) :
    (authenticate challenge response).wp (piped clnt rows) Q s ↔
      ∀ part r, Delivers rows (part, r) →
        (∀ pre row post, part = pre ++ row :: post →
          (∀ row' ∈ pre, ¬ row'.Answers challenge response) → row.Fits) ∧
        R (scan challenge response part, r) := by
  have hsim : (authenticate challenge response).wp (piped clnt rows) Q s ↔
      (authenticate challenge response).wp (serving rows) (fun _ => R)
        { View.start clnt with register := s.register } := by
    apply Prog.wp_sim authenticate_only (I := fun s' v => s' = { s with register := v.register })
    · rintro s' v op rfl -
      simp [hshort]
    · rintro s' v op a rfl hop
      cases op with
      | lock | unlock | rfbUseKey => simp [piped, serving, View.Grants]
      | selectRoutes => simp [piped]
      | rfbDes inblock => simp [piped, serving, View.Grants]
      | undefined => exact a.elim
      | _ => exact hop.elim
    · rintro s' v op a rfl hop
      cases op with
      | lock | unlock | rfbUseKey | selectRoutes | rfbDes => rfl
      | undefined => exact a.elim
      | _ => exact hop.elim
    · rintro s' v x rfl
      exact hQ v.register x
    · rfl
  rw [hsim, wp_authenticate_serving]
  apply forall_congr'
  intro part
  apply forall_congr'
  intro r
  apply imp_congr_right
  intro hdelivers
  rw [wp_scan (R := fun info => R (info, r))]
  intro row hrow
  exact hrows row (hdelivers.1.subset hrow)

end Client

-- ============================================================================
-- The remote
-- ============================================================================

section Remote

variable {clnt remote : Nat} {rows : List Row} {arrays : Arrays} {info : VncAuthInfo}
variable {types : Bool × Bool} {s : Streams}

/-- `run` from the choice of a security type on. -/
def answered (clnt remote : Nat) (arrays : Arrays) (info : VncAuthInfo) (types : Bool × Bool) :
    Code Unit := do
  if ¬ (← answerRemote clnt remote info arrays types.1 types.2) then
    return ()
  verify ((← setNonblocking clnt true) = 0)
  verify ((← setNonblocking remote true) = 0)
  tieFd info.forwardKey clnt remote

theorem connected_eq : connected clnt remote arrays info = (do
    let some types ← greetRemote clnt remote arrays.buf | return ()
    answered clnt remote arrays info types) := by
  unfold connected
  congr 1
  funext types?
  cases types? <;> rfl

theorem answered_piped (harr : arrays.challenge.length = 16) (hne : remote ≠ clnt) :
    (answered clnt remote arrays info types).wp (piped clnt rows) (fun _ _ => True) s ↔
      (types.1 = true → s.short = false) ∧
      (types.1 = false → types.2 = true → info.hasDestPasswd = true →
        s.short = false ∧ 16 ≤ s.server.length ∧ info.destPasswd.length ≤ 8) := by
  have htie : ∀ s : Streams, (do
      verify ((← setNonblocking clnt true) = 0)
      verify ((← setNonblocking remote true) = 0)
      tieFd info.forwardKey clnt remote : Code Unit).wp (piped clnt rows) (fun _ _ => True) s ↔
        s.short = false := by
    intro s
    simp only [Prog.wp_bind, wp_setNonblocking_piped, wp_verify, wp_tieFd_piped, piped_owes]
    apply Iff.intro
    · exact fun h => h.1
    · intro hs
      simp [hs]
  have hrest : ∀ (s : Streams) (ok : Bool), (if ¬ ok then return () else do
      verify ((← setNonblocking clnt true) = 0)
      verify ((← setNonblocking remote true) = 0)
      tieFd info.forwardKey clnt remote : Code Unit).wp (piped clnt rows) (fun _ _ => True) s ↔
        (ok = true → s.short = false) := by
    intro s ok
    cases ok with
    | false => simp
    | true => simpa using htie s
  have hrespond : ∀ (s : Streams) (challenge : List Byte), (do
      let authKey ← authKey info.destPasswd
      rfbDesKey authKey .EN0
      let response ← desBlocks challenge
      unlock
      if (← send remote response) < 0 then
        closeBoth clnt remote
        return false
      return true : Code Bool).wp (piped clnt rows) (fun s ok => ok = true → s.short = false) s ↔
        info.destPasswd.length ≤ 8 ∧ s.short = false := by
    intro s challenge
    have hkey := @wp_respond_piped clnt rows s info.destPasswd challenge (fun s response => (do
        unlock
        if (← send remote response) < 0 then
          closeBoth clnt remote
          return false
        return true : Code Bool).wp (piped clnt rows) (fun s ok => ok = true → s.short = false) s)
    simp only [Prog.wp_bind] at hkey ⊢
    rw [hkey]
    simp only [wp_unlock_piped, wp_send_piped, Prog.wp_ite, Prog.wp_bind, wp_closeBoth_piped,
      Prog.wp_pure]
    apply and_congr_right
    intro _
    apply Iff.intro
    · exact fun h => h.1
    · intro hs
      simp [hs]
  unfold answered
  rw [Prog.wp_bind, Prog.wp_congr hrest]
  obtain ⟨noneAuth, vncAuth⟩ := types
  unfold answerRemote
  cases noneAuth with
  | true =>
    simp only [if_true, Prog.wp_bind, wp_send_piped, Prog.wp_ite, wp_closeBoth_piped, Prog.wp_pure]
    simp
    intro hs _ _
    exact hs
  | false =>
    by_cases hvnc : (vncAuth && info.hasDestPasswd) = true
    · obtain ⟨rfl, hpasswd⟩ := Bool.and_eq_true_iff.mp hvnc
      simp only [Bool.false_eq_true, if_false, hpasswd, Bool.and_self, if_true, Prog.wp_bind,
        wp_send_piped, Prog.wp_ite, wp_closeBoth_piped, Prog.wp_pure, wp_recv_piped, wp_lock_piped]
      simp only [Bool.false_eq_true, Prog.wp_bind, wp_send_piped, Prog.wp_ite, wp_closeBoth_piped,
        Prog.wp_pure] at hrespond
      simp only [hrespond]
      obtain ⟨client, server, challenge, register, short⟩ := s
      simp [hne, harr, Streams.recvd_server hne]
      intro hs
      apply Iff.intro
      · intro h
        obtain ⟨-, -, hlen, -, hserver⟩ := h 0 (by omega)
        exact ⟨hserver, hlen⟩
      · rintro ⟨hserver, hlen⟩ _ _
        exact ⟨hs, ⟨hs, hserver⟩, hlen, hs, hserver⟩
    · have hnot : ¬ (vncAuth = true ∧ info.hasDestPasswd = true) := by simpa using hvnc
      simp only [Bool.false_eq_true, if_false, hvnc, Prog.wp_bind, wp_closeBoth_piped, Prog.wp_pure]
      simp
      intro h₁ h₂
      exact absurd ⟨h₁, h₂⟩ hnot

theorem readTypes_piped {buf client server challenge : List Byte}
    {register : Option D3des.Register} {Q : Streams → Option (List Byte × Int × Int) → Prop}
    (hbuf : Greeted buf) (hne : remote ≠ clnt) (hnone : ∀ s, Q s none) :
    (readTypes clnt remote buf).wp (piped clnt rows) Q ⟨client, server, challenge, register, false⟩ ↔
      (PassesVersion server → ∃ count types, server = version ++ count :: types ∧
        (types.take (toSizeT (charToInt count))).length ≤ 16 ∧
        Q ⟨client, types.drop (toSizeT (charToInt count)), challenge, register,
            decide (types.length < toSizeT (charToInt count))⟩
          (some (overwrite (count :: (overwrite buf version).tail)
              (types.take (toSizeT (charToInt count))), charToInt count,
            ((types.take (toSizeT (charToInt count))).length : Int)))) := by
  have htake : (server.take 12).length ≤ 16 := by
    have := List.length_take_le 12 server
    omega
  have harr : (overwrite buf (server.take 12)).length = 16 := by
    rw [length_overwrite] <;> rw [hbuf.length]
    exact htake
  unfold readTypes
  simp only [Prog.wp_bind, Prog.wp_ite, Prog.wp_pure, wp_recv_piped, wp_closeBoth_piped,
    wp_send_piped, wp_load, hnone, hne, if_false, Streams.recvd_server hne]
  simp only [Int.reduceNeg, Int.reduceLT, true_or, not_true, false_imp_iff, imp_true_iff, true_and,
    and_true, natCast_not_neg, false_or, not_not, not_false_eq_true, true_imp_iff, piped_owes,
    reduceCtorEq, overwrite_version hbuf, ne_eq, harr, htake, hbuf.length, Bool.false_or]
  apply imp_congr_right
  intro hpass
  cases hdrop : server.drop 12 with
  | nil =>
    apply iff_of_false
    · rintro ⟨-, h⟩
      obtain ⟨first, rest, harr₁⟩ := List.exists_cons_of_length_eq_add_one harr
      have hfirst : (overwrite (overwrite buf (server.take 12)) (List.take 1 []))[0]? = some first := by
        show (overwrite buf (server.take 12))[0]? = _
        rw [harr₁]
        rfl
      have hcount := ((h 0 (by omega)).2.2.1 first hfirst).1
      simp at hcount
    · rintro ⟨count, types, rfl, -⟩
      cases hdrop
  | cons count types =>
    obtain rfl := hpass.split hdrop
    have hfirst : (version ++ count :: types).take 12 = version := rfl
    have hlong : ¬ (version ++ count :: types).length < 12 := by simp [version]
    rw [hfirst] at harr
    have htail : (count :: (overwrite buf version).tail).length = 16 := by
      rw [List.length_cons, List.length_tail, harr]
    simp only [List.take_succ_cons, List.take_zero, List.drop_succ_cons, List.drop_zero,
      overwrite_count, htail, List.getElem?_cons_zero, hfirst, hlong]
    have hone : ¬ (count :: types).length < 1 := by simp
    apply Iff.intro
    · rintro ⟨-, h⟩
      obtain ⟨-, hfit, hQ⟩ := (h 0 (by omega)).2.2.1 count rfl
      refine ⟨count, types, rfl, hfit, ?_⟩
      simpa only [hone, decide_false, Bool.false_or] using hQ
    · rintro ⟨count', types', heq, hfit, hQ⟩
      obtain ⟨rfl, rfl⟩ := List.cons.inj (List.append_cancel_left heq)
      refine ⟨rfl, ?_⟩
      intro _ _
      refine ⟨rfl, Nat.le_add_left _ _, ?_, by simp⟩
      rintro b ⟨⟩
      refine ⟨by simp, hfit, ?_⟩
      simpa only [hone, decide_false, Bool.false_or] using hQ

/-- What `run` needs of the rest of the stream once it has looked at the types, and
    whether they are all there. -/
def Answerable (info : VncAuthInfo) (rest : List Byte) (short : Bool) (types : List Byte) : Prop :=
  (1 ∈ types → short = false) ∧
    (1 ∉ types → 2 ∈ types → info.hasDestPasswd = true →
      short = false ∧ 16 ≤ rest.length ∧ info.destPasswd.length ≤ 8)

/-- What `run` needs of the stream of the remote, with `buf` as the client has left it. -/
def RemoteOk (info : VncAuthInfo) (buf server : List Byte) : Prop :=
  PassesVersion server → ∃ count types, server = version ++ count :: types ∧
    (types.take (toSizeT (charToInt count))).length ≤ 16 ∧ (charToInt count).toNat ≤ 16 ∧
    Answerable info (types.drop (toSizeT (charToInt count)))
      (decide (types.length < toSizeT (charToInt count)))
      ((overwrite (count :: (overwrite buf version).tail)
        (types.take (toSizeT (charToInt count)))).take (charToInt count).toNat)

theorem connected_piped {client server challenge : List Byte} {register : Option D3des.Register}
    (hbuf : Greeted arrays.buf) (harr : arrays.challenge.length = 16) (hne : remote ≠ clnt) :
    (connected clnt remote arrays info).wp (piped clnt rows) (fun _ _ => True)
        ⟨client, server, challenge, register, false⟩ ↔ RemoteOk info arrays.buf server := by
  rw [connected_eq, greetRemote_eq, bind_assoc, Prog.wp_bind, readTypes_piped hbuf hne]
  · apply imp_congr_right
    intro _
    apply exists_congr
    intro count
    apply exists_congr
    intro types
    apply and_congr_right
    intro _
    apply and_congr_right
    intro hfit
    show Prog.wp _ ((scanTypes _ _ >>= _) >>= _) _ _ ↔ _
    rw [bind_assoc, Prog.wp_bind, wp_scanTypes]
    have hlen : (overwrite (count :: (overwrite arrays.buf version).tail)
        (types.take (toSizeT (charToInt count)))).length = 16 := by
      have hbuf' : (overwrite arrays.buf version).length = 16 := by
        rw [length_overwrite] <;> rw [hbuf.length]
        decide
      have htail : (count :: (overwrite arrays.buf version).tail).length = 16 := by
        rw [List.length_cons, List.length_tail, hbuf']
      rw [length_overwrite (by rw [htail]; exact hfit), htail]
    rw [hlen]
    apply Iff.intro
    · rintro ⟨h, hin⟩
      have hcount : (charToInt count).toNat ≤ 16 := by
        by_contra hcount
        exact (hin hcount).1 rfl
      refine ⟨hcount, ?_⟩
      have hanswered := answered_piped harr hne |>.mp (h hcount)
      simpa [Answerable] using hanswered
    · rintro ⟨hcount, h⟩
      refine ⟨?_, fun hin => absurd hcount hin⟩
      intro _
      apply (answered_piped harr hne).mpr
      simpa [Answerable] using h
  · intro s
    trivial

section Row

variable {row : Row} {challenge response server types rest L : List Byte} {count : Byte}
variable {short : Bool}

theorem answerable_iff : Answerable (VncAuthInfo.ofRow challenge response row) rest short L ↔
    (choice L row.destPasswd ≠ none → short = false) ∧
      (choice L row.destPasswd = some 2 →
        16 ≤ rest.length ∧ (column row.destPasswd).length ≤ 8) := by
  unfold Answerable choice VncAuthInfo.ofRow
  by_cases hone : 1 ∈ L
  · simp [hone]
  · by_cases htwo : 2 ∈ L
    · cases hpasswd : row.destPasswd with
      | none => simp [hone]
      | some passwd =>
        simp [hone, htwo]
    · simp [hone, htwo]

/-- What lies behind the known part of an array is not looked at before its end. -/
theorem take_overwrite_append {known junk : List Byte} {n : Nat} (hn : n ≤ known.length)
    (htypes : types.length ≤ known.length) :
    (overwrite (known ++ junk) types).take n = (overwrite known types).take n := by
  unfold overwrite
  rw [List.drop_append_of_le_length htypes, ← List.append_assoc]
  apply List.take_append_of_le_length
  rw [List.length_append, List.length_drop]
  omega

/-- The known part are a count, the rest of the version and its NUL. -/
theorem take_overwrite_known {junk : List Byte} {n : Nat} (hn : n ≤ 13) (htypes : types.length ≤ 13) :
    (overwrite (count :: version.tail ++ 0 :: junk) types).take n =
      (overwrite (count :: version.tail ++ [0]) types).take n := by
  have happend : (overwrite ((count :: version.tail ++ [0]) ++ junk) types).take n =
      (overwrite (count :: version.tail ++ [0]) types).take n :=
    take_overwrite_append hn htypes
  rwa [List.append_assoc] at happend

/-- What `run` needs of a count and of what follows it, with `junk` at the end of `buf`. -/
def Chosen (row : Row) (count : Byte) (types junk : List Byte) : Prop :=
  (types.take (toSizeT (charToInt count))).length ≤ 16 ∧ (charToInt count).toNat ≤ 16 ∧
    (choice ((overwrite (count :: version.tail ++ 0 :: junk)
        (types.take (toSizeT (charToInt count)))).take (charToInt count).toNat) row.destPasswd ≠ none →
      toSizeT (charToInt count) ≤ types.length) ∧
    (choice ((overwrite (count :: version.tail ++ 0 :: junk)
        (types.take (toSizeT (charToInt count)))).take (charToInt count).toNat) row.destPasswd = some 2 →
      16 ≤ (types.drop (toSizeT (charToInt count))).length ∧ (column row.destPasswd).length ≤ 8)

variable {junk : List Byte}

theorem charToInt_of_lt {c : Byte} (h : c.toNat < 128) :
    (charToInt c).toNat = c.toNat ∧ toSizeT (charToInt c) = c.toNat := by
  rw [charToInt_eq, if_pos h]
  unfold toSizeT
  omega

theorem charToInt_of_ge (h : 128 ≤ count.toNat) :
    (charToInt count).toNat = 0 ∧ 16 < toSizeT (charToInt count) := by
  have hlt := count.toNat_lt
  rw [charToInt_eq, if_neg (by omega)]
  unfold toSizeT
  omega

theorem chosen_negative (h : 128 ≤ count.toNat) :
    Chosen row count types junk ↔ types.length ≤ 16 := by
  obtain ⟨hint, hsize⟩ := charToInt_of_ge h
  unfold Chosen
  rw [hint, List.take_zero, List.length_take]
  have hnone : choice [] row.destPasswd = none := by simp [choice]
  simp only [hnone]
  apply Iff.intro
  · rintro ⟨hfit, -⟩
    omega
  · intro hfit
    exact ⟨by omega, by omega, fun hsome => absurd rfl hsome, fun htwo => by cases htwo⟩

theorem chosen_complete (h : count.toNat < 128) (hall : count.toNat ≤ types.length) :
    Chosen row count types junk ↔ count.toNat ≤ 16 ∧
      (choice (types.take count.toNat) row.destPasswd = some 2 →
        count.toNat + 16 ≤ types.length ∧ (column row.destPasswd).length ≤ 8) := by
  obtain ⟨hint, hsize⟩ := charToInt_of_lt h
  have hlen : (types.take count.toNat).length = count.toNat := by
    rw [List.length_take]
    omega
  have hrest : 16 ≤ (types.drop count.toNat).length ↔ count.toNat + 16 ≤ types.length := by
    rw [List.length_drop]
    omega
  unfold Chosen
  rw [hint, hsize, take_overwrite hlen, hlen, hrest]
  apply Iff.intro
  · rintro ⟨hfit, -, -, hanswer⟩
    exact ⟨hfit, hanswer⟩
  · rintro ⟨hfit, hanswer⟩
    exact ⟨hfit, hfit, fun _ => hall, hanswer⟩

/-- Behind the thirteen bytes that are known, what is looked at can be anything. -/
theorem one_mem_junk {n : Nat} (hlow : 13 < n) (hhigh : n ≤ 16) (hcut : types.length < n) :
    1 ∈ (overwrite (count :: version.tail ++ 0 :: [1, 1, 1]) types).take n := by
  have hlast : (overwrite (count :: version.tail ++ 0 :: [1, 1, 1]) types)[n - 1]? = some 1 := by
    have hplace : types.length + (n - 1 - types.length) = n - 1 := by omega
    unfold overwrite
    rw [List.getElem?_append_right (by omega), List.getElem?_drop, hplace]
    obtain rfl | rfl | rfl : n = 14 ∨ n = 15 ∨ n = 16 := by omega
    · rfl
    · rfl
    · rfl
  apply List.mem_of_getElem? (i := n - 1)
  rw [List.getElem?_take_of_lt (by omega), hlast]

theorem chosen_cut (h : count.toNat < 128) (hcut : types.length < count.toNat) :
    (∀ junk : List Byte, junk.length = 3 → Chosen row count types junk) ↔
      count.toNat ≤ 13 ∧
        choice ((overwrite (count :: version.tail ++ [0]) types).take count.toNat)
          row.destPasswd = none := by
  obtain ⟨hint, hsize⟩ := charToInt_of_lt h
  have htake : types.take count.toNat = types := List.take_of_length_le (by omega)
  have hknown : ∀ junk : List Byte, count.toNat ≤ 13 →
      (overwrite (count :: version.tail ++ 0 :: junk) types).take count.toNat =
        (overwrite (count :: version.tail ++ [0]) types).take count.toNat := by
    intro junk hthirteen
    exact take_overwrite_known hthirteen (by omega)
  unfold Chosen
  simp only [hint, hsize, htake]
  apply Iff.intro
  · intro hall
    obtain ⟨-, hcount, hnone, -⟩ := hall [1, 1, 1] rfl
    have hnone : choice ((overwrite (count :: version.tail ++ 0 :: [1, 1, 1]) types).take
        count.toNat) row.destPasswd = none := by
      by_contra hsome
      exact absurd (hnone hsome) (by omega)
    have hthirteen : count.toNat ≤ 13 := by
      by_contra hmore
      rw [choice, if_pos (one_mem_junk (by omega) hcount hcut)] at hnone
      cases hnone
    rw [hknown _ hthirteen] at hnone
    exact ⟨hthirteen, hnone⟩
  · rintro ⟨hthirteen, hnone⟩ junk -
    rw [hknown _ hthirteen, hnone]
    exact ⟨by omega, by omega, fun hsome => absurd rfl hsome, fun htwo => by cases htwo⟩

theorem whole_iff (challenge response : List Byte) (type : Byte) : (∀ junk : List Byte, junk.length = 3 →
      RemoteOk (VncAuthInfo.ofRow challenge response row)
        (type :: 2 :: version.drop 2 ++ 0 :: junk) server) ↔ Whole row server := by
  have hchosen : ∀ junk : List Byte, RemoteOk (VncAuthInfo.ofRow challenge response row)
        (type :: 2 :: version.drop 2 ++ 0 :: junk) server ↔ (PassesVersion server →
      ∃ count types, server = version ++ count :: types ∧ Chosen row count types junk) := by
    intro junk
    apply imp_congr_right
    intro _
    apply exists_congr
    intro count
    apply exists_congr
    intro types
    have htail : (overwrite (type :: 2 :: version.drop 2 ++ 0 :: junk) version).tail =
        version.tail ++ 0 :: junk := rfl
    rw [answerable_iff, htail]
    unfold Chosen
    simp only [decide_eq_false_iff_not, Nat.not_lt, List.cons_append]
  have hcases : ∀ count types, (∀ junk : List Byte, junk.length = 3 → Chosen row count types junk) ↔
      ((count.toNat ≤ 16 ∧ count.toNat ≤ types.length ∧
          (choice (types.take count.toNat) row.destPasswd = some 2 →
            count.toNat + 16 ≤ types.length ∧ (column row.destPasswd).length ≤ 8)) ∨
        (128 ≤ count.toNat ∧ types.length ≤ 16) ∨
        (types.length < count.toNat ∧ count.toNat ≤ 13 ∧
          choice ((overwrite (count :: version.tail ++ [0]) types).take count.toNat)
            row.destPasswd = none)) := by
    intro count types
    by_cases hneg : 128 ≤ count.toNat
    · simp only [chosen_negative hneg]
      apply Iff.intro
      · intro h
        exact Or.inr (Or.inl ⟨hneg, h [0, 0, 0] rfl⟩)
      · rintro (⟨hcount, -⟩ | ⟨-, h⟩ | ⟨-, hcount, -⟩) _ _
        · omega
        · exact h
        · omega
    · have hpos : count.toNat < 128 := by omega
      by_cases hall : count.toNat ≤ types.length
      · simp only [chosen_complete hpos hall]
        apply Iff.intro
        · intro h
          obtain ⟨hcount, hanswer⟩ := h [0, 0, 0] rfl
          exact Or.inl ⟨hcount, hall, hanswer⟩
        · rintro (⟨hcount, -, hanswer⟩ | ⟨h, -⟩ | ⟨h, -⟩) _ _
          · exact ⟨hcount, hanswer⟩
          · omega
          · omega
      · rw [chosen_cut hpos (by omega)]
        apply Iff.intro
        · exact fun h => Or.inr (Or.inr ⟨by omega, h⟩)
        · rintro (⟨-, h, -⟩ | ⟨h, -⟩ | ⟨-, h⟩)
          · omega
          · omega
          · exact h
  simp only [hchosen]
  unfold Whole
  apply Iff.intro
  · intro h hpass
    obtain ⟨count, types, rfl, -⟩ := h [0, 0, 0] rfl hpass
    refine ⟨count, types, rfl, (hcases count types).mp ?_⟩
    intro junk hjunk
    obtain ⟨count', types', heq, hchosen'⟩ := h junk hjunk hpass
    obtain ⟨rfl, rfl⟩ := List.cons.inj (List.append_cancel_left heq)
    exact hchosen'
  · intro h junk hjunk hpass
    obtain ⟨count, types, hserver, hwhole⟩ := h hpass
    exact ⟨count, types, hserver, (hcases count types).mpr hwhole junk hjunk⟩

end Row

end Remote

-- ============================================================================
-- The whole dialogue
-- ============================================================================

section Run

variable {clnt : Nat} {rows : List Row} {buf response client server challenge : List Byte}
variable {arrays : Arrays} {info : VncAuthInfo}

theorem finish_piped {r : Int} {register : Option D3des.Register} (hbuf : Greeted arrays.buf)
    (harr : arrays.challenge.length = 16) :
    (finish clnt arrays info r).wp (piped clnt rows) (fun _ _ => True)
        ⟨client, server, [], register, false⟩ ↔
      (r = SQLITE_OK → info.matched = true → RemoteOk info arrays.buf server) := by
  by_cases hr : r = SQLITE_OK
  · subst hr
    cases hmatched : info.matched with
    | true =>
      rw [finish_matched hmatched, Prog.wp_bind, wp_connectTo_piped]
      simp only [true_and, forall_const]
      apply Iff.intro
      · intro h
        have hne : clnt + 1 ≠ clnt := by omega
        exact (connected_piped hbuf harr hne).mp (h.2 (clnt + 1) hne)
      · intro h
        refine ⟨wp_close_piped.mpr trivial, ?_⟩
        intro remote hne
        exact (connected_piped hbuf harr hne).mpr h
    | false =>
      unfold finish
      simp [hmatched, piped]
  · unfold finish
    simp [hr, piped]

/-- The section under `global_m` is not entered with a response that is cut short. -/
theorem authenticate_short {α : Type} {f : VncAuthInfo × Int → Code α} {s : Streams}
    {Q : Streams → α → Prop} (hshort : s.short = true) :
    ¬ (authenticate challenge response >>= f).wp (piped clnt rows) Q s := by
  intro h
  have howed : (piped clnt rows).owes s .lock := h.1
  obtain ⟨fd, hfd⟩ := howed.2 hshort
  cases hfd

/-- `buf` after the dialogue with the client. -/
def clientBuf (buf client : List Byte) : List Byte :=
  overwrite ((((overwrite buf (client.take 12)).set 12 0).set 0 1).set 1 2) ((client.drop 12).take 1)

theorem clientBuf_greeted (hbuf : buf.length = 16)
    (hcmp : cString ((overwrite buf (client.take 12)).set 12 0) = version) :
    Greeted (clientBuf buf client) := by
  have htake : (client.take 12).length ≤ 12 := List.length_take_le _ _
  have harr : (overwrite buf (client.take 12)).length = 16 := by
    rw [length_overwrite] <;> omega
  obtain ⟨rest, heq, hrest⟩ := eq_version_append harr hcmp
  unfold clientBuf
  rw [heq]
  exact greeted_type hrest (List.length_take_le _ _)

/-- The version that compares equal is that of the client, as far as it goes. -/
theorem prefix_of_compare
    (hcmp : cString ((overwrite buf (client.take 12)).set 12 0) = version) :
    client.take 12 <+: version := by
  have hfront : version <+: (overwrite buf (client.take 12)).set 12 0 := by
    rw [← hcmp]
    exact List.takeWhile_prefix _
  have htake : (overwrite buf (client.take 12)).take 12 = version := by
    rw [← List.take_set_of_le (a := 0) (Nat.le_refl 12)]
    exact (List.prefix_iff_eq_take.mp hfront).symm
  rw [← htake, List.prefix_take_iff]
  exact ⟨List.prefix_append _ _, List.length_take_le _ _⟩

/-- What `run` needs of one response. -/
def LookupOk (rows : List Row) (buf client server challenge : List Byte) : Prop :=
  ∀ part r, Delivers rows (part, r) →
    (∀ pre row post, part = pre ++ row :: post →
      (∀ row' ∈ pre, ¬ row'.Answers challenge ((client.drop 13).take 16)) → row.Fits) ∧
    (r = SQLITE_OK → (scan challenge ((client.drop 13).take 16) part).matched = true →
      RemoteOk (scan challenge ((client.drop 13).take 16) part) (clientBuf buf client) server)

theorem run_piped (hrows : Storable rows) (hbuf : buf.length = 16) (hresponse : response.length = 16)
    (hchallenge : challenge.length = 16) :
    (run clnt buf response).wp (piped clnt rows) (fun _ _ => True)
        (Streams.start client server challenge) ↔
      (cString ((overwrite buf (client.take 12)).set 12 0) = version →
        29 ≤ client.length ∧ LookupOk rows buf client server challenge) := by
  rw [run_eq, Prog.wp_bind, greetClient_piped hbuf hresponse hchallenge fun _ => trivial]
  apply imp_congr_right
  intro hcmp
  have hgreeted := clientBuf_greeted hbuf hcmp
  by_cases hlong : 29 ≤ client.length
  · have hshort : decide (client.length < 29) = false := by simpa using hlong
    have hall : overwrite response ((client.drop 13).take 16) = (client.drop 13).take 16 := by
      apply overwrite_all
      rw [List.length_take, List.length_drop, hresponse]
      omega
    rw [hshort, hall]
    show _ ∧ Prog.wp _ (authenticate _ _ >>= _) _ _ ↔ _
    rw [Prog.wp_bind, wp_authenticate_piped hrows rfl (R := fun x => x.2 = SQLITE_OK →
      x.1.matched = true → RemoteOk x.1 (clientBuf buf client) server)]
    · exact and_congr_left fun _ => iff_of_true (by omega) hlong
    · intro register x
      exact finish_piped hgreeted hchallenge
  · apply iff_of_false
    · rintro ⟨-, h⟩
      exact authenticate_short (by simpa using hlong) h
    · exact fun h => hlong h.1

/-- What `buf` holds at first can complete a version that is cut short. -/
theorem compare_start (h : client.take 12 <+: version) (junk : List Byte) :
    cString ((overwrite (version ++ 0 :: junk) (client.take 12)).set 12 0) = version := by
  have hover : overwrite (version ++ 0 :: junk) (client.take 12) = version ++ 0 :: junk := by
    obtain ⟨rest, hrest⟩ := h
    unfold overwrite
    rw [← hrest, List.append_assoc, List.drop_left]
  rw [hover]
  rfl

theorem clientBuf_junk {type : Byte} (hversion : client.take 12 = version)
    (htype : (client.drop 12).take 1 = [type]) (junk : List Byte) :
    clientBuf (version ++ 0 :: junk) client = type :: 2 :: version.drop 2 ++ 0 :: junk := by
  unfold clientBuf
  rw [hversion, htype]
  rfl

theorem overwrite_whole (hbuf : buf.length = 16) :
    ∃ b, overwrite buf version = version ++ b :: buf.drop 13 := by
  have hlen : 12 < buf.length := by omega
  refine ⟨buf[12], ?_⟩
  rw [← List.drop_eq_getElem_cons hlen]
  rfl

theorem compare_whole (hbuf : buf.length = 16) :
    cString ((overwrite buf version).set 12 0) = version := by
  obtain ⟨b, hover⟩ := overwrite_whole hbuf
  rw [hover]
  rfl

/-- Whatever `buf` holds at first, it holds three bytes of it in the end. -/
theorem clientBuf_of_compare {type : Byte} (hbuf : buf.length = 16)
    (hversion : client.take 12 = version) (htype : (client.drop 12).take 1 = [type]) :
    ∃ junk : List Byte, junk.length = 3 ∧
      clientBuf buf client = type :: 2 :: version.drop 2 ++ 0 :: junk := by
  obtain ⟨b, hover⟩ := overwrite_whole hbuf
  refine ⟨buf.drop 13, by rw [List.length_drop, hbuf], ?_⟩
  unfold clientBuf
  rw [hversion, htype, hover]
  rfl

/-- The version and the type of a client that is not cut short. -/
theorem client_parts (hpre : client.take 12 <+: version) (hlong : 29 ≤ client.length) :
    client.take 12 = version ∧ ∃ type, (client.drop 12).take 1 = [type] := by
  refine ⟨?_, ?_⟩
  · apply hpre.eq_of_length
    rw [List.length_take]
    simp [version]
    omega
  · apply List.length_eq_one_iff.mp
    rw [List.length_take, List.length_drop]
    omega

theorem received_iff (hrows : Storable rows) (hchallenge : challenge.length = 16) :
    (∀ buf response : List Byte, buf.length = 16 → response.length = 16 →
      (run clnt buf response).wp (piped clnt rows) (fun _ _ => True)
        (Streams.start client server challenge)) ↔ Received rows client server challenge := by
  apply Iff.intro
  · intro h hpre
    have hlook : ∀ junk : List Byte, junk.length = 3 → 29 ≤ client.length ∧
        LookupOk rows (version ++ 0 :: junk) client server challenge := by
      intro junk hjunk
      have hbuf : (version ++ 0 :: junk).length = 16 := by simp [version, hjunk]
      have hresponse : (List.replicate 16 (0 : Byte)).length = 16 := by simp
      exact (run_piped hrows hbuf hresponse hchallenge).mp (h _ _ hbuf hresponse)
        (compare_start hpre junk)
    have hlong := (hlook [0, 0, 0] rfl).1
    obtain ⟨hversion, type, htype⟩ := client_parts hpre hlong
    have hwhole : Delivers rows (rows, SQLITE_OK) := ⟨List.prefix_rfl, fun _ => rfl⟩
    refine ⟨hlong, ((hlook [0, 0, 0] rfl).2 rows SQLITE_OK hwhole).1, ?_⟩
    intro row hrow
    rw [← whole_iff challenge ((client.drop 13).take 16) type]
    intro junk hjunk
    have hremote := ((hlook junk hjunk).2 rows SQLITE_OK hwhole).2 rfl
      (scan_matched.mpr ⟨row, hrow⟩)
    rwa [scan_eq_ofRow hrow, clientBuf_junk hversion htype] at hremote
  · intro h buf response hbuf hresponse
    rw [run_piped hrows hbuf hresponse hchallenge]
    intro hcmp
    have hpre := prefix_of_compare hcmp
    obtain ⟨hlong, hscanned, hfound⟩ := h hpre
    obtain ⟨hversion, type, htype⟩ := client_parts hpre hlong
    refine ⟨hlong, ?_⟩
    intro part r hdelivers
    refine ⟨?_, ?_⟩
    · obtain ⟨rest, rfl⟩ := hdelivers.1
      rintro pre row post rfl
      apply hscanned pre row (post ++ rest)
      rw [List.append_assoc, List.cons_append]
    · intro hr hmatched
      obtain rfl : part = rows := hdelivers.2 hr
      obtain ⟨row, hrow⟩ := scan_matched.mp hmatched
      obtain ⟨junk, hjunk, hleft⟩ := clientBuf_of_compare hbuf hversion htype
      rw [scan_eq_ofRow hrow, hleft]
      exact (whole_iff _ _ _).mpr (hfound row hrow) junk hjunk

end Run

end VncProxy.Handshake
