/-
  VncProxy.Handshake.Dialogue

  What an operator has exchanged by the time it ties its pair, if every send is
  accepted in full and every recv filled completely: one lemma for each part of
  `run`, over the contract `fullSession`.

  `Said` is the free part of the two dialogues, the fields whose value one of the
  four parties chooses; `Said.client` and `Said.server` are the bytes on the two
  sockets that follow from it.
-/
import VncProxy.Handshake.Auth

namespace VncProxy.Handshake

open Lib (Prog)

-- ============================================================================
-- The two dialogues
-- ============================================================================

structure Said where
  /-- the security type that the client chose, which nobody looks at -/
  clientType : Byte
  challenge : List Byte
  response : List Byte
  /-- the row that the response selects -/
  row : Row
  /-- the security types that the remote offers -/
  types : List Byte
  /-- the one that it is told -/
  choice : Byte
  remoteChallenge : List Byte

namespace Said

/-- Got from the client and sent to it. -/
def client (s : Said) : Conn where
  got := version ++ [s.clientType] ++ s.response
  put := version ++ [1, 2] ++ s.challenge

/-- The number of security types, and the types. -/
def offer (s : Said) : List Byte := UInt8.ofNat s.types.length :: s.types

/-- Got from the remote and sent to it. -/
def server (s : Said) : Conn :=
  if s.choice = 2 then
    { got := version ++ s.offer ++ s.remoteChallenge
      put := version ++ [2] ++ vncResponse (column s.row.destPasswd) s.remoteChallenge }
  else
    { got := version ++ s.offer
      put := version ++ [s.choice] }

/-- The fields have their sizes and come from where they should. -/
structure Valid (s : Said) (rows : List Row) : Prop where
  challenge : s.challenge.length = 16
  response : s.response.length = 16
  row : firstMatch s.challenge s.response rows = some s.row
  types : s.types.length ≤ 16
  choice : (s.choice = 1 ∧ 1 ∈ s.types) ∨
    (s.choice = 2 ∧ 2 ∈ s.types ∧ 1 ∉ s.types ∧ s.row.destPasswd.isSome)
  remoteChallenge : s.choice = 2 → s.remoteChallenge.length = 16

end Said

/-- The operator has tied its client to a remote, with nothing exchanged but the
    two dialogues. -/
def Spliced (rows : List Row) (d : Splice) : Prop :=
  ∃ s : Said, s.Valid rows ∧ d.client = some s.client ∧ d.server = some s.server ∧
    d.forwardKey = column s.row.forwardKey

-- ============================================================================
-- Arrays
-- ============================================================================

theorem length_overwrite {arr bytes : List Byte} (h : bytes.length ≤ arr.length) :
    (overwrite arr bytes).length = arr.length := by
  rw [overwrite, List.length_append, List.length_drop]
  omega

/-- An array that is filled completely holds what was received. -/
theorem overwrite_all {arr bytes : List Byte} (h : bytes.length = arr.length) :
    overwrite arr bytes = bytes := by
  rw [overwrite, h, List.drop_length, List.append_nil]

theorem take_overwrite {arr bytes : List Byte} {n : Nat} (h : bytes.length = n) :
    (overwrite arr bytes).take n = bytes := by
  rw [overwrite, ← h, List.take_left']
  rfl

/-- Twelve bytes that compare equal to the version are the version. -/
theorem eq_version {arr bytes : List Byte} (h : bytes.length = 12)
    (hcmp : cString ((overwrite arr bytes).set 12 0) = version) : bytes = version := by
  have hfront : version <+: (overwrite arr bytes).set 12 0 := by
    rw [← hcmp]
    exact List.takeWhile_prefix _
  rw [List.prefix_iff_eq_take.mp hfront]
  show bytes = ((overwrite arr bytes).set 12 0).take 12
  rw [List.take_set_of_le (Nat.le_refl _), take_overwrite h]

/-- The list of security types for the client. -/
theorem take_types {arr : List Byte} (h : 2 ≤ arr.length) :
    ((arr.set 0 1).set 1 2).take 2 = [1, 2] := by
  match arr, h with
  | _ :: _ :: arr, _ => rfl

/-- A count that fits into an array is the byte that was received. -/
theorem toSizeT_charToInt {b : Byte} (h : toSizeT (charToInt b) ≤ 16) :
    toSizeT (charToInt b) = b.toNat ∧ (charToInt b).toNat = b.toNat := by
  have hb : charToInt b = (b.toNat : Int).bmod 256 := by
    rw [charToInt, Int8.toInt, UInt8.toBitVec_toInt8, BitVec.toInt_eq_toNat_bmod]
    rfl
  have hlt := b.toNat_lt
  unfold toSizeT at h ⊢
  rw [hb, Int.bmod] at h ⊢
  split at h <;> split <;> omega

-- ============================================================================
-- The parts of the dialogue
-- ============================================================================

section Full

variable {v : View} {clnt remote : Nat} {buf response : List Byte}

@[simp] theorem full_owes (c : Call) : fullSession.owes v c = v.Owes c := rfl

@[simp] theorem full_next (c : Call) (a : c.Ans) : fullSession.next v c a = v.next c a := rfl

@[simp] theorem full_send {fd : Nat} {n : Int} :
    fullSession.grants v (.send fd buf) n ↔ n = buf.length := by
  constructor
  · exact fun h => h.2
  · rintro rfl
    exact ⟨Int.le_refl _, rfl⟩

@[simp] theorem full_recv {fd len : Nat} {r : Option (List Byte)} :
    fullSession.grants v (.recv fd len) r ↔ ∃ bytes, r = some bytes ∧ bytes.length = len := by
  constructor
  · exact fun h => h.2
  · rintro ⟨bytes, rfl, rfl⟩
    refine ⟨?_, bytes, rfl, rfl⟩
    intro _ h
    obtain rfl := Option.some.inj h
    exact Nat.le_refl _

theorem natCast_not_neg (n : Nat) : ¬ (n : Int) < 0 := Int.not_lt.mpr (Int.natCast_nonneg n)

theorem recv_failed : (-1 : Int) < 0 := by decide

/-- A send that is accepted in full does not fail. -/
theorem wp_send_or {α : Type} {fd : Nat} {c : Conn} {f g : Code α} {Q : View → α → Prop}
    (hQ : g.wp fullSession Q (v.setConn fd ⟨c.got, c.put ++ buf⟩)) :
    (do if (← send fd buf) < 0 then f else g).wp fullSession Q (v.setConn fd c) := by
  rw [Prog.wp_bind, wp_send]
  refine ⟨by simp [View.Owes], ?_⟩
  intro n hn
  obtain rfl : n = buf.length := full_send.mp hn
  rw [if_neg (natCast_not_neg _)]
  show g.wp fullSession Q ((v.setConn fd c).put fd (buf.take ((buf.length : Int)).toNat))
  rw [Int.toNat_natCast, List.take_length, View.setConn_put]
  exact hQ

/-- A recv that is filled completely returns the length asked for. -/
theorem wp_recv_bind {α : Type} {fd len : Nat} {c : Conn} {arr : List Byte}
    {f : Int × List Byte → Code α} {Q : View → α → Prop}
    (hQ : ∀ bytes : List Byte, bytes.length = len → len ≤ arr.length →
      (f ((len : Int), overwrite arr bytes)).wp fullSession Q
        (v.setConn fd ⟨c.got ++ bytes, c.put⟩)) :
    (recv fd arr len >>= f).wp fullSession Q (v.setConn fd c) := by
  rw [Prog.wp_bind, wp_recv]
  refine ⟨by simp [View.Owes], ?_, ?_⟩
  · intro h
    obtain ⟨_, h, -⟩ := full_recv.mp h
    cases h
  · intro bytes h
    obtain ⟨_, hbytes, rfl⟩ := full_recv.mp h
    obtain rfl := Option.some.inj hbytes
    refine ⟨?_, fun _ => trivial⟩
    intro hlen
    show Prog.wp fullSession _ Q ((v.setConn fd c).got fd bytes)
    rw [View.setConn_got]
    exact hQ bytes rfl hlen

theorem wp_close_conn {fd : Nat} {c : Conn} {Q : View → Unit → Prop}
    (hQ : ∀ v', v'.tied = v.tied → Q v' ()) : (close fd).wp fullSession Q (v.setConn fd c) := by
  rw [wp_close]
  exact ⟨by simp [View.Owes], fun _ _ => hQ _ rfl⟩

theorem wp_closeBoth {c : Conn} (hne : clnt ≠ remote) (hclnt : (v.conns clnt).isSome)
    {Q : View → Unit → Prop} (hQ : ∀ v', v'.tied = v.tied → Q v' ()) :
    (closeBoth clnt remote).wp fullSession Q (v.setConn remote c) := by
  unfold closeBoth
  rw [Prog.wp_bind, wp_close]
  refine ⟨by simp [View.Owes], ?_⟩
  intro _ _
  rw [wp_close]
  refine ⟨?_, fun _ _ => hQ _ rfl⟩
  show (Function.update (v.setConn remote c).conns remote none clnt).isSome
  rw [Function.update_of_ne hne, View.setConn_of_ne hne]
  exact hclnt

/-- The client is greeted: 29 bytes are taken from it. -/
theorem greetClient_full (hbuf : buf.length = 16) (hresponse : response.length = 16)
    {Q : View → Option Arrays → Prop} (hnone : ∀ v', v'.tied = v.tied → Q v' none)
    (hsome : ∀ arrays type, arrays.buf.length = 16 → arrays.challenge.length = 16 →
      arrays.response.length = 16 →
      Q (v.setConn clnt ⟨version ++ [type] ++ arrays.response,
        version ++ [1, 2] ++ arrays.challenge⟩) (some arrays)) :
    (greetClient clnt buf response).wp fullSession Q (v.setConn clnt ⟨[], []⟩) := by
  unfold greetClient
  rw [Prog.wp_bind, wp_setNonblocking]
  refine ⟨by simp [View.Owes], ?_⟩
  intro r _
  rw [Prog.wp_bind, wp_verify]
  refine ⟨?_, fun _ => trivial⟩
  intro _
  apply wp_send_or
  apply wp_recv_bind
  intro bytes hbytes _
  simp only [natCast_not_neg, ↓reduceIte]
  rw [Prog.wp_ite]
  constructor
  · intro _
    rw [Prog.wp_bind]
    exact wp_close_conn hnone
  · intro hcmp
    obtain rfl := eq_version hbytes (not_not.mp hcmp)
    apply wp_send_or
    apply wp_recv_bind
    intro types htypes _
    obtain ⟨type, rfl⟩ := List.length_eq_one_iff.mp htypes
    simp only [natCast_not_neg, ↓reduceIte]
    rw [Prog.wp_bind]
    apply wp_randBytes trivial (fun _ => rfl)
    intro challenge hchallenge
    apply wp_send_or
    apply wp_recv_bind
    intro answer hanswer _
    simp only [natCast_not_neg, ↓reduceIte]
    have hlen : (overwrite buf version).length = 16 := by
      rw [length_overwrite] <;> rw [hbuf]
      decide
    rw [Prog.wp_pure, overwrite_all (hanswer.trans hresponse.symm)]
    rw [take_types (by rw [List.length_set, hlen]; decide)]
    have hsome := hsome
      ⟨overwrite ((((overwrite buf version).set 12 0).set 0 1).set 1 2) [type], challenge, answer⟩
      type (by rw [length_overwrite] <;> simp [hlen]) hchallenge hanswer
    simpa using hsome

/-- The remote is greeted: its version, the number of its types, and its types. -/
theorem greetRemote_full (hne : clnt ≠ remote) (hclnt : (v.conns clnt).isSome)
    (hbuf : buf.length = 16) {Q : View → Option (Bool × Bool) → Prop}
    (hnone : ∀ v', v'.tied = v.tied → Q v' none)
    (hsome : ∀ types : List Byte, types.length ≤ 16 →
      Q (v.setConn remote ⟨version ++ UInt8.ofNat types.length :: types, version⟩)
        (some (types.contains 1, types.contains 2))) :
    (greetRemote clnt remote buf).wp fullSession Q (v.setConn remote ⟨[], []⟩) := by
  unfold greetRemote
  apply wp_recv_bind
  intro bytes hbytes hlen
  have hbuf1 : (overwrite buf bytes).length = 16 := by
    rw [length_overwrite (hbytes ▸ hlen), hbuf]
  simp only [natCast_not_neg, false_or]
  rw [Prog.wp_ite]
  constructor
  · intro _
    rw [Prog.wp_bind]
    exact wp_closeBoth hne hclnt hnone
  · intro hversion
    rw [not_not, take_overwrite hbytes] at hversion
    subst hversion
    apply wp_send_or
    apply wp_recv_bind
    intro count hcount hlen
    obtain ⟨b, rfl⟩ := List.length_eq_one_iff.mp hcount
    have hbuf2 : (overwrite (overwrite buf version) [b]).length = 16 := by
      rw [length_overwrite (hcount ▸ hlen), hbuf1]
    simp only [natCast_not_neg, ↓reduceIte]
    rw [Prog.wp_bind, wp_load]
    refine ⟨?_, fun _ => trivial⟩
    intro b' hb'
    obtain rfl : b = b' := by simpa [overwrite] using hb'
    apply wp_recv_bind
    intro types htypes hlen
    obtain ⟨hsize, hint⟩ := toSizeT_charToInt (b := b) (hbuf2 ▸ hlen)
    simp only [natCast_not_neg, ↓reduceIte]
    rw [Prog.wp_bind, wp_scanTypes]
    refine ⟨?_, fun _ => trivial⟩
    intro _
    rw [Prog.wp_pure, hint, take_overwrite (htypes.trans hsize)]
    have hsome := hsome types (by rw [htypes, ← hbuf2]; exact hlen)
    rw [htypes, hsize, UInt8.ofNat_toNat] at hsome
    simpa using hsome

/-- What is sent after a section under the lock. -/
theorem View.Same.unlocked {w w' : View} {c : Conn} (h : (w.setConn remote c).Same w') :
    ∃ w₁, w.Same w₁ ∧ ({ w' with locked := false } : View) = w₁.setConn remote c := by
  refine ⟨{ w with locked := false, register := w'.register }, ⟨rfl, rfl, rfl⟩, ?_⟩
  simp [View.setConn, h.conns, h.rows, h.tied]

/-- The remote is answered. -/
theorem answerRemote_full {info : VncAuthInfo} {arrays : Arrays} {types : List Byte}
    {c : Conn} (hne : clnt ≠ remote) (hclnt : (v.conns clnt).isSome) (htied : v.tied = none)
    (hlocked : v.locked = false) (harrays : arrays.challenge.length = 16) {Q : View → Bool → Prop}
    (hfalse : ∀ v', v'.tied = v.tied → Q v' false)
    (hone : 1 ∈ types → Q (v.setConn remote ⟨c.got, c.put ++ [1]⟩) true)
    (htwo : ∀ (v' : View) (challenge : List Byte), v.Same v' → challenge.length = 16 →
      1 ∉ types → 2 ∈ types → info.hasDestPasswd = true →
      Q (v'.setConn remote ⟨c.got ++ challenge,
        c.put ++ [2] ++ vncResponse info.destPasswd challenge⟩) true) :
    (answerRemote clnt remote info arrays (types.contains 1) (types.contains 2)).wp
      fullSession Q (v.setConn remote c) := by
  unfold answerRemote
  rw [Prog.wp_ite]
  constructor
  · intro h1
    apply wp_send_or
    rw [Prog.wp_pure]
    exact hone (by simpa using h1)
  · intro h1
    rw [Prog.wp_ite]
    constructor
    · intro h2
      rw [Bool.and_eq_true] at h2
      apply wp_send_or
      apply wp_recv_bind
      intro challenge hchallenge _
      simp only [natCast_not_neg, ↓reduceIte]
      rw [overwrite_all (hchallenge.trans harrays.symm), Prog.wp_bind, wp_lock]
      refine ⟨hlocked, ?_⟩
      intro _ _
      apply wp_respond (v := View.next (v.setConn remote _) .lock ()) fullSession_careful htied rfl
      intro v' hsame hlocked' _
      rw [Prog.wp_bind, wp_unlock]
      refine ⟨hlocked', ?_⟩
      intro _ _
      have hsame : (v.setConn remote ⟨c.got ++ challenge, c.put ++ [2]⟩).Same v' :=
        ⟨hsame.conns, hsame.rows, hsame.tied⟩
      obtain ⟨w, hw, hunlocked⟩ := hsame.unlocked
      show Prog.wp fullSession _ Q { v' with locked := false }
      rw [hunlocked]
      apply wp_send_or
      rw [Prog.wp_pure]
      exact htwo w challenge hw hchallenge (by simpa using h1) (by simpa using h2.1) h2.2
    · intro _
      rw [Prog.wp_bind]
      exact wp_closeBoth hne hclnt hfalse

/-- Both sockets are tied, with what has been said on them. -/
theorem tie_full {s : Said} (hne : clnt ≠ remote) (hclient : v.conns clnt = some s.client)
    (hvalid : s.Valid v.rows) :
    (do
      verify ((← setNonblocking clnt true) = 0)
      verify ((← setNonblocking remote true) = 0)
      tieFd (column s.row.forwardKey) clnt remote).wp fullSession
        (fun v _ => ∀ d, v.tied = some d → d.clnt = clnt ∧ Spliced v.rows d)
        (v.setConn remote s.server) := by
  have hclnt : (v.setConn remote s.server).conns clnt = some s.client := by
    rw [View.setConn_of_ne hne, hclient]
  rw [Prog.wp_bind, wp_setNonblocking]
  refine ⟨by simp [View.Owes, hclnt], ?_⟩
  intro _ _
  rw [Prog.wp_bind, wp_verify]
  refine ⟨?_, fun _ => trivial⟩
  intro _
  rw [Prog.wp_bind, wp_setNonblocking]
  refine ⟨by simp [View.Owes, View.next], ?_⟩
  intro _ _
  rw [Prog.wp_bind, wp_verify]
  refine ⟨?_, fun _ => trivial⟩
  intro _
  rw [wp_tieFd]
  refine ⟨by simp [View.Owes, View.next, hclnt, hne], ?_⟩
  intro _ _ d hd
  obtain rfl := Option.some.inj hd
  exact ⟨rfl, s, hvalid, hclnt, View.setConn_self, rfl⟩

/-- `run` ties a pair after the two dialogues, and nothing else. -/
theorem run_full (hbuf : buf.length = 16) (hresponse : response.length = 16) :
    (run clnt buf response).wp fullSession
      (fun v _ => ∀ d, v.tied = some d → d.clnt = clnt ∧ Spliced v.rows d) (View.start clnt) := by
  have hreturned : ∀ v' : View, v'.tied = none →
      ∀ d, v'.tied = some d → d.clnt = clnt ∧ Spliced v'.rows d := by
    intro v' htied d hd
    rw [htied] at hd
    cases hd
  unfold run View.start
  rw [Prog.wp_bind]
  apply greetClient_full hbuf hresponse hreturned
  intro arrays type hbuf' hchallenge hresponse'
  show Prog.wp fullSession (authenticate _ _ >>= _) _ _
  rw [Prog.wp_bind]
  apply wp_authenticate fullSession_careful rfl rfl
  intro v r hconns htied hlocked
  have hclient : v.conns clnt = some ⟨version ++ [type] ++ arrays.response,
      version ++ [1, 2] ++ arrays.challenge⟩ := by
    rw [hconns, View.setConn_self]
  show Prog.wp fullSession (if r ≠ SQLITE_OK then _ else _) _ v
  rw [Prog.wp_ite]
  constructor
  · intro _
    rw [Prog.wp_bind, wp_close]
    exact ⟨by simp [View.Owes, hclient], fun _ _ => hreturned _ htied⟩
  intro _
  rw [Prog.wp_ite]
  constructor
  · intro _
    rw [Prog.wp_bind, wp_send]
    refine ⟨by simp [View.Owes, hclient], ?_⟩
    intro n _
    rw [Prog.wp_bind, wp_close]
    exact ⟨by simp [View.Owes, View.next, hclient], fun _ _ => hreturned _ htied⟩
  intro hmatched
  obtain ⟨row, hrow⟩ := scan_matched.mp (not_not.mp hmatched)
  have hinfo : scan arrays.challenge arrays.response v.rows =
      VncAuthInfo.ofRow arrays.challenge arrays.response row := by
    simp only [scan, hrow]
  rw [hinfo, Prog.wp_bind, wp_connectTo]
  refine ⟨trivial, ?_⟩
  intro remote? hfresh
  cases remote? with
  | none =>
    show Prog.wp fullSession (close clnt) _ v
    rw [wp_close]
    exact ⟨by simp [View.Owes, hclient], fun _ _ => hreturned _ htied⟩
  | some remote =>
  have hne : clnt ≠ remote := by
    rintro rfl
    rw [hfresh.1 clnt rfl] at hclient
    cases hclient
  have hclnt : (v.conns clnt).isSome := by
    rw [hclient]
    rfl
  show Prog.wp fullSession (greetRemote _ _ _ >>= _) _ (v.setConn remote ⟨[], []⟩)
  rw [Prog.wp_bind]
  apply greetRemote_full hne hclnt hbuf'
  · intro v' htied'
    exact hreturned v' (htied'.trans htied)
  intro types htypes
  show Prog.wp fullSession (answerRemote _ _ _ _ _ _ >>= _) _ _
  rw [Prog.wp_bind]
  apply answerRemote_full hne hclnt htied hlocked hchallenge
  · intro v' htied'
    exact hreturned v' (htied'.trans htied)
  · -- the remote asks for no authentication
    intro hmem
    exact tie_full (s := ⟨type, arrays.challenge, arrays.response, row, types, 1, []⟩) hne hclient
      ⟨hchallenge, hresponse', hrow, htypes, Or.inl ⟨rfl, hmem⟩, fun h => by cases h⟩
  · -- the remote asks for the row's password
    intro w challenge hsame hlen hone htwo hpasswd
    exact tie_full (s := ⟨type, arrays.challenge, arrays.response, row, types, 2, challenge⟩) hne
      (hsame.conns.symm ▸ hclient)
      ⟨hchallenge, hresponse', hsame.rows ▸ hrow, htypes, Or.inr ⟨rfl, htwo, hone, hpasswd⟩,
        fun _ => hlen⟩

end Full

end VncProxy.Handshake
