/-
  VncProxy.Handshake.Auth

  The look-up of a client's answer in the table.  `scan` says what the fold of
  `vnc_auth_callback` over the rows comes to: the first row whose key encrypts
  the challenge to the response.  It rests on nothing but the contract of the
  operator, so it holds whatever other operators do in between.
-/
import VncProxy.Handshake.View

namespace VncProxy.Handshake

open Lib (Prog Contract)

-- ============================================================================
-- What is looked up
-- ============================================================================

/-- The DES response to a challenge under a key that is padded with zeros. -/
def vncResponse (key challenge : List Byte) : List Byte :=
  let knl := D3des.rfbDesKey (overwrite (List.replicate 8 0) key) .EN0
  D3des.rfbDes knl (challenge.take 8) ++ D3des.rfbDes knl (challenge.drop 8)

/-- The bytes of a column; a NULL has none. -/
def column (value : Option CString) : List Byte := (value.map CString.bytes).getD []

namespace Row

/-- The row's key encrypts the challenge to the response. -/
def Answers (challenge response : List Byte) (row : Row) : Prop :=
  ∃ key, row.forwardKey = some key ∧ response = vncResponse key.bytes challenge

instance (challenge response : List Byte) (row : Row) : Decidable (row.Answers challenge response) :=
  match h : row.forwardKey with
  | none => isFalse fun ⟨_, hkey, _⟩ => by rw [h] at hkey; cases hkey
  | some key => decidable_of_iff (response = vncResponse key.bytes challenge) (by
      constructor
      · exact fun hr => ⟨key, h, hr⟩
      · rintro ⟨key', hkey, hr⟩
        obtain rfl := Option.some.inj (h.symm.trans hkey)
        exact hr)

end Row

/-- What a session carries once a row is found. -/
def VncAuthInfo.ofRow (challenge response : List Byte) (row : Row) : VncAuthInfo where
  challenge := challenge
  response := response
  matched := true
  forwardKey := column row.forwardKey
  destAddr := column row.destAddr
  hasDestPasswd := row.destPasswd.isSome
  destPasswd := column row.destPasswd

/-- The first row of the table that answers. -/
def firstMatch (challenge response : List Byte) (rows : List Row) : Option Row :=
  rows.find? fun row => row.Answers challenge response

/-- What the scan of the table comes to. -/
def scan (challenge response : List Byte) (rows : List Row) : VncAuthInfo :=
  match firstMatch challenge response rows with
  | some row => VncAuthInfo.ofRow challenge response row
  | none => VncAuthInfo.new challenge response

section Scan

variable {challenge response : List Byte} {rows : List Row} {row : Row}

theorem scan_matched : (scan challenge response rows).matched = true ↔
    ∃ row, firstMatch challenge response rows = some row := by
  unfold scan
  cases firstMatch challenge response rows <;> simp [VncAuthInfo.ofRow, VncAuthInfo.new]

theorem scan_of_matched (h : (scan challenge response rows).matched = true) :
    scan challenge response (rows ++ [row]) = scan challenge response rows := by
  obtain ⟨first, hfirst⟩ := scan_matched.mp h
  have hmore : firstMatch challenge response (rows ++ [row]) = some first := by
    rw [firstMatch] at hfirst ⊢
    rw [List.find?_append, hfirst, Option.some_or]
  simp only [scan, hfirst, hmore]

theorem scan_of_not_matched (h : (scan challenge response rows).matched = false) :
    scan challenge response (rows ++ [row]) = scan challenge response [row] := by
  have hnone : firstMatch challenge response rows = none := by
    apply Option.eq_none_iff_forall_ne_some.mpr
    intro first hfirst
    rw [scan_matched.mpr ⟨first, hfirst⟩] at h
    cases h
  have hmore : firstMatch challenge response (rows ++ [row]) =
      firstMatch challenge response [row] := by
    rw [firstMatch] at hnone ⊢
    rw [List.find?_append, hnone, Option.none_or]
    rfl
  simp only [scan, hmore]

theorem scan_eq_new (h : (scan challenge response rows).matched = false) :
    scan challenge response rows = VncAuthInfo.new challenge response := by
  unfold scan at h ⊢
  split at h
  · cases h
  · rename_i hnone
    rfl

theorem scan_singleton_answers (h : row.Answers challenge response) :
    scan challenge response [row] = VncAuthInfo.ofRow challenge response row := by
  simp [scan, firstMatch, h]

theorem scan_singleton_not (h : ¬ row.Answers challenge response) :
    scan challenge response [row] = VncAuthInfo.new challenge response := by
  simp [scan, firstMatch, h]

end Scan

-- ============================================================================
-- How it is looked up
-- ============================================================================

/-- Nothing but the key register and the lock may have changed. -/
structure View.Same (v v' : View) : Prop where
  conns : v'.conns = v.conns
  rows : v'.rows = v.rows
  tied : v'.tied = v.tied

theorem View.Same.trans {v v' v'' : View} (h : v.Same v') (h' : v'.Same v'') : v.Same v'' :=
  ⟨h'.conns.trans h.conns, h'.rows.trans h.rows, h'.tied.trans h.tied⟩

section Lookup

variable {k : Contract Call Call.Ans View} {v : View} {challenge response : List Byte}

theorem wp_authKey (hk : Careful k) (htied : v.tied = none) {key : List Byte}
    {Q : View → List Byte → Prop}
    (hQ : key.length ≤ 8 → Q v (overwrite (List.replicate 8 0) key)) :
    (authKey key).wp k Q v := by
  unfold authKey
  rw [Prog.wp_ite]
  exact ⟨hQ, fun _ => wp_undefined.mpr (hk.undefined v htied)⟩

/-- Under the lock, the blocks are encrypted with the key that was loaded. -/
theorem wp_desBlocks (hk : Careful k) (htied : v.tied = none) (hlocked : v.locked = true)
    {key : List Byte} {Q : View → List Byte → Prop}
    (hkey : v.register = some (D3des.rfbDesKey (overwrite (List.replicate 8 0) key) .EN0))
    (hQ : Q v (vncResponse key challenge)) : (desBlocks challenge).wp k Q v := by
  unfold desBlocks
  rw [Prog.wp_bind, wp_rfbDes]
  refine ⟨hk.rfbDes v _ htied hlocked, ?_⟩
  intro first hfirst
  rw [hk.next, Prog.wp_bind, wp_rfbDes]
  refine ⟨hk.rfbDes v _ htied hlocked, ?_⟩
  intro second hsecond
  rw [hk.next, Prog.wp_pure, hk.grants v _ _ hfirst _ hkey, hk.grants v _ _ hsecond _ hkey]
  exact hQ

/-- A response is computed under one lock, and something follows. -/
theorem wp_respond (hk : Careful k) {α : Type} {key : List Byte} {f : List Byte → Code α}
    {Q : View → α → Prop} (htied : v.tied = none) (hlocked : v.locked = true)
    (hQ : ∀ v', v.Same v' → v'.locked = true → key.length ≤ 8 →
      (f (vncResponse key challenge)).wp k Q v') :
    (do
      let authKey ← authKey key
      rfbDesKey authKey .EN0
      let response ← desBlocks challenge
      f response).wp k Q v := by
  rw [Prog.wp_bind]
  apply wp_authKey hk htied
  intro hlen
  rw [Prog.wp_bind, wp_rfbDesKey]
  refine ⟨hk.rfbUseKey v _ htied hlocked, ?_⟩
  intro _ _
  rw [hk.next, Prog.wp_bind]
  exact wp_desBlocks (v := v.next (.rfbUseKey _) ()) hk htied hlocked rfl
    (hQ _ ⟨rfl, rfl, rfl⟩ hlocked hlen)

/-- One row more has been looked at. -/
theorem wp_vncAuthCallback (hk : Careful k) {pre : List Row} {row : Row}
    {Q : View → VncAuthInfo → Prop} (htied : v.tied = none) (hlocked : v.locked = true)
    (hQ : ∀ v', v.Same v' → v'.locked = true → Q v' (scan challenge response (pre ++ [row]))) :
    (vncAuthCallback (scan challenge response pre) row).wp k Q v := by
  unfold vncAuthCallback
  rw [Prog.wp_ite, Prog.wp_pure]
  constructor
  · intro hmatched
    rw [← scan_of_matched hmatched]
    exact hQ v ⟨rfl, rfl, rfl⟩ hlocked
  · intro hmatched
    rw [Bool.not_eq_true] at hmatched
    rw [scan_of_not_matched hmatched] at hQ
    rw [scan_eq_new hmatched, Prog.wp_bind, wp_deref]
    refine ⟨?_, fun _ => hk.undefined v htied⟩
    intro key hkey
    apply wp_respond hk htied hlocked
    intro v' hsame hlocked' _
    have htied' : v'.tied = none := hsame.tied.trans htied
    rw [Prog.wp_ite]
    constructor
    · intro hanswer
      have hrow : row.Answers challenge response := ⟨key, hkey, hanswer⟩
      rw [scan_singleton_answers hrow] at hQ
      rw [Prog.wp_bind, wp_deref]
      refine ⟨?_, fun _ => hk.undefined v' htied'⟩
      intro key' hkey'
      rw [Prog.wp_bind, wp_deref]
      refine ⟨?_, fun _ => hk.undefined v' htied'⟩
      intro addr haddr
      have hQ := hQ v' hsame hlocked'
      cases hpasswd : row.destPasswd with
      | none => simpa [VncAuthInfo.ofRow, VncAuthInfo.new, column, hkey', haddr, hpasswd] using hQ
      | some passwd =>
        simpa [VncAuthInfo.ofRow, VncAuthInfo.new, column, hkey', haddr, hpasswd] using hQ
    · intro hanswer
      have hnot : ¬ row.Answers challenge response := by
        rintro ⟨key', hkey', hanswer'⟩
        obtain rfl := Option.some.inj (hkey.symm.trans hkey')
        exact hanswer hanswer'
      rw [Prog.wp_pure, ← scan_singleton_not hnot]
      exact hQ v' hsame hlocked'

/-- The rest of the section under `global_m`, from the rows on. -/
theorem wp_lookup (hk : Careful k) {rows : List Row} {r : Int} {Q : View → VncAuthInfo × Int → Prop}
    (htied : v.tied = none) (hlocked : v.locked = true)
    (hQ : ∀ v', v.Same v' → v'.locked = false → Q v' (scan challenge response rows, r)) :
    (do
      let info ← rows.foldlM vncAuthCallback (VncAuthInfo.new challenge response)
      unlock
      return (info, r)).wp k Q v := by
  rw [Prog.wp_bind]
  have hloop := Prog.wp_foldlM (k := k) (f := vncAuthCallback)
    (I := fun pre v' info => v.Same v' ∧ v'.locked = true ∧ info = scan challenge response pre)
    rows (by
      rintro pre row post v' info - ⟨hsame, hlocked', rfl⟩
      apply wp_vncAuthCallback hk (hsame.tied.trans htied) hlocked'
      intro v'' hsame' hlocked''
      exact ⟨hsame.trans hsame', hlocked'', rfl⟩)
    v (VncAuthInfo.new challenge response) ⟨⟨rfl, rfl, rfl⟩, hlocked, rfl⟩
  apply Prog.wp_mono hloop
  rintro v' info ⟨hsame, hlocked', rfl⟩
  rw [Prog.wp_bind, wp_unlock]
  refine ⟨hk.unlock v' (hsame.tied.trans htied) hlocked', ?_⟩
  intro _ _
  rw [hk.next, Prog.wp_pure]
  exact hQ { v' with locked := false } ⟨hsame.conns, hsame.rows, hsame.tied⟩ rfl

/-- The section under `global_m` finds what is in the rows that it is shown. -/
theorem wp_authenticate (hk : Careful k) {Q : View → VncAuthInfo × Int → Prop}
    (htied : v.tied = none) (hlocked : v.locked = false)
    (hQ : ∀ v' r, v'.conns = v.conns → v'.tied = none → v'.locked = false →
      Q v' (scan challenge response v'.rows, r)) :
    (authenticate challenge response).wp k Q v := by
  unfold authenticate
  rw [Prog.wp_bind, wp_lock]
  refine ⟨hk.lock v htied hlocked, ?_⟩
  intro _ _
  rw [hk.next, Prog.wp_bind, wp_selectRoutes]
  refine ⟨hk.selectRoutes _ htied, ?_⟩
  rintro ⟨rows, r⟩ -
  rw [hk.next]
  apply wp_lookup hk (v := View.next (v.next .lock ()) .selectRoutes (rows, r)) htied rfl
  intro v' hsame hlocked'
  have hQ := hQ v' r hsame.conns (hsame.tied.trans htied) hlocked'
  rw [hsame.rows] at hQ
  exact hQ

end Lookup

end VncProxy.Handshake
