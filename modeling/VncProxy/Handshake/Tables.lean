/-
  VncProxy.Handshake.Tables

  The three readers of the table, over every table that `main` lets sqlite store:
  the look-up of a client's answer, the answer to the remote's challenge, and the
  collection of the valid keys.  What `create table` says of `forward_key` is not
  what sqlite enforces, a NULL and a long key among them.
-/
import VncProxy.Handshake.Routing

namespace VncProxy.Handshake

open Lib (Prog Contract)

-- ============================================================================
-- What sqlite can deliver
-- ============================================================================

/-- `create table vncproxy(forward_key varchar(8) primary key, dest_addr text not null,
    dest_passwd varchar(8))`: sqlite enforces neither the length of a varchar nor, on
    a key that is no integer, that it is not null; two keys that differ can be alike
    up to their first NUL. -/
def Storable (rows : List Row) : Prop := ∀ row ∈ rows, row.destAddr ≠ none

/-- A query walks `all` and stops when it fails. -/
def Delivers {α : Type} (all : List α) (x : List α × Int) : Prop :=
  x.1 <+: all ∧ (x.2 = SQLITE_OK → x.1 = all)

/-- An operator, and the thread that cleans up, with `rows` in the table.  The keys
    alone come in the order of their index. -/
def serving (rows : List Row) : Contract Call Call.Ans View where
  next := View.next
  owes _ op := op ≠ .undefined
  grants v op a := v.Grants op a ∧
    match op, a with
    | .selectRoutes, (x : List Row × Int) => Delivers rows x
    | .selectKeys, (x : List (Option CString) × Int) =>
      ∃ all, all.Perm (rows.map Row.forwardKey) ∧ Delivers all x
    | _, _ => True

/-- Nothing undefined is met: no write past the end of an array, and no NULL that is
    read as a string. -/
def Faultless {α : Type} (rows : List Row) (p : Code α) : Prop :=
  ∀ v log q, Prog.Goes p log q → (serving rows).Kept v log → ∀ next, q ≠ .call .undefined next

/-- The three readers are safe with this table, this challenge and this response. -/
structure Safe (rows : List Row) (challenge response : List Byte) : Prop where
  scan : Faultless rows (authenticate challenge response)
  answer : ∀ v log info r, Prog.Goes (authenticate challenge response) log (.done (info, r)) →
    (serving rows).Kept v log → ∀ clnt remote arrays noneAuth vncAuth,
      arrays.challenge.length = 16 →
        Faultless rows (answerRemote clnt remote info arrays noneAuth vncAuth)
  collect : Faultless rows cleanupTurn

/-- The key can be copied into `auth_key`. -/
def Row.Fits (row : Row) : Prop := ∃ key, row.forwardKey = some key ∧ key.bytes.length ≤ 8

/-- The password that was found, if there is one, can be copied into `auth_key`. -/
def VncAuthInfo.PasswdFits (info : VncAuthInfo) : Prop :=
  info.hasDestPasswd = true → info.destPasswd.length ≤ 8

/-- The keys that are compared fit, up to the first that answers, the password of
    that row fits, and no key is NULL. -/
structure Clean (rows : List Row) (challenge response : List Byte) : Prop where
  scanned : ∀ pre row post, rows = pre ++ row :: post →
    (∀ row' ∈ pre, ¬ row'.Answers challenge response) → row.Fits
  passwd : ∀ row, firstMatch challenge response rows = some row →
    (column row.destPasswd).length ≤ 8
  keys : ∀ row ∈ rows, row.forwardKey ≠ none

-- ============================================================================
-- The look-up
-- ============================================================================

/-- What is asked of the elements of a list up to the first that stops the walk. -/
theorem walk_cons {α : Type} {stops asked : α → Prop} {x : α} {xs : List α} :
    (∀ pre y post, x :: xs = pre ++ y :: post → (∀ z ∈ pre, ¬ stops z) → asked y) ↔
      asked x ∧ (¬ stops x → ∀ pre y post, xs = pre ++ y :: post →
        (∀ z ∈ pre, ¬ stops z) → asked y) := by
  apply Iff.intro
  · intro h
    refine ⟨h [] x xs rfl (by simp), ?_⟩
    intro hx pre y post hxs hpre
    apply h (x :: pre) y post (by rw [hxs, List.cons_append])
    exact List.forall_mem_cons.mpr ⟨hx, hpre⟩
  · rintro ⟨hx, hrest⟩ pre y post hxs hpre
    cases pre with
    | nil =>
      obtain ⟨rfl, -⟩ := List.cons.inj hxs
      exact hx
    | cons z pre =>
      obtain ⟨rfl, htail⟩ := List.cons.inj hxs
      obtain ⟨hz, hpre⟩ := List.forall_mem_cons.mp hpre
      exact hrest hz pre y post htail hpre

section Lookup

variable {rows table : List Row} {row : Row} {challenge response : List Byte} {v : View}

@[simp] theorem serving_owes (op : Call) : (serving table).owes v op ↔ op ≠ .undefined := Iff.rfl

@[simp] theorem serving_next (op : Call) (a : op.Ans) :
    (serving table).next v op a = v.next op a := rfl

@[simp] theorem serving_selectRoutes {x : List Row × Int} :
    (serving table).grants v .selectRoutes x ↔ Delivers table x := by
  simp [serving, View.Grants]

@[simp] theorem serving_selectKeys {x : List (Option CString) × Int} :
    (serving table).grants v .selectKeys x ↔
      ∃ all, all.Perm (table.map Row.forwardKey) ∧ Delivers all x := by
  simp [serving, View.Grants]

@[simp] theorem serving_recv {fd len : Nat} {r : Option (List Byte)} :
    (serving table).grants v (.recv fd len) r ↔ ∀ bytes, r = some bytes → bytes.length ≤ len := by
  simp [serving, View.Grants]

@[simp] theorem serving_send {fd : Nat} {buf : List Byte} {n : Int} :
    (serving table).grants v (.send fd buf) n ↔ n ≤ buf.length := by
  simp [serving, View.Grants]

@[simp] theorem serving_lock {u : Unit} : (serving table).grants v .lock u := by
  simp [serving, View.Grants]

@[simp] theorem serving_unlock {u : Unit} : (serving table).grants v .unlock u := by
  simp [serving, View.Grants]

theorem faultless_iff {α : Type} {p : Code α} :
    Faultless table p ↔ ∀ v, p.wp (serving table) (fun _ _ => True) v := by
  unfold Faultless
  apply forall_congr'
  intro v
  rw [Prog.wp_iff_goes]
  apply Iff.intro
  · intro h log q hgoes hkept
    refine ⟨?_, fun _ _ => trivial⟩
    rintro op next rfl rfl
    exact h log _ hgoes hkept next rfl
  · rintro h log q hgoes hkept next rfl
    exact (h log _ hgoes hkept).1 _ _ rfl rfl

theorem vncAuthCallback_matched {info : VncAuthInfo} (h : info.matched = true) :
    vncAuthCallback info row = pure info := by
  unfold vncAuthCallback
  rw [if_pos h]

theorem foldlM_matched {info : VncAuthInfo} (h : info.matched = true) :
    rows.foldlM vncAuthCallback info = pure info := by
  induction rows with
  | nil => rfl
  | cons row rows ih => rw [List.foldlM_cons, vncAuthCallback_matched h, pure_bind, ih]

/-- Before a row has answered, the callback compares the answer of this row. -/
theorem vncAuthCallback_new {key addr : CString} (hkey : row.forwardKey = some key)
    (haddr : row.destAddr = some addr) :
    vncAuthCallback (VncAuthInfo.new challenge response) row = (do
      let authKey ← authKey key.bytes
      rfbDesKey authKey .EN0
      let expectedResponse ← desBlocks challenge
      return if response = expectedResponse then VncAuthInfo.ofRow challenge response row
        else VncAuthInfo.new challenge response) := by
  unfold vncAuthCallback
  rw [if_neg (by simp [VncAuthInfo.new])]
  simp only [hkey, haddr, deref, pure_bind]
  congr 1
  funext authKey
  congr 1
  funext _
  congr 1
  funext expectedResponse
  by_cases hanswer : response = expectedResponse
  · rw [if_pos hanswer]
    apply Eq.trans (if_pos hanswer)
    cases hpasswd : row.destPasswd <;>
      simp [VncAuthInfo.ofRow, VncAuthInfo.new, column, hkey, haddr, hpasswd]
  · rw [if_neg hanswer]
    exact if_neg hanswer

/-- The key register after a key has been loaded. -/
def View.keyed (v : View) (key : List Byte) : View :=
  { v with register := some (D3des.rfbDesKey (overwrite (List.replicate 8 0) key) .EN0) }

/-- The register holds what has been loaded there, so the blocks that come out are
    those of the key. -/
theorem wp_respond_serving {key : List Byte} {Q : View → List Byte → Prop} :
    (do
      let authKey ← authKey key
      rfbDesKey authKey .EN0
      desBlocks challenge).wp (serving table) Q v ↔
        key.length ≤ 8 ∧ Q (v.keyed key) (vncResponse key challenge) := by
  unfold authKey desBlocks vncResponse View.keyed
  by_cases hlen : key.length ≤ 8
  · simp [hlen, serving, View.next, View.Grants]
  · simp [hlen]

theorem scan_singleton : scan challenge response [row] =
    if row.Answers challenge response then VncAuthInfo.ofRow challenge response row
    else VncAuthInfo.new challenge response := by
  split
  · rename_i h
    exact scan_singleton_answers h
  · rename_i h
    exact scan_singleton_not h

theorem wp_vncAuthCallback_new {Q : View → VncAuthInfo → Prop} (haddr : row.destAddr ≠ none) :
    (vncAuthCallback (VncAuthInfo.new challenge response) row).wp (serving table) Q v ↔
      row.Fits ∧ Q (v.keyed (column row.forwardKey)) (scan challenge response [row]) := by
  obtain ⟨addr, haddr⟩ := Option.ne_none_iff_exists'.mp haddr
  cases hkey : row.forwardKey with
  | none =>
    unfold vncAuthCallback
    simp [VncAuthInfo.new, hkey, Row.Fits]
  | some key =>
    have hanswers : row.Answers challenge response ↔ response = vncResponse key.bytes challenge := by
      simp [Row.Answers, hkey]
    have hfits : row.Fits ↔ key.bytes.length ≤ 8 := by simp [Row.Fits, hkey]
    have hcolumn : column (some key) = key.bytes := rfl
    rw [vncAuthCallback_new hkey haddr, hfits, hcolumn, scan_singleton]
    simp only [hanswers]
    have hrespond := @wp_respond_serving table challenge v key.bytes (fun s e => Q s
      (if response = e then VncAuthInfo.ofRow challenge response row
        else VncAuthInfo.new challenge response))
    simpa only [Prog.wp_bind, Prog.wp_pure] using hrespond

/-- The look-up reads the rows up to the first that answers. -/
theorem wp_scan {R : VncAuthInfo → Prop} (hrows : Storable rows) :
    (rows.foldlM vncAuthCallback (VncAuthInfo.new challenge response)).wp (serving table)
        (fun _ => R) v ↔
      (∀ pre row post, rows = pre ++ row :: post →
        (∀ row' ∈ pre, ¬ row'.Answers challenge response) → row.Fits) ∧
      R (scan challenge response rows) := by
  induction rows generalizing v with
  | nil => simp [scan, firstMatch]
  | cons row rows ih =>
    obtain ⟨haddr, hrows⟩ := List.forall_mem_cons.mp hrows
    rw [List.foldlM_cons, Prog.wp_bind, wp_vncAuthCallback_new haddr, walk_cons, and_assoc]
    apply and_congr Iff.rfl
    by_cases hanswers : row.Answers challenge response
    · have hmatched : (VncAuthInfo.ofRow challenge response row).matched = true := rfl
      have hfirst : scan challenge response (row :: rows) =
          VncAuthInfo.ofRow challenge response row :=
        scan_eq_ofRow (List.find?_cons_of_pos (by simpa using hanswers))
      rw [scan_singleton_answers hanswers, foldlM_matched hmatched, Prog.wp_pure, hfirst]
      simp [hanswers]
    · have hskip : scan challenge response (row :: rows) = scan challenge response rows := by
        unfold scan firstMatch
        rw [List.find?_cons_of_neg (by simpa using hanswers)]
      rw [scan_singleton_not hanswers, ih hrows, hskip]
      simp [hanswers]

/-- The section under `global_m` looks up what the query has delivered. -/
theorem wp_authenticate_serving {R : VncAuthInfo × Int → Prop} :
    (authenticate challenge response).wp (serving rows) (fun _ => R) v ↔
      ∀ part r, Delivers rows (part, r) →
        (part.foldlM vncAuthCallback (VncAuthInfo.new challenge response)).wp (serving rows)
          (fun _ info => R (info, r)) (v.next .lock () |>.next .selectRoutes (part, r)) := by
  unfold authenticate
  simp
  exact ⟨fun h => h (), fun h _ => h⟩

/-- The answer to the remote copies the password if there is one. -/
theorem answerRemote_faultless {info : VncAuthInfo} :
    (∀ clnt remote arrays noneAuth vncAuth, arrays.challenge.length = 16 →
      Faultless table (answerRemote clnt remote info arrays noneAuth vncAuth)) ↔
    info.PasswdFits := by
  have hrespond : ∀ v challenge, (do
      let authKey ← authKey info.destPasswd
      rfbDesKey authKey .EN0
      desBlocks challenge).wp (serving table) (fun _ _ => True) v ↔
        info.destPasswd.length ≤ 8 := by
    intro v challenge
    rw [wp_respond_serving, and_true]
  simp only [Prog.wp_bind, wp_rfbDesKey, serving_owes, serving_next, ne_eq, reduceCtorEq,
    not_false_eq_true, true_and] at hrespond
  simp only [faultless_iff]
  unfold answerRemote closeBoth
  apply Iff.intro
  · intro h hpasswd
    have hanswer := h 0 1 ⟨[], List.replicate 16 0, []⟩ false true (by simp) (View.start 0)
    simp [hpasswd] at hanswer
    exact (hrespond _ _).mp ((hanswer 0 (by omega) (by omega) [] (by simp)).1 (by simp) ())
  · intro h clnt remote arrays noneAuth vncAuth hlen v
    cases noneAuth with
    | true => simp
    | false =>
      by_cases hpasswd : (vncAuth && info.hasDestPasswd) = true
      · simp only [Bool.and_eq_true] at hpasswd
        simp [hpasswd, hlen, hrespond, h hpasswd.2]
      · simp [hpasswd]

theorem collect_faultless {valid : List (List Byte)} {values : List (Option CString)} :
    (values.foldlM collectForwardKeyCallback valid).wp (serving table) (fun _ _ => True) v ↔
      none ∉ values := by
  induction values generalizing v valid with
  | nil => simp
  | cons value values ih =>
    rw [List.foldlM_cons]
    cases value with
    | none => simp [collectForwardKeyCallback]
    | some key =>
      have hcollect : collectForwardKeyCallback valid (some key) =
          pure (valid.insert key.bytes) := rfl
      rw [hcollect, pure_bind, ih]
      simp

theorem cleanupTurn_faultless :
    Faultless rows cleanupTurn ↔ ∀ row ∈ rows, row.forwardKey ≠ none := by
  rw [faultless_iff]
  unfold cleanupTurn
  simp [collect_faultless]
  apply Iff.intro
  · intro h row hrow hnull
    apply h (View.start 0) _ SQLITE_OK _ (List.Perm.refl _) ⟨List.prefix_rfl, fun _ => rfl⟩
    exact List.mem_map.mpr ⟨row, hrow, hnull⟩
  · intro h v values r all hperm hdelivers hnull
    obtain ⟨row, hrow, hkey⟩ := List.mem_map.mp (hperm.mem_iff.mp (hdelivers.1.subset hnull))
    exact h row hrow hkey

/-- The password that the remote is answered with is that of the row found. -/
theorem scan_passwd : (scan challenge response rows).PasswdFits ↔
    ∀ row, firstMatch challenge response rows = some row → (column row.destPasswd).length ≤ 8 := by
  unfold scan VncAuthInfo.PasswdFits
  cases hfirst : firstMatch challenge response rows with
  | none => simp [VncAuthInfo.new]
  | some row => cases hpasswd : row.destPasswd <;> simp [VncAuthInfo.ofRow, column, hpasswd]

theorem safe_iff : Safe rows challenge response ↔
    (∀ v, (authenticate challenge response).wp (serving rows) (fun _ x => x.1.PasswdFits) v) ∧
    ∀ row ∈ rows, row.forwardKey ≠ none := by
  apply Iff.intro
  · intro h
    refine ⟨?_, cleanupTurn_faultless.mp h.collect⟩
    intro v
    rw [Prog.wp_iff_goes]
    intro log q hgoes hkept
    refine ⟨?_, ?_⟩
    · rintro op next rfl rfl
      exact h.scan v log _ hgoes hkept next rfl
    · rintro ⟨info, r⟩ rfl
      exact answerRemote_faultless.mp (h.answer v log info r hgoes hkept)
  · rintro ⟨hauth, hkeys⟩
    refine ⟨?_, ?_, cleanupTurn_faultless.mpr hkeys⟩
    · rw [faultless_iff]
      intro v
      exact Prog.wp_mono (hauth v) fun _ _ _ => trivial
    · intro v log info r hgoes hkept
      exact answerRemote_faultless.mpr ((Prog.wp_iff_goes.mp (hauth v) log _ hgoes hkept).2 _ rfl)

theorem Safe.clean (hrows : Storable rows) (h : Safe rows challenge response) :
    Clean rows challenge response := by
  obtain ⟨hauth, hkeys⟩ := safe_iff.mp h
  have hall := wp_authenticate_serving.mp (hauth (View.start 0)) rows SQLITE_OK
    ⟨List.prefix_rfl, fun _ => rfl⟩
  rw [wp_scan (R := VncAuthInfo.PasswdFits) hrows] at hall
  exact ⟨hall.1, scan_passwd.mp hall.2, hkeys⟩

theorem Clean.safe (hrows : Storable rows) (h : Clean rows challenge response) :
    Safe rows challenge response := by
  refine safe_iff.mpr ⟨?_, h.keys⟩
  intro v
  rw [wp_authenticate_serving (R := fun x => x.1.PasswdFits)]
  intro part r hdelivers
  -- a query that fails has delivered the first rows only
  obtain ⟨rest, rfl⟩ := hdelivers.1
  have hpart : Storable part := fun row hrow => hrows row (List.mem_append_left _ hrow)
  rw [wp_scan (R := VncAuthInfo.PasswdFits) hpart]
  refine ⟨?_, scan_passwd.mpr ?_⟩
  · rintro pre row post rfl
    apply h.scanned pre row (post ++ rest)
    rw [List.append_assoc, List.cons_append]
  · intro row hrow
    apply h.passwd row
    unfold firstMatch at hrow ⊢
    rw [List.find?_append, hrow, Option.some_or]

/-- The three readers are safe exactly with a table that is clean for the challenge
    and the response. -/
theorem safe_iff_clean (hrows : Storable rows) :
    Safe rows challenge response ↔ Clean rows challenge response :=
  ⟨Safe.clean hrows, Clean.safe hrows⟩

end Lookup

/-- Keys `p` and `q`; the second row has a password for its remote. -/
def cleanRows : List Row :=
  [⟨some Service.keyP, some Service.hostOne, none⟩,
   ⟨some Service.keyQ, some Service.hostTwo, some Service.passwdX⟩]

theorem safe_iff_clean_two : Safe cleanRows (List.replicate 16 7)
    (vncResponse [113] (List.replicate 16 7)) := by
  have hstorable : Storable cleanRows := by
    unfold Storable
    decide
  have hfit : ∀ row ∈ cleanRows, row.Fits := by
    intro row hrow
    rcases List.mem_cons.mp hrow with rfl | hrow
    · exact ⟨_, rfl, by decide⟩
    · obtain rfl := List.mem_singleton.mp hrow
      exact ⟨_, rfl, by decide⟩
  refine (safe_iff_clean hstorable).mpr ⟨?_, ?_, by decide⟩
  · intro pre row post hrows _
    apply hfit
    rw [hrows]
    exact List.mem_append_right _ List.mem_cons_self
  · intro row hrow
    have hmem : row ∈ cleanRows := List.mem_of_find?_eq_some hrow
    rcases List.mem_cons.mp hmem with rfl | hmem
    · decide
    · obtain rfl := List.mem_singleton.mp hmem
      decide

/-- A key of nine bytes, which a `varchar(8)` takes. -/
def longKey : List Row := [⟨some ⟨List.replicate 9 97, by decide⟩, some ⟨[104], by decide⟩, none⟩]

/-- It is copied into eight. -/
theorem safe_long_key : ¬ ∀ rows challenge response, challenge.length = 16 →
    response.length = 16 → Storable rows → Safe rows challenge response := by
  intro h
  have hstorable : Storable longKey := by
    unfold Storable
    decide
  have hsafe := h longKey (List.replicate 16 7) (List.replicate 16 0) (by simp) (by simp) hstorable
  have hclean := hsafe.clean hstorable
  obtain ⟨key, hkey, hlen⟩ := hclean.scanned [] _ [] rfl (by simp)
  obtain rfl := Option.some.inj hkey
  exact absurd hlen (by decide)

end VncProxy.Handshake
