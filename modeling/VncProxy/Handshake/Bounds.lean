/-
  VncProxy.Handshake.Bounds

  The lengths and the indices of the dialogue with the remote server, for every
  stream of bytes that the remote may send after `connect_to` has succeeded.  The
  count of security types is a byte that the remote chooses; nothing compares it
  with the sixteen bytes of `buf`, or with the bytes that have arrived.
-/
import VncProxy.Handshake.Dialogue
import VncProxy.Handshake.Routing

namespace VncProxy.Handshake

open Lib (Prog Contract)

-- ============================================================================
-- The dialogue, cut at the list of types
-- ============================================================================

/-- `greetRemote` up to the loop over the security types: the array, the count, and
    the number of types received; `none` if it has returned. -/
def readTypes (clnt remote : Nat) (buf : List Byte) : Code (Option (List Byte × Int × Int)) := do
  let (n, buf) ← recv remote buf 12
  if n < 0 ∨ buf.take 12 ≠ version then
    closeBoth clnt remote
    return none
  if (← send remote version) < 0 then
    closeBoth clnt remote
    return none
  let (n, buf) ← recv remote buf 1
  if n < 0 then
    closeBoth clnt remote
    return none
  let authTypes := charToInt (← load buf 0)
  let (n, buf) ← recv remote buf (toSizeT authTypes)
  if n < 0 then
    closeBoth clnt remote
    return none
  return some (buf, authTypes, n)

/-- The loop reads the array at `0`, .., `auth_types - 1`. -/
theorem greetRemote_eq (clnt remote : Nat) (buf : List Byte) :
    greetRemote clnt remote buf = (do
      let some (buf, authTypes, _) ← readTypes clnt remote buf | return none
      return some (← scanTypes buf authTypes.toNat)) := by
  have hite : ∀ {α β : Type} {c : Prop} [Decidable c] (p q : Code α) (f : α → Code β),
      (if c then p else q) >>= f = if c then p >>= f else q >>= f := by
    intro α β c _ p q f
    split <;> rfl
  unfold greetRemote readTypes
  simp only [bind_assoc, pure_bind, hite]

/-- `finish`, once the remote is connected. -/
def connected (clnt remote : Nat) (arrays : Arrays) (info : VncAuthInfo) : Code Unit := do
  let some (noneAuth, vncAuth) ← greetRemote clnt remote arrays.buf | return ()
  if ¬ (← answerRemote clnt remote info arrays noneAuth vncAuth) then
    return ()
  verify ((← setNonblocking clnt true) = 0)
  verify ((← setNonblocking remote true) = 0)
  tieFd info.forwardKey clnt remote

theorem finish_matched {clnt : Nat} {arrays : Arrays} {info : VncAuthInfo}
    (h : info.matched = true) : finish clnt arrays info SQLITE_OK = (do
      let some remote ← connectTo info.destAddr | close clnt
      connected clnt remote arrays info) := by
  unfold finish
  rw [if_neg (not_not.mpr rfl), if_neg (not_not.mpr h)]
  rfl

-- ============================================================================
-- What a remote can send
-- ============================================================================

/-- The remote sends the bytes of the state and closes.  A recv waits until it is
    filled or the stream is at its end, or it fails. -/
def fed (remote : Nat) : Contract Call Call.Ans (List Byte) where
  next stream op a :=
    match op, a with
    | .recv fd len, (some _ : Option (List Byte)) =>
      if fd = remote then stream.drop len else stream
    | _, _ => stream
  owes _ op := ∀ len, op = .recv remote len → len ≤ 16
  grants stream op a :=
    match op, a with
    | .recv fd len, (r : Option (List Byte)) =>
      fd = remote → r = none ∨ r = some (stream.take len)
    | _, _ => True

/-- No recv on the socket of the remote asks for more than the sixteen bytes of `buf`
    and of `challenge`, and the loop over the security types stays inside `buf` and
    inside the types that have been received. -/
structure InBounds (clnt remote : Nat) (arrays : Arrays) (info : VncAuthInfo)
    (stream : List Byte) : Prop where
  recv : ∀ log q, Prog.Goes (connected clnt remote arrays info) log q →
    (fed remote).Kept stream log → ∀ len next, q = .call (.recv remote len) next → len ≤ 16
  read : ∀ log buf authTypes n, Prog.Goes (readTypes clnt remote arrays.buf) log
      (.done (some (buf, authTypes, n))) → (fed remote).Kept stream log →
    ∀ i ∈ List.range authTypes.toNat, i < buf.length ∧ i < 16 ∧ (i : Int) < n

/-- The stream passes for the version.  If it ends early, what the client has sent is
    still there behind it. -/
def PassesVersion (stream : List Byte) : Prop := 2 ≤ stream.length ∧ stream.take 12 <+: version

/-- After the version come a count that fits into `buf` and as many types. -/
def Counted (stream : List Byte) : Prop :=
  PassesVersion stream → ∃ count types, stream = version ++ count :: types ∧
    count.toNat ≤ 16 ∧ count.toNat ≤ types.length

/-- What the dialogue with the client leaves in `buf`. -/
def Greeted (buf : List Byte) : Prop :=
  ∃ type rest, buf = type :: 2 :: version.drop 2 ++ 0 :: rest ∧ rest.length = 3

section Rules

variable {clnt remote : Nat} {arrays : Arrays} {info : VncAuthInfo} {stream : List Byte}

@[simp] theorem fed_owes (op : Call) :
    (fed remote).owes stream op ↔ ∀ len, op = .recv remote len → len ≤ 16 := Iff.rfl

@[simp] theorem fed_next_send {fd : Nat} {buf : List Byte} {n : Int} :
    (fed remote).next stream (.send fd buf) n = stream := rfl

theorem wp_closeBoth_fed {Q : List Byte → Unit → Prop} :
    (closeBoth clnt remote).wp (fed remote) Q stream ↔ Q stream () := by
  unfold closeBoth
  simp [fed]
  exact ⟨fun h => h (), fun h _ => h⟩

theorem wp_send_fed {fd : Nat} {buf : List Byte} {Q : List Byte → Int → Prop} :
    (send fd buf).wp (fed remote) Q stream ↔ ∀ n, Q stream n := by
  rw [wp_send]
  simp [fed]

theorem wp_recv_fed {arr : List Byte} {len : Nat} {Q : List Byte → Int × List Byte → Prop} :
    (recv remote arr len).wp (fed remote) Q stream ↔ len ≤ 16 ∧ Q stream (-1, arr) ∧
      ((stream.take len).length ≤ arr.length →
        Q (stream.drop len) ((stream.take len).length, overwrite arr (stream.take len))) := by
  rw [wp_recv]
  simp [fed]

/-- The answer to the remote receives sixteen bytes into `challenge`. -/
theorem answerRemote_fed {noneAuth vncAuth : Bool} :
    (answerRemote clnt remote info arrays noneAuth vncAuth).wp (fed remote)
      (fun _ _ => True) stream := by
  unfold answerRemote closeBoth authKey desBlocks
  simp

/-- What the loop needs of the array, the count and the number of types received. -/
def ReadOk (x : Option (List Byte × Int × Int)) : Prop :=
  ∀ buf authTypes n, x = some (buf, authTypes, n) →
    ∀ i ∈ List.range authTypes.toNat, i < buf.length ∧ i < 16 ∧ (i : Int) < n

theorem readOk_none : ReadOk none := by
  intro buf authTypes n h
  cases h

/-- After the list of types nothing more can go wrong. -/
theorem connected_fed : (connected clnt remote arrays info).wp (fed remote) (fun _ _ => True) stream ↔
    (readTypes clnt remote arrays.buf).wp (fed remote) (fun _ _ => True) stream := by
  have hrest : ∀ stream (types : Bool × Bool), (do
      if ¬ (← answerRemote clnt remote info arrays types.1 types.2) then
        return ()
      verify ((← setNonblocking clnt true) = 0)
      verify ((← setNonblocking remote true) = 0)
      tieFd info.forwardKey clnt remote : Code Unit).wp (fed remote) (fun _ _ => True) stream := by
    intro stream types
    rw [Prog.wp_bind]
    apply Prog.wp_mono answerRemote_fed
    intro stream ok _
    simp
  unfold connected
  rw [greetRemote_eq, Prog.wp_bind, Prog.wp_bind]
  apply Prog.wp_congr
  intro stream x
  cases x with
  | none => exact iff_of_true trivial trivial
  | some x =>
    obtain ⟨buf, authTypes, n⟩ := x
    simp only [iff_true]
    show Prog.wp _ (scanTypes _ _ >>= _) _ _
    rw [Prog.wp_bind, wp_scanTypes]
    refine ⟨fun _ => hrest stream ((buf.take authTypes.toNat).contains 1,
      (buf.take authTypes.toNat).contains 2), ?_⟩
    simp

theorem inBounds_iff : InBounds clnt remote arrays info stream ↔
    (readTypes clnt remote arrays.buf).wp (fed remote) (fun _ x => ReadOk x) stream := by
  apply Iff.intro
  · intro h
    have hrecv : (connected clnt remote arrays info).wp (fed remote) (fun _ _ => True) stream := by
      rw [Prog.wp_iff_goes]
      intro log q hgoes hkept
      refine ⟨?_, fun _ _ => trivial⟩
      rintro op next rfl len rfl
      exact h.recv log _ hgoes hkept len next rfl
    have htypes := Prog.wp_iff_goes.mp (connected_fed.mp hrecv)
    rw [Prog.wp_iff_goes]
    intro log q hgoes hkept
    refine ⟨(htypes log q hgoes hkept).1, ?_⟩
    rintro x rfl buf authTypes n rfl
    exact h.read log buf authTypes n hgoes hkept
  · intro h
    refine ⟨?_, ?_⟩
    · rintro log q hgoes hkept len next rfl
      have hrecv : (connected clnt remote arrays info).wp (fed remote) (fun _ _ => True) stream :=
        connected_fed.mpr (Prog.wp_mono h fun _ _ _ => trivial)
      exact (Prog.wp_iff_goes.mp hrecv log _ hgoes hkept).1 _ next rfl len rfl
    · intro log buf authTypes n hgoes hkept
      exact (Prog.wp_iff_goes.mp h log _ hgoes hkept).2 _ rfl buf authTypes n rfl

end Rules

-- ============================================================================
-- The version and the count
-- ============================================================================

section Counts

variable {buf stream : List Byte}

/-- A byte that is read through a `char`. -/
theorem charToInt_eq (b : Byte) :
    charToInt b = if b.toNat < 128 then (b.toNat : Int) else b.toNat - 256 := by
  have hb : charToInt b = (b.toNat : Int).bmod 256 := by
    rw [charToInt, Int8.toInt, UInt8.toBitVec_toInt8, BitVec.toInt_eq_toNat_bmod]
    rfl
  have hlt := b.toNat_lt
  rw [hb, Int.bmod]
  split <;> split <;> omega

theorem toSizeT_charToInt_le {b : Byte} : toSizeT (charToInt b) ≤ 16 ↔ b.toNat ≤ 16 := by
  have hlt := b.toNat_lt
  unfold toSizeT
  rw [charToInt_eq]
  split <;> omega

/-- Where the version comes to its end early, the rest of it is still there. -/
theorem PassesVersion.overwrite {rest : List Byte} {type : Byte} (h : PassesVersion stream) :
    overwrite (type :: 2 :: version.drop 2 ++ 0 :: rest) (stream.take 12) =
      version ++ 0 :: rest := by
  obtain ⟨htwo, hpre⟩ := h
  have hlen : (stream.take 12).length = min 12 stream.length := List.length_take
  obtain ⟨n, hn, htake⟩ : ∃ n, n ≤ 10 ∧ stream.take 12 = version.take (n + 2) := by
    refine ⟨min 12 stream.length - 2, by omega, ?_⟩
    rw [Nat.sub_add_cancel (by omega), ← hlen]
    exact List.prefix_iff_eq_take.mp hpre
  have hversion : version.length = 12 := rfl
  have hcount : (version.take (n + 2)).length = n + 2 := by
    rw [List.length_take]
    omega
  have hrest : (version.drop 2 ++ 0 :: rest).drop n = version.drop (n + 2) ++ 0 :: rest := by
    rw [List.drop_append_of_le_length (by rw [List.length_drop]; omega), List.drop_drop,
      Nat.add_comm]
  unfold Handshake.overwrite
  rw [htake, hcount, List.cons_append, List.cons_append, List.drop_succ_cons, List.drop_succ_cons,
    hrest, ← List.append_assoc, List.take_append_drop]

theorem PassesVersion.split {count : Byte} {types : List Byte} (h : PassesVersion stream)
    (hdrop : stream.drop 12 = count :: types) : stream = version ++ count :: types := by
  have hlen : 12 < stream.length := by
    have hcount := congrArg List.length hdrop
    rw [List.length_drop, List.length_cons] at hcount
    omega
  have htake : stream.take 12 = version := by
    apply h.2.eq_of_length
    rw [List.length_take]
    simp [version]
    omega
  rw [← hdrop, ← htake, List.take_append_drop]

/-- The count takes the first place. -/
theorem overwrite_count {arr : List Byte} {count : Byte} :
    overwrite arr [count] = count :: arr.tail := by
  rw [overwrite, List.length_singleton, List.drop_one]
  rfl

/-- The stream passes exactly if it makes the version of what the client has left. -/
theorem overwrite_version (hbuf : Greeted buf) :
    (overwrite buf (stream.take 12)).take 12 = version ↔ PassesVersion stream := by
  obtain ⟨type, rest, rfl, hrest⟩ := hbuf
  apply Iff.intro
  · intro h
    unfold overwrite at h
    have hlen : (stream.take 12).length ≤ 12 := List.length_take_le _ _
    refine ⟨?_, ?_⟩
    · match stream, h with
      | [], h => simp [version] at h
      | [_], h => simp [version] at h
      | _ :: _ :: _, _ => simp
    · rw [← h, List.prefix_take_iff]
      exact ⟨List.prefix_append _ _, hlen⟩
  · intro h
    rw [h.overwrite]
    rfl

/-- A list of types that fits is read inside what has arrived of it if it is all
    there. -/
theorem readOk_iff {arr types : List Byte} {count : Byte} (harr : arr.length = 16)
    (hcount : count.toNat ≤ 16) :
    ReadOk (some (overwrite arr (types.take count.toNat), charToInt count,
        ((types.take count.toNat).length : Int))) ↔ count.toNat ≤ types.length := by
  have hint : (charToInt count).toNat = count.toNat := by
    rw [charToInt_eq, if_pos (by omega), Int.toNat_natCast]
  have htake : (types.take count.toNat).length = min count.toNat types.length := List.length_take
  have harr' : (overwrite arr (types.take count.toNat)).length = 16 := by
    rw [length_overwrite (by omega), harr]
  apply Iff.intro
  · intro h
    by_cases hzero : count.toNat = 0
    · omega
    · have hlast := (h _ _ _ rfl (count.toNat - 1) (by rw [hint, List.mem_range]; omega)).2.2
      omega
  · rintro h buf authTypes n ⟨⟩ i hi
    rw [hint, List.mem_range] at hi
    refine ⟨?_, ?_, ?_⟩
    · omega
    · omega
    · omega

/-- A remote that passes for the version has to send a count that fits, and as many
    types. -/
theorem readTypes_fed {clnt remote : Nat} (hbuf : Greeted buf) :
    (readTypes clnt remote buf).wp (fed remote) (fun _ x => ReadOk x) stream ↔ Counted stream := by
  have hlen : buf.length = 16 := by
    obtain ⟨type, rest, rfl, hrest⟩ := hbuf
    simp [version, hrest]
  have htake : (stream.take 12).length ≤ buf.length := by
    have := List.length_take_le 12 stream
    omega
  have harr : (overwrite buf (stream.take 12)).length = 16 := by
    rw [length_overwrite htake, hlen]
  unfold readTypes Counted
  simp only [Prog.wp_bind, Prog.wp_ite, Prog.wp_pure, wp_recv_fed, wp_closeBoth_fed, wp_send_fed,
    wp_load, readOk_none]
  simp only [Int.reduceNeg, Int.reduceLT, true_or, not_true, false_imp_iff, imp_true_iff, true_and,
    and_true, natCast_not_neg, false_or, not_not, not_false_eq_true, true_imp_iff,
    Nat.reduceLeDiff, fed_owes, reduceCtorEq, overwrite_version hbuf, ne_eq, harr, htake]
  apply imp_congr_right
  intro hpass
  cases hdrop : stream.drop 12 with
  | nil =>
    -- no count has arrived, and the `R` of the version is taken for it
    obtain ⟨type, rest, rfl, -⟩ := hbuf
    rw [hpass.overwrite]
    apply iff_of_false
    · intro h
      have hcount := (h 0 (by omega) (by simp) 82 rfl).1
      rw [toSizeT_charToInt_le] at hcount
      exact absurd hcount (by decide)
    · rintro ⟨count, types, rfl, -⟩
      cases hdrop
  | cons count types =>
    have hstream := hpass.split hdrop
    have hlen' : (count :: (overwrite buf (stream.take 12)).tail).length = 16 := by
      simp [harr]
    have htypes : (types.take (toSizeT (charToInt count))).length ≤ toSizeT (charToInt count) :=
      List.length_take_le _ _
    simp only [List.take_succ_cons, List.take_zero, List.drop_succ_cons, List.drop_zero,
      overwrite_count, hlen', List.getElem?_cons_zero]
    apply Iff.intro
    · intro h
      obtain ⟨hle, hread⟩ := h 0 (by omega) (by simp) count rfl
      have hcount := toSizeT_charToInt_le.mp hle
      have hread := hread (by omega)
      rw [(toSizeT_charToInt hle).1, readOk_iff hlen' hcount] at hread
      exact ⟨count, types, hstream, hcount, hread⟩
    · rintro ⟨count', types', hstream', hcount, hall⟩ n - - b hb
      obtain ⟨rfl, rfl⟩ := List.cons.inj (List.append_cancel_left (hstream.symm.trans hstream'))
      obtain rfl := Option.some.inj hb
      have hle := toSizeT_charToInt_le.mpr hcount
      refine ⟨hle, ?_⟩
      intro _
      rw [(toSizeT_charToInt hle).1, readOk_iff hlen' hcount]
      exact hall

end Counts

-- ============================================================================
-- What the client has left
-- ============================================================================

/-- A recv returns at most the bytes that it is asked for. -/
def Sized : Exchange → Prop
  | ⟨.recv _ len, (r : Option (List Byte))⟩ => ∀ bytes, r = some bytes → bytes.length ≤ len
  | _ => True

instance : DecidablePred Sized := fun x =>
  match x with
  | ⟨.recv _ _, none⟩ => isTrue fun _ h => by cases h
  | ⟨.recv _ len, some bytes⟩ => decidable_of_iff (bytes.length ≤ len)
      ⟨fun h _ hbytes => Option.some.inj hbytes ▸ h, fun h => h bytes rfl⟩
  | ⟨.setNonblocking _ _, _⟩ | ⟨.send _ _, _⟩ | ⟨.close _, _⟩ | ⟨.rand, _⟩ | ⟨.connectTo _, _⟩
  | ⟨.tieFd _ _ _, _⟩ | ⟨.lock, _⟩ | ⟨.unlock, _⟩ | ⟨.selectRoutes, _⟩ | ⟨.selectKeys, _⟩
  | ⟨.cleanup _, _⟩ | ⟨.rfbUseKey _, _⟩ | ⟨.rfbDes _, _⟩ => isTrue trivial

def sized : Contract Call Call.Ans Unit where
  next _ _ _ := ()
  owes _ _ := True
  grants _ op a := Sized ⟨op, a⟩

section Greeting

variable {clnt : Nat} {buf response : List Byte}

theorem sized_kept {log : List Exchange} (h : ∀ x ∈ log, Sized x) : sized.Kept () log := by
  induction log with
  | nil => trivial
  | cons x log ih =>
    obtain ⟨hx, hlog⟩ := List.forall_mem_cons.mp h
    exact ⟨hx, ih hlog⟩

/-- An array that compares equal to the version holds it, and its NUL. -/
theorem eq_version_append {arr : List Byte} (hlen : arr.length = 16)
    (hcmp : cString (arr.set 12 0) = version) :
    ∃ rest, arr.set 12 0 = version ++ 0 :: rest ∧ rest.length = 3 := by
  have hfront : version <+: arr.set 12 0 := by
    rw [← hcmp]
    exact List.takeWhile_prefix _
  obtain ⟨rest, hrest⟩ := hfront
  have hcount := congrArg List.length hrest
  have hversion : version.length = 12 := rfl
  rw [List.length_append, List.length_set, hlen, hversion] at hcount
  have hnul : (version ++ rest)[12]? = some 0 := by
    rw [hrest, List.getElem?_set_self (by omega)]
  match rest, hcount, hnul with
  | b :: rest, hcount, hnul =>
    obtain rfl : b = 0 := Option.some.inj hnul
    refine ⟨rest, hrest.symm, ?_⟩
    rw [List.length_cons] at hcount
    omega

/-- The security type of the client, if it sends one, takes the first place. -/
theorem greeted_type {rest bytes : List Byte} (hrest : rest.length = 3) (hbytes : bytes.length ≤ 1) :
    Greeted (overwrite (((version ++ 0 :: rest).set 0 1).set 1 2) bytes) := by
  match bytes, hbytes with
  | [], _ => exact ⟨1, rest, rfl, hrest⟩
  | [type], _ => exact ⟨type, rest, rfl, hrest⟩

@[simp] theorem sized_owes (u : Unit) (op : Call) : sized.owes u op := trivial

@[simp] theorem sized_next (u : Unit) (op : Call) (a : op.Ans) : sized.next u op a = () := rfl

@[simp] theorem sized_recv {u : Unit} {fd len : Nat} {r : Option (List Byte)} :
    sized.grants u (.recv fd len) r ↔ ∀ bytes, r = some bytes → bytes.length ≤ len := Iff.rfl

theorem Greeted.length (h : Greeted buf) : buf.length = 16 := by
  obtain ⟨type, rest, rfl, hrest⟩ := h
  simp [version, hrest]

theorem greetClient_sized (hbuf : buf.length = 16) :
    (greetClient clnt buf response).wp sized
      (fun _ r => ∀ arrays, r = some arrays → Greeted arrays.buf ∧ arrays.challenge.length = 16)
      () := by
  unfold greetClient
  simp
  intro _ _ _ _ _ _ bytes _ hlen hcmp _ _ _ types htypes _
  have harr : (overwrite buf bytes).length = 16 := by rw [length_overwrite hlen, hbuf]
  obtain ⟨rest, heq, hrest⟩ := eq_version_append harr hcmp
  apply wp_randBytes trivial (fun _ => rfl)
  intro challenge hchallenge _ _ _ answer _ _
  rw [heq]
  exact ⟨greeted_type hrest htypes, hchallenge⟩

/-- Once the client is greeted and the look-up has found a row, `run` connects to the
    address of the row. -/
theorem run_connected {pre during : List Exchange} {arrays : Arrays} {info : VncAuthInfo}
    (hgreet : Prog.Goes (greetClient clnt buf response) pre (.done (some arrays)))
    (hauth : Prog.Goes (authenticate arrays.challenge arrays.response) during
      (.done (info, SQLITE_OK)))
    (hmatched : info.matched = true) (remote : Nat) :
    Prog.Goes (run clnt buf response) (pre ++ during ++ [⟨.connectTo info.destAddr, some remote⟩])
      (connected clnt remote arrays info) := by
  rw [run_eq, List.append_assoc]
  apply hgreet.bind
  apply hauth.bind
  show Prog.Goes (finish clnt arrays info SQLITE_OK) _ _
  rw [finish_matched hmatched]
  exact Prog.Goes.call (Prog.Goes.refl _)

/-- Once the client is greeted and the look-up has found a row, `run` connects to the
    address of the row.  Whatever was exchanged until then, the lengths and indices of
    the dialogue with the remote are in bounds exactly if the remote does not pass for
    the version, or sends a count that fits and as many types. -/
theorem remote_bounds (hbuf : buf.length = 16) {pre during : List Exchange} {arrays : Arrays}
    {info : VncAuthInfo}
    (hgreet : Prog.Goes (greetClient clnt buf response) pre (.done (some arrays)))
    (hsized : ∀ x ∈ pre, Sized x)
    (hauth : Prog.Goes (authenticate arrays.challenge arrays.response) during
      (.done (info, SQLITE_OK)))
    (hmatched : info.matched = true) (remote : Nat) :
    (Prog.Goes (run clnt buf response)
        (pre ++ during ++ [⟨.connectTo info.destAddr, some remote⟩])
        (connected clnt remote arrays info) ∧
      arrays.buf.length = 16 ∧ arrays.challenge.length = 16) ∧
    ∀ stream, InBounds clnt remote arrays info stream ↔ Counted stream := by
  obtain ⟨hgreeted, hchallenge⟩ := (Prog.wp_iff_goes.mp
    (@greetClient_sized clnt _ response hbuf) pre _ hgreet
    (sized_kept hsized)).2 _ rfl arrays rfl
  refine ⟨⟨run_connected hgreet hauth hmatched remote, hgreeted.length, hchallenge⟩, ?_⟩
  intro stream
  rw [inBounds_iff, readTypes_fed hgreeted]

end Greeting

/-- A client that answers a challenge of sevens with the key `p`, and the one row of
    the table. -/
def soleRow : List Row := [⟨some Service.keyP, some Service.hostOne, none⟩]

def soleGreeting : List Exchange :=
  [⟨.setNonblocking 3 false, (0 : Int)⟩, ⟨.send 3 version, (12 : Int)⟩,
    ⟨.recv 3 12, some version⟩, ⟨.send 3 [1, 2], (2 : Int)⟩, ⟨.recv 3 1, some [2]⟩] ++
  List.replicate 16 ⟨.rand, (7 : Nat)⟩ ++
  [⟨.send 3 (List.replicate 16 7), (16 : Int)⟩,
    ⟨.recv 3 16, some (vncResponse [112] (List.replicate 16 7))⟩]

def soleLookup : List Exchange :=
  [⟨.lock, ()⟩, ⟨.selectRoutes, (soleRow, SQLITE_OK)⟩,
    ⟨.rfbUseKey (D3des.rfbDesKey [112, 0, 0, 0, 0, 0, 0, 0] .EN0), ()⟩,
    ⟨.rfbDes (List.replicate 8 7), (vncResponse [112] (List.replicate 16 7)).take 8⟩,
    ⟨.rfbDes (List.replicate 8 7), (vncResponse [112] (List.replicate 16 7)).drop 8⟩,
    ⟨.unlock, ()⟩]

def soleArrays : Arrays :=
  ⟨[2, 2] ++ version.drop 2 ++ [0, 0, 0, 0], List.replicate 16 7,
    vncResponse [112] (List.replicate 16 7)⟩

theorem soleGreeting_goes : Prog.Goes (greetClient 3 (List.replicate 16 0) (List.replicate 16 0))
    soleGreeting (.done (some soleArrays)) :=
  Prog.goes_of_result (by decide +kernel)

theorem soleLookup_goes : Prog.Goes (authenticate soleArrays.challenge soleArrays.response)
    soleLookup (.done (scan soleArrays.challenge soleArrays.response soleRow, SQLITE_OK)) :=
  Prog.goes_of_result (by decide +kernel)

/-- A remote that offers one type, and sends it. -/
theorem remote_bounds_one : InBounds 3 5 soleArrays
    (scan soleArrays.challenge soleArrays.response soleRow) (version ++ [1, 1]) := by
  have hmatched : (scan soleArrays.challenge soleArrays.response soleRow).matched = true := by
    decide +kernel
  have hbounds := remote_bounds (by simp) soleGreeting_goes (by decide +kernel) soleLookup_goes
    hmatched 5
  apply (hbounds.2 _).mpr
  intro _
  exact ⟨1, [1], rfl, by decide, by decide⟩

/-- A remote that offers seventeen: so many bytes are asked for. -/
theorem remote_bounds_seventeen :
    Prog.Goes (run 3 (List.replicate 16 0) (List.replicate 16 0))
      (soleGreeting ++ soleLookup ++ [⟨.connectTo [104, 58, 49], some 5⟩])
      (connected 3 5 soleArrays (scan soleArrays.challenge soleArrays.response soleRow)) ∧
    ¬ ∀ stream, InBounds 3 5 soleArrays
      (scan soleArrays.challenge soleArrays.response soleRow) stream := by
  have hscan : (scan soleArrays.challenge soleArrays.response soleRow).matched = true ∧
      (scan soleArrays.challenge soleArrays.response soleRow).destAddr = [104, 58, 49] := by
    decide +kernel
  refine ⟨?_, ?_⟩
  · rw [← hscan.2]
    exact run_connected soleGreeting_goes soleLookup_goes hscan.1 5
  · intro h
    have hgreeted : Greeted soleArrays.buf := ⟨2, [0, 0, 0], rfl, rfl⟩
    have hpass : PassesVersion (version ++ [17]) := ⟨by decide, by decide⟩
    obtain ⟨count, types, heq, hcount, -⟩ :=
      (readTypes_fed hgreeted).mp (inBounds_iff.mp (h (version ++ [17]))) hpass
    obtain ⟨rfl, -⟩ := List.cons.inj (List.append_cancel_left heq)
    exact absurd hcount (by decide)

end VncProxy.Handshake
