/-
  VncProxy.Handshake.Truncation

  What becomes of a handshake when the streams of the client and of the remote end at
  any byte: a decision that rests on bytes that were not received shows when the same
  streams meet other contents of the arrays.
-/
import VncProxy.Handshake.Received

namespace VncProxy.Handshake

open Lib (Prog Contract)

-- ============================================================================
-- Decisions that rest on what was received
-- ============================================================================

/-- A recv has come back with fewer bytes than it was asked for. -/
def Truncated (log : List Exchange) : Prop :=
  ∃ fd len bytes, ⟨.recv fd len, (some bytes : Option (List Byte))⟩ ∈ log ∧ bytes.length < len

/-- For these streams, this table and this challenge: nothing undefined is met; after a
    field that is not complete, sockets are closed and nothing else; and whatever `run`
    calls, with `buf` and `response` as they are at first, it calls for any other
    contents as well. -/
structure Unswayed (clnt : Nat) (rows : List Row) (client server challenge : List Byte) :
    Prop where
  defined : ∀ buf response, buf.length = 16 → response.length = 16 →
    ∀ log q, Prog.Goes (run clnt buf response) log q →
      (piped clnt rows).Kept (Streams.start client server challenge) log →
        ∀ next, q ≠ .call .undefined next
  received : ∀ buf response, buf.length = 16 → response.length = 16 →
    ∀ log q, Prog.Goes (run clnt buf response) log q →
      (piped clnt rows).Kept (Streams.start client server challenge) log → Truncated log →
        ∀ op next, q = .call op next → ∃ fd, op = .close fd
  same : ∀ buf response, buf.length = 16 → response.length = 16 →
    ∀ buf' response', buf'.length = 16 → response'.length = 16 →
      ∀ log q, Prog.Goes (run clnt buf response) log q →
        (piped clnt rows).Kept (Streams.start client server challenge) log →
          ∃ q', Prog.Goes (run clnt buf' response') log q' ∧ q'.head? = q.head?

-- ============================================================================
-- Two contents of the arrays
-- ============================================================================

section Same

variable {clnt remote : Nat} {rows : List Row} {client server challenge : List Byte}
variable {buf response buf' response' : List Byte} {s : Streams}

theorem agree_verify {α β : Type} {R : Streams → α → β → Prop} {p : Prop} [Decidable p]
    {f : Unit → Code α} {g : Unit → Code β}
    (h : p → Prog.Agree (piped clnt rows) R (f ()) (g ()) s) :
    Prog.Agree (piped clnt rows) R (verify p >>= f) (verify p >>= g) s := by
  unfold verify
  by_cases hp : p
  · rw [if_pos hp]
    exact h hp
  · rw [if_neg hp]
    exact ⟨_, rfl, fun a => a.elim⟩

/-- A recv leaves the same bytes in front of what was there. -/
theorem agree_recv {α β : Type} {R : Streams → α → β → Prop} {fd len : Nat} {arr arr' : List Byte}
    {f : Int × List Byte → Code α} {g : Int × List Byte → Code β}
    (hlen : arr.length = arr'.length)
    (hfail : Prog.Agree (piped clnt rows) R (f (-1, arr)) (g (-1, arr')) s)
    (hrecv : ∀ bytes, bytes = (if fd = clnt then s.client else s.server).take len →
      bytes.length ≤ arr.length →
        Prog.Agree (piped clnt rows) R (f (bytes.length, overwrite arr bytes))
          (g (bytes.length, overwrite arr' bytes)) (s.recvd clnt fd len bytes)) :
    Prog.Agree (piped clnt rows) R (recv fd arr len >>= f) (recv fd arr' len >>= g) s := by
  unfold recv
  rw [bind_assoc, bind_assoc]
  apply Prog.Agree.call
  intro r hr
  cases r with
  | none => exact hfail
  | some bytes =>
    obtain hr | hr := hr
    · cases hr
    have hbytes := Option.some.inj hr
    show Prog.Agree _ _ ((if _ then _ else _) >>= f) ((if _ then _ else _) >>= g) _
    by_cases hfit : bytes.length ≤ arr.length
    · rw [if_pos hfit, if_pos (hlen ▸ hfit)]
      exact hrecv bytes hbytes hfit
    · rw [if_neg hfit, if_neg (hlen ▸ hfit)]
      exact ⟨_, rfl, fun a => a.elim⟩

/-- Both operators have returned, or both go on with arrays that differ in the last
    three bytes of `buf`. -/
def Matching (client server challenge buf buf' : List Byte) (s : Streams) :
    Option Arrays → Option Arrays → Prop
  | none, none => True
  | some arrays, some arrays' => client.take 12 <+: version ∧
      s = ⟨client.drop 29, server, [], none, false⟩ ∧
      arrays = ⟨clientBuf buf client, challenge, (client.drop 13).take 16⟩ ∧
      arrays' = ⟨clientBuf buf' client, challenge, (client.drop 13).take 16⟩
  | _, _ => False

theorem greetClient_agree (hbuf : buf.length = 16) (hbuf' : buf'.length = 16)
    (hresponse : response.length = 16) (hresponse' : response'.length = 16)
    (hchallenge : challenge.length = 16)
    (hlong : client.take 12 <+: version → 29 ≤ client.length) :
    Prog.Agree (piped clnt rows) (Matching client server challenge buf buf')
      (greetClient clnt buf response) (greetClient clnt buf' response')
      (Streams.start client server challenge) := by
  have hclose : ∀ s, Prog.Agree (piped clnt rows) (Matching client server challenge buf buf')
      (do
        close clnt
        return none)
      (do
        close clnt
        return none) s := by
    intro s
    apply Prog.Agree.self
    rw [Prog.wp_bind, wp_close_piped]
    trivial
  have htake : (client.take 12).length ≤ 12 := List.length_take_le _ _
  have harr : (overwrite buf (client.take 12)).length = 16 := by
    rw [length_overwrite] <;> omega
  have harr' : (overwrite buf' (client.take 12)).length = 16 := by
    rw [length_overwrite] <;> omega
  have hcompare : ∀ {buf buf' : List Byte}, buf'.length = 16 →
      cString ((overwrite buf (client.take 12)).set 12 0) = version →
        cString ((overwrite buf' (client.take 12)).set 12 0) = version := by
    intro buf buf' hbuf' hcmp
    have hpre := prefix_of_compare hcmp
    rw [(client_parts hpre (hlong hpre)).1]
    exact compare_whole hbuf'
  unfold greetClient
  apply Prog.Agree.call
  intro r _
  apply agree_verify
  intro _
  apply Prog.Agree.call
  intro n _
  by_cases hn : n < 0
  · rw [if_pos hn, if_pos hn]
    exact hclose _
  rw [if_neg hn, if_neg hn]
  apply agree_recv (by rw [hbuf, hbuf'])
  · exact hclose _
  rintro bytes hbytes -
  obtain rfl : bytes = client.take 12 := by
    rw [hbytes, if_pos rfl]
    rfl
  simp only [natCast_not_neg, if_false]
  by_cases hcmp : cString ((overwrite buf (client.take 12)).set 12 0) = version
  · have hcmp' := hcompare hbuf' hcmp
    rw [if_neg (not_not.mpr hcmp), if_neg (not_not.mpr hcmp')]
    have hlong := hlong (prefix_of_compare hcmp)
    have hshort : ∀ k, k ≤ 29 → decide (client.length < k) = false := by
      intro k hk
      rw [decide_eq_false_iff_not]
      omega
    rw [take_types (by rw [List.length_set, harr]; decide),
      take_types (by rw [List.length_set, harr']; decide)]
    show Prog.Agree _ _ _ _
      (Streams.recvd ⟨client, server, challenge, none, false⟩ clnt clnt 12 (client.take 12))
    rw [Streams.recvd_client, hshort 12 (by omega)]
    apply Prog.Agree.call
    intro n _
    by_cases hn : n < 0
    · rw [if_pos hn, if_pos hn]
      exact hclose _
    rw [if_neg hn, if_neg hn]
    apply agree_recv (by simp [harr, harr'])
    · exact hclose _
    rintro type htype -
    obtain rfl : type = (client.drop 12).take 1 := by
      rw [htype, if_pos rfl]
      rfl
    simp only [natCast_not_neg, if_false]
    show Prog.Agree _ _ _ _ (Streams.recvd ⟨client.drop 12, server, challenge, none, false⟩ clnt
      clnt 1 ((client.drop 12).take 1))
    have htype : decide ((client.drop 12).length < 1) = false := by
      rw [List.length_drop, decide_eq_false_iff_not]
      omega
    rw [Streams.recvd_client, htype, List.drop_drop]
    apply Prog.Agree.bind (R := fun s a b =>
      a = challenge ∧ b = challenge ∧ s = ⟨client.drop 13, server, [], none, false⟩)
    · apply Prog.Agree.self
      rw [← hchallenge]
      exact (wp_randBytes_piped (s := ⟨client.drop 13, server, challenge, none, false⟩)
        (by omega)).mpr ⟨rfl, rfl, rfl, rfl⟩
    rintro _ _ _ ⟨rfl, rfl, rfl⟩
    apply Prog.Agree.call
    intro n _
    by_cases hn : n < 0
    · rw [if_pos hn, if_pos hn]
      exact hclose _
    rw [if_neg hn, if_neg hn]
    apply agree_recv (by rw [hresponse, hresponse'])
    · exact hclose _
    rintro answer hanswer -
    obtain rfl : answer = (client.drop 13).take 16 := by
      rw [hanswer, if_pos rfl]
      rfl
    have hanswer : ((client.drop 13).take 16).length = 16 := by
      rw [List.length_take, List.length_drop]
      omega
    have hall : decide ((client.drop 13).length < 16) = false := by
      rw [List.length_drop, decide_eq_false_iff_not]
      omega
    simp only [natCast_not_neg, if_false]
    apply Prog.Agree.done
    refine ⟨prefix_of_compare hcmp, ?_, ?_, ?_⟩
    · show Streams.recvd ⟨client.drop 13, server, [], none, false⟩ clnt clnt 16 _ = _
      rw [Streams.recvd_client, hall, List.drop_drop]
      rfl
    · rw [overwrite_all (hanswer.trans hresponse.symm)]
      rfl
    · rw [overwrite_all (hanswer.trans hresponse'.symm)]
      rfl
  · have hcmp' : ¬ cString ((overwrite buf' (client.take 12)).set 12 0) = version :=
      fun hcmp' => hcmp (hcompare hbuf hcmp')
    rw [if_pos hcmp, if_pos hcmp']
    exact hclose _

/-- Both operators have returned, or both have received the same types. -/
def Offered (server buf buf' : List Byte) (_ : Streams) :
    Option (List Byte × Int × Int) → Option (List Byte × Int × Int) → Prop
  | none, none => True
  | some x, some x' => ∃ count types n, server = version ++ count :: types ∧
      x = (overwrite (count :: (overwrite buf version).tail)
        (types.take (toSizeT (charToInt count))), charToInt count, n) ∧
      x' = (overwrite (count :: (overwrite buf' version).tail)
        (types.take (toSizeT (charToInt count))), charToInt count, n)
  | _, _ => False

theorem readTypes_agree {register : Option D3des.Register} (hbuf : Greeted buf)
    (hbuf' : Greeted buf') (hne : remote ≠ clnt)
    (hserver : PassesVersion server → ∃ count types, server = version ++ count :: types) :
    Prog.Agree (piped clnt rows) (Offered server buf buf') (readTypes clnt remote buf)
      (readTypes clnt remote buf') ⟨client, server, challenge, register, false⟩ := by
  have hclose : ∀ s, Prog.Agree (piped clnt rows) (Offered server buf buf')
      (do
        closeBoth clnt remote
        return none)
      (do
        closeBoth clnt remote
        return none) s := by
    intro s
    apply Prog.Agree.self
    rw [Prog.wp_bind, wp_closeBoth_piped]
    trivial
  unfold readTypes
  apply agree_recv (by rw [hbuf.length, hbuf'.length])
  · exact hclose _
  rintro bytes hbytes -
  obtain rfl : bytes = server.take 12 := by rw [hbytes, if_neg hne]
  have hcond : ∀ {buf : List Byte}, Greeted buf → ((((server.take 12).length : Int) < 0 ∨
      (overwrite buf (server.take 12)).take 12 ≠ version) ↔ ¬ PassesVersion server) := by
    intro buf hbuf
    rw [or_iff_right (natCast_not_neg _), ne_eq, overwrite_version hbuf]
  dsimp only
  by_cases hpass : PassesVersion server
  · rw [if_neg (fun h => (hcond hbuf).mp h hpass), if_neg (fun h => (hcond hbuf').mp h hpass)]
    obtain ⟨count, types, rfl⟩ := hserver hpass
    have hversion : version.length = 12 := rfl
    have hlen : decide ((version ++ count :: types).length < 12) = false := by
      rw [decide_eq_false_iff_not, List.length_append]
      omega
    have hfirst : (version ++ count :: types).take 12 = version := rfl
    have hrest : (version ++ count :: types).drop 12 = count :: types := rfl
    have hone : decide ((count :: types).length < 1) = false := by simp
    have harr : ∀ {buf : List Byte}, Greeted buf → (overwrite buf version).length = 16 := by
      intro buf hbuf
      rw [length_overwrite] <;> rw [hbuf.length]
      decide
    rw [Streams.recvd_server hne, hlen, hfirst, hrest]
    apply Prog.Agree.call
    intro n _
    by_cases hn : n < 0
    · rw [if_pos hn, if_pos hn]
      exact hclose _
    rw [if_neg hn, if_neg hn]
    apply agree_recv (by rw [harr hbuf, harr hbuf'])
    · exact hclose _
    rintro bytes hbytes -
    obtain rfl : bytes = [count] := by
      rw [hbytes, if_neg hne]
      rfl
    simp only [natCast_not_neg, if_false]
    rw [overwrite_count, overwrite_count]
    show Prog.Agree _ _ (recv remote _ _ >>= _) (recv remote _ _ >>= _) (Streams.recvd
      ⟨client, count :: types, challenge, register, false⟩ clnt remote 1 ((count :: types).take 1))
    rw [Streams.recvd_server hne, hone]
    apply agree_recv (by simp [harr hbuf, harr hbuf'])
    · exact hclose _
    rintro bytes hbytes -
    obtain rfl : bytes = types.take (toSizeT (charToInt count)) := by
      rw [hbytes, if_neg hne]
      rfl
    simp only [natCast_not_neg, if_false]
    apply Prog.Agree.done
    exact ⟨count, types, _, rfl, rfl, rfl⟩
  · rw [if_pos ((hcond hbuf).mpr hpass), if_pos ((hcond hbuf').mpr hpass)]
    exact hclose _

/-- Of a stream as it should be, what is looked at does not come from the end of `buf`. -/
theorem same_types {count : Byte} {types : List Byte} (junk junk' : List Byte)
    (h : (count.toNat ≤ 16 ∧ count.toNat ≤ types.length) ∨ 128 ≤ count.toNat ∨
      (types.length < count.toNat ∧ count.toNat ≤ 13)) :
    (charToInt count).toNat ≤ 16 ∧
      (overwrite (count :: version.tail ++ 0 :: junk)
          (types.take (toSizeT (charToInt count)))).take (charToInt count).toNat =
        (overwrite (count :: version.tail ++ 0 :: junk')
          (types.take (toSizeT (charToInt count)))).take (charToInt count).toNat := by
  rcases h with ⟨hcount, hall⟩ | hneg | ⟨hcut, hcount⟩
  · obtain ⟨hint, hsize⟩ := charToInt_of_lt (c := count) (by omega)
    have hlen : (types.take count.toNat).length = count.toNat := by
      rw [List.length_take]
      omega
    rw [hint, hsize, take_overwrite hlen, take_overwrite hlen]
    exact ⟨hcount, rfl⟩
  · rw [(charToInt_of_ge hneg).1]
    exact ⟨by omega, rfl⟩
  · obtain ⟨hint, hsize⟩ := charToInt_of_lt (c := count) (by omega)
    have htake : types.take count.toNat = types := List.take_of_length_le (by omega)
    have hknown : ∀ junk : List Byte,
        (overwrite (count :: version.tail ++ 0 :: junk) types).take count.toNat =
          (overwrite (count :: version.tail ++ [0]) types).take count.toNat := by
      intro junk
      exact take_overwrite_known hcount (by omega)
    rw [hint, hsize, htake, hknown junk, hknown junk']
    exact ⟨by omega, rfl⟩

theorem greetRemote_agree {row : Row} {type : Byte} {junk junk' : List Byte}
    {register : Option D3des.Register} (hwhole : Whole row server) (hjunk : junk.length = 3)
    (hjunk' : junk'.length = 3) (hne : remote ≠ clnt) :
    Prog.Agree (piped clnt rows) (fun _ x x' => x = x')
      (greetRemote clnt remote (type :: 2 :: version.drop 2 ++ 0 :: junk))
      (greetRemote clnt remote (type :: 2 :: version.drop 2 ++ 0 :: junk'))
      ⟨client, server, challenge, register, false⟩ := by
  have hserver : PassesVersion server → ∃ count types, server = version ++ count :: types := by
    intro hpass
    obtain ⟨count, types, heq, -⟩ := hwhole hpass
    exact ⟨count, types, heq⟩
  rw [greetRemote_eq, greetRemote_eq]
  apply Prog.Agree.bind (readTypes_agree ⟨type, junk, rfl, hjunk⟩ ⟨type, junk', rfl, hjunk'⟩ hne
    hserver)
  intro s x x' hoffered
  match x, x', hoffered with
  | none, none, _ => exact Prog.Agree.done rfl
  | some _, some _, ⟨count, types, n, heq, rfl, rfl⟩ =>
    have hpass : PassesVersion server := by
      rw [heq]
      exact ⟨by simp [version], List.prefix_append _ _⟩
    obtain ⟨count', types', heq', hwhole⟩ := hwhole hpass
    obtain ⟨rfl, rfl⟩ := List.cons.inj (List.append_cancel_left (heq.symm.trans heq'))
    have hcount : (count.toNat ≤ 16 ∧ count.toNat ≤ types.length) ∨ 128 ≤ count.toNat ∨
        (types.length < count.toNat ∧ count.toNat ≤ 13) := by
      rcases hwhole with ⟨hfit, hall, -⟩ | ⟨hneg, -⟩ | ⟨hcut, hfit, -⟩
      · exact Or.inl ⟨hfit, hall⟩
      · exact Or.inr (Or.inl hneg)
      · exact Or.inr (Or.inr ⟨hcut, hfit⟩)
    obtain ⟨hin, hsame⟩ := same_types junk junk' hcount
    have hscan : ∀ junk : List Byte, junk.length = 3 →
        scanTypes (overwrite (count :: version.tail ++ 0 :: junk)
          (types.take (toSizeT (charToInt count)))) (charToInt count).toNat =
        pure (((overwrite (count :: version.tail ++ 0 :: junk)
            (types.take (toSizeT (charToInt count)))).take (charToInt count).toNat).contains 1,
          ((overwrite (count :: version.tail ++ 0 :: junk)
            (types.take (toSizeT (charToInt count)))).take (charToInt count).toNat).contains 2) := by
      intro junk hjunk
      apply scanTypes_eq
      have hlong : (count :: version.tail ++ 0 :: junk).length = 16 := by simp [version, hjunk]
      unfold overwrite
      rw [List.length_append, List.length_drop]
      omega
    show Prog.Agree _ _ (scanTypes (overwrite (count :: version.tail ++ 0 :: junk) _) _ >>= _)
      (scanTypes (overwrite (count :: version.tail ++ 0 :: junk') _) _ >>= _) _
    rw [hscan junk hjunk, hscan junk' hjunk', hsame]
    exact Prog.Agree.done rfl

theorem finish_agree {info : VncAuthInfo} {r : Int} {type : Byte} {junk junk' : List Byte}
    {register : Option D3des.Register}
    (hwhole : r = SQLITE_OK → info.matched = true → ∃ row, Whole row server)
    (hjunk : junk.length = 3) (hjunk' : junk'.length = 3) :
    Prog.Agree (piped clnt rows) (fun _ _ _ => True)
      (finish clnt ⟨type :: 2 :: version.drop 2 ++ 0 :: junk, challenge, response⟩ info r)
      (finish clnt ⟨type :: 2 :: version.drop 2 ++ 0 :: junk', challenge, response⟩ info r)
      ⟨client, server, [], register, false⟩ := by
  by_cases hr : r = SQLITE_OK
  · subst hr
    cases hmatched : info.matched with
    | true =>
      obtain ⟨row, hwhole⟩ := hwhole rfl hmatched
      rw [finish_matched hmatched, finish_matched hmatched]
      apply Prog.Agree.call
      intro remote? hne
      cases remote? with
      | none => exact Prog.Agree.refl (fun _ _ => trivial) _
      | some remote =>
        show Prog.Agree _ _ (connected _ _ _ _) (connected _ _ _ _) _
        rw [connected_eq, connected_eq]
        apply Prog.Agree.bind (greetRemote_agree hwhole hjunk hjunk' (hne remote rfl))
        rintro s types _ rfl
        cases types with
        | none => exact Prog.Agree.done trivial
        | some types => exact Prog.Agree.refl (fun _ _ => trivial) _
    | false =>
      have htake : ∀ buf : List Byte, (overwrite buf (hostBytes 1)).take 4 = hostBytes 1 :=
        fun buf => take_overwrite rfl
      unfold finish
      simp only [hmatched, Bool.false_eq_true, htake]
      exact Prog.Agree.refl (fun _ _ => trivial) _
  · unfold finish
    rw [if_pos hr, if_pos hr]
    exact Prog.Agree.refl (fun _ _ => trivial) _

theorem run_agree (hrows : Storable rows) (hbuf : buf.length = 16) (hbuf' : buf'.length = 16)
    (hresponse : response.length = 16) (hresponse' : response'.length = 16)
    (hchallenge : challenge.length = 16) (h : Received rows client server challenge) :
    Prog.Agree (piped clnt rows) (fun _ _ _ => True) (run clnt buf response)
      (run clnt buf' response') (Streams.start client server challenge) := by
  rw [run_eq, run_eq]
  apply Prog.Agree.bind (greetClient_agree hbuf hbuf' hresponse hresponse' hchallenge
    fun hpre => (h hpre).1)
  intro s arrays? arrays'? hmatching
  match arrays?, arrays'?, hmatching with
  | none, none, _ => exact Prog.Agree.done trivial
  | some _, some _, ⟨hpre, hs, harr, harr'⟩ =>
    subst hs harr harr'
    obtain ⟨hlong, hscanned, hfound⟩ := h hpre
    obtain ⟨hversion, type, htype⟩ := client_parts hpre hlong
    obtain ⟨junk, hjunk, hleft⟩ := clientBuf_of_compare hbuf hversion htype
    obtain ⟨junk', hjunk', hleft'⟩ := clientBuf_of_compare hbuf' hversion htype
    rw [hleft, hleft']
    apply Prog.Agree.bind (R := fun s x x' => x = x' ∧
      (∃ register, s = ⟨client.drop 29, server, [], register, false⟩) ∧
      (x.2 = SQLITE_OK → x.1.matched = true → ∃ row, Whole row server))
    · apply Prog.Agree.self
      apply (wp_authenticate_piped hrows rfl (R := fun x => x.2 = SQLITE_OK →
        x.1.matched = true → ∃ row, Whole row server) ?_).mpr
      · intro part r hdelivers
        refine ⟨?_, ?_⟩
        · obtain ⟨rest, rfl⟩ := hdelivers.1
          rintro pre row post rfl
          apply hscanned pre row (post ++ rest)
          rw [List.append_assoc, List.cons_append]
        · intro hr hmatched
          obtain rfl : part = rows := hdelivers.2 hr
          obtain ⟨row, hrow⟩ := scan_matched.mp hmatched
          exact ⟨row, hfound row hrow⟩
      · intro register x
        simp
    · rintro s ⟨info, r⟩ _ ⟨rfl, ⟨register, rfl⟩, hwhole⟩
      exact finish_agree hwhole hjunk hjunk'

end Same

-- ============================================================================
-- When they do
-- ============================================================================

section Unswayed

variable {clnt : Nat} {rows : List Row} {client server challenge : List Byte}

theorem Streams.next_short {s : Streams} {op : Call} {a : op.Ans} :
    (s.next clnt op a).short = true ↔ s.short = true ∨ ∃ fd len bytes,
      (⟨op, a⟩ : Exchange) = ⟨.recv fd len, some bytes⟩ ∧ bytes.length < len := by
  match op, a with
  | .recv fd len, (some bytes : Option (List Byte)) => simp [Streams.next, Streams.recvd]
  | .recv fd len, (none : Option (List Byte)) => simp [Streams.next]
  | .rand, _ | .lock, _ | .rfbUseKey _, _ | .setNonblocking _ _, _ | .send _ _, _ | .close _, _
  | .connectTo _, _ | .tieFd _ _ _, _ | .unlock, _ | .selectRoutes, _ | .selectKeys, _
  | .cleanup _, _ | .rfbDes _, _ => simp [Streams.next]
  | .abort, a => exact a.elim
  | .undefined, a => exact a.elim

theorem short_iff {s : Streams} {log : List Exchange} :
    ((piped clnt rows).track s log).short = true ↔ s.short = true ∨ Truncated log := by
  induction log generalizing s with
  | nil => simp [Truncated]
  | cons x log ih =>
    show ((piped clnt rows).track (s.next clnt x.op x.ans) log).short = true ↔ _
    rw [ih, Streams.next_short, or_assoc]
    unfold Truncated
    simp only [List.mem_cons, or_and_right, exists_or]
    simp only [eq_comm (a := x)]

/-- What is called undefined, or called after a field that is not complete, is not owed. -/
theorem run_piped_iff {buf response : List Byte} :
    (run clnt buf response).wp (piped clnt rows) (fun _ _ => True)
      (Streams.start client server challenge) ↔
    ∀ log q, Prog.Goes (run clnt buf response) log q →
      (piped clnt rows).Kept (Streams.start client server challenge) log →
        (∀ next, q ≠ .call .undefined next) ∧
        (Truncated log → ∀ op next, q = .call op next → ∃ fd, op = .close fd) := by
  rw [Prog.wp_iff_goes]
  apply forall_congr'
  intro log
  apply forall_congr'
  intro q
  apply imp_congr_right
  intro _
  apply imp_congr_right
  intro _
  have hshort : ((piped clnt rows).track (Streams.start client server challenge) log).short = true ↔
      Truncated log := by
    rw [short_iff]
    simp [Streams.start]
  simp only [piped_owes, hshort]
  apply Iff.intro
  · rintro ⟨h, -⟩
    refine ⟨?_, ?_⟩
    · rintro next rfl
      exact (h .undefined next rfl).1 rfl
    · intro htruncated op next hq
      exact (h op next hq).2 htruncated
  · rintro ⟨hdefined, hreceived⟩
    refine ⟨?_, fun _ _ => trivial⟩
    intro op next hq
    refine ⟨?_, fun htruncated => hreceived htruncated op next hq⟩
    rintro rfl
    exact hdefined next hq

/-- What the arrays hold at first decides nothing, and no field is gone past before it is
    complete, exactly if the streams are as long as what was asked for wherever `run`
    makes something of it. -/
theorem unswayed_iff (hrows : Storable rows) (hchallenge : challenge.length = 16) :
    Unswayed clnt rows client server challenge ↔ Received rows client server challenge := by
  have hreceived := @received_iff clnt rows client server challenge hrows hchallenge
  apply Iff.intro
  · intro h
    apply hreceived.mp
    intro buf response hbuf hresponse
    apply run_piped_iff.mpr
    intro log q hgoes hkept
    exact ⟨h.defined buf response hbuf hresponse log q hgoes hkept,
      h.received buf response hbuf hresponse log q hgoes hkept⟩
  · intro h
    have hrun := hreceived.mpr h
    refine ⟨?_, ?_, ?_⟩
    · intro buf response hbuf hresponse log q hgoes hkept
      exact (run_piped_iff.mp (hrun buf response hbuf hresponse) log q hgoes hkept).1
    · intro buf response hbuf hresponse log q hgoes hkept
      exact (run_piped_iff.mp (hrun buf response hbuf hresponse) log q hgoes hkept).2
    · intro buf response hbuf hresponse buf' response' hbuf' hresponse' log q hgoes hkept
      have hagree := @run_agree clnt _ _ _ _ _ _ _ _ hrows hbuf hbuf' hresponse hresponse' hchallenge h
      obtain ⟨q', hgoes', hagree'⟩ := hagree.goes hgoes hkept
      exact ⟨q', hgoes', hagree'.head⟩

/-- A client that answers a challenge of sevens with the key of the one row, and a remote
    that offers one type, and sends it. -/
theorem unswayed_iff_sole : Unswayed 3 soleRow
    (version ++ 2 :: vncResponse [112] (List.replicate 16 7)) (version ++ [1, 1])
    (List.replicate 16 7) := by
  apply (unswayed_iff (by simp [Storable, soleRow]) (by simp)).mpr
  intro _
  refine ⟨by decide +kernel, ?_, ?_⟩
  · intro pre row post hrows _
    have hrow : row ∈ soleRow := by simp [hrows]
    obtain rfl := List.mem_singleton.mp hrow
    simp [Row.Fits, Service.keyP]
  · intro row _ _
    exact ⟨1, [1], rfl, Or.inl ⟨by decide, by decide, by simp [choice]⟩⟩

/-- A client that sends nothing: `buf` can hold the version by itself. -/
theorem swayed_nothing : ¬ Unswayed 3 [] [] [] (List.replicate 16 7) := by
  intro h
  have hlong := ((@received_iff 3 [] [] [] (List.replicate 16 7) (by simp [Storable]) (by simp)).mp
    fun buf response hbuf hresponse => run_piped_iff.mpr fun log q hgoes hkept =>
      ⟨h.defined buf response hbuf hresponse log q hgoes hkept,
        h.received buf response hbuf hresponse log q hgoes hkept⟩) (by simp)
  exact absurd hlong.1 (by decide)

end Unswayed

end VncProxy.Handshake
