/-
  VncProxy.Marshal.Transfer

  Moving bytes between two buffers with `read_from_marshal`.

  A turn of the loop either hands the front chunk of the source over by pointer,
  which is done when the destination has no room and the chunk holds less than
  what is still wanted, or copies from one chunk to another.  Handing over a
  drained chunk moves no byte, but it shortens the source; copying moves at least
  one byte unless the source is empty.  So the loop ends by the pair of what is
  left to move and the number of chunks left, and it keeps the invariant of both
  lists, whichever way each turn goes.
-/
import VncProxy.Marshal.Fifo

namespace VncProxy
namespace Marshal

open Lib (Reach verify verify_bind)

-- ============================================================================
-- The loop
-- ============================================================================

/-- One copying turn, on a destination whose last chunk has room: `r` bytes
    move from the front of the source to the end of the destination, and none
    only if the source is empty. -/
theorem copyStep_spec {dst front rest : List Chunk} {c head : Chunk} {n : Nat} (hn : n ≠ 0)
    (hd : ChunksInv dst) (hback : dst = front ++ [c]) (hroom : 0 < c.room)
    (hs : ChunksInv (head :: rest)) :
    ∃ r dst' src', copyStep dst head rest n = some (r, dst', src') ∧ r ≤ n ∧
      r ≤ (contents (head :: rest)).length ∧ (r = 0 → contents (head :: rest) = []) ∧
      ChunksInv dst' ∧ ChunksInv src' ∧
      contents dst' = contents dst ++ (contents (head :: rest)).take r ∧
      contents src' = (contents (head :: rest)).drop r := by
  subst hback
  have hv := (ChunksInv.concat_iff.mp hd).2.1
  have hv' := (ChunksInv.cons_iff.mp hs).1
  obtain ⟨r, hr, heq⟩ := Chunk.readFromChunk_eq hv hv' n
  have hle : r ≤ head.content.length := by omega
  obtain ⟨src', hdrop, hinv, hcon⟩ := dropRead_consume hs hle
  have hfit : (head.content.take r).length ≤ c.room := by
    rw [List.length_take]
    omega
  obtain ⟨hinv', hcon'⟩ := append_back hd hfit
  refine ⟨r, front ++ [c.append (head.content.take r)], src', ?_, by omega, ?_, ?_, hinv', hinv,
    ?_, hcon⟩
  · have hmove {f : Chunk → Option ((Nat × Chunk) × Chunk)}
        (hf : f c = some ((r, head.consume r), c.append (head.content.take r))) :
        onBack f (front ++ [c])
          = some ((r, head.consume r), front ++ [c.append (head.content.take r)]) :=
      onBack_concat f hf
    rw [copyStep, hmove (by rw [heq]; rfl)]
    simp only [Option.bind_eq_bind, Option.bind_some, hdrop, Option.pure_def]
  · rw [contents_cons, List.length_append]
    omega
  · intro h0
    have hnil : head.content = [] := List.length_eq_zero_iff.mp (by omega)
    have hrest := hs.content_eq_nil_last hnil
    rw [hrest, contents_cons, hnil]
    rfl
  · rw [hcon', contents_cons, List.take_append_of_le_length hle]

/-- A copying turn and what the rest of the loop makes of its result. -/
theorem copy_then_loop {dst front rest : List Chunk} {c head : Chunk} {n : Nat} (hn : n ≠ 0)
    (hd : ChunksInv dst) (hback : dst = front ++ [c]) (hroom : 0 < c.room)
    (hs : ChunksInv (head :: rest))
    (ih : ∀ k < n, ∀ {dst src : List Chunk}, ChunksInv dst → ChunksInv src →
      ∃ dst' src', readFromMarshalLoop dst src k
          = some (min k (contents src).length, dst', src') ∧
        ChunksInv dst' ∧ ChunksInv src' ∧
        contents dst' = contents dst ++ (contents src).take k ∧
        contents src' = (contents src).drop k) :
    ∃ r dst' src', copyStep dst head rest n = some (r, dst', src') ∧
      ∃ dst'' src'', (if r = 0 then some (0, dst', src') else do
          let (k, dst'', src'') ← readFromMarshalLoop dst' src' (n - r)
          return (r + k, dst'', src''))
        = some (min n (contents (head :: rest)).length, dst'', src'') ∧
        ChunksInv dst'' ∧ ChunksInv src'' ∧
        contents dst'' = contents dst ++ (contents (head :: rest)).take n ∧
        contents src'' = (contents (head :: rest)).drop n := by
  obtain ⟨r, dst', src', hstep, hrn, hrlen, hr0, hd', hs', hcd, hcs⟩ :=
    copyStep_spec hn hd hback hroom hs
  refine ⟨r, dst', src', hstep, ?_⟩
  by_cases hzero : r = 0
  · have hnil := hr0 hzero
    refine ⟨dst', src', ?_, hd', hs', ?_, ?_⟩
    · rw [if_pos hzero, hnil, List.length_nil, Nat.min_zero]
    · rw [hcd, hnil, List.take_nil, List.take_nil]
    · rw [hcs, hnil, List.drop_nil, List.drop_nil]
  · obtain ⟨dst'', src'', hloop, hd'', hs'', hcd', hcs'⟩ := ih (n - r) (by omega) hd' hs'
    refine ⟨dst'', src'', ?_, hd'', hs'', ?_, ?_⟩
    · have hcount : r + min (n - r) (contents src').length
          = min n (contents (head :: rest)).length := by
        rw [hcs, List.length_drop]
        omega
      rw [if_neg hzero, hloop]
      simp only [Option.bind_eq_bind, Option.bind_some, Option.pure_def, hcount]
    · have hsum : r + (n - r) = n := by omega
      rw [hcd', hcd, hcs, List.append_assoc, ← List.take_add, hsum]
    · have hsum : r + (n - r) = n := by omega
      rw [hcs', hcs, List.drop_drop, hsum]

theorem readFromMarshalLoop_spec {dst src : List Chunk} (hd : ChunksInv dst)
    (hs : ChunksInv src) (n : Nat) :
    ∃ dst' src', readFromMarshalLoop dst src n
        = some (min n (contents src).length, dst', src') ∧
      ChunksInv dst' ∧ ChunksInv src' ∧
      contents dst' = contents dst ++ (contents src).take n ∧
      contents src' = (contents src).drop n := by
  -- the outer induction is on what is left to move, the inner one on the source
  induction n using Nat.strong_induction_on generalizing dst src with
  | _ n ih =>
    by_cases hn : n = 0
    · subst hn
      exact ⟨dst, src, by rw [readFromMarshalLoop.eq_def]; simp, hd, hs, by simp, by simp⟩
    induction src generalizing dst with
    | nil =>
      exact ⟨dst, [], by rw [readFromMarshalLoop]; simp [hn], hd, hs, by simp, by simp⟩
    | cons head rest ihsrc =>
      obtain ⟨hv, hr, -, hrest⟩ := ChunksInv.cons_iff.mp hs
      rcases needsChunk_spec hd with ⟨hneed, hfull⟩ | ⟨front, c, rfl, hneed, hroom⟩
      · by_cases hlt : head.content.length < n
        · -- the front chunk is handed over by pointer
          have hd' : ChunksInv (dst ++ [head]) := push_chunk hd hfull hv hr
          have hloop : ∃ dst' src', readFromMarshalLoop (dst ++ [head]) rest
                (n - head.content.length)
              = some (min (n - head.content.length) (contents rest).length, dst', src') ∧
              ChunksInv dst' ∧ ChunksInv src' ∧
              contents dst' = contents (dst ++ [head]) ++
                (contents rest).take (n - head.content.length) ∧
              contents src' = (contents rest).drop (n - head.content.length) := by
            rcases Nat.eq_zero_or_pos head.content.length with h0 | hpos
            · rw [h0]
              exact ihsrc hd' hrest
            · exact ih _ (by omega) hd' hrest
          obtain ⟨dst', src', heq, hd'', hs'', hcd, hcs⟩ := hloop
          refine ⟨dst', src', ?_, hd'', hs'', ?_, ?_⟩
          · have hcount : head.content.length + min (n - head.content.length) (contents rest).length
                = min n (contents (head :: rest)).length := by
              rw [contents_cons, List.length_append]
              omega
            rw [readFromMarshalLoop]
            simp only [hn, if_false, hneed, Option.bind_eq_bind, Option.bind_some, if_true,
              Chunk.contentSize_eq hv, Option.map_some, hlt, decide_true, heq, Option.pure_def,
              hcount]
          · rw [hcd, contents_append, contents_cons, contents_cons, contents_nil,
              List.append_nil, List.append_assoc, List.take_append,
              List.take_of_length_le (Nat.le_of_lt hlt)]
          · rw [hcs, contents_cons, List.drop_append, List.drop_of_length_le (Nat.le_of_lt hlt),
              List.nil_append]
        · -- copy, into a fresh chunk
          have hd' : ChunksInv (dst ++ [Chunk.new Chunk.minSize]) :=
            push_chunk hd hfull Chunk.valid_new (by simp [Chunk.new, Chunk.minSize])
          have hroom : 0 < (Chunk.new Chunk.minSize).room := by
            simp [Chunk.room, Chunk.new, Chunk.writeIdx, Chunk.minSize]
          obtain ⟨r, dst', src', hstep, dst'', src'', heq, hd'', hs'', hcd, hcs⟩ :=
            copy_then_loop hn hd' rfl hroom hs ih
          refine ⟨dst'', src'', ?_, hd'', hs'', by simpa using hcd, hcs⟩
          rw [readFromMarshalLoop]
          simp only [hn, if_false, hneed, Option.bind_eq_bind, Option.bind_some, if_true,
            Chunk.contentSize_eq hv, Option.map_some, hlt, decide_false, Bool.false_eq_true,
            hstep]
          exact heq
      · -- copy, into the last chunk
        obtain ⟨r, dst', src', hstep, dst'', src'', heq, hrest'⟩ :=
          copy_then_loop hn hd rfl hroom hs ih
        refine ⟨dst'', src'', ?_, hrest'⟩
        rw [readFromMarshalLoop]
        simp only [hn, if_false, hneed, Option.bind_eq_bind, Option.bind_some,
          Bool.false_eq_true, hstep]
        exact heq

theorem readFromMarshal_spec {dst src : Marshal} (hd : dst.Inv) (hs : src.Inv) (n : Nat) :
    ∃ dst' src', dst.readFromMarshal src n = some (min n src.content.length, dst', src') ∧
      dst'.Inv ∧ src'.Inv ∧ dst'.content = dst.content ++ src.content.take n ∧
      src'.content = src.content.drop n := by
  obtain ⟨dcs, scs, hloop, hd', hs', hcd, hcs⟩ := readFromMarshalLoop_spec hd hs n
  refine ⟨{ dst with chunks := dcs }, { src with chunks := scs }, ?_, hd', hs', hcd, hcs⟩
  simp only [readFromMarshal, headCheck_eq hd, headCheck_eq hs, hloop, Option.bind_eq_bind,
    Option.bind_some, headCheck_eq hd', headCheck_eq hs', Option.pure_def]
  rfl

-- ============================================================================
-- Any number of buffers
-- ============================================================================

/-- Buffers by their address. -/
abbrev Heap := Nat → Marshal

/-- One operation on one buffer, or a transfer between two distinct ones. -/
inductive HeapNext (h : Heap) : Heap → Prop
  | op {i : Nat} {op : Op} {res : Res} {m : Marshal}
      (hfit : ∀ p, op = .write p → (p.length : Int) < 2 ^ 31)
      (hexec : op.exec (h i) = some (res, m)) : HeapNext h (Function.update h i m)
  | transfer {i j n k : Nat} {dst src : Marshal} (hij : i ≠ j)
      (hexec : (h i).readFromMarshal (h j) n = some (k, dst, src)) :
      HeapNext h (Function.update (Function.update h i dst) j src)

def HeapReachable (h : Heap) : Prop := Reach (fun h => ∀ i, Fresh (h i)) HeapNext h

theorem fresh_inv {m : Marshal} (h : Fresh m) : m.Inv := by
  rcases h with rfl | ⟨data, hlt, rfl⟩
  · exact inv_empty
  · exact inv_ofString hlt

/-- Every buffer of a reachable heap satisfies the representation invariant. -/
theorem heapReachable_inv {h : Heap} (hr : HeapReachable h) (i : Nat) : (h i).Inv := by
  refine Reach.invariant (I := fun h => ∀ i, (h i).Inv) ?_ ?_ hr i
  · intro h hfresh i
    exact fresh_inv (hfresh i)
  · intro h h' _ hinv hnext j
    cases hnext with
    | @op i op res m hfit hexec =>
      by_cases hj : j = i
      · subst hj
        rw [Function.update_self]
        exact exec_inv (hinv j) hfit hexec
      · rw [Function.update_of_ne hj]
        exact hinv j
    | @transfer a b n k dst src hab hexec =>
      obtain ⟨dst', src', heq, hd, hs, -, -⟩ := readFromMarshal_spec (hinv a) (hinv b) n
      rw [hexec] at heq
      obtain ⟨-, rfl, rfl⟩ := Prod.mk.injEq .. ▸ Option.some.inj heq
      by_cases hjb : j = b
      · subst hjb
        rw [Function.update_self]
        exact hs
      rw [Function.update_of_ne hjb]
      by_cases hja : j = a
      · subst hja
        rw [Function.update_self]
        exact hd
      · rw [Function.update_of_ne hja]
        exact hinv j

/-- **Transfer.**  Between two distinct buffers of a reachable heap,
    `read_from_marshal` ends, returns `k = min(n, length of src)`, moves exactly
    the first `k` bytes and keeps the chunk invariant of both, and for `k > 0`
    that is what reading `k` bytes from the source and writing them to the
    destination does. -/
theorem readFromMarshal_exact {h : Heap} (hr : HeapReachable h) {i j : Nat} (hij : i ≠ j)
    (n : Nat) :
    ∃ k dst' src', (h i).readFromMarshal (h j) n = some (k, dst', src') ∧
      k = min n (h j).content.length ∧
      dst'.content = (h i).content ++ (h j).content.take k ∧
      src'.content = (h j).content.drop k ∧
      dst'.Inv ∧ src'.Inv ∧
      HeapReachable (Function.update (Function.update h i dst') j src') ∧
      (0 < k → (n : Int) < 2 ^ 31 →
        ∃ bs src'' dst'', (h j).read k = some (bs, src'') ∧
          (h i).write bs = some ((k : Int), dst'') ∧
          dst''.content = dst'.content ∧ src''.content = src'.content) := by
  have hd := heapReachable_inv hr i
  have hs := heapReachable_inv hr j
  obtain ⟨dst', src', heq, hd', hs', hcd, hcs⟩ := readFromMarshal_spec hd hs n
  have htake : (h j).content.take (min n (h j).content.length) = (h j).content.take n := by
    rw [List.take_eq_take_iff]
    omega
  have hdrop : (h j).content.drop (min n (h j).content.length) = (h j).content.drop n := by
    rw [List.drop_eq_drop_iff]
    omega
  refine ⟨_, dst', src', heq, rfl, by rw [hcd, htake], by rw [hcs, hdrop], hd', hs',
    hr.step (.transfer hij heq), ?_⟩
  intro hpos hlt
  have hlen : ((h j).content.take n).length = min n (h j).content.length := List.length_take
  obtain ⟨src'', hread, -, hcs'⟩ := read_spec hs (min n (h j).content.length)
  rw [htake] at hread
  have hne : (h j).content.take n ≠ [] := by
    intro hnil
    rw [hnil, List.length_nil] at hlen
    omega
  obtain ⟨dst'', hwrite, -, hcd'⟩ := write_spec hd hne (by rw [hlen]; omega)
  rw [hlen] at hwrite
  exact ⟨_, src'', dst'', hread, hwrite, by rw [hcd', hcd], by rw [hcs', hdrop, hcs]⟩

/-- "RFB", of which the first letter has been read. -/
def readOnce : Marshal := ⟨[⟨8192, 1, [82, 70, 66]⟩], 0⟩

theorem read_rfb : (ofString [82, 70, 66]).read 1 = some ([82], readOnce) := by
  simp [read, ofString, headCheck, readLoop, dropRead, Chunk.ofBuffer, Chunk.fullyRead, Chunk.read,
    Chunk.consume, Chunk.content, Chunk.Checks, Chunk.writeIdx, Chunk.minSize, Lib.verify, readOnce]

theorem heapReachable_readOnce : HeapReachable (Function.update (fun _ => empty) 1 readOnce) := by
  have hfresh : ∀ i, Fresh (Function.update (fun _ => empty) 1 (ofString [82, 70, 66]) i) := by
    intro i
    by_cases hi : i = 1
    · exact Or.inr ⟨[82, 70, 66], by decide, by simp [hi]⟩
    · exact Or.inl (by simp [hi])
  have hexec : (Op.read 1).exec (Function.update (fun _ => empty) 1 (ofString [82, 70, 66]) 1) =
      some (.bytes [82], readOnce) := by
    simp [Op.exec, read_rfb]
  have hnext := HeapNext.op (by rintro p ⟨⟩) hexec
  rw [Function.update_idem] at hnext
  exact (Reach.start hfresh).step hnext

/-- A chunk that is partly read is handed over to an empty buffer. -/
theorem readFromMarshal_exact_handOver :
    let h : Heap := Function.update (fun _ => empty) 1 readOnce
    (h 0).readFromMarshal (h 1) 5 = some (2, readOnce, empty) ∧
    ∃ k dst' src', (h 0).readFromMarshal (h 1) 5 = some (k, dst', src') ∧
      k = min 5 (h 1).content.length ∧
      dst'.content = (h 0).content ++ (h 1).content.take k ∧
      src'.content = (h 1).content.drop k ∧
      dst'.Inv ∧ src'.Inv ∧
      HeapReachable (Function.update (Function.update h 0 dst') 1 src') ∧
      (0 < k → ((5 : Nat) : Int) < 2 ^ 31 →
        ∃ bs src'' dst'', (h 1).read k = some (bs, src'') ∧
          (h 0).write bs = some ((k : Int), dst'') ∧
          dst''.content = dst'.content ∧ src''.content = src'.content) := by
  refine ⟨?_, readFromMarshal_exact heapReachable_readOnce (by decide) 5⟩
  show empty.readFromMarshal readOnce 5 = _
  simp [readFromMarshal, readOnce, empty, headCheck, readFromMarshalLoop, needsChunk,
    Chunk.contentSize, Chunk.fullyRead, Chunk.Checks, Chunk.writeIdx, Lib.verify]

end Marshal

end VncProxy
