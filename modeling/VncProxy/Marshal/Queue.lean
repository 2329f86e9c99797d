/-
  VncProxy.Marshal.Queue

  `Marshal` is a FIFO byte queue, whatever its chunking.

  The representation invariant of `chunk_` is `ChunksInv`: every chunk is valid,
  no chunk is fully read, and every chunk but the last is fully written.  Hence
  a chunk without content can only be the last one (`content_eq_nil_last`), which
  is why `read`, `peek` and `write_to_fd` may stop at the first chunk that yields
  nothing.  Each loop of the source gets one lemma: from a list of chunks that
  satisfies the invariant it runs without a failed assertion, keeps the
  invariant, and acts on the content as on a plain list of bytes.
-/
import VncProxy.Marshal.Basic

namespace VncProxy

open Lib (verify verify_bind)

-- ============================================================================
-- 32-bit counters
-- ============================================================================

theorem i32_eq {x : Int} (h0 : 0 ≤ x) (h : x < 2 ^ 31) : i32 x = x := by
  unfold i32
  rw [Int.bmod_eq_of_le] <;> omega

-- ============================================================================
-- The representation invariant
-- ============================================================================

structure ChunksInv (cs : List Chunk) : Prop where
  valid : ∀ c ∈ cs, c.Valid
  /-- no chunk is fully read -/
  notRead : ∀ c ∈ cs, c.readIdx ≠ c.size
  /-- every chunk but the last is fully written -/
  full : ∀ c ∈ cs.dropLast, c.writeIdx = c.size

/-- The bytes of a list of chunks. -/
def contents (cs : List Chunk) : List Byte := cs.flatMap Chunk.content

@[simp] theorem contents_nil : contents [] = [] := rfl

@[simp] theorem contents_cons (c : Chunk) (cs : List Chunk) :
    contents (c :: cs) = c.content ++ contents cs := rfl

@[simp] theorem contents_append (cs ds : List Chunk) :
    contents (cs ++ ds) = contents cs ++ contents ds := by
  simp [contents]

namespace ChunksInv

theorem nil : ChunksInv [] := ⟨by simp, by simp, by simp⟩

/-- The invariant seen from the front of the list. -/
theorem cons_iff {c : Chunk} {cs : List Chunk} :
    ChunksInv (c :: cs) ↔
      c.Valid ∧ c.readIdx ≠ c.size ∧ (cs ≠ [] → c.writeIdx = c.size) ∧ ChunksInv cs := by
  constructor
  · intro h
    refine ⟨h.valid c (by simp), h.notRead c (by simp), ?_, ?_⟩
    · intro hcs
      obtain ⟨d, ds, rfl⟩ := List.exists_cons_of_ne_nil hcs
      exact h.full c (by simp)
    · refine ⟨fun d hd => h.valid d (List.mem_cons_of_mem _ hd),
        fun d hd => h.notRead d (List.mem_cons_of_mem _ hd), fun d hd => h.full d ?_⟩
      cases cs with
      | nil => simp at hd
      | cons e es => exact List.mem_cons_of_mem _ hd
  · rintro ⟨hv, hr, hf, hcs⟩
    refine ⟨List.forall_mem_cons.mpr ⟨hv, hcs.valid⟩,
      List.forall_mem_cons.mpr ⟨hr, hcs.notRead⟩, ?_⟩
    cases cs with
    | nil => simp
    | cons e es => exact List.forall_mem_cons.mpr ⟨hf (by simp), hcs.full⟩

/-- The invariant seen from the back of the list. -/
theorem concat_iff {c : Chunk} {cs : List Chunk} :
    ChunksInv (cs ++ [c]) ↔
      (ChunksInv cs ∧ ∀ d ∈ cs, d.writeIdx = d.size) ∧ c.Valid ∧ c.readIdx ≠ c.size := by
  constructor
  · intro h
    have hfull : ∀ d ∈ cs, d.writeIdx = d.size := by
      simpa using h.full
    refine ⟨⟨⟨fun d hd => h.valid d (by simp [hd]), fun d hd => h.notRead d (by simp [hd]),
      fun d hd => hfull d (List.dropLast_subset _ hd)⟩, hfull⟩,
      h.valid c (by simp), h.notRead c (by simp)⟩
  · rintro ⟨⟨hcs, hfull⟩, hv, hr⟩
    refine ⟨?_, ?_, by simpa using hfull⟩
    · intro d hd
      rcases List.mem_append.mp hd with hd | hd
      · exact hcs.valid d hd
      · rw [List.mem_singleton.mp hd]
        exact hv
    · intro d hd
      rcases List.mem_append.mp hd with hd | hd
      · exact hcs.notRead d hd
      · rw [List.mem_singleton.mp hd]
        exact hr

/-- Only the last chunk can be without content. -/
theorem content_eq_nil_last {c : Chunk} {cs : List Chunk} (h : ChunksInv (c :: cs))
    (hc : c.content = []) : cs = [] := by
  obtain ⟨hv, hr, hf, -⟩ := cons_iff.mp h
  by_contra hcs
  have hlen := congrArg List.length hc
  have hle := hv.read_le
  have hfull := hf hcs
  rw [Chunk.content_length, List.length_nil] at hlen
  omega

end ChunksInv

-- ============================================================================
-- The steps shared by the loops
-- ============================================================================

namespace Marshal

section Steps

variable {cs : List Chunk} {c : Chunk}

theorem headCheck_eq (h : ChunksInv cs) : headCheck cs = some () := by
  cases cs with
  | nil => rfl
  | cons c cs =>
    obtain ⟨hv, hr, -, -⟩ := ChunksInv.cons_iff.mp h
    simp [headCheck, Chunk.fullyRead_eq hv, hr]

theorem needsChunk_concat (hv : c.Valid) :
    needsChunk (cs ++ [c]) = some (c.writeIdx == c.size) := by
  simp [needsChunk, Chunk.fullyWritten_eq hv]

/-- Either every chunk is fully written, or the last one has room. -/
theorem needsChunk_spec (h : ChunksInv cs) :
    (needsChunk cs = some true ∧ ∀ d ∈ cs, d.writeIdx = d.size) ∨
      (∃ front c, cs = front ++ [c] ∧ needsChunk cs = some false ∧ 0 < c.room) := by
  rcases List.eq_nil_or_concat cs with rfl | ⟨front, c, rfl⟩
  · exact Or.inl ⟨rfl, by simp⟩
  · rw [List.concat_eq_append] at h ⊢
    obtain ⟨⟨-, hfull⟩, hv, -⟩ := ChunksInv.concat_iff.mp h
    by_cases hw : c.writeIdx = c.size
    · refine Or.inl ⟨by simp [needsChunk_concat hv, hw], ?_⟩
      intro d hd
      rcases List.mem_append.mp hd with hd | hd
      · exact hfull d hd
      · rw [List.mem_singleton.mp hd]
        exact hw
    · refine Or.inr ⟨front, c, rfl, by simp [needsChunk_concat hv, hw], ?_⟩
      have hle := hv.write_le
      unfold Chunk.room
      omega

theorem onBack_concat {α : Type} (f : Chunk → Option (α × Chunk)) {a : α} {c' : Chunk}
    (h : f c = some (a, c')) : onBack f (cs ++ [c]) = some (a, cs ++ [c']) := by
  simp [onBack, h]

/-- A chunk behind fully written ones keeps the invariant. -/
theorem push_chunk (h : ChunksInv cs) (hfull : ∀ d ∈ cs, d.writeIdx = d.size)
    (hv : c.Valid) (hr : c.readIdx ≠ c.size) : ChunksInv (cs ++ [c]) :=
  ChunksInv.concat_iff.mpr ⟨⟨h, hfull⟩, hv, hr⟩

/-- After `withRoom` the last chunk can take at least one byte. -/
theorem withRoom_spec (h : ChunksInv cs) :
    ∃ front c, withRoom cs = some (front ++ [c]) ∧ ChunksInv (front ++ [c]) ∧
      0 < c.room ∧ contents (front ++ [c]) = contents cs := by
  rcases needsChunk_spec h with ⟨hneed, hfull⟩ | ⟨front, c, rfl, hneed, hroom⟩
  · refine ⟨cs, Chunk.new Chunk.minSize, by simp [withRoom, hneed],
      push_chunk h hfull Chunk.valid_new (by simp [Chunk.new, Chunk.minSize]), ?_, by simp⟩
    simp [Chunk.room, Chunk.new, Chunk.writeIdx, Chunk.minSize]
  · exact ⟨front, c, by simp [withRoom, hneed], h, hroom, rfl⟩

/-- A fully read front chunk has no content left, so deleting it loses
    nothing. -/
theorem dropRead_spec (hv : c.Valid) (hfull : cs ≠ [] → c.writeIdx = c.size)
    (h : ChunksInv cs) :
    ∃ cs', dropRead (c :: cs) = some cs' ∧ ChunksInv cs' ∧
      contents cs' = c.content ++ contents cs := by
  by_cases hr : c.readIdx = c.size
  · have hnil : c.content = [] := by
      have hle := hv.write_le
      rw [← List.length_eq_zero_iff, Chunk.content_length]
      omega
    exact ⟨cs, by simp [dropRead, Chunk.fullyRead_eq hv, hr], h, by simp [hnil]⟩
  · exact ⟨c :: cs, by simp [dropRead, Chunk.fullyRead_eq hv, hr],
      ChunksInv.cons_iff.mpr ⟨hv, hr, hfull, h⟩, rfl⟩

/-- Taking `k` bytes off the front chunk and deleting it if that was its
    last. -/
theorem dropRead_consume (h : ChunksInv (c :: cs)) {k : Nat} (hk : k ≤ c.content.length) :
    ∃ cs', dropRead (c.consume k :: cs) = some cs' ∧ ChunksInv cs' ∧
      contents cs' = (contents (c :: cs)).drop k := by
  obtain ⟨hv, -, hfull, hcs⟩ := ChunksInv.cons_iff.mp h
  obtain ⟨cs', heq, hinv, hcon⟩ := dropRead_spec (hv.consume hk) hfull hcs
  refine ⟨cs', heq, hinv, ?_⟩
  rw [hcon, Chunk.content_consume, contents_cons, List.drop_append_of_le_length hk]

/-- Appending to the last chunk within its room keeps the invariant. -/
theorem append_back (h : ChunksInv (cs ++ [c])) {bs : List Byte} (hbs : bs.length ≤ c.room) :
    ChunksInv (cs ++ [c.append bs]) ∧
      contents (cs ++ [c.append bs]) = contents (cs ++ [c]) ++ bs := by
  obtain ⟨hfront, hv, hr⟩ := ChunksInv.concat_iff.mp h
  refine ⟨ChunksInv.concat_iff.mpr ⟨hfront, hv.append hbs, hr⟩, ?_⟩
  simp [Chunk.content_append hv]

/-- So does one that holds the bytes of a caller. -/
theorem push_buffer (h : ChunksInv cs) (hfull : ∀ d ∈ cs, d.writeIdx = d.size)
    {p : List Byte} (hp : (p.length : Int) < 2 ^ 31) :
    ChunksInv (cs ++ [Chunk.ofBuffer p]) := by
  have hv := Chunk.valid_ofBuffer hp
  refine push_chunk h hfull hv ?_
  have hsize := hv.size_ge
  simp only [Chunk.ofBuffer, Chunk.minSize] at hsize ⊢
  omega

end Steps

-- ============================================================================
-- One lemma for each loop
-- ============================================================================

section Loops

variable {cs : List Chunk}

theorem readLoop_spec (h : ChunksInv cs) (n : Nat) :
    ∃ cs', readLoop cs n = some ((contents cs).take n, cs') ∧ ChunksInv cs' ∧
      contents cs' = (contents cs).drop n := by
  induction n using Nat.strong_induction_on generalizing cs with
  | _ n ih =>
    cases cs with
    | nil => exact ⟨[], by simp [readLoop], h, by simp⟩
    | cons c cs =>
      by_cases hn : n = 0
      · subst hn
        exact ⟨c :: cs, by simp [readLoop], h, by simp⟩
      have hv := (ChunksInv.cons_iff.mp h).1
      obtain ⟨cs', hdrop, hinv, hcon⟩ :=
        dropRead_consume h (Nat.min_le_right n c.content.length)
      by_cases hnil : c.content = []
      · -- the front chunk yields nothing, so it is the last one
        have hcs := h.content_eq_nil_last hnil
        subst hcs
        refine ⟨cs', ?_, hinv, ?_⟩
        · rw [readLoop]
          simp only [hn, if_false, Chunk.read_eq hv, Option.bind_eq_bind, Option.bind_some, hdrop]
          simp [hnil]
        · rw [hcon]
          simp [hnil]
      · have hpos : 0 < c.content.length := List.length_pos_iff.mpr hnil
        have hlen : (c.content.take n).length = min n c.content.length := List.length_take
        have hfront : (contents (c :: cs)).take (min n c.content.length) = c.content.take n := by
          rw [contents_cons, List.take_append_of_le_length (Nat.min_le_right _ _),
            List.take_eq_take_iff]
          omega
        obtain ⟨cs'', heq, hinv', hcon'⟩ := ih (n - (c.content.take n).length) (by omega) hinv
        refine ⟨cs'', ?_, hinv', ?_⟩
        · have htake : (contents (c :: cs)).take n = c.content.take n ++
              (contents cs').take (n - (c.content.take n).length) := by
            rw [hcon, ← hfront, ← List.take_add, hfront, hlen]
            congr 1
            omega
          rw [readLoop, htake]
          have hne : (c.content.take n).length ≠ 0 := by omega
          simp only [hn, if_false, Chunk.read_eq hv, Option.bind_eq_bind, Option.bind_some, hdrop,
            hne, heq, Option.pure_def]
        · rw [hcon', hcon, List.drop_drop, hlen]
          congr 1
          omega

theorem peekLoop_spec (h : ChunksInv cs) (n : Nat) :
    peekLoop cs n = some ((contents cs).take n) := by
  induction cs generalizing n with
  | nil => simp [peekLoop]
  | cons c cs ih =>
    obtain ⟨hv, -, -, hcs⟩ := ChunksInv.cons_iff.mp h
    simp only [peekLoop, Chunk.peek_eq hv, Option.bind_eq_bind, Option.bind_some, Option.pure_def,
      contents_cons, List.take_append]
    by_cases hzero : (c.content.take n).length = 0
    · rw [if_pos hzero]
      rw [List.length_take] at hzero
      by_cases hn : n = 0
      · simp [hn]
      · -- no content in the front chunk, so there is no other chunk
        have hnil : c.content = [] := List.length_eq_zero_iff.mp (by omega)
        have hcs' := h.content_eq_nil_last hnil
        simp [hcs', hnil]
    · rw [if_neg hzero]
      by_cases hall : (c.content.take n).length = n
      · rw [if_pos hall]
        rw [List.length_take] at hall
        simp [show n - c.content.length = 0 by omega]
      · rw [if_neg hall, ih hcs, Option.bind_some]
        rw [List.length_take] at hall ⊢
        rw [show n - min n c.content.length = n - c.content.length by omega]

theorem contentSizeLoop_spec (h : ChunksInv cs) {size : Int} (h0 : 0 ≤ size)
    (hlt : size + (contents cs).length < 2 ^ 31) :
    contentSizeLoop cs size = some (size + (contents cs).length) := by
  induction cs generalizing size with
  | nil => simp [contentSizeLoop]
  | cons c cs ih =>
    obtain ⟨hv, -, -, hcs⟩ := ChunksInv.cons_iff.mp h
    rw [contents_cons, List.length_append] at hlt ⊢
    push_cast at hlt ⊢
    simp only [contentSizeLoop, Chunk.contentSize_eq hv, Option.bind_eq_bind, Option.bind_some]
    rw [i32_eq (by omega) (by omega), ih hcs (by omega) (by omega)]
    congr 1
    omega

theorem contentSizeGtLoop_spec (h : ChunksInv cs) {visited : Int} (h0 : 0 ≤ visited)
    (hlt : visited + (contents cs).length < 2 ^ 31) (size : Int) :
    contentSizeGtLoop size cs visited =
      some (decide (visited + (contents cs).length > size)) := by
  induction cs generalizing visited with
  | nil => simp [contentSizeGtLoop]
  | cons c cs ih =>
    obtain ⟨hv, -, -, hcs⟩ := ChunksInv.cons_iff.mp h
    rw [contents_cons, List.length_append] at hlt ⊢
    push_cast at hlt ⊢
    simp only [contentSizeGtLoop, Chunk.contentSize_eq hv, Option.bind_eq_bind, Option.bind_some,
      Option.pure_def]
    rw [i32_eq (by omega) (by omega)]
    by_cases hgt : visited + c.content.length > size
    · rw [if_pos hgt, decide_eq_true]
      omega
    · rw [if_neg hgt, ih hcs (by omega) (by omega)]
      congr 2
      rw [Int.add_assoc]

/-- `content_size_gt(0)` never adds up more than one chunk with content, so it
    is right whatever the total size. -/
theorem contentSizeGtLoop_zero (h : ChunksInv cs) {size visited : Int} (hs : size = 0)
    (hvis : visited = 0) :
    contentSizeGtLoop size cs visited = some (decide (contents cs ≠ [])) := by
  cases cs with
  | nil => simp [contentSizeGtLoop, hs, hvis]
  | cons c cs =>
    obtain ⟨hv, -, -, -⟩ := ChunksInv.cons_iff.mp h
    have hsize := hv.size_lt
    have hlen : (c.content.length : Int) < 2 ^ 31 := by
      have hw := hv.write_le
      rw [Chunk.content_length]
      omega
    simp only [contentSizeGtLoop, Chunk.contentSize_eq hv, Option.bind_eq_bind, Option.bind_some,
      Option.pure_def]
    rw [i32_eq (by omega) (by omega)]
    by_cases hnil : c.content = []
    · have hcs := h.content_eq_nil_last hnil
      subst hcs
      simp [hnil, contentSizeGtLoop, hs, hvis]
    · have hpos : 0 < c.content.length := List.length_pos_iff.mpr hnil
      rw [if_pos (by omega)]
      simp [hnil]

theorem reserve_spec (junk : List Byte) (h : ChunksInv cs) :
    ∃ cs', reserve junk cs = some cs' ∧ ChunksInv cs' ∧ contents cs' = contents cs ++ junk := by
  induction junk generalizing cs with
  | nil => exact ⟨cs, rfl, h, by simp⟩
  | cons b junk ih =>
    obtain ⟨front, c, hroom, hinv, hpos, hcon⟩ := withRoom_spec h
    have hv := (ChunksInv.concat_iff.mp hinv).2.1
    have hset : (fun d : Chunk => do return ((), ← d.setBookmark b)) c
        = some ((), c.append [b]) := by
      simp [Chunk.setBookmark_eq hv (by unfold Chunk.room at hpos; omega)]
    obtain ⟨hinv', hcon'⟩ := append_back hinv (show [b].length ≤ c.room from hpos)
    obtain ⟨cs', heq, hinv'', hcon''⟩ := ih hinv'
    refine ⟨cs', ?_, hinv'', ?_⟩
    · simp only [reserve, hroom, Option.bind_eq_bind, Option.bind_some]
      rw [onBack_concat _ hset]
      exact heq
    · rw [hcon'', hcon', hcon]
      simp

/-- One turn of `write_to_fd`: what the descriptor took leaves the front of the
    content. -/
theorem writeStep_spec {c : Chunk} (h : ChunksInv (c :: cs)) (accept : Int) :
    ∃ cs', writeStep accept c cs = some (sysWrite accept c.content, cs') ∧ ChunksInv cs' ∧
      contents (c :: cs) = (sysWrite accept c.content).bytesWritten ++ contents cs' := by
  have hv := (ChunksInv.cons_iff.mp h).1
  have hle : (sysWrite accept c.content).ret.toNat ≤ c.content.length := by
    simp only [sysWrite, FdCall.ret]
    omega
  obtain ⟨cs', hdrop, hinv, hcon⟩ := dropRead_consume h hle
  refine ⟨cs', ?_, hinv, ?_⟩
  · simp only [writeStep, Chunk.writeToFd_eq hv, Option.bind_eq_bind, Option.bind_some, hdrop,
      Option.pure_def]
  · have hfront : (sysWrite accept c.content).bytesWritten
        = (contents (c :: cs)).take (sysWrite accept c.content).ret.toNat := by
      rw [contents_cons, List.take_append_of_le_length hle]
      rfl
    rw [hcon, hfront, List.take_append_drop]

/-- What the loop of `write_to_fd` does to a buffer: the bytes taken are a
    prefix of the content, content is left only after a call of `::write` with a
    positive length that took nothing, and without a chunk there is no call. -/
structure Written (cs : List Chunk) (calls : List FdCall) (cs' : List Chunk) : Prop where
  inv : ChunksInv cs'
  split : contents cs = calls.flatMap FdCall.bytesWritten ++ contents cs'
  refused : contents cs' ≠ [] →
    ∃ buf r, calls.getLast? = some (.write buf r) ∧ buf ≠ [] ∧ r ≤ 0
  writes : ∀ call ∈ calls, ∃ buf r, call = .write buf r
  idle : cs = [] → calls = []

/-- A call of `::write` that ends the loop. -/
theorem written_stop {c : Chunk} {cs' : List Chunk} {accept : Int} (h : ChunksInv (c :: cs))
    (hinv : ChunksInv cs')
    (hcon : contents (c :: cs) = (sysWrite accept c.content).bytesWritten ++ contents cs')
    (hret : (sysWrite accept c.content).ret ≤ 0) :
    (sysWrite accept c.content).bytesWritten = [] ∧
      Written (c :: cs) [sysWrite accept c.content] cs' := by
  have hnone : (sysWrite accept c.content).bytesWritten = [] := by
    have h0 : (sysWrite accept c.content).ret.toNat = 0 := by omega
    change c.content.take (sysWrite accept c.content).ret.toNat = []
    rw [h0, List.take_zero]
  refine ⟨hnone, hinv, by simpa using hcon, ?_, by simp [sysWrite], by simp⟩
  intro hleft
  refine ⟨c.content, _, rfl, ?_, hret⟩
  intro hnil
  have hcs := h.content_eq_nil_last hnil
  rw [hnone, List.nil_append] at hcon
  apply hleft
  rw [← hcon, hcs, contents_cons, hnil]
  rfl

theorem writeToFdLoop_spec (h : ChunksInv cs) (accepts : List Int) (nWrite : Int) :
    ∃ n calls cs', writeToFdLoop nWrite accepts cs = some (n, calls, cs') ∧
      Written cs calls cs' ∧
      (0 ≤ nWrite → nWrite + (contents cs).length < 2 ^ 31 →
        n = nWrite + (calls.flatMap FdCall.bytesWritten).length) := by
  induction accepts generalizing cs nWrite with
  | nil =>
    cases cs with
    | nil => exact ⟨nWrite, [], [], rfl, ⟨h, by simp, by simp, by simp, by simp⟩, by simp⟩
    | cons c cs =>
      obtain ⟨cs', hstep, hinv, hcon⟩ := writeStep_spec h (-1)
      have hret : (sysWrite (-1) c.content).ret ≤ 0 := by
        simp only [sysWrite, FdCall.ret]
        omega
      obtain ⟨hnone, hw⟩ := written_stop h hinv hcon hret
      refine ⟨nWrite, [sysWrite (-1) c.content], cs', ?_, hw, by simp [hnone]⟩
      simp only [writeToFdLoop, hstep, Option.bind_eq_bind, Option.bind_some, Option.pure_def]
  | cons a accepts ih =>
    cases cs with
    | nil => exact ⟨nWrite, [], [], rfl, ⟨h, by simp, by simp, by simp, by simp⟩, by simp⟩
    | cons c cs =>
      obtain ⟨cs', hstep, hinv, hcon⟩ := writeStep_spec h a
      by_cases hret : (sysWrite a c.content).ret ≤ 0
      · obtain ⟨hnone, hw⟩ := written_stop h hinv hcon hret
        refine ⟨nWrite, [sysWrite a c.content], cs', ?_, hw, by simp [hnone]⟩
        simp only [writeToFdLoop, hstep, Option.bind_eq_bind, Option.bind_some, hret, if_true,
          Option.pure_def]
      · have hlen : ((sysWrite a c.content).bytesWritten.length : Int)
            = (sysWrite a c.content).ret := by
          simp only [sysWrite, FdCall.ret, FdCall.bytesWritten, List.length_take] at hret ⊢
          omega
        obtain ⟨n, calls, cs'', hloop, hw, hn⟩ := ih hinv (i32 (nWrite + (sysWrite a c.content).ret))
        have hcalls : (sysWrite a c.content :: calls).flatMap FdCall.bytesWritten
            = (sysWrite a c.content).bytesWritten ++ calls.flatMap FdCall.bytesWritten := by
          rw [List.flatMap_cons]
        refine ⟨n, sysWrite a c.content :: calls, cs'', ?_, ⟨hw.inv, ?_, ?_, ?_, by simp⟩, ?_⟩
        · simp only [writeToFdLoop, hstep, Option.bind_eq_bind, Option.bind_some, hret, if_false,
            hloop, Option.pure_def]
        · rw [hcalls, hcon, hw.split, List.append_assoc]
        · intro hleft
          obtain ⟨buf, r, hlast, hbuf, hr⟩ := hw.refused hleft
          exact ⟨buf, r, by simp [List.getLast?_cons, hlast], hbuf, hr⟩
        · exact List.forall_mem_cons.mpr ⟨⟨_, _, rfl⟩, hw.writes⟩
        · intro h0 hlt
          have hsum := congrArg List.length hcon
          rw [List.length_append] at hsum
          rw [i32_eq (by omega) (by omega)] at hn
          rw [hn (by omega) (by omega), hcalls, List.length_append]
          push_cast
          omega

/-- One turn of `read_from_fd`: what the descriptor delivered joins the end of
    the content, and it was asked for at least one byte. -/
theorem readStep_spec (h : ChunksInv cs) (offer : Option (List Byte)) :
    ∃ len cs', readStep offer cs = some (sysRead offer len, cs') ∧ 0 < len ∧ ChunksInv cs' ∧
      contents cs' = contents cs ++ (sysRead offer len).bytesRead := by
  obtain ⟨front, c, hroom, hinv, hpos, hcon⟩ := withRoom_spec h
  have hv := (ChunksInv.concat_iff.mp hinv).2.1
  have hle : (sysRead offer c.room).bytesRead.length ≤ c.room := by
    cases offer <;> simp [sysRead, FdCall.bytesRead]
  obtain ⟨hinv', hcon'⟩ := append_back hinv hle
  refine ⟨c.room, front ++ [c.append (sysRead offer c.room).bytesRead], ?_, hpos, hinv', ?_⟩
  · simp only [readStep, hroom, Option.bind_eq_bind, Option.bind_some]
    exact onBack_concat (·.readFromFd offer) (Chunk.readFromFd_eq hv offer)
  · rw [hcon', hcon]

/-- What the loop of `read_from_fd` does to a buffer: the bytes delivered join
    the end of the content, and the loop ended on a call of `::read` with a
    positive length that delivered nothing. -/
structure Received (cs : List Chunk) (calls : List FdCall) (cs' : List Chunk) : Prop where
  inv : ChunksInv cs'
  joined : contents cs' = contents cs ++ calls.flatMap FdCall.bytesRead
  ended : ∃ len got, calls.getLast? = some (.read len got) ∧ 0 < len ∧
    (FdCall.read len got).ret ≤ 0
  reads : ∀ call ∈ calls, ∃ len got, call = .read len got

/-- Calls of `::read` hand nothing over. -/
theorem Received.bytesWritten {calls : List FdCall} {cs' : List Chunk}
    (h : Received cs calls cs') : calls.flatMap FdCall.bytesWritten = [] := by
  rw [List.flatMap_eq_nil_iff]
  intro call hcall
  obtain ⟨len, got, rfl⟩ := h.reads call hcall
  rfl

/-- Calls of `::write` deliver nothing. -/
theorem Written.bytesRead {calls : List FdCall} {cs' : List Chunk}
    (h : Written cs calls cs') : calls.flatMap FdCall.bytesRead = [] := by
  rw [List.flatMap_eq_nil_iff]
  intro call hcall
  obtain ⟨buf, r, rfl⟩ := h.writes call hcall
  rfl

theorem readFromFdLoop_spec (h : ChunksInv cs) (offers : List (Option (List Byte)))
    (nRead : Int) :
    ∃ n calls cs', readFromFdLoop nRead offers cs = some (n, calls, cs') ∧
      Received cs calls cs' ∧
      (n = nRead ∧ calls.flatMap FdCall.bytesRead = [] ∨
        n = i32 (nRead + (calls.flatMap FdCall.bytesRead).length)) := by
  induction offers generalizing cs nRead with
  | nil =>
    obtain ⟨len, cs', hstep, hpos, hinv, hcon⟩ := readStep_spec h none
    refine ⟨nRead, [sysRead none len], cs', ?_, ⟨hinv, by simpa using hcon,
      ⟨len, none, rfl, hpos, by simp [FdCall.ret]⟩, by simp [sysRead]⟩, Or.inl ⟨rfl, rfl⟩⟩
    simp only [readFromFdLoop, hstep, Option.bind_eq_bind, Option.bind_some, Option.pure_def]
  | cons offer offers ih =>
    obtain ⟨len, cs', hstep, hpos, hinv, hcon⟩ := readStep_spec h offer
    by_cases hret : (sysRead offer len).ret ≤ 0
    · have hnone := (Chunk.sysRead_ret offer len).mp hret
      refine ⟨nRead, [sysRead offer len], cs', ?_, ⟨hinv, by simpa using hcon,
        ⟨len, _, rfl, hpos, hret⟩, by simp [sysRead]⟩, Or.inl ⟨rfl, by simp [hnone]⟩⟩
      simp only [readFromFdLoop, hstep, Option.bind_eq_bind, Option.bind_some, hret, if_true,
        Option.pure_def]
    · obtain ⟨n, calls, cs'', hloop, hw, hn⟩ := ih hinv (i32 (nRead + (sysRead offer len).ret))
      have hlen : ((sysRead offer len).bytesRead.length : Int) = (sysRead offer len).ret := by
        cases offer with
        | none => simp [sysRead, FdCall.ret] at hret
        | some bs => simp [sysRead, FdCall.ret, FdCall.bytesRead]
      obtain ⟨l, g, hlast, hl, hg⟩ := hw.ended
      refine ⟨n, sysRead offer len :: calls, cs'', ?_, ⟨hw.inv, ?_, ⟨l, g, ?_, hl, hg⟩, ?_⟩,
        Or.inr ?_⟩
      · simp only [readFromFdLoop, hstep, Option.bind_eq_bind, Option.bind_some, hret, if_false,
          hloop, Option.pure_def]
      · rw [hw.joined, hcon, List.flatMap_cons, List.append_assoc]
      · simp [List.getLast?_cons, hlast]
      · exact List.forall_mem_cons.mpr ⟨⟨_, _, rfl⟩, hw.reads⟩
      · rw [List.flatMap_cons, List.length_append]
        push_cast
        rw [hlen, ← Int.add_assoc]
        rcases hn with ⟨rfl, hnil⟩ | rfl
        · simp [hnil]
        · unfold i32
          rw [Int.bmod_add_bmod]

/-- Calls of `::read` that take all of `bs`, and one that finds nothing more. -/
inductive Drains : List Byte → List FdCall → Prop
  | nothing (len : Nat) : Drains [] [.read len none]
  | some {bs rest : List Byte} {calls : List FdCall} (len : Nat) : bs ≠ [] →
      Drains rest calls → Drains (bs ++ rest) (.read len (some bs) :: calls)

theorem Drains.bytesRead {bs : List Byte} {calls : List FdCall} (h : Drains bs calls) :
    calls.flatMap FdCall.bytesRead = bs := by
  induction h with
  | nothing len => rfl
  | some len _ _ ih =>
    rw [List.flatMap_cons, ih]
    rfl

/-- The loop of `read_from_fd` goes on until everything there is has been read. -/
theorem readFromFdLoop_drains (bs : List Byte) (h : ChunksInv cs) (nRead : Int) :
    ∃ offers n calls cs', readFromFdLoop nRead offers cs = some (n, calls, cs') ∧
      Drains bs calls := by
  induction hn : bs.length using Nat.strong_induction_on generalizing bs cs nRead with
  | _ n ih =>
    cases bs with
    | nil =>
      obtain ⟨len, cs', hstep, -⟩ := readStep_spec h none
      refine ⟨[], nRead, [sysRead none len], cs', ?_, Drains.nothing len⟩
      simp only [readFromFdLoop, hstep, Option.bind_eq_bind, Option.bind_some, Option.pure_def]
    | cons x xs =>
      obtain ⟨len, cs', hstep, hpos, hinv, -⟩ := readStep_spec h (some (x :: xs))
      have hlen : ((x :: xs).take len).length = min len n := by rw [List.length_take, hn]
      have hne : 0 < n := hn ▸ Nat.succ_pos _
      have hret : ¬ (sysRead (some (x :: xs)) len).ret ≤ 0 := by
        show ¬ (((x :: xs).take len).length : Int) ≤ 0
        rw [hlen]
        omega
      have hrest : ((x :: xs).drop len).length < n := by
        rw [List.length_drop, hn]
        omega
      obtain ⟨offers, m, calls, cs'', hloop, hdrains⟩ := ih _ hrest ((x :: xs).drop len) hinv
        (i32 (nRead + (sysRead (some (x :: xs)) len).ret)) rfl
      refine ⟨some (x :: xs) :: offers, m, sysRead (some (x :: xs)) len :: calls, cs'', ?_, ?_⟩
      · simp only [readFromFdLoop, hstep, Option.bind_eq_bind, Option.bind_some, hret, if_false,
          hloop, Option.pure_def]
      · have htake : (x :: xs).take len ≠ [] := by
          rw [← List.length_pos_iff, hlen]
          omega
        have hsplit := Drains.some len htake hdrains
        rw [List.take_append_drop] at hsplit
        exact hsplit

end Loops

-- ============================================================================
-- The operations on a buffer that satisfies the invariant
-- ============================================================================

def Inv (m : Marshal) : Prop := ChunksInv m.chunks

section Operations

variable {m : Marshal}

theorem inv_empty : empty.Inv := ChunksInv.nil

theorem inv_ofString {data : List Byte} (h : (data.length : Int) < 2 ^ 31) :
    (ofString data).Inv :=
  push_buffer ChunksInv.nil (by simp) h

/-- `write` with a fully written last chunk, or none. -/
theorem write_fresh (h : m.Inv) {p : List Byte} (hlen : (p.length : Int) < 2 ^ 31)
    (hneed : needsChunk m.chunks = some true) (hfull : ∀ d ∈ m.chunks, d.writeIdx = d.size) :
    ∃ m', m.write p = some ((p.length : Int), m') ∧ m'.Inv ∧
      m'.content = m.content ++ p := by
  refine ⟨⟨m.chunks ++ [Chunk.ofBuffer p], i32 (m.writeCounter + p.length)⟩, ?_,
    push_buffer h hfull hlen, by simp [content]⟩
  simp only [write, headCheck_eq h, hneed, Option.bind_eq_bind, Option.bind_some, if_true,
    Option.pure_def]

theorem write_spec (h : m.Inv) {p : List Byte} (hp : p ≠ [])
    (hlen : (p.length : Int) < 2 ^ 31) :
    ∃ m', m.write p = some ((p.length : Int), m') ∧ m'.Inv ∧
      m'.content = m.content ++ p := by
  rcases needsChunk_spec h with ⟨hneed, hfull⟩ | ⟨front, c, hcs, hneed, hroom⟩
  · exact write_fresh h hlen hneed hfull
  -- the last chunk takes at least one byte, and a fresh one takes the rest
  have hhead := headCheck_eq h
  have hinv : ChunksInv (front ++ [c]) := hcs ▸ h
  obtain ⟨⟨-, hfull⟩, hv, -⟩ := ChunksInv.concat_iff.mp hinv
  have hpos : 0 < min p.length c.room := by
    have hlp := List.length_pos_iff.mpr hp
    omega
  obtain ⟨hinv', hcon'⟩ := append_back hinv (List.length_take_le c.room p)
  have hback : onBack (·.write p) (front ++ [c])
      = some (min p.length c.room, front ++ [c.append (p.take c.room)]) :=
    onBack_concat _ (Chunk.write_eq hv p)
  rw [hcs] at hhead hneed
  by_cases hmore : min p.length c.room < p.length
  · have hdrop : p.drop (min p.length c.room) = p.drop c.room := by
      rw [Nat.min_eq_right (by omega)]
    have hfull' : (c.append (p.take c.room)).writeIdx = (c.append (p.take c.room)).size := by
      have hle := hv.write_le
      unfold Chunk.room at hmore ⊢
      rw [Chunk.append_writeIdx, Chunk.append_size, List.length_take]
      omega
    refine ⟨⟨front ++ [c.append (p.take c.room)] ++ [Chunk.ofBuffer (p.drop c.room)],
      i32 (m.writeCounter + p.length)⟩, ?_, ?_, ?_⟩
    · simp only [write, hhead, hcs, hneed, Option.bind_eq_bind, Option.bind_some,
        Bool.false_eq_true, if_false, hback, verify_bind hpos, hmore, if_true, hdrop,
        Option.pure_def]
    · refine push_buffer hinv' ?_ (by rw [List.length_drop]; omega)
      intro d hd
      rcases List.mem_append.mp hd with hd | hd
      · exact hfull d hd
      · rw [List.mem_singleton.mp hd]
        exact hfull'
    · change contents (front ++ [c.append (p.take c.room)] ++ [Chunk.ofBuffer (p.drop c.room)])
        = contents m.chunks ++ p
      rw [contents_append, hcon', hcs, List.append_assoc]
      simp
  · have htake : p.take c.room = p := List.take_of_length_le (by omega)
    refine ⟨⟨front ++ [c.append (p.take c.room)], i32 (m.writeCounter + p.length)⟩,
      ?_, hinv', ?_⟩
    · simp only [write, hhead, hcs, hneed, Option.bind_eq_bind, Option.bind_some,
        Bool.false_eq_true, if_false, hback, verify_bind hpos, hmore, Option.pure_def]
    · change contents (front ++ [c.append (p.take c.room)]) = contents m.chunks ++ p
      rw [hcon', hcs, htake]

theorem read_spec (h : m.Inv) (n : Nat) :
    ∃ m', m.read n = some (m.content.take n, m') ∧ m'.Inv ∧
      m'.content = m.content.drop n := by
  obtain ⟨cs', hloop, hinv, hcon⟩ := readLoop_spec h n
  refine ⟨{ m with chunks := cs' }, ?_, hinv, hcon⟩
  have hlen : ((contents m.chunks).take n).length ≤ n := List.length_take_le _ _
  simp only [read, headCheck_eq h, hloop, Option.bind_eq_bind, Option.bind_some,
    verify_bind hlen, headCheck_eq hinv, Option.pure_def]
  rfl

theorem peek_spec (h : m.Inv) (n : Nat) : m.peek n = some (m.content.take n) := by
  have hlen : ((contents m.chunks).take n).length ≤ n := List.length_take_le _ _
  simp only [peek, headCheck_eq h, peekLoop_spec h, Option.bind_eq_bind, Option.bind_some,
    verify_bind hlen, Option.pure_def]
  rfl

theorem writeToFd_spec (h : m.Inv) (accepts : List Int) :
    ∃ n calls m', m.writeToFd accepts = some (n, calls, m') ∧
      Written m.chunks calls m'.chunks ∧
      ((m.content.length : Int) < 2 ^ 31 →
        n = (calls.flatMap FdCall.bytesWritten).length) := by
  obtain ⟨n, calls, cs', hloop, hw, hn⟩ := writeToFdLoop_spec h accepts 0
  refine ⟨n, calls, { m with chunks := cs' }, ?_, hw, ?_⟩
  · simp only [writeToFd, headCheck_eq h, hloop, Option.bind_eq_bind, Option.bind_some,
      headCheck_eq hw.inv, Option.pure_def]
  · intro hlt
    have hlt' : (0 : Int) + (contents m.chunks).length < 2 ^ 31 := by
      rw [Int.zero_add]
      exact hlt
    rw [hn (Int.le_refl 0) hlt', Int.zero_add]

theorem readFromFd_spec (h : m.Inv) (offers : List (Option (List Byte))) :
    ∃ calls m', m.readFromFd offers =
        some (i32 (calls.flatMap FdCall.bytesRead).length, calls, m') ∧
      Received m.chunks calls m'.chunks := by
  obtain ⟨n, calls, cs', hloop, hw, hn⟩ := readFromFdLoop_spec h offers 0
  have hcount : n = i32 (calls.flatMap FdCall.bytesRead).length := by
    rcases hn with ⟨hn, hnil⟩ | hn
    · rw [hn, hnil]
      exact (i32_eq (Int.le_refl 0) (by decide)).symm
    · rw [hn, Int.zero_add]
  refine ⟨calls, { m with chunks := cs' }, ?_, hw⟩
  simp only [readFromFd, headCheck_eq h, hloop, Option.bind_eq_bind, Option.bind_some,
    headCheck_eq hw.inv, Option.pure_def, hcount]

theorem readFromFd_drains (h : m.Inv) (bs : List Byte) :
    ∃ offers calls m', m.readFromFd offers = some (i32 bs.length, calls, m') ∧
      Received m.chunks calls m'.chunks ∧ Drains bs calls := by
  obtain ⟨offers, n, calls, cs', hloop, hdrains⟩ := readFromFdLoop_drains bs h 0
  obtain ⟨calls', m', hread, hrec⟩ := readFromFd_spec h offers
  have hsame : calls = calls' := by
    simp only [readFromFd, headCheck_eq h, hloop, Option.bind_eq_bind, Option.bind_some,
      Option.bind_eq_some_iff, Option.pure_def, Option.some.injEq, Prod.mk.injEq] at hread
    obtain ⟨-, -, -, hcalls, -⟩ := hread
    exact hcalls
  subst hsame
  rw [hdrains.bytesRead] at hread
  exact ⟨offers, calls, m', hread, hrec, hdrains⟩

theorem setBookmark_spec (h : m.Inv) (h0 : m.writeCounter = 0) (junk : List Byte) :
    ∃ m', m.setBookmark junk = some m' ∧ m'.Inv ∧ m'.content = m.content ++ junk := by
  obtain ⟨cs', hres, hinv, hcon⟩ := reserve_spec junk h
  refine ⟨{ m with chunks := cs' }, ?_, hinv, hcon⟩
  simp only [setBookmark, Option.bind_eq_bind, verify_bind h0, headCheck_eq h, hres,
    Option.bind_some, Option.pure_def]

theorem contentSize_spec (h : m.Inv) (hlt : (m.content.length : Int) < 2 ^ 31) :
    m.contentSize = some (m.content.length : Int) := by
  have hlt' : (0 : Int) + (contents m.chunks).length < 2 ^ 31 := by
    rw [Int.zero_add]
    exact hlt
  rw [contentSize, contentSizeLoop_spec h (Int.le_refl 0) hlt', Int.zero_add]
  rfl

theorem contentSizeGt_spec (h : m.Inv) (hlt : (m.content.length : Int) < 2 ^ 31) (size : Int) :
    m.contentSizeGt size = some (decide ((m.content.length : Int) > size)) := by
  have hlt' : (0 : Int) + (contents m.chunks).length < 2 ^ 31 := by
    rw [Int.zero_add]
    exact hlt
  rw [contentSizeGt, contentSizeGtLoop_spec h (Int.le_refl 0) hlt', Int.zero_add]
  rfl

theorem contentSizeGt_zero (h : m.Inv) :
    m.contentSizeGt 0 = some (decide (m.content ≠ [])) :=
  contentSizeGtLoop_zero h rfl rfl

theorem dump_spec (h : m.Inv) (hlt : (m.content.length : Int) < 2 ^ 31) :
    m.dump = some m.content := by
  simp [dump, contentSize_spec h hlt, verify_bind]

end Operations

end Marshal

end VncProxy
