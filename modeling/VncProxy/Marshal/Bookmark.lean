/-
  VncProxy.Marshal.Bookmark

  `Marshal::Bookmark`: the raw pointers that `set_bookmark` hands out, and `write_bookmark`,
  which stores through them.

  A pointer names a chunk and an index of its `data_`.  Chunks are numbered in the order in
  which they come into the list; they enter it at the back and are deleted at the front, so
  the chunks of the list have the numbers from `deleted` on.  A store through a pointer
  into a chunk that has been deleted is undefined, which is `none` here.
-/
import VncProxy.Marshal.Codec
import Mathlib.Data.List.Infix

namespace VncProxy
namespace Marshal

open Lib (verify verify_bind verify_bind_eq_some runActs)

-- ============================================================================
-- Pointers
-- ============================================================================

/-- `&data_[idx]` -/
structure Ptr where
  chunk : Nat
  idx : Nat
deriving DecidableEq, Repr

/-- `size_` is the length of `ptr_`. -/
structure Bookmark where
  ptr : List Ptr
deriving DecidableEq, Repr

/-- The loop of `set_bookmark`, with the pointers that it stores. -/
def place (deleted : Nat) : List Byte → List Chunk → Option (List Ptr × List Chunk)
  | [], chunks => some ([], chunks)
  | b :: junk, chunks => do
    let chunks ← withRoom chunks
    let (idx, chunks) ← onBack (fun c => do return (c.writeIdx, ← c.setBookmark b)) chunks
    let (ptr, chunks') ← place deleted junk chunks
    return (⟨deleted + (chunks.length - 1), idx⟩ :: ptr, chunks')

/-- `data_[idx] = b` -/
def assign (c : Chunk) (idx : Nat) (b : Byte) : Chunk := { c with data := c.data.set idx b }

/-- `*p = b` -/
def store (deleted : Nat) (p : Ptr) (b : Byte) (chunks : List Chunk) : Option (List Chunk) := do
  verify (deleted ≤ p.chunk)
  let c ← chunks[p.chunk - deleted]?
  verify (p.idx < c.writeIdx)
  return chunks.set (p.chunk - deleted) (assign c p.idx b)

/-- The loop of `write_bookmark`, where `pc` is the memory that is copied. -/
def storeLoop (deleted : Nat) (pc : Nat → Byte) :
    Nat → List Ptr → List Chunk → Option (List Chunk)
  | _, [], chunks => some chunks
  | i, p :: ptr, chunks => do
    storeLoop deleted pc (i + 1) ptr (← store deleted p (pc i) chunks)

-- ============================================================================
-- Calls
-- ============================================================================

/-- A buffer and those who use it. -/
structure Session where
  m : Marshal
  /-- how many of its chunks have been deleted -/
  deleted : Nat
  /-- each with the number of the bytes that were written before it was set -/
  bookmarks : List (Nat × Bookmark)
  /-- the bytes that have been read -/
  got : List Byte

def Session.start (m : Marshal) : Session := ⟨m, 0, [], []⟩

inductive Call
  | setBookmark (junk : List Byte)
  | write (p : List Byte)
  | getWriteCounterAndReset
  /-- the `k`-th bookmark that was set -/
  | writeBookmark (k : Nat) (pc : Nat → Byte)
  | read (n : Nat)

def Call.exec (a : Call) (s : Session) : Option Session :=
  match a with
  | .setBookmark junk => do
    verify (s.m.writeCounter = 0)
    headCheck s.m.chunks
    let (ptr, chunks) ← place s.deleted junk s.m.chunks
    return { s with
      m := { s.m with chunks }
      bookmarks := s.bookmarks ++ [(s.got.length + s.m.content.length, ⟨ptr⟩)] }
  | .write p => do
    let (_, m) ← s.m.write p
    return { s with m }
  | .getWriteCounterAndReset => some { s with m := s.m.getWriteCounterAndReset.2 }
  | .writeBookmark k pc => do
    let (_, bmark) ← s.bookmarks[k]?
    let chunks ← storeLoop s.deleted pc 0 bmark.ptr s.m.chunks
    return { s with m := { s.m with chunks } }
  | .read n => do
    let (bs, m) ← s.m.read n
    return { s with
      m
      deleted := s.deleted + (s.m.chunks.length - m.chunks.length)
      got := s.got ++ bs }

/-- What a caller has to observe: no bookmark is set while bytes are being counted, no empty
    `write`, and no `write_bookmark` of a bookmark of which a byte has been read. -/
def Call.Observed (s : Session) : Call → Prop
  | .setBookmark _ => s.m.writeCounter = 0
  | .write p => p ≠ [] ∧ (p.length : Int) < 2 ^ 31
  | .writeBookmark k _ =>
    match s.bookmarks[k]? with
    | none => False
    | some (pos, bmark) => bmark.ptr ≠ [] → s.got.length ≤ pos
  | .getWriteCounterAndReset | .read _ => True

instance (s : Session) (a : Call) : Decidable (a.Observed s) := by
  unfold Call.Observed
  split <;> try infer_instance
  split <;> infer_instance

/-- Every call observes it when its turn comes. -/
def Properly : List Call → Session → Prop
  | [], _ => True
  | a :: as, s => a.Observed s ∧ ∀ s' ∈ a.exec s, Properly as s'

instance decidableProperly : ∀ as s, Decidable (Properly as s)
  | [], _ => .isTrue trivial
  | a :: as, s =>
    have : DecidablePred (Properly as) := decidableProperly as
    inferInstanceAs (Decidable (a.Observed s ∧ ∀ s' ∈ a.exec s, Properly as s'))

-- ============================================================================
-- What is in the stream
-- ============================================================================

/-- The last value that is written to bookmark `k`. -/
def lastValue (k : Nat) : List Call → Option (Nat → Byte)
  | [] => none
  | .writeBookmark j pc :: as => if j = k then (lastValue k as).or (some pc) else lastValue k as
  | _ :: as => lastValue k as

/-- The bytes of a bookmark: its last value, or what they happened to be. -/
def slotBytes (junk : List Byte) : Option (Nat → Byte) → List Byte
  | none => junk
  | some pc => (List.range junk.length).map pc

/-- All that the calls put into the buffer, in order, with the last value of each bookmark in
    the place where it was set; `k` bookmarks were set before. -/
def patched (k : Nat) : List Call → List Byte
  | [] => []
  | .setBookmark junk :: as => slotBytes junk (lastValue k as) ++ patched (k + 1) as
  | .write p :: as => p ++ patched k as
  | _ :: as => patched k as

-- ============================================================================
-- Places in the stream
-- ============================================================================

/-- How many bookmarks the calls set. -/
def marks : List Call → Nat
  | [] => 0
  | .setBookmark _ :: as => marks as + 1
  | _ :: as => marks as

/-- Where the bytes of bookmark `j` begin, and how many they are. -/
def slot (k : Nat) (j : Nat) : List Call → Option (Nat × Nat)
  | [] => none
  | .setBookmark junk :: as =>
    if j = k then some (0, junk.length)
    else (slot (k + 1) j as).map fun x => (junk.length + x.1, x.2)
  | .write p :: as => (slot k j as).map fun x => (p.length + x.1, x.2)
  | _ :: as => slot k j as

/-- What one call adds to the end. -/
def Call.added : Call → List Byte
  | .setBookmark junk => junk
  | .write p => p
  | _ => []

/-- `bs` in place of what stands at `o`. -/
def overwrite (l : List Byte) (o : Nat) (bs : List Byte) : List Byte :=
  l.take o ++ bs ++ l.drop (o + bs.length)

@[simp] theorem overwrite_nil (l : List Byte) (o : Nat) : overwrite l o [] = l := by
  rw [overwrite, List.append_nil, List.length_nil, Nat.add_zero, List.take_append_drop]

theorem overwrite_append_right (x l : List Byte) (o : Nat) (bs : List Byte) :
    overwrite (x ++ l) (x.length + o) bs = x ++ overwrite l o bs := by
  rw [overwrite, overwrite, Nat.add_assoc, List.take_length_add_append,
    List.drop_length_add_append, List.append_assoc, List.append_assoc, List.append_assoc]

theorem overwrite_prefix {x bs : List Byte} (l : List Byte) (h : x.length = bs.length) :
    overwrite (x ++ l) 0 bs = bs ++ l := by
  rw [overwrite, Nat.zero_add, List.take_zero, List.nil_append, ← h, List.drop_left]

theorem overwrite_set {l : List Byte} {o : Nat} (h : o < l.length) (b : Byte) (bs : List Byte) :
    overwrite (l.set o b) (o + 1) bs = overwrite l o (b :: bs) := by
  have htake : (l.set o b).take (o + 1) = l.take o ++ [b] := by
    rw [List.take_set, List.take_add_one, List.getElem?_eq_getElem h,
      List.set_append_right _ _ (List.length_take_le _ _), List.length_take_of_le (Nat.le_of_lt h),
      Nat.sub_self]
    rfl
  rw [overwrite, overwrite, htake, List.drop_set_of_lt (by omega), List.length_cons,
    List.append_assoc, List.append_assoc, List.append_assoc, List.singleton_append,
    Nat.add_assoc, Nat.add_comm 1]
  rfl

section Stream

variable {k j o n : Nat} {as : List Call} {a : Call} {pc : Nat → Byte}

@[simp] theorem length_slotBytes (junk : List Byte) (v : Option (Nat → Byte)) :
    (slotBytes junk v).length = junk.length := by
  cases v with
  | none => rfl
  | some pc => rw [slotBytes, List.length_map, List.length_range]

theorem lastValue_append (h : ∀ pc, a ≠ .writeBookmark k pc) :
    lastValue k (as ++ [a]) = lastValue k as := by
  induction as with
  | nil =>
    cases a with
    | writeBookmark j pc =>
      have hj : j ≠ k := fun hjk => h pc (by rw [hjk])
      simp [lastValue, hj]
    | _ => rfl
  | cons c as ih =>
    rw [List.cons_append]
    cases c <;> simp only [lastValue, ih]

theorem lastValue_writeBookmark :
    lastValue k (as ++ [.writeBookmark k pc]) = some pc := by
  induction as with
  | nil => simp [lastValue]
  | cons c as ih =>
    rw [List.cons_append]
    cases c with
    | writeBookmark j pc' =>
      by_cases hj : j = k <;> simp [lastValue, hj, ih]
    | _ => exact ih

/-- A call that is no `write_bookmark` adds to the end. -/
theorem patched_append (h : ∀ j pc, a ≠ .writeBookmark j pc) :
    patched k (as ++ [a]) = patched k as ++ a.added := by
  induction as generalizing k with
  | nil => cases a <;> simp [patched, Call.added, lastValue, slotBytes]
  | cons c as ih =>
    rw [List.cons_append]
    cases c with
    | setBookmark junk =>
      rw [patched, patched, ih, lastValue_append (h k), List.append_assoc]
    | write p => rw [patched, patched, ih, List.append_assoc]
    | _ => exact ih

/-- A bookmark that was set before. -/
theorem patched_writeBookmark_lt (h : j < k) :
    patched k (as ++ [.writeBookmark j pc]) = patched k as := by
  induction as generalizing k with
  | nil => rfl
  | cons c as ih =>
    rw [List.cons_append]
    cases c with
    | setBookmark junk =>
      have hne : ∀ pc', (.writeBookmark j pc : Call) ≠ .writeBookmark k pc' := by
        intro pc' heq
        exact absurd (Call.writeBookmark.inj heq).1 (Nat.ne_of_lt h)
      rw [patched, patched, ih (Nat.lt_succ_of_lt h), lastValue_append hne]
    | write p => rw [patched, patched, ih h]
    | _ => exact ih h

/-- `write_bookmark` changes the bytes of its slot. -/
theorem patched_writeBookmark (h : slot k j as = some (o, n)) :
    patched k (as ++ [.writeBookmark j pc]) =
      overwrite (patched k as) o ((List.range n).map pc) := by
  induction as generalizing k o with
  | nil => cases h
  | cons c as ih =>
    rw [List.cons_append]
    cases c with
    | setBookmark junk =>
      rw [slot] at h
      by_cases hj : j = k
      · rw [if_pos hj] at h
        obtain ⟨rfl, rfl⟩ := Prod.mk.inj (Option.some.inj h)
        subst hj
        rw [patched, patched, lastValue_writeBookmark, patched_writeBookmark_lt (Nat.lt_succ_self j),
          overwrite_prefix _ (by simp)]
        rfl
      · rw [if_neg hj] at h
        obtain ⟨⟨o', n'⟩, hslot, heq⟩ := Option.map_eq_some_iff.mp h
        obtain ⟨rfl, rfl⟩ := Prod.mk.inj heq
        have hne : ∀ pc', (.writeBookmark j pc : Call) ≠ .writeBookmark k pc' := by
          intro pc' heq'
          exact hj (Call.writeBookmark.inj heq').1
        rw [patched, patched, ih hslot, lastValue_append hne,
          ← length_slotBytes junk (lastValue k as), overwrite_append_right]
    | write p =>
      obtain ⟨⟨o', n'⟩, hslot, heq⟩ := Option.map_eq_some_iff.mp h
      obtain ⟨rfl, rfl⟩ := Prod.mk.inj heq
      rw [patched, patched, ih hslot, overwrite_append_right]
    | _ => exact ih h

/-- Later calls leave the slot where it is. -/
theorem slot_append {x : Nat × Nat} (h : slot k j as = some x) : slot k j (as ++ [a]) = some x := by
  induction as generalizing k x with
  | nil => cases h
  | cons c as ih =>
    rw [List.cons_append]
    cases c with
    | setBookmark junk =>
      rw [slot] at h ⊢
      by_cases hj : j = k
      · rw [if_pos hj] at h ⊢
        exact h
      · rw [if_neg hj] at h ⊢
        obtain ⟨y, hslot, rfl⟩ := Option.map_eq_some_iff.mp h
        rw [ih hslot, Option.map_some]
    | write p =>
      obtain ⟨y, hslot, rfl⟩ := Option.map_eq_some_iff.mp h
      rw [slot, ih hslot, Option.map_some]
    | _ => exact ih h

/-- A bookmark is set at the end. -/
theorem slot_setBookmark (junk : List Byte) :
    slot k (k + marks as) (as ++ [.setBookmark junk]) =
      some ((patched k as).length, junk.length) := by
  induction as generalizing k with
  | nil => simp [slot, marks, patched]
  | cons c as ih =>
    rw [List.cons_append]
    cases c with
    | setBookmark junk' =>
      have hidx : k + (marks as + 1) = k + 1 + marks as := by omega
      rw [slot, marks, if_neg (by omega), hidx, ih, patched, List.length_append, length_slotBytes]
      rfl
    | write p =>
      show slot k (k + marks as) (.write p :: (as ++ [.setBookmark junk])) = _
      rw [slot, ih, patched, List.length_append]
      rfl
    | _ => exact ih

theorem marks_append : marks (as ++ [a]) = marks as + marks [a] := by
  induction as with
  | nil => rw [List.nil_append, marks, Nat.zero_add]
  | cons c as ih =>
    rw [List.cons_append]
    cases c with
    | setBookmark junk =>
      rw [marks, marks, ih]
      omega
    | _ => exact ih

end Stream

-- ============================================================================
-- Where the content lies
-- ============================================================================

/-- Pointers to the content of a chunk with this number. -/
def chunkPtrs (num : Nat) (c : Chunk) : List Ptr :=
  (List.range' c.readIdx (c.writeIdx - c.readIdx)).map (Ptr.mk num)

/-- Pointers to the content of a list of chunks, the first of which has number `d`. -/
def ptrs (d : Nat) : List Chunk → List Ptr
  | [] => []
  | c :: cs => chunkPtrs d c ++ ptrs (d + 1) cs

section Ptrs

variable {d n : Nat} {c : Chunk} {cs cs' cs'' : List Chunk}

@[simp] theorem length_chunkPtrs : (chunkPtrs d c).length = c.content.length := by
  rw [chunkPtrs, List.length_map, List.length_range', Chunk.content_length]

@[simp] theorem length_ptrs : (ptrs d cs).length = (contents cs).length := by
  induction cs generalizing d with
  | nil => rfl
  | cons c cs ih => rw [ptrs, List.length_append, length_chunkPtrs, ih, contents_cons,
      List.length_append]

theorem ptrs_append {ds : List Chunk} : ptrs d (cs ++ ds) = ptrs d cs ++ ptrs (d + cs.length) ds := by
  induction cs generalizing d with
  | nil => rfl
  | cons c cs ih =>
    rw [List.cons_append, ptrs, ih, ptrs, List.append_assoc, List.length_cons, Nat.add_right_comm,
      Nat.add_assoc]

theorem ptrs_prefix {ds : List Chunk} : ptrs d cs <+: ptrs d (cs ++ ds) := by
  rw [ptrs_append]
  exact List.prefix_append _ _

theorem ptrs_singleton : ptrs d [c] = chunkPtrs d c := List.append_nil _

theorem chunkPtrs_append (hv : c.Valid) (bs : List Byte) :
    chunkPtrs d (c.append bs) =
      chunkPtrs d c ++ (List.range' c.writeIdx bs.length).map (Ptr.mk d) := by
  have hle := hv.read_le
  have hlen : c.writeIdx + bs.length - c.readIdx = (c.writeIdx - c.readIdx) + bs.length := by omega
  have hstart : c.readIdx + (c.writeIdx - c.readIdx) = c.writeIdx := by omega
  rw [chunkPtrs, chunkPtrs, Chunk.append_writeIdx, Chunk.append_readIdx, hlen, ← List.map_append]
  congr 1
  rw [← List.range'_append_1, hstart]

theorem chunkPtrs_consume (k : Nat) : chunkPtrs d (c.consume k) <:+ chunkPtrs d c := by
  have hdrop : chunkPtrs d (c.consume k) = (chunkPtrs d c).drop k := by
    rw [chunkPtrs, chunkPtrs, ← List.map_drop, List.drop_range', Chunk.consume_readIdx,
      Chunk.consume_writeIdx, Nat.sub_add_eq, Nat.mul_one]
  rw [hdrop]
  exact List.drop_suffix k _

/-- `cs'` is what a reader has left of `cs`: the chunks that are gone were at the front. -/
def Left (d : Nat) (cs cs' : List Chunk) : Prop :=
  cs'.length ≤ cs.length ∧ ptrs (d + (cs.length - cs'.length)) cs' <:+ ptrs d cs

theorem Left.refl : Left d cs cs := by
  refine ⟨Nat.le_refl _, ?_⟩
  rw [Nat.sub_self]
  exact List.suffix_refl _

theorem Left.trans (h : Left d cs cs') (h' : Left (d + (cs.length - cs'.length)) cs' cs'') :
    Left d cs cs'' := by
  obtain ⟨hle, hsuf⟩ := h
  obtain ⟨hle', hsuf'⟩ := h'
  refine ⟨Nat.le_trans hle' hle, ?_⟩
  have hnum : d + (cs.length - cs'.length) + (cs'.length - cs''.length)
      = d + (cs.length - cs''.length) := by omega
  rw [hnum] at hsuf'
  exact hsuf'.trans hsuf

/-- Some bytes of the front chunk are read, and it is deleted if these were its last. -/
theorem dropRead_left {k : Nat} (h : dropRead (c.consume k :: cs) = some cs') :
    Left d (c :: cs) cs' := by
  have hfront : ptrs d (c.consume k :: cs) <:+ ptrs d (c :: cs) := by
    obtain ⟨pre, hpre⟩ := chunkPtrs_consume (d := d) (c := c) k
    exact ⟨pre, by rw [ptrs, ptrs, ← hpre, List.append_assoc]⟩
  obtain ⟨full, -, hret⟩ := Option.bind_eq_some_iff.mp h
  by_cases hfull : full = true
  · rw [if_pos hfull] at hret
    obtain rfl := Option.some.inj hret
    refine ⟨Nat.le_succ _, ?_⟩
    rw [List.length_cons, Nat.add_sub_cancel_left]
    exact List.suffix_append _ _
  · rw [if_neg hfull] at hret
    obtain rfl := Option.some.inj hret
    refine ⟨Nat.le_refl _, ?_⟩
    rw [List.length_cons, List.length_cons, Nat.sub_self]
    exact hfront

theorem readLoop_left {bs : List Byte} (h : readLoop cs n = some (bs, cs')) : Left d cs cs' := by
  induction n using Nat.strong_induction_on generalizing d cs bs with
  | _ n ih =>
    cases cs with
    | nil =>
      rw [readLoop] at h
      obtain ⟨-, rfl⟩ := Prod.mk.inj (Option.some.inj h)
      exact Left.refl
    | cons c cs =>
      rw [readLoop] at h
      by_cases hn : n = 0
      · rw [if_pos hn] at h
        obtain ⟨-, rfl⟩ := Prod.mk.inj (Option.some.inj h)
        exact Left.refl
      rw [if_neg hn] at h
      obtain ⟨⟨bs₀, c'⟩, hread, hturn⟩ := Option.bind_eq_some_iff.mp h
      obtain ⟨cs₁, hdrop, hnext⟩ := Option.bind_eq_some_iff.mp hturn
      obtain ⟨-, hread⟩ := verify_bind_eq_some.mp hread
      obtain ⟨-, hread⟩ := verify_bind_eq_some.mp hread
      obtain ⟨-, hc⟩ := Prod.mk.inj (Option.some.inj hread)
      have hleft : Left d (c :: cs) cs₁ := dropRead_left (hc ▸ hdrop)
      by_cases hzero : bs₀.length = 0
      · rw [if_pos hzero] at hnext
        obtain ⟨-, rfl⟩ := Prod.mk.inj (Option.some.inj hnext)
        exact hleft
      · rw [if_neg hzero] at hnext
        obtain ⟨⟨bs', cs₂⟩, hrest, hret⟩ := Option.bind_eq_some_iff.mp hnext
        obtain ⟨-, rfl⟩ := Prod.mk.inj (Option.some.inj hret)
        exact hleft.trans (ih _ (by omega) hrest)

variable {m m' : Marshal}

/-- `read` takes the pointers to what it reads off the front. -/
theorem ptrs_read (h : m.Inv) {bs : List Byte} (hread : m.read n = some (bs, m')) :
    ptrs (d + (m.chunks.length - m'.chunks.length)) m'.chunks = (ptrs d m.chunks).drop n := by
  obtain ⟨m'', heq, -, hcon⟩ := read_spec h n
  rw [hread] at heq
  obtain ⟨-, rfl⟩ := Prod.mk.inj (Option.some.inj heq)
  have hleft : Left d m.chunks m'.chunks := by
    obtain ⟨-, -, hread⟩ := Option.bind_eq_some_iff.mp hread
    obtain ⟨⟨bs', cs'⟩, hloop, hread⟩ := Option.bind_eq_some_iff.mp hread
    obtain ⟨-, hread⟩ := verify_bind_eq_some.mp hread
    obtain ⟨-, -, hread⟩ := Option.bind_eq_some_iff.mp hread
    obtain ⟨-, rfl⟩ := Prod.mk.inj (Option.some.inj hread)
    exact readLoop_left hloop
  have hlen : (contents m'.chunks).length = (contents m.chunks).length - n := by
    rw [← List.length_drop]
    exact congrArg List.length hcon
  rw [List.suffix_iff_eq_drop.mp hleft.2, length_ptrs, length_ptrs, hlen, List.drop_eq_drop_iff,
    length_ptrs]
  omega

/-- `write` adds pointers at the end. -/
theorem ptrs_write (h : m.Inv) {p : List Byte} {k : Int} (hwrite : m.write p = some (k, m')) :
    ptrs d m.chunks <+: ptrs d m'.chunks := by
  obtain ⟨-, -, hwrite⟩ := Option.bind_eq_some_iff.mp hwrite
  rcases needsChunk_spec h with ⟨hneed, -⟩ | ⟨front, c, hcs, hneed, -⟩
  · rw [hneed] at hwrite
    obtain ⟨-, rfl⟩ := Prod.mk.inj (Option.some.inj hwrite)
    exact ptrs_prefix
  · have hv := (ChunksInv.concat_iff.mp (hcs ▸ h : ChunksInv (front ++ [c]))).2.1
    have hback : onBack (·.write p) m.chunks
        = some (min p.length c.room, front ++ [c.append (p.take c.room)]) := by
      rw [hcs]
      exact onBack_concat _ (Chunk.write_eq hv p)
    have happend : ptrs d m.chunks <+: ptrs d (front ++ [c.append (p.take c.room)]) := by
      rw [hcs, ptrs_append, ptrs_append, ptrs_singleton, ptrs_singleton, chunkPtrs_append hv,
        ← List.append_assoc]
      exact List.prefix_append _ _
    rw [hneed] at hwrite
    simp only [Option.bind_eq_bind, Option.bind_some, Bool.false_eq_true, if_false, hback]
      at hwrite
    obtain ⟨-, hwrite⟩ := verify_bind_eq_some.mp hwrite
    by_cases hmore : min p.length c.room < p.length
    · rw [if_pos hmore] at hwrite
      obtain ⟨-, rfl⟩ := Prod.mk.inj (Option.some.inj hwrite)
      exact happend.trans ptrs_prefix
    · rw [if_neg hmore] at hwrite
      obtain ⟨-, rfl⟩ := Prod.mk.inj (Option.some.inj hwrite)
      exact happend

/-- A new chunk has no content. -/
theorem withRoom_ptrs (h : withRoom cs = some cs') : ptrs d cs' = ptrs d cs := by
  obtain ⟨full, -, hret⟩ := Option.bind_eq_some_iff.mp h
  by_cases hfull : full = true
  · rw [if_pos hfull] at hret
    obtain rfl := Option.some.inj hret
    rw [ptrs_append]
    exact List.append_nil _
  · rw [if_neg hfull] at hret
    obtain rfl := Option.some.inj hret
    rfl

/-- The loop of `set_bookmark` does the same to the chunks as `reserve`. -/
theorem place_reserve (junk : List Byte) : (place d junk cs).map Prod.snd = reserve junk cs := by
  induction junk generalizing cs with
  | nil => rfl
  | cons b junk ih =>
    rw [place, reserve]
    cases withRoom cs with
    | none => rfl
    | some cs₁ =>
      simp only [Option.bind_eq_bind, Option.bind_some, onBack]
      cases cs₁.getLast? with
      | none => rfl
      | some c =>
        cases hset : c.setBookmark b with
        | none => simp only [hset, Option.bind_none, Option.map_none]
        | some c' =>
          simp only [hset, Option.bind_some, Option.pure_def, ← ih]
          cases place d junk (cs₁.dropLast ++ [c']) <;> rfl

/-- `set_bookmark` adds its own pointers at the end. -/
theorem place_spec (h : ChunksInv cs) (junk : List Byte) :
    ∃ ptr cs', place d junk cs = some (ptr, cs') ∧ ptrs d cs' = ptrs d cs ++ ptr := by
  induction junk generalizing cs with
  | nil => exact ⟨[], cs, rfl, (List.append_nil _).symm⟩
  | cons b junk ih =>
    obtain ⟨front, c, hroom, hinv, hpos, -⟩ := withRoom_spec h
    have hv := (ChunksInv.concat_iff.mp hinv).2.1
    have hset : (fun c' : Chunk => do return (c'.writeIdx, ← c'.setBookmark b)) c
        = some (c.writeIdx, c.append [b]) := by
      simp [Chunk.setBookmark_eq hv (by unfold Chunk.room at hpos; omega)]
    obtain ⟨hinv', -⟩ := append_back hinv (show [b].length ≤ c.room from hpos)
    obtain ⟨ptr, cs', heq, hptrs⟩ := ih hinv'
    refine ⟨⟨d + front.length, c.writeIdx⟩ :: ptr, cs', ?_, ?_⟩
    · simp only [place, hroom, Option.bind_eq_bind, Option.bind_some]
      rw [onBack_concat _ hset]
      simp only [Option.bind_some, heq, Option.pure_def, List.length_append, List.length_singleton,
        Nat.add_sub_cancel]
    · rw [hptrs, ptrs_append, ptrs_singleton, chunkPtrs_append hv, ← withRoom_ptrs hroom,
        ptrs_append, ptrs_singleton]
      simp

@[simp] theorem assign_readIdx (idx : Nat) (b : Byte) : (assign c idx b).readIdx = c.readIdx := rfl

@[simp] theorem assign_writeIdx (idx : Nat) (b : Byte) :
    (assign c idx b).writeIdx = c.writeIdx := List.length_set

theorem valid_assign (h : c.Valid) (idx : Nat) (b : Byte) : (assign c idx b).Valid := by
  refine ⟨?_, ?_, h.size_ge, h.size_lt⟩
  · rw [assign_writeIdx]
    exact h.read_le
  · rw [assign_writeIdx]
    exact h.write_le

theorem chunkPtrs_assign (idx : Nat) (b : Byte) : chunkPtrs d (assign c idx b) = chunkPtrs d c := by
  rw [chunkPtrs, assign_writeIdx, assign_readIdx, chunkPtrs]

theorem content_assign (o : Nat) (b : Byte) :
    (assign c (c.readIdx + o) b).content = c.content.set o b := by
  show (c.data.set (c.readIdx + o) b).drop c.readIdx = _
  rw [List.drop_set, if_neg (by omega), Nat.add_sub_cancel_left]
  rfl

theorem store_cons {p : Ptr} {b : Byte} (h : store (d + 1) p b cs = some cs') :
    store d p b (c :: cs) = some (c :: cs') := by
  obtain ⟨hle, h⟩ := verify_bind_eq_some.mp h
  obtain ⟨c', hc', h⟩ := Option.bind_eq_some_iff.mp h
  obtain ⟨hidx, h⟩ := verify_bind_eq_some.mp h
  obtain rfl := Option.some.inj h
  have hnum : p.chunk - d = p.chunk - (d + 1) + 1 := by omega
  simp only [store, Option.bind_eq_bind, verify_bind (show d ≤ p.chunk by omega), hnum,
    List.getElem?_cons_succ, hc', Option.bind_some, verify_bind hidx, List.set_cons_succ,
    Option.pure_def]

/-- A store through a pointer to the content changes that byte and nothing else. -/
theorem store_spec (h : ChunksInv cs) {o : Nat} {p : Ptr} (hp : (ptrs d cs)[o]? = some p)
    (b : Byte) :
    ∃ cs', store d p b cs = some cs' ∧ ChunksInv cs' ∧ ptrs d cs' = ptrs d cs ∧
      contents cs' = (contents cs).set o b ∧ (cs' = [] ↔ cs = []) := by
  induction cs generalizing d o with
  | nil => cases hp
  | cons c cs ih =>
    obtain ⟨hv, hr, hfull, hcs⟩ := ChunksInv.cons_iff.mp h
    have hread := hv.read_le
    rw [ptrs] at hp
    by_cases ho : o < c.content.length
    · -- the byte is in the first chunk
      rw [List.getElem?_append_left (by rw [length_chunkPtrs]; exact ho), chunkPtrs,
        List.getElem?_map, List.getElem?_range' (by rw [← Chunk.content_length]; exact ho),
        Nat.one_mul] at hp
      obtain rfl := Option.some.inj hp
      have hw : c.readIdx + o < c.writeIdx := by
        rw [Chunk.content_length] at ho
        omega
      refine ⟨assign c (c.readIdx + o) b :: cs, ?_, ?_, ?_, ?_, by simp⟩
      · simp only [store, Option.bind_eq_bind, verify_bind (Nat.le_refl d), Nat.sub_self,
          List.getElem?_cons_zero, Option.bind_some, verify_bind hw, List.set_cons_zero,
          Option.pure_def]
      · apply ChunksInv.cons_iff.mpr
        refine ⟨valid_assign hv _ b, hr, ?_, hcs⟩
        intro hne
        rw [assign_writeIdx]
        exact hfull hne
      · rw [ptrs, chunkPtrs_assign, ptrs]
      · rw [contents_cons, content_assign, contents_cons, List.set_append_left _ _ ho]
    · -- it is in a later one
      have ho' := Nat.not_lt.mp ho
      rw [List.getElem?_append_right (by rw [length_chunkPtrs]; exact ho'), length_chunkPtrs] at hp
      obtain ⟨cs', hstore, hinv, hptrs, hcon, hnil⟩ := ih hcs hp
      refine ⟨c :: cs', store_cons hstore, ?_, ?_, ?_, by simp⟩
      · apply ChunksInv.cons_iff.mpr
        exact ⟨hv, hr, fun hne => hfull fun h0 => hne (hnil.mpr h0), hinv⟩
      · rw [ptrs, hptrs, ptrs]
      · rw [contents_cons, hcon, contents_cons, List.set_append_right _ _ ho']

/-- `write_bookmark` changes the bytes under its pointers and nothing else. -/
theorem storeLoop_spec (h : ChunksInv cs) {o : Nat} {ptr : List Ptr}
    (hptr : ptr <+: (ptrs d cs).drop o) (pc : Nat → Byte) (i : Nat) :
    ∃ cs', storeLoop d pc i ptr cs = some cs' ∧ ChunksInv cs' ∧ ptrs d cs' = ptrs d cs ∧
      contents cs' = overwrite (contents cs) o ((List.range' i ptr.length).map pc) := by
  induction ptr generalizing cs o i with
  | nil => exact ⟨cs, rfl, h, rfl, (overwrite_nil _ _).symm⟩
  | cons p ptr ih =>
    obtain ⟨rest, hrest⟩ := hptr
    have hp : (ptrs d cs)[o]? = some p := by
      rw [← Nat.add_zero o, ← List.getElem?_drop, ← hrest]
      rfl
    have ho : o < (contents cs).length := by
      rw [← length_ptrs (d := d)]
      exact (List.getElem?_eq_some_iff.mp hp).1
    obtain ⟨cs₁, hstore, hinv, hptrs, hcon, -⟩ := store_spec h hp (pc i)
    have hnext : ptr <+: (ptrs d cs₁).drop (o + 1) := by
      refine ⟨rest, ?_⟩
      rw [hptrs, ← List.drop_drop, ← hrest]
      rfl
    obtain ⟨cs', hloop, hinv', hptrs', hcon'⟩ := ih hinv hnext (i + 1)
    refine ⟨cs', ?_, hinv', hptrs'.trans hptrs, ?_⟩
    · simp only [storeLoop, hstore, Option.bind_eq_bind, Option.bind_some, hloop]
    · rw [hcon', hcon, overwrite_set ho, List.length_cons, List.range'_succ, List.map_cons]

end Ptrs

-- ============================================================================
-- Runs
-- ============================================================================

/-- After the calls `past` on a buffer that held `q`: the stream is what `patched` says, every
    bookmark knows its place in it, and the pointers of a bookmark that has not been read point
    to that place. -/
structure Session.Tracks (q : List Byte) (past : List Call) (s : Session) : Prop where
  inv : s.m.Inv
  stream : s.got ++ s.m.content = q ++ patched 0 past
  count : s.bookmarks.length = marks past
  placed : ∀ (k pos : Nat) (bmark : Bookmark), s.bookmarks[k]? = some (pos, bmark) →
    ∃ o, slot 0 k past = some (o, bmark.ptr.length) ∧ pos = q.length + o
  points : ∀ (k pos : Nat) (bmark : Bookmark), s.bookmarks[k]? = some (pos, bmark) → s.got.length ≤ pos →
    bmark.ptr <+: (ptrs s.deleted s.m.chunks).drop (pos - s.got.length)

section Runs

variable {q : List Byte} {past : List Call} {s : Session} {a : Call}

theorem getElem?_snoc {α : Type _} {l : List α} {x y : α} {k : Nat}
    (h : (l ++ [x])[k]? = some y) : l[k]? = some y ∨ k = l.length ∧ x = y := by
  rcases Nat.lt_trichotomy k l.length with hk | hk | hk
  · rw [List.getElem?_append_left hk] at h
    exact Or.inl h
  · rw [hk, List.getElem?_concat_length] at h
    exact Or.inr ⟨hk, Option.some.inj h⟩
  · rw [List.getElem?_eq_none (by rw [List.length_append, List.length_singleton]; omega)] at h
    cases h

theorem Session.tracks_start {m : Marshal} (h : m.Inv) : (start m).Tracks m.content [] := by
  refine ⟨h, (List.append_nil _).symm, rfl, ?_, ?_⟩
  · intro k pos bmark hk
    cases hk
  · intro k pos bmark hk
    cases hk

/-- A call that sets no bookmark and fills none. -/
theorem Session.Tracks.keep {s' : Session} (h : s.Tracks q past)
    (hset : ∀ junk, a ≠ .setBookmark junk) (hfill : ∀ j pc, a ≠ .writeBookmark j pc)
    (hinv : s'.m.Inv) (hmarks : s'.bookmarks = s.bookmarks)
    (hstream : s'.got ++ s'.m.content = s.got ++ s.m.content ++ a.added)
    (hpoints : ∀ pos, s'.got.length ≤ pos → s.got.length ≤ pos ∧
      (ptrs s.deleted s.m.chunks).drop (pos - s.got.length) <+:
        (ptrs s'.deleted s'.m.chunks).drop (pos - s'.got.length)) :
    s'.Tracks q (past ++ [a]) := by
  refine ⟨hinv, ?_, ?_, ?_, ?_⟩
  · rw [hstream, h.stream, patched_append hfill, List.append_assoc]
  · have hnone : marks [a] = 0 := by
      cases a with
      | setBookmark junk => exact absurd rfl (hset junk)
      | _ => rfl
    rw [hmarks, h.count, marks_append, hnone, Nat.add_zero]
  · intro k pos bmark hk
    obtain ⟨o, hslot, hpos⟩ := h.placed k pos bmark (hmarks ▸ hk)
    exact ⟨o, slot_append hslot, hpos⟩
  · intro k pos bmark hk hle
    obtain ⟨hle', hsub⟩ := hpoints pos hle
    exact (h.points k pos bmark (hmarks ▸ hk) hle').trans hsub

theorem Session.Tracks.setBookmark (h : s.Tracks q past) (h0 : s.m.writeCounter = 0)
    (junk : List Byte) :
    ∃ s', (Call.setBookmark junk).exec s = some s' ∧ s'.Tracks q (past ++ [.setBookmark junk]) := by
  obtain ⟨ptr, cs', hplace, hptrs⟩ := place_spec (d := s.deleted) h.inv junk
  obtain ⟨cs'', hres, hinv, hcon⟩ := reserve_spec junk h.inv
  have hsame : cs'' = cs' := by
    rw [← place_reserve (d := s.deleted), hplace] at hres
    exact (Option.some.inj hres).symm
  subst hsame
  have hcontent : (⟨cs'', s.m.writeCounter⟩ : Marshal).content = s.m.content ++ junk := hcon
  have hlen : ptr.length = junk.length := by
    have hall := congrArg List.length hptrs
    rw [List.length_append, length_ptrs, length_ptrs, hcon, List.length_append] at hall
    omega
  have hstream := congrArg List.length h.stream
  rw [List.length_append, List.length_append] at hstream
  refine ⟨{ s with
    m := ⟨cs'', s.m.writeCounter⟩
    bookmarks := s.bookmarks ++ [(s.got.length + s.m.content.length, ⟨ptr⟩)] },
    ?_, ⟨hinv, ?_, ?_, ?_, ?_⟩⟩
  · simp only [Call.exec, Option.bind_eq_bind, verify_bind h0, headCheck_eq h.inv,
      Option.bind_some, hplace, Option.pure_def]
  · rw [hcontent, ← List.append_assoc, h.stream,
      patched_append (a := .setBookmark junk) (by simp),
      List.append_assoc]
    rfl
  · rw [List.length_append, h.count, marks_append]
    rfl
  · intro k pos bmark hk
    rcases getElem?_snoc hk with hk | ⟨rfl, heq⟩
    · obtain ⟨o, hslot, hpos⟩ := h.placed k pos bmark hk
      exact ⟨o, slot_append hslot, hpos⟩
    · obtain ⟨rfl, rfl⟩ := Prod.mk.inj heq
      refine ⟨(patched 0 past).length, ?_, hstream⟩
      have hslot : slot 0 (0 + marks past) (past ++ [.setBookmark junk]) = _ :=
        slot_setBookmark junk
      rw [Nat.zero_add, ← h.count, ← hlen] at hslot
      exact hslot
  · intro k pos bmark hk hle
    rcases getElem?_snoc hk with hk | ⟨rfl, heq⟩
    · apply (h.points k pos bmark hk hle).trans
      apply List.IsPrefix.drop
      show ptrs s.deleted s.m.chunks <+: ptrs s.deleted cs''
      rw [hptrs]
      exact List.prefix_append _ _
    · obtain ⟨rfl, rfl⟩ := Prod.mk.inj heq
      show ptr <+: (ptrs s.deleted cs'').drop _
      have hskip : s.got.length + s.m.content.length - s.got.length
          = (ptrs s.deleted s.m.chunks).length := by
        rw [length_ptrs, Nat.add_sub_cancel_left]
        rfl
      rw [hskip, hptrs, List.drop_left]

theorem Session.Tracks.write (h : s.Tracks q past) {p : List Byte} (hp : p ≠ [])
    (hlen : (p.length : Int) < 2 ^ 31) :
    ∃ s', (Call.write p).exec s = some s' ∧ s'.Tracks q (past ++ [.write p]) := by
  obtain ⟨m', heq, hinv, hcon⟩ := write_spec h.inv hp hlen
  refine ⟨{ s with m := m' }, ?_, h.keep (by simp) (by simp) hinv rfl ?_ ?_⟩
  · simp only [Call.exec, heq, Option.bind_eq_bind, Option.bind_some, Option.pure_def]
  · show s.got ++ m'.content = _
    rw [hcon, List.append_assoc]
    rfl
  · intro pos hle
    exact ⟨hle, List.IsPrefix.drop (ptrs_write h.inv heq) _⟩

theorem Session.Tracks.read (h : s.Tracks q past) (n : Nat) :
    ∃ s', (Call.read n).exec s = some s' ∧ s'.Tracks q (past ++ [.read n]) := by
  obtain ⟨m', heq, hinv, hcon⟩ := read_spec h.inv n
  refine ⟨{ s with
    m := m'
    deleted := s.deleted + (s.m.chunks.length - m'.chunks.length)
    got := s.got ++ s.m.content.take n }, ?_,
    h.keep (by simp) (by simp) hinv rfl ?_ ?_⟩
  · simp only [Call.exec, heq, Option.bind_eq_bind, Option.bind_some, Option.pure_def]
  · show s.got ++ s.m.content.take n ++ m'.content = s.got ++ s.m.content ++ []
    rw [hcon, List.append_assoc, List.take_append_drop, List.append_nil]
  · intro pos hle
    have htaken : (s.got ++ s.m.content.take n).length = s.got.length + min n s.m.content.length := by
      rw [List.length_append, List.length_take]
    have hptrs : (ptrs s.deleted s.m.chunks).length = s.m.content.length := length_ptrs
    change (s.got ++ s.m.content.take n).length ≤ pos at hle
    rw [htaken] at hle
    refine ⟨by omega, ?_⟩
    show _ <+: (ptrs (s.deleted + (s.m.chunks.length - m'.chunks.length)) m'.chunks).drop
      (pos - (s.got ++ s.m.content.take n).length)
    have hdrop : (ptrs s.deleted s.m.chunks).drop (pos - s.got.length) =
        (ptrs s.deleted s.m.chunks).drop
          (n + (pos - (s.got.length + min n s.m.content.length))) := by
      rw [List.drop_eq_drop_iff]
      omega
    rw [ptrs_read h.inv heq, htaken, List.drop_drop, hdrop]

theorem Session.Tracks.writeBookmark (h : s.Tracks q past) {k pos : Nat} {bmark : Bookmark}
    (hk : s.bookmarks[k]? = some (pos, bmark)) (hunread : bmark.ptr ≠ [] → s.got.length ≤ pos)
    (pc : Nat → Byte) :
    ∃ s', (Call.writeBookmark k pc).exec s = some s' ∧
      s'.Tracks q (past ++ [.writeBookmark k pc]) := by
  obtain ⟨o, hslot, hpos⟩ := h.placed k pos bmark hk
  have hloop : ∃ cs', storeLoop s.deleted pc 0 bmark.ptr s.m.chunks = some cs' ∧ ChunksInv cs' ∧
      ptrs s.deleted cs' = ptrs s.deleted s.m.chunks ∧
      s.got ++ contents cs' = overwrite (s.got ++ s.m.content) pos
        ((List.range bmark.ptr.length).map pc) := by
    by_cases hnil : bmark.ptr = []
    · refine ⟨s.m.chunks, by rw [hnil]; rfl, h.inv, rfl, ?_⟩
      rw [hnil]
      exact (overwrite_nil _ _).symm
    · have hle := hunread hnil
      obtain ⟨cs', hloop, hinv, hptrs, hcon⟩ :=
        storeLoop_spec h.inv (h.points k pos bmark hk hle) pc 0
      refine ⟨cs', hloop, hinv, hptrs, ?_⟩
      rw [hcon, ← List.range_eq_range', ← overwrite_append_right, Nat.add_sub_cancel' hle]
      rfl
  obtain ⟨cs', heq, hinv, hptrs, hcon⟩ := hloop
  refine ⟨{ s with m := ⟨cs', s.m.writeCounter⟩ }, ?_, ⟨hinv, ?_, ?_, ?_, ?_⟩⟩
  · simp only [Call.exec, hk, heq, Option.bind_eq_bind, Option.bind_some, Option.pure_def]
  · show s.got ++ contents cs' = _
    rw [hcon, h.stream, hpos, overwrite_append_right, patched_writeBookmark hslot]
  · rw [marks_append]
    exact h.count
  · intro k' pos' bmark' hk'
    obtain ⟨o', hslot', hpos'⟩ := h.placed k' pos' bmark' hk'
    exact ⟨o', slot_append hslot', hpos'⟩
  · intro k' pos' bmark' hk' hle
    show bmark'.ptr <+: (ptrs s.deleted cs').drop _
    rw [hptrs]
    exact h.points k' pos' bmark' hk' hle

/-- A call that observes what it has to comes to its end. -/
theorem Session.Tracks.exec (h : s.Tracks q past) (hobs : a.Observed s) :
    ∃ s', a.exec s = some s' ∧ s'.Tracks q (past ++ [a]) := by
  cases a with
  | setBookmark junk => exact h.setBookmark hobs junk
  | write p => exact h.write hobs.1 hobs.2
  | read n => exact h.read n
  | getWriteCounterAndReset =>
    refine ⟨_, rfl, h.keep (by simp) (by simp) h.inv rfl ?_ ?_⟩
    · exact (List.append_nil _).symm
    · intro pos hle
      exact ⟨hle, List.prefix_refl _⟩
  | writeBookmark k pc =>
    unfold Call.Observed at hobs
    cases hk : s.bookmarks[k]? with
    | none =>
      simp only [hk] at hobs
    | some x =>
      simp only [hk] at hobs
      exact h.writeBookmark hk hobs pc

theorem Session.Tracks.runs (h : s.Tracks q past) {as : List Call} (hp : Properly as s) :
    ∃ s', runActs Call.exec as s = some s' ∧ s'.Tracks q (past ++ as) := by
  induction as generalizing s past with
  | nil => exact ⟨s, rfl, by rwa [List.append_nil]⟩
  | cons a as ih =>
    obtain ⟨s₁, heq, htracks⟩ := h.exec hp.1
    obtain ⟨s', hrun, htracks'⟩ := ih htracks (hp.2 s₁ heq)
    refine ⟨s', ?_, ?_⟩
    · rw [runActs, heq, Option.bind_some, hrun]
    · rw [List.append_assoc] at htracks'
      exact htracks'

variable {m : Marshal}

/-- The counter follows what is written. -/
theorem write_counter {p : List Byte} {k : Int} {m' : Marshal} (h : m.write p = some (k, m')) :
    m'.writeCounter = i32 (m.writeCounter + p.length) := by
  obtain ⟨-, -, h⟩ := Option.bind_eq_some_iff.mp h
  obtain ⟨need, -, h⟩ := Option.bind_eq_some_iff.mp h
  by_cases hneed : need = true
  · rw [if_pos hneed] at h
    rw [← (Prod.mk.inj (Option.some.inj h)).2]
  · rw [if_neg hneed] at h
    obtain ⟨⟨n, cs⟩, -, h⟩ := Option.bind_eq_some_iff.mp h
    obtain ⟨-, h⟩ := verify_bind_eq_some.mp h
    by_cases hmore : n < p.length
    · rw [if_pos hmore] at h
      rw [← (Prod.mk.inj (Option.some.inj h)).2]
    · rw [if_neg hmore] at h
      rw [← (Prod.mk.inj (Option.some.inj h)).2]

theorem exec_setBookmark {junk : List Byte} {s' : Session}
    (h : (Call.setBookmark junk).exec s = some s') :
    ∃ ptr, s'.m.writeCounter = s.m.writeCounter ∧
      s'.bookmarks = s.bookmarks ++ [(s.got.length + s.m.content.length, ⟨ptr⟩)] ∧
      s'.got = s.got := by
  obtain ⟨-, h⟩ := verify_bind_eq_some.mp h
  obtain ⟨-, -, h⟩ := Option.bind_eq_some_iff.mp h
  obtain ⟨⟨ptr, cs⟩, -, h⟩ := Option.bind_eq_some_iff.mp h
  obtain rfl := Option.some.inj h
  exact ⟨ptr, rfl, rfl, rfl⟩

/-- Writes alone: they observe what they have to, and are counted. -/
theorem properly_writes {ps : List (List Byte)} (hne : ∀ p ∈ ps, p ≠ [])
    (h0 : 0 ≤ s.m.writeCounter) (hlen : s.m.writeCounter + (ps.flatten.length : Int) < 2 ^ 31) :
    Properly (ps.map .write) s ∧ ∀ s', runActs Call.exec (ps.map .write) s = some s' →
      s'.m.writeCounter = s.m.writeCounter + (ps.flatten.length : Int) ∧
        s'.bookmarks = s.bookmarks ∧ s'.got = s.got := by
  induction ps generalizing s with
  | nil =>
    refine ⟨trivial, ?_⟩
    intro s' hrun
    obtain rfl := Option.some.inj hrun
    exact ⟨(Int.add_zero _).symm, rfl, rfl⟩
  | cons p ps ih =>
    rw [List.flatten_cons, List.length_append] at hlen ⊢
    push_cast at hlen ⊢
    have hstep : ∀ s₁, (Call.write p).exec s = some s₁ →
        s₁.m.writeCounter = s.m.writeCounter + p.length ∧ s₁.bookmarks = s.bookmarks ∧
          s₁.got = s.got := by
      intro s₁ hexec
      obtain ⟨⟨k, m'⟩, hwrite, hret⟩ := Option.bind_eq_some_iff.mp hexec
      obtain rfl := Option.some.inj hret
      refine ⟨?_, rfl, rfl⟩
      show m'.writeCounter = _
      rw [write_counter hwrite, i32_eq (by omega) (by omega)]
    have hrest : ∀ s₁, (Call.write p).exec s = some s₁ → _ := fun s₁ hexec =>
      ih (s := s₁) (fun p' hp' => hne p' (List.mem_cons_of_mem _ hp'))
        (by rw [(hstep s₁ hexec).1]; omega) (by rw [(hstep s₁ hexec).1]; omega)
    refine ⟨⟨⟨hne p List.mem_cons_self, by omega⟩, fun s₁ hexec => (hrest s₁ hexec).1⟩, ?_⟩
    intro s' hrun
    obtain ⟨s₁, hexec, hrun⟩ := Option.bind_eq_some_iff.mp hrun
    obtain ⟨hcount, hmarks, hgot⟩ := hstep s₁ hexec
    obtain ⟨hcount', hmarks', hgot'⟩ := (hrest s₁ hexec).2 s' hrun
    exact ⟨by rw [hcount', hcount, Int.add_assoc], hmarks'.trans hmarks, hgot'.trans hgot⟩

theorem patched_writes (k : Nat) (ps : List (List Byte)) :
    patched k (ps.map .write) = ps.flatten := by
  induction ps with
  | nil => rfl
  | cons p ps ih => rw [List.map_cons, patched, ih, List.flatten_cons]

/-- **Bookmarks.**  On every buffer that satisfies the invariant, as all reachable ones do:
    whatever was set, written, reset, filled and read, in any order: the bytes
    that were read, followed by the content, are what was in the buffer and then what `patched`
    says.  And a bookmark of 4 bytes that is filled with the counter of what was written behind
    it becomes the length of that. -/
theorem patches_bookmarks (h : m.Inv) :
    (∀ as, Properly as (Session.start m) →
      ∃ s, runActs Call.exec as (Session.start m) = some s ∧
        s.got ++ s.m.content = m.content ++ patched 0 as) ∧
    ∀ (junk : List Byte) (ps : List (List Byte)), junk.length = 4 → m.writeCounter = 0 →
      (∀ p ∈ ps, p ≠ []) → (ps.flatten.length : Int) < 2 ^ 31 →
      ∃ s, runActs Call.exec (.setBookmark junk :: ps.map .write) (Session.start m) = some s ∧
        ∀ pc : Nat → Byte,
          (List.range 4).map pc = intBytes 4 (BitVec.ofInt 32 s.m.getWriteCounterAndReset.1) →
          ∃ s', runActs Call.exec [.getWriteCounterAndReset, .writeBookmark 0 pc] s = some s' ∧
            s'.m.content =
              m.content ++ intBytes 4 (lengthI32 ps.flatten.length) ++ ps.flatten := by
  have hstart := Session.tracks_start h
  refine ⟨?_, ?_⟩
  · intro as hp
    obtain ⟨s, hrun, htracks⟩ := hstart.runs hp
    exact ⟨s, hrun, htracks.stream⟩
  · intro junk ps hjunk h0 hne hlen
    obtain ⟨s₁, hset, htracks⟩ := hstart.setBookmark h0 junk
    obtain ⟨ptr, hcount, hmarks, hgot⟩ := exec_setBookmark hset
    rw [show (Session.start m).m.writeCounter = 0 from h0] at hcount
    obtain ⟨hproper, hwrites⟩ := properly_writes (s := s₁) hne (by omega) (by omega)
    obtain ⟨s₂, hrun, htracks₂⟩ := htracks.runs hproper
    obtain ⟨hcount₂, hmarks₂, hgot₂⟩ := hwrites s₂ hrun
    refine ⟨s₂, ?_, ?_⟩
    · rw [runActs, hset, Option.bind_some, hrun]
    intro pc hpc
    obtain ⟨s₃, hreset, htracks₃⟩ := htracks₂.exec (a := .getWriteCounterAndReset) trivial
    have hs₃ : s₃ = { s₂ with m := s₂.m.getWriteCounterAndReset.2 } :=
      (Option.some.inj hreset).symm
    have hk : s₃.bookmarks[0]? = some (m.content.length, ⟨ptr⟩) := by
      rw [hs₃, show ({ s₂ with m := _ } : Session).bookmarks = s₂.bookmarks from rfl, hmarks₂,
        hmarks]
      simp [Session.start]
    have hgot₃ : s₃.got = [] := by
      rw [hs₃, show ({ s₂ with m := _ } : Session).got = s₂.got from rfl, hgot₂, hgot]
      rfl
    obtain ⟨s', hfill, htracks'⟩ :=
      htracks₃.writeBookmark hk (by rw [hgot₃]; exact fun _ => Nat.zero_le _) pc
    refine ⟨s', ?_, ?_⟩
    · rw [runActs, hreset, Option.bind_some, runActs, hfill]
      rfl
    have hgot' : s'.got = [] := by
      obtain ⟨x, -, hloop⟩ := Option.bind_eq_some_iff.mp hfill
      obtain ⟨cs, -, hret⟩ := Option.bind_eq_some_iff.mp hloop
      rw [← Option.some.inj hret]
      exact hgot₃
    have hstream := htracks'.stream
    rw [hgot', List.nil_append] at hstream
    have hvalue : intBytes 4 (BitVec.ofInt 32 s₂.m.getWriteCounterAndReset.1)
        = intBytes 4 (lengthI32 ps.flatten.length) := by
      rw [show s₂.m.getWriteCounterAndReset.1 = s₂.m.writeCounter from rfl, hcount₂, hcount,
        Int.zero_add, BitVec.ofInt_natCast]
      rfl
    have hlast : lastValue 0 (ps.map .write ++ [.getWriteCounterAndReset] ++ [.writeBookmark 0 pc])
        = some pc := lastValue_writeBookmark
    rw [hstream, List.nil_append, List.append_assoc, List.append_assoc, List.singleton_append,
      patched, ← List.append_assoc (ps.map _), hlast, patched_writeBookmark_lt Nat.zero_lt_one,
      patched_append (a := .getWriteCounterAndReset) (by simp), patched_writes, slotBytes, hjunk,
      hpc, hvalue,
      List.append_assoc]
    simp only [Call.added, List.append_nil]

/-- A buffer that holds "RFB".  Of two bookmarks, the first is filled twice, and the last time
    after the second. -/
theorem patches_bookmarks_two :
    ∃ s, runActs Call.exec
        [.setBookmark [0, 0], .write [1, 2], .getWriteCounterAndReset, .setBookmark [0],
          .writeBookmark 0 fun _ => 9, .writeBookmark 1 fun _ => 7, .write [3],
          .writeBookmark 0 fun i => if i = 0 then 5 else 6]
        (Session.start (ofString [82, 70, 66])) = some s ∧
      s.got ++ s.m.content = [82, 70, 66, 5, 6, 1, 2, 7, 3] := by
  have hinv : (ofString [82, 70, 66]).Inv := inv_ofString (by decide)
  exact (patches_bookmarks hinv).1 _ (by decide)

end Runs

end Marshal
end VncProxy
