/-
  VncProxy.Marshal.Fifo

  Sequences of `Marshal` operations, compared with a plain list of bytes.

  `Op.exec` runs one operation of the class on a buffer.  `Op.Agrees` is the
  abstract queue: what the operation does to a list of bytes and what it
  returns.  Every buffer reached by operations satisfies the representation
  invariant, and from there every operation runs and agrees with the list.
-/
import VncProxy.Lib.Reach
import VncProxy.Marshal.Queue

namespace VncProxy
namespace Marshal

open Lib (Reach verify_bind_none)

/-- The operations on one buffer, with what the caller or the kernel supplies:
    the bytes or the length, the answers of the descriptor, and for
    `set_bookmark` the bytes that happen to lie where it reserves. -/
inductive Op
  | write (p : List Byte)
  | read (n : Nat)
  | peek (n : Nat)
  | readFromFd (offers : List (Option (List Byte)))
  | writeToFd (accepts : List Int)
  | setBookmark (junk : List Byte)
  | getWriteCounterAndReset
  | contentSize
  | contentSizeGt (size : Int)
  | dump

/-- What an operation hands back: a count, the bytes copied out, a count with
    the calls made on a descriptor, a truth value, or nothing. -/
inductive Res
  | count (k : Int)
  | bytes (bs : List Byte)
  | fd (k : Int) (calls : List FdCall)
  | flag (b : Bool)
  | unit

def Op.exec (m : Marshal) : Op → Option (Res × Marshal)
  | .write p => (m.write p).map fun (k, m') => (.count k, m')
  | .read n => (m.read n).map fun (bs, m') => (.bytes bs, m')
  | .peek n => (m.peek n).map fun bs => (.bytes bs, m)
  | .readFromFd offers => (m.readFromFd offers).map fun (k, calls, m') => (.fd k calls, m')
  | .writeToFd accepts => (m.writeToFd accepts).map fun (k, calls, m') => (.fd k calls, m')
  | .setBookmark junk => (m.setBookmark junk).map fun m' => (.unit, m')
  | .getWriteCounterAndReset =>
    some (.count m.getWriteCounterAndReset.1, m.getWriteCounterAndReset.2)
  | .contentSize => m.contentSize.map fun k => (.count k, m)
  | .contentSizeGt size => (m.contentSizeGt size).map fun b => (.flag b, m)
  | .dump => m.dump.map fun bs => (.bytes bs, m)

/-- What a caller has to observe: no empty `write`, lengths that fit an `int`,
    and no bookmark while bytes are being counted. -/
def Op.Admissible (m : Marshal) : Op → Prop
  | .write p => p ≠ [] ∧ (p.length : Int) < 2 ^ 31
  | .setBookmark _ => m.writeCounter = 0
  | _ => True

/-- The operation on a plain list of bytes: from `q`, the result `res` and the
    list `q'`. -/
def Op.Agrees (q : List Byte) : Op → Res → List Byte → Prop
  | .write p, .count k, q' => k = p.length ∧ q' = q ++ p
  | .read n, .bytes bs, q' => bs = q.take n ∧ q' = q.drop n
  | .peek n, .bytes bs, q' => bs = q.take n ∧ q' = q
  | .readFromFd _, .fd k calls, q' =>
      q' = q ++ calls.flatMap FdCall.bytesRead ∧ k = (calls.flatMap FdCall.bytesRead).length
  | .writeToFd _, .fd k calls, q' =>
      q = calls.flatMap FdCall.bytesWritten ++ q' ∧
        k = (calls.flatMap FdCall.bytesWritten).length
  | .setBookmark junk, .unit, q' => q' = q ++ junk
  | .getWriteCounterAndReset, .count _, q' => q' = q
  | .contentSize, .count k, q' => k = q.length ∧ q' = q
  | .contentSizeGt size, .flag b, q' => (b = true ↔ (q.length : Int) > size) ∧ q' = q
  | .dump, .bytes bs, q' => bs = q ∧ q' = q
  | _, _, _ => False

/-- `Marshal()` or `Marshal(data)`, with less than 2^31 bytes. -/
def Fresh (m : Marshal) : Prop :=
  m = empty ∨ ∃ data : List Byte, (data.length : Int) < 2 ^ 31 ∧ m = ofString data

/-- One operation, after which the buffer holds less than 2^31 bytes. -/
def Next (m m' : Marshal) : Prop :=
  ∃ op res, Op.Admissible m op ∧ op.exec m = some (res, m') ∧ (m'.content.length : Int) < 2 ^ 31

def Reachable (m : Marshal) : Prop := Reach Fresh Next m

/-- One operation from a buffer that satisfies the invariant: no assertion
    fails, the invariant is kept, and the plain list agrees. -/
theorem exec_spec {m : Marshal} (h : m.Inv) (hlt : (m.content.length : Int) < 2 ^ 31) {op : Op}
    (hop : op.Admissible m) :
    ∃ res m', op.exec m = some (res, m') ∧ m'.Inv ∧
      ((m'.content.length : Int) < 2 ^ 31 → op.Agrees m.content res m'.content) := by
  cases op with
  | write p =>
    obtain ⟨m', heq, hinv, hcon⟩ := write_spec h hop.1 hop.2
    exact ⟨.count p.length, m', by simp [Op.exec, heq], hinv, fun _ => ⟨rfl, hcon⟩⟩
  | read n =>
    obtain ⟨m', heq, hinv, hcon⟩ := read_spec h n
    exact ⟨.bytes (m.content.take n), m', by simp [Op.exec, heq], hinv, fun _ => ⟨rfl, hcon⟩⟩
  | peek n =>
    exact ⟨.bytes (m.content.take n), m, by simp [Op.exec, peek_spec h n], h,
      fun _ => ⟨rfl, rfl⟩⟩
  | readFromFd offers =>
    obtain ⟨calls, m', heq, hr⟩ := readFromFd_spec h offers
    refine ⟨.fd (i32 (calls.flatMap FdCall.bytesRead).length) calls, m', by rw [Op.exec, heq]; rfl,
      hr.inv, fun hlt' => ⟨hr.joined, ?_⟩⟩
    have hlen := congrArg List.length hr.joined
    rw [List.length_append] at hlen
    have hsum : (contents m'.chunks).length = m'.content.length := rfl
    exact i32_eq (Int.natCast_nonneg _) (by omega)
  | writeToFd accepts =>
    obtain ⟨n, calls, m', heq, hw, hn⟩ := writeToFd_spec h accepts
    exact ⟨.fd n calls, m', by simp [Op.exec, heq], hw.inv, fun _ => ⟨hw.split, hn hlt⟩⟩
  | setBookmark junk =>
    obtain ⟨m', heq, hinv, hcon⟩ := setBookmark_spec h hop junk
    exact ⟨.unit, m', by simp [Op.exec, heq], hinv, fun _ => hcon⟩
  | getWriteCounterAndReset => exact ⟨.count m.writeCounter, _, rfl, h, fun _ => rfl⟩
  | contentSize =>
    exact ⟨.count m.content.length, m, by simp [Op.exec, contentSize_spec h hlt], h,
      fun _ => ⟨rfl, rfl⟩⟩
  | contentSizeGt size =>
    exact ⟨.flag _, m, by rw [Op.exec, contentSizeGt_spec h hlt size]; rfl, h,
      fun _ => ⟨decide_eq_true_iff, rfl⟩⟩
  | dump =>
    exact ⟨.bytes m.content, m, by simp [Op.exec, dump_spec h hlt], h, fun _ => ⟨rfl, rfl⟩⟩

/-- An empty write aborts where the last chunk has room: it is expected to take a byte. -/
theorem write_nil {m : Marshal} (h : m.Inv) {front : List Chunk} {c : Chunk}
    (hcs : m.chunks = front ++ [c]) (hneed : needsChunk m.chunks = some false) :
    m.write [] = none := by
  have hv := (ChunksInv.concat_iff.mp (hcs ▸ h : ChunksInv (front ++ [c]))).2.1
  have hback : onBack (·.write []) m.chunks
      = some (min 0 c.room, front ++ [c.append ([].take c.room)]) := by
    rw [hcs]
    exact onBack_concat _ (Chunk.write_eq hv [])
  have hzero : ¬ min 0 c.room > 0 := by omega
  simp only [write, headCheck_eq h, hneed, hback, Option.bind_eq_bind, Option.bind_some,
    Bool.false_eq_true, if_false, verify_bind_none hzero]

/-- An operation that runs to its end keeps the invariant, admissible or not; a
    length is an `int`. -/
theorem exec_inv {m m' : Marshal} (h : m.Inv) {op : Op} {res : Res}
    (hfit : ∀ p, op = .write p → (p.length : Int) < 2 ^ 31)
    (hexec : op.exec m = some (res, m')) : m'.Inv := by
  cases op with
  | write p =>
    have hlen := hfit p rfl
    by_cases hp : p = []
    · -- an empty write aborts unless it starts a fresh chunk
      rcases needsChunk_spec h with ⟨hneed, hfull⟩ | ⟨front, c, hcs, hneed, hroom⟩
      · obtain ⟨m'', heq, hinv, -⟩ := write_fresh h hlen hneed hfull
        simp only [Op.exec, heq, Option.map_some, Option.some.injEq, Prod.mk.injEq] at hexec
        exact hexec.2 ▸ hinv
      · simp [Op.exec, hp, write_nil h hcs hneed] at hexec
    · obtain ⟨m'', heq, hinv, -⟩ := write_spec h hp hlen
      simp only [Op.exec, heq, Option.map_some, Option.some.injEq, Prod.mk.injEq] at hexec
      exact hexec.2 ▸ hinv
  | read n =>
    obtain ⟨m'', heq, hinv, -⟩ := read_spec h n
    simp only [Op.exec, heq, Option.map_some, Option.some.injEq, Prod.mk.injEq] at hexec
    exact hexec.2 ▸ hinv
  | readFromFd offers =>
    obtain ⟨calls, m'', heq, hr⟩ := readFromFd_spec h offers
    simp only [Op.exec, heq, Option.map_some, Option.some.injEq, Prod.mk.injEq] at hexec
    exact hexec.2 ▸ hr.inv
  | writeToFd accepts =>
    obtain ⟨n, calls, m'', heq, hw, -⟩ := writeToFd_spec h accepts
    simp only [Op.exec, heq, Option.map_some, Option.some.injEq, Prod.mk.injEq] at hexec
    exact hexec.2 ▸ hw.inv
  | setBookmark junk =>
    by_cases h0 : m.writeCounter = 0
    · obtain ⟨m'', heq, hinv, -⟩ := setBookmark_spec h h0 junk
      simp only [Op.exec, heq, Option.map_some, Option.some.injEq, Prod.mk.injEq] at hexec
      exact hexec.2 ▸ hinv
    · have hnone : m.setBookmark junk = none := by
        simp [setBookmark, verify_bind_none h0]
      simp [Op.exec, hnone] at hexec
  | getWriteCounterAndReset =>
    simp only [Op.exec, Option.some.injEq, Prod.mk.injEq] at hexec
    exact hexec.2 ▸ h
  | peek n =>
    obtain ⟨_, _, hm⟩ := Option.map_eq_some_iff.mp hexec
    exact (Prod.mk.inj hm).2 ▸ h
  | contentSize =>
    obtain ⟨_, _, hm⟩ := Option.map_eq_some_iff.mp hexec
    exact (Prod.mk.inj hm).2 ▸ h
  | contentSizeGt size =>
    obtain ⟨_, _, hm⟩ := Option.map_eq_some_iff.mp hexec
    exact (Prod.mk.inj hm).2 ▸ h
  | dump =>
    obtain ⟨_, _, hm⟩ := Option.map_eq_some_iff.mp hexec
    exact (Prod.mk.inj hm).2 ▸ h

theorem reachable_inv {m : Marshal} (h : Reachable m) :
    m.Inv ∧ (m.content.length : Int) < 2 ^ 31 := by
  refine Reach.invariant (I := fun m => m.Inv ∧ (m.content.length : Int) < 2 ^ 31) ?_ ?_ h
  · rintro m (rfl | ⟨data, hlt, rfl⟩)
    · exact ⟨inv_empty, by decide⟩
    · refine ⟨inv_ofString hlt, ?_⟩
      simpa [content, ofString] using hlt
  · rintro m m' - ⟨hinv, hlt⟩ ⟨op, res, hop, hexec, hlt'⟩
    obtain ⟨res', m'', hexec', hinv', -⟩ := exec_spec hinv hlt hop
    rw [hexec] at hexec'
    obtain ⟨-, rfl⟩ := Prod.mk.inj (Option.some.inj hexec')
    exact ⟨hinv', hlt'⟩

/-- **FIFO.**  In every reachable buffer every chunk has
    `0 <= read_idx <= write_idx <= size` and `size >= 8192`, no chunk is fully
    read and every chunk but the last is fully written; and every operation runs
    to its end and does on the content what it does on a plain list of bytes. -/
theorem fifo_queue {m : Marshal} (h : Reachable m) :
    m.Inv ∧ ∀ op : Op, op.Admissible m →
      ∃ res m', op.exec m = some (res, m') ∧
        ((m'.content.length : Int) < 2 ^ 31 → op.Agrees m.content res m'.content) := by
  obtain ⟨hinv, hlt⟩ := reachable_inv h
  refine ⟨hinv, fun op hop => ?_⟩
  obtain ⟨res, m', hexec, -, hagree⟩ := exec_spec hinv hlt hop
  exact ⟨res, m', hexec, hagree⟩

/-- As many bytes as fill a chunk. -/
def page : List Byte := List.replicate 8192 7

theorem length_page : page.length = 8192 := List.length_replicate

/-- A chunk that is full and partly read, and one with room behind it. -/
def twoChunks : Marshal := ⟨[(Chunk.ofBuffer page).consume 1, Chunk.ofBuffer [70, 66]], 2⟩

theorem content_twoChunks : twoChunks.content = page.drop 1 ++ [70, 66] := by
  simp [content, twoChunks, Chunk.content_consume]

/-- A page, the two bytes that are written behind it, and one byte that is read. -/
theorem reachable_twoChunks : Reachable twoChunks := by
  have hvalid : (Chunk.ofBuffer page).Valid := Chunk.valid_ofBuffer (by rw [length_page]; decide)
  have hsize : (Chunk.ofBuffer page).size = 8192 := by
    simp [Chunk.ofBuffer, Chunk.minSize, length_page]
  have hfull : (Chunk.ofBuffer page).fullyWritten = some true := by
    rw [Chunk.fullyWritten_eq hvalid, hsize]
    simp [Chunk.ofBuffer, Chunk.writeIdx, length_page]
  have hunread : (Chunk.ofBuffer page).fullyRead = some false := by
    rw [Chunk.fullyRead_eq hvalid, hsize]
    rfl
  have hpart : ((Chunk.ofBuffer page).consume 1).fullyRead = some false := by
    rw [Chunk.fullyRead_eq (hvalid.consume (by simp [length_page])), Chunk.consume_size, hsize]
    rfl
  have hfirst : (Chunk.ofBuffer page).read 1 = some ([7], (Chunk.ofBuffer page).consume 1) := by
    rw [Chunk.read_eq hvalid, Chunk.content_ofBuffer, length_page]
    rfl
  have hwrite : (ofString page).write [70, 66] =
      some (2, ⟨[Chunk.ofBuffer page, Chunk.ofBuffer [70, 66]], 2⟩) := by
    simp [write, ofString, headCheck, needsChunk, hfull, hunread, i32]
  have hread : (Marshal.mk [Chunk.ofBuffer page, Chunk.ofBuffer [70, 66]] 2).read 1 =
      some ([7], twoChunks) := by
    simp [read, headCheck, readLoop, dropRead, hunread, hfirst, hpart, twoChunks]
  have hfresh : Fresh (ofString page) := Or.inr ⟨page, by rw [length_page]; decide, rfl⟩
  have hwritten : Next (ofString page) ⟨[Chunk.ofBuffer page, Chunk.ofBuffer [70, 66]], 2⟩ := by
    refine ⟨.write [70, 66], .count 2, ⟨by simp, by simp⟩, by simp [Op.exec, hwrite], ?_⟩
    simp [content, length_page]
  have hlast : Next ⟨[Chunk.ofBuffer page, Chunk.ofBuffer [70, 66]], 2⟩ twoChunks := by
    refine ⟨.read 1, .bytes [7], trivial, by simp [Op.exec, hread], ?_⟩
    rw [content_twoChunks]
    simp [length_page]
  exact ((Reach.start hfresh).step hwritten).step hlast

/-- A read that goes on from the first chunk into the second. -/
theorem fifo_queue_twoChunks : twoChunks.Inv ∧
    ∃ res m', (Op.read 8192).exec twoChunks = some (res, m') ∧
      ((m'.content.length : Int) < 2 ^ 31 →
        (Op.read 8192).Agrees (page.drop 1 ++ [70, 66]) res m'.content) := by
  obtain ⟨hinv, hops⟩ := fifo_queue reachable_twoChunks
  rw [content_twoChunks] at hops
  exact ⟨hinv, hops (.read 8192) trivial⟩

end Marshal

end VncProxy
