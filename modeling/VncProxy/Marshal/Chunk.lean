/-
  VncProxy.Marshal.Chunk

  The `Chunk` class of marshal.h: one array of `size_` bytes with a content
  range `[read_idx_, write_idx_)`.  A chunk holds the bytes of `data_` up to
  `write_idx_`; what lies behind it is uninitialised and no operation reads it,
  except that `set_bookmark` makes the next such byte part of the content.

  Every operation carries the assertions of the source.  The build defines no
  `NDEBUG`, so a failed assertion aborts, which is `none` here.

  `::read` and `::write` are the kernel's.  A call of theirs is recorded as an
  `FdCall`, with what was asked for and what came back.
-/
import Mathlib.Algebra.Group.Int.Defs
import Mathlib.Data.List.Basic
import VncProxy.Lib.Verify

namespace VncProxy

open Lib (verify verify_bind verify_bind_eq_some)

abbrev Byte := UInt8

-- ============================================================================
-- ::read and ::write
-- ============================================================================

/-- One call of `::read` or `::write` by a chunk.  `got = none` is a negative
    return value. -/
inductive FdCall
  | read (len : Nat) (got : Option (List Byte))
  | write (buf : List Byte) (ret : Int)
deriving DecidableEq, Repr

namespace FdCall

/-- The value the call returned. -/
def ret : FdCall → Int
  | read _ none => -1
  | read _ (some bs) => bs.length
  | write _ r => r

/-- The bytes the call took from the descriptor. -/
def bytesRead : FdCall → List Byte
  | read _ got => got.getD []
  | write .. => []

/-- The bytes the call handed to the descriptor. -/
def bytesWritten : FdCall → List Byte
  | read .. => []
  | write buf r => buf.take r.toNat

end FdCall

/-- `::read(fd, p, len)`: the descriptor delivers at most `len` of the bytes on
    offer, or fails. -/
def sysRead (offer : Option (List Byte)) (len : Nat) : FdCall :=
  .read len (offer.map (List.take len))

/-- `::write(fd, p, len)`: the descriptor takes at most `len` bytes; `accept` is
    what it is ready to take, or a negative value for an error. -/
def sysWrite (accept : Int) (buf : List Byte) : FdCall :=
  .write buf (min accept buf.length)

-- ============================================================================
-- Chunk
-- ============================================================================

structure Chunk where
  size : Nat
  readIdx : Nat
  /-- `data_[0, write_idx_)` -/
  data : List Byte
deriving DecidableEq, Repr

namespace Chunk

/-- 8kb minimum chunk size. -/
def minSize : Nat := 8192

/-- `Chunk(int size)` -/
def new (size : Nat) : Chunk where
  size := max minSize size
  readIdx := 0
  data := []

/-- `Chunk(const void* p, int n)`: construct by copying a buffer. -/
def ofBuffer (p : List Byte) : Chunk where
  size := max minSize p.length
  readIdx := 0
  data := p

def writeIdx (c : Chunk) : Nat := c.data.length

/-- The two assertions every operation starts and ends with. -/
def Checks (c : Chunk) : Prop :=
  c.writeIdx ≤ c.size ∧ c.readIdx ≤ c.writeIdx

instance (c : Chunk) : Decidable c.Checks := by
  unfold Checks; infer_instance

/-- The bytes at `[content_ptr(), content_ptr() + write_idx_ - read_idx_)`. -/
def content (c : Chunk) : List Byte := c.data.drop c.readIdx

/-- Copy `bs` to `data_ + write_idx_` and move `write_idx_` behind it. -/
def append (c : Chunk) (bs : List Byte) : Chunk := { c with data := c.data ++ bs }

/-- Move `read_idx_` behind the next `k` bytes. -/
def consume (c : Chunk) (k : Nat) : Chunk := { c with readIdx := c.readIdx + k }

def contentSize (c : Chunk) : Option Nat := do
  verify c.Checks
  return c.writeIdx - c.readIdx

/-- The byte at `write_idx_` joins the content as it is: `junk` is what the
    fresh array happens to hold there. -/
def setBookmark (c : Chunk) (junk : Byte) : Option Chunk := do
  verify c.Checks
  let c' := c.append [junk]
  verify c'.Checks
  return c'

def write (c : Chunk) (p : List Byte) : Option (Nat × Chunk) := do
  verify c.Checks
  let nWrite := min p.length (c.size - c.writeIdx)
  let c' := c.append (p.take nWrite)
  verify c'.Checks
  return (nWrite, c')

/-- The bytes copied out; their number is the return value. -/
def read (c : Chunk) (n : Nat) : Option (List Byte × Chunk) := do
  verify c.Checks
  let nRead := min n (c.writeIdx - c.readIdx)
  let c' := c.consume nRead
  verify c'.Checks
  return (c.content.take nRead, c')

def peek (c : Chunk) (n : Nat) : Option (List Byte) := do
  verify c.Checks
  let nPeek := min n (c.writeIdx - c.readIdx)
  return c.content.take nPeek

def writeToFd (c : Chunk) (accept : Int) : Option (FdCall × Chunk) := do
  verify c.Checks
  let call := sysWrite accept c.content
  let c' := if call.ret > 0 then c.consume call.ret.toNat else c
  verify c'.Checks
  return (call, c')

def readFromFd (c : Chunk) (offer : Option (List Byte)) : Option (FdCall × Chunk) := do
  verify c.Checks
  let call := sysRead offer (c.size - c.writeIdx)
  let c' := if call.ret > 0 then c.append call.bytesRead else c
  verify c'.Checks
  return (call, c')

/-- The number of bytes copied from `chnk` into `c`, and both chunks after it. -/
def readFromChunk (c chnk : Chunk) (n : Nat) : Option (Nat × Chunk × Chunk) := do
  verify c.Checks
  verify chnk.Checks
  let nRead := min (min (c.size - c.writeIdx) (chnk.writeIdx - chnk.readIdx)) n
  let c' := c.append (chnk.content.take nRead)
  let chnk' := chnk.consume nRead
  verify c'.Checks
  verify chnk'.Checks
  return (nRead, c', chnk')

/-- Check if it is not possible to write to the chunk anymore. -/
def fullyWritten (c : Chunk) : Option Bool := do
  verify c.Checks
  return c.writeIdx == c.size

/-- Check if it is not possible to read from the chunk anymore, even if we
    retry later. -/
def fullyRead (c : Chunk) : Option Bool := do
  verify c.Checks
  return c.readIdx == c.size

-- ============================================================================
-- Valid chunks
-- ============================================================================

/-- `0 <= read_idx_ <= write_idx_ <= size_` and `size_ >= min_size`, with
    `size_` an `int`. -/
structure Valid (c : Chunk) : Prop where
  read_le : c.readIdx ≤ c.writeIdx
  write_le : c.writeIdx ≤ c.size
  size_ge : minSize ≤ c.size
  size_lt : (c.size : Int) < 2 ^ 31

/-- How many bytes the chunk can still take. -/
def room (c : Chunk) : Nat := c.size - c.writeIdx

@[simp] theorem append_size (c : Chunk) (bs : List Byte) : (c.append bs).size = c.size := rfl
@[simp] theorem append_readIdx (c : Chunk) (bs : List Byte) :
    (c.append bs).readIdx = c.readIdx := rfl
@[simp] theorem append_writeIdx (c : Chunk) (bs : List Byte) :
    (c.append bs).writeIdx = c.writeIdx + bs.length := by
  simp [append, writeIdx]
@[simp] theorem append_nil (c : Chunk) : c.append [] = c := by simp [append]
@[simp] theorem consume_size (c : Chunk) (k : Nat) : (c.consume k).size = c.size := rfl
@[simp] theorem consume_readIdx (c : Chunk) (k : Nat) :
    (c.consume k).readIdx = c.readIdx + k := rfl
@[simp] theorem consume_writeIdx (c : Chunk) (k : Nat) :
    (c.consume k).writeIdx = c.writeIdx := rfl
@[simp] theorem consume_zero (c : Chunk) : c.consume 0 = c := rfl

theorem content_length (c : Chunk) : c.content.length = c.writeIdx - c.readIdx := by
  simp [content, writeIdx]

theorem content_consume (c : Chunk) (k : Nat) : (c.consume k).content = c.content.drop k := by
  simp [content, consume, Nat.add_comm]

theorem content_append {c : Chunk} (h : c.Valid) (bs : List Byte) :
    (c.append bs).content = c.content ++ bs := by
  have hr : c.readIdx ≤ c.data.length := h.read_le
  simp [content, append, List.drop_append_of_le_length hr]

namespace Valid

variable {c : Chunk}

theorem checks (h : c.Valid) : c.Checks := ⟨h.write_le, h.read_le⟩

theorem append (h : c.Valid) {bs : List Byte} (hbs : bs.length ≤ c.room) :
    (c.append bs).Valid := by
  have hw := h.write_le
  have hr := h.read_le
  refine ⟨?_, ?_, h.size_ge, h.size_lt⟩
  · rw [append_readIdx, append_writeIdx]
    omega
  · rw [append_writeIdx, append_size]
    unfold room at hbs
    omega

theorem consume (h : c.Valid) {k : Nat} (hk : k ≤ c.content.length) : (c.consume k).Valid := by
  have hr := h.read_le
  rw [content_length] at hk
  refine ⟨?_, h.write_le, h.size_ge, h.size_lt⟩
  rw [consume_readIdx, consume_writeIdx]
  omega

end Valid

theorem valid_new : (new minSize).Valid := by
  refine ⟨?_, ?_, ?_, ?_⟩ <;> simp [new, writeIdx, minSize]

theorem valid_ofBuffer {p : List Byte} (hp : (p.length : Int) < 2 ^ 31) :
    (ofBuffer p).Valid := by
  refine ⟨Nat.zero_le _, Nat.le_max_right _ _, Nat.le_max_left _ _, ?_⟩
  simp only [ofBuffer, minSize]
  omega

@[simp] theorem content_new (n : Nat) : (new n).content = [] := rfl
@[simp] theorem content_ofBuffer (p : List Byte) : (ofBuffer p).content = p := rfl

-- ============================================================================
-- What each operation does on a valid chunk
-- ============================================================================

section Ops

variable {c : Chunk}

theorem contentSize_eq (h : c.Valid) : c.contentSize = some c.content.length := by
  simp [contentSize, verify_bind h.checks, content_length]

theorem fullyWritten_eq (h : c.Valid) : c.fullyWritten = some (c.writeIdx == c.size) := by
  simp [fullyWritten, verify_bind h.checks]

theorem fullyRead_eq (h : c.Valid) : c.fullyRead = some (c.readIdx == c.size) := by
  simp [fullyRead, verify_bind h.checks]

theorem setBookmark_eq (h : c.Valid) (hroom : c.writeIdx < c.size) (b : Byte) :
    c.setBookmark b = some (c.append [b]) := by
  have h' : (c.append [b]).Valid := h.append (by simp [room]; omega)
  simp [setBookmark, verify_bind h.checks, verify_bind h'.checks]

theorem write_eq (h : c.Valid) (p : List Byte) :
    c.write p = some (min p.length c.room, c.append (p.take c.room)) := by
  have htake : p.take (min p.length c.room) = p.take c.room := by
    rw [List.take_eq_take_iff]
    omega
  have h' : (c.append (p.take c.room)).Valid := h.append (List.length_take_le _ _)
  simp only [write, Option.bind_eq_bind, verify_bind h.checks]
  rw [show c.size - c.writeIdx = c.room from rfl, htake]
  simp [verify_bind h'.checks]

theorem read_eq (h : c.Valid) (n : Nat) :
    c.read n = some (c.content.take n, c.consume (min n c.content.length)) := by
  have htake : c.content.take (min n c.content.length) = c.content.take n := by
    rw [List.take_eq_take_iff]
    omega
  have h' : (c.consume (min n c.content.length)).Valid := h.consume (Nat.min_le_right _ _)
  simp only [read, Option.bind_eq_bind, verify_bind h.checks, ← content_length, htake]
  simp only [verify_bind h'.checks, Option.pure_def]

theorem peek_eq (h : c.Valid) (n : Nat) : c.peek n = some (c.content.take n) := by
  have htake : c.content.take (min n c.content.length) = c.content.take n := by
    rw [List.take_eq_take_iff]
    omega
  simp only [peek, Option.bind_eq_bind, verify_bind h.checks, ← content_length, htake,
    Option.pure_def]

/-- The chunk gives up what the descriptor took. -/
theorem writeToFd_eq (h : c.Valid) (accept : Int) :
    c.writeToFd accept =
      some (sysWrite accept c.content, c.consume (sysWrite accept c.content).ret.toNat) := by
  have hle : (sysWrite accept c.content).ret.toNat ≤ c.content.length := by
    simp only [sysWrite, FdCall.ret]
    omega
  have hif : (if (sysWrite accept c.content).ret > 0 then
      c.consume (sysWrite accept c.content).ret.toNat else c)
      = c.consume (sysWrite accept c.content).ret.toNat := by
    split
    · rfl
    · rename_i hpos
      rw [show (sysWrite accept c.content).ret.toNat = 0 by omega, consume_zero]
  simp only [writeToFd, Option.bind_eq_bind, verify_bind h.checks, hif,
    verify_bind (h.consume hle).checks, Option.pure_def]

theorem sysRead_ret (offer : Option (List Byte)) (len : Nat) :
    (sysRead offer len).ret ≤ 0 ↔ (sysRead offer len).bytesRead = [] := by
  cases offer with
  | none => simp [sysRead, FdCall.ret, FdCall.bytesRead]
  | some bs =>
    simp only [sysRead, FdCall.ret, FdCall.bytesRead, Option.map_some, Option.getD_some]
    rw [← List.length_eq_zero_iff]
    omega

/-- The chunk gains what the descriptor delivered. -/
theorem readFromFd_eq (h : c.Valid) (offer : Option (List Byte)) :
    c.readFromFd offer =
      some (sysRead offer c.room, c.append (sysRead offer c.room).bytesRead) := by
  have hle : (sysRead offer c.room).bytesRead.length ≤ c.room := by
    cases offer with
    | none => exact Nat.zero_le _
    | some bs => exact List.length_take_le _ _
  have hif : (if (sysRead offer c.room).ret > 0 then
      c.append (sysRead offer c.room).bytesRead else c)
      = c.append (sysRead offer c.room).bytesRead := by
    split
    · rfl
    · rename_i hpos
      rw [(sysRead_ret offer c.room).mp (by omega), append_nil]
  simp only [readFromFd, Option.bind_eq_bind, verify_bind h.checks]
  rw [show c.size - c.writeIdx = c.room from rfl, hif]
  simp only [verify_bind (h.append hle).checks, Option.pure_def]

/-- As many bytes move as fit, are there, and are wanted. -/
theorem readFromChunk_eq (h : c.Valid) {chnk : Chunk} (h' : chnk.Valid) (n : Nat) :
    ∃ r, r = min (min c.room chnk.content.length) n ∧
      c.readFromChunk chnk n = some (r, c.append (chnk.content.take r), chnk.consume r) := by
  refine ⟨_, rfl, ?_⟩
  have hd : (c.append (chnk.content.take (min (min c.room chnk.content.length) n))).Valid :=
    h.append (by rw [List.length_take]; omega)
  have hs : (chnk.consume (min (min c.room chnk.content.length) n)).Valid :=
    h'.consume (by omega)
  simp only [readFromChunk, Option.bind_eq_bind, verify_bind h.checks, verify_bind h'.checks]
  rw [show c.size - c.writeIdx = c.room from rfl, ← content_length]
  simp only [verify_bind hd.checks, verify_bind hs.checks, Option.pure_def]

end Ops

end Chunk

end VncProxy
