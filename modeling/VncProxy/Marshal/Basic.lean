/-
  VncProxy.Marshal.Basic

  The `Marshal` class of marshal.h and marshal.cc: a list of chunks used as a
  byte buffer, with the loops of the source over that list.

  The counters `int n_read`, `int n_write`, `int size` and `i32 write_counter_`
  can leave the range of a 32-bit `int` where nothing bounds the content, so
  they are kept through `i32`.  Lengths that a caller passes in are naturals.
-/
import VncProxy.Marshal.Chunk
import Mathlib.Tactic.Linarith

namespace VncProxy

open Lib (verify)

/-- What a 32-bit `int` holds after `x` is stored in it. -/
def i32 (x : Int) : Int := x.bmod 4294967296

structure Marshal where
  chunks : List Chunk
  writeCounter : Int
deriving DecidableEq, Repr

namespace Marshal

/-- `Marshal()` -/
def empty : Marshal := ⟨[], 0⟩

/-- `Marshal(const std::string& data)` -/
def ofString (data : List Byte) : Marshal := ⟨[Chunk.ofBuffer data], 0⟩

-- ============================================================================
-- Steps shared by the loops
-- ============================================================================

/-- `assert(chunk_.empty() || !chunk_.front()->fully_read())` -/
def headCheck : List Chunk → Option Unit
  | [] => some ()
  | c :: _ => do verify ((← c.fullyRead) = false)

/-- `chunk_.empty() || chunk_.back()->fully_written()` -/
def needsChunk (chunks : List Chunk) : Option Bool :=
  match chunks.getLast? with
  | none => some true
  | some c => c.fullyWritten

/-- `chunk_.push_back(new Chunk)` where the last chunk has no room. -/
def withRoom (chunks : List Chunk) : Option (List Chunk) := do
  if ← needsChunk chunks then
    return chunks ++ [Chunk.new Chunk.minSize]
  else
    return chunks

/-- An operation on `chunk_.back()`, which is undefined on an empty list. -/
def onBack {α : Type} (f : Chunk → Option (α × Chunk)) (chunks : List Chunk) :
    Option (α × List Chunk) :=
  match chunks.getLast? with
  | none => none
  | some c => do
    let (a, c') ← f c
    return (a, chunks.dropLast ++ [c'])

/-- Delete `chunk_.front()` if it is fully read. -/
def dropRead : List Chunk → Option (List Chunk)
  | [] => some []
  | c :: cs => do
    if ← c.fullyRead then return cs else return c :: cs

-- ============================================================================
-- Operations
-- ============================================================================

def reserve : List Byte → List Chunk → Option (List Chunk)
  | [], chunks => some chunks
  | b :: junk, chunks => do
    let chunks ← withRoom chunks
    let ((), chunks) ← onBack (fun c => do return ((), ← c.setBookmark b)) chunks
    reserve junk chunks

/-- `set_bookmark(junk.length)`: `junk` is what the reserved bytes happen to
    hold. -/
def setBookmark (m : Marshal) (junk : List Byte) : Option Marshal := do
  verify (m.writeCounter = 0)
  headCheck m.chunks
  return { m with chunks := ← reserve junk m.chunks }

def getWriteCounterAndReset (m : Marshal) : Int × Marshal :=
  (m.writeCounter, { m with writeCounter := 0 })

def write (m : Marshal) (p : List Byte) : Option (Int × Marshal) := do
  headCheck m.chunks
  let writeCounter := i32 (m.writeCounter + p.length)
  if ← needsChunk m.chunks then
    return (p.length, ⟨m.chunks ++ [Chunk.ofBuffer p], writeCounter⟩)
  else
    let (nWrite, chunks) ← onBack (·.write p) m.chunks
    -- otherwise the above fully_written() will return true
    verify (nWrite > 0)
    if nWrite < p.length then
      return (p.length, ⟨chunks ++ [Chunk.ofBuffer (p.drop nWrite)], writeCounter⟩)
    else
      return (p.length, ⟨chunks, writeCounter⟩)

/-- The loop of `read`; `n` is what is left to read. -/
def readLoop (chunks : List Chunk) (n : Nat) : Option (List Byte × List Chunk) :=
  match chunks with
  | [] => some ([], [])
  | c :: cs =>
    if n = 0 then some ([], c :: cs) else do
      let (bs, c') ← c.read n
      let chunks' ← dropRead (c' :: cs)
      -- currently there's no content for us to read, so stop
      if bs.length = 0 then return ([], chunks')
      else do
        let (bs', chunks'') ← readLoop chunks' (n - bs.length)
        return (bs ++ bs', chunks'')
termination_by n

def read (m : Marshal) (n : Nat) : Option (List Byte × Marshal) := do
  headCheck m.chunks
  let (bs, chunks) ← readLoop m.chunks n
  verify (bs.length ≤ n)
  headCheck chunks
  return (bs, { m with chunks })

/-- The loop of `peek`; `n` is what is left to copy. -/
def peekLoop : List Chunk → Nat → Option (List Byte)
  | [], _ => some []
  | c :: cs, n => do
    let bs ← c.peek n
    if bs.length = 0 then return []
    else if bs.length = n then return bs
    else do return bs ++ (← peekLoop cs (n - bs.length))

def peek (m : Marshal) (n : Nat) : Option (List Byte) := do
  headCheck m.chunks
  let bs ← peekLoop m.chunks n
  verify (bs.length ≤ n)
  headCheck m.chunks
  return bs

/-- One turn of the loop of `write_to_fd`, on the front chunk. -/
def writeStep (accept : Int) (c : Chunk) (cs : List Chunk) : Option (FdCall × List Chunk) := do
  let (call, c') ← c.writeToFd accept
  return (call, ← dropRead (c' :: cs))

/-- The loop of `write_to_fd`.  The descriptor answers the calls of `::write`
    from the list, and refuses once the list is used up. -/
def writeToFdLoop (nWrite : Int) :
    List Int → List Chunk → Option (Int × List FdCall × List Chunk)
  | _, [] => some (nWrite, [], [])
  | [], c :: cs => do
    let (call, chunks) ← writeStep (-1) c cs
    return (nWrite, [call], chunks)
  | a :: accepts, c :: cs => do
    let (call, chunks) ← writeStep a c cs
    if call.ret ≤ 0 then return (nWrite, [call], chunks)
    else do
      let (n, calls, chunks') ← writeToFdLoop (i32 (nWrite + call.ret)) accepts chunks
      return (n, call :: calls, chunks')

/-- The return value, the calls of `::write` made, and the buffer after it. -/
def writeToFd (m : Marshal) (accepts : List Int) : Option (Int × List FdCall × Marshal) := do
  headCheck m.chunks
  let (n, calls, chunks) ← writeToFdLoop 0 accepts m.chunks
  headCheck chunks
  return (n, calls, { m with chunks })

/-- One turn of the loop of `read_from_fd`, on a back chunk that has room. -/
def readStep (offer : Option (List Byte)) (chunks : List Chunk) :
    Option (FdCall × List Chunk) := do
  onBack (·.readFromFd offer) (← withRoom chunks)

/-- The loop of `read_from_fd`.  The descriptor answers the calls of `::read`
    from the list, and fails once the list is used up. -/
def readFromFdLoop (nRead : Int) :
    List (Option (List Byte)) → List Chunk → Option (Int × List FdCall × List Chunk)
  | [], chunks => do
    let (call, chunks) ← readStep none chunks
    return (nRead, [call], chunks)
  | offer :: offers, chunks => do
    let (call, chunks) ← readStep offer chunks
    if call.ret ≤ 0 then return (nRead, [call], chunks)
    else do
      let (n, calls, chunks') ← readFromFdLoop (i32 (nRead + call.ret)) offers chunks
      return (n, call :: calls, chunks')

/-- The return value, the calls of `::read` made, and the buffer after it. -/
def readFromFd (m : Marshal) (offers : List (Option (List Byte))) :
    Option (Int × List FdCall × Marshal) := do
  headCheck m.chunks
  let (n, calls, chunks) ← readFromFdLoop 0 offers m.chunks
  headCheck chunks
  return (n, calls, { m with chunks })

/-- One turn of the copying path of `read_from_marshal`: from the front chunk of
    the source to the back chunk of the destination, which has room. -/
def copyStep (dst : List Chunk) (head : Chunk) (rest : List Chunk) (n : Nat) :
    Option (Nat × List Chunk × List Chunk) := do
  let ((r, head'), dst') ← onBack (fun c =>
    (c.readFromChunk head n).map fun (r, c', head') => ((r, head'), c')) dst
  -- remove useless chunks when they are fully read
  return (r, dst', ← dropRead (head' :: rest))

/-- The loop of `read_from_marshal`; `n` is what is left to move. -/
def readFromMarshalLoop (dst src : List Chunk) (n : Nat) :
    Option (Nat × List Chunk × List Chunk) :=
  if n = 0 then some (0, dst, src) else
  match src with
  -- nothing more to read
  | [] => some (0, dst, [])
  | head :: rest => do
    let noRoom ← needsChunk dst
    let handOver ← if noRoom then head.contentSize.map (fun s => decide (s < n)) else some false
    if handOver then do
      -- speed up: directly transfer chunk pointer, avoid memory copying
      let headSize ← head.contentSize
      let (k, dst', src') ← readFromMarshalLoop (dst ++ [head]) rest (n - headSize)
      return (headSize + k, dst', src')
    else do
      let dst := if noRoom then dst ++ [Chunk.new Chunk.minSize] else dst
      let (r, dst', src') ← copyStep dst head rest n
      -- no more data to read
      if r = 0 then return (0, dst', src')
      else do
        let (k, dst'', src'') ← readFromMarshalLoop dst' src' (n - r)
        return (r + k, dst'', src'')
termination_by (n, src.length)
decreasing_by
  · rcases Nat.eq_zero_or_pos headSize with h | h
    · subst h
      simp [Prod.lex_def]
    · exact Prod.Lex.left _ _ (by omega)
  · exact Prod.Lex.left _ _ (by omega)

/-- `this->read_from_marshal(m, n)`: the return value and both buffers after
    it. -/
def readFromMarshal (dst src : Marshal) (n : Nat) : Option (Nat × Marshal × Marshal) := do
  headCheck dst.chunks
  headCheck src.chunks
  let (k, dchunks, schunks) ← readFromMarshalLoop dst.chunks src.chunks n
  headCheck dchunks
  headCheck schunks
  return (k, { dst with chunks := dchunks }, { src with chunks := schunks })

def contentSizeGtLoop (size : Int) : List Chunk → Int → Option Bool
  | [], visited => some (visited > size)
  | c :: cs, visited => do
    let visited := i32 (visited + (← c.contentSize))
    if visited > size then return true else contentSizeGtLoop size cs visited

/-- Faster way to check if content_size > size. -/
def contentSizeGt (m : Marshal) (size : Int) : Option Bool :=
  contentSizeGtLoop size m.chunks 0

def contentSizeLoop : List Chunk → Int → Option Int
  | [], size => some size
  | c :: cs, size => do contentSizeLoop cs (i32 (size + (← c.contentSize)))

def contentSize (m : Marshal) : Option Int := contentSizeLoop m.chunks 0

/-- The bytes of all chunks, in order. -/
def content (m : Marshal) : List Byte := m.chunks.flatMap Chunk.content

def dump (m : Marshal) : Option (List Byte) := do
  -- the `reserve` takes the same `content_size()` as the assertion at the end
  let s := m.content
  verify ((s.length : Int) = (← m.contentSize))
  return s

end Marshal

end VncProxy
