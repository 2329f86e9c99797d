/-
  VncProxy.Handshake.D3des

  The DES of d3des.c.  `unsigned long` is 64 bits wide, so a rotation of a 32-bit
  half leaves bits above the half behind; the masks of the source cut them off.

  The key register `KnL` is one global array.  What `rfbDesKey` computes is what
  `rfbUseKey` puts there, and `rfbDes` works with what it finds there.
-/
import VncProxy.Marshal.Basic

namespace VncProxy.D3des

/-- `unsigned long` -/
abbrev Word := BitVec 64

/-- The 32 words of `KnL`. -/
abbrev Register := List Word

/-- The MODE of `rfbDesKey`. -/
inductive Edf
  | EN0
  | DE1
deriving DecidableEq, Repr

-- ============================================================================
-- Key schedule
-- ============================================================================

/-- The most significant bit of each byte of the key is ignored. -/
def bytebit : List Byte := [0o1, 0o2, 0o4, 0o10, 0o20, 0o40, 0o100, 0o200]

def bigbyte : List Word := [
  0x800000, 0x400000, 0x200000, 0x100000,
  0x80000, 0x40000, 0x20000, 0x10000,
  0x8000, 0x4000, 0x2000, 0x1000,
  0x800, 0x400, 0x200, 0x100,
  0x80, 0x40, 0x20, 0x10,
  0x8, 0x4, 0x2, 0x1]

def pc1 : List Nat := [
  56, 48, 40, 32, 24, 16, 8, 0, 57, 49, 41, 33, 25, 17,
  9, 1, 58, 50, 42, 34, 26, 18, 10, 2, 59, 51, 43, 35,
  62, 54, 46, 38, 30, 22, 14, 6, 61, 53, 45, 37, 29, 21,
  13, 5, 60, 52, 44, 36, 28, 20, 12, 4, 27, 19, 11, 3]

def totrot : List Nat := [1, 2, 4, 6, 8, 10, 12, 14, 15, 17, 19, 21, 23, 25, 27, 28]

def pc2 : List Nat := [
  13, 16, 10, 23, 0, 4, 2, 27, 14, 5, 20, 9,
  22, 18, 11, 3, 25, 7, 15, 6, 26, 19, 12, 1,
  40, 51, 30, 36, 46, 54, 29, 39, 50, 44, 32, 47,
  43, 48, 38, 55, 33, 52, 45, 41, 49, 35, 28, 31]

/-- The 56 bits of the key that count. -/
def pc1m (key : List Byte) : List Bool :=
  pc1.map fun l => key.getD (l >>> 3) 0 &&& bytebit.getD (l &&& 0o7) 0 != 0

/-- Both halves of `pc1m`, rotated for round `i`. -/
def pcr (pc1m : List Bool) (i : Nat) : List Bool :=
  (List.range 56).map fun j =>
    let l := j + totrot.getD i 0
    if j < 28 then
      if l < 28 then pc1m.getD l false else pc1m.getD (l - 28) false
    else
      if l < 56 then pc1m.getD l false else pc1m.getD (l - 28) false

/-- The loop that fills one word of `kn`, from the bits that `sel` selects. -/
def gather (pcr : List Bool) (sel : List Nat) : Word :=
  (List.range 24).foldl
    (fun kn j => if pcr.getD (sel.getD j 0) false then kn ||| bigbyte.getD j 0 else kn) 0

/-- One turn of the loop of `cookey`: two raw words make two cooked ones. -/
def cook (raw0 raw1 : Word) : List Word :=
  [(raw0 &&& 0x00fc0000) <<< 6 ||| (raw0 &&& 0x00000fc0) <<< 10 |||
      (raw1 &&& 0x00fc0000) >>> 10 ||| (raw1 &&& 0x00000fc0) >>> 6,
   (raw0 &&& 0x0003f000) <<< 12 ||| (raw0 &&& 0x0000003f) <<< 16 |||
      (raw1 &&& 0x0003f000) >>> 4 ||| (raw1 &&& 0x0000003f)]

def cookey : List Word → Register
  | raw0 :: raw1 :: raw => cook raw0 raw1 ++ cookey raw
  | _ => []

/-- What `rfbDesKey` hands to `rfbUseKey`.  Round `i` fills `kn[m]` and `kn[m + 1]`
    with `m = i << 1`, or `m = (15 - i) << 1` to decrypt. -/
def rfbDesKey (key : List Byte) (edf : Edf) : Register :=
  cookey ((List.range 16).flatMap fun m =>
    let pcr := pcr (pc1m key) (match edf with
      | .EN0 => m
      | .DE1 => 15 - m)
    [gather pcr pc2, gather pcr (pc2.drop 24)])

-- ============================================================================
-- Blocks
-- ============================================================================

/-- Four bytes, most significant first, from position `n` on. -/
def word (outof : List Byte) (n : Nat) : Word :=
  let byte (i : Nat) : Word := BitVec.ofNat 64 (outof.getD (n + i) 0).toNat
  byte 0 <<< 24 ||| byte 1 <<< 16 ||| byte 2 <<< 8 ||| byte 3

def scrunch (outof : List Byte) : Word × Word := (word outof 0, word outof 4)

/-- The four low bytes of a word, most significant first. -/
def bytes (w : Word) : List Byte :=
  [24, 16, 8, 0].map fun n => UInt8.ofNat ((w >>> n) &&& 0xff).toNat

def unscrun (outof : Word × Word) : List Byte := bytes outof.1 ++ bytes outof.2

def SP1 : List Word := [
  0x01010400, 0x00000000, 0x00010000, 0x01010404, 0x01010004, 0x00010404, 0x00000004, 0x00010000,
  0x00000400, 0x01010400, 0x01010404, 0x00000400, 0x01000404, 0x01010004, 0x01000000, 0x00000004,
  0x00000404, 0x01000400, 0x01000400, 0x00010400, 0x00010400, 0x01010000, 0x01010000, 0x01000404,
  0x00010004, 0x01000004, 0x01000004, 0x00010004, 0x00000000, 0x00000404, 0x00010404, 0x01000000,
  0x00010000, 0x01010404, 0x00000004, 0x01010000, 0x01010400, 0x01000000, 0x01000000, 0x00000400,
  0x01010004, 0x00010000, 0x00010400, 0x01000004, 0x00000400, 0x00000004, 0x01000404, 0x00010404,
  0x01010404, 0x00010004, 0x01010000, 0x01000404, 0x01000004, 0x00000404, 0x00010404, 0x01010400,
  0x00000404, 0x01000400, 0x01000400, 0x00000000, 0x00010004, 0x00010400, 0x00000000, 0x01010004]

def SP2 : List Word := [
  0x80108020, 0x80008000, 0x00008000, 0x00108020, 0x00100000, 0x00000020, 0x80100020, 0x80008020,
  0x80000020, 0x80108020, 0x80108000, 0x80000000, 0x80008000, 0x00100000, 0x00000020, 0x80100020,
  0x00108000, 0x00100020, 0x80008020, 0x00000000, 0x80000000, 0x00008000, 0x00108020, 0x80100000,
  0x00100020, 0x80000020, 0x00000000, 0x00108000, 0x00008020, 0x80108000, 0x80100000, 0x00008020,
  0x00000000, 0x00108020, 0x80100020, 0x00100000, 0x80008020, 0x80100000, 0x80108000, 0x00008000,
  0x80100000, 0x80008000, 0x00000020, 0x80108020, 0x00108020, 0x00000020, 0x00008000, 0x80000000,
  0x00008020, 0x80108000, 0x00100000, 0x80000020, 0x00100020, 0x80008020, 0x80000020, 0x00100020,
  0x00108000, 0x00000000, 0x80008000, 0x00008020, 0x80000000, 0x80100020, 0x80108020, 0x00108000]

def SP3 : List Word := [
  0x00000208, 0x08020200, 0x00000000, 0x08020008, 0x08000200, 0x00000000, 0x00020208, 0x08000200,
  0x00020008, 0x08000008, 0x08000008, 0x00020000, 0x08020208, 0x00020008, 0x08020000, 0x00000208,
  0x08000000, 0x00000008, 0x08020200, 0x00000200, 0x00020200, 0x08020000, 0x08020008, 0x00020208,
  0x08000208, 0x00020200, 0x00020000, 0x08000208, 0x00000008, 0x08020208, 0x00000200, 0x08000000,
  0x08020200, 0x08000000, 0x00020008, 0x00000208, 0x00020000, 0x08020200, 0x08000200, 0x00000000,
  0x00000200, 0x00020008, 0x08020208, 0x08000200, 0x08000008, 0x00000200, 0x00000000, 0x08020008,
  0x08000208, 0x00020000, 0x08000000, 0x08020208, 0x00000008, 0x00020208, 0x00020200, 0x08000008,
  0x08020000, 0x08000208, 0x00000208, 0x08020000, 0x00020208, 0x00000008, 0x08020008, 0x00020200]

def SP4 : List Word := [
  0x00802001, 0x00002081, 0x00002081, 0x00000080, 0x00802080, 0x00800081, 0x00800001, 0x00002001,
  0x00000000, 0x00802000, 0x00802000, 0x00802081, 0x00000081, 0x00000000, 0x00800080, 0x00800001,
  0x00000001, 0x00002000, 0x00800000, 0x00802001, 0x00000080, 0x00800000, 0x00002001, 0x00002080,
  0x00800081, 0x00000001, 0x00002080, 0x00800080, 0x00002000, 0x00802080, 0x00802081, 0x00000081,
  0x00800080, 0x00800001, 0x00802000, 0x00802081, 0x00000081, 0x00000000, 0x00000000, 0x00802000,
  0x00002080, 0x00800080, 0x00800081, 0x00000001, 0x00802001, 0x00002081, 0x00002081, 0x00000080,
  0x00802081, 0x00000081, 0x00000001, 0x00002000, 0x00800001, 0x00002001, 0x00802080, 0x00800081,
  0x00002001, 0x00002080, 0x00800000, 0x00802001, 0x00000080, 0x00800000, 0x00002000, 0x00802080]

def SP5 : List Word := [
  0x00000100, 0x02080100, 0x02080000, 0x42000100, 0x00080000, 0x00000100, 0x40000000, 0x02080000,
  0x40080100, 0x00080000, 0x02000100, 0x40080100, 0x42000100, 0x42080000, 0x00080100, 0x40000000,
  0x02000000, 0x40080000, 0x40080000, 0x00000000, 0x40000100, 0x42080100, 0x42080100, 0x02000100,
  0x42080000, 0x40000100, 0x00000000, 0x42000000, 0x02080100, 0x02000000, 0x42000000, 0x00080100,
  0x00080000, 0x42000100, 0x00000100, 0x02000000, 0x40000000, 0x02080000, 0x42000100, 0x40080100,
  0x02000100, 0x40000000, 0x42080000, 0x02080100, 0x40080100, 0x00000100, 0x02000000, 0x42080000,
  0x42080100, 0x00080100, 0x42000000, 0x42080100, 0x02080000, 0x00000000, 0x40080000, 0x42000000,
  0x00080100, 0x02000100, 0x40000100, 0x00080000, 0x00000000, 0x40080000, 0x02080100, 0x40000100]

def SP6 : List Word := [
  0x20000010, 0x20400000, 0x00004000, 0x20404010, 0x20400000, 0x00000010, 0x20404010, 0x00400000,
  0x20004000, 0x00404010, 0x00400000, 0x20000010, 0x00400010, 0x20004000, 0x20000000, 0x00004010,
  0x00000000, 0x00400010, 0x20004010, 0x00004000, 0x00404000, 0x20004010, 0x00000010, 0x20400010,
  0x20400010, 0x00000000, 0x00404010, 0x20404000, 0x00004010, 0x00404000, 0x20404000, 0x20000000,
  0x20004000, 0x00000010, 0x20400010, 0x00404000, 0x20404010, 0x00400000, 0x00004010, 0x20000010,
  0x00400000, 0x20004000, 0x20000000, 0x00004010, 0x20000010, 0x20404010, 0x00404000, 0x20400000,
  0x00404010, 0x20404000, 0x00000000, 0x20400010, 0x00000010, 0x00004000, 0x20400000, 0x00404010,
  0x00004000, 0x00400010, 0x20004010, 0x00000000, 0x20404000, 0x20000000, 0x00400010, 0x20004010]

def SP7 : List Word := [
  0x00200000, 0x04200002, 0x04000802, 0x00000000, 0x00000800, 0x04000802, 0x00200802, 0x04200800,
  0x04200802, 0x00200000, 0x00000000, 0x04000002, 0x00000002, 0x04000000, 0x04200002, 0x00000802,
  0x04000800, 0x00200802, 0x00200002, 0x04000800, 0x04000002, 0x04200000, 0x04200800, 0x00200002,
  0x04200000, 0x00000800, 0x00000802, 0x04200802, 0x00200800, 0x00000002, 0x04000000, 0x00200800,
  0x04000000, 0x00200800, 0x00200000, 0x04000802, 0x04000802, 0x04200002, 0x04200002, 0x00000002,
  0x00200002, 0x04000000, 0x04000800, 0x00200000, 0x04200800, 0x00000802, 0x00200802, 0x04200800,
  0x00000802, 0x04000002, 0x04200802, 0x04200000, 0x00200800, 0x00000000, 0x00000002, 0x04200802,
  0x00000000, 0x00200802, 0x04200000, 0x00000800, 0x04000002, 0x04000800, 0x00000800, 0x00200002]

def SP8 : List Word := [
  0x10001040, 0x00001000, 0x00040000, 0x10041040, 0x10000000, 0x10001040, 0x00000040, 0x10000000,
  0x00040040, 0x10040000, 0x10041040, 0x00041000, 0x10041000, 0x00041040, 0x00001000, 0x00000040,
  0x10040000, 0x10000040, 0x10001000, 0x00001040, 0x00041000, 0x00040040, 0x10040040, 0x10041000,
  0x00001040, 0x00000000, 0x00000000, 0x10040040, 0x10000040, 0x10001000, 0x00041040, 0x00040000,
  0x00041040, 0x00040000, 0x10041000, 0x00001000, 0x00000040, 0x10040040, 0x00001000, 0x00041040,
  0x10001000, 0x00000040, 0x10000040, 0x10040000, 0x10040040, 0x10000000, 0x00040000, 0x10001040,
  0x00000000, 0x10041040, 0x00040040, 0x10000040, 0x10040000, 0x10001000, 0x10001040, 0x00000000,
  0x10041040, 0x00041000, 0x00041000, 0x00001040, 0x00001040, 0x00040040, 0x10000000, 0x10041000]

/-- `work = ((a >> n) ^ b) & mask; b ^= work; a ^= (work << n);` -/
def exchange (a b : Word) (n : Nat) (mask : Word) : Word × Word :=
  let work := ((a >>> n) ^^^ b) &&& mask
  (a ^^^ work <<< n, b ^^^ work)

/-- `sp[w & 0x3f]` -/
def lookup (sp : List Word) (w : Word) : Word := sp.getD (w &&& 0x3f).toNat 0

/-- `fval` of one half of a round. -/
def fval (half key0 key1 : Word) : Word :=
  let work := (half <<< 28 ||| half >>> 4) ^^^ key0
  let fval := lookup SP7 work ||| lookup SP5 (work >>> 8) ||| lookup SP3 (work >>> 16) |||
    lookup SP1 (work >>> 24)
  let work := half ^^^ key1
  fval ||| lookup SP8 work ||| lookup SP6 (work >>> 8) ||| lookup SP4 (work >>> 16) |||
    lookup SP2 (work >>> 24)

/-- The loop of `desfunc`, four words of the register a turn. -/
def rounds : Register → Word → Word → Word × Word
  | key0 :: key1 :: key2 :: key3 :: keys, leftt, right =>
    let leftt := leftt ^^^ fval right key0 key1
    let right := right ^^^ fval leftt key2 key3
    rounds keys leftt right
  | _, leftt, right => (leftt, right)

def desfunc (block : Word × Word) (keys : Register) : Word × Word :=
  let (leftt, right) := block
  let (leftt, right) := exchange leftt right 4 0x0f0f0f0f
  let (leftt, right) := exchange leftt right 16 0x0000ffff
  let (right, leftt) := exchange right leftt 2 0x33333333
  let (right, leftt) := exchange right leftt 8 0x00ff00ff
  let right := (right <<< 1 ||| ((right >>> 31) &&& 1)) &&& 0xffffffff
  let (leftt, right) := exchange leftt right 0 0xaaaaaaaa
  let leftt := (leftt <<< 1 ||| ((leftt >>> 31) &&& 1)) &&& 0xffffffff
  let (leftt, right) := rounds keys leftt right
  let right := right <<< 31 ||| right >>> 1
  let (leftt, right) := exchange leftt right 0 0xaaaaaaaa
  let leftt := leftt <<< 31 ||| leftt >>> 1
  let (leftt, right) := exchange leftt right 8 0x00ff00ff
  let (leftt, right) := exchange leftt right 2 0x33333333
  let (right, leftt) := exchange right leftt 16 0x0000ffff
  let (right, leftt) := exchange right leftt 4 0x0f0f0f0f
  (right, leftt)

/-- `rfbDes` with `KnL` as the register. -/
def rfbDes (knl : Register) (inblock : List Byte) : List Byte :=
  unscrun (desfunc (scrunch inblock) knl)

@[simp] theorem length_rfbDes (knl : Register) (inblock : List Byte) :
    (rfbDes knl inblock).length = 8 := by
  simp [rfbDes, unscrun, bytes]

/-- The first validation set of d3des.c, with the bits of each byte of the key
    turned around. -/
example : rfbDes (rfbDesKey [0x80, 0xc4, 0xa2, 0xe6, 0x91, 0xd5, 0xb3, 0xf7] .EN0)
    [0x01, 0x23, 0x45, 0x67, 0x89, 0xab, 0xcd, 0xe7] =
      [0xc9, 0x57, 0x44, 0x25, 0x6a, 0x5e, 0xd3, 0x1d] := by
  decide +kernel

end VncProxy.D3des
