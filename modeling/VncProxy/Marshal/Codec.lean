/-
  VncProxy.Marshal.Codec

  The operators `<<` and `>>` of marshal.h, for the types built from `i32`, `i64`,
  `double`, `string`, `vector`, `list` and `map`.

  A `Built α` says how the values of `α` are built, so that one definition stands for
  the family of overloads.  `Wire` is the other description of the format: it relates a
  value to the bytes that `>>` makes it of, without a buffer and without a loop.
-/
import VncProxy.Marshal.Transfer
import Mathlib.Data.List.Forall2

namespace VncProxy
namespace Marshal

open Lib (verify verify_bind verify_bind_none)

-- ============================================================================
-- Words
-- ============================================================================

/-- The bytes of a word of `n` bytes, least significant first, as on the hosts that the
    program runs on. -/
def wordBytes : (n : Nat) → Nat → List Byte
  | 0, _ => []
  | n + 1, w => UInt8.ofNat w :: wordBytes n (w / 256)

/-- The word that the bytes make up. -/
def wordOf : List Byte → Nat
  | [] => 0
  | b :: bs => b.toNat + 256 * wordOf bs

@[simp] theorem length_wordBytes (n w : Nat) : (wordBytes n w).length = n := by
  induction n generalizing w with
  | zero => rfl
  | succ n ih => rw [wordBytes, List.length_cons, ih]

theorem wordOf_wordBytes {n w : Nat} (h : w < 256 ^ n) : wordOf (wordBytes n w) = w := by
  induction n generalizing w with
  | zero =>
    rw [Nat.pow_zero] at h
    rw [wordBytes, wordOf]
    omega
  | succ n ih =>
    have hrest : w / 256 < 256 ^ n := by
      rw [Nat.pow_succ] at h
      omega
    rw [wordBytes, wordOf, ih hrest, UInt8.toNat_ofNat']
    omega

theorem wordOf_lt (bs : List Byte) : wordOf bs < 256 ^ bs.length := by
  induction bs with
  | nil => simp [wordOf]
  | cons b bs ih =>
    have hb := b.toNat_lt
    rw [wordOf, List.length_cons, Nat.pow_succ]
    omega

theorem wordBytes_wordOf (bs : List Byte) : wordBytes bs.length (wordOf bs) = bs := by
  induction bs with
  | nil => rfl
  | cons b bs ih =>
    have hb := b.toNat_lt
    have hlow : UInt8.ofNat (b.toNat + 256 * wordOf bs) = b := by
      rw [← UInt8.toNat_inj, UInt8.toNat_ofNat']
      omega
    have hhigh : (b.toNat + 256 * wordOf bs) / 256 = wordOf bs := by omega
    rw [List.length_cons, wordBytes, wordOf, hlow, hhigh, ih]

section Int

variable {w n : Nat}

/-- An integer of `n` bytes as it lies in memory. -/
def intBytes (n : Nat) (v : BitVec (8 * n)) : List Byte := wordBytes n v.toNat

def intOf (n : Nat) (bs : List Byte) : BitVec (8 * n) := BitVec.ofNat _ (wordOf bs)

@[simp] theorem length_intBytes (v : BitVec (8 * n)) : (intBytes n v).length = n :=
  length_wordBytes n _

@[simp] theorem intOf_intBytes (v : BitVec (8 * n)) : intOf n (intBytes n v) = v := by
  have hlt : v.toNat < 256 ^ n := by
    have hv := v.isLt
    rwa [Nat.pow_mul] at hv
  unfold intOf intBytes
  rw [wordOf_wordBytes hlt, BitVec.ofNat_toNat, BitVec.setWidth_eq]

theorem intBytes_intOf {bs : List Byte} (h : bs.length = n) : intBytes n (intOf n bs) = bs := by
  have hlt : wordOf bs < 2 ^ (8 * n) := by
    have hbs := wordOf_lt bs
    rwa [h, ← Nat.pow_mul 2 8 n] at hbs
  unfold intOf intBytes
  rw [BitVec.toNat_ofNat, Nat.mod_eq_of_lt hlt, ← h, wordBytes_wordOf]

end Int

-- ============================================================================
-- std::map
-- ============================================================================

/-- The order of the keys of a `std::map`. -/
structure KeyOrder (κ : Type) where
  lt : κ → κ → Bool
  irrefl : ∀ a, lt a a = false
  trans : ∀ a b c, lt a b = true → lt b c = true → lt a c = true

/-- `std::map<K, V>`: its entries in the order of an iteration. -/
structure StdMap {κ : Type} (o : KeyOrder κ) (α : Type) where
  entries : List (κ × α)
  sorted : entries.Pairwise fun a b => o.lt a.1 b.1 = true

namespace StdMap

variable {κ α : Type} {o : KeyOrder κ}

theorem ext {x y : StdMap o α} (h : x.entries = y.entries) : x = y := by
  cases x
  cases y
  congr

def empty : StdMap o α := ⟨[], List.Pairwise.nil⟩

def assignEntry (o : KeyOrder κ) (key : κ) (value : α) : List (κ × α) → List (κ × α)
  | [] => [(key, value)]
  | (k, v) :: rest =>
    if o.lt k key then (k, v) :: assignEntry o key value rest
    else if o.lt key k then (key, value) :: (k, v) :: rest
    else (k, value) :: rest

/-- An entry after an assignment was there before, or has the new key. -/
theorem key_of_mem_assign {key : κ} {value : α} {entries : List (κ × α)} {e : κ × α}
    (h : e ∈ assignEntry o key value entries) : e.1 = key ∨ ∃ e' ∈ entries, e'.1 = e.1 := by
  induction entries with
  | nil =>
    obtain rfl := List.mem_singleton.mp h
    exact Or.inl rfl
  | cons e' rest ih =>
    obtain ⟨k, v⟩ := e'
    rw [assignEntry] at h
    split at h
    · rcases List.mem_cons.mp h with rfl | h
      · exact Or.inr ⟨(k, v), by simp, rfl⟩
      · rcases ih h with hkey | ⟨e', hmem, hkey⟩
        · exact Or.inl hkey
        · exact Or.inr ⟨e', by simp [hmem], hkey⟩
    · split at h
      · rcases List.mem_cons.mp h with rfl | h
        · exact Or.inl rfl
        · exact Or.inr ⟨e, h, rfl⟩
      · rcases List.mem_cons.mp h with rfl | h
        · exact Or.inr ⟨(k, v), by simp, rfl⟩
        · exact Or.inr ⟨e, by simp [h], rfl⟩

theorem sorted_assign {key : κ} {value : α} {entries : List (κ × α)}
    (h : entries.Pairwise fun a b => o.lt a.1 b.1 = true) :
    (assignEntry o key value entries).Pairwise fun a b => o.lt a.1 b.1 = true := by
  induction entries with
  | nil => simp [assignEntry]
  | cons e rest ih =>
    obtain ⟨k, v⟩ := e
    obtain ⟨hk, hrest⟩ := List.pairwise_cons.mp h
    rw [assignEntry]
    split
    · rename_i hlt
      refine List.pairwise_cons.mpr ⟨?_, ih hrest⟩
      intro e he
      rcases key_of_mem_assign he with hkey | ⟨e', hmem, hkey⟩
      · rw [hkey]
        exact hlt
      · rw [← hkey]
        exact hk e' hmem
    · split
      · rename_i hlt
        refine List.pairwise_cons.mpr ⟨?_, h⟩
        intro e he
        rcases List.mem_cons.mp he with rfl | he
        · exact hlt
        · exact o.trans _ _ _ hlt (hk e he)
      · exact List.pairwise_cons.mpr ⟨hk, hrest⟩

/-- `v[key] = value` -/
def assign (x : StdMap o α) (key : κ) (value : α) : StdMap o α :=
  ⟨assignEntry o key value x.entries, sorted_assign x.sorted⟩

/-- A key behind all others joins at the end. -/
theorem assignEntry_last {key : κ} {value : α} {entries : List (κ × α)}
    (h : ∀ e ∈ entries, o.lt e.1 key = true) :
    assignEntry o key value entries = entries ++ [(key, value)] := by
  induction entries with
  | nil => rfl
  | cons e rest ih =>
    obtain ⟨he, hrest⟩ := List.forall_mem_cons.mp h
    rw [assignEntry, if_pos he, ih hrest]
    rfl

/-- The map that assignments in this order lead to. -/
def assignAll (x : StdMap o α) (entries : List (κ × α)) : StdMap o α :=
  entries.foldl (fun x e => x.assign e.1 e.2) x

theorem entries_assignAll {x : StdMap o α} {entries : List (κ × α)}
    (h : (x.entries ++ entries).Pairwise fun a b => o.lt a.1 b.1 = true) :
    (x.assignAll entries).entries = x.entries ++ entries := by
  induction entries generalizing x with
  | nil => simp [assignAll]
  | cons e entries ih =>
    have hlast : (x.assign e.1 e.2).entries = x.entries ++ [e] := by
      apply assignEntry_last
      intro e' he'
      exact (List.pairwise_append.mp h).2.2 e' he' e (by simp)
    show ((x.assign e.1 e.2).assignAll entries).entries = _
    rw [ih (by rwa [hlast, List.append_assoc]), hlast, List.append_assoc]
    rfl

/-- The entries of a map, assigned in their order, make up the map. -/
theorem assignAll_entries (x : StdMap o α) : empty.assignAll x.entries = x := by
  apply ext
  rw [entries_assignAll (by simpa [empty] using x.sorted)]
  rfl

end StdMap

-- ============================================================================
-- The operators
-- ============================================================================

/-- How the values of a type are built. -/
inductive Built : Type → Type 1
  | i32 : Built (BitVec 32)
  | i64 : Built (BitVec 64)
  /-- eight raw bytes -/
  | double : Built (BitVec 64)
  | string : Built (List Byte)
  | vector {α : Type} (elem : Built α) : Built (List α)
  | list {α : Type} (elem : Built α) : Built (List α)
  | map {κ α : Type} (key : Built κ) (value : Built α) (o : KeyOrder κ) : Built (StdMap o α)

/-- `verify(write(p, n) == n)` -/
def writeAll (m : Marshal) (p : List Byte) : Option Marshal := do
  let (n, m) ← m.write p
  verify (n = p.length)
  return m

/-- `verify(read(p, n) == n)` -/
def readAll (m : Marshal) (n : Nat) : Option (List Byte × Marshal) := do
  let (bs, m) ← m.read n
  verify (bs.length = n)
  return (bs, m)

def writeI32 (m : Marshal) (v : BitVec 32) : Option Marshal := m.writeAll (intBytes 4 v)

/-- `(rpc::i32) v.size()` -/
def lengthI32 (n : Nat) : BitVec 32 := BitVec.ofNat 32 n

def writeString (m : Marshal) (v : List Byte) : Option Marshal := do
  let len := lengthI32 v.length
  let m ← m.writeI32 len
  if len.toInt > 0 then
    m.writeAll (v.take len.toInt.toNat)
  else
    return m

/-- `resize` and `reserve` take a `size_t`: a negative length is past every `max_size()`,
    and they throw. -/
def allocate (len : BitVec 32) : Option Unit := verify (0 ≤ len.toInt)

/-- The loop over the elements, `n` of them. -/
def readElems {α : Type} (get : Marshal → Option (α × Marshal)) :
    Nat → Marshal → Option (List α × Marshal)
  | 0, m => some ([], m)
  | n + 1, m => do
    let (elem, m) ← get m
    let (elems, m) ← readElems get n m
    return (elem :: elems, m)

/-- The loop over the entries of a map, `n` of them, into `v`. -/
def readEntries {κ α : Type} {o : KeyOrder κ} (getKey : Marshal → Option (κ × Marshal))
    (getValue : Marshal → Option (α × Marshal)) :
    Nat → StdMap o α → Marshal → Option (StdMap o α × Marshal)
  | 0, v, m => some (v, m)
  | n + 1, v, m => do
    let (key, m) ← getKey m
    let (value, m) ← getValue m
    readEntries getKey getValue n (v.assign key value) m

namespace Built

/-- `m << v` -/
def put : {α : Type} → Built α → α → Marshal → Option Marshal
  | _, .i32 => fun v m => m.writeI32 v
  | _, .i64 => fun v m => m.writeAll (intBytes 8 v)
  | _, .double => fun v m => m.writeAll (intBytes 8 v)
  | _, .string => fun v m => m.writeString v
  | _, .vector elem => fun v m => do
    let m ← m.writeI32 (lengthI32 v.length)
    v.foldlM (fun m x => elem.put x m) m
  | _, .list elem => fun v m => do
    let m ← m.writeI32 (lengthI32 v.length)
    v.foldlM (fun m x => elem.put x m) m
  | _, .map key value _ => fun v m => do
    let m ← m.writeI32 (lengthI32 v.entries.length)
    v.entries.foldlM (fun m e => do value.put e.2 (← key.put e.1 m)) m

/-- `m >> v` -/
def get : {α : Type} → Built α → Marshal → Option (α × Marshal)
  | _, .i32 => fun m => do
    let (bs, m) ← m.readAll 4
    return (intOf 4 bs, m)
  | _, .i64 => fun m => do
    let (bs, m) ← m.readAll 8
    return (intOf 8 bs, m)
  | _, .double => fun m => do
    let (bs, m) ← m.readAll 8
    return (intOf 8 bs, m)
  | _, .string => fun m => do
    let (bs, m) ← m.readAll 4
    let len := intOf 4 bs
    allocate len
    if len.toInt > 0 then
      m.readAll len.toInt.toNat
    else
      return ([], m)
  | _, .vector elem => fun m => do
    let (bs, m) ← m.readAll 4
    let len := intOf 4 bs
    allocate len
    readElems elem.get len.toInt.toNat m
  | _, .list elem => fun m => do
    let (bs, m) ← m.readAll 4
    let len := intOf 4 bs
    readElems elem.get len.toInt.toNat m
  | _, .map key value _ => fun m => do
    let (bs, m) ← m.readAll 4
    let len := intOf 4 bs
    readEntries key.get value.get len.toInt.toNat StdMap.empty m

/-- Every size is below 2^31. -/
def Fits : {α : Type} → Built α → α → Prop
  | _, .i32 => fun _ => True
  | _, .i64 => fun _ => True
  | _, .double => fun _ => True
  | _, .string => fun v => v.length < 2 ^ 31
  | _, .vector elem => fun v => v.length < 2 ^ 31 ∧ ∀ x ∈ v, elem.Fits x
  | _, .list elem => fun v => v.length < 2 ^ 31 ∧ ∀ x ∈ v, elem.Fits x
  | _, .map key value _ => fun v =>
    v.entries.length < 2 ^ 31 ∧ ∀ e ∈ v.entries, key.Fits e.1 ∧ value.Fits e.2

/-- The bytes that `m << v` writes. -/
def encode : {α : Type} → Built α → α → List Byte
  | _, .i32 => fun v => intBytes 4 v
  | _, .i64 => fun v => intBytes 8 v
  | _, .double => fun v => intBytes 8 v
  | _, .string => fun v => intBytes 4 (lengthI32 v.length) ++ v
  | _, .vector elem => fun v => intBytes 4 (lengthI32 v.length) ++ v.flatMap elem.encode
  | _, .list elem => fun v => intBytes 4 (lengthI32 v.length) ++ v.flatMap elem.encode
  | _, .map key value _ => fun v => intBytes 4 (lengthI32 v.entries.length) ++
    v.entries.flatMap fun e => key.encode e.1 ++ value.encode e.2

end Built

-- ============================================================================
-- The bytes that are written
-- ============================================================================

section Put

variable {m : Marshal} {α κ : Type}

theorem writeAll_spec (h : m.Inv) {p : List Byte} (hp : p ≠ []) (hlen : p.length < 2 ^ 31) :
    ∃ m', m.writeAll p = some m' ∧ m'.Inv ∧ m'.content = m.content ++ p := by
  obtain ⟨m', heq, hinv, hcon⟩ := write_spec h hp (by exact_mod_cast hlen)
  refine ⟨m', ?_, hinv, hcon⟩
  simp [writeAll, heq, verify_bind]

theorem intBytes_ne_nil {n : Nat} (hn : n ≠ 0) (v : BitVec (8 * n)) : intBytes n v ≠ [] := by
  intro hnil
  have hlen := length_intBytes v
  rw [hnil, List.length_nil] at hlen
  exact hn hlen.symm

theorem writeI32_spec (h : m.Inv) (v : BitVec 32) :
    ∃ m', m.writeI32 v = some m' ∧ m'.Inv ∧ m'.content = m.content ++ intBytes 4 v := by
  have hlen : (intBytes 4 v).length = 4 := length_intBytes (n := 4) v
  exact writeAll_spec h (intBytes_ne_nil (n := 4) (by decide) v) (by omega)

theorem toInt_lengthI32 {n : Nat} (h : n < 2 ^ 31) : (lengthI32 n).toInt = n := by
  unfold lengthI32
  rw [BitVec.toInt_ofNat', Int.bmod_eq_of_le] <;> omega

theorem lengthI32_of_toInt {len : BitVec 32} {n : Nat} (h : len.toInt = n) :
    n < 2 ^ 31 ∧ lengthI32 n = len := by
  have hlt := BitVec.toInt_lt (x := len)
  refine ⟨by omega, ?_⟩
  apply BitVec.eq_of_toInt_eq
  rw [toInt_lengthI32 (by omega), h]

/-- What a fold of writers writes. -/
theorem foldlM_put_spec {write : Marshal → α → Option Marshal} (bytes : α → List Byte)
    {xs : List α} (hwrite : ∀ x ∈ xs, ∀ m : Marshal, m.Inv →
      ∃ m', write m x = some m' ∧ m'.Inv ∧ m'.content = m.content ++ bytes x) (h : m.Inv) :
    ∃ m', xs.foldlM write m = some m' ∧ m'.Inv ∧ m'.content = m.content ++ xs.flatMap bytes := by
  induction xs generalizing m with
  | nil => exact ⟨m, rfl, h, by simp⟩
  | cons x xs ih =>
    obtain ⟨hx, hxs⟩ := List.forall_mem_cons.mp hwrite
    obtain ⟨m', heq, hinv, hcon⟩ := hx m h
    obtain ⟨m'', heq', hinv', hcon'⟩ := ih hxs hinv
    refine ⟨m'', ?_, hinv', ?_⟩
    · rw [List.foldlM_cons, heq]
      exact heq'
    · rw [hcon', hcon, List.flatMap_cons, List.append_assoc]

/-- `m << v` writes the bytes of `v` and nothing else. -/
theorem put_spec (b : Built α) {v : α} (hv : b.Fits v) (h : m.Inv) :
    ∃ m', b.put v m = some m' ∧ m'.Inv ∧ m'.content = m.content ++ b.encode v := by
  induction b generalizing m with
  | i32 => exact writeI32_spec h v
  | i64 =>
    have hlen : (intBytes 8 v).length = 8 := length_intBytes (n := 8) v
    exact writeAll_spec h (intBytes_ne_nil (n := 8) (by decide) v) (by omega)
  | double =>
    have hlen : (intBytes 8 v).length = 8 := length_intBytes (n := 8) v
    exact writeAll_spec h (intBytes_ne_nil (n := 8) (by decide) v) (by omega)
  | string =>
    have hv : v.length < 2 ^ 31 := hv
    obtain ⟨m', heq, hinv, hcon⟩ := writeI32_spec h (lengthI32 v.length)
    show ∃ m'', m.writeString v = some m'' ∧ m''.Inv ∧
      m''.content = m.content ++ (intBytes 4 (lengthI32 v.length) ++ v)
    unfold writeString
    dsimp only
    rw [heq, toInt_lengthI32 hv, Option.bind_eq_bind, Option.bind_some, Int.toNat_natCast,
      List.take_length]
    by_cases hnil : v = []
    · subst hnil
      exact ⟨m', rfl, hinv, by rw [hcon, List.append_nil]⟩
    · have hpos := List.length_pos_iff.mpr hnil
      rw [if_pos (by omega)]
      obtain ⟨m'', heq', hinv', hcon'⟩ := writeAll_spec hinv hnil hv
      exact ⟨m'', heq', hinv', by rw [hcon', hcon, List.append_assoc]⟩
  | vector elem ih =>
    obtain ⟨m', heq, hinv, hcon⟩ := writeI32_spec h (lengthI32 v.length)
    obtain ⟨m'', heq', hinv', hcon'⟩ := foldlM_put_spec elem.encode
      (fun x hx m hm => ih (hv.2 x hx) hm) hinv
    refine ⟨m'', ?_, hinv', by rw [hcon', hcon, List.append_assoc]; rfl⟩
    show (m.writeI32 _).bind _ = _
    rw [heq]
    exact heq'
  | list elem ih =>
    obtain ⟨m', heq, hinv, hcon⟩ := writeI32_spec h (lengthI32 v.length)
    obtain ⟨m'', heq', hinv', hcon'⟩ := foldlM_put_spec elem.encode
      (fun x hx m hm => ih (hv.2 x hx) hm) hinv
    refine ⟨m'', ?_, hinv', by rw [hcon', hcon, List.append_assoc]; rfl⟩
    show (m.writeI32 _).bind _ = _
    rw [heq]
    exact heq'
  | map key value o ihkey ihvalue =>
    obtain ⟨m', heq, hinv, hcon⟩ := writeI32_spec h (lengthI32 v.entries.length)
    have hentry : ∀ e ∈ v.entries, ∀ m : Marshal, m.Inv →
        ∃ m', (do value.put e.2 (← key.put e.1 m)) = some m' ∧ m'.Inv ∧
          m'.content = m.content ++ (key.encode e.1 ++ value.encode e.2) := by
      intro e he m hm
      obtain ⟨m₁, heq₁, hinv₁, hcon₁⟩ := ihkey (hv.2 e he).1 hm
      obtain ⟨m₂, heq₂, hinv₂, hcon₂⟩ := ihvalue (hv.2 e he).2 hinv₁
      refine ⟨m₂, ?_, hinv₂, by rw [hcon₂, hcon₁, List.append_assoc]⟩
      rw [heq₁]
      exact heq₂
    obtain ⟨m'', heq', hinv', hcon'⟩ :=
      foldlM_put_spec (fun e : _ × _ => key.encode e.1 ++ value.encode e.2) hentry hinv
    refine ⟨m'', ?_, hinv', by rw [hcon', hcon, List.append_assoc]; rfl⟩
    show (m.writeI32 _).bind _ = _
    rw [heq]
    exact heq'

end Put

-- ============================================================================
-- The bytes that are read
-- ============================================================================

/-- `v` is what `>>` makes of the bytes, where `lens` says which lengths a list or a map
    may announce. -/
def Built.Wire (lens : Int → Prop) : {α : Type} → Built α → α → List Byte → Prop
  | _, .i32 => fun v bs => bs = intBytes 4 v
  | _, .i64 => fun v bs => bs = intBytes 8 v
  | _, .double => fun v bs => bs = intBytes 8 v
  | _, .string => fun v bs => v.length < 2 ^ 31 ∧ bs = intBytes 4 (lengthI32 v.length) ++ v
  | _, .vector elem => fun v bs => v.length < 2 ^ 31 ∧
    ∃ parts, List.Forall₂ (elem.Wire lens) v parts ∧
      bs = intBytes 4 (lengthI32 v.length) ++ parts.flatten
  | _, .list elem => fun v bs => ∃ len : BitVec 32, lens len.toInt ∧ len.toInt.toNat = v.length ∧
    ∃ parts, List.Forall₂ (elem.Wire lens) v parts ∧ bs = intBytes 4 len ++ parts.flatten
  | _, .map key value _ => fun v bs => ∃ len : BitVec 32, ∃ entries, lens len.toInt ∧
    len.toInt.toNat = entries.length ∧ v = StdMap.empty.assignAll entries ∧
    ∃ parts, List.Forall₂ (fun e part => ∃ k x, key.Wire lens e.1 k ∧ value.Wire lens e.2 x ∧
      part = k ++ x) entries parts ∧ bs = intBytes 4 len ++ parts.flatten

section Get

variable {m m' : Marshal} {α κ : Type} {s : List Byte}

/-- `get` makes `v` of the bytes in front, and leaves the rest. -/
def Takes (get : Marshal → Option (α × Marshal)) (v : α) (bs : List Byte) : Prop :=
  ∀ (m : Marshal) (s : List Byte), m.Inv → m.content = bs ++ s →
    ∃ m', get m = some (v, m') ∧ m'.Inv ∧ m'.content = s

/-- What `get` takes is in `wire`. -/
def TakesOnly (get : Marshal → Option (α × Marshal)) (wire : α → List Byte → Prop) : Prop :=
  ∀ (m m' : Marshal) (v : α), m.Inv → get m = some (v, m') →
    ∃ bs, wire v bs ∧ m.content = bs ++ m'.content ∧ m'.Inv

theorem readAll_takes (bs : List Byte) : Takes (fun m => m.readAll bs.length) bs bs := by
  intro m s h hcon
  obtain ⟨m', heq, hinv, hcon'⟩ := read_spec h bs.length
  rw [hcon, List.take_left] at heq
  rw [hcon, List.drop_left] at hcon'
  refine ⟨m', ?_, hinv, hcon'⟩
  simp [readAll, heq, verify_bind]

theorem readAll_takesOnly (n : Nat) :
    TakesOnly (fun m => m.readAll n) fun v bs => v = bs ∧ v.length = n := by
  intro m m' v h hget
  obtain ⟨m'', heq, hinv, hcon⟩ := read_spec h n
  simp only [readAll, heq, Option.bind_eq_bind, Option.bind_some] at hget
  obtain ⟨hlen, hret⟩ := Lib.verify_bind_eq_some.mp hget
  obtain ⟨rfl, rfl⟩ := Prod.mk.inj (Option.some.inj hret)
  exact ⟨_, ⟨rfl, hlen⟩, by rw [hcon, List.take_append_drop], hinv⟩

theorem readElems_takes {get : Marshal → Option (α × Marshal)} {v : List α}
    {parts : List (List Byte)} (h : List.Forall₂ (Takes get) v parts) :
    Takes (readElems get v.length) v parts.flatten := by
  induction h with
  | nil =>
    intro m s hm hcon
    exact ⟨m, rfl, hm, hcon⟩
  | cons hx _ ih =>
    intro m s hm hcon
    rw [List.flatten_cons, List.append_assoc] at hcon
    obtain ⟨m₁, heq₁, hinv₁, hcon₁⟩ := hx m _ hm hcon
    obtain ⟨m₂, heq₂, hinv₂, hcon₂⟩ := ih m₁ s hinv₁ hcon₁
    refine ⟨m₂, ?_, hinv₂, hcon₂⟩
    simp [readElems, heq₁, heq₂]

theorem readElems_takesOnly {get : Marshal → Option (α × Marshal)} {wire : α → List Byte → Prop}
    (h : TakesOnly get wire) (n : Nat) : TakesOnly (readElems get n) fun v bs =>
      v.length = n ∧ ∃ parts, List.Forall₂ wire v parts ∧ bs = parts.flatten := by
  induction n with
  | zero =>
    intro m m' v hm hget
    obtain ⟨rfl, rfl⟩ := Prod.mk.inj (Option.some.inj hget)
    exact ⟨[], ⟨rfl, [], List.Forall₂.nil, rfl⟩, rfl, hm⟩
  | succ n ih =>
    intro m m' v hm hget
    obtain ⟨⟨x, m₁⟩, heq₁, hget⟩ := Option.bind_eq_some_iff.mp hget
    obtain ⟨⟨xs, m₂⟩, heq₂, hret⟩ := Option.bind_eq_some_iff.mp hget
    obtain ⟨rfl, rfl⟩ := Prod.mk.inj (Option.some.inj hret)
    obtain ⟨bs, hx, hcon, hinv⟩ := h m m₁ x hm heq₁
    obtain ⟨bs', ⟨hlen, parts, hxs, rfl⟩, hcon', hinv'⟩ := ih m₁ m₂ xs hinv heq₂
    refine ⟨bs ++ parts.flatten, ⟨by rw [List.length_cons, hlen], bs :: parts,
      List.Forall₂.cons hx hxs, rfl⟩, ?_, hinv'⟩
    rw [hcon, hcon', List.append_assoc]

theorem readEntries_takes {o : KeyOrder κ} {getKey : Marshal → Option (κ × Marshal)}
    {getValue : Marshal → Option (α × Marshal)} {entries : List (κ × α)}
    {parts : List (List Byte)}
    (h : List.Forall₂ (fun e part => ∃ k x, Takes getKey e.1 k ∧ Takes getValue e.2 x ∧
      part = k ++ x) entries parts) (v : StdMap o α) :
    Takes (readEntries getKey getValue entries.length v) (v.assignAll entries) parts.flatten := by
  induction h generalizing v with
  | nil =>
    intro m s hm hcon
    exact ⟨m, rfl, hm, hcon⟩
  | cons hx _ ih =>
    intro m s hm hcon
    obtain ⟨k, x, hk, hx, rfl⟩ := hx
    rw [List.flatten_cons, List.append_assoc, List.append_assoc] at hcon
    obtain ⟨m₁, heq₁, hinv₁, hcon₁⟩ := hk m _ hm hcon
    obtain ⟨m₂, heq₂, hinv₂, hcon₂⟩ := hx m₁ _ hinv₁ hcon₁
    obtain ⟨m₃, heq₃, hinv₃, hcon₃⟩ := ih (v.assign _ _) m₂ s hinv₂ hcon₂
    refine ⟨m₃, ?_, hinv₃, hcon₃⟩
    simp only [List.length_cons, readEntries, heq₁, heq₂, Option.bind_eq_bind, Option.bind_some]
    exact heq₃

theorem readEntries_takesOnly {o : KeyOrder κ} {getKey : Marshal → Option (κ × Marshal)}
    {getValue : Marshal → Option (α × Marshal)} {wireKey : κ → List Byte → Prop}
    {wireValue : α → List Byte → Prop} (hkey : TakesOnly getKey wireKey)
    (hvalue : TakesOnly getValue wireValue) (n : Nat) (v : StdMap o α) :
    TakesOnly (readEntries getKey getValue n v) fun v' bs => ∃ entries : List (κ × α),
      entries.length = n ∧ v' = v.assignAll entries ∧
      ∃ parts, List.Forall₂ (fun e part => ∃ k x, wireKey e.1 k ∧ wireValue e.2 x ∧
        part = k ++ x) entries parts ∧ bs = parts.flatten := by
  induction n generalizing v with
  | zero =>
    intro m m' v' hm hget
    obtain ⟨rfl, rfl⟩ := Prod.mk.inj (Option.some.inj hget)
    exact ⟨[], ⟨[], rfl, rfl, [], List.Forall₂.nil, rfl⟩, rfl, hm⟩
  | succ n ih =>
    intro m m' v' hm hget
    obtain ⟨⟨key, m₁⟩, heq₁, hget⟩ := Option.bind_eq_some_iff.mp hget
    obtain ⟨⟨value, m₂⟩, heq₂, hget⟩ := Option.bind_eq_some_iff.mp hget
    obtain ⟨k, hk, hcon₁, hinv₁⟩ := hkey m m₁ key hm heq₁
    obtain ⟨x, hx, hcon₂, hinv₂⟩ := hvalue m₁ m₂ value hinv₁ heq₂
    obtain ⟨bs, ⟨entries, hlen, rfl, parts, hentries, rfl⟩, hcon₃, hinv₃⟩ :=
      ih (v.assign key value) m₂ m' v' hinv₂ hget
    refine ⟨(k ++ x) ++ parts.flatten, ⟨(key, value) :: entries, by rw [List.length_cons, hlen],
      rfl, (k ++ x) :: parts, List.Forall₂.cons ⟨k, x, hk, hx, rfl⟩ hentries, rfl⟩, ?_, hinv₃⟩
    rw [hcon₁, hcon₂, hcon₃]
    simp

/-- A length that is read, and what is made of the rest. -/
theorem takes_length {f : BitVec 32 → Marshal → Option (α × Marshal)} {len : BitVec 32} {v : α}
    {bs : List Byte} (h : Takes (f len) v bs) : Takes (fun m => do
      let (bytes, m) ← m.readAll 4
      f (intOf 4 bytes) m) v (intBytes 4 len ++ bs) := by
  intro m s hm hcon
  have hlen : (intBytes 4 len).length = 4 := length_intBytes (n := 4) len
  have hint : intOf 4 (intBytes 4 len) = len := intOf_intBytes (n := 4) len
  rw [List.append_assoc] at hcon
  obtain ⟨m₁, heq₁, hinv₁, hcon₁⟩ := readAll_takes (intBytes 4 len) m _ hm hcon
  obtain ⟨m₂, heq₂, hinv₂, hcon₂⟩ := h m₁ s hinv₁ hcon₁
  refine ⟨m₂, ?_, hinv₂, hcon₂⟩
  rw [hlen] at heq₁
  simp only [heq₁, Option.bind_eq_bind, Option.bind_some, hint]
  exact heq₂

theorem takesOnly_length {f : BitVec 32 → Marshal → Option (α × Marshal)}
    {wire : BitVec 32 → α → List Byte → Prop} (h : ∀ len, TakesOnly (f len) (wire len)) :
    TakesOnly (fun m => do
      let (bytes, m) ← m.readAll 4
      f (intOf 4 bytes) m) fun v bs => ∃ len bs', wire len v bs' ∧ bs = intBytes 4 len ++ bs' := by
  intro m m' v hm hget
  obtain ⟨⟨bytes, m₁⟩, heq₁, hget⟩ := Option.bind_eq_some_iff.mp hget
  obtain ⟨_, ⟨rfl, hlen⟩, hcon₁, hinv₁⟩ := readAll_takesOnly 4 m m₁ bytes hm heq₁
  obtain ⟨bs', hwire, hcon₂, hinv₂⟩ := h _ m₁ m' v hinv₁ hget
  have hint : intBytes 4 (intOf 4 bytes) = bytes := intBytes_intOf hlen
  refine ⟨bytes ++ bs', ⟨intOf 4 bytes, bs', hwire, by rw [hint]⟩, ?_, hinv₂⟩
  rw [hcon₁, hcon₂, List.append_assoc]

/-- A word of `n` bytes. -/
theorem takes_word {n : Nat} (v : BitVec (8 * n)) : Takes (fun m => do
      let (bs, m) ← m.readAll n
      return (intOf n bs, m)) v (intBytes n v) := by
  intro m s hm hcon
  obtain ⟨m', heq, hinv, hcon'⟩ := readAll_takes (intBytes n v) m s hm hcon
  rw [length_intBytes] at heq
  refine ⟨m', ?_, hinv, hcon'⟩
  simp only [heq, Option.bind_eq_bind, Option.bind_some, intOf_intBytes, Option.pure_def]

theorem takesOnly_word (n : Nat) : TakesOnly (fun m => do
      let (bs, m) ← m.readAll n
      return (intOf n bs, m)) fun v bs => bs = intBytes n v := by
  intro m m' v hm hget
  obtain ⟨⟨bs, m₁⟩, heq, hret⟩ := Option.bind_eq_some_iff.mp hget
  obtain ⟨rfl, rfl⟩ := Prod.mk.inj (Option.some.inj hret)
  obtain ⟨_, ⟨rfl, hlen⟩, hcon, hinv⟩ := readAll_takesOnly n m m₁ bs hm heq
  exact ⟨bs, (intBytes_intOf hlen).symm, hcon, hinv⟩

/-- A value is read from the bytes that are its wire form, whatever follows. -/
theorem get_takes {lens : Int → Prop} (b : Built α) {v : α} {bs : List Byte}
    (h : b.Wire lens v bs) : Takes b.get v bs := by
  induction b generalizing bs with
  | i32 =>
    obtain rfl : bs = intBytes 4 v := h
    exact takes_word (n := 4) v
  | i64 =>
    obtain rfl : bs = intBytes 8 v := h
    exact takes_word (n := 8) v
  | double =>
    obtain rfl : bs = intBytes 8 v := h
    exact takes_word (n := 8) v
  | string =>
    obtain ⟨hlen, rfl⟩ := h
    apply takes_length (f := fun len m => do
      allocate len
      if len.toInt > 0 then m.readAll len.toInt.toNat else return ([], m))
    intro m s hm hcon
    have hpos : (0 : Int) ≤ v.length := Int.natCast_nonneg _
    simp only [allocate, toInt_lengthI32 hlen, Option.bind_eq_bind, verify_bind hpos,
      Int.toNat_natCast]
    by_cases hnil : v = []
    · subst hnil
      exact ⟨m, rfl, hm, hcon⟩
    · have hlong := List.length_pos_iff.mpr hnil
      rw [if_pos (by omega)]
      exact readAll_takes v m s hm hcon
  | vector elem ih =>
    obtain ⟨hlen, parts, hparts, rfl⟩ := h
    apply takes_length (f := fun len m => do
      allocate len
      readElems elem.get len.toInt.toNat m)
    intro m s hm hcon
    have hpos : (0 : Int) ≤ v.length := Int.natCast_nonneg _
    simp only [allocate, toInt_lengthI32 hlen, Option.bind_eq_bind, verify_bind hpos,
      Int.toNat_natCast]
    exact readElems_takes (hparts.imp fun _ _ hx => ih hx) m s hm hcon
  | list elem ih =>
    obtain ⟨len, -, hlen, parts, hparts, rfl⟩ := h
    apply takes_length (f := fun len m => readElems elem.get len.toInt.toNat m)
    rw [hlen]
    exact readElems_takes (hparts.imp fun _ _ hx => ih hx)
  | map key value o ihkey ihvalue =>
    obtain ⟨len, entries, -, hlen, rfl, parts, hparts, rfl⟩ := h
    apply takes_length (f := fun len m =>
      readEntries key.get value.get len.toInt.toNat StdMap.empty m)
    rw [hlen]
    apply readEntries_takes
    refine hparts.imp ?_
    rintro e part ⟨k, x, hk, hx, rfl⟩
    exact ⟨k, x, ihkey hk, ihvalue hx, rfl⟩

/-- Nothing else is read. -/
theorem get_takesOnly (b : Built α) : TakesOnly b.get (b.Wire fun _ => True) := by
  induction b with
  | i32 => exact takesOnly_word 4
  | i64 => exact takesOnly_word 8
  | double => exact takesOnly_word 8
  | string =>
    have hstring : ∀ len : BitVec 32, TakesOnly (fun m => do
        allocate len
        if len.toInt > 0 then m.readAll len.toInt.toNat else return ([], m))
          fun v bs => v = bs ∧ len.toInt = v.length := by
      intro len m m' v hm hget
      obtain ⟨_, hpos, hget⟩ := Option.bind_eq_some_iff.mp hget
      have hpos : 0 ≤ len.toInt := Lib.verify_eq_some.mp hpos
      split at hget
      · obtain ⟨bs, ⟨rfl, hlen⟩, hcon, hinv⟩ := readAll_takesOnly _ m m' v hm hget
        exact ⟨v, ⟨rfl, by omega⟩, hcon, hinv⟩
      · obtain ⟨rfl, rfl⟩ := Prod.mk.inj (Option.some.inj hget)
        refine ⟨[], ⟨rfl, ?_⟩, rfl, hm⟩
        rw [List.length_nil]
        omega
    intro m m' v hm hget
    obtain ⟨_, ⟨len, _, ⟨rfl, hlen⟩, rfl⟩, hcon, hinv⟩ := takesOnly_length hstring m m' v hm hget
    obtain ⟨hshort, hsize⟩ := lengthI32_of_toInt hlen
    exact ⟨_, ⟨hshort, by rw [hsize]⟩, hcon, hinv⟩
  | vector elem ih =>
    have hvector : ∀ len : BitVec 32, TakesOnly (fun m => do
        allocate len
        readElems elem.get len.toInt.toNat m) fun v bs => len.toInt = v.length ∧
          ∃ parts, List.Forall₂ (elem.Wire fun _ => True) v parts ∧ bs = parts.flatten := by
      intro len m m' v hm hget
      obtain ⟨_, hpos, hget⟩ := Option.bind_eq_some_iff.mp hget
      have hpos : 0 ≤ len.toInt := Lib.verify_eq_some.mp hpos
      obtain ⟨bs, ⟨hlen, hparts⟩, hcon, hinv⟩ := readElems_takesOnly ih _ m m' v hm hget
      exact ⟨bs, ⟨by omega, hparts⟩, hcon, hinv⟩
    intro m m' v hm hget
    obtain ⟨_, ⟨len, _, ⟨hlen, parts, hparts, rfl⟩, rfl⟩, hcon, hinv⟩ :=
      takesOnly_length hvector m m' v hm hget
    obtain ⟨hshort, hsize⟩ := lengthI32_of_toInt hlen
    exact ⟨_, ⟨hshort, parts, hparts, by rw [hsize]⟩, hcon, hinv⟩
  | list elem ih =>
    intro m m' v hm hget
    obtain ⟨_, ⟨len, _, ⟨hlen, parts, hparts, rfl⟩, rfl⟩, hcon, hinv⟩ :=
      takesOnly_length (fun len => readElems_takesOnly ih len.toInt.toNat) m m' v hm hget
    exact ⟨_, ⟨len, trivial, hlen.symm, parts, hparts, rfl⟩, hcon, hinv⟩
  | map key value o ihkey ihvalue =>
    intro m m' v hm hget
    obtain ⟨_, ⟨len, _, ⟨entries, hlen, rfl, parts, hparts, rfl⟩, rfl⟩, hcon, hinv⟩ :=
      takesOnly_length (fun len => readEntries_takesOnly ihkey ihvalue len.toInt.toNat
        StdMap.empty) m m' v hm hget
    exact ⟨_, ⟨len, entries, trivial, hlen.symm, rfl, parts, hparts, rfl⟩, hcon, hinv⟩

end Get

end Marshal

end VncProxy
