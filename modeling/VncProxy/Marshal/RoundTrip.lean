/-
  VncProxy.Marshal.RoundTrip

  What is written with `<<` is read back with `>>`, in any buffer and between any other
  reads and writes; and what `>>` accepts is what `<<` writes, except for a list or a map
  that announces a negative length, whose loop is not entered.
-/
import VncProxy.Marshal.Codec

namespace VncProxy
namespace Marshal

open Lib (Reach runActs)

-- ============================================================================
-- Encodings are wire forms
-- ============================================================================

namespace Built

/-- Built without a map. -/
def Plain : {α : Type} → Built α → Prop
  | _, .i32 | _, .i64 | _, .double | _, .string => True
  | _, .vector elem | _, .list elem => elem.Plain
  | _, .map _ _ _ => False

section Wire

variable {α : Type} {lens lens' : Int → Prop}

theorem forall₂_map {β γ : Type} {R : β → γ → Prop} {f : β → γ} {xs : List β}
    (h : ∀ x ∈ xs, R x (f x)) : List.Forall₂ R xs (xs.map f) := by
  induction xs with
  | nil => exact List.Forall₂.nil
  | cons x xs ih =>
    obtain ⟨hx, hxs⟩ := List.forall_mem_cons.mp h
    exact List.Forall₂.cons hx (ih hxs)

/-- What `<<` writes announces no negative length. -/
theorem wire_encode (b : Built α) {v : α} (h : b.Fits v) : b.Wire (0 ≤ ·) v (b.encode v) := by
  induction b with
  | i32 => rfl
  | i64 => rfl
  | double => rfl
  | string => exact ⟨h, rfl⟩
  | vector elem ih =>
    refine ⟨h.1, v.map elem.encode, forall₂_map fun x hx => ih (h.2 x hx), ?_⟩
    rw [← List.flatMap_def]
    rfl
  | list elem ih =>
    have hlen := toInt_lengthI32 h.1
    refine ⟨lengthI32 v.length, by omega, by omega, v.map elem.encode,
      forall₂_map fun x hx => ih (h.2 x hx), ?_⟩
    rw [← List.flatMap_def]
    rfl
  | map key value o ihkey ihvalue =>
    have hlen := toInt_lengthI32 h.1
    refine ⟨lengthI32 v.entries.length, v.entries, by omega, by omega,
      v.assignAll_entries.symm, v.entries.map fun e => key.encode e.1 ++ value.encode e.2,
      forall₂_map fun e he => ⟨_, _, ihkey (h.2 e he).1, ihvalue (h.2 e he).2, rfl⟩, ?_⟩
    rw [← List.flatMap_def]
    rfl

/-- The parts of a wire form are the encodings of the elements. -/
theorem encode_of_parts {elem : Built α} {v : List α} {parts : List (List Byte)}
    (hparts : List.Forall₂ (elem.Wire (0 ≤ ·)) v parts)
    (ih : ∀ {x bs}, elem.Wire (0 ≤ ·) x bs → elem.Fits x ∧ bs = elem.encode x) :
    (∀ x ∈ v, elem.Fits x) ∧ parts.flatten = v.flatMap elem.encode := by
  induction hparts with
  | nil => exact ⟨by simp, rfl⟩
  | cons hx _ ih' =>
    obtain ⟨hfits, rfl⟩ := ih hx
    obtain ⟨hall, hflat⟩ := ih'
    refine ⟨List.forall_mem_cons.mpr ⟨hfits, hall⟩, ?_⟩
    rw [List.flatten_cons, List.flatMap_cons, hflat]

/-- Without maps and negative lengths, a wire form is an encoding. -/
theorem encode_of_wire (b : Built α) (hb : b.Plain) {v : α} {bs : List Byte}
    (h : b.Wire (0 ≤ ·) v bs) : b.Fits v ∧ bs = b.encode v := by
  induction b generalizing bs with
  | i32 => exact ⟨trivial, h⟩
  | i64 => exact ⟨trivial, h⟩
  | double => exact ⟨trivial, h⟩
  | string => exact h
  | vector elem ih =>
    obtain ⟨hlen, parts, hparts, rfl⟩ := h
    obtain ⟨hall, hflat⟩ := encode_of_parts hparts fun hx => ih hb hx
    exact ⟨⟨hlen, hall⟩, by rw [hflat]; rfl⟩
  | list elem ih =>
    obtain ⟨len, hpos, hlen, parts, hparts, rfl⟩ := h
    obtain ⟨hall, hflat⟩ := encode_of_parts hparts fun hx => ih hb hx
    have hlength : len.toInt = v.length := by omega
    obtain ⟨hshort, hsize⟩ := lengthI32_of_toInt hlength
    exact ⟨⟨hshort, hall⟩, by rw [hflat, ← hsize]; rfl⟩
  | map => exact hb.elim

end Wire

end Built

-- ============================================================================
-- Round trip
-- ============================================================================

/-- Reads of `n` bytes in all and writes of `s`, in any order and any portions. -/
inductive Traffic : List Op → List Byte → Nat → Prop
  | nil : Traffic [] [] 0
  | write {p s : List Byte} {ops : List Op} {n : Nat} (hp : p ≠ [])
      (hlen : (p.length : Int) < 2 ^ 31) (h : Traffic ops s n) :
      Traffic (.write p :: ops) (p ++ s) n
  | read {s : List Byte} {ops : List Op} {k n : Nat} (h : Traffic ops s n) :
      Traffic (.read k :: ops) s (k + n)

/-- One operation, whose result is dropped. -/
def turn (op : Op) (m : Marshal) : Option Marshal := (op.exec m).map Prod.snd

theorem traffic_spec {ops : List Op} {s : List Byte} {n : Nat} (h : Traffic ops s n) {m : Marshal}
    (hm : m.Inv) (hn : n ≤ m.content.length) :
    ∃ m', runActs turn ops m = some m' ∧ m'.Inv ∧ m'.content = m.content.drop n ++ s := by
  induction h generalizing m with
  | nil => exact ⟨m, rfl, hm, by simp⟩
  | @write p s ops n hp hlen _ ih =>
    obtain ⟨m₁, heq, hinv, hcon⟩ := write_spec hm hp hlen
    obtain ⟨m₂, hrun, hinv', hcon'⟩ := ih hinv (by rw [hcon, List.length_append]; omega)
    refine ⟨m₂, ?_, hinv', ?_⟩
    · simp only [runActs, turn, Op.exec, heq, Option.map_some, Option.bind_some]
      exact hrun
    · rw [hcon', hcon, List.drop_append_of_le_length hn, List.append_assoc]
  | @read s ops k n _ ih =>
    obtain ⟨m₁, heq, hinv, hcon⟩ := read_spec hm k
    obtain ⟨m₂, hrun, hinv', hcon'⟩ := ih hinv (by rw [hcon, List.length_drop]; omega)
    refine ⟨m₂, ?_, hinv', ?_⟩
    · simp only [runActs, turn, Op.exec, heq, Option.map_some, Option.bind_some]
      exact hrun
    · rw [hcon', hcon, List.drop_drop]

section RoundTrip

variable {h : Heap} {α : Type}

/-- A value of any type that is written to a buffer comes out again, once what was there
    before has been read off, and leaves what has been written after it. -/
theorem round_trip (hr : HeapReachable h) (i : Nat) (b : Built α) {x : α} (hx : b.Fits x) :
    ∃ m₁, b.put x (h i) = some m₁ ∧
      ∀ ops s, Traffic ops s (h i).content.length →
        ∃ m₂ m₃, runActs turn ops m₁ = some m₂ ∧ b.get m₂ = some (x, m₃) ∧ m₃.content = s := by
  obtain ⟨m₁, hput, hinv, hcon⟩ := put_spec b hx (heapReachable_inv hr i)
  refine ⟨m₁, hput, ?_⟩
  intro ops s htraffic
  obtain ⟨m₂, hrun, hinv₂, hcon₂⟩ := traffic_spec htraffic hinv
    (by rw [hcon, List.length_append]; omega)
  have hleft : m₂.content = b.encode x ++ s := by rw [hcon₂, hcon, List.drop_left]
  obtain ⟨m₃, hget, -, hcon₃⟩ := get_takes b (b.wire_encode hx) m₂ s hinv₂ hleft
  exact ⟨m₂, m₃, hrun, hget, hcon₃⟩

/-- The order of `i32` keys. -/
def i32Order : KeyOrder (BitVec 32) where
  lt a b := a.slt b
  irrefl a := by simp [BitVec.slt]
  trans a b c := by
    simp only [BitVec.slt, decide_eq_true_eq]
    exact Int.lt_trans

/-- A map from numbers to lists of strings, behind the letter `R`. -/
theorem round_trip_map : ∃ m₁, (Built.map .i32 (.list .string) i32Order).put
      ⟨[(1, [[70], []]), (2, [])], by decide⟩ (ofString [82]) = some m₁ ∧
    ∀ ops s, Traffic ops s (ofString [82]).content.length →
      ∃ m₂ m₃, runActs turn ops m₁ = some m₂ ∧
        (Built.map .i32 (.list .string) i32Order).get m₂ =
          some (⟨[(1, [[70], []]), (2, [])], by decide⟩, m₃) ∧ m₃.content = s := by
  have hr : HeapReachable fun _ => ofString [82] :=
    Reach.start fun _ => Or.inr ⟨[82], by decide, rfl⟩
  apply round_trip hr 0
  refine ⟨by decide, ?_⟩
  intro e he
  refine ⟨trivial, ?_⟩
  have hcases : e = (1, [[70], []]) ∨ e = (2, []) := by simpa using he
  rcases hcases with rfl | rfl
  · refine ⟨by decide, ?_⟩
    intro x hx
    have hx : x = [70] ∨ x = [] := by simpa using hx
    rcases hx with rfl | rfl
    · show [70].length < 2 ^ 31
      decide
    · show [].length < 2 ^ 31
      decide
  · exact ⟨by decide, by simp⟩

end RoundTrip

-- ============================================================================
-- What is accepted
-- ============================================================================

/-- `>>` accepts the encodings, and nothing else: it returns the value that is encoded and
    consumes its encoding. -/
structure Built.Exact {α : Type} (b : Built α) (m : Marshal) : Prop where
  accepts : ∀ x s, b.Fits x → m.content = b.encode x ++ s →
    ∃ m', b.get m = some (x, m') ∧ m'.content = s
  only : ∀ y m', b.get m = some (y, m') → b.Fits y ∧ m.content = b.encode y ++ m'.content

/-- Whatever value the bytes in front could be read as, no list in them announces a negative
    length. -/
def Built.NoNegative {α : Type} (b : Built α) (q : List Byte) : Prop :=
  ∀ v bs s, q = bs ++ s → b.Wire (fun _ => True) v bs → b.Wire (0 ≤ ·) v bs

section Exact

variable {h : Heap} {α : Type}

/-- The decoders of a type read exactly the encodings of its values, unless the bytes in front
    can be read with a negative length of a list in them. -/
theorem exact_iff (hr : HeapReachable h) (i : Nat) (b : Built α) (hb : b.Plain) :
    b.Exact (h i) ↔ b.NoNegative (h i).content := by
  have hinv := heapReachable_inv hr i
  apply Iff.intro
  · intro hexact v bs s hcon hwire
    obtain ⟨m', hget, -, hcon'⟩ := get_takes b hwire (h i) s hinv hcon
    obtain ⟨hfits, hsame⟩ := hexact.only v m' hget
    rw [hcon', hcon] at hsame
    rw [List.append_cancel_right hsame]
    exact b.wire_encode hfits
  · intro hnone
    refine ⟨?_, ?_⟩
    · intro x s hx hcon
      obtain ⟨m', hget, -, hcon'⟩ := get_takes b (b.wire_encode hx) (h i) s hinv hcon
      exact ⟨m', hget, hcon'⟩
    · intro y m' hget
      obtain ⟨bs, hwire, hcon, -⟩ := get_takesOnly b (h i) m' y hinv hget
      obtain ⟨hfits, rfl⟩ := b.encode_of_wire hb (hnone y bs m'.content hcon hwire)
      exact ⟨hfits, hcon⟩

/-- The buffer that holds a list of the two strings "R" and "", and two bytes behind it. -/
def twoStrings : Heap := fun _ => ofString [2, 0, 0, 0, 1, 0, 0, 0, 82, 0, 0, 0, 0, 7, 7]

theorem exact_iff_twoStrings : (Built.list .string).Exact (twoStrings 0) ↔
    (Built.list .string).NoNegative (twoStrings 0).content :=
  exact_iff (Reach.start fun _ => Or.inr ⟨_, by decide, rfl⟩) 0 (.list .string) trivial

/-- A buffer with the length -1. -/
def minusOne : Heap := fun _ => ofString [255, 255, 255, 255]

theorem minusOne_reachable : HeapReachable minusOne :=
  Reach.start fun _ => Or.inr ⟨[255, 255, 255, 255], by decide, rfl⟩

/-- It is taken for the length of an empty list, which is encoded as four zeros. -/
theorem list_minusOne : ¬ (Built.list .i32).Exact (minusOne 0) := by
  intro hexact
  have hwire : (Built.list .i32).Wire (fun _ => True) [] [255, 255, 255, 255] :=
    ⟨-1, trivial, by decide, [], List.Forall₂.nil, by decide⟩
  obtain ⟨m', hget, -, hcon⟩ := get_takes _ hwire (minusOne 0) []
    (heapReachable_inv minusOne_reachable 0) rfl
  have hsame := (hexact.only [] m' hget).2
  rw [hcon] at hsame
  exact absurd hsame (by decide)

end Exact

end Marshal

end VncProxy
