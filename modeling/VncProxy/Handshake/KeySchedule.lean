/-
  VncProxy.Handshake.KeySchedule

  Which bits of a key count.  The key schedule of d3des.c copies each of the low
  seven bits of the eight key bytes to some place in the register, so two keys have
  the same register exactly if they agree in these bits (`rfbDesKey_eq_iff`).
-/
import VncProxy.Handshake.D3des
import Mathlib.Data.List.GetD
import Mathlib.Tactic.IntervalCases

namespace VncProxy.D3des

-- ============================================================================
-- The bits of a word
-- ============================================================================

theorem bigbyte_getLsbD : ∀ j < 24, ∀ p < 24,
    (bigbyte.getD j 0).getLsbD p = decide (p = 23 - j) := by
  decide

/-- Bit `23 - j` of a word of `kn` is the bit that place `j` selects. -/
theorem gather_getLsbD (pcr : List Bool) (sel : List Nat) {p : Nat} (hp : p < 24) :
    (gather pcr sel).getLsbD p = pcr.getD (sel.getD (23 - p) 0) false := by
  have hloop : ∀ n ≤ 24, ((List.range n).foldl
      (fun kn j => if pcr.getD (sel.getD j 0) false then kn ||| bigbyte.getD j 0 else kn)
        (0 : Word)).getLsbD p = (decide (23 - p < n) && pcr.getD (sel.getD (23 - p) 0) false) := by
    intro n hn
    induction n with
    | zero => simp
    | succ n ih =>
      have hbyte := bigbyte_getLsbD n hn p hp
      have ih := ih (Nat.le_of_succ_le hn)
      rw [List.range_succ, List.foldl_append, List.foldl_cons, List.foldl_nil]
      by_cases hplace : 23 - p = n
      · -- the place that decides bit `p`
        have hdec : decide (p = 23 - n) = true := by
          rw [decide_eq_true_eq]
          omega
        rw [hplace] at ih ⊢
        split
        · rename_i hset
          rw [BitVec.getLsbD_or, hbyte, hdec, hset]
          simp
        · rename_i hclear
          rw [ih, Bool.eq_false_of_not_eq_true hclear]
          simp
      · have hdec : decide (p = 23 - n) = false := by
          rw [decide_eq_false_iff_not]
          omega
        have hlt : decide (23 - p < n + 1) = decide (23 - p < n) := by
          apply decide_eq_decide.mpr
          omega
        rw [hlt]
        split
        · rw [BitVec.getLsbD_or, hbyte, hdec, ih, Bool.or_false]
        · exact ih
  rw [gather, hloop 24 (Nat.le_refl _)]
  have hlt : 23 - p < 24 := by omega
  simp [hlt]

/-- Where bit `p` of the first raw word of a pair goes in the cooked pair. -/
def cooked0 (p : Nat) (knl : List Word) : Bool :=
  if p < 6 then (knl.getD 1 0).getLsbD (p + 16)
  else if p < 12 then (knl.getD 0 0).getLsbD (p + 10)
  else if p < 18 then (knl.getD 1 0).getLsbD (p + 12)
  else (knl.getD 0 0).getLsbD (p + 6)

/-- Where bit `p` of the second one goes. -/
def cooked1 (p : Nat) (knl : List Word) : Bool :=
  if p < 6 then (knl.getD 1 0).getLsbD p
  else if p < 12 then (knl.getD 0 0).getLsbD (p - 6)
  else if p < 18 then (knl.getD 1 0).getLsbD (p - 4)
  else (knl.getD 0 0).getLsbD (p - 10)

theorem cook_getLsbD (raw0 raw1 : Word) {p : Nat} (hp : p < 24) :
    cooked0 p (cook raw0 raw1) = raw0.getLsbD p ∧
      cooked1 p (cook raw0 raw1) = raw1.getLsbD p := by
  unfold cooked0 cooked1 cook
  interval_cases p <;> simp

-- ============================================================================
-- The bits of a register
-- ============================================================================

/-- The key bit in place `j` of round `i`. -/
def rotated (i j : Nat) : Nat :=
  let l := j + totrot.getD i 0
  if j < 28 then if l < 28 then l else l - 28
  else if l < 56 then l else l - 28

theorem pcr_getD (pc1m : List Bool) (i : Nat) {j : Nat} (hj : j < 56) :
    (pcr pc1m i).getD j false = pc1m.getD (rotated i j) false := by
  unfold pcr rotated
  rw [List.getD_eq_getElem?_getD, List.getElem?_map, List.getElem?_range hj]
  dsimp only [Option.map_some, Option.getD_some]
  split <;> split <;> rfl

/-- The two cooked words of round `i`. -/
def roundKey (pc1m : List Bool) (i : Nat) : List Word :=
  cook (gather (pcr pc1m i) pc2) (gather (pcr pc1m i) (pc2.drop 24))

theorem cookey_flatMap (f g : Nat → Word) (is : List Nat) :
    cookey (is.flatMap fun i => [f i, g i]) = is.flatMap fun i => cook (f i) (g i) := by
  induction is with
  | nil => rfl
  | cons i is ih =>
    rw [List.flatMap_cons, List.flatMap_cons, ← ih]
    rfl

theorem rfbDesKey_eq (key : List Byte) :
    rfbDesKey key .EN0 = (List.range 16).flatMap (roundKey (pc1m key)) := by
  unfold rfbDesKey roundKey
  exact cookey_flatMap _ _ _

theorem length_roundKey (m : List Bool) (i : Nat) : (roundKey m i).length = 2 := by
  simp only [roundKey, cook, List.length_cons, List.length_nil]

/-- Lists that are put together from pieces of the same length. -/
theorem flatMap_pieces {f g : Nat → List Word} (hlen : ∀ i, (f i).length = (g i).length)
    {is : List Nat} (h : is.flatMap f = is.flatMap g) : ∀ i ∈ is, f i = g i := by
  induction is with
  | nil =>
    intro i hi
    cases hi
  | cons i is ih =>
    rw [List.flatMap_cons, List.flatMap_cons] at h
    obtain ⟨hhead, htail⟩ := List.append_inj h (hlen i)
    intro j hj
    rcases List.mem_cons.mp hj with rfl | hj
    · exact hhead
    · exact ih htail j hj

/-- A key bit that round `i` selects at place `j` can be read off the register. -/
theorem roundKey_inj {m m' : List Bool} {i : Nat} (h : roundKey m i = roundKey m' i) :
    ∀ j < 48, m.getD (rotated i (pc2.getD j 0)) false =
      m'.getD (rotated i (pc2.getD j 0)) false := by
  have hpc2 : ∀ j < 48, pc2.getD j 0 < 56 := by decide
  have hdrop : ∀ j < 24, (pc2.drop 24).getD j 0 = pc2.getD (24 + j) 0 := by decide
  have hbits : ∀ p < 24, (pcr m i).getD (pc2.getD (23 - p) 0) false =
        (pcr m' i).getD (pc2.getD (23 - p) 0) false ∧
      (pcr m i).getD ((pc2.drop 24).getD (23 - p) 0) false =
        (pcr m' i).getD ((pc2.drop 24).getD (23 - p) 0) false := by
    intro p hp
    obtain ⟨h0, h1⟩ := cook_getLsbD (gather (pcr m i) pc2) (gather (pcr m i) (pc2.drop 24)) hp
    obtain ⟨h0', h1'⟩ :=
      cook_getLsbD (gather (pcr m' i) pc2) (gather (pcr m' i) (pc2.drop 24)) hp
    rw [roundKey, roundKey] at h
    rw [h, h0', gather_getLsbD _ _ hp, gather_getLsbD _ _ hp] at h0
    rw [h, h1', gather_getLsbD _ _ hp, gather_getLsbD _ _ hp] at h1
    exact ⟨h0.symm, h1.symm⟩
  intro j hj
  rw [← pcr_getD m i (hpc2 j hj), ← pcr_getD m' i (hpc2 j hj)]
  by_cases hlow : j < 24
  · have hplace : 23 - (23 - j) = j := by omega
    have hbit := (hbits (23 - j) (by omega)).1
    rwa [hplace] at hbit
  · have hplace : 23 - (47 - j) = j - 24 := by omega
    have hbit := (hbits (47 - j) (by omega)).2
    rw [hplace, hdrop (j - 24) (by omega)] at hbit
    have hj' : 24 + (j - 24) = j := by omega
    rwa [hj'] at hbit

/-- Every one of the 56 bits is selected in some round. -/
theorem selected : ∀ q < 56, ∃ i < 16, ∃ j < 48, rotated i (pc2.getD j 0) = q := by
  decide +kernel

-- ============================================================================
-- The bits of a key
-- ============================================================================

/-- Bit `b` of byte `k` of a key. -/
def keyBit (key : List Byte) (k b : Nat) : Bool := key.getD k 0 &&& bytebit.getD b 0 != 0

theorem pc1m_getD (key : List Byte) {q : Nat} (hq : q < 56) : (pc1m key).getD q false =
    keyBit key (pc1.getD q 0 >>> 3) (pc1.getD q 0 &&& 0o7) := by
  have hlen : q < pc1.length := hq
  rw [pc1m, List.getD_eq_getElem?_getD, List.getElem?_map, List.getElem?_eq_getElem hlen,
    List.getD_eq_getElem _ _ hlen]
  rfl

/-- `pc1` goes through the low seven bits of the eight bytes. -/
theorem pc1_covers : ∀ k < 8, ∀ b < 7, ∃ q < 56,
    pc1.getD q 0 >>> 3 = k ∧ pc1.getD q 0 &&& 0o7 = b := by
  decide +kernel

theorem pc1_low : ∀ q < 56, pc1.getD q 0 >>> 3 < 8 ∧ pc1.getD q 0 &&& 0o7 < 7 := by
  decide +kernel

/-- A byte is known up to its most significant bit by the other seven. -/
theorem low_bits (b : Byte) : b &&& 0x7f = ((List.range 7).map fun n =>
    if b &&& bytebit.getD n 0 != 0 then bytebit.getD n 0 else 0).foldl (· ||| ·) 0 := by
  have hall : ∀ n < 256, UInt8.ofNat n &&& 0x7f = ((List.range 7).map fun i =>
      if UInt8.ofNat n &&& bytebit.getD i 0 != 0 then bytebit.getD i 0 else 0).foldl (· ||| ·) 0 := by
    decide +kernel
  have hb := hall b.toNat b.toNat_lt
  rwa [UInt8.ofNat_toNat] at hb

theorem bit_of_low : ∀ b < 7, ∀ n < 256,
    (UInt8.ofNat n &&& bytebit.getD b 0) = (UInt8.ofNat n &&& 0x7f) &&& bytebit.getD b 0 := by
  decide +kernel

theorem keyBit_eq_iff {key key' : List Byte} : (∀ k < 8, ∀ b < 7, keyBit key k b = keyBit key' k b) ↔
    ∀ k < 8, key.getD k 0 &&& 0x7f = key'.getD k 0 &&& 0x7f := by
  constructor
  · intro h k hk
    rw [low_bits, low_bits (key'.getD k 0)]
    congr 1
    apply List.map_congr_left
    intro b hb
    have hbit := h k hk b (List.mem_range.mp hb)
    unfold keyBit at hbit
    rw [hbit]
  · intro h k hk b hb
    have hlow : ∀ c : Byte, c &&& bytebit.getD b 0 = (c &&& 0x7f) &&& bytebit.getD b 0 := by
      intro c
      have hc := bit_of_low b hb c.toNat c.toNat_lt
      rwa [UInt8.ofNat_toNat] at hc
    unfold keyBit
    rw [hlow, hlow (key'.getD k 0), h k hk]

/-- Two keys have the same register exactly if their first eight bytes agree but for
    the most significant bit of each. -/
theorem rfbDesKey_eq_iff {key key' : List Byte} : rfbDesKey key .EN0 = rfbDesKey key' .EN0 ↔
    ∀ k < 8, key.getD k 0 &&& 0x7f = key'.getD k 0 &&& 0x7f := by
  rw [← keyBit_eq_iff, rfbDesKey_eq, rfbDesKey_eq]
  constructor
  · intro h k hk b hb
    obtain ⟨q, hq, rfl, rfl⟩ := pc1_covers k hk b hb
    obtain ⟨i, hi, j, hj, rfl⟩ := selected q hq
    have hlen : ∀ n, (roundKey (pc1m key) n).length = (roundKey (pc1m key') n).length := by
      intro n
      rw [length_roundKey, length_roundKey]
    have hround := flatMap_pieces hlen h i (List.mem_range.mpr hi)
    have hbit := roundKey_inj hround j hj
    rwa [pc1m_getD key hq, pc1m_getD key' hq] at hbit
  · intro h
    have hsame : pc1m key = pc1m key' := by
      apply List.ext_getElem (by simp [pc1m])
      intro q hq hq'
      have hlow := pc1_low q hq
      have hbit := h _ hlow.1 _ hlow.2
      rwa [← pc1m_getD key hq, ← pc1m_getD key' hq, List.getD_eq_getElem _ _ hq,
        List.getD_eq_getElem _ _ hq'] at hbit
    rw [hsame]

end VncProxy.D3des
