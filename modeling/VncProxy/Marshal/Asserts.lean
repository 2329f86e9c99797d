/-
  VncProxy.Marshal.Asserts

  Runs over any number of buffers, and which of them abort.  The assertions of `Marshal`
  and `Chunk` follow from the chunk invariant, except the one in `write` that a last chunk
  with room takes at least one byte: there the source does not think of a write of no
  bytes.
-/
import VncProxy.Marshal.Transfer

namespace VncProxy
namespace Marshal

open Lib (runActs)

/-- One operation on one buffer, or a transfer between two. -/
inductive HeapOp
  | op (i : Nat) (op : Op)
  | transfer (i j n : Nat)

/-- `none` is a failed assertion. -/
def HeapOp.exec (a : HeapOp) (h : Heap) : Option Heap :=
  match a with
  | .op i o => (o.exec (h i)).map fun x => Function.update h i x.2
  | .transfer i j n => ((h i).readFromMarshal (h j) n).map fun x =>
    Function.update (Function.update h i x.2.1) j x.2.2

/-- What a caller has to observe: lengths that fit an `int`, no bookmark while bytes are
    being counted, a transfer between distinct buffers, and less than 2^31 bytes in each. -/
structure HeapOp.Proper (a : HeapOp) (h : Heap) : Prop where
  fits : ∀ i p, a = .op i (.write p) → (p.length : Int) < 2 ^ 31
  uncounted : ∀ i junk, a = .op i (.setBookmark junk) → (h i).writeCounter = 0
  distinct : ∀ i j n, a = .transfer i j n → i ≠ j
  small : ∀ h', a.exec h = some h' → ∀ i, ((h' i).content.length : Int) < 2 ^ 31

/-- A write of no bytes to a buffer whose last chunk has room. -/
def HeapOp.WritesNothing (a : HeapOp) (h : Heap) : Prop :=
  ∃ i front c, a = .op i (.write []) ∧ (h i).chunks = front ++ [c] ∧ c.writeIdx < c.size

/-- `P` holds of every operation, in the heap that it finds when its turn comes. -/
def Along (P : HeapOp → Heap → Prop) : List HeapOp → Heap → Prop
  | [], _ => True
  | a :: as, h => P a h ∧ ∀ h', a.exec h = some h' → Along P as h'

/-- Every buffer satisfies the chunk invariant and holds less than 2^31 bytes. -/
def Heap.Sound (h : Heap) : Prop := ∀ i, (h i).Inv ∧ ((h i).content.length : Int) < 2 ^ 31

section Run

variable {h h' : Heap} {a : HeapOp} {as : List HeapOp}

theorem sound_of_fresh (hfresh : ∀ i, Fresh (h i)) : h.Sound := by
  intro i
  refine ⟨fresh_inv (hfresh i), ?_⟩
  rcases hfresh i with hempty | ⟨data, hlt, hdata⟩
  · rw [hempty]
    decide
  · rw [hdata]
    simpa [content, ofString] using hlt

theorem Heap.Sound.update (hs : h.Sound) {i : Nat} {m : Marshal} (hm : m.Inv) :
    ∀ j, (Function.update h i m j).Inv := by
  intro j
  by_cases hj : j = i
  · rw [hj, Function.update_self]
    exact hm
  · rw [Function.update_of_ne hj]
    exact (hs j).1

/-- A proper operation keeps the heap sound if it comes to its end. -/
theorem HeapOp.Proper.sound (hp : a.Proper h) (hs : h.Sound) (hexec : a.exec h = some h') :
    h'.Sound := by
  have hinv : ∀ i, (h' i).Inv := by
    cases a with
    | op i o =>
      obtain ⟨⟨res, m⟩, heq, rfl⟩ := Option.map_eq_some_iff.mp hexec
      apply hs.update
      exact exec_inv (hs i).1 (fun p hop => hp.fits i p (by rw [hop])) heq
    | transfer i j n =>
      obtain ⟨⟨k, dst, src⟩, heq, rfl⟩ := Option.map_eq_some_iff.mp hexec
      obtain ⟨dst', src', heq', hd, hsrc, -, -⟩ := readFromMarshal_spec (hs i).1 (hs j).1 n
      rw [heq] at heq'
      obtain ⟨-, rfl, rfl⟩ := Prod.mk.injEq .. ▸ Option.some.inj heq'
      intro l
      by_cases hl : l = j
      · rw [hl, Function.update_self]
        exact hsrc
      · rw [Function.update_of_ne hl]
        exact hs.update hd l
  exact fun i => ⟨hinv i, hp.small h' hexec i⟩

/-- From a sound heap a proper operation aborts exactly if it writes nothing where there
    is room. -/
theorem HeapOp.Proper.exec_isSome (hp : a.Proper h) (hs : h.Sound) :
    (a.exec h).isSome ↔ ¬ a.WritesNothing h := by
  cases a with
  | transfer i j n =>
    obtain ⟨dst', src', heq, -⟩ := readFromMarshal_spec (hs i).1 (hs j).1 n
    apply iff_of_true
    · rw [HeapOp.exec, heq]
      rfl
    · rintro ⟨i, front, c, ⟨⟩, -⟩
  | op i o =>
    obtain ⟨hinv, hlt⟩ := hs i
    have hok : o.Admissible (h i) → ((HeapOp.op i o).exec h).isSome := by
      intro hop
      obtain ⟨res, m', heq, -⟩ := exec_spec hinv hlt hop
      rw [HeapOp.exec, heq]
      rfl
    have hnothing : (∀ p, o = .write p → p ≠ []) → ¬ (HeapOp.op i o).WritesNothing h := by
      rintro hne ⟨j, front, c, heq, -⟩
      obtain ⟨-, hop⟩ := HeapOp.op.inj heq
      exact hne [] hop rfl
    cases o with
    | write p =>
      have hlen := hp.fits i p rfl
      by_cases hnil : p = []
      · subst hnil
        rcases needsChunk_spec hinv with ⟨hneed, hfull⟩ | ⟨front, c, hcs, hneed, hroom⟩
        · obtain ⟨m', heq, -⟩ := write_fresh hinv hlen hneed hfull
          apply iff_of_true
          · simp [HeapOp.exec, Op.exec, heq]
          · rintro ⟨j, front, c, heq, hcs, hlt⟩
            obtain ⟨rfl, -⟩ := HeapOp.op.inj heq
            have hwritten := hfull c (by rw [hcs]; simp)
            omega
        · apply iff_of_false
          · simp [HeapOp.exec, Op.exec, write_nil hinv hcs hneed]
          · rw [not_not]
            unfold Chunk.room at hroom
            exact ⟨i, front, c, rfl, hcs, by omega⟩
      · apply iff_of_true (hok ⟨hnil, hlen⟩)
        apply hnothing
        rintro _ ⟨⟩
        exact hnil
    | setBookmark junk =>
      exact iff_of_true (hok (hp.uncounted i junk rfl)) (hnothing (by rintro _ ⟨⟩))
    | read | peek | readFromFd | writeToFd | getWriteCounterAndReset | contentSize
    | contentSizeGt | dump =>
      exact iff_of_true (hok trivial) (hnothing (by rintro _ ⟨⟩))

theorem runActs_isSome (hs : h.Sound) (hp : Along HeapOp.Proper as h) :
    (runActs HeapOp.exec as h).isSome ↔ Along (fun a h => ¬ a.WritesNothing h) as h := by
  induction as generalizing h with
  | nil => exact iff_of_true rfl trivial
  | cons a as ih =>
    obtain ⟨ha, has⟩ := hp
    show ((a.exec h).bind (runActs HeapOp.exec as)).isSome ↔ ¬ a.WritesNothing h ∧ _
    rw [← ha.exec_isSome hs]
    cases hexec : a.exec h with
    | none => exact iff_of_false (by simp) (by simp)
    | some h' =>
      have hrest := ih (ha.sound hs hexec) (has h' hexec)
      rw [Option.bind_some, hrest]
      simp

/-- A run over new buffers goes through without a failed assertion exactly if it never
    writes nothing where there is room. -/
theorem assertions_hold_iff (hfresh : ∀ i, Fresh (h i)) (hp : Along HeapOp.Proper as h) :
    (runActs HeapOp.exec as h).isSome ↔ Along (fun a h => ¬ a.WritesNothing h) as h :=
  runActs_isSome (sound_of_fresh hfresh) hp

/-- Buffers that hold the letter `R`. -/
def letters : Heap := fun _ => ofString [82]

theorem fresh_letters (i : Nat) : Fresh (letters i) := Or.inr ⟨[82], by decide, rfl⟩

/-- Less than 2^31 bytes in every buffer. -/
def Heap.Small (h : Heap) : Prop := ∀ i, ((h i).content.length : Int) < 2 ^ 31

theorem Heap.Small.update (hs : h.Small) {i : Nat} {m : Marshal}
    (hm : (m.content.length : Int) < 2 ^ 31) : Heap.Small (Function.update h i m) := by
  intro j
  by_cases hj : j = i
  · rw [hj, Function.update_self]
    exact hm
  · rw [Function.update_of_ne hj]
    exact hs j

/-- What is known to come of an operation is all that its caller has to look at. -/
theorem along_known {a : HeapOp} {h' : Heap} (hexec : a.exec h = some h') (hs : h'.Small)
    (hproper : (∀ g, a.exec h = some g → g.Small) → a.Proper h)
    (hrest : h'.Small → Along HeapOp.Proper as h') : Along HeapOp.Proper (a :: as) h := by
  have honly : ∀ g, a.exec h = some g → h' = g :=
    fun g hg => Option.some.inj (hexec.symm.trans hg)
  refine ⟨hproper ?_, ?_⟩
  · intro g hg
    rw [← honly g hg]
    exact hs
  · intro g hg
    rw [← honly g hg]
    exact hrest hs

theorem along_op {i : Nat} {o : Op} {res : Res} {m m' : Marshal} (hs : h.Small)
    (hfits : ∀ p, o = .write p → (p.length : Int) < 2 ^ 31)
    (huncounted : ∀ junk, o = .setBookmark junk → m.writeCounter = 0)
    (hexec : o.exec m = some (res, m')) (hbuf : h i = m) (hm : (m'.content.length : Int) < 2 ^ 31)
    (hrest : Heap.Small (Function.update h i m') →
      Along HeapOp.Proper as (Function.update h i m')) :
    Along HeapOp.Proper (.op i o :: as) h := by
  have hheap : (HeapOp.op i o).exec h = some (Function.update h i m') := by
    rw [HeapOp.exec, hbuf, hexec]
    rfl
  refine along_known hheap (hs.update hm) (fun hsmall => ⟨?_, ?_, ?_, hsmall⟩) hrest
  · rintro j p ⟨⟩
    exact hfits p rfl
  · rintro j junk ⟨⟩
    rw [hbuf]
    exact huncounted junk rfl
  · rintro j k n ⟨⟩

theorem along_transfer {i j n k : Nat} {m m' dst src : Marshal} (hs : h.Small) (hij : i ≠ j)
    (hexec : m.readFromMarshal m' n = some (k, dst, src)) (hi : h i = m) (hj : h j = m')
    (hd : (dst.content.length : Int) < 2 ^ 31) (hsrc : (src.content.length : Int) < 2 ^ 31)
    (hrest : Heap.Small (Function.update (Function.update h i dst) j src) →
      Along HeapOp.Proper as (Function.update (Function.update h i dst) j src)) :
    Along HeapOp.Proper (.transfer i j n :: as) h := by
  have hheap : (HeapOp.transfer i j n).exec h =
      some (Function.update (Function.update h i dst) j src) := by
    rw [HeapOp.exec, hi, hj, hexec]
    rfl
  refine along_known hheap ((hs.update hd).update hsrc) (fun hsmall => ⟨?_, ?_, ?_, hsmall⟩) hrest
  · rintro l p ⟨⟩
  · rintro l junk ⟨⟩
  · rintro _ _ _ ⟨⟩
    exact hij

/-- The letter in the first of the buffers, and nothing in the others. -/
def oneLetter : Heap := Function.update (fun _ => empty) 0 (ofString [82])

/-- Nothing is written to an empty buffer; a byte is reserved behind the letter, two are
    written behind that, one is read, and what is left goes to a third buffer. -/
def mixedOps : List HeapOp :=
  [.op 1 (.write []), .op 0 (.setBookmark [0]), .op 0 (.write [70, 66]), .op 0 (.read 1),
    .transfer 2 0 9, .op 2 .contentSize]

theorem proper_mixedOps : Along HeapOp.Proper mixedOps oneLetter := by
  have hsmall : oneLetter.Small := by
    apply Heap.Small.update
    · intro i
      exact Int.pow_pos (by decide)
    · decide
  have hread : Marshal.read ⟨[⟨8192, 0, [82, 0, 70, 66]⟩], 2⟩ 1 =
      some ([82], ⟨[⟨8192, 1, [82, 0, 70, 66]⟩], 2⟩) := by
    simp [read, headCheck, readLoop, dropRead, Chunk.fullyRead, Chunk.read, Chunk.consume,
      Chunk.content, Chunk.Checks, Chunk.writeIdx, Lib.verify]
  have hmove : empty.readFromMarshal ⟨[⟨8192, 1, [82, 0, 70, 66]⟩], 2⟩ 9 =
      some (3, ⟨[⟨8192, 1, [82, 0, 70, 66]⟩], 0⟩, ⟨[], 2⟩) := by
    simp [readFromMarshal, empty, headCheck, readFromMarshalLoop, needsChunk, Chunk.contentSize,
      Chunk.fullyRead, Chunk.Checks, Chunk.writeIdx, Lib.verify]
  have hmarked : (Op.setBookmark [0]).exec (ofString [82]) =
      some (.unit, ⟨[⟨8192, 0, [82, 0]⟩], 0⟩) := rfl
  have hwritten : (Op.write [70, 66]).exec ⟨[⟨8192, 0, [82, 0]⟩], 0⟩ =
      some (.count 2, ⟨[⟨8192, 0, [82, 0, 70, 66]⟩], 2⟩) := rfl
  have hsize : (((⟨[⟨8192, 1, [82, 0, 70, 66]⟩], 0⟩ : Marshal).content.length : Nat) : Int) <
      2 ^ 31 := by decide
  have hnothing : (Op.write []).exec empty = some (.count 0, ⟨[⟨8192, 0, []⟩], 0⟩) := rfl
  have hleft : (Op.read 1).exec ⟨[⟨8192, 0, [82, 0, 70, 66]⟩], 2⟩ =
      some (.bytes [82], ⟨[⟨8192, 1, [82, 0, 70, 66]⟩], 2⟩) := by
    simp [Op.exec, hread]
  apply along_op hsmall (by rintro _ ⟨⟩; decide) (by rintro _ ⟨⟩) hnothing rfl (by decide)
  intro hsmall
  apply along_op hsmall (by rintro _ ⟨⟩) (by rintro _ ⟨⟩; rfl) hmarked rfl (by decide)
  intro hsmall
  apply along_op hsmall (by rintro _ ⟨⟩; decide) (by rintro _ ⟨⟩) hwritten rfl (by decide)
  intro hsmall
  apply along_op hsmall (by rintro _ ⟨⟩) (by rintro _ ⟨⟩) hleft rfl (by decide)
  intro hsmall
  apply along_transfer hsmall (by decide) hmove rfl rfl (by decide) (by decide)
  intro hsmall
  apply along_op hsmall (by rintro _ ⟨⟩) (by rintro _ ⟨⟩) rfl rfl hsize
  intro hsmall
  trivial

theorem assertions_hold_iff_mixed :
    (runActs HeapOp.exec mixedOps oneLetter).isSome ↔
      Along (fun a h => ¬ a.WritesNothing h) mixedOps oneLetter := by
  apply assertions_hold_iff ?_ proper_mixedOps
  intro i
  by_cases hi : i = 0
  · exact Or.inr ⟨[82], by decide, by simp [oneLetter, hi]⟩
  · exact Or.inl (by simp [oneLetter, hi])

/-- No bytes are written behind the letter. -/
theorem write_nothing_aborts : Along HeapOp.Proper [.op 0 (.write [])] letters ∧
    runActs HeapOp.exec [.op 0 (.write [])] letters = none := by
  have hnone : (HeapOp.op 0 (.write [])).exec letters = none := by
    have hroom : needsChunk (letters 0).chunks = some false := rfl
    have hwrite : (letters 0).write [] = none :=
      write_nil (fresh_inv (fresh_letters 0)) (List.nil_append _).symm hroom
    simp [HeapOp.exec, Op.exec, hwrite]
  refine ⟨⟨⟨?_, ?_, ?_, ?_⟩, ?_⟩, ?_⟩
  · rintro i p ⟨⟩
    decide
  · rintro i junk ⟨⟩
  · rintro i j n ⟨⟩
  · intro h' hh'
    rw [hnone] at hh'
    cases hh'
  · intro h' _
    trivial
  · rw [runActs, hnone, Option.bind_none]

end Run

end Marshal

end VncProxy
