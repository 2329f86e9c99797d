/-
  VncProxy.Proxy.Filed

  A pair is in the registry under the forward key of its `tie_fd` call and under no
  other, in every run.
-/
import VncProxy.Proxy.Born
import VncProxy.Proxy.Milestones

namespace VncProxy.Proxy

open Lib (Threads)

/-- The entry that a section puts into the registry. -/
def Instr.files : Instr → Option (Key × Ep)
  | .tie e _ key => some (key, e)
  | _ => none

/-- Pair `p` has no entry under another key than `key`; and it has this key, or its
    worker is about to give it. -/
structure Filed (c : Config) (p : Nat) (key : Key) : Prop where
  code : ∀ t, ∀ i ∈ c.code t, ∀ k, i.files = some (k, ⟨p, .first⟩) → k = key
  leaders : ∀ k, (k, ⟨p, .first⟩) ∈ c.world.leaders → k = key
  keyed : c.world.key ⟨p, .first⟩ = key ∨
    ∃ i ∈ c.code (.worker p), i.files = some (key, ⟨p, .first⟩)

section Exec

variable {w w' : World} {o : Oracle} {i : Instr} {pre : List Instr}

theorem World.tie_key (w : World) (e other : Ep) (key : Key) (x : Ep) :
    (w.tie e other key).key x = if x = e then key else w.key x := by
  unfold World.key World.tie
  by_cases hx' : x = other
  · subst hx'
    by_cases hx : x = e
    · subst hx
      simp
    · simp [hx]
  · by_cases hx : x = e
    · subst hx
      simp [hx']
    · simp [hx, hx']

theorem World.tie_entries (w : World) (e other : Ep) (key : Key) :
    (w.tie e other key).leaders = insertLeader key e w.leaders := by
  have hkey := World.tie_key w e other key e
  rw [if_pos rfl] at hkey
  show insertLeader ((w.tie e other key).key e) e w.leaders = _
  rw [hkey]

theorem updateMode_files {e : Ep} {newMode : Polling.Mode} (h : w.updateMode e newMode = some w') :
    w'.key = w.key ∧ w'.leaders = w.leaders := by
  rcases World.updateMode_cases h with ⟨rfl, -⟩ | ⟨oldMode, rfl, -⟩
  · exact ⟨rfl, rfl⟩
  · exact ⟨rfl, rfl⟩

theorem handleRead_files {e : Ep} {offers : List (Option (List Byte))} (hw : Flow w)
    (h : w.handleRead e offers = some w') : w'.key = w.key ∧ w'.leaders = w.leaders := by
  cases hen : (w.ep e).enabled with
  | false =>
    rw [World.handleRead_disabled hen] at h
    obtain rfl := Option.some.inj h
    exact ⟨rfl, rfl⟩
  | true =>
    rcases hw.peer e with hpeer | hpeer
    · simp [World.handleRead, hen, hpeer] at h
    obtain ⟨calls, buf, -, heq⟩ := World.handleRead_eq hen hpeer (hw.bufs e.other) offers
    have hkey := (World.transferred_fields w e e.other calls buf).2.1
    rw [heq] at h
    split at h
    · obtain ⟨hkey', hleaders⟩ := updateMode_files h
      exact ⟨hkey'.trans hkey, hleaders⟩
    · obtain rfl := Option.some.inj h
      exact ⟨hkey, rfl⟩

theorem handleWrite_files {e : Ep} {accepts : List Int} (hw : Flow w)
    (h : w.handleWrite e accepts = some w') : w'.key = w.key ∧ w'.leaders = w.leaders := by
  cases hen : (w.ep e).enabled with
  | false =>
    rw [World.handleWrite_disabled hen] at h
    obtain rfl := Option.some.inj h
    exact ⟨rfl, rfl⟩
  | true =>
    obtain ⟨calls, buf, -, heq⟩ := World.handleWrite_eq hen (hw.bufs e) accepts
    rw [heq] at h
    obtain ⟨hkey, hleaders⟩ := updateMode_files h
    exact ⟨hkey.trans (World.transferred_fields w e e calls buf).2.1, hleaders⟩

/-- Only `tie` makes an entry, and gives an endpoint its key. -/
theorem exec_files (hw : Flow w) (hexec : exec o w i = some (w', pre)) :
    (∀ j ∈ pre, j.files = none) ∧ ((∃ e other key, i = .tie e other key ∧ w' = w.tie e other key) ∨
      (i.files = none ∧ w'.key = w.key ∧ ∀ x ∈ w'.leaders, x ∈ w.leaders)) := by
  cases i with
  | tie e other key =>
    obtain ⟨rfl, rfl⟩ := Prod.mk.inj (Option.some.inj hexec)
    exact ⟨by simp, Or.inl ⟨e, other, key, rfl, rfl⟩⟩
  | refCopy e =>
    obtain ⟨rfl, rfl⟩ := Prod.mk.inj (Option.some.inj hexec)
    exact ⟨by simp, Or.inr ⟨rfl, World.refCopy_key w e, fun _ => id⟩⟩
  | ready e =>
    obtain ⟨rfl, rfl⟩ := Prod.mk.inj (Option.some.inj hexec)
    exact ⟨by simp, Or.inr ⟨rfl, (World.ready_fields w e).2.1, fun _ => id⟩⟩
  | add e =>
    obtain ⟨-, -, rfl, rfl⟩ := exec_add.mp hexec
    exact ⟨by simp, Or.inr ⟨rfl, rfl, fun _ => id⟩⟩
  | epollAdd e =>
    obtain ⟨-, -, rfl, rfl⟩ := exec_epollAdd.mp hexec
    exact ⟨by simp, Or.inr ⟨rfl, rfl, fun _ => id⟩⟩
  | shutdown e =>
    obtain ⟨rfl, rfl⟩ := Prod.mk.inj (Option.some.inj hexec)
    exact ⟨by simp [Instr.files], Or.inr ⟨rfl, rfl, fun _ => id⟩⟩
  | close | pend | unregister =>
    obtain ⟨rfl, rfl⟩ := Prod.mk.inj (Option.some.inj hexec)
    exact ⟨by simp, Or.inr ⟨rfl, rfl, fun _ => id⟩⟩
  | remove e =>
    rcases exec_remove.mp hexec with ⟨-, -, rfl, rfl⟩ | ⟨-, -, rfl, rfl⟩ <;>
      exact ⟨by simp [Instr.files], Or.inr ⟨rfl, rfl, fun _ => id⟩⟩
  | leaderPart e =>
    obtain ⟨rfl, ⟨-, rfl⟩ | ⟨-, peer, -, rfl⟩⟩ := exec_leaderPart.mp hexec <;>
      exact ⟨by simp [Instr.files], Or.inr ⟨rfl, rfl, fun _ => id⟩⟩
  | eraseLeader e =>
    obtain ⟨rfl, rfl⟩ := Prod.mk.inj (Option.some.inj hexec)
    exact ⟨by simp, Or.inr ⟨rfl, rfl, fun _ hx => List.mem_of_mem_erase hx⟩⟩
  | logShutdown e =>
    obtain ⟨-, rfl, rfl⟩ := exec_logShutdown.mp hexec
    exact ⟨by simp, Or.inr ⟨rfl, rfl, fun _ => id⟩⟩
  | release e | drop e =>
    obtain ⟨-, rfl, rfl⟩ := exec_release (o := o) |>.mp hexec
    exact ⟨by simp, Or.inr ⟨rfl, World.released_key w e, fun _ => id⟩⟩
  | collect valid =>
    obtain ⟨rfl, rfl⟩ := Prod.mk.inj (Option.some.inj hexec)
    refine ⟨?_, Or.inr ⟨rfl, rfl, fun _ => id⟩⟩
    intro j hj
    obtain ⟨x, -, rfl⟩ := List.mem_map.mp hj
    rfl
  | event e ev =>
    obtain ⟨rfl, rfl⟩ := Prod.mk.inj (Option.some.inj hexec)
    refine ⟨?_, Or.inr ⟨rfl, rfl, fun _ => id⟩⟩
    intro j hj
    rcases mem_dispatch hj with ⟨rfl, -⟩ | ⟨rfl, -⟩ | ⟨rfl, -⟩ <;> rfl
  | handleRead e =>
    obtain ⟨hr, rfl⟩ := exec_handleRead.mp hexec
    obtain ⟨hkey, hleaders⟩ := handleRead_files hw hr
    exact ⟨by simp, Or.inr ⟨rfl, hkey, fun _ hx => hleaders ▸ hx⟩⟩
  | handleWrite e =>
    obtain ⟨hr, rfl⟩ := exec_handleWrite.mp hexec
    obtain ⟨hkey, hleaders⟩ := handleWrite_files hw hr
    exact ⟨by simp, Or.inr ⟨rfl, hkey, fun _ hx => hleaders ▸ hx⟩⟩
  | handleError e =>
    obtain ⟨rfl, ⟨-, rfl⟩ | ⟨-, -, rfl⟩ | ⟨-, -, peer, -, rfl⟩⟩ := exec_handleError.mp hexec <;>
      exact ⟨by simp [Instr.files], Or.inr ⟨rfl, rfl, fun _ => id⟩⟩
  | swapPending =>
    obtain ⟨rfl, removePoll, -, rfl⟩ := exec_swapPending hexec
    refine ⟨?_, Or.inr ⟨rfl, rfl, fun _ => id⟩⟩
    intro j hj
    obtain ⟨x, -, hjx⟩ := List.mem_flatMap.mp hj
    rcases List.mem_pair.mp hjx with rfl | rfl <;> rfl

end Exec

section System

variable {c c' : Config} {p : Nat} {key : Key}

/-- Another thread than the worker of the pair is given code that does not file it. -/
theorem Filed.load (h : Filed c p key) {t : Tid} {is : List Instr} (ht : t ≠ .worker p)
    (his : ∀ i ∈ is, ∀ k, i.files ≠ some (k, ⟨p, .first⟩)) : Filed (c.load t is) p key := by
  refine ⟨?_, h.leaders, ?_⟩
  · intro u i hi k hk
    rcases Threads.mem_load hi with hi | hi
    · exact absurd hk (his i hi k)
    · exact h.code u i hi k hk
  · rw [Threads.load_code_of_ne _ ht.symm]
    exact h.keyed

theorem Filed.exec {t : Tid} {o : Oracle} (h : Filed c p key) (hw : Flow c.world)
    (hs : step (.exec t o) c = some c') : Filed c' p key := by
  obtain ⟨i, rest, -, hcode, ⟨-, rfl⟩ | ⟨w, pre, hexec, rfl⟩⟩ := Threads.run_cases hs
  · exact ⟨h.code, h.leaders, h.keyed⟩
  obtain ⟨hpre, hcases⟩ := exec_files hw hexec
  have hthis := h.code t
  rw [hcode] at hthis
  have hmem : ∀ u, ∀ j ∈ (c.load t (pre ++ rest)).code u, ∀ k,
      j.files = some (k, ⟨p, .first⟩) → k = key := by
    intro u j hj k hk
    rcases Threads.mem_load hj with hj | hj
    · rcases List.mem_append.mp hj with hj | hj
      · rw [hpre j hj] at hk
        cases hk
      · exact hthis j (List.mem_cons_of_mem _ hj) k hk
    · exact h.code u j hj k hk
  -- the section that is about to file the pair is still to come, unless it was this one
  have hstill : ∀ j ∈ c.code (.worker p), j.files = some (key, ⟨p, .first⟩) →
      i.files ≠ some (key, ⟨p, .first⟩) → j ∈ (c.load t (pre ++ rest)).code (.worker p) := by
    intro j hj hfiles hne
    by_cases ht : Tid.worker p = t
    · rw [ht, hcode] at hj
      rw [ht, Threads.load_code_self]
      rcases List.mem_cons.mp hj with rfl | hj
      · exact absurd hfiles hne
      · exact List.mem_append_right _ hj
    · rwa [Threads.load_code_of_ne _ ht]
  rcases hcases with ⟨e, other, k, rfl, rfl⟩ | ⟨hfiles, hkey, hleaders⟩
  · refine ⟨hmem, ?_, ?_⟩
    · intro k' hk'
      change (k', _) ∈ (c.world.tie e other k).leaders at hk'
      rw [World.tie_entries, World.insertLeader, List.mem_orderedInsert] at hk'
      rcases hk' with heq | hk'
      · obtain ⟨rfl, rfl⟩ := Prod.mk.inj heq
        exact hthis _ List.mem_cons_self k' rfl
      · exact h.leaders k' hk'
    · show (c.world.tie e other k).key _ = key ∨ _
      rw [World.tie_key]
      by_cases he : (⟨p, .first⟩ : Ep) = e
      · left
        rw [if_pos he]
        exact hthis _ List.mem_cons_self k (by rw [he]; rfl)
      · rw [if_neg he]
        rcases h.keyed with hkey | ⟨j, hj, hfiles⟩
        · exact Or.inl hkey
        · refine Or.inr ⟨j, hstill j hj hfiles ?_, hfiles⟩
          intro heq
          exact he (Prod.mk.inj (Option.some.inj heq)).2.symm
  · refine ⟨hmem, fun k hk => h.leaders k (hleaders _ hk), ?_⟩
    rcases h.keyed with hkeyed | ⟨j, hj, hfilesj⟩
    · left
      show w.key _ = key
      rw [hkey, hkeyed]
    · refine Or.inr ⟨j, hstill j hj hfilesj ?_, hfilesj⟩
      rw [hfiles]
      intro h
      cases h

theorem Filed.of_eq (h : Filed c p key) (hcode : c'.code = c.code)
    (hleaders : c'.world.leaders = c.world.leaders)
    (hkey : c'.world.key ⟨p, .first⟩ = c.world.key ⟨p, .first⟩) : Filed c' p key := by
  refine ⟨?_, ?_, ?_⟩
  · rw [hcode]
    exact h.code
  · rw [hleaders]
    exact h.leaders
  · rw [hcode, hkey]
    exact h.keyed

theorem newPair_key {w : World} {fd1 fd2 q : Nat} (hq : q < w.pairs) (side : Side) :
    (w.newPair fd1 fd2).key ⟨q, side⟩ = w.key ⟨q, side⟩ := by
  unfold World.key
  rw [World.newPair_ep]
  have hne : q ≠ w.pairs := Nat.ne_of_lt hq
  simp [hne]

/-- No pair is forgotten. -/
theorem step_pairs {a : Act} (hw : Flow c.world) (hs : step a c = some c') :
    c.world.pairs ≤ c'.world.pairs := by
  cases a with
  | exec t o =>
    obtain ⟨i, rest, -, -, ⟨-, rfl⟩ | ⟨w, pre, hexec, rfl⟩⟩ := Threads.run_cases hs
    · exact Nat.le_refl _
    · exact Nat.le_of_eq (exec_frame hw hexec).pairs.symm
  | wait batch =>
    simp only [step] at hs
    split at hs
    · obtain ⟨is, -, rfl⟩ := Option.map_eq_some_iff.mp hs
      exact Nat.le_refl _
    · cases hs
  | tieFd k fd1 fd2 =>
    simp only [step] at hs
    split at hs
    · obtain rfl := Option.some.inj hs
      exact Nat.le_succ _
    · cases hs
  | cleanup | grab | giveBack =>
    simp only [step] at hs
    split at hs
    · obtain rfl := Option.some.inj hs
      exact Nat.le_refl _
    · cases hs

/-- The pair keeps its entry, whatever happens. -/
theorem Filed.step {a : Act} (h : Filed c p key) (hp : p < c.world.pairs) (hw : Flow c.world)
    (hs : step a c = some c') : Filed c' p key := by
  cases a with
  | exec t o => exact h.exec hw hs
  | wait batch =>
    simp only [Proxy.step] at hs
    split at hs
    · obtain ⟨is, his, rfl⟩ := Option.map_eq_some_iff.mp hs
      apply h.load (by simp)
      intro i hi k hk
      rcases List.mem_append.mp hi with hi | hi
      · obtain ⟨entry, -, r, -, rfl⟩ := mem_entries his hi
        cases hk
      · rw [List.mem_singleton.mp hi] at hk
        cases hk
    · cases hs
  | tieFd k fd1 fd2 =>
    simp only [Proxy.step] at hs
    split at hs
    · obtain rfl := Option.some.inj hs
      have hload : Filed (c.load (.worker c.world.pairs) (tieFd c.world.pairs k)) p key := by
        apply h.load (by simpa using Nat.ne_of_gt hp)
        intro i hi k' hk'
        simp only [tieFd, List.mem_cons, List.not_mem_nil, or_false] at hi
        rcases hi with rfl | rfl | rfl | rfl | rfl | rfl | rfl | rfl | rfl <;> cases hk'
        exact Nat.lt_irrefl _ hp
      exact hload.of_eq rfl rfl (newPair_key hp .first)
    · cases hs
  | cleanup valid =>
    simp only [Proxy.step] at hs
    split at hs
    · obtain rfl := Option.some.inj hs
      apply h.load (by simp)
      simp [Instr.files]
    · cases hs
  | grab fd =>
    simp only [Proxy.step] at hs
    split at hs
    · obtain rfl := Option.some.inj hs
      exact h.of_eq rfl rfl rfl
    · cases hs
  | giveBack fd =>
    simp only [Proxy.step] at hs
    split at hs
    · obtain rfl := Option.some.inj hs
      exact h.of_eq rfl rfl rfl
    · cases hs

/-- A new pair is filed under the key of its `tie_fd` call. -/
theorem filed_tieFd {fd1 fd2 : Nat} (h : Born c) (hs : step (.tieFd key fd1 fd2) c = some c') :
    c.world.pairs < c'.world.pairs ∧ Filed c' c.world.pairs key := by
  simp only [step] at hs
  split at hs
  · obtain rfl := Option.some.inj hs
    refine ⟨Nat.lt_succ_self _, ?_, ?_, Or.inr ⟨.tie ⟨c.world.pairs, .first⟩ ⟨c.world.pairs, .second⟩ key, ?_, rfl⟩⟩
    · intro t i hi k hk
      rcases Threads.mem_load hi with hi | hi
      · simp only [tieFd, List.mem_cons, List.not_mem_nil, or_false] at hi
        rcases hi with rfl | rfl | rfl | rfl | rfl | rfl | rfl | rfl | rfl <;> cases hk
        rfl
      · have habout : i.about = some ⟨c.world.pairs, .first⟩ := by
          cases i <;> cases hk
          rfl
        exact absurd (h.code t i hi _ habout) (Nat.lt_irrefl _)
    · intro k hk
      exact absurd (h.world.leaders _ hk) (Nat.lt_irrefl _)
    · show _ ∈ (c.load _ _).code _
      rw [Threads.load_code_self]
      exact List.mem_cons_self
  · cases hs

end System

end VncProxy.Proxy
