/-
  VncProxy.Proxy.Setup

  What is waiting while a pair is being set up.  `PollThread::add` registers an
  endpoint before `ready` enables it, and the handlers of an endpoint that is not
  enabled return at once: an event that the poll thread takes up in between is
  gone, and under edge triggering it does not come again.  Nothing is lost in the
  runs in which a handler finds its endpoint enabled.
-/
import VncProxy.Proxy.Cover
import VncProxy.Proxy.Play

namespace VncProxy.Proxy

open Lib (Sock Flags Covered)
open Polling

-- ============================================================================
-- The property
-- ============================================================================

/-- What is waiting at an endpoint is pending, or in a batch, or on its way to a
    handler. -/
structure Announced (s : Config × Net) (e : Ep) : Prop where
  bytes : (s.2 (s.1.world.fd e)).rx ≠ [] →
    (s.2 (s.1.world.fd e)).pending.input = true ∨ InFlight Flags.input (s.1.code .poll) e
  room : (s.1.world.ep e).buf.content ≠ [] → 0 < (s.2 (s.1.world.fd e)).space →
    (s.2 (s.1.world.fd e)).pending.output = true ∨ InFlight Flags.output (s.1.code .poll) e
  hangUp : (s.2 (s.1.world.fd e)).hup = true →
    (s.2 (s.1.world.fd e)).pending.error = true ∨ InFlight Flags.error (s.1.code .poll) e

/-- The kernel has the endpoint in its table. -/
def Registered (w : World) (e : Ep) : Prop :=
  ∃ r, w.kernel.table (w.fd e) = some r ∧ r.ptr = e

/-- From its registration on, nothing that is waiting at an endpoint is forgotten, and
    when `tie_fd` has returned both endpoints are registered; until the shutdown
    begins, which is what handles a hang-up. -/
def SetUp (s : Config × Net) : Prop :=
  ∀ e : Ep, e.pair < s.1.world.pairs → Standing s.1.world e →
    (Registered s.1.world e → Announced s e) ∧
      (s.1.code (.worker e.pair) = [] → Registered s.1.world e)

/-- In every run in which no event is handled before `ready`. -/
theorem setup_announced {s : Config × Net} (hrun : NetRun CoverOk s) : SetUp s := by
  obtain ⟨hcover, b, d, pj, cj, tail, hinv⟩ := coverInv_run hrun
  intro e hpair hstand
  constructor
  · rintro ⟨r, htable, rfl⟩
    obtain ⟨-, hreg, -⟩ := hinv.world.table.sound _ r htable
    obtain ⟨r', mode, -, -, -, hagree, hcov⟩ :=
      (hcover r.ptr hpair hstand).of_registered hinv hstand hreg
    apply Announced.mk
    · exact hcov.input (by simpa using hagree.input)
    · intro hleft
      exact hcov.output (by simpa using hagree.output.trans (hagree.busy hleft))
    · exact hcov.error rfl
  · intro htied
    have hb := hinv.built hpair htied
    obtain ⟨r, htable, hptr⟩ := hinv.world.table.complete e
      (registered_of_built (by omega)) (hinv.standing_open hstand).1
    exact ⟨r, htable, hptr⟩

-- ============================================================================
-- Runs
-- ============================================================================

/-- A byte waits on descriptor 3 before it is registered, and the poll thread does not
    come to it before `tie_fd` has returned. -/
def waitingPlays : List Play :=
  .arrive 3 [7] :: (tieActs [97] 3 4).map .act

def emptySockets : Net := fun _ => ⟨[], 8, false, ⟨false, false, false⟩⟩

@[irreducible] def waitingEnd : Config × Net :=
  Lib.lastState (play CoverOk) waitingPlays (Config.start, emptySockets)

theorem waitingEnd_eq :
    waitingEnd = Lib.lastState (play CoverOk) waitingPlays (Config.start, emptySockets) := by
  unfold waitingEnd
  rfl

theorem setup_announced_waiting : SetUp waitingEnd ∧ (waitingEnd.2 3).rx = [7] :=
  ⟨setup_announced (NetRun.of_plays (waitingEnd_eq ▸ Lib.runActs_eq_lastState (by decide +kernel))),
    by decide +kernel⟩

/-- The poll thread takes the event of the waiting byte up when `ep1` is registered and
    not enabled yet. -/
def discardedPlays : List Play :=
  .arrive 3 [7] :: List.map Play.act ((tieActs [97] 3 4).take 7 ++
    [.wait [(3, ⟨true, true, false, false, false⟩)]] ++
    List.replicate 4 (.exec .poll .idle) ++ (tieActs [97] 3 4).drop 7)

/-- The moves without the condition that handlers find their endpoint enabled. -/
def Unready (c : Config) (a : Act) : Prop := Mild c a ∧ Countable c a

instance (c : Config) (a : Act) : Decidable (Unready c a) :=
  inferInstanceAs (Decidable (_ ∧ _))

@[irreducible] def discardedEnd : Config × Net :=
  Lib.lastState (play Unready) discardedPlays (Config.start, emptySockets)

theorem discardedEnd_eq :
    discardedEnd = Lib.lastState (play Unready) discardedPlays (Config.start, emptySockets) := by
  unfold discardedEnd
  rfl

/-- The byte still waits when `tie_fd` has returned, and nothing is pending. -/
theorem setup_discards : ¬ ∀ s, NetRun Unready s → SetUp s := by
  intro h
  have hrun : NetRun Unready discardedEnd :=
    NetRun.of_plays (discardedEnd_eq ▸ Lib.runActs_eq_lastState (by decide +kernel))
  have hstand : Event.shutdown ⟨0, .first⟩ ∉ discardedEnd.1.world.trace := by decide +kernel
  have hrx : (discardedEnd.2 (discardedEnd.1.world.fd ⟨0, .first⟩)).rx ≠ [] := by decide +kernel
  have hpending : (discardedEnd.2 (discardedEnd.1.world.fd ⟨0, .first⟩)).pending.input = false := by
    decide +kernel
  have hpoll : discardedEnd.1.code .poll = [] := by decide +kernel
  obtain ⟨hann, hreg⟩ := h _ hrun ⟨0, .first⟩ (by decide +kernel) hstand
  rcases (hann (hreg (by decide +kernel))).bytes hrx with hp | ⟨i, hi, -⟩
  · rw [hpending] at hp
    cases hp
  · rw [hpoll] at hi
    cases hi

end VncProxy.Proxy
