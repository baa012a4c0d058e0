import CaosSeminars.Faulty.Machine

/-!
# How `faulty.c` aborts

The stores of the two threads are still in their buffers when the other thread loads.  Every
iteration can end like this, however many have gone well before.

* `calm`, `crossed` --- the actions of an iteration that goes well, and of one that does not.
* `exists_calm`, `exists_crossed` --- either can be run from the top of the loop, whatever the
  variables hold there.
* `faulty_aborts` --- for every `n` there is a run of `n` iterations that go well and one more that
  aborts, by induction on `n`.
-/

namespace CaosSeminars
namespace Faulty

/-- Between two iterations. -/
def between (m : Loc → ℤ) (i : BitVec 64) : State :=
  ⟨.clearing .x, fun _ => .notCreated, ⟨m, fun _ => []⟩, none, i, none⟩

theorem eq_between {s : State} {i : BitVec 64} (hmain : s.main = .clearing .x)
    (hthreads : s.threads = fun _ => .notCreated) (hbuffer : ∀ w, s.memory.buffer w = [])
    (hmutex : s.mutex = none) (hiteration : s.iteration = i) (houtput : s.output = none) :
    s = between s.memory.mem i := by
  obtain ⟨main, threads, ⟨mem, buffer⟩, mutex, iteration, output⟩ := s
  obtain rfl : buffer = fun _ => [] := funext hbuffer
  subst hmain hthreads hmutex hiteration houtput
  rfl

/-- What `main` does before the threads move. -/
def opening : List Act :=
  [.main, .main, .main, .main, .commit .main, .commit .main, .commit .main, .commit .main, .main,
    .main]

/-- The threads one after the other. -/
def calm : List Act :=
  opening ++
  [.thread false, .thread false, .thread false, .commit (.thread false), .commit (.thread false),
    .thread true, .thread true, .thread true, .commit (.thread true), .commit (.thread true),
    .main, .main, .main, .main]

/-- Both loads come before both stores reach the memory. -/
def crossed : List Act :=
  opening ++
  [.thread false, .thread true, .thread false, .thread true, .thread false, .thread true,
    .commit (.thread false), .commit (.thread false), .commit (.thread true),
    .commit (.thread true), .main, .main, .main, .main]

/-- An iteration that goes well. -/
theorem exists_calm (m : Loc → ℤ) (i : BitVec 64) :
    ∃ m', Trace (State.step .faulty) anyOrder (between m i) calm (between m' (i + 1)) := by
  obtain ⟨s, hrun, hs⟩ : ∃ s, evalTrace (State.step .faulty) anyOrder (between m i) calm = some s ∧
      s = between s.memory.mem (i + 1) := by
    refine ⟨_, rfl, eq_between rfl rfl (fun w => ?_) rfl rfl rfl⟩
    rcases w with _ | _ | _ <;> rfl
  exact ⟨s.memory.mem, hs ▸ Trace.of_eval hrun⟩

/-- An iteration that does not. -/
theorem exists_crossed (m : Loc → ℤ) (i : BitVec 64) :
    ∃ s, Trace (State.step .faulty) anyOrder (between m i) crossed s ∧ s.main = .aborted ∧
      s.output = some i := by
  obtain ⟨s, hrun, hmain, houtput⟩ : ∃ s,
      evalTrace (State.step .faulty) anyOrder (between m i) crossed = some s ∧
        s.main = .aborted ∧ s.output = some i := ⟨_, rfl, rfl, rfl⟩
  exact ⟨s, Trace.of_eval hrun, hmain, houtput⟩

/-- **`faulty.c` may abort in any iteration**, the first one or a later one. -/
theorem faulty_aborts (n : ℕ) :
    ∃ as s, Trace (State.step .faulty) anyOrder State.init as s ∧ s.main = .aborted ∧
      s.output = some (BitVec.ofNat 64 n) := by
  have hcalm : ∃ as m, Trace (State.step .faulty) anyOrder State.init as
      (between m (BitVec.ofNat 64 n)) := by
    induction n with
    | zero => exact ⟨[], _, .nil _⟩
    | succ n ih =>
      obtain ⟨as, m, hrun⟩ := ih
      obtain ⟨m', hnext⟩ := exists_calm m (BitVec.ofNat 64 n)
      rw [BitVec.ofNat_add]
      exact ⟨_, m', hrun.append hnext⟩
  obtain ⟨as, m, hrun⟩ := hcalm
  obtain ⟨s, hlast, hmain, houtput⟩ := exists_crossed m (BitVec.ofNat 64 n)
  exact ⟨_, s, hrun.append hlast, hmain, houtput⟩

end Faulty
end CaosSeminars
