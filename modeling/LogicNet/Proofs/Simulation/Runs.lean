import LogicNet.Proofs.Simulation.Program

/-!
# Runs of one simulator

Runs leave their values to the next run. A simulation IN USE (`Simulator.Used`) is one that any runs have led to, those
that were stopped halfway among them. It has as many values as it had at first, so a reset leads it back to where it
started (`Used.reset_eq`), and as every run resets first, none can tell how many there were before it
(`Used.runOnce_eq`, `Used.run_eq`).
-/

namespace LogicNet

@[simp] theorem Simulation.size_reset (s : Simulation) : s.reset.values.size = s.values.size := Array.size_replicate

namespace Simulator

variable {sim : Simulator}

/-! ## First runs -/

@[simp] theorem start_reset : sim.start.reset = sim.start := by
  rw [Simulation.reset, start, zeros, Array.size_replicate]

theorem runOnce_eq (words : List Word) :
    sim.runOnce words = (do return (← sim.step sim.zeros words).1) := by
  rw [runOnce, Simulation.runOnce, start_reset, bind_assoc]
  rfl

theorem run_cons (words : List Word) (rest : List (List Word)) :
    sim.run (words :: rest) = (do
      let (out, values) ← sim.step sim.zeros words
      return out :: (← sim.resume values rest).1) := by
  rw [run, Simulation.run, start_reset, bind_assoc]
  refine bind_congr fun x => ?_
  rw [bind_assoc]
  rfl

/-- Of further steps too, the first row comes from a step, and the others from the rest. -/
theorem resume_cons (values : Array Word) (words : List Word) (rest : List (List Word)) :
    (do return (← sim.resume values (words :: rest)).1) = (do
      let (out, values) ← sim.step (sim.advance values) words
      return out :: (← sim.resume values rest).1) := by
  rw [resume, bind_assoc]
  refine bind_congr fun x => ?_
  rw [bind_assoc]
  rfl

/-! ## The number of values -/

theorem size_step {values after : Array Word} {words out : List Word}
    (stepped : sim.step values words = .ok (out, after)) : after.size = values.size := by
  obtain ⟨fed, feed, same⟩ := Result.bind_eq_ok.mp stepped
  cases same
  unfold Simulator.feed at feed
  split at feed
  · cases feed
    rw [size_settle, size_foldl_set]
  · cases feed

theorem size_advance (values : Array Word) : (sim.advance values).size = values.size := by
  simp only [advance]
  rw [size_foldl_set]

theorem size_resume {steps rows : List (List Word)} {values after : Array Word}
    (resumed : sim.resume values steps = .ok (rows, after)) : after.size = values.size := by
  induction steps generalizing values rows with
  | nil =>
    cases resumed
    rfl
  | cons words rest ih =>
    obtain ⟨⟨_, next⟩, stepped, resumed⟩ := Result.bind_eq_ok.mp resumed
    obtain ⟨⟨_, last⟩, resumed, same⟩ := Result.bind_eq_ok.mp resumed
    cases same
    rw [ih resumed, size_step stepped, size_advance]

/-! ## Simulators in use -/

/-- What runs of a simulator lead to. A run that is stopped halfway leaves what its steps and edges have left. -/
inductive Used (sim : Simulator) : Simulation → Prop
  | start : Used sim sim.start
  | runOnce {s s' : Simulation} {words out : List Word} (before : Used sim s) (ran : s.runOnce words = .ok (out, s')) :
    Used sim s'
  | run {s s' : Simulation} {steps rows : List (List Word)} (before : Used sim s) (ran : s.run steps = .ok (rows, s')) :
    Used sim s'
  | step {s : Simulation} {after : Array Word} {words out : List Word} (before : Used sim s)
    (stepped : s.sim.step s.values words = .ok (out, after)) : Used sim { s with values := after }
  | advance {s : Simulation} (before : Used sim s) : Used sim { s with values := s.sim.advance s.values }

namespace Used

variable {s : Simulation}

/-- Runs keep the program and the number of values. -/
theorem kept (h : sim.Used s) : s.sim = sim ∧ s.values.size = sim.slots := by
  induction h with
  | start => exact ⟨rfl, Array.size_replicate⟩
  | runOnce _ ran ih =>
    obtain ⟨⟨_, after⟩, stepped, same⟩ := Result.bind_eq_ok.mp ran
    cases same
    exact ⟨ih.1, by rw [size_step stepped, Simulation.size_reset, ih.2]⟩
  | @run s s' steps rows _ ran ih =>
    cases steps with
    | nil =>
      cases ran
      exact ⟨ih.1, by rw [Simulation.size_reset, ih.2]⟩
    | cons words rest =>
      obtain ⟨⟨_, next⟩, stepped, ran⟩ := Result.bind_eq_ok.mp ran
      obtain ⟨⟨_, last⟩, resumed, same⟩ := Result.bind_eq_ok.mp ran
      cases same
      exact ⟨ih.1, by rw [size_resume resumed, size_step stepped, Simulation.size_reset, ih.2]⟩
  | step _ stepped ih => exact ⟨ih.1, by rw [size_step stepped, ih.2]⟩
  | advance _ ih => exact ⟨ih.1, by rw [size_advance, ih.2]⟩

/-- A reset leads back to the start. -/
theorem reset_eq (h : sim.Used s) : s.reset = sim.start := by
  obtain ⟨rfl, size⟩ := h.kept
  rw [Simulation.reset, size]
  rfl

/-- A single step is that of a new simulator. -/
theorem runOnce_eq (h : sim.Used s) (words : List Word) : s.runOnce words = sim.start.runOnce words := by
  rw [Simulation.runOnce, Simulation.runOnce, start_reset, h.reset_eq, h.kept.1]
  rfl

/-- A run is that of a new simulator. -/
theorem run_eq (h : sim.Used s) (steps : List (List Word)) : s.run steps = sim.start.run steps := by
  cases steps with
  | nil => rw [Simulation.run, Simulation.run, start_reset, h.reset_eq]
  | cons words rest =>
    rw [Simulation.run, Simulation.run, start_reset, h.reset_eq, h.kept.1]
    rfl

/-- So it returns what the first one would, and the simulator stays in use. -/
theorem exists_runOnce (h : sim.Used s) {words out : List Word} (first : sim.runOnce words = .ok out) :
    ∃ s', s.runOnce words = .ok (out, s') ∧ sim.Used s' := by
  obtain ⟨⟨_, s'⟩, ran, same⟩ := Result.bind_eq_ok.mp first
  cases same
  rw [← h.runOnce_eq] at ran
  exact ⟨s', ran, h.runOnce ran⟩

end Used

end Simulator

end LogicNet
