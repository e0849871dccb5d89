import LogicNet.Proofs.Simulation.Cutting

/-!
# Views in lockstep

Two views that are fed the same words give the same outputs at every step, if one step is enough to see it:
whenever fed and held values are together, the values that are read are together too, and what is read
includes all that memory reads. Then the values held next are together again, and so on for any number of
steps (`Lockstep.run`).

Nothing is asked about the two views beyond this. How the condition was established, by simulation or by a
solver, plays no part here.
-/

namespace LogicNet

/-- A view that can be compiled with these pins and outputs. -/
structure View.Runnable (v : View) (pins outputs : List GateId) : Prop where
  coherent : v.Coherent
  logical : v.Logical
  acyclic : v.Acyclic
  pinnable : v.Pinnable pins
  inside : ∀ id ∈ outputs, id ∈ v.part.gates

/-- Gate `g` of the view holds a value and is not pinned. -/
structure View.Remembers (v : View) (pins : List GateId) (id : GateId) (g : Gate) : Prop where
  inside : id ∈ v.part.gates
  found : v.net.gate? id = some g
  trigger : g.isTrigger = true
  unpinned : id ∉ pins

/-- Values that agree on what is fed and held agree on what is read, and memory reads nothing else. -/
structure Lockstep (left right : View) (pins state outs reads : List (GateId × GateId)) : Prop where
  forces : ∀ vl vr, left.Valuation vl → right.Valuation vr → Together pins vl vr → Together state vl vr →
    Together reads vl vr
  outputs : ∀ x ∈ outs, x ∈ reads
  memory : ∀ x ∈ state, ∃ gl gr, left.Remembers (pins.map Prod.fst) x.1 gl ∧
    right.Remembers (pins.map Prod.snd) x.2 gr ∧ gl.fn = gr.fn ∧ gl.inputs.length = gr.inputs.length ∧
    ∀ y ∈ gl.inputs.zip gr.inputs, (y.1.driver, y.2.driver) ∈ reads

namespace Lockstep

variable {left right : View} {pins state outs reads : List (GateId × GateId)}

/-! ## One step -/

theorem pins_together {words : List Word} {before before' after after' : GateId → Word}
    (settledLeft : Settled left (pins.map Prod.fst) words before after)
    (settledRight : Settled right (pins.map Prod.snd) words before' after') (width : words.length = pins.length) :
    Together pins after after' := by
  intro x mem
  obtain ⟨i, lt, rfl⟩ := List.mem_iff_getElem.mp mem
  have inside : i < words.length := width ▸ lt
  have word : words[i]? = some words[i] := List.getElem?_eq_getElem inside
  rw [settledLeft.fed i _ _ (by simp [lt]) word, settledRight.fed i _ _ (by simp [lt]) word]

theorem state_together (h : Lockstep left right pins state outs reads) {words : List Word}
    {before before' after after' : GateId → Word}
    (settledLeft : Settled left (pins.map Prod.fst) words before after)
    (settledRight : Settled right (pins.map Prod.snd) words before' after') (held : Together state before before') :
    Together state after after' := by
  intro x mem
  obtain ⟨gl, gr, rl, rr, _⟩ := h.memory x mem
  rw [settledLeft.held x.1 rl.inside rl.unpinned gl rl.found rl.trigger,
    settledRight.held x.2 rr.inside rr.unpinned gr rr.found rr.trigger]
  exact held x mem

/-- A step keeps what is held together, and what is read comes together: lane by lane, the environments
are valuations. -/
theorem step_together (h : Lockstep left right pins state outs reads) {words : List Word}
    {before before' after after' : GateId → Word}
    (settledLeft : Settled left (pins.map Prod.fst) words before after)
    (settledRight : Settled right (pins.map Prod.snd) words before' after') (width : words.length = pins.length)
    (held : Together state before before') : Together state after after' ∧ Together reads after after' := by
  have fed := pins_together settledLeft settledRight width
  have kept := h.state_together settledLeft settledRight held
  refine ⟨kept, fun x read => word_ext fun p lt => ?_⟩
  refine h.forces _ _ (settledLeft.valued p lt) (settledRight.valued p lt) ?_ ?_ x read
  · exact fun y pin => congrArg (lane · p) (fed y pin)
  · exact fun y mem => congrArg (lane · p) (kept y mem)

theorem map_eq_map_of_zip {α β γ : Type} {f : α → γ} {g : β → γ} {xs : List α} {ys : List β}
    (length : xs.length = ys.length) (each : ∀ x ∈ xs.zip ys, f x.1 = g x.2) : xs.map f = ys.map g := by
  induction xs generalizing ys with
  | nil =>
    cases ys with
    | nil => rfl
    | cons y ys => cases length
  | cons x xs ih =>
    cases ys with
    | nil => cases length
    | cons y ys =>
      rw [List.zip_cons_cons, List.forall_mem_cons] at each
      rw [List.map_cons, List.map_cons, each.1, ih (Nat.succ.inj length) each.2]

/-- Memory that reads and holds the same computes the same. -/
theorem words_together (h : Lockstep left right pins state outs reads) (coherentLeft : left.Coherent)
    (coherentRight : right.Coherent) {env env' : GateId → Word} (held : Together state env env')
    (read : Together reads env env') {x : GateId × GateId} (mem : x ∈ state) {gl gr : Gate}
    (foundLeft : left.net.gate? x.1 = some gl) (foundRight : right.net.gate? x.2 = some gr) :
    gl.word env = gr.word env' := by
  obtain ⟨gl', gr', rl, rr, fn, arity, inputs⟩ := h.memory x mem
  obtain rfl : gl = gl' := Option.some.inj (foundLeft.symm.trans rl.found)
  obtain rfl : gr = gr' := Option.some.inj (foundRight.symm.trans rr.found)
  have operands : gl.inputs.map (fun s => env s.driver) = gr.inputs.map fun s => env' s.driver :=
    map_eq_map_of_zip arity fun y pair => read _ (inputs y pair)
  unfold Gate.word
  rw [coherentLeft.wired.keyed foundLeft, coherentRight.wired.keyed foundRight, held x mem, operands, fn]

/-! ## Runs -/

section Runs

variable {leftOrder rightOrder : List GateId}
  (h : Lockstep left right pins state outs reads)
  (runLeft : left.Runnable (pins.map Prod.fst) (outs.map Prod.fst))
  (runRight : right.Runnable (pins.map Prod.snd) (outs.map Prod.snd))
  (orderedLeft : left.orderedGates = .ok leftOrder) (orderedRight : right.orderedGates = .ok rightOrder)

/-- The environment of values of a compiled view. -/
abbrev envOf (v : View) (pins order : List GateId) (values : Array Word) : GateId → Word :=
  readSlots (v.valued pins order) values

/-- Values of the two programs, with as many slots as these have, and together on what is held. -/
structure Paired (left right : View) (pins state : List (GateId × GateId)) (leftOrder rightOrder : List GateId)
    (l r : Array Word) : Prop where
  sizeLeft : l.size = (left.valued (pins.map Prod.fst) leftOrder).length
  sizeRight : r.size = (right.valued (pins.map Prod.snd) rightOrder).length
  held : Together state (envOf left (pins.map Prod.fst) leftOrder l) (envOf right (pins.map Prod.snd) rightOrder r)

/-- Before the first step both hold zero everywhere. -/
theorem paired_zeros {leftOutputs rightOutputs : List GateId} : Paired left right pins state leftOrder rightOrder
    (left.program (pins.map Prod.fst) leftOutputs leftOrder).zeros
    (right.program (pins.map Prod.snd) rightOutputs rightOrder).zeros where
  sizeLeft := Array.size_replicate ..
  sizeRight := Array.size_replicate ..
  held x _ := (readSlots_replicate _ _ x.1).trans (readSlots_replicate _ _ x.2).symm

include h runLeft runRight orderedLeft orderedRight

theorem step_paired {l r : Array Word} (paired : Paired left right pins state leftOrder rightOrder l r)
    {words : List Word} (width : words.length = pins.length) :
    ∃ out l' r', (left.program (pins.map Prod.fst) (outs.map Prod.fst) leftOrder).step l words = .ok (out, l') ∧
      (right.program (pins.map Prod.snd) (outs.map Prod.snd) rightOrder).step r words = .ok (out, r') ∧
      Paired left right pins state leftOrder rightOrder l' r' ∧
      Together reads (envOf left (pins.map Prod.fst) leftOrder l') (envOf right (pins.map Prod.snd) rightOrder r') := by
  obtain ⟨l', sizeLeft, stepLeft, steppedLeft⟩ := @View.Coherent.step_spec left _ (outs.map Prod.fst) leftOrder
    runLeft.coherent runLeft.acyclic runLeft.pinnable.1 orderedLeft l paired.sizeLeft words (by simpa using width)
  obtain ⟨r', sizeRight, stepRight, steppedRight⟩ := @View.Coherent.step_spec right _ (outs.map Prod.snd) rightOrder
    runRight.coherent runRight.acyclic runRight.pinnable.1 orderedRight r paired.sizeRight words (by simpa using width)
  have settledLeft := runLeft.pinnable.settled runLeft.coherent runLeft.logical steppedLeft
  have settledRight := runRight.pinnable.settled runRight.coherent runRight.logical steppedRight
  obtain ⟨held, read⟩ := h.step_together settledLeft settledRight width paired.held
  refine ⟨_, l', r', stepLeft, ?_, ⟨sizeLeft, sizeRight, held⟩, read⟩
  rw [stepRight, List.map_map, List.map_map]
  refine congrArg (fun out => Except.ok (out, r')) (List.map_congr_left fun x mem => ?_)
  exact (read x (h.outputs x mem)).symm

theorem advance_paired {l r : Array Word} (paired : Paired left right pins state leftOrder rightOrder l r)
    (read : Together reads (envOf left (pins.map Prod.fst) leftOrder l) (envOf right (pins.map Prod.snd) rightOrder r)) :
    Paired left right pins state leftOrder rightOrder
      ((left.program (pins.map Prod.fst) (outs.map Prod.fst) leftOrder).advance l)
      ((right.program (pins.map Prod.snd) (outs.map Prod.snd) rightOrder).advance r) := by
  obtain ⟨sizeLeft, nextLeft⟩ := @View.Coherent.advance_spec left _ (outs.map Prod.fst) leftOrder
    runLeft.coherent orderedLeft l paired.sizeLeft
  obtain ⟨sizeRight, nextRight⟩ := @View.Coherent.advance_spec right _ (outs.map Prod.snd) rightOrder
    runRight.coherent orderedRight r paired.sizeRight
  refine ⟨sizeLeft, sizeRight, fun x mem => ?_⟩
  obtain ⟨gl, gr, rl, rr, _⟩ := h.memory x mem
  unfold envOf
  rw [nextLeft x.1 rl.inside rl.unpinned gl rl.found rl.trigger,
    nextRight x.2 rr.inside rr.unpinned gr rr.found rr.trigger]
  exact h.words_together runLeft.coherent runRight.coherent paired.held read mem rl.found rr.found

theorem resume_together {l r : Array Word} (paired : Paired left right pins state leftOrder rightOrder l r)
    (read : Together reads (envOf left (pins.map Prod.fst) leftOrder l) (envOf right (pins.map Prod.snd) rightOrder r))
    {steps : List (List Word)} (widths : ∀ words ∈ steps, words.length = pins.length) :
    ∃ rows l' r', (left.program (pins.map Prod.fst) (outs.map Prod.fst) leftOrder).resume l steps = .ok (rows, l') ∧
      (right.program (pins.map Prod.snd) (outs.map Prod.snd) rightOrder).resume r steps = .ok (rows, r') := by
  induction steps generalizing l r with
  | nil => exact ⟨[], l, r, rfl, rfl⟩
  | cons words steps ih =>
    rw [List.forall_mem_cons] at widths
    have advanced := h.advance_paired runLeft runRight orderedLeft orderedRight paired read
    obtain ⟨out, l', r', stepLeft, stepRight, paired', read'⟩ :=
      h.step_paired runLeft runRight orderedLeft orderedRight advanced widths.1
    obtain ⟨rows, lastLeft, lastRight, restLeft, restRight⟩ := ih paired' read' widths.2
    refine ⟨out :: rows, lastLeft, lastRight, ?_, ?_⟩
    · rw [Simulator.resume, stepLeft, Result.ok_bind]
      simp only [restLeft, Result.ok_bind]
      rfl
    · rw [Simulator.resume, stepRight, Result.ok_bind]
      simp only [restRight, Result.ok_bind]
      rfl

omit orderedLeft orderedRight

/-- Views in lockstep can be compiled, and give the same outputs at every step of every run. -/
theorem run : ∃ leftSim rightSim, left.compile (pins.map Prod.fst) (outs.map Prod.fst) = .ok leftSim ∧
    right.compile (pins.map Prod.snd) (outs.map Prod.snd) = .ok rightSim ∧
    ∀ steps : List (List Word), (∀ words ∈ steps, words.length = pins.length) →
      ∃ rows, leftSim.run steps = .ok rows ∧ rightSim.run steps = .ok rows := by
  obtain ⟨leftOrder, orderedLeft, compiledLeft⟩ := @View.Coherent.exists_compile left (pins.map Prod.fst) _
    runLeft.coherent runLeft.logical runLeft.acyclic runLeft.inside
  obtain ⟨rightOrder, orderedRight, compiledRight⟩ := @View.Coherent.exists_compile right (pins.map Prod.snd) _
    runRight.coherent runRight.logical runRight.acyclic runRight.inside
  refine ⟨_, _, compiledLeft, compiledRight, fun steps widths => ?_⟩
  cases steps with
  | nil => exact ⟨[], rfl, rfl⟩
  | cons words steps =>
    rw [List.forall_mem_cons] at widths
    obtain ⟨out, l, r, stepLeft, stepRight, paired, read⟩ :=
      h.step_paired runLeft runRight orderedLeft orderedRight paired_zeros widths.1
    obtain ⟨rows, _, _, restLeft, restRight⟩ :=
      h.resume_together runLeft runRight orderedLeft orderedRight paired read widths.2
    refine ⟨out :: rows, ?_, ?_⟩
    · rw [Simulator.run_cons, stepLeft, Result.ok_bind]
      simp only [restLeft, Result.ok_bind]
      rfl
    · rw [Simulator.run_cons, stepRight, Result.ok_bind]
      simp only [restRight, Result.ok_bind]
      rfl

end Runs

end Lockstep

end LogicNet
