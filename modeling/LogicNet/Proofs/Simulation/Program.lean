import LogicNet.Proofs.Simulation.Lanes

/-!
# Compiled programs

A compiled view runs over slots. Read back through the slots of the gates, its values are an
ENVIRONMENT, a word for each gate, and each part of a step is a change of the environment: `feed`
writes the pins, `settle` writes the logic gates in order, `advance` writes the memory all at once.

Because the order is topological, what is written gate by gate solves the equations of all gates at
the same time (`settleEnv_eq`). So the environment after a step is a valuation of the view in every
lane, which is all that later modules know about a program (`View.Coherent.step_spec`).
-/

namespace LogicNet

/-! ## Environments -/

/-- The word in the slot of a gate. -/
def readSlots (valued : List GateId) (values : Array Word) (id : GateId) : Word :=
  values.getD (valued.idxOf id) 0

theorem readSlots_set {valued : List GateId} {values : Array Word} (size : values.size = valued.length)
    {id : GateId} (mem : id ∈ valued) (w : Word) :
    readSlots valued (values.setIfInBounds (valued.idxOf id) w) =
      Function.update (readSlots valued values) id w := by
  funext x
  have lt : valued.idxOf id < values.size := by
    rw [size]
    exact List.idxOf_lt_length_iff.mpr mem
  by_cases same : x = id
  · subst same
    simp [readSlots, lt]
  · have other : valued.idxOf id ≠ valued.idxOf x := by
      intro slot
      exact same ((List.idxOf_inj mem).mp slot).symm
    simp [readSlots, same, other]

theorem readSlots_replicate (valued : List GateId) (n : Nat) (id : GateId) :
    readSlots valued (Array.replicate n 0) id = 0 := by
  rw [readSlots, Array.getD_eq_getD_getElem?, Array.getElem?_replicate]
  split <;> rfl

/-- The word a gate computes. -/
def Gate.word (g : Gate) (env : GateId → Word) : Word :=
  g.fn.evalWord (env g.id) (g.inputs.map fun s => env s.driver)

/-- Evaluate gates one after the other. -/
def settleEnv (gs : List Gate) (env : GateId → Word) : GateId → Word :=
  gs.foldl (fun env g => Function.update env g.id (g.word env)) env

theorem settleEnv_of_not_mem {gs : List Gate} {env : GateId → Word} {id : GateId}
    (away : id ∉ gs.map Gate.id) : settleEnv gs env id = env id := by
  induction gs generalizing env with
  | nil => rfl
  | cons g gs ih =>
    rw [List.map_cons, List.mem_cons, not_or] at away
    rw [settleEnv, List.foldl_cons, ← settleEnv, ih away.2, Function.update_of_ne away.1]

/-- Evaluated in an order in which no gate reads itself or a later one, gates solve their equations
all at once. -/
theorem settleEnv_eq {gs : List Gate} (nodup : (gs.map Gate.id).Nodup)
    (ordered : gs.Pairwise fun a b => ∀ s ∈ a.inputs, s.driver ≠ b.id)
    (irrefl : ∀ g ∈ gs, ∀ s ∈ g.inputs, s.driver ≠ g.id) {env : GateId → Word} {g : Gate} (mem : g ∈ gs) :
    settleEnv gs env g.id = g.fn.evalWord (env g.id) (g.inputs.map fun s => settleEnv gs env s.driver) := by
  induction gs generalizing env with
  | nil => cases mem
  | cons first gs ih =>
    rw [List.map_cons, List.nodup_cons] at nodup
    rw [List.pairwise_cons] at ordered
    rw [List.forall_mem_cons] at irrefl
    rw [settleEnv, List.foldl_cons, ← settleEnv]
    rcases List.mem_cons.mp mem with rfl | later
    · rw [settleEnv_of_not_mem nodup.1, Function.update_self, Gate.word]
      congr 1
      refine List.map_congr_left fun s read => ?_
      have unread : s.driver ∉ gs.map Gate.id := by
        intro mem
        obtain ⟨b, hb, same⟩ := List.mem_map.mp mem
        exact ordered.1 b hb s read same.symm
      rw [settleEnv_of_not_mem unread, Function.update_of_ne (irrefl.1 s read)]
    · have other : g.id ≠ first.id := by
        intro same
        exact nodup.1 (List.mem_map.mpr ⟨g, later, same⟩)
      rw [ih nodup.2 ordered.2 irrefl.2 later, Function.update_of_ne other]

/-- Write words one after the other. -/
def writeEnv (words : List (GateId × Word)) (env : GateId → Word) : GateId → Word :=
  words.foldl (fun env x => Function.update env x.1 x.2) env

theorem writeEnv_of_not_mem {words : List (GateId × Word)} {env : GateId → Word} {id : GateId}
    (away : id ∉ words.map Prod.fst) : writeEnv words env id = env id := by
  induction words generalizing env with
  | nil => rfl
  | cons x words ih =>
    rw [List.map_cons, List.mem_cons, not_or] at away
    rw [writeEnv, List.foldl_cons, ← writeEnv, ih away.2, Function.update_of_ne away.1]

theorem writeEnv_of_mem {words : List (GateId × Word)} (nodup : (words.map Prod.fst).Nodup)
    {env : GateId → Word} {id : GateId} {w : Word} (mem : (id, w) ∈ words) : writeEnv words env id = w := by
  induction words generalizing env with
  | nil => cases mem
  | cons x words ih =>
    rw [List.map_cons, List.nodup_cons] at nodup
    rw [writeEnv, List.foldl_cons, ← writeEnv]
    rcases List.mem_cons.mp mem with rfl | later
    · rw [writeEnv_of_not_mem nodup.1, Function.update_self]
    · exact ih nodup.2 later

theorem size_foldl_set (words : List (Nat × Word)) (values : Array Word) :
    (words.foldl (fun values (slot, w) => values.setIfInBounds slot w) values).size = values.size := by
  induction words generalizing values with
  | nil => rfl
  | cons x words ih => rw [List.foldl_cons, ih, Array.size_setIfInBounds]

theorem readSlots_foldl_set {valued : List GateId} {words : List (GateId × Word)}
    (known : ∀ x ∈ words, x.1 ∈ valued) {values : Array Word} (size : values.size = valued.length) :
    readSlots valued ((words.map fun x => (valued.idxOf x.1, x.2)).foldl
      (fun values (slot, w) => values.setIfInBounds slot w) values) =
        writeEnv words (readSlots valued values) := by
  induction words generalizing values with
  | nil => rfl
  | cons x words ih =>
    rw [List.forall_mem_cons] at known
    rw [List.map_cons, List.foldl_cons, ih known.2 (by simpa using size), readSlots_set size known.1,
      writeEnv, writeEnv, List.foldl_cons]

/-! ## Programs -/

/-- The instruction of a gate over the slots of some gates. -/
def Gate.instruction (valued : List GateId) (g : Gate) : Instruction :=
  ⟨g.fn, valued.idxOf g.id, g.inputs.map fun s => valued.idxOf s.driver⟩

theorem Gate.eval_instruction (valued : List GateId) (g : Gate) (values : Array Word) :
    (g.instruction valued).eval values = g.word (readSlots valued values) := by
  simp only [instruction, Instruction.eval, word, List.map_map]
  rfl

namespace View

/-- The gates that get a slot: the pins, the gates of the view, and what the evaluated ones read. -/
def valued (v : View) (pins order : List GateId) : List GateId :=
  (pins ++ order ++ (v.evaluated pins order).flatMap fun g => g.inputs.map (·.driver)).eraseDups

/-- The program over these slots. -/
def program (v : View) (pins outputs order : List GateId) : Simulator :=
  { slots := (v.valued pins order).length
    logic := ((v.evaluated pins order).filter fun g => !g.isTrigger).map (Gate.instruction (v.valued pins order))
    memory := ((v.evaluated pins order).filter fun g => g.isTrigger).map (Gate.instruction (v.valued pins order))
    inputs := pins.map (v.valued pins order).idxOf
    outputs := outputs.map (v.valued pins order).idxOf }

/-- Compiling succeeds exactly if the gates can be ordered, none of the evaluated ones is
uninterpreted, and all outputs have a slot. -/
theorem compile_eq_ok {v : View} {pins outputs : List GateId} {sim : Simulator} :
    v.compile pins outputs = .ok sim ↔ ∃ order, v.orderedGates = .ok order ∧
      (∀ g ∈ v.evaluated pins order, g.fn.isUninterpreted = false) ∧
      (∀ id ∈ outputs, id ∈ v.valued pins order) ∧ sim = v.program pins outputs order := by
  unfold compile
  rw [Result.bind_eq_ok]
  refine exists_congr fun order => and_congr_right fun _ => ?_
  simp only
  split
  · next g found =>
    constructor
    · intro compiled
      cases compiled
    · rintro ⟨interpreted, _⟩
      have := interpreted g (List.mem_of_find?_eq_some found)
      rw [List.find?_some found] at this
      cases this
  · next none =>
    have interpreted : ∀ g ∈ v.evaluated pins order, g.fn.isUninterpreted = false := by
      simpa using none
    split
    · next id found =>
      constructor
      · intro compiled
        cases compiled
      · rintro ⟨_, read, _⟩
        have := read id (List.mem_of_find?_eq_some found)
        have := List.find?_some found
        simp_all [valued]
    · next none =>
      have read : ∀ id ∈ outputs, id ∈ v.valued pins order := by
        intro id mem
        by_contra out
        refine List.find?_eq_none.mp none id mem ?_
        rw [Bool.not_eq_true', List.contains_eq_mem, decide_eq_false_iff_not]
        exact out
      constructor
      · intro compiled
        cases compiled
        exact ⟨interpreted, read, rfl⟩
      · rintro ⟨_, _, rfl⟩
        rfl

section Slots

variable {v : View} {pins outputs order : List GateId}

theorem mem_valued {id : GateId} : id ∈ v.valued pins order ↔ id ∈ pins ∨ id ∈ order ∨
    ∃ g ∈ v.evaluated pins order, ∃ s ∈ g.inputs, s.driver = id := by
  simp [valued]

/-- The evaluated gates are those of the order that are neither pinned nor sources. -/
theorem Coherent.mem_evaluated (h : v.Coherent) {g : Gate} :
    g ∈ v.evaluated pins order ↔
      g.id ∈ order ∧ g.id ∉ pins ∧ v.net.gate? g.id = some g ∧ g.isSource = false := by
  simp only [evaluated, List.mem_filterMap, List.mem_filter, List.contains_eq_mem, Bool.not_eq_true',
    decide_eq_false_iff_not, Option.filter_eq_some_iff]
  constructor
  · rintro ⟨id, ⟨placed, unpinned⟩, found, notSource⟩
    obtain rfl := h.wired.keyed found
    exact ⟨placed, unpinned, found, notSource⟩
  · rintro ⟨placed, unpinned, found, notSource⟩
    exact ⟨g.id, ⟨placed, unpinned⟩, found, notSource⟩

theorem Coherent.evaluated_sublist (h : v.Coherent) :
    ((v.evaluated pins order).map Gate.id).Sublist order := by
  refine List.Sublist.trans ?_ (List.filter_sublist (p := fun id => !pins.contains id))
  unfold evaluated
  generalize order.filter (fun id => !pins.contains id) = ids
  induction ids with
  | nil => exact .slnil
  | cons id ids ih =>
    rw [List.filterMap_cons]
    split
    · exact ih.cons _
    · next g found =>
      rw [List.map_cons, h.wired.keyed (Option.filter_eq_some_iff.mp found).1]
      exact ih.cons_cons _

end Slots

end View

/-! ## Steps -/

/-- Evaluating instructions in order is evaluating their gates in order. -/
theorem readSlots_settle {valued : List GateId} {gs : List Gate} (known : ∀ g ∈ gs, g.id ∈ valued)
    {values : Array Word} (size : values.size = valued.length) :
    readSlots valued ((gs.map (Gate.instruction valued)).foldl
      (fun values i => values.setIfInBounds i.out (i.eval values)) values) =
        settleEnv gs (readSlots valued values) := by
  induction gs generalizing values with
  | nil => rfl
  | cons g gs ih =>
    rw [List.forall_mem_cons] at known
    rw [List.map_cons, List.foldl_cons, ih known.2 (by simpa using size), Gate.eval_instruction]
    simp only [Gate.instruction]
    rw [readSlots_set size known.1, settleEnv, settleEnv, List.foldl_cons]

theorem size_settle (sim : Simulator) (values : Array Word) : (sim.settle values).size = values.size := by
  unfold Simulator.settle
  generalize sim.logic = instructions
  induction instructions generalizing values with
  | nil => rfl
  | cons i instructions ih => rw [List.foldl_cons, ih, Array.size_setIfInBounds]

/-- What a step does to the environment: pins are fed, memory holds, and what is left of the logic takes
the words of its functions. -/
structure Stepped (v : View) (pins : List GateId) (words : List Word) (before after : GateId → Word) :
    Prop where
  fed : ∀ (i : Nat) (id : GateId) (w : Word), pins[i]? = some id → words[i]? = some w → after id = w
  held : ∀ id ∈ v.part.gates, id ∉ pins → ∀ g, v.net.gate? id = some g → g.isTrigger = true →
    after id = before id
  computed : ∀ id ∈ v.part.gates, id ∉ pins → ∀ g, v.net.gate? id = some g → g.isSource = false →
    g.isTrigger = false → after id = g.fn.evalWord (before id) (g.inputs.map fun s => after s.driver)

/-- In every lane the values after the step are a valuation of the view. -/
structure Settled (v : View) (pins : List GateId) (words : List Word) (before after : GateId → Word) :
    Prop extends Stepped v pins words before after where
  valued : ∀ p < 64, v.Valuation fun id => lane (after id) p

namespace View

variable {v : View} {pins outputs order : List GateId}

/-- Only what is given may be pinned. -/
def Pinnable (v : View) (pins : List GateId) : Prop :=
  pins.Nodup ∧ ∀ id ∈ pins, id ∈ v.part.gates → ∀ g, v.net.gate? id = some g → g.isFree = true

/-- The logic gates stand in an order in which each reads earlier ones only. -/
theorem Coherent.logic_ordered (h : v.Coherent) (acyclic : v.Acyclic) (ordered : v.orderedGates = .ok order)
    {gs : List Gate} (logic : gs = (v.evaluated pins order).filter fun g => !g.isTrigger) :
    (gs.map Gate.id).Nodup ∧ (gs.Pairwise fun a b => ∀ s ∈ a.inputs, s.driver ≠ b.id) ∧
      ∀ g ∈ gs, ∀ s ∈ g.inputs, s.driver ≠ g.id := by
  obtain ⟨perm, topological⟩ := h.orderedGates_spec ordered
  have sublist : (gs.map Gate.id).Sublist order := by
    rw [logic]
    exact (List.filter_sublist.map Gate.id).trans h.evaluated_sublist
  have feeds : ∀ a ∈ gs, ∀ s ∈ a.inputs, Feeds v.net.gate? s.driver a.id := by
    intro a mem s read
    rw [logic, List.mem_filter, Bool.not_eq_true'] at mem
    exact ⟨a, (h.mem_evaluated.mp mem.1).2.2.1, mem.2, s, read, rfl⟩
  refine ⟨sublist.nodup (perm.nodup_iff.mpr h.covers.accounts.nodup), ?_, ?_⟩
  · refine (List.pairwise_map.mp (topological.sublist sublist)).imp_of_mem ?_
    intro a b ha _ apart s read same
    exact apart (same ▸ feeds a ha s read)
  · intro g mem s read same
    have inside : g.id ∈ v.part.gates :=
      perm.mem_iff.mp (sublist.subset (List.mem_map.mpr ⟨g, mem, rfl⟩))
    have self := feeds g mem s read
    rw [same] at self
    exact acyclic.not_feeds_self inside self

/-- The logic that is evaluated leaves out the pins, what is not in the order, sources and memory. -/
theorem Coherent.not_mem_logic (h : v.Coherent) {id : GateId}
    (why : id ∈ pins ∨ id ∉ order ∨ ∀ g, v.net.gate? id = some g → g.isSource = true ∨ g.isTrigger = true) :
    id ∉ ((v.evaluated pins order).filter fun g => !g.isTrigger).map Gate.id := by
  intro listed
  obtain ⟨g, mem, rfl⟩ := List.mem_map.mp listed
  obtain ⟨evaluated, plain⟩ := List.mem_filter.mp mem
  obtain ⟨placed, unpinned, found, notSource⟩ := h.mem_evaluated.mp evaluated
  rcases why with pinned | missing | kind
  · exact unpinned pinned
  · exact missing placed
  · rcases kind g found with source | trigger
    · rw [notSource] at source
      cases source
    · rw [trigger] at plain
      cases plain

/-- What is neither pinned nor evaluated keeps its word. -/
theorem Coherent.settleEnv_kept (h : v.Coherent) {words : List Word} {env : GateId → Word} {id : GateId}
    (unpinned : id ∉ pins)
    (why : id ∉ order ∨ ∀ g, v.net.gate? id = some g → g.isSource = true ∨ g.isTrigger = true) :
    settleEnv ((v.evaluated pins order).filter fun g => !g.isTrigger) (writeEnv (pins.zip words) env) id = env id := by
  rw [settleEnv_of_not_mem (h.not_mem_logic (.inr why)), writeEnv_of_not_mem]
  intro written
  obtain ⟨x, mem, rfl⟩ := List.mem_map.mp written
  exact unpinned (List.of_mem_zip mem).1

theorem Coherent.stepped (h : v.Coherent) (acyclic : v.Acyclic) (distinct : pins.Nodup)
    (ordered : v.orderedGates = .ok order) {words : List Word} (width : words.length = pins.length)
    (env : GateId → Word) :
    Stepped v pins words env (settleEnv ((v.evaluated pins order).filter fun g => !g.isTrigger)
      (writeEnv (pins.zip words) env)) := by
  obtain ⟨perm, _⟩ := h.orderedGates_spec ordered
  obtain ⟨nodup, reads, irrefl⟩ := @Coherent.logic_ordered v pins order h acyclic ordered _ rfl
  have keys : (pins.zip words).map Prod.fst = pins := List.map_fst_zip (Nat.le_of_eq width.symm)
  constructor
  case fed =>
    intro i id w pin word
    have mem : (id, w) ∈ pins.zip words := by
      refine List.mem_iff_getElem?.mpr ⟨i, ?_⟩
      simp [List.getElem?_zip_eq_some, pin, word]
    rw [settleEnv_of_not_mem (h.not_mem_logic (.inl (List.mem_of_getElem? pin))),
      writeEnv_of_mem (by rw [keys]; exact distinct) mem]
  case held =>
    intro id _ unpinned g found trigger
    refine h.settleEnv_kept unpinned (.inr fun g' found' => ?_)
    rw [found] at found'
    cases found'
    exact .inr trigger
  case computed =>
    intro id mem unpinned g found notSource plain
    obtain rfl := h.wired.keyed found
    have evaluated : g ∈ (v.evaluated pins order).filter fun g => !g.isTrigger :=
      List.mem_filter.mpr ⟨h.mem_evaluated.mpr ⟨perm.mem_iff.mpr mem, unpinned, found, notSource⟩, by simp [plain]⟩
    rw [settleEnv_eq nodup reads irrefl evaluated, writeEnv_of_not_mem (by rw [keys]; exact unpinned)]

/-- If only what is given is pinned, no equation of the view is cut. -/
theorem Pinnable.settled (pinnable : v.Pinnable pins) (h : v.Coherent) (logical : v.Logical) {words : List Word}
    {before after : GateId → Word} (stepped : Stepped v pins words before after) :
    Settled v pins words before after := by
  refine ⟨stepped, fun p lt id mem g found => ?_⟩
  rcases logical id mem g found with free | ⟨logic, plain⟩
  · exact .inl free
  by_cases free : g.isFree = true
  · exact .inl free
  have unpinned : id ∉ pins := fun pinned => free (pinnable.2 id pinned mem g found)
  have notSource : g.isSource = false := by
    cases source : g.isSource with
    | false => rfl
    | true => exact absurd (by simp [Shape.isFree, source]) free
  refine .inr ?_
  beta_reduce
  rw [h.wired.keyed found, stepped.computed id mem unpinned g found notSource plain, lane_evalWord _ _ _ lt,
    List.map_map, GateFn.evalBit_held (GateFn.isTriggered_of_isLogic logic) _ false]
  rfl

theorem size_zeros : (v.program pins outputs order).zeros.size = (v.valued pins order).length := Array.size_replicate

theorem readSlots_zeros : readSlots (v.valued pins order) (v.program pins outputs order).zeros = fun _ => 0 :=
  funext fun _ => readSlots_replicate ..

/-- A step takes as many words as there are pins. -/
theorem step_of_width {values : Array Word} {words : List Word} (other : words.length ≠ pins.length) :
    (v.program pins outputs order).step values words = .error (.breach .stepWidth) := by
  have wrong : words.length ≠ (v.program pins outputs order).inputs.length := by
    simpa [program] using other
  rw [Simulator.step, Simulator.feed, if_neg wrong]
  rfl

/-- A step of a compiled view writes the pins and then the logic, in order. -/
theorem Coherent.step_env (h : v.Coherent) {values : Array Word} (size : values.size = (v.valued pins order).length)
    {words : List Word} (width : words.length = pins.length) :
    ∃ after : Array Word, after.size = (v.valued pins order).length ∧
      (v.program pins outputs order).step values words =
        .ok (outputs.map (readSlots (v.valued pins order) after), after) ∧
      readSlots (v.valued pins order) after = settleEnv ((v.evaluated pins order).filter fun g => !g.isTrigger)
        (writeEnv (pins.zip words) (readSlots (v.valued pins order) values)) := by
  have zipped : (v.program pins outputs order).inputs.zip words =
      (pins.zip words).map fun x => ((v.valued pins order).idxOf x.1, x.2) := by
    simp only [program, List.zip_map_left]
    rfl
  have pinned : ∀ x ∈ pins.zip words, x.1 ∈ v.valued pins order := by
    intro x mem
    exact mem_valued.mpr (.inl (List.of_mem_zip mem).1)
  have placed : ∀ g ∈ (v.evaluated pins order).filter fun g => !g.isTrigger, g.id ∈ v.valued pins order := by
    intro g mem
    exact mem_valued.mpr (.inr (.inl (h.mem_evaluated.mp (List.mem_of_mem_filter mem)).1))
  refine ⟨(v.program pins outputs order).settle (((pins.zip words).map fun x =>
    ((v.valued pins order).idxOf x.1, x.2)).foldl (fun values (slot, w) => values.setIfInBounds slot w)
      values), ?size, ?step, ?env⟩
  case size => rw [size_settle, size_foldl_set, size]
  case step =>
    have fits : words.length = (v.program pins outputs order).inputs.length := by
      simpa [program] using width
    rw [Simulator.step, Simulator.feed, if_pos fits, zipped, Result.ok_bind]
    simp only [Simulator.read, program, List.map_map]
    rfl
  case env =>
    rw [Simulator.settle, program]
    simp only
    rw [readSlots_settle placed (by rw [size_foldl_set, size]), readSlots_foldl_set pinned size]

/-- One step of a compiled view. -/
theorem Coherent.step_spec (h : v.Coherent) (acyclic : v.Acyclic) (distinct : pins.Nodup)
    (ordered : v.orderedGates = .ok order) {values : Array Word}
    (size : values.size = (v.valued pins order).length) {words : List Word}
    (width : words.length = pins.length) :
    ∃ after : Array Word, after.size = (v.valued pins order).length ∧
      (v.program pins outputs order).step values words =
        .ok (outputs.map (readSlots (v.valued pins order) after), after) ∧
      Stepped v pins words (readSlots (v.valued pins order) values) (readSlots (v.valued pins order) after) := by
  obtain ⟨after, sizeAfter, step, env⟩ := @Coherent.step_env v pins outputs order h values size words width
  refine ⟨after, sizeAfter, step, ?_⟩
  rw [env]
  exact h.stepped acyclic distinct ordered width _

/-- Between two steps every memory gate takes the word it computes from the values of the step. -/
theorem Coherent.advance_spec (h : v.Coherent) (ordered : v.orderedGates = .ok order)
    {values : Array Word} (size : values.size = (v.valued pins order).length) :
    ((v.program pins outputs order).advance values).size = (v.valued pins order).length ∧
      ∀ id ∈ v.part.gates, id ∉ pins → ∀ g, v.net.gate? id = some g → g.isTrigger = true →
        readSlots (v.valued pins order) ((v.program pins outputs order).advance values) id =
          g.word (readSlots (v.valued pins order) values) := by
  obtain ⟨perm, _⟩ := h.orderedGates_spec ordered
  generalize memory : ((v.evaluated pins order).filter fun g => g.isTrigger) = gs
  have next : (v.program pins outputs order).memory.map (fun i => (i.out, i.eval values)) =
      (gs.map fun g => (g.id, g.word (readSlots (v.valued pins order) values))).map fun x =>
        ((v.valued pins order).idxOf x.1, x.2) := by
    rw [← memory]
    simp only [program, List.map_map]
    refine List.map_congr_left fun g _ => ?_
    simp only [Function.comp_apply, Gate.eval_instruction]
    rfl
  refine ⟨?_, ?_⟩
  · simp only [Simulator.advance]
    rw [size_foldl_set, size]
  · intro id mem unpinned g found trigger
    have placed : ∀ x ∈ gs.map fun g => (g.id, g.word (readSlots (v.valued pins order) values)),
        x.1 ∈ v.valued pins order := by
      intro x listed
      obtain ⟨g, isMemory, rfl⟩ := List.mem_map.mp listed
      rw [← memory] at isMemory
      exact mem_valued.mpr (.inr (.inl (h.mem_evaluated.mp (List.mem_of_mem_filter isMemory)).1))
    simp only [Simulator.advance]
    rw [next, readSlots_foldl_set placed size]
    have keyed := h.wired.keyed found
    refine writeEnv_of_mem ?_ (List.mem_map.mpr ⟨g, ?_, by rw [keyed]⟩)
    · rw [List.map_map, ← memory]
      exact ((List.filter_sublist.map Gate.id).trans h.evaluated_sublist).nodup
        (perm.nodup_iff.mpr h.covers.accounts.nodup)
    · rw [← memory]
      refine List.mem_filter.mpr ⟨h.mem_evaluated.mpr ?_, trigger⟩
      rw [keyed]
      refine ⟨perm.mem_iff.mpr mem, unpinned, found, ?_⟩
      -- A gate with a sampled input has an input.
      cases empty : g.inputs with
      | nil => simp [Shape.isTrigger, empty] at trigger
      | cons s rest => simp [Shape.isSource, empty]

/-- No gate with inputs is an uninterpreted cell. -/
def Interpreted (v : View) : Prop :=
  ∀ id ∈ v.part.gates, ∀ g, v.net.gate? id = some g → g.isSource = false → g.fn.isUninterpreted = false

theorem Logical.interpreted (h : v.Logical) : v.Interpreted := by
  intro id mem g found notSource
  rcases h id mem g found with free | ⟨logic, _⟩
  · rw [Shape.isFree, notSource, Bool.false_or] at free
    cases fn : g.fn <;> first | rfl | simp [fn, GateFn.isTriggered] at free
  · cases fn : g.fn <;> first | rfl | simp [fn, GateFn.isLogic] at logic

/-- A view that can be ordered can be compiled, to read its own gates and the pins. -/
theorem Coherent.compile_eq (h : v.Coherent) (interpreted : v.Interpreted) (ordered : v.orderedGates = .ok order)
    (inside : ∀ id ∈ outputs, id ∈ v.part.gates ∨ id ∈ pins) :
    v.compile pins outputs = .ok (v.program pins outputs order) := by
  obtain ⟨perm, _⟩ := h.orderedGates_spec ordered
  refine compile_eq_ok.mpr ⟨order, ordered, ?_, ?_, rfl⟩
  · intro g mem
    obtain ⟨placed, _, found, notSource⟩ := h.mem_evaluated.mp mem
    exact interpreted g.id (perm.mem_iff.mp placed) g found notSource
  · intro id mem
    rcases inside id mem with own | pinned
    · exact mem_valued.mpr (.inr (.inl (perm.mem_iff.mpr own)))
    · exact mem_valued.mpr (.inl pinned)

/-- A view of logic and memory without combinational loops can be compiled. -/
theorem Coherent.exists_compile (h : v.Coherent) (logical : v.Logical) (acyclic : v.Acyclic)
    (inside : ∀ id ∈ outputs, id ∈ v.part.gates) :
    ∃ order, v.orderedGates = .ok order ∧ v.compile pins outputs = .ok (v.program pins outputs order) := by
  obtain ⟨order, ordered⟩ := h.exists_orderedGates acyclic
  exact ⟨order, ordered, h.compile_eq logical.interpreted ordered fun id mem => .inl (inside id mem)⟩

end View

end LogicNet
