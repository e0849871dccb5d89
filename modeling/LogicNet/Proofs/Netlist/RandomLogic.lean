import LogicNet.Proofs.Netlist.Slicing

/-!
# Random logic is sound

Random logic is drawn gate by gate. A draw gives a function and some gates of the POOL to apply it to. What is added
may be known already, or come back as an inverter, and the pool grows only when a gate was built. So the pool is at all
times the list of all gates (`Grown`), every gate reads gates before it, and no shape that is built only once is built
twice. At the end each gate that nothing reads gets an output, and the gates are cut into parts along their order.

Nothing of this depends on what is drawn: the words come from any source whatsoever. Limits on the number of draws only
cut a run off, they never change what it returns (`randomLogicWithin_mono`).

**The law** (`randomLogic_sound`): whenever random logic is returned, it is consistent, combinational and without
loops, has the gates asked for, repeats no shape, leaves nothing unread, and is divided as asked for.
-/

namespace LogicNet

open Std

section Draws

variable {σ : Type} [WordSource σ]

/-! ## Draws -/

theorem drawBelow_mono {bound tries tries' : Nat} (le : tries ≤ tries') {s : σ} {r : Nat × σ}
    (drawn : drawBelow bound tries s = some r) : drawBelow bound tries' s = some r := by
  induction tries generalizing tries' s with
  | zero => cases drawn
  | succ tries ih =>
    obtain ⟨more, rfl⟩ : ∃ more, tries' = more + 1 := ⟨tries' - 1, by omega⟩
    unfold drawBelow at drawn ⊢
    dsimp only at drawn ⊢
    split at drawn
    · next accepted =>
      rw [if_pos accepted]
      exact drawn
    · next rejected =>
      rw [if_neg rejected]
      exact ih (Nat.le_of_succ_le_succ le) drawn

theorem drawFrom_mono {α : Type} {tries tries' : Nat} (le : tries ≤ tries') {xs : List α} {n : Nat} {s : σ}
    {r : List α × σ} (drawn : drawFrom tries xs n s = some r) : drawFrom tries' xs n s = some r := by
  induction n generalizing s r with
  | zero => exact drawn
  | succ n ih =>
    obtain ⟨first, place, drawn⟩ := Option.bind_eq_some_iff.mp drawn
    obtain ⟨x, found, drawn⟩ := Option.bind_eq_some_iff.mp drawn
    obtain ⟨rest, others, drawn⟩ := Option.bind_eq_some_iff.mp drawn
    refine Option.bind_eq_some_iff.mpr ⟨first, drawBelow_mono le place, ?_⟩
    refine Option.bind_eq_some_iff.mpr ⟨x, found, ?_⟩
    exact Option.bind_eq_some_iff.mpr ⟨rest, ih others, drawn⟩

/-- What is drawn from a list is in it. -/
theorem mem_of_drawFrom {α : Type} {tries : Nat} {xs : List α} {n : Nat} {s s' : σ} {ys : List α}
    (drawn : drawFrom tries xs n s = some (ys, s')) : ∀ y ∈ ys, y ∈ xs := by
  induction n generalizing s ys with
  | zero =>
    cases drawn
    nofun
  | succ n ih =>
    obtain ⟨first, _, drawn⟩ := Option.bind_eq_some_iff.mp drawn
    obtain ⟨x, found, drawn⟩ := Option.bind_eq_some_iff.mp drawn
    obtain ⟨⟨rest, last⟩, others, drawn⟩ := Option.bind_eq_some_iff.mp drawn
    cases drawn
    exact List.forall_mem_cons.mpr ⟨List.mem_of_getElem? found, ih others⟩

namespace Netlist

theorem drawFn_mono {tries tries' : Nat} (le : tries ≤ tries') {s : σ} {r : GateFn × Nat × σ}
    (drawn : drawFn tries s = some r) : drawFn tries' s = some r := by
  obtain ⟨⟨i, s₁⟩, first, drawn⟩ := Option.bind_eq_some_iff.mp drawn
  refine Option.bind_eq_some_iff.mpr ⟨(i, s₁), drawBelow_mono le first, ?_⟩
  dsimp only at drawn ⊢
  generalize randomFns.getD i .not = fn at drawn ⊢
  cases fn with
  | not => exact drawn
  | majority => exact drawn
  | _ =>
    obtain ⟨more, second, drawn⟩ := Option.bind_eq_some_iff.mp drawn
    exact Option.bind_eq_some_iff.mpr ⟨more, drawBelow_mono le second, drawn⟩

theorem drawShape_mono {tries tries' : Nat} (le : tries ≤ tries') {pool : List GateId} {s : σ} {r : Shape × σ}
    (drawn : drawShape tries pool s = some r) : drawShape tries' pool s = some r := by
  obtain ⟨fn, first, drawn⟩ := Option.bind_eq_some_iff.mp drawn
  obtain ⟨operands, second, drawn⟩ := Option.bind_eq_some_iff.mp drawn
  refine Option.bind_eq_some_iff.mpr ⟨fn, drawFn_mono le first, ?_⟩
  exact Option.bind_eq_some_iff.mpr ⟨operands, drawFrom_mono le second, drawn⟩

/-- A shape that is drawn applies a function to gates of the pool. -/
theorem eq_of_drawShape {tries : Nat} {pool : List GateId} {s s' : σ} {shape : Shape}
    (drawn : drawShape tries pool s = some (shape, s')) :
    ∃ fn operands, shape = .nary fn operands ∧ ∀ x ∈ operands, x ∈ pool := by
  obtain ⟨⟨fn, arity, _⟩, _, drawn⟩ := Option.bind_eq_some_iff.mp drawn
  obtain ⟨⟨operands, _⟩, chosen, drawn⟩ := Option.bind_eq_some_iff.mp drawn
  cases drawn
  exact ⟨fn, operands, rfl, mem_of_drawFrom chosen⟩

theorem grow_mono {tries tries' : Nat} (more : tries ≤ tries') {count rounds rounds' : Nat} (longer : rounds ≤ rounds')
    {s : σ} {net : Netlist} {pool : List GateId} {r : Netlist × List GateId}
    (grown : grow tries count rounds s net pool = .ok r) : grow tries' count rounds' s net pool = .ok r := by
  induction rounds generalizing rounds' s net pool with
  | zero => cases grown
  | succ rounds ih =>
    obtain ⟨rest, rfl⟩ : ∃ rest, rounds' = rest + 1 := ⟨rounds' - 1, by omega⟩
    unfold grow at grown ⊢
    split at grown
    · next enough =>
      rw [if_pos enough]
      exact grown
    · next few =>
      rw [if_neg few]
      obtain ⟨shape, drawn, grown⟩ := Result.bind_eq_ok.mp grown
      obtain ⟨added, addition, grown⟩ := Result.bind_eq_ok.mp grown
      refine Result.bind_eq_ok.mpr ⟨shape, ?_, Result.bind_eq_ok.mpr ⟨added, addition, ?_⟩⟩
      · exact Result.getOrBreach_eq_ok.mpr (drawShape_mono more (Result.getOrBreach_eq_ok.mp drawn))
      · exact ih (Nat.le_of_succ_le_succ longer) grown

/-- LIMITS CHANGE NOTHING. What is returned within some limits is returned within all wider ones. -/
theorem randomLogicWithin_mono {tries tries' rounds rounds' : Nat} (more : tries ≤ tries') (longer : rounds ≤ rounds')
    {count parts : Nat} {s : σ} {net : Netlist} (made : randomLogicWithin tries rounds count parts s = .ok net) :
    randomLogicWithin tries' rounds' count parts s = .ok net := by
  obtain ⟨inputs, first, made⟩ := Result.bind_eq_ok.mp made
  obtain ⟨grown, growth, made⟩ := Result.bind_eq_ok.mp made
  refine Result.bind_eq_ok.mpr ⟨inputs, first, ?_⟩
  exact Result.bind_eq_ok.mpr ⟨grown, grow_mono more longer growth, made⟩

end Netlist

end Draws

namespace Netlist

/-! ## Growth -/

/-- Logic on plain signals, in which a shape that is built only once stands once. -/
structure SharedLogic (shapes : List Shape) : Prop where
  plain : ∀ s ∈ shapes, s.isTrigger = false
  once : shapes.Pairwise fun a b => a = b → a.isShareable = false

theorem SharedLogic.append {shapes more : List Shape} (h : SharedLogic shapes)
    (plain : ∀ s ∈ more, s.isTrigger = false) (once : more.Pairwise fun a b => a = b → a.isShareable = false)
    (new : ∀ s ∈ more, s.isShareable = true → s ∉ shapes) : SharedLogic (shapes ++ more) where
  plain := List.forall_mem_append.mpr ⟨h.plain, plain⟩
  once := by
    refine List.pairwise_append.mpr ⟨h.once, once, ?_⟩
    rintro a before _ after rfl
    exact Bool.eq_false_iff.mpr fun shareable => new a after shareable before

/-- Shapes that stand for themselves may be repeated. -/
theorem SharedLogic.append_unshareable {shapes more : List Shape} (h : SharedLogic shapes)
    (plain : ∀ s ∈ more, s.isTrigger = false) (unshareable : ∀ s ∈ more, s.isShareable = false) :
    SharedLogic (shapes ++ more) := by
  refine h.append plain ?_ fun s mem shareable => ?_
  · exact List.pairwise_of_forall_mem_list fun a mem _ _ _ => unshareable a mem
  · rw [unshareable s mem] at shareable
    cases shareable

theorem SharedLogic.index_eq {shapes : List Shape} (h : SharedLogic shapes) {i j : Nat} {s : Shape}
    (here : shapes[i]? = some s) (there : shapes[j]? = some s) (shareable : s.isShareable = true) : i = j := by
  have apart : ∀ {i j : Nat}, i < j → shapes[i]? = some s → shapes[j]? ≠ some s := by
    intro i j lt here there
    obtain ⟨hi, first⟩ := List.getElem?_eq_some_iff.mp here
    obtain ⟨hj, second⟩ := List.getElem?_eq_some_iff.mp there
    have := List.pairwise_iff_getElem.mp h.once i j hi hj lt (first.trans second.symm)
    rw [first, shareable] at this
    cases this
  rcases Nat.lt_trichotomy i j with lt | same | gt
  · exact absurd there (apart lt here)
  · exact same
  · exact absurd here (apart gt there)

/-- The pool is the list of all gates, and they are logic. -/
structure Grown (shapes : List Shape) (net : Netlist) (pool : List GateId) : Prop extends Lists shapes net where
  logic : SharedLogic shapes
  pool : pool = net.gates

section Growth

variable {shapes : List Shape} {net net' : Netlist} {pool : List GateId}

theorem Grown.lt_of_mem (h : Grown shapes net pool) {x : GateId} (mem : x ∈ pool) : x.index < shapes.length := by
  rw [h.pool, h.gates, List.mem_map] at mem
  obtain ⟨i, listed, rfl⟩ := mem
  exact List.mem_range.mp listed

/-- ONE ROUND. The pool grows exactly if a gate was built. -/
theorem Grown.addGate (h : Grown shapes net pool) {fn : GateFn} {operands : List GateId}
    (chosen : ∀ x ∈ operands, x ∈ pool) {id : GateId} (added : net.addGate (.nary fn operands) = .ok (id, net')) :
    ∃ more, Grown (shapes ++ more) net' (if net.size < net'.size then pool ++ [id] else pool) := by
  have below : ∀ x ∈ (Shape.nary fn operands).inputs, x.driver.index < shapes.length := by
    refine List.forall_mem_map.mpr fun x mem => ?_
    exact h.lt_of_mem (chosen x mem)
  rcases h.toLists.addGate_cases below added with rfl | ⟨s, rfl, lists, new, kind⟩
  · refine ⟨[], ?_⟩
    rw [if_neg (Nat.lt_irrefl _), List.append_nil]
    exact h
  · refine ⟨[s], lists, h.logic.append ?_ (List.pairwise_singleton ..) ?_, ?_⟩
    · rw [List.forall_mem_singleton]
      rcases kind with rfl | ⟨base, _, rfl⟩
      · exact Shape.isTrigger_nary _ _
      · exact Shape.isTrigger_nary _ _
    · rw [List.forall_mem_singleton]
      exact new
    · have larger : net.size < net'.size := by
        rw [h.toLists.size, lists.size, List.length_append]
        exact Nat.lt_succ_self _
      rw [if_pos larger, h.pool, h.gates, lists.gates, List.length_append, List.length_singleton, List.range_succ,
        List.map_append]
      rfl

/-- THE WHOLE GROWTH, by induction on the rounds. -/
theorem Grown.grow {σ : Type} [WordSource σ] {tries count rounds : Nat} {s : σ} {pool' : List GateId}
    (h : Grown shapes net pool) (grown : Netlist.grow tries count rounds s net pool = .ok (net', pool')) :
    ∃ more, Grown (shapes ++ more) net' pool' ∧ count ≤ (shapes ++ more).length := by
  induction rounds generalizing s net pool shapes with
  | zero => cases grown
  | succ rounds ih =>
    unfold Netlist.grow at grown
    split at grown
    · next enough =>
      cases grown
      refine ⟨[], ?_⟩
      rw [List.append_nil, ← h.toLists.size]
      exact ⟨h, enough⟩
    · obtain ⟨⟨shape, s'⟩, drawn, grown⟩ := Result.bind_eq_ok.mp grown
      obtain ⟨⟨id, mid⟩, added, later⟩ := Result.bind_eq_ok.mp grown
      obtain ⟨fn, operands, rfl, chosen⟩ := eq_of_drawShape (Result.getOrBreach_eq_ok.mp drawn)
      obtain ⟨first, step⟩ := h.addGate chosen added
      obtain ⟨rest, result⟩ := ih step later
      exact ⟨first ++ rest, by rwa [← List.append_assoc]⟩

/-- Growth starts from inputs alone. -/
theorem grown_inputs {count : Nat} (added : empty.addMany addInput count = .ok (pool, net)) :
    Grown (List.replicate count ⟨.input, []⟩) net pool := by
  obtain ⟨lists, ids⟩ := @Lists.addAll [] _ _ lists_nil Nat (fun _ => ⟨.input, []⟩) (List.range count)
    (fun _ _ => rfl) (fun _ _ => nofun) pool added
  have inputs : [] ++ (List.range count).map (fun _ => (⟨.input, []⟩ : Shape)) = List.replicate count ⟨.input, []⟩ := by
    rw [List.nil_append, List.map_const', List.length_range]
  rw [inputs] at lists
  refine ⟨lists, ?_, ?_⟩
  · rw [← List.nil_append (List.replicate _ _)]
    refine SharedLogic.append_unshareable ⟨nofun, .nil⟩ ?_ ?_
    · intro s mem
      rw [List.eq_of_mem_replicate mem]
      rfl
    · intro s mem
      rw [List.eq_of_mem_replicate mem]
      rfl
  · rw [ids, lists.gates, List.length_replicate, List.length_range, List.length_nil, List.range_eq_range']

end Growth

/-! ## Outputs -/

/-- A gate has a fan-out if some gate reads it. -/
theorem Lists.fanout_ne_nil_iff {shapes : List Shape} {net : Netlist} (h : Lists shapes net) {id : GateId} {g : Gate}
    (found : net.gate? id = some g) : g.fanout ≠ [] ↔ ∃ t ∈ shapes, ∃ x ∈ t.inputs, x.driver = id := by
  have wired := h.reachable.consistent.wired
  constructor
  · intro used
    obtain ⟨l, mem⟩ := List.exists_mem_of_ne_nil _ used
    obtain ⟨source, reader, there, link⟩ := (wired.fanout found l).mp mem
    obtain ⟨x, read, driver⟩ := source_of_mem_inputLinks link
    have listed : shapes[l.target.index]? = some reader.toShape := (h.shape _).symm.trans (shape?_of_gate? there)
    exact ⟨_, List.mem_of_getElem? listed, x, read, driver.trans source⟩
  · rintro ⟨t, mem, x, read, rfl⟩
    obtain ⟨i, listed⟩ := List.mem_iff_getElem?.mp mem
    obtain ⟨reader, there, rfl⟩ := shape?_eq_some.mp ((h.shape ⟨i⟩).trans listed)
    obtain ⟨k, edge⟩ := exists_edge_of_read there read
    exact List.ne_nil_of_mem ((wired.fanout found _).mpr ⟨rfl, edge⟩)

/-- Every gate that is no output is read. -/
def Used (shapes : List Shape) : Prop :=
  ∀ (i : Nat) (s : Shape), shapes[i]? = some s → s.isOutput = false → ∃ t ∈ shapes, ∃ x ∈ t.inputs, x.driver = ⟨i⟩

/-- The gates that nothing reads get outputs, so that every other gate is read. -/
theorem Grown.addOutputs {shapes : List Shape} {net net' : Netlist} {pool ids : List GateId} (h : Grown shapes net pool)
    (added : net.addAll addOutput (pool.filter fun id => (net.gate? id).any (·.fanout.isEmpty)) = .ok (ids, net')) :
    ∃ more, Lists (shapes ++ more) net' ∧ SharedLogic (shapes ++ more) ∧ Used (shapes ++ more) := by
  obtain ⟨lists, _⟩ := @Lists.addAll shapes net net' h.toLists GateId (fun x => .nary .output [x]) _
    (fun _ _ => rfl) (fun x mem => List.forall_mem_singleton.mpr (h.lt_of_mem (List.mem_of_mem_filter mem))) ids added
  refine ⟨_, lists, ?_, ?_⟩
  · refine h.logic.append_unshareable ?_ ?_
    · exact List.forall_mem_map.mpr fun x _ => Shape.isTrigger_nary _ _
    · exact List.forall_mem_map.mpr fun x _ => rfl
  · intro i s found plain
    rcases Nat.lt_or_ge i shapes.length with old | new
    · rw [List.getElem?_append_left old] at found
      obtain ⟨g, here, rfl⟩ := shape?_eq_some.mp ((h.shape ⟨i⟩).trans found)
      by_cases used : g.fanout = []
      · -- It was not read, and an output reads it now.
        have listed : (⟨i⟩ : GateId) ∈ pool := by
          rw [h.pool]
          exact h.reachable.consistent.mem_view_gates.mpr ⟨g, here⟩
        have unused : (net.gate? ⟨i⟩).any (·.fanout.isEmpty) = true := by
          rw [here, Option.any_some, used]
          rfl
        refine ⟨.nary .output [⟨i⟩], List.mem_append_right _ ?_, .plain ⟨i⟩, List.mem_singleton.mpr rfl, rfl⟩
        exact List.mem_map_of_mem (List.mem_filter.mpr ⟨listed, unused⟩)
      · obtain ⟨t, mem, reads⟩ := (h.toLists.fanout_ne_nil_iff here).mp used
        exact ⟨t, List.mem_append_left _ mem, reads⟩
    · rw [List.getElem?_append_right new, List.getElem?_map, Option.map_eq_some_iff] at found
      obtain ⟨x, _, rfl⟩ := found
      cases plain

/-! ## The whole sample -/

/-- What random logic is, however it is divided. -/
structure IsRandomLogic (count : Nat) (net : Netlist) : Prop where
  consistent : net.isConsistent = true
  combinational : net.isCombinational = true
  acyclic : net.view.Acyclic
  size : count ≤ net.size
  distinct : ∀ {x y : GateId} {s : Shape}, net.shape? x = some s → net.shape? y = some s → s.isSource = false →
    s.isOutput = false → x = y
  used : ∀ {id : GateId} {g : Gate}, net.gate? id = some g → g.isOutput = false → g.fanout ≠ []

theorem Lists.isRandomLogic {shapes : List Shape} {net net' : Netlist} (h : Lists shapes net)
    (logic : SharedLogic shapes) (used : Used shapes) {count : Nat} (enough : count ≤ shapes.length)
    (reachable : net'.Reachable) (same : net'.gate? = net.gate?) : IsRandomLogic count net' := by
  have consistent := reachable.consistent
  have shape : ∀ {id : GateId} {s : Shape}, net'.shape? id = some s → shapes[id.index]? = some s := by
    intro id s found
    rw [← h.shape, ← shape?_congr same, found]
  refine ⟨consistent.isConsistent, ?combinational, h.acyclic_of_gates same, ?size, ?distinct, ?used⟩
  case combinational =>
    refine TreeSet.isEmpty_iff_forall_not_mem.mpr fun id mem => ?_
    obtain ⟨_, g, found, trigger⟩ := (consistent.top.accounts.triggers id).mp mem
    have plain := logic.plain _ (List.mem_of_getElem? (shape (shape?_of_gate? found)))
    rw [plain] at trigger
    cases trigger
  case size =>
    rw [h.size_of_gates consistent same]
    exact enough
  case distinct =>
    intro x y s here there driven plain
    have shareable : s.isShareable = true := by rw [Shape.isShareable, driven, plain]; rfl
    exact congrArg GateId.mk (logic.index_eq (shape here) (shape there) shareable)
  case used =>
    intro id g found plain
    rw [same] at found
    have listed : shapes[id.index]? = some g.toShape := (h.shape id).symm.trans (shape?_of_gate? found)
    exact (h.fanout_ne_nil_iff found).mpr (used id.index _ listed plain)

/-- RANDOM LOGIC IS SOUND, whatever is drawn. It is flat if no parts are asked for. Otherwise it has at least one part
and no more than asked for, they hold all gates and none is empty, they do not feed each other in a circle, and sorting
keeps each of them together. -/
theorem randomLogic_sound {σ : Type} [WordSource σ] {tries rounds count parts : Nat} {s : σ} {net : Netlist}
    (made : randomLogicWithin tries rounds count parts s = .ok net) :
    IsRandomLogic count net ∧ (parts = 0 → net.isFlat = true) ∧
      (0 < parts → net.isWellFormed = true ∧ net.isFlat = false ∧ net.parts.length ≤ parts ∧
        (∀ n, ¬Relation.TransGen net.PartFeeds n n) ∧
        ∃ sorted, net.sort = .ok sorted ∧ net.SortsTo sorted ∧ ∀ q ∈ sorted.parts, q.gates <:+: sorted.gates) := by
  obtain ⟨⟨inputs, start⟩, first, made⟩ := Result.bind_eq_ok.mp made
  obtain ⟨⟨grown, pool⟩, growth, made⟩ := Result.bind_eq_ok.mp made
  obtain ⟨⟨outputs, full⟩, added, made⟩ := Result.bind_eq_ok.mp made
  obtain ⟨more, result, enough⟩ := (grown_inputs first).grow growth
  obtain ⟨last, lists, logic, used⟩ := result.addOutputs added
  -- There are at least the four inputs, so there is something to divide and to sort.
  have several : 4 ≤ (List.replicate (4 + count / 16) (⟨.input, []⟩ : Shape) ++ more ++ last).length := by
    rw [List.length_append, List.length_append, List.length_replicate]
    omega
  replace enough : count ≤ (List.replicate (4 + count / 16) (⟨.input, []⟩ : Shape) ++ more ++ last).length := by
    rw [List.length_append]
    omega
  dsimp only at made
  split at made
  · next none =>
    cases made
    refine ⟨lists.isRandomLogic logic used enough lists.reachable rfl, fun _ => ?_, fun some => ?_⟩
    · rw [isFlat, lists.flat]
      rfl
    · exact absurd none (Nat.ne_of_gt some)
  · next some =>
    have sliced := lists.divide made
    refine ⟨lists.isRandomLogic logic used enough sliced.reachable sliced.gates, fun none => absurd none some,
      fun _ => ?_⟩
    exact ⟨sliced.isWellFormed, sliced.isFlat_eq_false lists (by omega), sliced.length, sliced.acyclic_parts lists,
      sliced.exists_sort lists (by omega)⟩

/-- Twelve gates from one seed, in three parts. -/
theorem randomLogic_twelve : ∃ net, randomLogic 12 3 (Xoshiro.ofSeed 1) = .ok net ∧ IsRandomLogic 12 net ∧
    net.isWellFormed = true ∧ net.parts.length = 3 := by
  obtain ⟨net, made, three⟩ : ∃ net, randomLogic 12 3 (Xoshiro.ofSeed 1) = .ok net ∧ (net.parts.length == 3) = true :=
    Result.exists_ok_of_any (by decide +kernel)
  obtain ⟨sound, _, divided⟩ := randomLogic_sound made
  exact ⟨net, made, sound, (divided (by decide)).1, eq_of_beq three⟩

end Netlist

end LogicNet
