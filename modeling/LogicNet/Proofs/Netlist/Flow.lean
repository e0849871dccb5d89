import LogicNet.Netlist.Flow
import LogicNet.Proofs.Netlist.Growing

/-!
# Flow

`hasCombFlow` walks along the fan-out from one gate. The walk never stops on a breach, and its answer is exact
(`exists_hasCombFlow`): a gate that is not triggered flows to itself, and to every gate that reads one it feeds,
directly or through others. What carries the walk is one invariant, `Walk`: the gates that were left drive no goal,
and all that they feed was put on the stack. The number of gates bounds the number of rounds, because no gate is put
there twice. So the walk ends on netlists with loops as well, and it finds exactly the goals that a path leads to
(`hasCombFlow_decides`). A triggered gate may end such a path, but not carry it on.

**The law** (`guarded_setGate`): where a gate has no flow to its new drivers, giving it a new shape closes no loop.
Only the new gate can close one, so a loop would lead from the gate through old gates to one of the new drivers.

**What it does not establish.** The flow is that of the gate as it IS, and a triggered gate has none. So nothing is
known about a triggered gate that is given a shape without events: `flowless_trigger_closes_loop` is one that closes a
loop.
-/

namespace LogicNet

open Std

/-- Gate `t` reads gate `d`. -/
def Drives (gate? : GateId → Option Gate) (d t : GateId) : Prop :=
  ∃ g, gate? t = some g ∧ ∃ s ∈ g.inputs, s.driver = d

theorem Feeds.drives {gate? : GateId → Option Gate} {d t : GateId} (h : Feeds gate? d t) : Drives gate? d t := by
  obtain ⟨g, found, _, reads⟩ := h
  exact ⟨g, found, reads⟩

namespace Netlist

/-- The fan-out of a gate leads to the gates that read it. -/
theorem mem_targets_fanout {net : Netlist} (wired : Wired net.gate? net.nextId) {d t : GateId} {g : Gate}
    (found : net.gate? d = some g) : t ∈ g.fanout.map Link.target ↔ Drives net.gate? d t := by
  simp only [List.mem_map, wired.fanout found]
  constructor
  · intro leads
    obtain ⟨l, ⟨source, reader, here, mem⟩, target⟩ := leads
    obtain ⟨s, read, driver⟩ := source_of_mem_inputLinks mem
    exact ⟨reader, target ▸ here, s, read, driver.trans source⟩
  · intro drives
    obtain ⟨reader, here, s, read, driver⟩ := drives
    obtain ⟨i, edge⟩ := exists_edge_of_read here read
    exact ⟨.edge s.driver t i, ⟨driver, edge⟩, rfl⟩

/-! ## The walk -/

/-- What was ever put on the stack is on it still or was left, once, and is fed from the start. -/
structure Tracked (net : Netlist) (start : GateId) (left stack : List GateId) (seen : GateSet) : Prop where
  begun : start ∈ left ++ stack
  nodup : (left ++ stack).Nodup
  mem : ∀ id, id ∈ seen ↔ id ∈ left ++ stack
  known : ∀ id ∈ left ++ stack, ∃ g, net.gate? id = some g
  fed : ∀ id ∈ left ++ stack, Relation.ReflTransGen (Feeds net.gate?) start id

/-- The gates that were left drive no goal, and all that they feed was put on the stack. -/
structure Walk (net : Netlist) (goal : GateId → Bool) (start : GateId) (left stack : List GateId) (seen : GateSet) :
    Prop extends Tracked net start left stack seen where
  quiet : ∀ id ∈ left, ∀ t, Drives net.gate? id t → goal t = false
  closed : ∀ id ∈ left, ∀ t, Feeds net.gate? id t → t ∈ left ++ stack

section Rounds

variable {net : Netlist} {goal : GateId → Bool} {start id : GateId} {left stack : List GateId} {seen : GateSet}

/-- The gate on top of the stack is left. -/
theorem Tracked.pop (h : Tracked net start left (id :: stack) seen) : Tracked net start (left ++ [id]) stack seen := by
  have same : left ++ [id] ++ stack = left ++ id :: stack := by rw [List.append_assoc, List.singleton_append]
  refine ⟨?_, ?_, ?_, ?_, ?_⟩ <;> rw [same]
  · exact h.begun
  · exact h.nodup
  · exact h.mem
  · exact h.known
  · exact h.fed

/-- A gate that was never on the stack is put there. -/
theorem Tracked.push (h : Tracked net start left stack seen) {t : GateId} {g : Gate} (found : net.gate? t = some g)
    (new : t ∉ seen) (fed : Relation.ReflTransGen (Feeds net.gate?) start t) :
    Tracked net start left (t :: stack) (seen.insert t) := by
  have perm : (left ++ t :: stack).Perm (t :: (left ++ stack)) := List.perm_middle
  have split : ∀ x, x ∈ left ++ t :: stack ↔ x = t ∨ x ∈ left ++ stack := by
    intro x
    rw [perm.mem_iff, List.mem_cons]
  constructor
  case begun => exact (split start).mpr (.inr h.begun)
  case nodup =>
    rw [perm.nodup_iff, List.nodup_cons, ← h.mem]
    exact ⟨new, h.nodup⟩
  case mem =>
    intro x
    rw [split, ← h.mem, TreeSet.mem_insert, LawfulEqCmp.compare_eq_iff_eq, eq_comm]
  case known =>
    intro x mem
    rcases (split x).mp mem with same | mem
    · exact ⟨g, same ▸ found⟩
    · exact h.known x mem
  case fed =>
    intro x mem
    rcases (split x).mp mem with same | mem
    · exact same ▸ fed
    · exact h.fed x mem

/-- One reader is looked at. It is passed over if it is triggered or has been on the stack, and put there if not. -/
def lookAt (net : Netlist) : List GateId × GateSet → GateId → Result (List GateId × GateSet)
  | (stack, seen), t => do
    let next ← net.gate t
    if next.isTrigger || seen.contains t then return (stack, seen)
    return (t :: stack, seen.insert t)

/-- Once all readers of a gate were looked at, those that it feeds are or were on the stack. -/
theorem Tracked.exists_pushAll (h : Tracked net start left stack seen) (inside : id ∈ left) {reached : List GateId}
    (drives : ∀ t ∈ reached, Drives net.gate? id t) :
    ∃ stack' seen', reached.foldlM net.lookAt (stack, seen) = .ok (stack', seen') ∧
      Tracked net start left stack' seen' ∧ stack ⊆ stack' ∧
      ∀ t ∈ reached, Feeds net.gate? id t → t ∈ left ++ stack' := by
  suffices all : ∃ s, reached.foldlM net.lookAt (stack, seen) = .ok s ∧ Tracked net start left s.1 s.2 ∧
      stack ⊆ s.1 ∧ ∀ t ∈ reached, Feeds net.gate? id t → t ∈ left ++ s.1 by
    obtain ⟨⟨stack', seen'⟩, walked, tracked, more, fed⟩ := all
    exact ⟨stack', seen', walked, tracked, more, fed⟩
  refine Result.exists_foldlM_done (fun done (s : List GateId × GateSet) => Tracked net start left s.1 s.2 ∧
    stack ⊆ s.1 ∧ ∀ t ∈ done, Feeds net.gate? id t → t ∈ left ++ s.1) ⟨h, List.Subset.refl _, by simp⟩ ?_
  intro done t rest s split here
  obtain ⟨stack', seen'⟩ := s
  obtain ⟨tracked, more, fed⟩ := here
  have mem : t ∈ reached := by
    rw [split]
    exact List.mem_append_right done List.mem_cons_self
  obtain ⟨g, found, reads⟩ := drives t mem
  simp only [lookAt, gate_eq_ok.mpr found, Result.ok_bind]
  split
  · next passed =>
    refine ⟨_, rfl, tracked, more, fun x inside feeds => ?_⟩
    rcases List.mem_append.mp inside with before | last
    · exact fed x before feeds
    · obtain rfl := List.mem_singleton.mp last
      rcases Bool.or_eq_true_iff.mp passed with trigger | known
      · obtain ⟨g', found', plain, _⟩ := feeds
        obtain rfl : g = g' := Option.some.inj (found.symm.trans found')
        rw [plain] at trigger
        cases trigger
      · exact (tracked.mem x).mp (TreeSet.contains_iff_mem.mp known)
  · next new =>
    rw [Bool.not_eq_true, Bool.or_eq_false_iff] at new
    obtain ⟨plain, unseen⟩ := new
    have feeds : Feeds net.gate? id t := ⟨g, found, plain, reads⟩
    have pushed := tracked.push found (fun seen => by rw [TreeSet.contains_iff_mem.mpr seen] at unseen; cases unseen)
      ((tracked.fed id (List.mem_append_left _ inside)).tail feeds)
    refine ⟨_, rfl, pushed, fun x mem => List.mem_cons_of_mem t (more mem), fun x inside feeds => ?_⟩
    rcases List.mem_append.mp inside with before | last
    · rcases List.mem_append.mp (fed x before feeds) with atLeft | onStack
      · exact List.mem_append_left _ atLeft
      · exact List.mem_append_right _ (List.mem_cons_of_mem t onStack)
    · obtain rfl := List.mem_singleton.mp last
      exact List.mem_append_right _ List.mem_cons_self

/-- ONE ROUND. The gate on top drives a goal, or it is left and the walk goes on. -/
theorem Walk.exists_round (wired : Wired net.gate? net.nextId) (h : Walk net goal start left (id :: stack) seen)
    (rounds : Nat) :
    (net.flowsFrom goal (rounds + 1) (id :: stack) seen = .ok true ∧ ∃ t, Drives net.gate? id t ∧ goal t = true) ∨
      ∃ stack' seen', net.flowsFrom goal (rounds + 1) (id :: stack) seen = net.flowsFrom goal rounds stack' seen' ∧
        Walk net goal start (left ++ [id]) stack' seen' := by
  obtain ⟨g, found⟩ := h.known id (List.mem_append_right left List.mem_cons_self)
  have reads : ∀ t, t ∈ g.fanout.map Link.target ↔ Drives net.gate? id t := fun t => mem_targets_fanout wired found
  have step : net.flowsFrom goal (rounds + 1) (id :: stack) seen =
      if (g.fanout.map Link.target).any goal then .ok true
      else (g.fanout.map Link.target).foldlM net.lookAt (stack, seen) >>= fun s => net.flowsFrom goal rounds s.1 s.2 := by
    rw [flowsFrom, gate_eq_ok.mpr found, Result.ok_bind]
    rfl
  rw [step]
  split
  · next reaches =>
    obtain ⟨t, mem, isGoal⟩ := List.any_eq_true.mp reaches
    exact .inl ⟨rfl, t, (reads t).mp mem, isGoal⟩
  · next quiet =>
    obtain ⟨stack', seen', walked, tracked, more, fed⟩ := h.toTracked.pop.exists_pushAll
      (List.mem_append_right left List.mem_cons_self) fun t mem => (reads t).mp mem
    refine .inr ⟨stack', seen', ?_, ⟨tracked, ?_, ?_⟩⟩
    · rw [walked, Result.ok_bind]
    · intro x mem t drives
      rcases List.mem_append.mp mem with before | last
      · exact h.quiet x before t drives
      · obtain rfl := List.mem_singleton.mp last
        exact Bool.eq_false_iff.mpr fun isGoal => quiet (List.any_eq_true.mpr ⟨t, (reads t).mpr drives, isGoal⟩)
    · intro x mem t feeds
      rcases List.mem_append.mp mem with before | last
      · have seen := h.closed x before t feeds
        simp only [List.mem_append, List.mem_cons] at seen ⊢
        rcases seen with atLeft | same | onStack
        · exact .inl (.inl atLeft)
        · exact .inl (.inr (.inl same))
        · exact .inr (more onStack)
      · obtain rfl := List.mem_singleton.mp last
        exact fed t ((reads t).mpr feeds.drives) feeds

/-- THE WHOLE WALK. With a round for every gate that was not left yet it says whether a goal reads a gate that the
start feeds. -/
theorem Walk.exists_flowsFrom (h : net.Consistent) {rounds : Nat} (walk : Walk net goal start left stack seen)
    (enough : net.size ≤ rounds + left.length) :
    ∃ flows, net.flowsFrom goal rounds stack seen = .ok flows ∧ (flows = true ↔
      ∃ x t, Relation.ReflTransGen (Feeds net.gate?) start x ∧ Drives net.gate? x t ∧ goal t = true) := by
  have finished : ∀ {left seen}, Walk net goal start left [] seen →
      ¬∃ x t, Relation.ReflTransGen (Feeds net.gate?) start x ∧ Drives net.gate? x t ∧ goal t = true := by
    intro left seen walk flows
    obtain ⟨x, t, fed, drives, isGoal⟩ := flows
    have inside : x ∈ left := by
      clear drives
      induction fed with
      | refl => simpa using walk.begun
      | tail _ feeds ih => simpa using walk.closed _ ih _ feeds
    rw [walk.quiet x inside t drives] at isGoal
    cases isGoal
  induction rounds generalizing left stack seen with
  | zero =>
    -- All gates were left, so none is on the stack.
    have few : (left ++ stack).length ≤ net.gates.length :=
      (walk.nodup.subperm fun x mem => h.mem_view_gates.mpr (walk.known x mem)).length_le
    have size : net.gates.length = net.size := h.size_gates
    obtain rfl : stack = [] := by
      rw [List.length_append] at few
      exact List.length_eq_zero_iff.mp (by omega)
    exact ⟨false, rfl, iff_of_false Bool.false_ne_true (finished walk)⟩
  | succ rounds ih =>
    cases stack with
    | nil => exact ⟨false, rfl, iff_of_false Bool.false_ne_true (finished walk)⟩
    | cons id stack =>
      rcases walk.exists_round h.wired rounds with ⟨flows, t, drives, isGoal⟩ | ⟨stack', seen', later, next⟩
      · have fed := walk.fed id (List.mem_append_right left List.mem_cons_self)
        exact ⟨true, flows, iff_of_true rfl ⟨id, t, fed, drives, isGoal⟩⟩
      · rw [later]
        exact ih next (by rw [List.length_append, List.length_singleton]; omega)

/-- Nothing was left yet, and the start is on the stack. -/
theorem walk_start {g : Gate} (found : net.gate? start = some g) :
    Walk net goal start [] [start] (TreeSet.ofList [start]) := by
  refine ⟨⟨by simp, by simp, ?_, ?_, ?_⟩, by simp, by simp⟩
  · intro x
    rw [TreeSet.mem_ofList, List.contains_iff_mem, List.nil_append]
  · intro x mem
    exact ⟨g, by rw [List.mem_singleton.mp mem, found]⟩
  · intro x mem
    rw [List.mem_singleton.mp mem]

/-- THE WALK ENDS BY ITSELF. A round for every gate is enough, and more rounds change nothing. -/
theorem flowsFrom_of_enough (h : net.Consistent) {g : Gate} (found : net.gate? start = some g) {rounds : Nat}
    (enough : net.size ≤ rounds) : net.flowsFrom goal rounds [start] (TreeSet.ofList [start]) =
      net.flowsFrom goal net.size [start] (TreeSet.ofList [start]) := by
  have start : Walk net goal start [] [start] (TreeSet.ofList [start]) := walk_start found
  obtain ⟨more, walkedMore, reachesMore⟩ := start.exists_flowsFrom h (Nat.le_trans enough (Nat.le_add_right _ _))
  obtain ⟨flows, walked, reaches⟩ := start.exists_flowsFrom h (Nat.le_add_right net.size _)
  rw [walkedMore, walked]
  exact congrArg Except.ok (Bool.eq_iff_iff.mpr (reachesMore.trans reaches.symm))

end Rounds

/-- WHAT THE FLOW IS. A gate that is not triggered flows to itself, and to what reads a gate that it feeds. -/
theorem exists_hasCombFlow {net : Netlist} (h : net.Consistent) {id : GateId} {g : Gate}
    (found : net.gate? id = some g) (goals : List GateId) :
    ∃ flows, net.hasCombFlow id goals = .ok flows ∧ (flows = true ↔ g.isTrigger = false ∧ (id ∈ goals ∨
      ∃ x, Relation.ReflTransGen (Feeds net.gate?) id x ∧ ∃ t ∈ goals, Drives net.gate? x t)) := by
  cases goals with
  | nil => exact ⟨false, rfl, by simp⟩
  | cons first rest =>
    have steps : net.hasCombFlow id (first :: rest) = if g.isTrigger then .ok false
        else if (first :: rest).contains id then .ok true
        else net.flowsFrom (first :: rest).contains net.size [id] (TreeSet.ofList [id]) := by
      unfold hasCombFlow
      rw [gate_eq_ok.mpr found]
      rfl
    rw [steps]
    split
    · next trigger => exact ⟨false, rfl, by simp [trigger]⟩
    next plain =>
    split
    · next itself =>
      refine ⟨true, rfl, iff_of_true rfl ⟨Bool.eq_false_iff.mpr plain, .inl ?_⟩⟩
      exact List.contains_iff_mem.mp itself
    · next other =>
      obtain ⟨flows, walked, exactly⟩ := (walk_start found).exists_flowsFrom h (Nat.le_add_right _ _)
      refine ⟨flows, walked, exactly.trans ?_⟩
      constructor
      · intro reaches
        obtain ⟨x, t, fed, drives, isGoal⟩ := reaches
        exact ⟨Bool.eq_false_iff.mpr plain, .inr ⟨x, fed, t, List.contains_iff_mem.mp isGoal, drives⟩⟩
      · intro reaches
        obtain ⟨_, itself | ⟨x, fed, t, isGoal, drives⟩⟩ := reaches
        · exact absurd (List.contains_iff_mem.mpr itself) other
        · exact ⟨x, t, fed, drives, List.contains_iff_mem.mpr isGoal⟩

/-! ## Paths -/

/-- Gates numbered from `0` to `last`. Each reads the one before it, and none but the last may be triggered. -/
structure CombPath (net : Netlist) (path : Nat → GateId) (last : Nat) : Prop where
  reads : ∀ k < last, Drives net.gate? (path k) (path (k + 1))
  plain : ∀ k < last, ∀ g, net.gate? (path k) = some g → g.isTrigger = false

section Paths

variable {net : Netlist} {path : Nat → GateId} {last : Nat}

theorem CombPath.single {d t : GateId} (drives : Drives net.gate? d t)
    (plain : ∀ g, net.gate? d = some g → g.isTrigger = false) : CombPath net (fun k => if k = 0 then d else t) 1 := by
  constructor
  · intro k below
    obtain rfl : k = 0 := by omega
    exact drives
  · intro k below
    obtain rfl : k = 0 := by omega
    exact plain

/-- A gate that feeds the first one comes before it. -/
theorem CombPath.cons {d : GateId} (h : CombPath net path last) (drives : Drives net.gate? d (path 0))
    (plain : ∀ g, net.gate? d = some g → g.isTrigger = false) :
    CombPath net (fun k => if k = 0 then d else path (k - 1)) (last + 1) := by
  constructor
  · intro k below
    cases k with
    | zero => exact drives
    | succ k => exact h.reads k (by omega)
  · intro k below
    cases k with
    | zero => exact plain
    | succ k => exact h.plain k (by omega)

/-- On a path every gate but the last is fed from the first. -/
theorem CombPath.feeds (h : CombPath net path last) {k : Nat} (below : k < last) :
    Relation.ReflTransGen (Feeds net.gate?) (path 0) (path k) := by
  induction k with
  | zero => exact .refl
  | succ k ih =>
    obtain ⟨g, found, reads⟩ := h.reads k (by omega)
    exact (ih (by omega)).tail ⟨g, found, h.plain (k + 1) below g found, reads⟩

/-- What reads a gate that is fed from a plain one ends a path from there. -/
theorem exists_combPath {d x t : GateId} (plain : ∀ g, net.gate? d = some g → g.isTrigger = false)
    (fed : Relation.ReflTransGen (Feeds net.gate?) d x) (drives : Drives net.gate? x t) :
    ∃ path last, 0 < last ∧ path 0 = d ∧ CombPath net path last ∧ path last = t := by
  induction fed using Relation.ReflTransGen.head_induction_on with
  | refl => exact ⟨_, 1, Nat.one_pos, rfl, .single drives plain, rfl⟩
  | head first _ ih =>
    obtain ⟨g, found, nextPlain, reads⟩ := first
    obtain ⟨path, last, _, rfl, rest, ends⟩ := ih fun g' found' => by
      obtain rfl : g = g' := Option.some.inj (found.symm.trans found')
      exact nextPlain
    exact ⟨_, last + 1, Nat.succ_pos _, rfl, rest.cons ⟨g, found, reads⟩ plain, ends⟩

end Paths

/-- THE FLOW IS REACHABILITY. Whatever loops the netlist has, the question is answered, and the answer is yes exactly
for a gate that is not triggered and is a goal itself or has a path to one. The bound on the rounds of the walk is
never what ends it. -/
theorem hasCombFlow_decides {net : Netlist} (h : net.Reachable) {id : GateId} {g : Gate}
    (found : net.gate? id = some g) (goals : List GateId) :
    (∃ flows, net.hasCombFlow id goals = .ok flows ∧ (flows = true ↔ goals ≠ [] ∧ g.isTrigger = false ∧
      (id ∈ goals ∨ ∃ path last, 0 < last ∧ path 0 = id ∧ CombPath net path last ∧ path last ∈ goals))) ∧
    ∀ rounds, net.size ≤ rounds → net.flowsFrom goals.contains rounds [id] (TreeSet.ofList [id]) =
      net.flowsFrom goals.contains net.size [id] (TreeSet.ofList [id]) := by
  refine ⟨?_, fun rounds enough => flowsFrom_of_enough h.consistent found enough⟩
  obtain ⟨flows, asked, exactly⟩ := exists_hasCombFlow h.consistent found goals
  refine ⟨flows, asked, exactly.trans ?_⟩
  constructor
  · intro reaches
    obtain ⟨plain, itself | ⟨x, fed, t, isGoal, drives⟩⟩ := reaches
    · exact ⟨List.ne_nil_of_mem itself, plain, .inl itself⟩
    · have only : ∀ g', net.gate? id = some g' → g'.isTrigger = false := by
        intro g' found'
        obtain rfl : g = g' := Option.some.inj (found.symm.trans found')
        exact plain
      obtain ⟨path, last, long, starts, leads, rfl⟩ := exists_combPath only fed drives
      exact ⟨List.ne_nil_of_mem isGoal, plain, .inr ⟨path, last, long, starts, leads, isGoal⟩⟩
  · intro leads
    obtain ⟨_, plain, itself | ⟨path, last, long, rfl, leads, isGoal⟩⟩ := leads
    · exact ⟨plain, .inl itself⟩
    · -- The last edge may end at a triggered gate, so it is read and not fed.
      obtain ⟨k, rfl⟩ : ∃ k, last = k + 1 := ⟨last - 1, by omega⟩
      exact ⟨plain, .inr ⟨path k, leads.feeds (Nat.lt_succ_self k), _, isGoal, leads.reads k (Nat.lt_succ_self k)⟩⟩

/-- Two inputs, a conjunction of the first with the negation of itself, and a register that stores the negation on the
second. -/
def circular : Result Netlist :=
  (made [.nary .input [], .nary .input [], .nary .buffer [], .nary .not [⟨2⟩],
    ⟨.flipFlop, [.plain ⟨3⟩, ⟨.rising, ⟨1⟩⟩]⟩]).setGate ⟨2⟩ (.nary .and [⟨0⟩, ⟨3⟩])

/-- The first input flows round the loop and into the register; the loop does not flow back to it. -/
theorem circular_flows : ∃ net, circular = .ok net ∧ net.hasCombFlow ⟨3⟩ [⟨0⟩] = .ok false ∧
    net.hasCombFlow ⟨0⟩ [⟨4⟩] = .ok true ∧
    ∃ path last, 0 < last ∧ path 0 = ⟨0⟩ ∧ CombPath net path last ∧ path last ∈ [⟨4⟩] := by
  have asked : circular.toOption.any (fun net => net.hasCombFlow ⟨3⟩ [⟨0⟩] == .ok false &&
      net.hasCombFlow ⟨0⟩ [⟨4⟩] == .ok true && (net.gate? ⟨0⟩).isSome) = true := by decide +kernel
  obtain ⟨net, made, asked⟩ := Result.exists_ok_of_any asked
  simp only [Bool.and_eq_true, beq_iff_eq, Option.isSome_iff_exists] at asked
  obtain ⟨⟨back, into⟩, g, found⟩ := asked
  have reachable : net.Reachable := .setGate _ _ (reachable_made _) made
  obtain ⟨flows, answer, exactly⟩ := (hasCombFlow_decides reachable found [⟨4⟩]).1
  have yes : flows = true := Except.ok.inj (answer.symm.trans into)
  obtain ⟨_, _, itself | leads⟩ := exactly.mp yes
  · exact absurd itself (by decide)
  · exact ⟨net, made, back, into, leads⟩

/-! ## Loops through a changed gate -/

section Detour

variable {α : Type} {old new : α → α → Prop} {x : α}

/-- A path from a node can be cut short where it comes back to it, so it needs no edge into it. -/
theorem reach_without_return (kept : ∀ a b, b ≠ x → new a b → old a b) {d : α}
    (path : Relation.ReflTransGen new x d) : Relation.ReflTransGen old x d := by
  induction path with
  | refl => exact .refl
  | @tail b c _ edge ih =>
    by_cases back : c = x
    · rw [back]
    · exact ih.tail (kept b c back edge)

/-- A path is an old one, or it goes through the node at which edges were added. -/
theorem path_old_or_through (kept : ∀ a b, b ≠ x → new a b → old a b) {a b : α} (path : Relation.TransGen new a b) :
    Relation.TransGen old a b ∨ Relation.TransGen new a x ∧ Relation.ReflTransGen new x b := by
  induction path with
  | @single b edge =>
    by_cases through : b = x
    · subst through
      exact .inr ⟨.single edge, .refl⟩
    · exact .inl (.single (kept a b through edge))
  | @tail b c before edge ih =>
    by_cases through : c = x
    · subst through
      exact .inr ⟨before.tail edge, .refl⟩
    · rcases ih with path | ⟨there, back⟩
      · exact .inl (path.tail (kept b c through edge))
      · exact .inr ⟨there, back.tail edge⟩

/-- Where edges are added only into one node, a loop uses one of them and old edges otherwise. -/
theorem exists_closing_edge (kept : ∀ a b, b ≠ x → new a b → old a b) (acyclic : ∀ t, ¬Relation.TransGen old t t) {t : α}
    (loop : Relation.TransGen new t t) : ∃ d, Relation.ReflTransGen old x d ∧ new d x := by
  rcases path_old_or_through kept loop with path | ⟨there, back⟩
  · exact absurd path (acyclic t)
  · obtain ⟨d, path, closing⟩ := Relation.TransGen.tail'_iff.mp (there.trans_right back)
    exact ⟨d, reach_without_return kept path, closing⟩

end Detour

/-- Giving one gate a new shape changes what feeds this gate, and nothing else. -/
theorem Reshapes.feeds_iff {net net' : Netlist} {id : GateId} {shape : Shape} (h : Reshapes net net' id shape)
    {d t : GateId} : Feeds net'.gate? d t ↔ if t = id then shape.isTrigger = false ∧ ∃ s ∈ shape.inputs, s.driver = d
      else Feeds net.gate? d t := by
  rw [feeds_iff_shape?, feeds_iff_shape?, h.shapes, Function.update_apply]
  split
  · simp
  · rfl

/-- A gate that gets a shape closes a loop only if it feeds a driver of this shape, or is one itself. -/
theorem acyclic_setGate {net net' : Netlist} (h : net.Consistent) (acyclic : net.view.Acyclic) {id : GateId}
    {shape : Shape} (set : net.setGate id shape = .ok net')
    (unfed : shape.isTrigger = false → ∀ s ∈ shape.inputs, ¬Relation.ReflTransGen (Feeds net.gate?) id s.driver) :
    net'.view.Acyclic := by
  intro t loop
  have reshapes := reshapes_setGate h set
  have kept : ∀ a b, b ≠ id → a ∈ net'.view.part.gates ∧ b ∈ net'.view.part.gates ∧ Feeds net'.gate? a b →
      a ∈ net.view.part.gates ∧ b ∈ net.view.part.gates ∧ Feeds net.gate? a b := by
    intro a b other edge
    have known : ∀ {x}, (∃ g, net'.gate? x = some g) ↔ ∃ g, net.gate? x = some g := by
      intro x
      obtain ⟨old, _, _, _, changing, _⟩ := setGate_spec set
      exact reshapes.known_iff.trans (or_iff_right_of_imp fun same => ⟨old, same ▸ changing.found⟩)
    rw [(h.setGate set).mem_view_gates, (h.setGate set).mem_view_gates, known, known, reshapes.feeds_iff,
      if_neg other] at edge
    rw [h.mem_view_gates, h.mem_view_gates]
    exact edge
  obtain ⟨d, path, _, _, closing⟩ := exists_closing_edge kept acyclic loop
  rw [reshapes.feeds_iff, if_pos rfl] at closing
  obtain ⟨plain, s, read, rfl⟩ := closing
  exact unfed plain s read (Relation.ReflTransGen.mono (fun _ _ edge => edge.2.2) _ _ path)

/-- THE GUARD. The flow to the new drivers of a gate can be asked for. If there is none, and the gate is not a triggered
one that gets a shape without events, then the new shape closes no loop. -/
theorem guarded_setGate {net net' : Netlist} (h : net.Reachable) (acyclic : net.view.Acyclic) {id : GateId} {old : Gate}
    (found : net.gate? id = some old) {shape : Shape} (set : net.setGate id shape = .ok net') :
    ∃ flows, net.hasCombFlow id (shape.inputs.map Signal.driver) = .ok flows ∧
      (flows = false → old.isTrigger = false ∨ shape.isTrigger = true → net'.view.Acyclic) := by
  obtain ⟨flows, asked, exactly⟩ := exists_hasCombFlow h.consistent found (shape.inputs.map Signal.driver)
  refine ⟨flows, asked, fun none kind => acyclic_setGate h.consistent acyclic set ?_⟩
  intro plain s read path
  have oldPlain : old.isTrigger = false := by
    rcases kind with oldPlain | trigger
    · exact oldPlain
    · rw [plain] at trigger
      cases trigger
  have isGoal : s.driver ∈ shape.inputs.map Signal.driver := List.mem_map_of_mem read
  -- The path to the driver is empty, or its last edge leads to a reader.
  have reaches : flows = true := by
    refine exactly.mpr ⟨oldPlain, ?_⟩
    rcases Relation.ReflTransGen.cases_tail path with same | ⟨x, fed, last⟩
    · exact .inl (same ▸ isGoal)
    · exact .inr ⟨x, fed, s.driver, isGoal, last.drives⟩
  rw [none] at reaches
  cases reaches

/-- Two inputs, a negation of the first, a register that stores the negation, and the conjunction of the first input
with the register. -/
def stored : Netlist := made [.nary .input [], .nary .input [], .nary .not [⟨0⟩],
  ⟨.flipFlop, [.plain ⟨2⟩, ⟨.rising, ⟨1⟩⟩]⟩, .nary .and [⟨0⟩, ⟨3⟩]]

/-- The negation may read the conjunction: the loop that this closes has a register in it. -/
theorem guarded_feedback : ∃ net', stored.setGate ⟨2⟩ (.nary .xor [⟨0⟩, ⟨4⟩]) = .ok net' ∧
    stored.hasCombFlow ⟨2⟩ [⟨0⟩, ⟨4⟩] = .ok false ∧ net'.view.Acyclic := by
  obtain ⟨net', set⟩ : ∃ net', stored.setGate ⟨2⟩ (.nary .xor [⟨0⟩, ⟨4⟩]) = .ok net' := Result.exists_ok (by decide +kernel)
  obtain ⟨old, found, plain⟩ : ∃ old, stored.gate? ⟨2⟩ = some old ∧ old.isTrigger = false := by decide +kernel
  have flow : stored.hasCombFlow ⟨2⟩ [⟨0⟩, ⟨4⟩] = .ok false := by decide +kernel
  obtain ⟨flows, asked, guarded⟩ := guarded_setGate (reachable_made _) (View.acyclic_of_all (by decide +kernel)) found set
  have none : flows = false := Except.ok.inj (asked.symm.trans flow)
  exact ⟨net', set, flow, guarded none (.inl plain)⟩

/-- Two inputs, a register that stores the first, and the negation of the register. -/
def negatedStore : Netlist := made [.nary .input [], .nary .input [], ⟨.flipFlop, [.plain ⟨0⟩, ⟨.rising, ⟨1⟩⟩]⟩,
  .nary .not [⟨2⟩]]

/-- A register has no flow, so none to its reader. As a negation of its reader it closes a loop. -/
theorem flowless_trigger_closes_loop : negatedStore.Reachable ∧ negatedStore.view.Acyclic ∧
    negatedStore.hasCombFlow ⟨2⟩ [⟨3⟩] = .ok false ∧
    ∃ net', negatedStore.setGate ⟨2⟩ (.nary .not [⟨3⟩]) = .ok net' ∧ ¬net'.view.Acyclic := by
  have reachable : negatedStore.Reachable := reachable_made _
  refine ⟨reachable, View.acyclic_of_all (by decide +kernel), by decide +kernel, ?_⟩
  obtain ⟨net', set⟩ : ∃ net', negatedStore.setGate ⟨2⟩ (.nary .not [⟨3⟩]) = .ok net' :=
    Result.exists_ok (by decide +kernel)
  have consistent := reachable.consistent.setGate set
  have shapes := (reshapes_setGate reachable.consistent set).shapes
  have register : net'.shape? ⟨2⟩ = some (.nary .not [⟨3⟩]) := by
    rw [shapes, Function.update_self]
  have reader : net'.shape? ⟨3⟩ = some (.nary .not [⟨2⟩]) := by
    rw [shapes, Function.update_of_ne (by decide)]
    decide +kernel
  have inRegister : ⟨2⟩ ∈ net'.view.part.gates := consistent.mem_gates_iff_shape?.mpr ⟨_, register⟩
  have inReader : ⟨3⟩ ∈ net'.view.part.gates := consistent.mem_gates_iff_shape?.mpr ⟨_, reader⟩
  have there : Feeds net'.gate? ⟨2⟩ ⟨3⟩ := feeds_iff_shape?.mpr ⟨_, reader, by decide⟩
  have back : Feeds net'.gate? ⟨3⟩ ⟨2⟩ := feeds_iff_shape?.mpr ⟨_, register, by decide⟩
  exact ⟨net', set, fun acyclic => acyclic ⟨2⟩ (.tail (.single ⟨inRegister, inReader, there⟩) ⟨inReader, inRegister, back⟩)⟩

end Netlist

end LogicNet
