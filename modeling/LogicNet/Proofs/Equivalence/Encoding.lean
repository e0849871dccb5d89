import LogicNet.Proofs.Equivalence.Triggers

/-!
# Checking through a state encoding

Two netlists that store different things are compared through an ENCODER, which computes the right state from the
left one, and a DECODER back. The query has four views, and the reconnection glues them: the state of a left
trigger is a decoder output, and an encoder input is the data of a left trigger.

The reconnection is applied once. Where the data of a left trigger is itself a trigger, the encoder input uses the
variable that the trigger would have had, which nothing else uses any more: it is LOOSE. So a query has more
models than the four views have valuations that fit together. What exactly is asked for is said by `Glued` and
`Differ` (`asked_encoding_iff`).
-/

namespace LogicNet

open Std

/-! ## Queries -/

namespace Checker

open Formula

variable {c : Checker} {views : List View} {reconnection : Reconnection} {inputs outputs : List SitePair}

/-- What is asked for makes a model. -/
theorem exists_model_of_asked (coherent : ∀ v ∈ views, v.Coherent) {q : Query}
    (made : query views reconnection inputs outputs = .ok q) {val : Moment → Bool}
    (asked : Asked views (withReconnection reconnection).connected inputs outputs val) :
    ∃ value, ∀ d ∈ q.formula.clauses.toList, Clause.holds value d = true := by
  obtain ⟨extends_, _⟩ := query_extends coherent made
  obtain ⟨value, _, met⟩ := extends_.complete val (fun _ => false) (meets_withReconnection reconnection val _) asked
  exact ⟨value, fun d mem => met.clauses d (Array.mem_def.mpr mem)⟩

/-- An equal verdict refutes all that was asked for. -/
theorem not_asked_of_equal (sound : c.oracle.Sound) (coherent : ∀ v ∈ views, v.Coherent)
    (equal : (c.bySolving views reconnection inputs outputs).outcome = .ok .equal) (val : Moment → Bool) :
    ¬Asked views (withReconnection reconnection).connected inputs outputs val := by
  intro asked
  obtain ⟨q, made, verdict⟩ := query_of_bySolving equal
  obtain ⟨value, holds⟩ := exists_model_of_asked coherent made asked
  obtain ⟨clause, mem, fails⟩ := sound _ _ (refuted_of_equal verdict) value
  rw [holds clause mem] at fails
  cases fails

/-- The verdict is equal exactly if there is nothing of what was asked for. -/
theorem bySolving_asked (correct : c.oracle.Correct) (coherent : ∀ v ∈ views, v.Coherent) {q : Query}
    (made : query views reconnection inputs outputs = .ok q) (inRange : q.formula.size ≤ Lit.largestVar + 1) :
    ∃ verdict, (c.bySolving views reconnection inputs outputs).outcome = .ok verdict ∧ (verdict = .equal ↔
      ¬∃ val, Asked views (withReconnection reconnection).connected inputs outputs val) := by
  obtain ⟨extends_, issuedIn, issuedOut⟩ := query_extends coherent made
  obtain ⟨answer, answered⟩ := correct.answers inRange extends_.fit.isBelow
  have outcome := @verdict_of_query c views reconnection inputs outputs q coherent made inRange
  rw [outcome]
  cases answer with
  | none =>
    refine ⟨_, verdict_of_none answered, iff_of_true rfl ?_⟩
    intro asked
    obtain ⟨val, asked⟩ := asked
    exact not_asked_of_equal correct.sound coherent (outcome.trans (verdict_of_none answered)) val asked
  | some m =>
    obtain ⟨size, satisfies⟩ := correct.model answered
    refine ⟨_, verdict_of_some answered size issuedIn issuedOut, iff_of_false ?_ (not_not_intro ?_)⟩
    · intro same
      cases same
    · obtain ⟨val, met⟩ := exists_meets fun d mem => List.all_eq_true.mp satisfies d (Array.mem_def.mp mem)
      obtain ⟨_, asked, _⟩ := extends_.sound val m.value met
      exact ⟨val, asked⟩

end Checker

/-! ## Encodings between the triggers of two netlists -/

/-- The driver of the data input of a gate. -/
def Netlist.data? (net : Netlist) (id : GateId) : Option GateId :=
  (net.gate? id).bind fun g => g.inputs.head?.map Signal.driver

theorem Netlist.data?_eq_some {net : Netlist} {id d : GateId} :
    net.data? id = some d ↔ ∃ g s, net.gate? id = some g ∧ g.inputs.head? = some s ∧ s.driver = d := by
  simp only [data?, Option.bind_eq_some_iff, Option.map_eq_some_iff, exists_and_left]

namespace StateEncoding

/-- The right state is what the encoder gives for the left state. -/
def Encodes (e : StateEncoding) (s r : GateId → Bool) : Prop :=
  ∃ val, e.encoder.view.Valuation val ∧ (∀ x ∈ driverPairs e.leftToEncoder, val x.2 = s x.1) ∧
    ∀ x ∈ driverPairs e.rightFromEncoder, r x.1 = val x.2

/-- The left state is what the decoder gives for the right state. -/
def Decodes (e : StateEncoding) (r s : GateId → Bool) : Prop :=
  ∃ val, e.decoder.view.Valuation val ∧ (∀ x ∈ driverPairs e.rightToDecoder, val x.2 = r x.1) ∧
    ∀ x ∈ driverPairs e.leftFromDecoder, s x.1 = val x.2

/-- Every trigger of a netlist feeds a source of another one, and no two feed the same driver. -/
structure Attached (b : Binding) (net other : Netlist) : Prop where
  keys : ∀ l, l ∈ b ↔ net.IsTriggerPort l
  sources : ∀ {l r : Link}, b[l]? = some r → r ∈ other.sources
  apart : ∀ x ∈ driverPairs b, ∀ y ∈ driverPairs b, x.2 = y.2 → x.1 = y.1

/-- Encoder and decoder are circuits, bound to all triggers of the two netlists. -/
structure Between (e : StateEncoding) (left right : Netlist) : Prop where
  encoder : e.encoder.view.Circuit
  decoder : e.decoder.view.Circuit
  leftToEncoder : Attached e.leftToEncoder left e.encoder
  rightToDecoder : Attached e.rightToDecoder right e.decoder
  leftFromDecoder : ∀ l, l ∈ e.leftFromDecoder ↔ left.IsTriggerPort l
  rightFromEncoder : ∀ l, l ∈ e.rightFromEncoder ↔ right.IsTriggerPort l

end StateEncoding

theorem mem_driverPairs_of_mem {b : Binding} {l : Link} (mem : l ∈ b) : ∃ x ∈ driverPairs b, x.1 = l.source := by
  obtain ⟨r, found⟩ := exists_value mem
  exact ⟨_, mem_driverPairs.mpr ⟨l, r, found, rfl⟩, rfl⟩

theorem exists_mem_driverPairs {b : Binding} {P : GateId × GateId → Prop} :
    (∃ x ∈ driverPairs b, P x) ↔ ∃ x ∈ b.toList, P (x.1.source, x.2.source) := by
  simp only [driverPairs, List.mem_eraseDups, List.mem_map]
  constructor
  · rintro ⟨_, ⟨x, mem, rfl⟩, holds⟩
    exact ⟨x, mem, holds⟩
  · rintro ⟨x, mem, holds⟩
    exact ⟨_, ⟨x, mem, rfl⟩, holds⟩

/-- If all triggers are bound, the drivers on the left are the triggers. -/
theorem exists_pair_iff {b : Binding} {net : Netlist} (keys : ∀ l, l ∈ b ↔ net.IsTriggerPort l) {id : GateId} :
    (∃ x ∈ driverPairs b, x.1 = id) ↔ id ∈ net.top.triggers := by
  constructor
  · intro pair
    obtain ⟨x, mem, rfl⟩ := pair
    obtain ⟨l, r, found, rfl⟩ := mem_driverPairs.mp mem
    obtain ⟨t, trigger, rfl⟩ := (keys l).mp (mem_of_getElem? found)
    exact trigger
  · intro trigger
    exact mem_driverPairs_of_mem ((keys (.port id)).mpr ⟨id, trigger, rfl⟩)

/-- A binding of all triggers gives each of them one driver. -/
theorem functional_of_triggers {b : Binding} {net : Netlist} (keys : ∀ l, l ∈ b ↔ net.IsTriggerPort l) :
    ∀ x ∈ driverPairs b, ∀ y ∈ driverPairs b, x.1 = y.1 → x.2 = y.2 := by
  intro x hx y hy
  refine driverPairs_functional (unshared_of_ports fun l mem => ?_) hx hy
  obtain ⟨t, _, rfl⟩ := (keys l).mp mem
  rfl

/-- A trigger has a data input. -/
theorem Netlist.Clocked.exists_data {net : Netlist} (h : net.Clocked) {id : GateId} (trigger : id ∈ net.top.triggers) :
    ∃ d, net.data? id = some d := by
  obtain ⟨g, found, isTrigger⟩ := h.mem_triggers.mp trigger
  cases inputs : g.inputs with
  | nil => simp [Shape.isTrigger, inputs] at isTrigger
  | cons s rest => exact ⟨s.driver, by simp [Netlist.data?, found, inputs]⟩

/-- Values of gates, read at the drivers that they are bound to. -/
theorem exists_assignment {pairs : List (GateId × GateId)} (apart : ∀ x ∈ pairs, ∀ y ∈ pairs, x.2 = y.2 → x.1 = y.1)
    (s : GateId → Bool) : ∃ given : GateId → Bool, ∀ x ∈ pairs, given x.2 = s x.1 := by
  refine ⟨fun id => ((pairs.find? fun x => x.2 == id).map fun x => s x.1).getD false, fun x mem => ?_⟩
  cases found : pairs.find? fun y => y.2 == x.2 with
  | none => exact absurd (beq_self_eq_true x.2) (List.find?_eq_none.mp found x mem)
  | some y =>
    have same : (y.2 == x.2) = true := List.find?_some (p := fun y : GateId × GateId => y.2 == x.2) found
    simp only [found, Option.map_some, Option.getD_some]
    rw [apart y (List.mem_of_find?_eq_some found) x mem (eq_of_beq same)]

/-- What is attached to a circuit can be given any values. -/
theorem StateEncoding.Attached.exists_valuation {b : Binding} {net other : Netlist} (h : Attached b net other)
    (circuit : other.view.Circuit) (s : GateId → Bool) :
    ∃ val, other.view.Valuation val ∧ ∀ x ∈ driverPairs b, val x.2 = s x.1 := by
  obtain ⟨given, values⟩ := exists_assignment h.apart s
  obtain ⟨val, valuation, fed⟩ := circuit.exists_valuation given
  refine ⟨val, valuation, fun x mem => ?_⟩
  rw [← values x mem]
  obtain ⟨l, r, found, rfl⟩ := mem_driverPairs.mp mem
  exact fed r (h.sources found)

/-- Every right state decodes to a left state. -/
theorem StateEncoding.Between.exists_decodes {e : StateEncoding} {left right : Netlist} (h : e.Between left right)
    (r : GateId → Bool) : ∃ s, e.Decodes r s := by
  obtain ⟨vd, valuation, fed⟩ := h.rightToDecoder.exists_valuation h.decoder r
  let outputs := (driverPairs e.leftFromDecoder).map fun x => (x.2, x.1)
  obtain ⟨s, values⟩ := @exists_assignment outputs (by
    intro x hx y hy same
    obtain ⟨x', memX, rfl⟩ := List.mem_map.mp hx
    obtain ⟨y', memY, rfl⟩ := List.mem_map.mp hy
    exact functional_of_triggers h.leftFromDecoder x' memX y' memY same) vd
  exact ⟨s, vd, valuation, fed, fun x mem => values _ (List.mem_map_of_mem mem)⟩

/-! ## The reconnection -/

namespace Checker

open Formula

/-- Entries added one after the other. -/
def insertAll (m : Reconnection) (xs : List (Site × Site)) : Reconnection :=
  xs.foldl (fun m x => m.insert x.1 x.2) m

/-- Entries that do not contradict each other are all found, and hide older ones only. -/
theorem getElem?_insertAll {m : Reconnection} {xs : List (Site × Site)}
    (functional : ∀ x ∈ xs, ∀ y ∈ xs, x.1 = y.1 → x.2 = y.2) {k v : Site} :
    (insertAll m xs)[k]? = some v ↔ (k, v) ∈ xs ∨ (∀ x ∈ xs, x.1 ≠ k) ∧ m[k]? = some v := by
  induction xs generalizing m with
  | nil => simp [insertAll]
  | cons x xs ih =>
    have later : ∀ y ∈ xs, ∀ z ∈ xs, y.1 = z.1 → y.2 = z.2 := fun y hy z hz =>
      functional y (List.mem_cons_of_mem x hy) z (List.mem_cons_of_mem x hz)
    rw [insertAll, List.foldl_cons, ← insertAll, ih later, TreeMap.getElem?_insert]
    simp only [LawfulEqCmp.compare_eq_iff_eq, List.forall_mem_cons]
    rw [List.mem_cons]
    constructor
    · rintro (old | ⟨away, found⟩)
      · exact .inl (.inr old)
      · split at found
        · next same => exact .inl (.inl (Prod.ext same.symm (Option.some.inj found).symm))
        · next other => exact .inr ⟨⟨other, away⟩, found⟩
    · rintro ((rfl | old) | ⟨⟨other, away⟩, found⟩)
      · by_cases again : ∃ y ∈ xs, y.1 = k
        · obtain ⟨y, mem, same⟩ := again
          have value := functional _ List.mem_cons_self y (List.mem_cons_of_mem _ mem) same.symm
          refine .inl ?_
          rw [show (k, v) = y from Prod.ext same.symm value]
          exact mem
        · exact .inr ⟨fun y mem same => again ⟨y, mem, same⟩, by simp⟩
      · exact .inl old
      · exact .inr ⟨away, by rw [if_neg other]; exact found⟩

theorem dataDriver_eq_ok {net : Netlist} {l : Link} {d : GateId} :
    dataDriver net.view l = .ok d ↔ net.data? l.source = some d := by
  rw [Netlist.data?_eq_some]
  constructor
  · intro made
    obtain ⟨g, found, made⟩ := Result.bind_eq_ok.mp made
    obtain ⟨s, first, made⟩ := Result.bind_eq_ok.mp made
    cases made
    exact ⟨g, s, Netlist.gate_eq_ok.mp found, Result.getOrBreach_eq_ok.mp first, rfl⟩
  · intro data
    obtain ⟨g, s, here, first, rfl⟩ := data
    exact Result.bind_eq_ok.mpr ⟨g, Netlist.gate_eq_ok.mpr here,
      Result.bind_eq_ok.mpr ⟨s, Result.getOrBreach_eq_ok.mpr first, rfl⟩⟩

/-- The entries that lead from encoder inputs to the data of left triggers. -/
theorem nextEntries_eq_ok {net : Netlist} {pairs : List (Link × Link)} {m m' : Reconnection}
    (made : pairs.foldlM (fun (m : Reconnection) (l, port) => do
      return m.insert ⟨2, port.source⟩ ⟨0, ← dataDriver net.view l⟩) m = .ok m') :
    ∃ xs, m' = insertAll m xs ∧ (∀ x ∈ pairs, ∃ d, net.data? x.1.source = some d) ∧
      ∀ k v, (k, v) ∈ xs ↔ ∃ x ∈ pairs, ∃ d, net.data? x.1.source = some d ∧ k = ⟨2, x.2.source⟩ ∧ v = ⟨0, d⟩ := by
  induction pairs generalizing m with
  | nil =>
    cases made
    exact ⟨[], rfl, by simp, by simp⟩
  | cons x pairs ih =>
    rw [List.foldlM_cons] at made
    obtain ⟨m₁, first, made⟩ := Result.bind_eq_ok.mp made
    obtain ⟨d, data, first⟩ := Result.bind_eq_ok.mp first
    cases first
    have data := dataDriver_eq_ok.mp data
    obtain ⟨xs, rfl, known, members⟩ := ih made
    refine ⟨(⟨2, x.2.source⟩, ⟨0, d⟩) :: xs, rfl, List.forall_mem_cons.mpr ⟨⟨d, data⟩, known⟩, fun k v => ?_⟩
    simp only [List.mem_cons, members, Prod.mk.injEq, exists_eq_or_imp, data, Option.some.injEq,
      exists_eq_left']

theorem exists_nextEntries {net : Netlist} {pairs : List (Link × Link)}
    (known : ∀ x ∈ pairs, ∃ d, net.data? x.1.source = some d) (m : Reconnection) :
    ∃ m', pairs.foldlM (fun (m : Reconnection) (l, port) => do
      return m.insert ⟨2, port.source⟩ ⟨0, ← dataDriver net.view l⟩) m = .ok m' := by
  refine Result.exists_foldlM (fun x mem m => ?_) m
  obtain ⟨d, data⟩ := known x mem
  exact ⟨_, Result.bind_eq_ok.mpr ⟨d, dataDriver_eq_ok.mpr data, rfl⟩⟩

/-- Every left trigger that is bound to the encoder has data. -/
theorem data_of_reconnect {net : Netlist} {e : StateEncoding} {m : Reconnection} (made : reconnect net.view e = .ok m) :
    ∀ x ∈ driverPairs e.leftToEncoder, ∃ d, net.data? x.1 = some d := by
  obtain ⟨_, nexts, _⟩ := Result.bind_eq_ok.mp made
  obtain ⟨_, _, known, _⟩ := nextEntries_eq_ok nexts
  intro x mem
  obtain ⟨l, r, found, rfl⟩ := mem_driverPairs.mp mem
  exact known (l, r) (TreeMap.mem_toList_iff_getElem?_eq_some.mpr found)

section Reconnection

variable {left right : Netlist} {e : StateEncoding} (between : e.Between left right)
include between

/-- The reconnection leads from left triggers to decoder outputs and from encoder inputs to the data of left
triggers, and from nowhere else. -/
theorem getElem?_reconnect {m : Reconnection} (made : reconnect left.view e = .ok m) {k v : Site} :
    m[k]? = some v ↔ (∃ x ∈ driverPairs e.leftFromDecoder, k = ⟨0, x.1⟩ ∧ v = ⟨3, x.2⟩) ∨
      ∃ x ∈ driverPairs e.leftToEncoder, ∃ d, left.data? x.1 = some d ∧ k = ⟨2, x.2⟩ ∧ v = ⟨0, d⟩ := by
  obtain ⟨m₁, nexts, made⟩ := Result.bind_eq_ok.mp made
  cases made
  obtain ⟨xs, rfl, _, members⟩ := nextEntries_eq_ok nexts
  have nextMembers : ∀ k v, (k, v) ∈ xs ↔
      ∃ x ∈ driverPairs e.leftToEncoder, ∃ d, left.data? x.1 = some d ∧ k = ⟨2, x.2⟩ ∧ v = ⟨0, d⟩ := by
    intro k v
    rw [members, exists_mem_driverPairs]
  let states := e.leftFromDecoder.toList.map fun x => ((⟨0, x.1.source⟩ : Site), (⟨3, x.2.source⟩ : Site))
  have stateMembers : ∀ k v, (k, v) ∈ states ↔
      ∃ x ∈ driverPairs e.leftFromDecoder, k = ⟨0, x.1⟩ ∧ v = ⟨3, x.2⟩ := by
    intro k v
    rw [exists_mem_driverPairs, List.mem_map]
    simp only [Prod.mk.injEq, eq_comm]
  have entries : e.leftFromDecoder.toList.foldl (fun m (l, port) => m.insert ⟨0, l.source⟩ ⟨3, port.source⟩)
      (insertAll {} xs) = insertAll (insertAll {} xs) states := by
    show _ = (e.leftFromDecoder.toList.map _).foldl _ _
    rw [List.foldl_map]
  -- Neither kind of entry contradicts itself: a trigger has one output, and no two triggers feed one input.
  have stateFunctional : ∀ x ∈ states, ∀ y ∈ states, x.1 = y.1 → x.2 = y.2 := by
    rintro ⟨k, v⟩ hx ⟨k', v'⟩ hy same
    obtain ⟨x, memX, rfl, rfl⟩ := (stateMembers k v).mp hx
    obtain ⟨y, memY, rfl, rfl⟩ := (stateMembers k' v').mp hy
    have driver : x.1 = y.1 := congrArg Site.gate same
    show (⟨3, x.2⟩ : Site) = ⟨3, y.2⟩
    rw [functional_of_triggers between.leftFromDecoder x memX y memY driver]
  have nextFunctional : ∀ x ∈ xs, ∀ y ∈ xs, x.1 = y.1 → x.2 = y.2 := by
    rintro ⟨k, v⟩ hx ⟨k', v'⟩ hy same
    obtain ⟨x, memX, d, data, rfl, rfl⟩ := (nextMembers k v).mp hx
    obtain ⟨y, memY, d', data', rfl, rfl⟩ := (nextMembers k' v').mp hy
    have driver : x.2 = y.2 := congrArg Site.gate same
    rw [between.leftToEncoder.apart x memX y memY driver, data'] at data
    cases data
    rfl
  rw [entries, getElem?_insertAll stateFunctional, getElem?_insertAll nextFunctional, stateMembers, nextMembers]
  refine or_congr_right ⟨?_, fun next => ⟨?_, .inl next⟩⟩
  · rintro ⟨_, next | ⟨_, found⟩⟩
    · exact next
    · simp at found
  · rintro ⟨k', v'⟩ mem same
    obtain ⟨x, _, rfl, _⟩ := (stateMembers k' v').mp mem
    obtain ⟨y, _, d, _, rfl, _⟩ := next
    cases same

/-- Where the reconnection leads the gates of the four netlists. -/
structure Placed (left : Netlist) (e : StateEncoding) (place : Site → Site) : Prop where
  state : ∀ x ∈ driverPairs e.leftFromDecoder, place ⟨0, x.1⟩ = ⟨3, x.2⟩
  other : ∀ id, (∀ x ∈ driverPairs e.leftFromDecoder, x.1 ≠ id) → place ⟨0, id⟩ = ⟨0, id⟩
  right : ∀ id, place ⟨1, id⟩ = ⟨1, id⟩
  next : ∀ x ∈ driverPairs e.leftToEncoder, ∃ d, left.data? x.1 = some d ∧ place ⟨2, x.2⟩ = ⟨0, d⟩
  inner : ∀ id, (∀ x ∈ driverPairs e.leftToEncoder, x.2 ≠ id) → place ⟨2, id⟩ = ⟨2, id⟩
  decoder : ∀ id, place ⟨3, id⟩ = ⟨3, id⟩

theorem placed_reconnect {m : Reconnection} (made : reconnect left.view e = .ok m) :
    Placed left e (withReconnection m).connected := by
  have found : ∀ {k v}, m[k]? = some v → (withReconnection m).connected k = v := by
    intro k v found
    rw [Formula.connected, withReconnection, TreeMap.getD_eq_getD_getElem?, found, Option.getD_some]
  have missing : ∀ {k}, (∀ v, m[k]? ≠ some v) → (withReconnection m).connected k = k := by
    intro k missing
    rw [Formula.connected, withReconnection, TreeMap.getD_eq_getD_getElem?,
      Option.eq_none_iff_forall_ne_some.mpr missing, Option.getD_none]
  constructor
  case state =>
    intro x mem
    exact found ((getElem?_reconnect between made).mpr (.inl ⟨x, mem, rfl, rfl⟩))
  case next =>
    intro x mem
    obtain ⟨d, data⟩ := data_of_reconnect made x mem
    exact ⟨d, data, found ((getElem?_reconnect between made).mpr (.inr ⟨x, mem, d, data, rfl, rfl⟩))⟩
  case other =>
    refine fun id away => missing fun v here => ?_
    rcases (getElem?_reconnect between made).mp here with ⟨x, mem, same, _⟩ | ⟨x, _, d, _, same, _⟩
    · cases same
      exact away x mem rfl
    · cases same
  case inner =>
    refine fun id away => missing fun v here => ?_
    rcases (getElem?_reconnect between made).mp here with ⟨x, _, same, _⟩ | ⟨x, mem, d, _, same, _⟩
    · cases same
    · cases same
      exact away x mem rfl
  all_goals
    refine fun id => missing fun v here => ?_
    rcases (getElem?_reconnect between made).mp here with ⟨x, _, same, _⟩ | ⟨x, _, d, _, same, _⟩ <;> cases same

omit between in
theorem mem_states {p : SitePair} :
    p ∈ states e ↔ ∃ x ∈ driverPairs e.rightToDecoder, p = (⟨3, x.2⟩, ⟨1, x.1⟩) := by
  rw [states, List.mem_map, exists_mem_driverPairs]
  simp only [eq_comm]

omit between in
theorem mem_nextStates {next : List SitePair} (made : nextStates right.view e = .ok next) {p : SitePair} :
    p ∈ next ↔ ∃ x ∈ driverPairs e.rightFromEncoder, ∃ d, right.data? x.1 = some d ∧ p = (⟨2, x.2⟩, ⟨1, d⟩) := by
  obtain ⟨length, each⟩ := Result.mapM_eq_ok made
  have entry : ∀ {l r : Link} {q : SitePair},
      (do return ((⟨2, r.source⟩ : Site), (⟨1, ← dataDriver right.view l⟩ : Site)) : Result SitePair) = .ok q →
        ∃ d, right.data? l.source = some d ∧ q = (⟨2, r.source⟩, ⟨1, d⟩) := by
    intro l r q made
    obtain ⟨d, data, made⟩ := Result.bind_eq_ok.mp made
    cases made
    exact ⟨d, dataDriver_eq_ok.mp data, rfl⟩
  constructor
  · intro mem
    obtain ⟨i, here⟩ := List.mem_iff_getElem?.mp mem
    have lt : i < e.rightFromEncoder.toList.length := length ▸ (List.getElem?_eq_some_iff.mp here).1
    obtain ⟨q, there, made⟩ := each i _ (List.getElem?_eq_getElem lt)
    obtain rfl : p = q := Option.some.inj (here.symm.trans there)
    obtain ⟨d, data, same⟩ := entry made
    have found := TreeMap.mem_toList_iff_getElem?_eq_some.mp (List.getElem_mem lt)
    exact ⟨_, mem_driverPairs.mpr ⟨_, _, found, rfl⟩, d, data, same⟩
  · rintro ⟨_, mem, d, data, rfl⟩
    obtain ⟨l, r, found, rfl⟩ := mem_driverPairs.mp mem
    obtain ⟨i, here⟩ := List.mem_iff_getElem?.mp (TreeMap.mem_toList_iff_getElem?_eq_some.mpr found)
    obtain ⟨q, there, made⟩ := each i _ here
    obtain ⟨d', data', rfl⟩ := entry made
    rw [data] at data'
    cases data'
    exact List.mem_of_getElem? there

end Reconnection

/-! ## What is asked -/

/-- Valuations of the four views that fit together, with equal sources. The encoder reads the loose values of the
data of left triggers, and these are the values on the left except where the data is itself a trigger. -/
structure Glued (left right : Netlist) (sources : Binding) (e : StateEncoding) (vl vr ve vd loose : GateId → Bool) :
    Prop where
  valueLeft : left.view.Valuation vl
  valueRight : right.view.Valuation vr
  encoder : e.encoder.view.Valuation ve
  decoder : e.decoder.view.Valuation vd
  fed : Together (driverPairs sources) vl vr
  stateRight : ∀ x ∈ driverPairs e.rightToDecoder, vd x.2 = vr x.1
  stateLeft : ∀ x ∈ driverPairs e.leftFromDecoder, vl x.1 = vd x.2
  next : ∀ x ∈ driverPairs e.leftToEncoder, ∀ d, left.data? x.1 = some d → ve x.2 = loose d
  tight : ∀ id, id ∉ left.top.triggers → loose id = vl id

/-- Some bound target differs, or some next state on the right is not what the encoder gives. -/
def Differ (right : Netlist) (targets : Binding) (e : StateEncoding) (vl vr ve : GateId → Bool) : Prop :=
  (∃ x ∈ driverPairs targets, vl x.1 ≠ vr x.2) ∨
    ∃ x ∈ driverPairs e.rightFromEncoder, ∃ d, right.data? x.1 = some d ∧ ve x.2 ≠ vr d

/-- The values of the four netlists of a query. -/
def valueOf (loose vr ve vd : GateId → Bool) (key : Moment) : Bool :=
  match key.site.net with
  | 0 => loose key.site.gate
  | 1 => vr key.site.gate
  | 2 => ve key.site.gate
  | _ => vd key.site.gate

section Asked

variable {left right : Netlist} {sources targets : Binding} {e : StateEncoding} {place : Site → Site}
  {next : List SitePair}

/-- The views of a query through an encoding. -/
abbrev encodingViews (left right : Netlist) (e : StateEncoding) : List View :=
  [left.view, right.view, e.encoder.view, e.decoder.view]

variable (between : e.Between left right) (placed : Placed left e place)
include between

/-- A trigger on the left takes its state from the decoder. -/
theorem mem_triggers_iff {id : GateId} : id ∈ left.top.triggers ↔ ∃ x ∈ driverPairs e.leftFromDecoder, x.1 = id :=
  (exists_pair_iff between.leftFromDecoder).symm

include placed

/-- Read where a query places them, values that fit together are those of the four netlists. -/
theorem valueOf_placed {vl vr ve vd loose : GateId → Bool} (glued : Glued left right sources e vl vr ve vd loose) :
    (fun id => valueOf loose vr ve vd ⟨place ⟨0, id⟩, 0⟩) = vl ∧
      (fun id => valueOf loose vr ve vd ⟨place ⟨1, id⟩, 0⟩) = vr ∧
      (fun id => valueOf loose vr ve vd ⟨place ⟨2, id⟩, 0⟩) = ve ∧
      (fun id => valueOf loose vr ve vd ⟨place ⟨3, id⟩, 0⟩) = vd := by
  refine ⟨funext fun id => ?left, funext fun id => ?right, funext fun id => ?encoder, funext fun id => ?decoder⟩
  case left =>
    by_cases trigger : id ∈ left.top.triggers
    · obtain ⟨x, bound, rfl⟩ := (mem_triggers_iff between).mp trigger
      rw [placed.state x bound]
      exact (glued.stateLeft x bound).symm
    · rw [placed.other id fun x bound same => trigger ((mem_triggers_iff between).mpr ⟨x, bound, same⟩)]
      exact glued.tight id trigger
  case right =>
    rw [placed.right]
    rfl
  case encoder =>
    by_cases bound : ∃ x ∈ driverPairs e.leftToEncoder, x.2 = id
    · obtain ⟨x, bound, rfl⟩ := bound
      obtain ⟨d, data, here⟩ := placed.next x bound
      rw [here]
      exact (glued.next x bound d data).symm
    · rw [placed.inner id fun x mem same => bound ⟨x, mem, same⟩]
      rfl
  case decoder =>
    rw [placed.decoder]
    rfl

/-- What is asked for fits together. -/
theorem glued_of_asked {outputs : List SitePair} {val : Moment → Bool}
    (asked : Asked (encodingViews left right e) place (sitePairs sources 0 1 ++ states e) outputs val) :
    Glued left right sources e (fun id => val ⟨place ⟨0, id⟩, 0⟩) (fun id => val ⟨place ⟨1, id⟩, 0⟩)
      (fun id => val ⟨place ⟨2, id⟩, 0⟩) (fun id => val ⟨place ⟨3, id⟩, 0⟩) fun id => val ⟨⟨0, id⟩, 0⟩ := by
  obtain ⟨valuations, agree, _⟩ := asked
  constructor
  case valueLeft => exact valuations (left.view, 0) (by simp)
  case valueRight => exact valuations (right.view, 1) (by simp)
  case encoder => exact valuations (e.encoder.view, 2) (by simp)
  case decoder => exact valuations (e.decoder.view, 3) (by simp)
  case fed =>
    intro x source
    exact agree _ (List.mem_append_left _ (List.mem_map_of_mem source))
  case stateRight =>
    intro x bound
    exact agree (⟨3, x.2⟩, ⟨1, x.1⟩) (List.mem_append_right _ (mem_states.mpr ⟨x, bound, rfl⟩))
  case stateLeft =>
    intro x bound
    rw [placed.state x bound, placed.decoder]
  case next =>
    intro x bound d data
    obtain ⟨d', data', here⟩ := placed.next x bound
    obtain rfl : d = d' := Option.some.inj (data.symm.trans data')
    rw [here]
  case tight =>
    intro id away
    rw [placed.other id fun x bound same => away ((mem_triggers_iff between).mpr ⟨x, bound, same⟩)]

/-- What a query through an encoding asks for: valuations that fit together and differ. -/
theorem asked_encoding_iff (nexts : nextStates right.view e = .ok next) :
    (∃ val, Asked (encodingViews left right e) place (sitePairs sources 0 1 ++ states e)
      (sitePairs targets 0 1 ++ next) val) ↔
    ∃ vl vr ve vd loose, Glued left right sources e vl vr ve vd loose ∧ Differ right targets e vl vr ve := by
  constructor
  · rintro ⟨val, asked⟩
    refine ⟨_, _, _, _, _, glued_of_asked between placed asked, ?_⟩
    obtain ⟨_, _, p, mem, differ⟩ := asked
    rcases List.mem_append.mp mem with target | state
    · obtain ⟨x, read, rfl⟩ := List.mem_map.mp target
      exact .inl ⟨x, read, differ⟩
    · obtain ⟨x, bound, d, data, rfl⟩ := (mem_nextStates nexts).mp state
      exact .inr ⟨x, bound, d, data, differ⟩
  · rintro ⟨vl, vr, ve, vd, loose, glued, differ⟩
    obtain ⟨atLeft, atRight, atEncoder, atDecoder⟩ := valueOf_placed between placed glued
    refine ⟨valueOf loose vr ve vd, ?_, ?_, ?_⟩
    · simp only [encodingViews, List.zipIdx_cons, List.zipIdx_nil, List.forall_mem_cons, Nat.zero_add, atLeft, atRight,
        atEncoder, atDecoder]
      exact ⟨glued.valueLeft, glued.valueRight, glued.encoder, glued.decoder, by simp⟩
    · intro p mem
      rcases List.mem_append.mp mem with source | state
      · obtain ⟨x, read, rfl⟩ := List.mem_map.mp source
        exact (congrFun atLeft x.1).trans ((glued.fed x read).trans (congrFun atRight x.2).symm)
      · obtain ⟨x, bound, rfl⟩ := mem_states.mp state
        exact (congrFun atDecoder x.2).trans ((glued.stateRight x bound).trans (congrFun atRight x.1).symm)
    · rcases differ with ⟨x, read, differ⟩ | ⟨x, bound, d, data, differ⟩
      · refine ⟨_, List.mem_append_left _ (List.mem_map_of_mem read), fun same => differ ?_⟩
        exact (congrFun atLeft x.1).symm.trans (same.trans (congrFun atRight x.2))
      · refine ⟨_, List.mem_append_right _ ((mem_nextStates nexts).mpr ⟨x, bound, d, data, rfl⟩), fun same => differ ?_⟩
        exact (congrFun atEncoder x.2).symm.trans (same.trans (congrFun atRight d))

end Asked

end Checker

end LogicNet
