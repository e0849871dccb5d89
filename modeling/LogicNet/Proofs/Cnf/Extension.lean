import LogicNet.Cnf.Formula

/-!
# What is added to a formula

A formula says something about the values of its variables, and about the values of the gates that it
has variables for. It is MET by a pair of both when all clauses are true and the variable of a gate
has the gate's value.

A formula only grows. How much it grows is said from two sides: whatever meets the larger formula meets
the smaller one and has what the extension `gives`; and whatever meets the smaller one and has what the
extension `needs` meets the larger one after a change of NEW variables only. A rule that needs and
gives the same equation adds this equation and nothing else, however many variables of its own it takes.
A rule that needs nothing defines its variables. No extension leaves a choice for a new variable.

**The law of composition** is `Extends.trans`. The second step may need what the first one gave.
-/

namespace LogicNet

open Std

/-- Equal values for the variables handed out so far. -/
def AgreeBelow (n : Nat) (value value' : Nat → Bool) : Prop := ∀ v < n, value v = value' v

theorem AgreeBelow.trans {n m : Nat} {value value' value'' : Nat → Bool} (h : AgreeBelow n value value')
    (le : n ≤ m) (h' : AgreeBelow m value' value'') : AgreeBelow n value value'' :=
  fun v lt => (h v lt).trans (h' v (Nat.lt_of_lt_of_le lt le))

theorem AgreeBelow.succ {n : Nat} {value value' : Nat → Bool} (h : AgreeBelow n value value') (last : value n = value' n) :
    AgreeBelow (n + 1) value value' := by
  intro v lt
  rcases Nat.lt_succ_iff_lt_or_eq.mp lt with before | rfl
  · exact h v before
  · exact last

theorem AgreeBelow.map_eq {n : Nat} {value value' : Nat → Bool} (h : AgreeBelow n value value') {xs : List Nat}
    (below : ∀ x ∈ xs, x < n) : xs.map value = xs.map value' :=
  List.map_congr_left fun x mem => h x (below x mem)

theorem Clause.holds_congr {c : Clause} {n : Nat} {value value' : Nat → Bool} (below : ∀ l ∈ c, l.var < n)
    (agree : AgreeBelow n value value') (h : c.holds value = true) : c.holds value' = true := by
  obtain ⟨l, mem, holds⟩ := List.any_eq_true.mp h
  refine List.any_eq_true.mpr ⟨l, mem, ?_⟩
  rw [Lit.holds, ← agree l.var (below l mem)]
  exact holds

namespace Formula

/-- What the formula mentions has been handed out. -/
structure Fit (f : Formula) : Prop where
  interned : ∀ {key : Moment} {v : Nat}, f.vars[key]? = some v → v < f.size
  closed : ∀ c ∈ f.clauses, ∀ l ∈ c, l.var < f.size

/-- The clauses are true, and interned variables have the values of their gates. -/
structure Meets (f : Formula) (val : Moment → Bool) (value : Nat → Bool) : Prop where
  clauses : ∀ c ∈ f.clauses, Clause.holds value c = true
  interned : ∀ {key : Moment} {v : Nat}, f.vars[key]? = some v → value v = val key

variable {f f' f'' : Formula}

/-- An oracle can be asked about the clauses. -/
theorem Fit.isBelow (fit : f.Fit) : ∀ c ∈ f.clauses.toList, c.isBelow f.size = true := by
  intro c mem
  refine List.all_eq_true.mpr fun l inside => decide_eq_true ?_
  exact fit.closed c (Array.mem_def.mpr mem) l inside

theorem Meets.congr (fit : f.Fit) {val : Moment → Bool} {value value' : Nat → Bool} (h : f.Meets val value)
    (agree : AgreeBelow f.size value value') : f.Meets val value' where
  clauses c mem := Clause.holds_congr (fit.closed c mem) agree (h.clauses c mem)
  interned found := (agree _ (fit.interned found)).symm.trans (h.interned found)

/-- The values of gates under an assignment of their variables. -/
def reading (f : Formula) (value : Nat → Bool) (key : Moment) : Bool := f.vars[key]?.any value

theorem reading_of_some {key : Moment} {v : Nat} (found : f.vars[key]? = some v) (value : Nat → Bool) :
    f.reading value key = value v := by
  rw [reading, found]
  rfl

theorem meets_reading {value : Nat → Bool} (clauses : ∀ c ∈ f.clauses, Clause.holds value c = true) :
    f.Meets (f.reading value) value := ⟨clauses, fun found => (reading_of_some found value).symm⟩

/-- An assignment that makes the clauses true is met by some values of the gates. -/
theorem exists_meets {value : Nat → Bool} (clauses : ∀ c ∈ f.clauses, Clause.holds value c = true) :
    ∃ val, f.Meets val value := ⟨_, meets_reading clauses⟩

/-- About the values of gates and of variables. -/
abbrev Condition := (Moment → Bool) → (Nat → Bool) → Prop

/-- `f'` is `f` with more variables and clauses, which are met as far as the two conditions say. -/
structure Extends (f f' : Formula) (needs gives : Condition) : Prop where
  size_le : f.size ≤ f'.size
  reconnection_eq : f'.reconnection = f.reconnection
  vars_le : ∀ {key : Moment} {v : Nat}, f.vars[key]? = some v → f'.vars[key]? = some v
  fit : f'.Fit
  sound : ∀ val value, f'.Meets val value → f.Meets val value ∧ gives val value
  complete : ∀ val value, f.Meets val value → needs val value →
    ∃ value', AgreeBelow f.size value value' ∧ f'.Meets val value'
  unique : ∀ val value value', f'.Meets val value → f'.Meets val value' → AgreeBelow f.size value value' →
    AgreeBelow f'.size value value'

/-- The extension needs and gives the same. -/
abbrev Adds (f f' : Formula) (condition : Condition) : Prop := Extends f f' condition condition

/-- The extension needs nothing. -/
abbrev Defines (f f' : Formula) (gives : Condition) : Prop := Extends f f' (fun _ _ => True) gives

theorem Extends.refl (fit : f.Fit) : Defines f f fun _ _ => True where
  size_le := Nat.le_refl _
  reconnection_eq := rfl
  vars_le known := known
  fit := fit
  sound _ _ met := ⟨met, trivial⟩
  complete _ value met _ := ⟨value, fun _ _ => rfl, met⟩
  unique _ _ _ _ _ agree := agree

theorem Extends.trans {needs₁ gives₁ needs₂ gives₂ needs gives : Condition} (h₁ : Extends f f' needs₁ gives₁)
    (h₂ : Extends f' f'' needs₂ gives₂) (first : ∀ val value, needs val value → needs₁ val value)
    (second : ∀ val value value', needs val value → AgreeBelow f.size value value' → gives₁ val value' →
      needs₂ val value')
    (both : ∀ val value, gives₁ val value → gives₂ val value → gives val value) :
    Extends f f'' needs gives where
  size_le := Nat.le_trans h₁.size_le h₂.size_le
  reconnection_eq := h₂.reconnection_eq.trans h₁.reconnection_eq
  vars_le known := h₂.vars_le (h₁.vars_le known)
  fit := h₂.fit
  sound val value met := by
    obtain ⟨middle, given₂⟩ := h₂.sound val value met
    obtain ⟨start, given₁⟩ := h₁.sound val value middle
    exact ⟨start, both val value given₁ given₂⟩
  complete val value met need := by
    obtain ⟨value', agree, middle⟩ := h₁.complete val value met (first val value need)
    have given := (h₁.sound val value' middle).2
    obtain ⟨value'', agree', last⟩ := h₂.complete val value' middle (second val value value' need agree given)
    exact ⟨value'', agree.trans h₁.size_le agree', last⟩
  unique val value value' met met' agree := by
    have middle := h₁.unique val value value' (h₂.sound val value met).1 (h₂.sound val value' met').1 agree
    exact h₂.unique val value value' met met' middle

theorem Extends.weaken {needs gives needs' gives' : Condition} (h : Extends f f' needs gives)
    (need : ∀ val value, needs' val value → needs val value)
    (give : ∀ val value, gives val value → gives' val value) : Extends f f' needs' gives' where
  size_le := h.size_le
  reconnection_eq := h.reconnection_eq
  vars_le := h.vars_le
  fit := h.fit
  sound val value met := ⟨(h.sound val value met).1, give val value (h.sound val value met).2⟩
  complete val value met needed := h.complete val value met (need val value needed)
  unique := h.unique

/-- Conditions that are the same add the same. -/
theorem Extends.congr {condition condition' : Condition} (h : Adds f f' condition)
    (iff : ∀ val value, condition val value ↔ condition' val value) : Adds f f' condition' :=
  h.weaken (fun val value => (iff val value).mpr) fun val value => (iff val value).mp

/-- One definition after another. -/
theorem Extends.andThen {gives₁ gives₂ : Condition} (h₁ : Defines f f' gives₁) (h₂ : Defines f' f'' gives₂) :
    Defines f f'' fun val value => gives₁ val value ∧ gives₂ val value :=
  h₁.trans h₂ (fun _ _ _ => trivial) (fun _ _ _ _ _ _ => trivial) fun _ _ => And.intro

/-- What the second step needs of gates alone is needed from the start. -/
theorem Extends.both {needs gives₁ gives₂ : Condition} {P : (Moment → Bool) → Prop}
    (h₁ : Extends f f' needs gives₁) (h₂ : Extends f' f'' (fun val _ => P val) gives₂) :
    Extends f f'' (fun val value => needs val value ∧ P val) fun val value => gives₁ val value ∧ gives₂ val value :=
  h₁.trans h₂ (fun _ _ => And.left) (fun _ _ _ holds _ _ => holds.2) fun _ _ => And.intro

/-- A condition on variables just defined is added as the condition it amounts to on the old ones, and the
definitions stay. -/
theorem Extends.constrain {gives C C' : Condition} (h₁ : Defines f f' gives)
    (h₂ : Adds f' f'' C')
    (iff : ∀ val value, gives val value → (C' val value ↔ C val value))
    (old : ∀ val value value', AgreeBelow f.size value value' → C val value → C val value') :
    Extends f f'' C fun val value => gives val value ∧ C val value :=
  h₁.trans h₂ (fun _ _ _ => trivial)
    (fun val value value' holds agree given => (iff val value' given).mpr (old val value value' agree holds))
    fun val value given holds => ⟨given, (iff val value given).mp holds⟩

theorem Extends.thenAdds {gives C C' : Condition} (h₁ : Defines f f' gives)
    (h₂ : Adds f' f'' C')
    (iff : ∀ val value, gives val value → (C' val value ↔ C val value))
    (old : ∀ val value value', AgreeBelow f.size value value' → C val value → C val value') :
    Adds f f'' C :=
  (h₁.constrain h₂ iff old).weaken (fun _ _ h => h) fun _ _ h => h.2

/-! ## Clauses -/

@[simp] theorem size_addAll (f : Formula) (cs : List Clause) : (f.addAll cs).size = f.size := by
  unfold addAll
  induction cs generalizing f with
  | nil => rfl
  | cons c cs ih => exact ih (f.add c)

@[simp] theorem vars_addAll (f : Formula) (cs : List Clause) : (f.addAll cs).vars = f.vars := by
  unfold addAll
  induction cs generalizing f with
  | nil => rfl
  | cons c cs ih => exact ih (f.add c)

theorem add_adds (fit : f.Fit) {c : Clause} (below : ∀ l ∈ c, l.var < f.size) :
    Adds f (f.add c) fun _ value => Clause.holds value c = true where
  size_le := Nat.le_refl _
  reconnection_eq := rfl
  vars_le known := known
  fit := by
    refine ⟨fit.interned, fun d mem => ?_⟩
    rcases Array.mem_push.mp mem with old | rfl
    · exact fit.closed d old
    · exact below
  sound val value met :=
    ⟨⟨fun d mem => met.clauses d (Array.mem_push_of_mem c mem), met.interned⟩, met.clauses c Array.mem_push_self⟩
  complete val value met holds := by
    refine ⟨value, fun _ _ => rfl, fun d mem => ?_, met.interned⟩
    rcases Array.mem_push.mp mem with old | rfl
    · exact met.clauses d old
    · exact holds
  unique _ _ _ _ _ agree := agree

theorem addAll_adds (fit : f.Fit) {cs : List Clause} (below : ∀ c ∈ cs, ∀ l ∈ c, l.var < f.size) :
    Adds f (f.addAll cs) fun _ value => ∀ c ∈ cs, Clause.holds value c = true := by
  induction cs generalizing f with
  | nil => exact (Extends.refl fit).weaken (fun _ _ _ => trivial) fun _ _ _ => by simp
  | cons c cs ih =>
    rw [List.forall_mem_cons] at below
    have head := add_adds fit below.1
    refine head.trans (ih head.fit below.2) (fun _ _ all => all c List.mem_cons_self) ?_ ?_
    · intro _ value value' all agree _ d mem
      exact Clause.holds_congr (below.2 d mem) agree (all d (List.mem_cons_of_mem c mem))
    · exact fun _ _ first rest => List.forall_mem_cons.mpr ⟨first, rest⟩

/-! ## Variables -/

theorem Fit.fresh (fit : f.Fit) : f.fresh.2.Fit where
  interned found := Nat.lt_succ_of_lt (fit.interned found)
  closed c mem l inside := Nat.lt_succ_of_lt (fit.closed c mem l inside)

/-- An equation for a new variable, whose other side was there before, defines it. -/
theorem Extends.define {e : (Nat → Bool) → Bool}
    (h : Adds f.fresh.2 f' fun _ value => value f.size = e value) (fit : f.Fit)
    (old : ∀ value value', AgreeBelow f.size value value' → e value = e value') :
    Defines f f' fun _ value => value f.size = e value where
  size_le := Nat.le_of_succ_le h.size_le
  reconnection_eq := h.reconnection_eq
  vars_le := h.vars_le
  fit := h.fit
  sound val value met := by
    obtain ⟨start, equation⟩ := h.sound val value met
    exact ⟨⟨start.clauses, start.interned⟩, equation⟩
  complete val value met _ := by
    let set := fun v => if v = f.size then e value else value v
    have agree : AgreeBelow f.size value set := fun v lt => (if_neg (Nat.ne_of_lt lt)).symm
    have start : f.Meets val set := met.congr fit agree
    obtain ⟨value', agree', last⟩ := h.complete val set ⟨start.clauses, start.interned⟩
      ((if_pos rfl).trans (old value set agree))
    exact ⟨value', agree.trans (Nat.le_succ _) agree', last⟩
  unique val value value' met met' agree := by
    refine h.unique val value value' met met' (agree.succ ?_)
    rw [(h.sound val value met).2, (h.sound val value' met').2]
    exact old value value' agree

theorem var_of_some {s : Site} {version v : Nat} (found : f.vars[(⟨f.connected s, version⟩ : Moment)]? = some v) :
    f.var s version = (v, f) := by
  simp only [var, found]

theorem var_of_none {s : Site} {version : Nat} (missing : f.vars[(⟨f.connected s, version⟩ : Moment)]? = none) :
    f.var s version =
      (f.size, { f with size := f.size + 1, vars := f.vars.insert ⟨f.connected s, version⟩ f.size }) := by
  simp only [var, missing, fresh]

/-- A moment without a variable gets one, and every other moment keeps what it has. -/
theorem getElem?_insert_missing {vars : TreeMap Moment Nat} {key : Moment} (missing : vars[key]? = none) {new : Nat}
    {k : Moment} {v : Nat} : (vars.insert key new)[k]? = some v ↔ k = key ∧ v = new ∨ vars[k]? = some v := by
  rw [TreeMap.getElem?_insert]
  split
  · next same =>
    obtain rfl := LawfulEqOrd.eq_of_compare same
    simp [missing, eq_comm]
  · next other =>
    have apart : k ≠ key := fun eq => other (LawfulEqCmp.compare_eq_iff_eq.mpr eq.symm)
    simp [apart]

/-- From then on the variable that was asked for is in the table. -/
theorem getElem?_vars_var (f : Formula) (s : Site) (version : Nat) :
    (f.var s version).2.vars[(⟨f.connected s, version⟩ : Moment)]? = some (f.var s version).1 := by
  cases found : f.vars[(⟨f.connected s, version⟩ : Moment)]? with
  | some v =>
    rw [var_of_some found]
    exact found
  | none =>
    rw [var_of_none found]
    exact TreeMap.getElem?_insert_self

/-- Asking for the variable of a gate makes it known, and says nothing else. -/
theorem var_defines (fit : f.Fit) (s : Site) (version : Nat) :
    Defines f (f.var s version).2
        (fun val value => value (f.var s version).1 = val ⟨f.connected s, version⟩) ∧
      (f.var s version).1 < (f.var s version).2.size := by
  cases found : f.vars[(⟨f.connected s, version⟩ : Moment)]? with
  | some v =>
    rw [var_of_some found]
    exact ⟨⟨Nat.le_refl _, rfl, id, fit, fun val value met => ⟨met, met.interned found⟩,
      fun val value met _ => ⟨value, fun _ _ => rfl, met⟩, fun _ _ _ _ _ agree => agree⟩, fit.interned found⟩
  | none =>
    rw [var_of_none found]
    generalize (⟨f.connected s, version⟩ : Moment) = key at found ⊢
    have keep {k : Moment} {v : Nat} (known : f.vars[k]? = some v) : (f.vars.insert key f.size)[k]? = some v :=
      (getElem?_insert_missing found).mpr (.inr known)
    refine ⟨⟨Nat.le_succ _, rfl, keep, ⟨?_, fun c mem l inside => Nat.lt_succ_of_lt (fit.closed c mem l inside)⟩, ?_, ?_, ?_⟩,
      Nat.lt_succ_self _⟩
    · intro k v known
      rcases (getElem?_insert_missing found).mp known with ⟨_, rfl⟩ | found
      · exact Nat.lt_succ_self _
      · exact Nat.lt_succ_of_lt (fit.interned found)
    · intro val value met
      exact ⟨⟨met.clauses, fun found => met.interned (keep found)⟩, met.interned TreeMap.getElem?_insert_self⟩
    · intro val value met _
      let set := fun v => if v = f.size then val key else value v
      have agree : AgreeBelow f.size value set := fun v lt => (if_neg (Nat.ne_of_lt lt)).symm
      have start : f.Meets val set := met.congr fit agree
      refine ⟨set, agree, start.clauses, ?_⟩
      intro k v known
      rcases (getElem?_insert_missing found).mp known with ⟨rfl, rfl⟩ | found
      · exact if_pos rfl
      · exact start.interned found
    · intro val value value' met met' agree
      have own := TreeMap.getElem?_insert_self (t := f.vars) (k := key) (v := f.size)
      exact agree.succ ((met.interned own).trans (met'.interned own).symm)

theorem connected_congr (h : f'.reconnection = f.reconnection) : f'.connected = f.connected := by
  funext s
  rw [connected, connected, h]

theorem connected_empty : (withReconnection {}).connected = id := by
  funext s
  exact TreeMap.getD_emptyc

theorem varsOf_defines (fit : f.Fit) (keys : List (Site × Nat)) :
    Defines f (f.varsOf keys).2
        (fun val value => (f.varsOf keys).1.map value = keys.map fun k => val ⟨f.connected k.1, k.2⟩) ∧
      ∀ v ∈ (f.varsOf keys).1, v < (f.varsOf keys).2.size := by
  induction keys generalizing f with
  | nil => exact ⟨(Extends.refl fit).weaken (fun _ _ h => h) fun _ _ _ => rfl, by simp [varsOf]⟩
  | cons k keys ih =>
    obtain ⟨s, version⟩ := k
    obtain ⟨head, lt⟩ := var_defines fit s version
    obtain ⟨tail, below⟩ := ih head.fit
    rw [connected_congr head.reconnection_eq] at tail
    refine ⟨(head.andThen tail).weaken (fun _ _ h => h) ?_, ?_⟩
    · rintro val value ⟨first, rest⟩
      simp only [varsOf, List.map_cons, first, rest]
    · simp only [varsOf, List.forall_mem_cons]
      exact ⟨Nat.lt_of_lt_of_le lt tail.size_le, below⟩

theorem length_varsOf (f : Formula) (keys : List (Site × Nat)) : (f.varsOf keys).1.length = keys.length := by
  induction keys generalizing f with
  | nil => rfl
  | cons k keys ih => exact congrArg Nat.succ (ih _)

theorem fit_withReconnection (reconnection : Reconnection) : (withReconnection reconnection).Fit where
  interned found := by simp [withReconnection] at found
  closed c mem := by simp [withReconnection] at mem

theorem meets_withReconnection (reconnection : Reconnection) (val : Moment → Bool) (value : Nat → Bool) :
    (withReconnection reconnection).Meets val value where
  clauses c mem := by simp [withReconnection] at mem
  interned found := by simp [withReconnection] at found

/-! ## Known variables -/

/-- There is a variable for the moment. -/
def Knows (f : Formula) (m : Moment) : Prop := ∃ v, f.vars[m]? = some v

theorem knows_var (f : Formula) (s : Site) (version : Nat) :
    (f.var s version).2.Knows ⟨f.connected s, version⟩ := ⟨_, getElem?_vars_var f s version⟩

theorem Extends.knows {needs gives : Condition} (h : Extends f f' needs gives) {m : Moment} (known : f.Knows m) :
    f'.Knows m := by
  obtain ⟨v, found⟩ := known
  exact ⟨v, h.vars_le found⟩

theorem knows_varsOf (fit : f.Fit) {keys : List (Site × Nat)} :
    ∀ k ∈ keys, (f.varsOf keys).2.Knows ⟨f.connected k.1, k.2⟩ := by
  induction keys generalizing f with
  | nil => simp
  | cons k keys ih =>
    have head := (var_defines fit k.1 k.2).1
    have tail := ih head.fit
    rw [connected_congr head.reconnection_eq] at tail
    exact List.forall_mem_cons.mpr ⟨(varsOf_defines head.fit keys).1.knows (knows_var f k.1 k.2), tail⟩

end Formula

end LogicNet
