import Mathlib.Data.List.Forall2
import LogicNet.Equivalence.Trace

/-!
# Reading a result backwards

An operation that returned has passed every test on its way. The equations here say so one
combinator at a time: a proof that starts from "the operation returned" peels the steps off and
keeps what each of them established, without opening any operation it does not speak about.

The notes of a check carry no decision, so a `Traced` value is read through its outcome.
-/

namespace LogicNet

variable {α β : Type}

/-- What lists are related to is found in them. -/
theorem exists_of_forall₂ {R : α → β → Prop} {xs : List α} {ys : List β} (h : List.Forall₂ R xs ys)
    {y : β} (mem : y ∈ ys) : ∃ x ∈ xs, R x y := by
  induction h with
  | nil => cases mem
  | cons first _ ih =>
    rcases List.mem_cons.mp mem with rfl | mem
    · exact ⟨_, List.mem_cons_self, first⟩
    · obtain ⟨x, inside, related⟩ := ih mem
      exact ⟨x, List.mem_cons_of_mem _ inside, related⟩

namespace Result

/-- A sequence returned exactly when both of its steps did. -/
theorem bind_eq_ok {x : Result α} {f : α → Result β} {b : β} :
    (x >>= f) = .ok b ↔ ∃ a, x = .ok a ∧ f a = .ok b := by
  cases x with
  | error e =>
    constructor
    · intro h
      cases h
    · rintro ⟨_, h, _⟩
      cases h
  | ok a =>
    constructor
    · intro h
      exact ⟨a, rfl, h⟩
    · rintro ⟨_, h, hb⟩
      cases h
      exact hb

/-- A sequence stopped at its first step or at its second. -/
theorem bind_eq_error {x : Result α} {f : α → Result β} {e : Fault} :
    (x >>= f) = .error e ↔ x = .error e ∨ ∃ a, x = .ok a ∧ f a = .error e := by
  cases x with
  | error e' =>
    constructor
    · intro h
      cases h
      exact .inl rfl
    · rintro (h | ⟨_, h, _⟩)
      · cases h
        rfl
      · cases h
  | ok a =>
    constructor
    · intro h
      exact .inr ⟨a, rfl, h⟩
    · rintro (h | ⟨_, h, stopped⟩)
      · cases h
      · cases h
        exact stopped

@[simp] theorem ok_bind (a : α) (f : α → Result β) : ((Except.ok a : Result α) >>= f) = f a := rfl

@[simp] theorem error_bind (e : Fault) (f : α → Result β) :
    ((Except.error e : Result α) >>= f) = .error e := rfl

@[simp] theorem pure_eq_ok {a b : α} : (pure a : Result α) = .ok b ↔ a = b :=
  ⟨fun h => by cases h; rfl, fun h => by rw [h]; rfl⟩

@[simp] theorem require_eq_ok {condition : Bool} {b : Breach} {u : Unit} :
    require condition b = .ok u ↔ condition = true := by
  cases condition <;> simp [require]

@[simp] theorem getOrBreach_eq_ok {x : Option α} {b : Breach} {a : α} :
    getOrBreach x b = .ok a ↔ x = some a := by
  cases x <;> simp [getOrBreach]

theorem getOrBreach_eq_error {x : Option α} {b : Breach} {e : Fault} :
    getOrBreach x b = .error e ↔ x = none ∧ e = .breach b := by
  cases x <;> simp [getOrBreach, eq_comm]

/-- A test of what is returned, if anything is. -/
theorem forall_of_all {x : Result α} {P : α → Prop} [DecidablePred P] (all : (x.toOption.all fun a => P a) = true) :
    ∀ a, x = .ok a → P a := by
  intro a returned
  rw [returned] at all
  exact of_decide_eq_true all

theorem exists_ok {x : Result α} (h : x.isOk = true) : ∃ a, x = .ok a := by
  cases x with
  | error e => cases h
  | ok a => exact ⟨a, rfl⟩

/-- What every step of a loop keeps holds of the result, if the loop returned. -/
theorem foldlM_induction {f : β → α → Result β} (P : β → Prop) :
    ∀ (xs : List α) {b r : β}, xs.foldlM f b = .ok r → P b →
      (∀ b x b', x ∈ xs → P b → f b x = .ok b' → P b') → P r
  | [], b, r, h, start, _ => by
    cases h
    exact start
  | x :: xs, b, r, h, start, step => by
    rw [List.foldlM_cons] at h
    obtain ⟨b', head, tail⟩ := bind_eq_ok.mp h
    exact foldlM_induction P xs tail (step b x b' List.mem_cons_self start head)
      fun c y c' mem => step c y c' (List.mem_cons_of_mem x mem)

/-- What holds of nothing done and is kept by doing one more holds of all, if the loop returned. -/
theorem foldlM_done {f : β → α → Result β} (P : List α → β → Prop) {xs : List α} {b r : β}
    (made : xs.foldlM f b = .ok r) (start : P [] b)
    (step : ∀ done x rest b b', xs = done ++ x :: rest → P done b → f b x = .ok b' → P (done ++ [x]) b') : P xs r := by
  suffices general : ∀ rest done b, xs = done ++ rest → rest.foldlM f b = .ok r → P done b → P xs r from
    general xs [] b rfl made start
  intro rest
  induction rest with
  | nil =>
    intro done b split made here
    cases made
    rw [split, List.append_nil]
    exact here
  | cons x rest ih =>
    intro done b split made here
    rw [List.foldlM_cons] at made
    obtain ⟨b', first, made⟩ := bind_eq_ok.mp made
    refine ih (done ++ [x]) b' ?_ made (step done x rest b b' split here first)
    rw [split, List.append_assoc]
    rfl

/-- A loop returns if every step does from where the steps before it lead. -/
theorem exists_foldlM_done {f : β → α → Result β} (P : List α → β → Prop) {xs : List α} {b : β} (start : P [] b)
    (step : ∀ done x rest b, xs = done ++ x :: rest → P done b → ∃ b', f b x = .ok b' ∧ P (done ++ [x]) b') :
    ∃ r, xs.foldlM f b = .ok r ∧ P xs r := by
  suffices general : ∀ rest done b, xs = done ++ rest → P done b → ∃ r, rest.foldlM f b = .ok r ∧ P xs r from
    general xs [] b rfl start
  intro rest
  induction rest with
  | nil =>
    intro done b split here
    rw [List.append_nil] at split
    exact ⟨b, rfl, split ▸ here⟩
  | cons x rest ih =>
    intro done b split here
    obtain ⟨b', first, later⟩ := step done x rest b split here
    obtain ⟨r, made, all⟩ := ih (done ++ [x]) b' (by rw [split, List.append_assoc]; rfl) later
    refine ⟨r, ?_, all⟩
    rw [List.foldlM_cons, first]
    exact made

/-- A loop that failed did so in one of its rounds, and what the rounds before kept was kept until then. -/
theorem exists_of_foldlM_eq_error {f : β → α → Result β} (P : List α → β → Prop) {xs : List α} {b : β} {e : Fault}
    (failed : xs.foldlM f b = .error e) (start : P [] b)
    (step : ∀ done x rest b b', xs = done ++ x :: rest → P done b → f b x = .ok b' → P (done ++ [x]) b') :
    ∃ done x rest b', xs = done ++ x :: rest ∧ P done b' ∧ f b' x = .error e := by
  suffices general : ∀ rest done b, xs = done ++ rest → rest.foldlM f b = .error e → P done b →
      ∃ done x rest b', xs = done ++ x :: rest ∧ P done b' ∧ f b' x = .error e from general xs [] b rfl failed start
  intro rest
  induction rest with
  | nil =>
    intro done b split failed here
    cases failed
  | cons x rest ih =>
    intro done b split failed here
    rw [List.foldlM_cons] at failed
    rcases bind_eq_error.mp failed with now | ⟨b', first, later⟩
    · exact ⟨done, x, rest, b, split, here, now⟩
    · refine ih (done ++ [x]) b' ?_ later (step done x rest b b' split here first)
      rw [split, List.append_assoc]
      rfl

/-- A loop returns if every step does. -/
theorem exists_foldlM {f : β → α → Result β} {xs : List α} (each : ∀ x ∈ xs, ∀ b, ∃ b', f b x = .ok b') (b : β) :
    ∃ r, xs.foldlM f b = .ok r := by
  induction xs generalizing b with
  | nil => exact ⟨b, rfl⟩
  | cons x xs ih =>
    obtain ⟨head, tail⟩ := List.forall_mem_cons.mp each
    obtain ⟨b', step⟩ := head b
    obtain ⟨r, rest⟩ := ih tail b'
    refine ⟨r, ?_⟩
    rw [List.foldlM_cons, step]
    exact rest

/-- A loop that collects results returned if every step did, and its results stand in order. -/
theorem mapM_eq_ok {f : α → Result β} {xs : List α} {ys : List β} (h : xs.mapM f = .ok ys) :
    ys.length = xs.length ∧
      ∀ (i : Nat) (x : α), xs[i]? = some x → ∃ y, ys[i]? = some y ∧ f x = .ok y := by
  induction xs generalizing ys with
  | nil =>
    cases h
    simp
  | cons x xs ih =>
    rw [List.mapM_cons] at h
    obtain ⟨y, head, h⟩ := bind_eq_ok.mp h
    obtain ⟨ys, tail, h⟩ := bind_eq_ok.mp h
    cases h
    obtain ⟨length, each⟩ := ih tail
    refine ⟨by simp [length], ?_⟩
    intro i z found
    cases i with
    | zero =>
      simp only [List.getElem?_cons_zero, Option.some.injEq] at found
      subst found
      exact ⟨y, rfl, head⟩
    | succ i => exact each i z (by simpa using found)

/-- A loop that collects results stopped where one of its steps did. -/
theorem exists_of_mapM_eq_error {f : α → Result β} {xs : List α} {e : Fault} (h : xs.mapM f = .error e) :
    ∃ x ∈ xs, f x = .error e := by
  induction xs with
  | nil => cases h
  | cons x xs ih =>
    rw [List.mapM_cons] at h
    rcases bind_eq_error.mp h with here | ⟨y, _, h⟩
    · exact ⟨x, List.mem_cons_self, here⟩
    rcases bind_eq_error.mp h with later | ⟨ys, _, h⟩
    · obtain ⟨z, mem, there⟩ := ih later
      exact ⟨z, List.mem_cons_of_mem x mem, there⟩
    · cases h

theorem exists_mapM {f : α → Result β} {xs : List α} (each : ∀ x ∈ xs, ∃ y, f x = .ok y) :
    ∃ ys, xs.mapM f = .ok ys := by
  induction xs with
  | nil => exact ⟨[], rfl⟩
  | cons x xs ih =>
    obtain ⟨head, tail⟩ := List.forall_mem_cons.mp each
    obtain ⟨y, first⟩ := head
    obtain ⟨ys, rest⟩ := ih tail
    exact ⟨y :: ys, by rw [List.mapM_cons, first, rest]; rfl⟩

/-- A result that passes a test is one. -/
theorem exists_ok_of_any {r : Result α} {p : α → Bool} (passes : r.toOption.any p = true) :
    ∃ a, r = .ok a ∧ p a = true := by
  cases r with
  | ok a => exact ⟨a, rfl, passes⟩
  | error f => cases passes

/-- Steps that all return are a plain loop. -/
theorem mapM_of_each {f : α → Result β} {g : α → β} {xs : List α} (each : ∀ x ∈ xs, f x = .ok (g x)) :
    xs.mapM f = .ok (xs.map g) := by
  induction xs with
  | nil => rfl
  | cons x xs ih =>
    obtain ⟨head, tail⟩ := List.forall_mem_cons.mp each
    rw [List.mapM_cons, head, ih tail]
    rfl

end Result

namespace Traced

@[simp] theorem outcome_pure (a : α) : (pure a : Traced α).outcome = .ok a := rfl

@[simp] theorem outcome_note (n : Note) : (note n).outcome = .ok () := rfl

@[simp] theorem outcome_ofResult (r : Result α) : (ofResult r).outcome = r := rfl

@[simp] theorem outcome_monadLift (r : Result α) :
    (MonadLift.monadLift r : Traced α).outcome = r := rfl

@[simp] theorem outcome_liftM (r : Result α) : (liftM r : Traced α).outcome = r := rfl

@[simp] theorem outcome_require (condition : Bool) (b : Breach) :
    (require condition b).outcome = Result.require condition b := rfl

@[simp] theorem outcome_stop (b : Breach) : (stop b : Traced α).outcome = .error (.breach b) := rfl

/-- Notes aside, one step after the other is one result after the other. -/
@[simp] theorem outcome_bind (x : Traced α) (f : α → Traced β) :
    (x >>= f).outcome = x.outcome >>= fun a => (f a).outcome := by
  obtain ⟨notes, outcome⟩ := x
  cases outcome <;> rfl

/-- What returned was not refused. -/
theorem outcome_catchRefusal {x : Traced α} {a : α} (made : x.outcome = .ok a) (f : Refusal → Traced α) :
    (x.catchRefusal f).outcome = .ok a := by
  simp only [catchRefusal, made]

end Traced

end LogicNet
