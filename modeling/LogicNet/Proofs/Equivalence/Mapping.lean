import LogicNet.Proofs.Equivalence.Strategies
import LogicNet.Proofs.Netlist.Renaming

/-!
# Bindings that follow a correspondence of gates

`Hints.ofMap` derives every binding from a correspondence of gates. A link may become an edge or a port on the
other side, but its driver always becomes the image of its driver, and drivers are all that a check looks at
(`Carries`). A binding that carries its links by a function of gates pairs each driver with one other only.
-/

namespace LogicNet

open Std

/-- These links are bound, and their drivers to the images of their drivers. -/
structure Carries (f : GateId → GateId) (b : Binding) (links : Link → Prop) : Prop where
  keys : ∀ l, l ∈ b ↔ links l
  drivers : ∀ {l r : Link}, b[l]? = some r → r.source = f l.source

namespace Carries

variable {f : GateId → GateId} {b : Binding} {links : Link → Prop}

theorem mem_driverPairs (h : Carries f b links) {x : GateId × GateId} :
    x ∈ driverPairs b ↔ ∃ l, links l ∧ x = (l.source, f l.source) := by
  rw [LogicNet.mem_driverPairs]
  constructor
  · rintro ⟨l, r, found, rfl⟩
    exact ⟨l, (h.keys l).mp (mem_of_getElem? found), by rw [h.drivers found]⟩
  · rintro ⟨l, link, rfl⟩
    obtain ⟨r, found⟩ := exists_value ((h.keys l).mpr link)
    exact ⟨l, r, found, by rw [h.drivers found]⟩

theorem length_pos (h : Carries f b links) {l : Link} (link : links l) : 0 < (driverPairs b).length :=
  List.length_pos_of_mem (h.mem_driverPairs.mpr ⟨l, link, rfl⟩)

theorem mem_left (h : Carries f b links) {id : GateId} :
    id ∈ (driverPairs b).map Prod.fst ↔ ∃ l, links l ∧ l.source = id := by
  simp only [List.mem_map, h.mem_driverPairs]
  constructor
  · rintro ⟨_, ⟨l, link, rfl⟩, rfl⟩
    exact ⟨l, link, rfl⟩
  · rintro ⟨l, link, rfl⟩
    exact ⟨_, ⟨l, link, rfl⟩, rfl⟩

theorem mem_right (h : Carries f b links) {id : GateId} :
    id ∈ (driverPairs b).map Prod.snd ↔ ∃ l, links l ∧ f l.source = id := by
  simp only [List.mem_map, h.mem_driverPairs]
  constructor
  · rintro ⟨_, ⟨l, link, rfl⟩, rfl⟩
    exact ⟨l, link, rfl⟩
  · rintro ⟨l, link, rfl⟩
    exact ⟨_, ⟨l, link, rfl⟩, rfl⟩

theorem together_iff (h : Carries f b links) {α : Type} {vl vr : GateId → α} :
    Together (driverPairs b) vl vr ↔ ∀ l, links l → vl l.source = vr (f l.source) := by
  constructor
  · intro agree l link
    exact agree _ (h.mem_driverPairs.mpr ⟨l, link, rfl⟩)
  · intro agree x mem
    obtain ⟨l, link, rfl⟩ := h.mem_driverPairs.mp mem
    exact agree l link

/-- Where the function is injective on the drivers, no driver is paired twice. -/
theorem oneToOne (h : Carries f b links) (injective : ∀ l l', links l → links l' →
    f l.source = f l'.source → l.source = l'.source) : OneToOne (driverPairs b) := by
  intro x hx y hy
  obtain ⟨l, link, rfl⟩ := h.mem_driverPairs.mp hx
  obtain ⟨l', link', rfl⟩ := h.mem_driverPairs.mp hy
  exact ⟨fun same => congrArg f same, injective l l' link link'⟩

/-- One more link, bound to a link of the image of its driver. -/
theorem insert (h : Carries f b links) {k r : Link} (driver : r.source = f k.source) :
    Carries f (b.insert k r) fun l => l = k ∨ links l where
  keys l := by
    rw [TreeMap.mem_insert, h.keys, LawfulEqCmp.compare_eq_iff_eq, eq_comm]
  drivers := by
    intro l r' found
    rw [TreeMap.getElem?_insert] at found
    split at found
    · next same =>
      rw [← LawfulEqCmp.eq_of_compare same, ← Option.some.inj found]
      exact driver
    · exact h.drivers found

/-- The bound links of one kind. -/
theorem filter (h : Carries f b links) (kind : Link → Bool) :
    Carries f (b.filter fun l _ => kind l) fun l => links l ∧ kind l = true where
  keys l := by
    rw [← h.keys, TreeMap.mem_iff_isSome_getElem?, TreeMap.getElem?_filter', TreeMap.mem_iff_isSome_getElem?]
    cases b[l]? <;> simp [Option.filter_some]
  drivers := by
    intro l r found
    rw [TreeMap.getElem?_filter', Option.filter_eq_some_iff] at found
    exact h.drivers found.1

theorem congr (h : Carries f b links) {links' : Link → Prop} (same : ∀ l, links l ↔ links' l) :
    Carries f b links' where
  keys l := (h.keys l).trans (same l)
  drivers := h.drivers

end Carries

namespace Hints

variable {map : GateMap} {left right : Netlist}

/-! ## Links one after the other -/

theorem getElem?_bind {image : Link → Result Link} {links : List Link} {b b' : Binding}
    (made : bind image b links = .ok b') (l : Link) :
    (l ∈ links ∧ ∃ r, image l = .ok r ∧ b'[l]? = some r) ∨ (l ∉ links ∧ b'[l]? = b[l]?) := by
  induction links generalizing b with
  | nil =>
    cases made
    exact .inr ⟨List.not_mem_nil, rfl⟩
  | cons k links ih =>
    rw [bind, List.foldlM_cons] at made
    obtain ⟨_, step, made⟩ := Result.bind_eq_ok.mp made
    obtain ⟨r, imaged, step⟩ := Result.bind_eq_ok.mp step
    cases step
    rcases ih made with ⟨mem, bound⟩ | ⟨away, kept⟩
    · exact .inl ⟨List.mem_cons_of_mem k mem, bound⟩
    · rw [TreeMap.getElem?_insert] at kept
      split at kept
      · next same =>
        obtain rfl := LawfulEqCmp.eq_of_compare same
        exact .inl ⟨List.mem_cons_self, r, imaged, kept⟩
      · next other =>
        refine .inr ⟨?_, kept⟩
        rw [List.mem_cons, not_or]
        exact ⟨fun same => other (by rw [same]; exact ReflCmp.compare_self), away⟩

theorem exists_bind {image : Link → Result Link} {links : List Link}
    (each : ∀ l ∈ links, ∃ r, image l = .ok r) (b : Binding) : ∃ b', bind image b links = .ok b' := by
  refine Result.exists_foldlM (fun l mem b => ?_) b
  obtain ⟨r, imaged⟩ := each l mem
  exact ⟨b.insert l r, Result.bind_eq_ok.mpr ⟨r, imaged, rfl⟩⟩

/-- Binding links to links of the images of their drivers keeps what was carried before. -/
theorem carries_bind {f : GateId → GateId} {image : Link → Result Link} {links : List Link} {b b' : Binding}
    {before : Link → Prop} (carries : Carries f b before) (made : bind image b links = .ok b')
    (drivers : ∀ l ∈ links, ∀ r, image l = .ok r → r.source = f l.source) :
    Carries f b' fun l => l ∈ links ∨ before l where
  keys l := by
    rw [TreeMap.mem_iff_isSome_getElem?, ← carries.keys, TreeMap.mem_iff_isSome_getElem?]
    rcases getElem?_bind made l with ⟨mem, r, _, found⟩ | ⟨away, kept⟩
    · simp [mem, found]
    · simp [away, kept]
  drivers := by
    intro l r found
    rcases getElem?_bind made l with ⟨mem, r', imaged, found'⟩ | ⟨_, kept⟩
    · obtain rfl : r' = r := Option.some.inj (found'.symm.trans found)
      exact drivers l mem r' imaged
    · exact carries.drivers (kept.symm.trans found)

theorem carries_empty {f : GateId → GateId} : Carries f {} fun _ => False where
  keys l := by simp
  drivers := by
    intro l r found
    simp at found

/-- Links bound to links of the images of their drivers. -/
theorem carries_of_bind {f : GateId → GateId} {image : Link → Result Link} {links : List Link} {b : Binding}
    (made : bind image {} links = .ok b) (drivers : ∀ l ∈ links, ∀ r, image l = .ok r → r.source = f l.source) :
    Carries f b (· ∈ links) :=
  (carries_bind carries_empty made drivers).congr fun _ => iff_of_eq (or_false _)

theorem mapGate_eq_ok {id id' : GateId} : mapGate map id = .ok id' ↔ map[id]? = some id' := Result.getOrBreach_eq_ok

theorem source_mapEdge {l r : Link} (made : mapEdge map l = .ok r) : r.source = map.image l.source := by
  obtain ⟨target, _, made⟩ := Result.bind_eq_ok.mp made
  cases made
  rfl

/-- Edge or port, the image of a boundary link has the image of its driver. -/
theorem source_mapBoundary {l r : Link} (made : mapBoundary right map l = .ok r) : r.source = map.image l.source := by
  unfold mapBoundary at made
  split at made
  · obtain ⟨id, found, made⟩ := Result.bind_eq_ok.mp made
    cases made
    exact (GateMap.image_eq (mapGate_eq_ok.mp found)).symm
  · obtain ⟨edge, imaged, made⟩ := Result.bind_eq_ok.mp made
    cases made
    have driver := source_mapEdge imaged
    split
    · exact driver
    · exact driver

/-! ## Parts one after the other -/

/-- Each of the first parts is bound to the part in which its first gate has its image, and the edges at its
boundary are bound. -/
structure BindsParts (left right : Netlist) (map : GateMap) (count : Nat) (bound : PartBinding × Binding) : Prop where
  below : ∀ n ∈ bound.1, n < count
  carries : Carries map.image bound.2 (· ∈ bound.2)
  binds : ∀ {n m : Nat} {p : Part} {id : GateId}, n < count → left.parts[n]? = some p → p.gates.head? = some id →
    right.partOf? (map.image id) = some m →
    bound.1[n]? = some m ∧ ∀ l, l ∈ p.sources ∨ l ∈ p.targets → l.isPort = false → l ∈ bound.2

/-- What a part adds: nothing, if it has no counterpart. -/
theorem bindPart_cases {bound bound' : PartBinding × Binding} {n : Nat}
    (made : bindPart left right map bound n = .ok bound') :
    ∃ p, left.parts[n]? = some p ∧
      ((bound' = bound ∧ ∀ id, p.gates.head? = some id → right.partOf? (map.image id) = none) ∨
        ∃ id m inner, p.gates.head? = some id ∧ right.partOf? (map.image id) = some m ∧
          bind (mapEdge map) bound.2 ((p.sources.toList ++ p.targets.toList).filter (!·.isPort)) = .ok inner ∧
          bound' = (bound.1.insert n m, inner)) := by
  obtain ⟨p, part, made⟩ := Result.bind_eq_ok.mp made
  refine ⟨p, Result.getOrBreach_eq_ok.mp part, ?_⟩
  split at made
  · next empty =>
    cases made
    refine .inl ⟨rfl, fun id first => ?_⟩
    rw [empty] at first
    cases first
  · next id first =>
    obtain ⟨id', imaged, made⟩ := Result.bind_eq_ok.mp made
    have image := GateMap.image_eq (mapGate_eq_ok.mp imaged)
    rw [← image] at made
    split at made
    · next homeless =>
      cases made
      refine .inl ⟨rfl, fun other first' => ?_⟩
      obtain rfl : id = other := Option.some.inj (first.symm.trans first')
      exact homeless
    · next m home =>
      obtain ⟨inner, bound, made⟩ := Result.bind_eq_ok.mp made
      cases made
      exact .inr ⟨id, m, inner, first, home, bound, rfl⟩

theorem BindsParts.step {bound bound' : PartBinding × Binding} {n : Nat} (h : BindsParts left right map n bound)
    (made : bindPart left right map bound n = .ok bound') : BindsParts left right map (n + 1) bound' := by
  obtain ⟨p, part, ⟨rfl, homeless⟩ | ⟨id, m, inner, first, home, links, rfl⟩⟩ := bindPart_cases made
  · refine ⟨fun k mem => Nat.lt_succ_of_lt (h.below k mem), h.carries, ?_⟩
    intro k m q id lt found first home
    rcases Nat.lt_succ_iff_lt_or_eq.mp lt with before | rfl
    · exact h.binds before found first home
    · obtain rfl : p = q := Option.some.inj (part.symm.trans found)
      rw [homeless id first] at home
      cases home
  · have carries := carries_bind h.carries links fun l _ r => source_mapEdge
    have kept : ∀ l ∈ bound.2, l ∈ inner := fun l mem => (carries.keys l).mpr (.inr mem)
    refine ⟨?_, carries.congr fun l => (carries.keys l).symm, ?_⟩
    · intro k mem
      rcases TreeMap.mem_insert.mp mem with same | mem
      · rw [← LawfulEqCmp.eq_of_compare same]
        exact Nat.lt_succ_self n
      · exact Nat.lt_succ_of_lt (h.below k mem)
    · intro k m' q id' lt found first' home'
      rcases Nat.lt_succ_iff_lt_or_eq.mp lt with before | rfl
      · obtain ⟨isBound, edges⟩ := h.binds before found first' home'
        refine ⟨?_, fun l side plain => kept l (edges l side plain)⟩
        show (bound.1.insert n m)[k]? = some m'
        rw [TreeMap.getElem?_insert, if_neg]
        · exact isBound
        · intro same
          exact absurd (LawfulEqCmp.eq_of_compare same) (Nat.ne_of_gt before)
      · obtain rfl : p = q := Option.some.inj (part.symm.trans found)
        obtain rfl : id = id' := Option.some.inj (first.symm.trans first')
        obtain rfl : m = m' := Option.some.inj (home.symm.trans home')
        refine ⟨TreeMap.getElem?_insert_self, fun l side plain => (carries.keys l).mpr (.inl ?_)⟩
        rw [List.mem_filter, List.mem_append, TreeSet.mem_toList, TreeSet.mem_toList, plain]
        exact ⟨side, rfl⟩

theorem BindsParts.of_fold {count : Nat} {bound : PartBinding × Binding}
    (made : (List.range count).foldlM (bindPart left right map) ({}, {}) = .ok bound) :
    BindsParts left right map count bound := by
  induction count generalizing bound with
  | zero =>
    cases made
    exact ⟨by simp, carries_empty.congr (by simp), fun lt => absurd lt (Nat.not_lt_zero _)⟩
  | succ n ih =>
    rw [List.range_succ, List.foldlM_append] at made
    obtain ⟨before, made, last⟩ := Result.bind_eq_ok.mp made
    rw [List.foldlM_cons] at last
    obtain ⟨after, step, last⟩ := Result.bind_eq_ok.mp last
    cases last
    exact (ih made).step step

/-! ## All bindings -/

/-- Hints that follow a correspondence of gates. -/
structure Follows (left right : Netlist) (map : GateMap) (hints : Hints) (sources targets triggers : Binding) :
    Prop where
  hasSources : hints.sources = some sources
  hasTargets : hints.targets = some targets
  hasTriggers : hints.triggers = some triggers
  sources : Carries map.image sources (· ∈ left.top.sources)
  targets : Carries map.image targets (· ∈ left.top.targets)
  triggers : Carries map.image triggers (· ∈ left.top.triggers.toList.map Link.port)
  parts : hints.parts = none ∨ ∃ bound, hints.parts = some bound.1 ∧ hints.inner = some bound.2 ∧
    BindsParts left right map left.parts.length bound
  divided : hints.parts ≠ none → left.parts ≠ [] ∧ left.parts.length = right.parts.length

theorem follows_of_ofMap {hints : Hints} (made : ofMap left right map = .ok hints) :
    ∃ sources targets triggers, Follows left right map hints sources targets triggers := by
  obtain ⟨sources, madeSources, made⟩ := Result.bind_eq_ok.mp made
  obtain ⟨targets, madeTargets, made⟩ := Result.bind_eq_ok.mp made
  obtain ⟨triggers, madeTriggers, made⟩ := Result.bind_eq_ok.mp made
  have image : ∀ {links : List Link}, ∀ l ∈ links, ∀ r, mapBoundary right map l = .ok r →
      r.source = map.image l.source := fun _ _ _ => source_mapBoundary
  have carriesSources := (carries_of_bind madeSources image).congr fun _ => TreeSet.mem_toList
  have carriesTargets := (carries_of_bind madeTargets image).congr fun _ => TreeSet.mem_toList
  have carriesTriggers := carries_of_bind madeTriggers image
  refine ⟨sources, targets, triggers, ?_⟩
  split at made
  · cases made
    exact ⟨rfl, rfl, rfl, carriesSources, carriesTargets, carriesTriggers, .inl rfl, fun bound => absurd rfl bound⟩
  · next even =>
    obtain ⟨bound, fold, made⟩ := Result.bind_eq_ok.mp made
    cases made
    refine ⟨rfl, rfl, rfl, carriesSources, carriesTargets, carriesTriggers, .inr ⟨bound, rfl, rfl, .of_fold fold⟩,
      fun _ => ?_⟩
    simpa using even

/-! ## Hints for paired gates -/

section Pairs

variable (pairs : map.Pairs left right)
include pairs

theorem mapGate_paired {id : GateId} {g : Gate} (found : left.gate? id = some g) :
    mapGate map id = .ok (map.image id) := mapGate_eq_ok.mpr (pairs.getElem? found)

theorem exists_mapEdge {l : Link} {g : Gate} (target : left.gate? l.target = some g) : ∃ r, mapEdge map l = .ok r :=
  ⟨_, Result.bind_eq_ok.mpr ⟨_, mapGate_paired pairs target, rfl⟩⟩

/-- Every link on a boundary has an image: a port has a gate as its source, and an edge as its target. -/
theorem exists_mapBoundary {member : GateId → Bool} {kind : Shape → Bool} {crosses : Link → Bool} {l : Link}
    (on : OnBoundary left.gate? member kind crosses l) : ∃ r, mapBoundary right map l = .ok r := by
  obtain ⟨_, target⟩ := on.exists_target
  obtain ⟨r, imaged⟩ := exists_mapEdge pairs target
  unfold mapBoundary
  rcases on with ⟨g, found, _, _, port⟩ | ⟨edge, _⟩
  · have isPort : l.isPort = true := by rw [port]; rfl
    rw [if_pos isPort, mapGate_paired pairs found]
    exact ⟨_, rfl⟩
  · rw [edge.not_isPort, imaged]
    exact ⟨_, rfl⟩

theorem exists_bindPart (h : left.Consistent) {n : Nat} (lt : n < left.parts.length) (bound : PartBinding × Binding) :
    ∃ bound', bindPart left right map bound n = .ok bound' := by
  have part : left.parts[n]? = some left.parts[n] := List.getElem?_eq_getElem lt
  have covers := h.parts n _ part
  unfold bindPart Netlist.part
  rw [part]
  simp only [Result.getOrBreach, Result.ok_bind]
  split
  · exact ⟨bound, rfl⟩
  · next id first =>
    obtain ⟨g, found⟩ := covers.accounts.known id (List.mem_of_mem_head? first)
    rw [mapGate_paired pairs found, Result.ok_bind]
    split
    · exact ⟨bound, rfl⟩
    · next m home =>
      have targets : ∀ l ∈ (left.parts[n].sources.toList ++ left.parts[n].targets.toList).filter (!·.isPort),
          ∃ r, mapEdge map l = .ok r := by
        intro l mem
        rw [List.mem_filter, List.mem_append, TreeSet.mem_toList, TreeSet.mem_toList] at mem
        obtain ⟨enters | leaves, _⟩ := mem
        · obtain ⟨g, target⟩ := ((covers.bounds.sources l).mp enters).exists_target
          exact exists_mapEdge pairs target
        · obtain ⟨g, target⟩ := ((covers.bounds.targets l).mp leaves).exists_target
          exact exists_mapEdge pairs target
      obtain ⟨inner, links⟩ := exists_bind targets bound.2
      rw [links]
      exact ⟨_, rfl⟩

/-- A correspondence of all gates gives hints. -/
theorem exists_ofMap (h : left.Consistent) : ∃ hints, ofMap left right map = .ok hints := by
  obtain ⟨sources, madeSources⟩ := @exists_bind (mapBoundary right map) left.sources.toList (fun l mem =>
    exists_mapBoundary pairs ((h.top.bounds.sources l).mp (TreeSet.mem_toList.mp mem))) {}
  obtain ⟨targets, madeTargets⟩ := @exists_bind (mapBoundary right map) left.targets.toList (fun l mem =>
    exists_mapBoundary pairs ((h.top.bounds.targets l).mp (TreeSet.mem_toList.mp mem))) {}
  obtain ⟨triggers, madeTriggers⟩ := @exists_bind (mapBoundary right map) (left.top.triggers.toList.map Link.port)
    (fun l mem => by
      obtain ⟨t, trigger, rfl⟩ := List.mem_map.mp mem
      obtain ⟨_, g, found, _⟩ := (h.top.accounts.triggers t).mp (TreeSet.mem_toList.mp trigger)
      exact ⟨_, Result.bind_eq_ok.mpr ⟨_, mapGate_paired pairs found, rfl⟩⟩) {}
  obtain ⟨bound, fold⟩ := @Result.exists_foldlM _ _ (bindPart left right map) (List.range left.parts.length)
    (fun n mem => exists_bindPart pairs h (List.mem_range.mp mem)) ({}, {})
  simp only [ofMap, madeSources, madeTargets, madeTriggers, fold, Result.ok_bind]
  split
  · exact ⟨_, rfl⟩
  · exact ⟨_, rfl⟩

end Pairs

end Hints

end LogicNet
