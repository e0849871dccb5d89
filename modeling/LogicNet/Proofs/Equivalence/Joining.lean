import LogicNet.Equivalence.Miter
import LogicNet.Proofs.Equivalence.Binding
import LogicNet.Proofs.Netlist.Feeding
import LogicNet.Proofs.Netlist.Importing

/-!
# Two netlists on common inputs

The first half of a miter: two netlists stand side by side in one (`Apart`), and their source links are moved one
after the other to new inputs. `Fed` says how far this has come, by a table of what feeds each link of each side.
It speaks of both sides at once, so feeding a link is one step whichever side it belongs to.

**The law** (`Fed.selfContained`): when the placeholders of drivers outside that nothing reads are gone, the netlist is
self-contained. Its sources are the new inputs and the drivers of the links that are not fed. Where everything is fed,
in each valuation both netlists have their values under what is fed (`Fed.fedBy`).
-/

namespace LogicNet

open Std

/-! ## Two netlists in one -/

/-- One of the two netlists that are compared. -/
inductive Side where
  | left
  | right
deriving DecidableEq

/-- The one of the two that stands on this side. -/
def Side.pick {α : Type} (side : Side) (l r : α) : α :=
  match side with
  | .left => l
  | .right => r

section Sides

variable (P : Side → Link → Prop) {b : Binding} (h : Bijects b (P .left) (P .right))
include h

/-- Both links of a pair are links of their sides. -/
theorem Bijects.pick {p : Link × Link} (mem : p ∈ b.toList) (side : Side) : P side (side.pick p.1 p.2) := by
  have entry : b[p.1]? = some p.2 := TreeMap.mem_toList_iff_getElem?_eq_some.mp mem
  cases side with
  | left => exact (h.keys p.1).mp (mem_of_getElem? entry)
  | right => exact (h.values p.2).mp ⟨p.1, entry⟩

/-- Every link of a side is in a pair. -/
theorem Bijects.exists_pair {side : Side} {l : Link} (isLink : P side l) : ∃ p ∈ b.toList, side.pick p.1 p.2 = l := by
  cases side with
  | left =>
    obtain ⟨r, entry⟩ := exists_value ((h.keys l).mpr isLink)
    exact ⟨(l, r), TreeMap.mem_toList_iff_getElem?_eq_some.mpr entry, rfl⟩
  | right =>
    obtain ⟨k, entry⟩ := (h.values l).mpr isLink
    exact ⟨(k, l), TreeMap.mem_toList_iff_getElem?_eq_some.mpr entry, rfl⟩

/-- A pair is known by either of its links. -/
theorem Bijects.pick_inj {p q : Link × Link} (memP : p ∈ b.toList) (memQ : q ∈ b.toList) {side : Side}
    (same : side.pick p.1 p.2 = side.pick q.1 q.2) : p = q := by
  have entryP : b[p.1]? = some p.2 := TreeMap.mem_toList_iff_getElem?_eq_some.mp memP
  have entryQ : b[q.1]? = some q.2 := TreeMap.mem_toList_iff_getElem?_eq_some.mp memQ
  cases side with
  | left =>
    rw [show p.1 = q.1 from same, entryQ, Option.some.injEq] at entryP
    exact Prod.ext same entryP.symm
  | right =>
    rw [show p.2 = q.2 from same] at entryP
    exact Prod.ext (h.injective entryP entryQ) same

end Sides

namespace Miter

/-- Two netlists without loops have been imported, and nothing in one was mistaken for something in the other. -/
structure Apart (nets : Side → Netlist) (maps : Side → GateMap) : Prop where
  reachable : ∀ side, (nets side).Reachable
  acyclic : ∀ side, (nets side).view.Acyclic
  keys : ∀ side id, id ∈ maps side ↔ (nets side).Mentions id
  injective : ∀ {side side' : Side} {a b : GateId}, a ∈ maps side → b ∈ maps side' →
    (maps side).image a = (maps side').image b → side = side' ∧ a = b

/-- Some source link of this driver is not fed. -/
def Waits (net : Netlist) (feed : Link → Option GateId) (id : GateId) : Prop :=
  ∃ l ∈ net.sources, l.source = id ∧ feed l = none

/-- The drivers of the source links that are not fed, each once. -/
def waiting (net : Netlist) (feed : Link → Option GateId) : List GateId :=
  driversOf (net.sources.filter fun l => (feed l).isNone)

theorem mem_waiting {net : Netlist} {feed : Link → Option GateId} {id : GateId} :
    id ∈ waiting net feed ↔ Waits net feed id := by
  simp only [waiting, mem_driversOf, TreeSet.mem_filter, TreeSet.get_eq, exists_prop, Option.isNone_iff_eq_none, Waits]
  exact exists_congr fun l => by rw [and_assoc, and_comm (a := feed l = none)]

/-- Some source links of both sides are fed by inputs. On some sides the drivers outside that do not wait for more are
gone. -/
structure Fed (nets : Side → Netlist) (maps : Side → GateMap) (feed : Side → Link → Option GateId)
    (inputs : List GateId) (gone : Side → Bool) (net : Netlist) : Prop where
  reachable : net.Reachable
  flat : net.parts = []
  gates : ∀ (side : Side) {id : GateId} {g : Gate}, (nets side).gate? id = some g →
    net.shape? ((maps side).image id) = some (g.toShape.fed (maps side).image (feed side) id)
  outside : ∀ (side : Side) {id : GateId}, id ∈ maps side → (nets side).gate? id = none →
    gone side = false ∨ Waits (nets side) (feed side) id → net.shape? ((maps side).image id) = some ⟨.buffer, []⟩
  removed : ∀ (side : Side) {id : GateId}, id ∈ maps side → (nets side).gate? id = none → gone side = true →
    ¬Waits (nets side) (feed side) id → net.shape? ((maps side).image id) = none
  isInput : ∀ x ∈ inputs, net.shape? x = some ⟨.input, []⟩
  new : ∀ x ∈ inputs, ∀ (side : Side), ∀ id ∈ maps side, x ≠ (maps side).image id
  rest : ∀ {y : GateId} {s : Shape}, net.shape? y = some s →
    y ∈ inputs ∨ ∃ side, ∃ id ∈ maps side, y = (maps side).image id
  fed : ∀ (side : Side) {l : Link} {x : GateId}, feed side l = some x → l ∈ (nets side).sources ∧ x ∈ inputs

/-- One more link of one side is fed. -/
def feedMore (feed : Side → Link → Option GateId) (side : Side) (l : Link) (x : GateId) : Side → Link → Option GateId :=
  Function.update feed side (Function.update (feed side) l (some x))

theorem feedMore_self {feed : Side → Link → Option GateId} {side : Side} {l : Link} {x : GateId} :
    feedMore feed side l x side = Function.update (feed side) l (some x) := Function.update_self ..

theorem feedMore_other {feed : Side → Link → Option GateId} {side side' : Side} (other : side' ≠ side) {l : Link}
    {x : GateId} : feedMore feed side l x side' = feed side' := Function.update_of_ne other ..

variable {nets : Side → Netlist} {maps : Side → GateMap} {feed : Side → Link → Option GateId} {inputs : List GateId}
  {gone : Side → Bool} {net : Netlist}

theorem Apart.consistent (apart : Apart nets maps) (side : Side) : (nets side).Consistent :=
  (apart.reachable side).consistent

theorem Apart.mem (apart : Apart nets maps) {side : Side} {id : GateId} {g : Gate}
    (found : (nets side).gate? id = some g) : id ∈ maps side := (apart.keys side id).mpr (.inl ⟨g, found⟩)

section Steps

variable (apart : Apart nets maps) (h : Fed nets maps feed inputs gone net)

section Alone

include h

/-- Until drivers outside are removed, whatever is mentioned has an image. -/
theorem Fed.exists_image {side : Side} (here : gone side = false) {id : GateId} (mem : id ∈ maps side) :
    ∃ s, net.shape? ((maps side).image id) = some s := by
  cases found : (nets side).gate? id with
  | none => exact ⟨_, h.outside side mem found (.inl here)⟩
  | some g => exact ⟨_, h.gates side found⟩

/-- One more input. -/
theorem Fed.exists_addInput (here : ∀ side, gone side = false) (room : net.nextId < GateId.largest) :
    ∃ x net', net.addInput = .ok (x, net') ∧ Fed nets maps feed (inputs ++ [x]) gone net' ∧ x ∉ inputs ∧
      net'.nextId = net.nextId + 1 := by
  have consistent := h.reachable.consistent
  obtain ⟨net', built, next⟩ := @Netlist.exists_build net ⟨.input, []⟩ rfl (by simp) room
  have added : net.addInput = .ok (⟨net.nextId⟩, net') := built
  obtain ⟨_, reshapes⟩ := Netlist.reshapes_build built
  let x : GateId := ⟨net.nextId⟩
  have fresh : ∀ {y : GateId} {s : Shape}, net.shape? y = some s → y ≠ x := by
    rintro y s known rfl
    exact Nat.lt_irrefl _ (consistent.lt_next known)
  refine ⟨x, net', added, ?_, fun mem => fresh (h.isInput x mem) rfl, next⟩
  constructor
  case reachable => exact .addGate _ h.reachable added
  case flat => exact reshapes.flat h.flat
  case gates =>
    intro side id g found
    have known := h.gates side found
    rw [reshapes.other (fresh known)]
    exact known
  case outside =>
    intro side id mem absent present
    have known := h.outside side mem absent present
    rw [reshapes.other (fresh known)]
    exact known
  case removed =>
    intro side id _ _ gone
    rw [here side] at gone
    cases gone
  case isInput =>
    intro y mem
    rcases List.mem_append.mp mem with before | now
    · rw [reshapes.other (fresh (h.isInput y before))]
      exact h.isInput y before
    · rw [List.mem_singleton.mp now]
      exact reshapes.self
  case new =>
    intro y mem side id inside
    rcases List.mem_append.mp mem with before | now
    · exact h.new y before side id inside
    · obtain ⟨s, known⟩ := h.exists_image (here side) inside
      rw [List.mem_singleton.mp now]
      exact (fresh known).symm
  case rest =>
    intro y s now
    rcases reshapes.before now with ⟨rfl, _⟩ | ⟨_, known⟩
    · exact .inl (List.mem_append_right _ List.mem_cons_self)
    · rcases h.rest known with mem | image
      · exact .inl (List.mem_append_left _ mem)
      · exact .inr image
  case fed =>
    intro side l y moved
    obtain ⟨source, mem⟩ := h.fed side moved
    exact ⟨source, List.mem_append_left _ mem⟩

theorem Fed.canDrive_image {side : Side} (here : gone side = false) {id : GateId} (mem : id ∈ maps side)
    (plain : ∀ g, (nets side).gate? id = some g → g.isOutput = false) : net.CanDrive ((maps side).image id) := by
  have consistent := h.reachable.consistent
  cases found : (nets side).gate? id with
  | none => exact consistent.canDrive_of_shape? (h.outside side mem found (.inl here)) rfl
  | some g =>
    refine consistent.canDrive_of_shape? (h.gates side found) (Bool.eq_false_iff.mpr fun output => ?_)
    have := plain g found
    rw [Shape.isOutput_of_fed output] at this
    cases this

end Alone

include apart h

/-- Only ports of sources are fed. -/
theorem Fed.unfed_port {side : Side} {id : GateId} {g : Gate} (found : (nets side).gate? id = some g)
    (driven : g.isSource = false) : feed side (.port id) = none := by
  refine Option.eq_none_iff_forall_ne_some.mpr fun x moved => ?_
  rw [((apart.consistent side).port_mem_sources found).mp (h.fed side moved).1] at driven
  cases driven

/-- Once one more link is fed, its target reads what can be read. -/
theorem Fed.canDrive_of_fed {side : Side} (here : gone side = false) {l : Link} {x : GateId} (mem : x ∈ inputs)
    {id : GateId} {g : Gate} (found : (nets side).gate? id = some g) {y : Signal}
    (read : y ∈ (g.toShape.fed (maps side).image (feedMore feed side l x side) id).inputs) : net.CanDrive y.driver := by
  have consistent := h.reachable.consistent
  rcases Shape.driver_of_fed read with ⟨k, moved⟩ | ⟨i, z, inside, _, driver⟩
  · have input : y.driver ∈ inputs := by
      rw [feedMore_self, Function.update_apply] at moved
      split at moved
      · rw [← Option.some.inj moved]
        exact mem
      · exact (h.fed side moved).2
    exact consistent.canDrive_of_shape? (h.isInput _ input) rfl
  · have read := List.mem_of_getElem? inside
    rw [driver]
    refine h.canDrive_image here ((apart.keys side _).mpr (.inr ⟨id, g, z, found, read, rfl⟩)) ?_
    exact fun d driver => (apart.consistent side).wired.not_isOutput_of_read found read driver

/-- The target of a source link can be given the shape in which the link is fed. -/
theorem Fed.exists_setGate {side : Side} (here : gone side = false) (l : Link) {g : Gate}
    (found : (nets side).gate? l.target = some g) {x : GateId} (mem : x ∈ inputs) :
    ∃ net', net.setGate ((maps side).image l.target)
        (g.toShape.fed (maps side).image (feedMore feed side l x side) l.target) = .ok net' ∧
      net'.nextId = net.nextId := by
  have consistent := h.reachable.consistent
  obtain ⟨old, before, oldShape⟩ := Netlist.shape?_eq_some.mp (h.gates side found)
  have drivers : ∀ y ∈ (g.toShape.fed (maps side).image (feedMore feed side l x side) l.target).inputs,
      net.CanDrive y.driver := fun y read => h.canDrive_of_fed apart here mem found read
  have arity := (Bool.and_eq_true_iff.mp ((apart.consistent side).wired.valid found)).1
  refine Netlist.exists_setGate consistent before (Shape.hasArity_fed arity) drivers fun output => ?_
  have isOutput := Shape.isOutput_of_fed output
  have wasOutput : old.isOutput = true := by
    obtain ⟨y, eq⟩ := (apart.consistent side).eq_of_isOutput (Netlist.shape?_of_gate? found) isOutput
    have port := h.unfed_port apart found (by rw [eq]; rfl)
    rw [oldShape, Shape.fed_of_unfed port]
    exact isOutput
  refine ⟨fun k edge same => ?_, fun y read self => ?_⟩
  · obtain ⟨reader, found', link⟩ := edge
    obtain ⟨z, read, driver⟩ := Netlist.source_of_mem_inputLinks link
    exact consistent.driver_ne_output before wasOutput found' read (driver.trans same)
  · have plain := (drivers y read).2 old (by rw [self]; exact before)
    rw [wasOutput] at plain
    cases plain

/-- In the new shape of its target, the link is fed. -/
theorem Fed.setGate (here : ∀ side, gone side = false) {side : Side} {l : Link}
    (source : l ∈ (nets side).sources) {g : Gate} (found : (nets side).gate? l.target = some g) {x : GateId} (mem : x ∈ inputs) {net' : Netlist}
    (set : net.setGate ((maps side).image l.target)
      (g.toShape.fed (maps side).image (feedMore feed side l x side) l.target) = .ok net') :
    Fed nets maps (feedMore feed side l x) inputs gone net' := by
  have reshapes := Netlist.reshapes_setGate h.reachable.consistent set
  constructor
  case reachable => exact .setGate _ _ h.reachable set
  case flat => exact reshapes.flat h.flat
  case gates =>
    intro side' id g' found'
    by_cases same : side' = side ∧ id = l.target
    · obtain ⟨rfl, rfl⟩ := same
      rw [found] at found'
      cases found'
      exact reshapes.self
    · have other : (maps side').image id ≠ (maps side).image l.target :=
        fun image => same (apart.injective (apart.mem found') (apart.mem found) image)
      rw [reshapes.other other, h.gates side' found']
      congr 1
      refine Shape.fed_congr fun k target => ?_
      by_cases sameSide : side' = side
      · subst sameSide
        rw [feedMore_self, Function.update_of_ne]
        rintro rfl
        exact same ⟨rfl, target.symm⟩
      · rw [feedMore_other sameSide]
  case outside =>
    intro side' id mem' absent _
    have other : (maps side').image id ≠ (maps side).image l.target := by
      intro image
      obtain ⟨rfl, rfl⟩ := apart.injective mem' (apart.mem found) image
      rw [found] at absent
      cases absent
    rw [reshapes.other other]
    exact h.outside side' mem' absent (.inl (here side'))
  case removed =>
    intro side' id _ _ gone
    rw [here side'] at gone
    cases gone
  case isInput =>
    intro y inside
    rw [reshapes.other (h.new y inside side _ (apart.mem found))]
    exact h.isInput y inside
  case new => exact h.new
  case rest =>
    intro y s now
    rcases reshapes.before now with ⟨rfl, _⟩ | ⟨_, known⟩
    · exact .inr ⟨side, l.target, apart.mem found, rfl⟩
    · exact h.rest known
  case fed =>
    intro side' k y moved
    by_cases sameSide : side' = side
    · subst sameSide
      rw [feedMore_self, Function.update_apply] at moved
      split at moved
      · next same =>
        rw [same, ← Option.some.inj moved]
        exact ⟨source, mem⟩
      · exact h.fed side' moved
    · rw [feedMore_other sameSide] at moved
      exact h.fed side' moved

/-- A source link can be fed by an input, whether or not it is fed already. -/
theorem Fed.exists_feedSource (here : ∀ side, gone side = false) {side : Side} {l : Link}
    (source : l ∈ (nets side).sources) {x : GateId} (mem : x ∈ inputs) :
    ∃ net', feedSource net (maps side) l x = .ok net' ∧ Fed nets maps (feedMore feed side l x) inputs gone net' ∧
      net'.nextId = net.nextId := by
  have consistent := apart.consistent side
  rcases consistent.mem_sources_iff.mp source with ⟨id, g, rfl, found, _⟩ | ⟨t, i, g, s, rfl, found, read, _⟩
  · obtain ⟨net', set, next⟩ := h.exists_setGate apart (here side) (.port id) found mem
    refine ⟨net', ?_, h.setGate apart here source found mem set, next⟩
    have port : feedMore feed side (.port id) x side (.port id) = some x := by rw [feedMore_self, Function.update_self]
    rw [show (Link.port id).target = id from rfl, Shape.fed_of_port port] at set
    exact Result.bind_eq_ok.mpr ⟨_, Result.getOrBreach_eq_ok.mpr (GateMap.image_of_mem (apart.mem found)), set⟩
  · obtain ⟨net', set, next⟩ := h.exists_setGate apart (here side) (.edge s.driver t i) found mem
    refine ⟨net', ?_, h.setGate apart here source found mem set, next⟩
    have port := h.unfed_port apart found (Shape.isSource_eq_false_of_read (List.mem_of_getElem? read))
    obtain ⟨old, before, oldShape⟩ := Netlist.shape?_eq_some.mp (h.gates side found)
    have input : old.inputs[i]? =
        some (s.withDriver ((feed side (.edge s.driver t i)).getD ((maps side).image s.driver))) := by
      rw [oldShape, Shape.fed_of_unfed port, List.getElem?_mapIdx, read]
      rfl
    have fn : old.fn = g.fn := by rw [oldShape, Shape.fed_of_unfed port]
    refine Result.bind_eq_ok.mpr ⟨_, Result.getOrBreach_eq_ok.mpr (GateMap.image_of_mem (apart.mem found)), ?_⟩
    refine Result.bind_eq_ok.mpr ⟨old, Netlist.gate_eq_ok.mpr before, ?_⟩
    refine Result.bind_eq_ok.mpr ⟨_, Result.getOrBreach_eq_ok.mpr input, ?_⟩
    rw [feedMore_self] at set
    have moved := @Shape.fed_update_edge (maps side).image (feed side) x g.toShape t i s port read
    rw [show (Link.edge s.driver t i).target = t from rfl, moved, ← oldShape, ← fn] at set
    exact set

end Steps

/-! ## All sources -/

/-- A binding lists each of its pairs once. -/
theorem nodup_pairs (b : Binding) : b.toList.Nodup := by
  refine b.distinct_keys_toList.imp ?_
  rintro p _ different rfl
  exact different ReflCmp.compare_self

/-- Each pair of source links was given an input of its own. Links of these pairs are fed, each by the input of one of
its pairs, and nothing else is. -/
structure Supplied (fed : List ((Link × Link) × GateId)) (feed : Side → Link → Option GateId) : Prop where
  paired : ∀ (side : Side) {l : Link} {x : GateId}, feed side l = some x →
    ∃ p ∈ fed, side.pick p.1.1 p.1.2 = l ∧ p.2 = x
  reached : ∀ (side : Side), ∀ p ∈ fed, ∃ x, feed side (side.pick p.1.1 p.1.2) = some x
  distinct : (fed.map Prod.snd).Nodup

theorem supplied_nothing : Supplied [] fun _ _ => none := ⟨by simp, by simp, List.nodup_nil⟩

theorem Supplied.add {fed : List ((Link × Link) × GateId)} (h : Supplied fed feed) {p : Link × Link} {x : GateId}
    (new : x ∉ fed.map Prod.snd) :
    Supplied (fed ++ [(p, x)]) (feedMore (feedMore feed .left p.1 x) .right p.2 x) := by
  have more : ∀ side : Side, feedMore (feedMore feed .left p.1 x) .right p.2 x side =
      Function.update (feed side) (side.pick p.1 p.2) (some x) := by
    intro side
    cases side with
    | left => rw [feedMore_other (by decide), feedMore_self, Side.pick]
    | right => rw [feedMore_self, feedMore_other (by decide), Side.pick]
  refine ⟨fun side l y moved => ?_, fun side q mem => ?_, ?_⟩
  · rw [more, Function.update_apply] at moved
    split at moved
    · next same => exact ⟨(p, x), by simp, same.symm, Option.some.inj moved⟩
    · obtain ⟨q, mem, same⟩ := h.paired side moved
      exact ⟨q, List.mem_append_left _ mem, same⟩
  · rw [more, Function.update_apply]
    split
    · exact ⟨x, rfl⟩
    · next other =>
      rcases List.mem_append.mp mem with before | now
      · exact h.reached side q before
      · rw [List.mem_singleton.mp now] at other
        exact absurd rfl other
  · rw [List.map_append, List.map_singleton]
    exact List.Nodup.append h.distinct (List.nodup_singleton x) (by simpa using new)

/-- These pairs of source links are fed, each pair by an input of its own, and nothing else is. -/
structure Pairing (fed : List ((Link × Link) × GateId)) (feed : Side → Link → Option GateId) : Prop where
  feeds : ∀ (side : Side) (l : Link) (x : GateId), feed side l = some x ↔
    ∃ p ∈ fed, side.pick p.1.1 p.1.2 = l ∧ p.2 = x
  distinct : (fed.map Prod.snd).Nodup

/-- Where no link is in two pairs, it is fed by the input of its pair. -/
theorem Supplied.pairing {fed : List ((Link × Link) × GateId)} (h : Supplied fed feed) {sources : Binding}
    {left right : Link → Prop} (bound : Bijects sources left right) (pairs : fed.map Prod.fst = sources.toList) :
    Pairing fed feed := by
  refine ⟨fun side l x => ⟨h.paired side, ?_⟩, h.distinct⟩
  rintro ⟨p, mem, rfl, rfl⟩
  obtain ⟨x, moved⟩ := h.reached side p mem
  obtain ⟨q, mem', same, rfl⟩ := h.paired side moved
  have entry : ∀ {r}, r ∈ fed → r.1 ∈ sources.toList := fun mem => pairs ▸ List.mem_map_of_mem mem
  have pair : q.1 = p.1 := bound.pick_inj (fun side => side.pick left right) (entry mem') (entry mem) same
  have nodup : (fed.map Prod.fst).Nodup := pairs ▸ nodup_pairs sources
  rw [moved, List.inj_on_of_nodup_map nodup mem' mem pair]

/-- EVERY PAIR OF SOURCE LINKS GETS ITS INPUT, also if a link is in several pairs. -/
theorem exists_feedSources (apart : Apart nets maps) (h : Fed nets maps (fun _ _ => none) [] gone net)
    (present : ∀ side, gone side = false) {sources : Binding}
    (links : ∀ p ∈ sources.toList, ∀ side : Side, side.pick p.1 p.2 ∈ (nets side).sources)
    (room : net.nextId + sources.size ≤ GateId.largest) :
    ∃ net' feed fed, feedSources net (maps .left) (maps .right) sources = .ok net' ∧
      Fed nets maps feed (fed.map Prod.snd) gone net' ∧ Supplied fed feed ∧ fed.map Prod.fst = sources.toList ∧
      net'.nextId = net.nextId + sources.size := by
  have all : ∃ net', feedSources net (maps .left) (maps .right) sources = .ok net' ∧ ∃ feed fed,
      Fed nets maps feed (fed.map Prod.snd) gone net' ∧ Supplied fed feed ∧ fed.map Prod.fst = sources.toList ∧
      net'.nextId = net.nextId + sources.toList.length := by
    refine Result.exists_foldlM_done (fun done (s : Netlist) => ∃ feed fed,
      Fed nets maps feed (fed.map Prod.snd) gone s ∧ Supplied fed feed ∧ fed.map Prod.fst = done ∧
        s.nextId = net.nextId + done.length)
      ⟨_, [], h, supplied_nothing, rfl, rfl⟩ ?_
    intro done p rest s split invariant
    obtain ⟨feed, fed, joined, supplied, pairs, next⟩ := invariant
    have source : ∀ side : Side, side.pick p.1 p.2 ∈ (nets side).sources := links p (by rw [split]; simp)
    have small : s.nextId < GateId.largest := by
      have length := congrArg List.length split
      rw [TreeMap.length_toList, List.length_append, List.length_cons] at length
      omega
    obtain ⟨x, s₁, added, joined, new, next₁⟩ := joined.exists_addInput present small
    have mem : x ∈ fed.map Prod.snd ++ [x] := List.mem_append_right _ List.mem_cons_self
    obtain ⟨s₂, fedLeft, joined, next₂⟩ := joined.exists_feedSource apart present (source .left) mem
    obtain ⟨s₃, fedRight, joined, next₃⟩ := joined.exists_feedSource apart present (source .right) mem
    refine ⟨s₃, ?_, _, fed ++ [(p, x)], ?_, supplied.add new, ?_, ?_⟩
    · exact Result.bind_eq_ok.mpr ⟨_, added, Result.bind_eq_ok.mpr ⟨s₂, fedLeft, fedRight⟩⟩
    · rw [List.map_append]
      exact joined
    · rw [List.map_append, pairs]
      rfl
    · rw [next₃, next₂, next₁, next, List.length_append, List.length_singleton, Nat.add_assoc]
  obtain ⟨net', made, feed, fed, joined, supplied, pairs, next⟩ := all
  rw [TreeMap.length_toList] at next
  exact ⟨net', feed, fed, made, joined, supplied, pairs, next⟩

/-! ## Drivers outside -/

section Removal

variable (apart : Apart nets maps) (h : Fed nets maps feed inputs gone net)
include apart h

/-- What is read of the drivers outside still waits for its input. -/
theorem Fed.waits_of_read {t : GateId} {s : Shape} (known : net.shape? t = some s) {y : Signal} (read : y ∈ s.inputs)
    {side : Side} {id : GateId} (mem : id ∈ maps side) (absent : (nets side).gate? id = none)
    (same : y.driver = (maps side).image id) : Waits (nets side) (feed side) id := by
  rcases h.rest known with input | ⟨side', t', inside, rfl⟩
  · rw [h.isInput t input] at known
    cases known
    cases read
  cases found : (nets side').gate? t' with
  | none =>
    by_cases present : gone side' = false ∨ Waits (nets side') (feed side') t'
    · rw [h.outside side' inside found present] at known
      cases known
      cases read
    · obtain ⟨gone, idle⟩ := not_or.mp present
      rw [h.removed side' inside found (Bool.eq_true_of_not_eq_false gone) idle] at known
      cases known
  | some g =>
    rw [h.gates side' found] at known
    cases known
    rcases Shape.driver_of_fed read with ⟨l, moved⟩ | ⟨i, z, input, unmoved, driver⟩
    · exact absurd same (h.new _ (h.fed side' moved).2 side id mem)
    · have mentioned : z.driver ∈ maps side' :=
        (apart.keys side' _).mpr (.inr ⟨t', g, z, found, List.mem_of_getElem? input, rfl⟩)
      obtain ⟨rfl, rfl⟩ := apart.injective mentioned mem (driver.symm.trans same)
      exact ⟨_, ((apart.consistent side').edge_mem_sources found input).mpr absent, rfl, unmoved⟩

/-- Where a driver outside waits, some gate reads its placeholder. -/
theorem Fed.isEdge_of_waits {side : Side} {id : GateId} (absent : (nets side).gate? id = none)
    (waits : Waits (nets side) (feed side) id) :
    ∃ l : Link, l.source = (maps side).image id ∧ IsEdge net.gate? l := by
  obtain ⟨l, source, rfl, unfed⟩ := waits
  rcases (apart.consistent side).mem_sources_iff.mp source with
    ⟨_, g, rfl, found, _⟩ | ⟨t, i, g, s, rfl, found, read, _⟩
  · exact nomatch found.symm.trans absent
  · have port := h.unfed_port apart found (Shape.isSource_eq_false_of_read (List.mem_of_getElem? read))
    obtain ⟨reader, here, shape⟩ := Netlist.shape?_eq_some.mp (h.gates side found)
    refine ⟨.edge ((maps side).image s.driver) ((maps side).image t) i, rfl, reader, here,
      Shape.mem_inputLinks.mpr ⟨i, s.withDriver ((maps side).image s.driver), ?_, rfl⟩⟩
    rw [shape, Shape.fed_of_unfed port, List.getElem?_mapIdx, read, Option.map_some, unfed, Option.getD_none]

/-- The placeholders that are removed are those of the drivers outside that wait for nothing. -/
theorem Fed.mem_unused {side : Side} (here : gone side = false) {y : GateId} :
    y ∈ ((maps side).toList.filter fun (old, new) =>
      !(nets side).contains old && (net.gate? new).any (·.fanout.isEmpty)).map Prod.snd ↔
      ∃ id ∈ maps side, (nets side).gate? id = none ∧ ¬Waits (nets side) (feed side) id ∧
        y = (maps side).image id := by
  have consistent := h.reachable.consistent
  have idle_iff : ∀ id ∈ maps side, (nets side).gate? id = none →
      ((net.gate? ((maps side).image id)).any (·.fanout.isEmpty) = true ↔ ¬Waits (nets side) (feed side) id) := by
    intro id mem absent
    obtain ⟨s, known⟩ := h.exists_image here mem
    obtain ⟨d, found, _⟩ := Netlist.shape?_eq_some.mp known
    rw [found, Option.any_some, List.isEmpty_iff, List.eq_nil_iff_forall_not_mem]
    constructor
    · intro unused waits
      obtain ⟨l, source, edge⟩ := h.isEdge_of_waits apart absent waits
      exact unused l ((consistent.wired.fanout found l).mpr ⟨source, edge⟩)
    · intro idle l used
      obtain ⟨source, reader, target, link⟩ := (consistent.wired.fanout found l).mp used
      obtain ⟨z, read, driver⟩ := Netlist.source_of_mem_inputLinks link
      exact idle (h.waits_of_read apart (Netlist.shape?_of_gate? target) read mem absent (driver.trans source))
  simp only [List.mem_map, List.mem_filter, Prod.exists, TreeMap.mem_toList_iff_getElem?_eq_some, Bool.and_eq_true,
    Bool.not_eq_true', Netlist.contains_eq_isSome, Option.isSome_eq_false_iff, Option.isNone_iff_eq_none]
  constructor
  · rintro ⟨id, _, ⟨mapped, absent, unused⟩, rfl⟩
    have mem := GateMap.mem_of_mapped mapped
    rw [← GateMap.image_eq mapped] at unused
    exact ⟨id, mem, absent, (idle_iff id mem absent).mp unused, (GateMap.image_eq mapped).symm⟩
  · rintro ⟨id, mem, absent, idle, rfl⟩
    exact ⟨id, _, ⟨GateMap.image_of_mem mem, absent, (idle_iff id mem absent).mpr idle⟩, rfl⟩

theorem Fed.exists_removeUnused (side : Side) (here : gone side = false) :
    ∃ net', removeUnused net (nets side) (maps side) = .ok net' ∧
      Fed nets maps feed inputs (Function.update gone side true) net' ∧ net'.nextId = net.nextId := by
  let unused := ((maps side).toList.filter fun (old, new) =>
    !(nets side).contains old && (net.gate? new).any (·.fanout.isEmpty)).map Prod.snd
  have mem_ids : ∀ y, y ∈ (TreeSet.ofList unused).toList ↔ ∃ id ∈ maps side, (nets side).gate? id = none ∧
      ¬Waits (nets side) (feed side) id ∧ y = (maps side).image id := by
    intro y
    rw [TreeSet.mem_toList, TreeSet.mem_ofList, List.contains_iff_mem]
    exact h.mem_unused apart here
  obtain ⟨net', removed, reachable, parts, next, shapes⟩ := Netlist.exists_removeAll h.reachable
    (nodup_toList (TreeSet.ofList unused)) (by
      intro y mem
      obtain ⟨id, inside, _, _, rfl⟩ := (mem_ids y).mp mem
      obtain ⟨s, known⟩ := h.exists_image here inside
      obtain ⟨g, found, _⟩ := Netlist.shape?_eq_some.mp known
      exact ⟨g, found⟩)
  have stays : ∀ {y : GateId}, (∀ id ∈ maps side, (nets side).gate? id = none → ¬Waits (nets side) (feed side) id →
      y ≠ (maps side).image id) → net'.shape? y = net.shape? y := by
    intro y other
    rw [shapes, if_neg]
    intro mem
    obtain ⟨id, inside, absent, idle, same⟩ := (mem_ids y).mp mem
    exact other id inside absent idle same
  refine ⟨net', removed, ?_, next⟩
  constructor
  case reachable => exact reachable
  case flat =>
    rw [h.flat] at parts
    exact List.length_eq_zero_iff.mp (Nat.le_zero.mp parts)
  case gates =>
    intro side' id g found
    rw [stays]
    · exact h.gates side' found
    · intro other mem absent _ same
      obtain ⟨rfl, rfl⟩ := apart.injective (apart.mem found) mem same
      rw [found] at absent
      cases absent
  case outside =>
    intro side' id mem absent present
    by_cases same : side' = side
    · subst same
      rw [Function.update_self] at present
      have waits : Waits (nets side') (feed side') id := present.resolve_left (by decide)
      rw [stays]
      · exact h.outside side' mem absent (.inr waits)
      · intro other mem' _ idle image
        obtain ⟨_, rfl⟩ := apart.injective mem mem' image
        exact idle waits
    · rw [Function.update_of_ne same] at present
      rw [stays]
      · exact h.outside side' mem absent present
      · exact fun other mem' _ _ image => same (apart.injective mem mem' image).1
  case removed =>
    intro side' id mem absent gone idle
    by_cases same : side' = side
    · subst same
      rw [shapes, if_pos ((mem_ids _).mpr ⟨id, mem, absent, idle, rfl⟩)]
    · rw [Function.update_of_ne same] at gone
      rw [stays]
      · exact h.removed side' mem absent gone idle
      · exact fun other mem' _ _ image => same (apart.injective mem mem' image).1
  case isInput =>
    intro x mem
    rw [stays]
    · exact h.isInput x mem
    · exact fun id inside _ _ => h.new x mem side id inside
  case new => exact h.new
  case rest =>
    intro y s known
    rw [shapes] at known
    split at known
    · cases known
    · exact h.rest known
  case fed => exact h.fed

end Removal

/-! ## The joined netlist -/

/-- The images of the drivers that wait, side by side. -/
def pending (nets : Side → Netlist) (maps : Side → GateMap) (feed : Side → Link → Option GateId) : List GateId :=
  (waiting (nets .left) (feed .left)).map (maps .left).image ++
    (waiting (nets .right) (feed .right)).map (maps .right).image

theorem mem_pending {y : GateId} : y ∈ pending nets maps feed ↔
    ∃ (side : Side) (id : GateId), Waits (nets side) (feed side) id ∧ y = (maps side).image id := by
  simp only [pending, List.mem_append, List.mem_map, mem_waiting]
  constructor
  · rintro (⟨id, waits, rfl⟩ | ⟨id, waits, rfl⟩)
    · exact ⟨.left, id, waits, rfl⟩
    · exact ⟨.right, id, waits, rfl⟩
  · rintro ⟨side, id, waits, rfl⟩
    cases side with
    | left => exact .inl ⟨id, waits, rfl⟩
    | right => exact .inr ⟨id, waits, rfl⟩

theorem Apart.mem_of_waits (apart : Apart nets maps) {side : Side} {id : GateId}
    (waits : Waits (nets side) (feed side) id) : id ∈ maps side := by
  obtain ⟨l, source, rfl, _⟩ := waits
  rcases (apart.consistent side).mem_sources_iff.mp source with
    ⟨_, g, rfl, found, _⟩ | ⟨t, i, g, s, rfl, found, read, _⟩
  · exact apart.mem found
  · exact (apart.keys side _).mpr (.inr ⟨t, g, s, found, List.mem_of_getElem? read, rfl⟩)

section Joined

variable (apart : Apart nets maps) (h : Fed nets maps feed inputs gone net) (nothing : ∀ side, gone side = true)
include h

include apart in
/-- A gate that is fed reads inputs, and images of its drivers. -/
theorem Fed.driver_cases {side : Side} {id : GateId} {g : Gate} (found : (nets side).gate? id = some g) {y : Signal}
    (read : y ∈ (g.toShape.fed (maps side).image (feed side) id).inputs) :
    y.driver ∈ inputs ∨ ∃ z ∈ g.inputs, y.driver = (maps side).image z.driver ∧
      ((∃ d, (nets side).gate? z.driver = some d) ∨ net.shape? y.driver = some ⟨.buffer, []⟩) := by
  rcases Shape.driver_of_fed read with ⟨l, moved⟩ | ⟨i, z, input, unmoved, driver⟩
  · exact .inl (h.fed side moved).2
  · have inside := List.mem_of_getElem? input
    refine .inr ⟨z, inside, driver, ?_⟩
    cases driven : (nets side).gate? z.driver with
    | some d => exact .inl ⟨d, rfl⟩
    | none =>
      have waits : Waits (nets side) (feed side) z.driver :=
        ⟨_, ((apart.consistent side).edge_mem_sources found input).mpr driven, rfl, unmoved⟩
      rw [driver]
      exact .inr (h.outside side (apart.mem_of_waits waits) driven (.inr waits))

include nothing

/-- What is left are the inputs, the gates of both sides, and the drivers outside that wait. -/
theorem Fed.cases {y : GateId} {s : Shape} (known : net.shape? y = some s) :
    (y ∈ inputs ∧ s = ⟨.input, []⟩) ∨
      (∃ (side : Side) (id : GateId) (g : Gate), (nets side).gate? id = some g ∧ y = (maps side).image id ∧
        s = g.toShape.fed (maps side).image (feed side) id) ∨
      ∃ (side : Side) (id : GateId), (nets side).gate? id = none ∧ Waits (nets side) (feed side) id ∧
        y = (maps side).image id ∧ s = ⟨.buffer, []⟩ := by
  rcases h.rest known with input | ⟨side, id, mem, rfl⟩
  · rw [h.isInput y input] at known
    exact .inl ⟨input, (Option.some.inj known).symm⟩
  · cases found : (nets side).gate? id with
    | none =>
      by_cases waits : Waits (nets side) (feed side) id
      · rw [h.outside side mem found (.inr waits)] at known
        exact .inr (.inr ⟨side, id, found, waits, rfl, (Option.some.inj known).symm⟩)
      · rw [h.removed side mem found (nothing side) waits] at known
        cases known
    | some g =>
      rw [h.gates side found] at known
      exact .inr (.inl ⟨side, id, g, found, rfl, (Option.some.inj known).symm⟩)

include apart

/-- A step of the joined netlist is one of its sides, or starts at a gate that nothing feeds. -/
theorem Fed.feeds_cases {a b : GateId} (feeds : Feeds net.gate? a b) : ∃ side, ∃ id ∈ maps side,
    b = (maps side).image id ∧ ((∀ d, ¬Feeds net.gate? d a) ∨ ∃ id' ∈ maps side, a = (maps side).image id' ∧
      id' ∈ (nets side).view.part.gates ∧ id ∈ (nets side).view.part.gates ∧ Feeds (nets side).gate? id' id) := by
  have bare : ∀ {x : GateId} {fn : GateFn}, net.shape? x = some ⟨fn, []⟩ → ∀ d, ¬Feeds net.gate? d x := by
    intro x fn known d feeds
    obtain ⟨s, now, _, y, read, _⟩ := Netlist.feeds_iff_shape?.mp feeds
    rw [known] at now
    cases now
    cases read
  obtain ⟨s, known, plain, y, read, rfl⟩ := Netlist.feeds_iff_shape?.mp feeds
  rcases h.cases nothing known with ⟨_, rfl⟩ | ⟨side, id, g, found, rfl, rfl⟩ | ⟨_, _, _, _, _, rfl⟩
  · cases read
  · refine ⟨side, id, apart.mem found, rfl, ?_⟩
    rcases h.driver_cases apart found read with input | ⟨z, inside, image, ⟨d, driver⟩ | waits⟩
    · exact .inl (bare (h.isInput _ input))
    · have consistent := apart.consistent side
      -- What reads a driver is no source, so its port is not fed and its events are those it had.
      have port := h.unfed_port apart found (Shape.isSource_eq_false_of_read inside)
      rw [Shape.isTrigger_congr (Shape.events_fed port)] at plain
      exact .inr ⟨z.driver, apart.mem driver, image, consistent.mem_view_gates.mpr ⟨d, driver⟩,
        consistent.mem_view_gates.mpr ⟨g, found⟩, g, found, plain, z, inside, rfl⟩
    · exact .inl (bare waits)
  · cases read

/-- A path ends in one of the sides. It has come through its gates, or from a gate that nothing feeds. -/
theorem Fed.path_cases {a b : GateId} (path : Relation.TransGen
      (fun a b => a ∈ net.view.part.gates ∧ b ∈ net.view.part.gates ∧ Feeds net.gate? a b) a b) :
    (∃ d, Feeds net.gate? d b) ∧ ∃ side, ∃ id ∈ maps side, b = (maps side).image id ∧
      ((∀ d, ¬Feeds net.gate? d a) ∨ ∃ id' ∈ maps side, a = (maps side).image id' ∧
        Relation.TransGen (fun a b => a ∈ (nets side).view.part.gates ∧ b ∈ (nets side).view.part.gates ∧
          Feeds (nets side).gate? a b) id' id) := by
  induction path with
  | single edge =>
    refine ⟨⟨_, edge.2.2⟩, ?_⟩
    obtain ⟨side, id, mem, image, bare | ⟨id', mem', image', feeds⟩⟩ := h.feeds_cases apart nothing edge.2.2
    · exact ⟨side, id, mem, image, .inl bare⟩
    · exact ⟨side, id, mem, image, .inr ⟨id', mem', image', .single feeds⟩⟩
  | tail _ edge ih =>
    -- The path so far feeds the next gate, so the next step cannot start at a gate that nothing feeds.
    obtain ⟨⟨d, fed⟩, side, id, mem, image, before⟩ := ih
    refine ⟨⟨_, edge.2.2⟩, ?_⟩
    obtain ⟨side', id₂, mem₂, image₂, bare | ⟨id', mem', image', feeds⟩⟩ := h.feeds_cases apart nothing edge.2.2
    · exact absurd fed (bare d)
    · obtain ⟨rfl, rfl⟩ := apart.injective mem mem' (image.symm.trans image')
      refine ⟨side, id₂, mem₂, image₂, ?_⟩
      rcases before with bare | ⟨first, memFirst, imageFirst, path⟩
      · exact .inl bare
      · exact .inr ⟨first, memFirst, imageFirst, path.tail feeds⟩

theorem Fed.acyclic : net.view.Acyclic := by
  intro t loop
  obtain ⟨⟨d, fed⟩, side, id, mem, image, bare | ⟨id', mem', image', path⟩⟩ := h.path_cases apart nothing loop
  · exact bare d fed
  · obtain ⟨_, rfl⟩ := apart.injective mem' mem (image'.symm.trans image)
    exact apart.acyclic side id' path

/-- The sources are the inputs and the drivers that wait. -/
theorem Fed.source_iff {y : GateId} : (∃ s, net.shape? y = some s ∧ s.isSource = true) ↔
    y ∈ inputs ∨ ∃ (side : Side) (id : GateId), Waits (nets side) (feed side) id ∧ y = (maps side).image id := by
  constructor
  · rintro ⟨s, known, source⟩
    rcases h.cases nothing known with ⟨input, _⟩ | ⟨side, id, g, found, rfl, rfl⟩ | ⟨side, id, _, waits, image, _⟩
    · exact .inl input
    · obtain ⟨isSource, unfed⟩ := Shape.isSource_fed_iff.mp source
      exact .inr ⟨side, id, ⟨_, ((apart.consistent side).port_mem_sources found).mpr isSource, rfl, unfed⟩, rfl⟩
    · exact .inr ⟨side, id, waits, image⟩
  · rintro (input | ⟨side, id, waits, rfl⟩)
    · exact ⟨_, h.isInput y input, rfl⟩
    · obtain ⟨l, isLink, rfl, unfed⟩ := waits
      rcases (apart.consistent side).mem_sources_iff.mp isLink with
        ⟨id, g, rfl, found, source⟩ | ⟨t, i, g, s, rfl, found, read, absent⟩
      · exact ⟨_, h.gates side found, Shape.isSource_fed_iff.mpr ⟨source, unfed⟩⟩
      · have waits : Waits (nets side) (feed side) s.driver := ⟨_, isLink, rfl, unfed⟩
        exact ⟨_, h.outside side (apart.mem_of_waits waits) absent (.inr waits), rfl⟩

/-- The outputs are those of both sides. -/
theorem Fed.output_iff {y : GateId} :
    (∃ s, net.shape? y = some s ∧ s.isOutput = true) ↔ ∃ (side : Side) (id : GateId) (g : Gate),
      (nets side).gate? id = some g ∧ g.isOutput = true ∧ y = (maps side).image id := by
  constructor
  · rintro ⟨s, known, output⟩
    rcases h.cases nothing known with ⟨_, rfl⟩ | ⟨side, id, g, found, rfl, rfl⟩ | ⟨_, _, _, _, _, rfl⟩
    · cases output
    · exact ⟨side, id, g, found, Shape.isOutput_of_fed output, rfl⟩
    · cases output
  · rintro ⟨side, id, g, found, output, rfl⟩
    obtain ⟨x, eq⟩ := (apart.consistent side).eq_of_isOutput (Netlist.shape?_of_gate? found) output
    have port := h.unfed_port apart found (by rw [eq]; rfl)
    refine ⟨_, h.gates side found, ?_⟩
    rw [Shape.fed_of_unfed port]
    exact output

/-- THE JOINED NETLIST IS SELF-CONTAINED. Its sources are the inputs and the drivers that wait. -/
theorem Fed.selfContained : net.SelfContained (inputs ++ pending nets maps feed) := by
  refine ⟨h.reachable, h.flat, ?inside, fun y => ?sources, h.acyclic apart nothing⟩
  case sources => rw [List.mem_append, mem_pending, h.source_iff apart nothing]
  intro y s known z read
  rcases h.cases nothing known with ⟨_, rfl⟩ | ⟨side, id, g, found, rfl, rfl⟩ | ⟨_, _, _, _, _, rfl⟩
  · cases read
  · rcases h.driver_cases apart found read with input | ⟨_, _, image, ⟨d, driver⟩ | waits⟩
    · exact ⟨_, h.isInput _ input⟩
    · rw [image]
      exact ⟨_, h.gates side driver⟩
    · exact ⟨_, waits⟩
  · cases read

omit nothing in
/-- Each source is listed once. -/
theorem Fed.nodup_sources (distinct : inputs.Nodup) : (inputs ++ pending nets maps feed).Nodup := by
  have once : ∀ side, ((waiting (nets side) (feed side)).map (maps side).image).Nodup := by
    intro side
    refine List.Nodup.map_on (fun a memA b memB same => ?_) (nodup_driversOf _)
    exact (apart.injective (apart.mem_of_waits (mem_waiting.mp memA)) (apart.mem_of_waits (mem_waiting.mp memB)) same).2
  refine List.Nodup.append distinct (List.Nodup.append (once .left) (once .right) ?_) ?_
  · intro y left right
    obtain ⟨a, memA, rfl⟩ := List.mem_map.mp left
    obtain ⟨b, memB, same⟩ := List.mem_map.mp right
    exact nomatch (apart.injective (apart.mem_of_waits (mem_waiting.mp memB))
      (apart.mem_of_waits (mem_waiting.mp memA)) same).1
  · intro y input waits
    obtain ⟨side, id, waits, image⟩ := mem_pending.mp waits
    exact h.new y input side id (apart.mem_of_waits waits) image

/-- Circuits are joined to a circuit. -/
theorem Fed.logical (circuit : ∀ side, (nets side).view.Circuit) : net.Logical := by
  intro y s known
  rcases h.cases nothing known with ⟨_, rfl⟩ | ⟨side, id, g, found, rfl, rfl⟩ | ⟨_, _, _, _, _, rfl⟩
  · exact ⟨rfl, rfl⟩
  · have inside := (apart.consistent side).mem_view_gates.mpr ⟨g, found⟩
    obtain ⟨logic, plain⟩ := (circuit side).logic id inside g found
    exact ⟨Shape.isLogic_fed logic, Shape.isTrigger_fed plain⟩
  · exact ⟨rfl, rfl⟩

end Joined

section Complete

variable (apart : Apart nets maps) (h : Fed nets maps feed inputs gone net)
  (complete : ∀ (side : Side), ∀ l ∈ (nets side).sources, ∃ x, feed side l = some x)
include complete

/-- With everything fed, nothing waits. -/
theorem not_waits {side : Side} {id : GateId} : ¬Waits (nets side) (feed side) id := by
  rintro ⟨l, source, _, unfed⟩
  obtain ⟨x, moved⟩ := complete side l source
  rw [unfed] at moved
  cases moved

theorem pending_eq_nil : pending nets maps feed = [] := by
  refine List.eq_nil_iff_forall_not_mem.mpr fun y mem => ?_
  obtain ⟨side, id, waits, _⟩ := mem_pending.mp mem
  exact not_waits complete waits

include apart h

/-- In a valuation of the joined netlist each side has its values under what its links are fed. -/
theorem Fed.fedBy (circuit : ∀ side, (nets side).view.Circuit) {val : GateId → Bool}
    (valuation : net.view.Valuation val) (side : Side) :
    (nets side).FedBy (fun l => ((feed side l).map val).getD false) fun id => val ((maps side).image id) := by
  intro id g found
  beta_reduce
  have logic := ((circuit side).logic id ((apart.consistent side).mem_view_gates.mpr ⟨g, found⟩) g found).1
  have driven : (g.toShape.fed (maps side).image (feed side) id).isSource = false := by
    refine Bool.eq_false_iff.mpr fun source => ?_
    obtain ⟨isSource, unfed⟩ := Shape.isSource_fed_iff.mp source
    exact not_waits complete ⟨_, ((apart.consistent side).port_mem_sources found).mpr isSource, rfl, unfed⟩
  have value := h.reachable.consistent.value_of_shape? valuation (h.gates side found) (Shape.isLogic_fed logic) driven
  cases source : g.isSource with
  | true =>
    obtain ⟨x, moved⟩ := complete side _ (((apart.consistent side).port_mem_sources found).mpr source)
    rw [Shape.fed_of_port moved, Shape.value_nary] at value
    rw [if_pos rfl, moved]
    exact value
  | false =>
    rw [Shape.fed_of_unfed (h.unfed_port apart found source), Shape.value] at value
    rw [if_neg Bool.false_ne_true, value]
    congr 1
    refine List.ext_getElem? fun i => ?_
    rw [List.getElem?_map, List.getElem?_mapIdx, List.getElem?_mapIdx, Option.map_map]
    cases input : g.inputs[i]? with
    | none => rfl
    | some s =>
      rw [Option.map_some, Option.map_some]
      have edge := (apart.consistent side).edge_mem_sources found input
      cases driver : (nets side).gate? s.driver with
      | none =>
        obtain ⟨x, moved⟩ := complete side _ (edge.mpr driver)
        rw [Netlist.contains_eq_isSome, driver, Function.comp_apply, moved]
        rfl
      | some d =>
        have unmoved : feed side (.edge s.driver id i) = none := by
          refine Option.eq_none_iff_forall_ne_some.mpr fun x moved => ?_
          rw [edge.mp (h.fed side moved).1] at driver
          cases driver
        rw [Netlist.contains_eq_isSome, driver, Function.comp_apply, unmoved]
        rfl

end Complete

/-! ## From the imports on -/

section Imports

variable {left right : Netlist} (reachable : ∀ side : Side, (side.pick left right).Reachable)
  (acyclic : ∀ side : Side, (side.pick left right).view.Acyclic)

section TwoImports

variable {leftMap rightMap : GateMap} {net₁ net₂ : Netlist} (consistent₁ : net₁.Consistent)
  (importedLeft : Netlist.Imported .empty left leftMap net₁) (importedRight : Netlist.Imported net₁ right rightMap net₂)
include consistent₁ importedLeft importedRight

/-- The numbers of the second import are above those of the first. -/
theorem image_ne_later {a b y : GateId} (mem : a ∈ leftMap) (mapped : rightMap[b]? = some y) : leftMap.image a ≠ y := by
  intro same
  have low := importedLeft.image_lt consistent₁ mem
  have high := importedRight.fresh mapped
  rw [same] at low
  exact absurd low (Nat.not_lt.mpr high)

include reachable acyclic

theorem apart_of_imports : Apart (fun side => side.pick left right) (fun side => side.pick leftMap rightMap) := by
  refine ⟨reachable, acyclic, ?keys, ?injective⟩
  case keys =>
    intro side
    cases side with
    | left => exact importedLeft.keys
    | right => exact importedRight.keys
  case injective =>
    intro side side' a b memA memB same
    have mappedA := GateMap.image_of_mem memA
    have mappedB := GateMap.image_of_mem memB
    cases side with
    | left =>
      cases side' with
      | left => exact ⟨rfl, importedLeft.injective mappedA (same ▸ mappedB)⟩
      | right => exact absurd same (image_ne_later consistent₁ importedLeft importedRight memA mappedB)
    | right =>
      cases side' with
      | left => exact absurd same.symm (image_ne_later consistent₁ importedLeft importedRight memB mappedA)
      | right => exact ⟨rfl, importedRight.injective mappedA (same ▸ mappedB)⟩

omit reachable acyclic in
theorem fed_of_imports (reachable : net₂.flatten.Reachable) :
    Fed (fun side => side.pick left right) (fun side => side.pick leftMap rightMap) (fun _ _ => none) []
      (fun _ => false) net₂.flatten := by
  have shapes : net₂.flatten.shape? = net₂.shape? := rfl
  have keptLeft : ∀ {id : GateId}, id ∈ leftMap → net₂.shape? (leftMap.image id) = net₁.shape? (leftMap.image id) :=
    fun mem => importedRight.kept _ fun b mapped =>
      image_ne_later consistent₁ importedLeft importedRight mem mapped rfl
  constructor
  case reachable => exact reachable
  case flat => rfl
  case gates =>
    intro side id g found
    rw [shapes, Shape.fed_nothing]
    cases side with
    | left => exact (keptLeft ((importedLeft.keys id).mpr (.inl ⟨g, found⟩))).trans (importedLeft.gates found)
    | right => exact importedRight.gates found
  case outside =>
    intro side id mem absent _
    rw [shapes]
    cases side with
    | left => exact (keptLeft mem).trans (importedLeft.outside (GateMap.image_of_mem mem) absent)
    | right => exact importedRight.outside (GateMap.image_of_mem mem) absent
  case removed => simp
  case isInput => simp
  case new => simp
  case rest =>
    intro y s known
    rw [shapes] at known
    by_cases image : ∃ id : GateId, rightMap[id]? = some y
    · obtain ⟨id, mapped⟩ := image
      exact .inr ⟨.right, id, GateMap.mem_of_mapped mapped, (GateMap.image_eq mapped).symm⟩
    rw [importedRight.kept y (not_exists.mp image)] at known
    by_cases image : ∃ id : GateId, leftMap[id]? = some y
    · obtain ⟨id, mapped⟩ := image
      exact .inr ⟨.left, id, GateMap.mem_of_mapped mapped, (GateMap.image_eq mapped).symm⟩
    rw [importedLeft.kept y (not_exists.mp image)] at known
    cases known
  case fed => simp

end TwoImports

include reachable acyclic

/-- Two netlists can be imported into nothing, and are apart. -/
theorem exists_imports (room : left.names.length + right.names.length ≤ GateId.largest) :
    ∃ leftMap rightMap net₁ net₂, Netlist.empty.importNet left = .ok (leftMap, net₁) ∧
      net₁.importNet right = .ok (rightMap, net₂) ∧
      Apart (fun side => side.pick left right) (fun side => side.pick leftMap rightMap) ∧
      Fed (fun side => side.pick left right) (fun side => side.pick leftMap rightMap) (fun _ _ => none) []
        (fun _ => false) net₂.flatten ∧
      net₂.flatten.nextId = left.names.length + right.names.length := by
  have reachableLeft : left.Reachable := reachable .left
  have reachableRight : right.Reachable := reachable .right
  have next₀ : Netlist.empty.nextId = 0 := rfl
  obtain ⟨leftMap, net₁, importLeft, importedLeft⟩ := Netlist.exists_importNet
    Netlist.Reachable.empty.consistent reachableLeft.consistent (by rw [next₀]; omega)
  have reachable₁ : net₁.Reachable := .importNet .empty reachableLeft importLeft
  have next₁ := importedLeft.next
  obtain ⟨rightMap, net₂, importRight, importedRight⟩ := Netlist.exists_importNet
    reachable₁.consistent reachableRight.consistent (by rw [next₁, next₀]; omega)
  have reachable₂ : net₂.Reachable := .importNet reachable₁ reachableRight importRight
  refine ⟨leftMap, rightMap, net₁, net₂, importLeft, importRight,
    apart_of_imports reachable acyclic reachable₁.consistent importedLeft importedRight,
    fed_of_imports reachable₁.consistent importedLeft importedRight (.flatten reachable₂), ?_⟩
  show net₂.nextId = _
  rw [importedRight.next, next₁, next₀, Nat.zero_add]

end Imports

end Miter

end LogicNet
