import RailAtlas.Proofs.Index.Locating
import RailAtlas.Proofs.Registry.Simulation

/-!
# Looking things up in a registry

A registry is searched from label to label. Such a search may follow a link that leads nowhere, and
nothing says that it comes to an end. Where a branch is kept it does both in order: given fuel for
the levels of the branch, each search is answered without fault, and what it finds is what a walk
over the branch finds.
-/

namespace RailAtlas

namespace Registry

/-- List the labels of the clusters that hold an entity, from a cluster down, after those that are
listed already. -/
def collectHolders (r : Registry) (owner : OwnerId) (entity : EntityId) :
    (fuel : Nat) → ClusterId → List ClusterId → Except WiringFault (List ClusterId)
  | 0, _, _ => .error .tooDeep
  | fuel + 1, id, found => do
    let e ← r.get id
    let found := if e.cluster.holds owner entity then found ++ [id] else found
    e.children.foldlM (fun found child => r.collectHolders owner entity fuel child found) found

/-- The chunk of an owner that holds an entity, at exactly the given scale and from a cluster down.
An unknown cluster has none. -/
def findChunk (r : Registry) (owner : OwnerId) (entity : EntityId) (scale : Int) :
    (fuel : Nat) → ClusterId → Except WiringFault (Option Chunk)
  | 0, _ => .error .tooDeep
  | fuel + 1, id =>
    match r.entries id with
    | none => .ok none
    | some e =>
      if e.cluster.square.scale = scale then
        .ok ((e.cluster.bucket? owner).filter fun chunk => chunk.has entity)
      else if e.cluster.square.scale < scale then .ok none
      else e.children.findSomeM? fun child => r.findChunk owner entity scale fuel child

/-- The child that a descent to a point enters: that of the first quadrant which has one and holds
the point. At the finest scale there are no quadrants. -/
def childToward (r : Registry) (p : Point) (e : ClusterEntry) : Option ClusterId :=
  if r.splits e.cluster.square.scale then
    Quadrant.all.findSome? fun q =>
      if (e.cluster.square.quadrant q).contains p then e.slot q else none
  else none

/-- The cluster at exactly the given scale that a descent to a point comes to. -/
def locate (r : Registry) (p : Point) (scale : Int) :
    (fuel : Nat) → ClusterId → Except WiringFault (Option ClusterId)
  | 0, _ => .error .tooDeep
  | fuel + 1, id => do
    let e ← r.get id
    if e.cluster.square.scale < scale ∨ !e.cluster.square.contains p then .ok none
    else if e.cluster.square.scale = scale then .ok (some id)
    else
      match r.childToward p e with
      | none => .ok none
      | some child => r.locate p scale fuel child

/-- What stands against deleting a cluster: the first data in it or below it, unless a label is
unknown. -/
def obstacle (r : Registry) : (fuel : Nat) → ClusterId → Except WiringFault (Option IndexError)
  | 0, _ => .error .tooDeep
  | fuel + 1, id =>
    match r.entries id with
    | none => .ok (some (.unknownCluster id))
    | some e =>
      if e.cluster.hasData then .ok (some (.dataExists id))
      else e.children.findSomeM? fun child => r.obstacle fuel child

def checkDelete (r : Registry) (id : ClusterId) : Except WiringFault (Except IndexError Unit) :=
  (r.obstacle r.fuel id).map fun
    | some cause => .error cause
    | none => .ok ()

/-! ### Children in turn -/

section Children

variable {slot : Quadrant → Option ClusterId} {α : Type}

/-- What the children add to a list is what their quadrants add. -/
theorem foldlM_children_append {f : Quadrant → List α}
    {step : List α → ClusterId → Except WiringFault (List α)}
    (none_adds : ∀ q, slot q = none → f q = [])
    (adds : ∀ q id found, slot q = some id → step found id = .ok (found ++ f q))
    (qs : List Quadrant) (found : List α) :
    (qs.filterMap slot).foldlM step found = .ok (found ++ qs.flatMap f) := by
  induction qs generalizing found with
  | nil => simp [pure, Except.pure]
  | cons q qs ih =>
    rw [List.flatMap_cons, ← List.append_assoc]
    cases hq : slot q with
    | none =>
      rw [List.filterMap_cons_none hq, none_adds q hq, List.append_nil]
      exact ih found
    | some id =>
      rw [List.filterMap_cons_some hq, List.foldlM_cons, adds q id found hq]
      exact ih (found ++ f q)

/-- What is found first among the children is found first among their quadrants. -/
theorem findSomeM?_children {f : Quadrant → Option α}
    {step : ClusterId → Except WiringFault (Option α)}
    (none_finds : ∀ q, slot q = none → f q = none)
    (finds : ∀ q id, slot q = some id → step id = .ok (f q)) (qs : List Quadrant) :
    (qs.filterMap slot).findSomeM? step = .ok (qs.findSome? f) := by
  induction qs with
  | nil => rfl
  | cons q qs ih =>
    rw [List.findSome?_cons]
    cases hq : slot q with
    | none =>
      rw [List.filterMap_cons_none hq, none_finds q hq]
      exact ih
    | some id =>
      rw [List.filterMap_cons_some hq, List.findSomeM?_cons, finds q id hq]
      cases f q with
      | none => exact ih
      | some x => rfl

/-- What is found first is found where something is found first. -/
theorem findSome?_eq_bind_find? {β : Type} {f : β → Option α} (l : List β) :
    l.findSome? f = (l.find? fun a => (f a).isSome).bind f := by
  induction l with
  | nil => rfl
  | cons a l ih =>
    rw [List.findSome?_cons, List.find?_cons]
    cases hf : f a with
    | none => exact ih
    | some x => exact hf.symm

end Children

end Registry

namespace Branch

variable {b : Branch}

theorem label?_eq_none_iff : b.label? = none ↔ b = absent := by
  rw [label?, Option.map_eq_none_iff, top?_eq_none_iff]

end Branch

namespace Registry

variable {r : Registry} {parent : Option ClusterId} {b : Branch} {c : Cluster} {levels fuel : Nat}
variable {owner : OwnerId} {entity : EntityId} {scale : Int} {p : Point}

/-- All holders of a kept branch are listed. -/
theorem collectHolders_spec (h : b.Kept r.entries parent) (hc : b.top? = some c)
    (sound : b.Sound levels c.square) (enough : levels < fuel) (found : List ClusterId) :
    r.collectHolders owner entity fuel c.id found = .ok (found ++ b.holders owner entity) := by
  refine h.fuel_induction (motive := fun fuel _ c b => ∀ found,
    r.collectHolders owner entity fuel c.id found = .ok (found ++ b.holders owner entity))
    ?_ hc sound enough found
  intro fuel levels parent c b hc he sound below found
  have listed : (if c.holds owner entity then found ++ [c.id] else found) =
      found ++ if c.holds owner entity then [c.id] else [] := by
    split
    · rfl
    · rw [List.append_nil]
  rw [collectHolders, get_eq he, Branch.holders_eq hc, ← List.append_assoc, ← listed]
  refine (congrArg (List.foldlM _ _) Branch.children_entryAt).trans ?_
  apply foldlM_children_append
  · intro q free
    rw [Branch.label?_eq_none_iff.mp free]
    rfl
  · intro q id found hid
    obtain ⟨d, hd, rfl⟩ := Option.map_eq_some_iff.mp hid
    obtain ⟨-, -, -, collected⟩ := below q d hd
    exact collected found

/-- What is searched for in a kept branch is found. -/
theorem findChunk_spec (h : b.Kept r.entries parent) (hc : b.top? = some c)
    (sound : b.Sound levels c.square) (enough : levels < fuel) :
    r.findChunk owner entity scale fuel c.id = .ok (b.findChunk? owner entity scale) := by
  refine h.fuel_induction (motive := fun fuel _ c b =>
    r.findChunk owner entity scale fuel c.id = .ok (b.findChunk? owner entity scale))
    ?_ hc sound enough
  intro fuel levels parent c b hc he sound below
  have searched : (Branch.entryAt parent b [] c).children.findSomeM?
      (fun child => r.findChunk owner entity scale fuel child) =
        .ok (Quadrant.all.findSome? fun q => (b.child q).findChunk? owner entity scale) := by
    rw [Branch.children_entryAt]
    apply findSomeM?_children
    · intro q free
      rw [Branch.label?_eq_none_iff.mp free]
      rfl
    · intro q id hid
      obtain ⟨d, hd, rfl⟩ := Option.map_eq_some_iff.mp hid
      obtain ⟨-, -, -, found⟩ := below q d hd
      exact found
  rw [findChunk, he, Branch.findChunk?_eq hc]
  change (if c.square.scale = scale then _ else if c.square.scale < scale then _ else _) = _
  split
  · rfl
  · split
    · rfl
    · exact searched

/-- The first data in a kept branch is what stands against deleting it. -/
theorem obstacle_spec (h : b.Kept r.entries parent) (hc : b.top? = some c)
    (sound : b.Sound levels c.square) (enough : levels < fuel) :
    r.obstacle fuel c.id = .ok (b.firstData?.map .dataExists) := by
  refine h.fuel_induction (motive := fun fuel _ c b =>
    r.obstacle fuel c.id = .ok (b.firstData?.map .dataExists)) ?_ hc sound enough
  intro fuel levels parent c b hc he sound below
  have searched : (Branch.entryAt parent b [] c).children.findSomeM?
      (fun child => r.obstacle fuel child) =
        .ok ((Quadrant.all.findSome? fun q => (b.child q).firstData?).map .dataExists) := by
    rw [Branch.children_entryAt, List.map_findSome?]
    apply findSomeM?_children
    · intro q free
      simp [Branch.label?_eq_none_iff.mp free, Branch.firstData?]
    · intro q id hid
      obtain ⟨d, hd, rfl⟩ := Option.map_eq_some_iff.mp hid
      obtain ⟨-, -, -, found⟩ := below q d hd
      exact found
  rw [obstacle, he, Branch.firstData?_eq hc]
  change (if c.hasData then _ else _) = _
  split
  · rfl
  · exact searched

/-- The child that a descent enters is that of the first quadrant that takes the point. -/
theorem childToward_entryAt (fine : ∀ q, (b.child q).top?.isSome → r.splits c.square.scale = true) :
    r.childToward p (Branch.entryAt parent b [] c) =
      (Quadrant.all.find? fun q => (b.child q).takes c.square q p).bind fun q =>
        (b.child q).label? := by
  have label (q : Quadrant) : (b.child q).label?.isSome = (b.child q).top?.isSome :=
    Option.isSome_map
  by_cases splits : r.splits c.square.scale = true
  · have entered : r.childToward p (Branch.entryAt parent b [] c) =
        Quadrant.all.findSome? fun q =>
          if (c.square.quadrant q).contains p then (b.child q).label? else none := by
      simp only [childToward, Branch.slot_top]
      exact if_pos splits
    have taken (q : Quadrant) : (if (c.square.quadrant q).contains p then (b.child q).label?
        else none).isSome = (b.child q).takes c.square q p := by
      rw [Bool.eq_iff_iff, Branch.takes_eq_true_iff, ← label]
      split <;> simp [*]
    rw [entered, findSome?_eq_bind_find?]
    simp only [taken]
    refine Option.bind_congr fun q found => ?_
    have takes := List.find?_some found
    rw [if_pos (Branch.takes_eq_true_iff.mp takes).2]
  · have none_takes : Quadrant.all.find? (fun q => (b.child q).takes c.square q p) = none := by
      rw [List.find?_eq_none]
      intro q _ takes
      exact splits (fine q (Branch.takes_eq_true_iff.mp takes).1)
    rw [none_takes, childToward]
    exact if_neg splits

/-- A descent in a kept branch comes to the cluster that is located. -/
theorem locate_spec (h : b.Kept r.entries parent) (hc : b.top? = some c)
    (sound : b.Sound levels c.square) (enough : levels < fuel)
    (depth : levels = (c.square.scale - r.range.minScale).toNat) :
    r.locate p scale fuel c.id = .ok ((b.locate? p scale).map (·.id)) := by
  refine h.fuel_induction (motive := fun fuel levels c b =>
    levels = (c.square.scale - r.range.minScale).toNat →
      r.locate p scale fuel c.id = .ok ((b.locate? p scale).map (·.id))) ?_ hc sound enough depth
  intro fuel levels parent c b hc he sound below depth
  have fine : ∀ q, (b.child q).top?.isSome → r.splits c.square.scale = true := by
    intro q htop
    obtain ⟨d, hd⟩ := Option.isSome_iff_exists.mp htop
    obtain ⟨rest, hlevels, -⟩ := below q d hd
    rw [splits, decide_eq_true_eq]
    omega
  rw [locate, get_eq he, Branch.locate?_eq hc]
  change (if c.square.scale < scale ∨ !c.square.contains p then _
    else if c.square.scale = scale then _ else _) = _
  split
  · rfl
  split
  · rfl
  rw [childToward_entryAt fine]
  cases hq : Quadrant.all.find? fun q => (b.child q).takes c.square q p with
  | none => rfl
  | some q =>
    have takes := List.find?_some hq
    obtain ⟨d, hd⟩ := Option.isSome_iff_exists.mp (Branch.takes_eq_true_iff.mp takes).1
    obtain ⟨rest, hlevels, place, located⟩ := below q d hd
    have finer : d.square.scale = c.square.scale - 1 := congrArg Square.scale place
    have deeper : rest = (d.square.scale - r.range.minScale).toNat := by omega
    rw [Option.bind_some, Option.bind_some, Branch.label?_of_top? hd]
    exact located deeper

end Registry

/-! ### The registry of a tree -/

namespace Tree

variable {t : Tree} {path : List Quadrant} {c : Cluster}

/-- From the label of a cluster the registry of a tree can be searched. -/
theorem Labelled.exists_kept (h : t.Labelled) (distinct : t.root.labels.Nodup)
    (hc : t.root.at? path = some c) : ∃ above, (t.root.under path).Kept t.registry.entries above ∧
      (t.root.under path).Sound (t.levelsBelow c.square.scale) c.square ∧
      t.levelsBelow c.square.scale < t.registry.fuel := by
  obtain ⟨above, stands, -⟩ := h.exists_above distinct hc
  exact ⟨above, stands.kept, h.sound_under hc, h.levelsBelow_lt_fuel hc⟩

theorem Labelled.registry_holders (h : t.Labelled) (distinct : t.root.labels.Nodup)
    (owner : OwnerId) (entity : EntityId) :
    t.registry.collectHolders owner entity t.registry.fuel rootId [] =
      .ok (t.holders owner entity) := by
  obtain ⟨c, (hc : t.root.at? [] = some c), hid⟩ := h.exists_root
  obtain ⟨above, kept, sound, enough⟩ := h.exists_kept distinct hc
  rw [← hid, Registry.collectHolders_spec kept hc sound enough, List.nil_append]
  rfl

theorem Labelled.registry_findChunkFrom (h : t.Labelled) (distinct : t.root.labels.Nodup)
    (start : ClusterId) (owner : OwnerId) (entity : EntityId) (scale : Int) :
    t.registry.findChunk owner entity scale t.registry.fuel start =
      .ok (t.findChunkFrom? start owner entity scale) := by
  cases hb : t.branch? start with
  | none =>
    have unknown : t.registry.entries start = none :=
      entry?_eq_none (Branch.find?_eq_none_iff.mp hb)
    rw [findChunkFrom?, hb, Registry.fuel, Registry.findChunk, unknown]
    rfl
  | some b =>
    obtain ⟨path, c, hc, rfl, rfl⟩ := exists_of_branch? distinct hb
    obtain ⟨above, kept, sound, enough⟩ := h.exists_kept distinct hc
    rw [Registry.findChunk_spec kept hc sound enough, findChunkFrom?, hb, Option.bind_some]

theorem Labelled.registry_findChunk (h : t.Labelled) (distinct : t.root.labels.Nodup)
    (owner : OwnerId) (entity : EntityId) (scale : Int) :
    t.registry.findChunk owner entity scale t.registry.fuel rootId =
      .ok (t.findChunk? owner entity scale) := by
  obtain ⟨c, (hc : t.root.at? [] = some c), hid⟩ := h.exists_root
  have at_root : t.branch? rootId = some t.root := hid ▸ branch?_eq distinct hc
  rw [h.registry_findChunkFrom distinct, findChunkFrom?, at_root, Option.bind_some]
  rfl

theorem Labelled.registry_locate (h : t.Labelled) (distinct : t.root.labels.Nodup) (p : Point)
    (scale : Int) : t.registry.locate p scale t.registry.fuel rootId =
      .ok ((t.locate? p scale).map (·.id)) := by
  obtain ⟨c, (hc : t.root.at? [] = some c), hid⟩ := h.exists_root
  obtain ⟨above, kept, sound, enough⟩ := h.exists_kept distinct hc
  rw [← hid, Registry.locate_spec kept hc sound enough rfl]
  rfl

theorem Labelled.registry_checkDelete (h : t.Labelled) (distinct : t.root.labels.Nodup)
    (id : ClusterId) : t.registry.checkDelete id = .ok (t.checkDelete id) := by
  rw [checkDelete]
  cases hb : t.branch? id with
  | none =>
    have unknown : t.registry.entries id = none := entry?_eq_none (Branch.find?_eq_none_iff.mp hb)
    rw [Registry.checkDelete, Registry.fuel, Registry.obstacle, unknown]
    rfl
  | some b =>
    obtain ⟨path, c, hc, rfl, rfl⟩ := exists_of_branch? distinct hb
    obtain ⟨above, kept, sound, enough⟩ := h.exists_kept distinct hc
    rw [Registry.checkDelete, Registry.obstacle_spec kept hc sound enough]
    dsimp only
    cases (t.root.under path).firstData? <;> rfl

end Tree

end RailAtlas
