import Mathlib.Data.Int.Order.Basic
import Mathlib.Data.List.Lex
import RailAtlas.Proofs.Index.Wiring

/-!
# Visiting order

A walk visits every cluster before those below it, and the quadrants of a cluster in their order.
The places of the clusters tell which comes first: a path comes before those that continue it, and
where two paths part, the quadrants decide. Clusters are listed in this order, and what walks look
for is found by going through the list.

In a tree whose labels can be told apart the order is one of labels.
-/

namespace RailAtlas

namespace Quadrant

/-- The position of a quadrant in visiting order. -/
def turn (q : Quadrant) : Nat :=
  all.idxOf q

theorem pairwise_all : all.Pairwise fun p q => p.turn < q.turn := by
  decide

theorem findSome?_all {α : Type} (f : Quadrant → Option α) : all.findSome? f =
    (f .northWest).or ((f .northEast).or ((f .southWest).or (f .southEast))) := by
  simp only [all, List.findSome?_cons, List.findSome?_nil]
  cases f .northWest <;> cases f .northEast <;> cases f .southWest <;> cases f .southEast <;> rfl

end Quadrant

/-- The order in which a walk comes to places. -/
def VisitedBefore : List Quadrant → List Quadrant → Prop :=
  List.Lex fun p q => p.turn < q.turn

namespace VisitedBefore

variable {path other : List Quadrant}

/-- A place comes before those below it. -/
theorem of_isPrefix (h : path <+: other) (apart : path ≠ other) : VisitedBefore path other := by
  obtain ⟨_ | ⟨q, rest⟩, rfl⟩ := h
  · exact absurd (List.append_nil path).symm apart
  · have below : VisitedBefore (path ++ []) (path ++ q :: rest) := .append_left _ .nil path
    rwa [List.append_nil] at below

theorem asymm (h : VisitedBefore path other) : ¬ VisitedBefore other path := by
  have turns : Std.Asymm fun p q : Quadrant => p.turn < q.turn := ⟨fun _ _ => Nat.lt_asymm⟩
  exact (List.Lex.asymm _).asymm _ _ h

end VisitedBefore

/-- The first value found, if it leads on, is the first that leads on. -/
theorem bind_findSome? {α β γ : Type} {f : α → Option β} {g : β → Option γ} {l : List α}
    (leads : ∀ a ∈ l, ∀ x, f a = some x → (g x).isSome) :
    (l.findSome? f).bind g = l.findSome? fun a => (f a).bind g := by
  induction l with
  | nil => rfl
  | cons a l ih =>
    rw [List.findSome?_cons, List.findSome?_cons]
    cases hf : f a with
    | none => exact ih fun b hb => leads b (List.mem_cons_of_mem a hb)
    | some x =>
      obtain ⟨y, hy⟩ := Option.isSome_iff_exists.mp (leads a List.mem_cons_self x hf)
      simp [hy]

namespace Cluster

variable {c : Cluster} {owner : OwnerId} {entity : EntityId} {scale : Int}

/-- Whether the cluster is of the given scale and holds an entity. -/
def holdsOn (scale : Int) (owner : OwnerId) (entity : EntityId) (c : Cluster) : Bool :=
  decide (c.square.scale = scale) && c.holds owner entity

theorem holdsOn_eq_true_iff :
    c.holdsOn scale owner entity = true ↔ c.square.scale = scale ∧ c.holds owner entity = true := by
  rw [holdsOn, Bool.and_eq_true, decide_eq_true_eq]

/-- The chunk that holds an entity is that of a holder. -/
theorem filter_bucket?_eq : ((c.bucket? owner).filter fun chunk => chunk.has entity) =
    if c.holds owner entity then c.bucket? owner else none := by
  rw [holds]
  cases hb : c.bucket? owner with
  | none => simp
  | some chunk => rw [Option.filter_some]

theorem isSome_bucket?_of_holds (h : c.holds owner entity = true) : (c.bucket? owner).isSome := by
  rw [holds] at h
  split at h
  · next chunk hb => rw [hb, Option.isSome_some]
  · cases h

end Cluster

namespace Branch

variable {b : Branch} {c d : Cluster} {q : Quadrant} {path : List Quadrant}
variable {owner : OwnerId} {entity : EntityId} {levels : Nat} {square : Square} {scale : Int}

/-! ### One quadrant after the other -/

theorem clusters_eq (hc : b.top? = some c) :
    b.clusters = c :: Quadrant.all.flatMap fun q => (b.child q).clusters := by
  cases b with
  | absent => cases hc
  | node top nw ne sw se =>
    obtain rfl : top = c := Option.some.inj hc
    simp [clusters, Quadrant.all, child]

theorem places_eq (hc : b.top? = some c) :
    b.places = [] :: Quadrant.all.flatMap fun q => (b.child q).places.map (q :: ·) := by
  cases b with
  | absent => cases hc
  | node top nw ne sw se => simp [places, Quadrant.all, child]

theorem holders_eq (hc : b.top? = some c) : b.holders owner entity =
    (if c.holds owner entity then [c.id] else []) ++
      Quadrant.all.flatMap fun q => (b.child q).holders owner entity := by
  cases b with
  | absent => cases hc
  | node top nw ne sw se =>
    obtain rfl : top = c := Option.some.inj hc
    rw [holders]
    split <;> simp [Quadrant.all, child]

theorem firstData?_eq (hc : b.top? = some c) : b.firstData? =
    if c.hasData then some c.id else Quadrant.all.findSome? fun q => (b.child q).firstData? := by
  cases b with
  | absent => cases hc
  | node top nw ne sw se =>
    obtain rfl : top = c := Option.some.inj hc
    rw [firstData?, Quadrant.findSome?_all]
    rfl

theorem findChunk?_eq (hc : b.top? = some c) : b.findChunk? owner entity scale =
    if c.square.scale = scale then (c.bucket? owner).filter fun chunk => chunk.has entity
    else if c.square.scale < scale then none
    else Quadrant.all.findSome? fun q => (b.child q).findChunk? owner entity scale := by
  cases b with
  | absent => cases hc
  | node top nw ne sw se =>
    obtain rfl : top = c := Option.some.inj hc
    rw [findChunk?, Quadrant.findSome?_all]
    rfl

/-! ### The list of clusters -/

/-- Places are listed in visiting order. -/
theorem pairwise_places : b.places.Pairwise VisitedBefore := by
  induction b using quadrant_induction with
  | absent => exact List.Pairwise.nil
  | node c nw ne sw se ih =>
    rw [places_eq (c := c) rfl, List.pairwise_cons, List.pairwise_flatMap]
    refine ⟨?_, ?_, ?_⟩
    · intro path hpath
      obtain ⟨q, -, below⟩ := List.mem_flatMap.mp hpath
      obtain ⟨rest, -, rfl⟩ := List.mem_map.mp below
      exact .nil
    · intro q _
      exact List.pairwise_map.mpr ((ih q).imp .cons)
    · refine Quadrant.pairwise_all.imp fun first path hpath other hother => ?_
      obtain ⟨rest, -, rfl⟩ := List.mem_map.mp hpath
      obtain ⟨back, -, rfl⟩ := List.mem_map.mp hother
      exact .rel first

theorem labels_eq_filterMap : b.labels = b.places.filterMap b.labelAt? := by
  have listed : b.places.map b.labelAt? = b.labels.map some := by
    have labelled : b.labelAt? = Option.map (·.id) ∘ b.at? := rfl
    rw [labelled, ← List.map_map, map_at?_places, labels, List.map_map, List.map_map]
    rfl
  have whole : (b.places.map b.labelAt?).filterMap id = b.labels := by
    rw [listed, List.filterMap_map]
    exact List.filterMap_some
  rw [← whole, List.filterMap_map]
  rfl

/-- The labels below a place are listed in the same order. -/
theorem labels_under_sublist : (b.under path).labels.Sublist b.labels := by
  induction path generalizing b with
  | nil => exact List.Sublist.refl _
  | cons q path ih =>
    refine ih.trans ?_
    cases hb : b.top? with
    | none =>
      rw [top?_eq_none_iff.mp hb, child_absent]
    | some c =>
      rw [labels, labels, clusters_eq hb]
      refine List.Sublist.map _ (.cons c ?_)
      exact List.sublist_flatten_of_mem (List.mem_map_of_mem (Quadrant.mem_all q))

/-- Clusters below another one are of finer scales. -/
theorem Sound.scale_lt (h : Sound levels square b) (hc : b.top? = some c)
    (hd : d ∈ (b.child q).clusters) : d.square.scale < c.square.scale := by
  obtain ⟨path, hpath⟩ := mem_clusters_iff.mp hd
  have place : b.at? (q :: path) = some d := hpath
  rw [h.placed place, h.top_square hc, Square.scale_along, List.length_cons]
  omega

/-! ### Walks as scans of the list -/

theorem holders_eq_map_filter :
    b.holders owner entity = (b.clusters.filter (·.holds owner entity)).map (·.id) := by
  induction b using quadrant_induction with
  | absent => rfl
  | node c nw ne sw se ih =>
    rw [holders_eq (c := c) rfl, clusters_eq (c := c) rfl, List.filter_cons, List.filter_flatMap]
    simp only [ih]
    split <;> simp [List.map_flatMap]

theorem firstData?_eq_map_find? :
    b.firstData? = (b.clusters.find? (·.hasData)).map (·.id) := by
  induction b using quadrant_induction with
  | absent => rfl
  | node c nw ne sw se ih =>
    rw [firstData?_eq (c := c) rfl, clusters_eq (c := c) rfl, List.find?_cons, List.find?_flatMap]
    simp only [ih]
    cases c.hasData with
    | true => rfl
    | false => exact List.map_findSome?.symm

/-- No cluster below another one is of its scale or a coarser one. -/
theorem Sound.find?_holdsOn_eq_none (h : Sound levels square b) (hc : b.top? = some c)
    (coarse : c.square.scale ≤ scale) :
    (Quadrant.all.flatMap fun q => (b.child q).clusters).find? (·.holdsOn scale owner entity) =
      none := by
  rw [List.find?_eq_none]
  intro d hd held
  obtain ⟨q, -, below⟩ := List.mem_flatMap.mp hd
  have same := (Cluster.holdsOn_eq_true_iff.mp held).1
  have finer := h.scale_lt hc below
  omega

/-- Searching by scale finds the chunk in the first holder of this scale. The branches that are cut
off have none. -/
theorem Sound.findChunk?_eq_bind_find? (h : Sound levels square b) :
    b.findChunk? owner entity scale =
      (b.clusters.find? (·.holdsOn scale owner entity)).bind (·.bucket? owner) := by
  induction b using quadrant_induction generalizing levels square with
  | absent => rfl
  | node c nw ne sw se ih =>
    have top : (node c nw ne sw se).top? = some c := rfl
    rw [findChunk?_eq top, clusters_eq top, List.find?_cons, Cluster.holdsOn]
    obtain above | here | below := lt_trichotomy scale c.square.scale
    · rw [if_neg above.ne', if_neg above.not_gt, decide_eq_false above.ne', Bool.false_and,
        List.find?_flatMap, bind_findSome?]
      · exact congrArg (List.findSome? · Quadrant.all) (funext fun q => ih q (h.under [q]))
      · intro q _ d hd
        exact Cluster.isSome_bucket?_of_holds
          (Cluster.holdsOn_eq_true_iff.mp (List.find?_some hd)).2
    · rw [if_pos here.symm, decide_eq_true here.symm, Bool.true_and,
        h.find?_holdsOn_eq_none top here.ge, Cluster.filter_bucket?_eq]
      cases c.holds owner entity <;> rfl
    · rw [if_neg below.ne, if_pos below, decide_eq_false below.ne, Bool.false_and,
        h.find?_holdsOn_eq_none top below.le]
      rfl

end Branch

namespace Tree

variable {t : Tree} {c : Cluster} {path : List Quadrant} {id other below : ClusterId}

/-- Following children from one label leads to another. -/
def Above (t : Tree) (id below : ClusterId) : Prop :=
  ∃ path rest, t.follow path = some id ∧ t.follow (path ++ rest) = some below

/-- A label comes before another in visiting order. -/
def Earlier (t : Tree) (id other : ClusterId) : Prop :=
  ∃ path back, t.follow path = some id ∧ t.follow back = some other ∧ VisitedBefore path back

namespace Labelled

/-- A label is followed along one path. -/
theorem follow_inj (h : t.Labelled) (distinct : t.root.labels.Nodup) {front back : List Quadrant}
    (hfront : t.follow front = some id) (hback : t.follow back = some id) : front = back := by
  rw [h.follow_eq distinct] at hfront hback
  obtain ⟨c, hc, rfl⟩ := Option.map_eq_some_iff.mp hfront
  obtain ⟨d, hd, same⟩ := Option.map_eq_some_iff.mp hback
  exact Branch.path_eq_of_nodup distinct hc hd same.symm

theorem follow_of_at? (h : t.Labelled) (distinct : t.root.labels.Nodup)
    (hc : t.root.at? path = some c) : t.follow path = some c.id := by
  rw [h.follow_eq distinct, Branch.labelAt?, hc]
  rfl

/-- Above a cluster are the labels on the way to its place. -/
theorem above_iff_exists_prefix (h : t.Labelled) (distinct : t.root.labels.Nodup)
    (hc : t.root.at? path = some c) : t.Above id c.id ↔
      ∃ front d, front <+: path ∧ t.root.at? front = some d ∧ d.id = id := by
  constructor
  · rintro ⟨front, rest, hfront, hbelow⟩
    obtain rfl := h.follow_inj distinct hbelow (h.follow_of_at? distinct hc)
    rw [h.follow_eq distinct] at hfront
    obtain ⟨d, hd, rfl⟩ := Option.map_eq_some_iff.mp hfront
    exact ⟨front, d, List.prefix_append front rest, hd, rfl⟩
  · rintro ⟨front, d, ⟨rest, rfl⟩, hd, rfl⟩
    exact ⟨front, rest, h.follow_of_at? distinct hd, h.follow_of_at? distinct hc⟩

theorem above_iff_prefix (h : t.Labelled) (distinct : t.root.labels.Nodup) {d : Cluster}
    {place : List Quadrant} (hc : t.root.at? path = some c) (hd : t.root.at? place = some d) :
    t.Above c.id d.id ↔ path <+: place := by
  rw [h.above_iff_exists_prefix distinct hd]
  constructor
  · rintro ⟨front, top, hfront, htop, same⟩
    rwa [← Branch.path_eq_of_nodup distinct htop hc same]
  · intro below
    exact ⟨path, c, below, hc, rfl⟩

/-- Labels are listed in visiting order. -/
theorem pairwise_earlier (h : t.Labelled) (distinct : t.root.labels.Nodup) :
    t.root.labels.Pairwise t.Earlier := by
  rw [Branch.labels_eq_filterMap, List.pairwise_filterMap]
  refine Branch.pairwise_places.imp fun {path back} before id hid other hother => ?_
  refine ⟨path, back, ?_, ?_, before⟩
  · rwa [h.follow_eq distinct]
  · rwa [h.follow_eq distinct]

theorem earlier_asymm (h : t.Labelled) (distinct : t.root.labels.Nodup)
    (first : t.Earlier id other) : ¬ t.Earlier other id := by
  rintro ⟨back', path', hother', hid', after⟩
  obtain ⟨path, back, hid, hother, before⟩ := first
  obtain rfl := h.follow_inj distinct hid hid'
  obtain rfl := h.follow_inj distinct hother hother'
  exact before.asymm after

end Labelled

end Tree

end RailAtlas
