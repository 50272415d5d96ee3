import RailAtlas.Proofs.Registry.Queries

/-!
# Deleting a subtree

Whether a cluster can be deleted is asked first: nothing may be indexed in it or below it, and the
first cluster with data is named otherwise. Deleting does not ask. It takes out the cluster with
all that is below it and the one link from its parent, and whatever else is registered stays as it
was, label for label.
-/

namespace RailAtlas

/-- What is found first in an ordered list comes before all others that could have been found. -/
theorem eq_or_of_find? {α : Type} {R : α → α → Prop} {p : α → Bool} {l : List α} {a b : α}
    (ordered : l.Pairwise R) (found : l.find? p = some a) (hb : b ∈ l) (fits : p b = true) :
    b = a ∨ R a b := by
  induction l with
  | nil => cases hb
  | cons x l ih =>
    obtain ⟨before, rest⟩ := List.pairwise_cons.mp ordered
    cases hx : p x with
    | true =>
      rw [List.find?_cons_of_pos hx, Option.some.injEq] at found
      subst found
      exact (List.mem_cons.mp hb).imp id (before b)
    | false =>
      rw [List.find?_cons_of_neg (Bool.not_eq_true _ ▸ hx)] at found
      obtain rfl | below := List.mem_cons.mp hb
      · rw [hx] at fits
        cases fits
      · exact ih rest found below

namespace Branch

variable {b : Branch} {c : Cluster} {q : Quadrant} {path other front : List Quadrant}
variable {parent : Option ClusterId}

/-- Where a branch is cut off, the places from the cut down are gone. -/
theorem at?_graft_absent (h : (b.at? path).isSome) :
    (b.graft path absent).at? other = if path <+: other then none else b.at? other := by
  split
  · next below =>
    obtain ⟨rest, rfl⟩ := below
    rw [at?, under_graft h, under_absent, top?_absent]
  · next apart => exact at?_graft_apart h apart

/-- A cut shows in the entry of the parent, which loses a child, and in no other one. -/
theorem entryAt_graft_absent (h : (b.at? (front ++ [q])).isSome)
    (apart : ¬ front ++ [q] <+: other) : entryAt parent (b.graft (front ++ [q]) absent) other c =
      if other = front then (entryAt parent b other c).setSlot q none
      else entryAt parent b other c := by
  have label (path : List Quadrant) : (b.graft (front ++ [q]) absent).labelAt? path =
      if front ++ [q] <+: path then none else b.labelAt? path := by
    rw [labelAt?, labelAt?, at?_graft_absent h]
    split <;> rfl
  have above : (entryAt parent (b.graft (front ++ [q]) absent) other c).parent =
      (entryAt parent b other c).parent := by
    have apart' : ¬ front ++ [q] <+: other.dropLast :=
      fun below => apart (below.trans (List.dropLast_prefix other))
    simp only [entryAt, label, if_neg apart']
  have slots (r : Quadrant) : (entryAt parent (b.graft (front ++ [q]) absent) other c).slot r =
      if other = front ∧ r = q then none else (entryAt parent b other c).slot r := by
    have cut : front ++ [q] <+: other ++ [r] ↔ other = front ∧ r = q := by
      rw [List.prefix_concat_iff, or_iff_left apart]
      constructor
      · intro same
        obtain ⟨place, last⟩ := List.append_inj' same rfl
        exact ⟨place.symm, (List.singleton_inj.mp last).symm⟩
      · rintro ⟨rfl, rfl⟩
        rfl
    simp only [entryAt_slot, label, cut]
  split
  · next at_parent =>
    refine ClusterEntry.ext_slot ?_ ?_ fun r => ?_
    · rw [ClusterEntry.cluster_setSlot]
      rfl
    · rw [above, ClusterEntry.parent_setSlot]
    · rw [slots, ClusterEntry.slot_setSlot]
      simp only [at_parent, true_and]
  · next elsewhere =>
    refine ClusterEntry.ext_slot rfl above fun r => ?_
    rw [slots, if_neg fun same => elsewhere same.1]

end Branch

namespace Tree

variable {range : ScaleRange} {t u : Tree} {c d : Cluster} {id x : ClusterId} {e : ClusterEntry}
variable {path front other : List Quadrant} {q : Quadrant} {cause : IndexError}

/-! ### Asking first -/

/-- The first cluster with data, from a cluster down. -/
structure FirstData (t : Tree) (id x : ClusterId) : Prop where
  below : t.Above id x
  data : ∃ e, t.entry? x = some e ∧ e.cluster.hasData = true
  first : ∀ y e, t.Above id y → t.entry? y = some e → e.cluster.hasData = true →
    y = x ∨ t.Earlier x y

inductive Obstacle (t : Tree) (id : ClusterId) : IndexError → Prop
  | unknown : t.entry? id = none → Obstacle t id (.unknownCluster id)
  | data {x : ClusterId} : t.FirstData id x → Obstacle t id (.dataExists x)

/-- The entries from a cluster down are those of the clusters in its branch. -/
theorem Labelled.exists_entry?_below (h : t.Labelled) (distinct : t.root.labels.Nodup)
    (hc : t.root.at? path = some c) : (∃ e, t.Above c.id x ∧ t.entry? x = some e ∧ e.cluster = d) ↔
      d ∈ (t.root.under path).clusters ∧ d.id = x := by
  rw [Branch.mem_clusters_iff]
  constructor
  · rintro ⟨e, above, he, rfl⟩
    obtain ⟨place, d, hd, rfl, rfl⟩ := (entry?_iff distinct).mp he
    obtain ⟨rest, rfl⟩ := (h.above_iff_prefix distinct hc hd).mp above
    exact ⟨⟨rest, (Branch.at?_append _ _).symm.trans hd⟩, rfl⟩
  · rintro ⟨⟨rest, hd⟩, rfl⟩
    rw [← Branch.at?_append] at hd
    exact ⟨_, (h.above_iff_prefix distinct hc hd).mpr (List.prefix_append path rest),
      entry?_of_at? distinct hd, rfl⟩

/-- The first data of the branch at a place is the first from its cluster down. -/
theorem Labelled.firstData_of_firstData? (h : t.Labelled) (distinct : t.root.labels.Nodup)
    (hc : t.root.at? path = some c) (hx : (t.root.under path).firstData? = some x) :
    t.FirstData c.id x := by
  rw [Branch.firstData?_eq_map_find?] at hx
  obtain ⟨d, found, rfl⟩ := Option.map_eq_some_iff.mp hx
  have below := h.exists_entry?_below (x := d.id) (d := d) distinct hc
  obtain ⟨e, above, he, same⟩ := below.mpr ⟨List.mem_of_find?_eq_some found, rfl⟩
  refine ⟨above, ⟨e, he, ?_⟩, ?_⟩
  · rw [same]
    exact List.find?_some found
  · intro y f hy hf data
    obtain ⟨listed, rfl⟩ := (h.exists_entry?_below distinct hc).mp ⟨f, hy, hf, rfl⟩
    have ordered : (t.root.under path).clusters.Pairwise fun a b => t.Earlier a.id b.id :=
      List.pairwise_map.mp ((h.pairwise_earlier distinct).sublist Branch.labels_under_sublist)
    exact (eq_or_of_find? ordered found listed data).imp (congrArg Cluster.id) id

/-- There is only one first cluster with data. -/
theorem Labelled.firstData_unique (h : t.Labelled) (distinct : t.root.labels.Nodup)
    {y : ClusterId} (hx : t.FirstData id x) (hy : t.FirstData id y) : x = y := by
  obtain ⟨e, he, hdata⟩ := hx.data
  obtain ⟨f, hf, fdata⟩ := hy.data
  obtain rfl | before := hx.first y f hy.below hf fdata
  · rfl
  obtain rfl | after := hy.first x e hx.below he hdata
  · rfl
  exact absurd after (h.earlier_asymm distinct before)

/-- The first cluster with data is the one that a walk finds. -/
theorem Labelled.firstData_iff (h : t.Labelled) (distinct : t.root.labels.Nodup)
    (hc : t.root.at? path = some c) :
    t.FirstData c.id x ↔ (t.root.under path).firstData? = some x := by
  constructor
  · intro first
    cases found : (t.root.under path).firstData? with
    | none =>
      obtain ⟨e, he, data⟩ := first.data
      have listed := ((h.exists_entry?_below distinct hc).mp ⟨e, first.below, he, rfl⟩).1
      obtain ⟨rest, hrest⟩ := Branch.mem_clusters_iff.mp listed
      rw [Branch.firstData?_eq_none_iff.mp found rest _ hrest] at data
      cases data
    | some y =>
      rw [h.firstData_unique distinct first (h.firstData_of_firstData? distinct hc found)]
  · exact h.firstData_of_firstData? distinct hc

theorem checkDelete_of_at? (distinct : t.root.labels.Nodup) (hc : t.root.at? path = some c) :
    t.checkDelete c.id = match (t.root.under path).firstData? with
      | some holder => .error (.dataExists holder)
      | none => .ok () := by
  cases found : (t.root.under path).firstData? <;>
    simp only [checkDelete, branch?_eq distinct hc, found]

theorem checkDelete_of_unknown (h : t.entry? id = none) (distinct : t.root.labels.Nodup) :
    t.checkDelete id = .error (.unknownCluster id) := by
  have unknown : t.branch? id = none := by
    rw [← Option.not_isSome_iff_eq_none, ← isRegistered, ← isSome_entry?_iff distinct, h]
    exact Bool.false_ne_true
  rw [checkDelete, unknown]

/-- A cluster may be deleted if it is registered and nothing is indexed from it down. -/
theorem Labelled.checkDelete_eq_ok_iff (h : t.Labelled) (distinct : t.root.labels.Nodup) :
    t.checkDelete id = .ok () ↔ (t.entry? id).isSome ∧
      ∀ x e, t.Above id x → t.entry? x = some e → e.cluster.hasData = false := by
  cases he : t.entry? id with
  | none => simp [checkDelete_of_unknown he distinct]
  | some e =>
    obtain ⟨path, c, hc, rfl, -⟩ := (entry?_iff distinct).mp he
    have free : t.checkDelete c.id = .ok () ↔ (t.root.under path).firstData? = none := by
      rw [checkDelete_of_at? distinct hc]
      split <;> simp [*]
    rw [free, Branch.firstData?_eq_map_find?, Option.map_eq_none_iff, List.find?_eq_none]
    refine ⟨fun bare => ⟨rfl, fun x f above hf => ?_⟩, fun ⟨_, bare⟩ d hd => ?_⟩
    · have listed := ((h.exists_entry?_below distinct hc).mp ⟨f, above, hf, rfl⟩).1
      exact Bool.not_eq_true _ ▸ bare f.cluster listed
    · obtain ⟨f, above, hf, rfl⟩ := (h.exists_entry?_below distinct hc).mpr ⟨hd, rfl⟩
      rw [bare _ f above hf]
      exact Bool.false_ne_true

/-- A cluster may not be deleted exactly if something stands against it, and this is named. -/
theorem Labelled.checkDelete_eq_error_iff (h : t.Labelled) (distinct : t.root.labels.Nodup) :
    t.checkDelete id = .error cause ↔ t.Obstacle id cause := by
  cases he : t.entry? id with
  | none =>
    rw [checkDelete_of_unknown he distinct, Except.error.injEq]
    constructor
    · rintro rfl
      exact .unknown he
    · rintro (_ | ⟨first⟩)
      · rfl
      · obtain ⟨path, rest, hid, -⟩ := first.below
        rw [h.follow_eq distinct] at hid
        obtain ⟨c, hc, rfl⟩ := Option.map_eq_some_iff.mp hid
        rw [entry?_of_at? distinct hc] at he
        cases he
  | some e =>
    obtain ⟨path, c, hc, rfl, -⟩ := (entry?_iff distinct).mp he
    rw [checkDelete_of_at? distinct hc]
    constructor
    · intro refused
      split at refused
      · next x found =>
        obtain rfl := Except.error.inj refused
        exact .data ((h.firstData_iff distinct hc).mpr found)
      · cases refused
    · rintro (unknown | first)
      · rw [he] at unknown
        cases unknown
      · rw [(h.firstData_iff distinct hc).mp first]

/-! ### Deleting -/

/-- Another tree is what is left when a cluster is cut off with all that is below it. -/
structure Cut (t : Tree) (id : ClusterId) (u : Tree) : Prop where
  range_eq : u.range = t.range
  /-- Neither counter has moved. -/
  labels_eq : u.labels = t.labels
  /-- The labels of the subtree, and only these, are no longer registered. -/
  unregistered : ∀ x, u.entry? x = none ↔ t.entry? x = none ∨ t.Above id x
  /-- The parent had the cluster in one quadrant and has none there now. Whatever else is left has
  the same cluster under the same links. -/
  parent : ∃ e p above q, t.entry? id = some e ∧ e.parent = some p ∧ ¬ t.Above id p ∧
    t.entry? p = some above ∧ (∀ r, above.slot r = some id ↔ r = q) ∧
    u.entry? p = some (above.setSlot q none) ∧
    ∀ x, x ≠ p → ¬ t.Above id x → u.entry? x = t.entry? x

/-- What is registered once a place has been cleared. -/
theorem entry?_graft_absent (distinct : u.root.labels.Nodup)
    (hu : u.root = t.root.graft (front ++ [q]) .absent) (hc : t.root.at? (front ++ [q]) = some c) :
    u.entry? x = some e ↔ ∃ place d, t.root.at? place = some d ∧ ¬ front ++ [q] <+: place ∧
      d.id = x ∧ e = if place = front then (t.root.entryAt none place d).setSlot q none
        else t.root.entryAt none place d := by
  have stands : (t.root.at? (front ++ [q])).isSome := Option.isSome_of_eq_some hc
  rw [entry?_iff distinct, hu]
  constructor
  · rintro ⟨place, d, hd, rfl, rfl⟩
    rw [Branch.at?_graft_absent stands] at hd
    split at hd
    · cases hd
    · next apart => exact ⟨place, d, hd, apart, rfl, Branch.entryAt_graft_absent stands apart⟩
  · rintro ⟨place, d, hd, apart, rfl, rfl⟩
    refine ⟨place, d, ?_, rfl, (Branch.entryAt_graft_absent stands apart).symm⟩
    rw [Branch.at?_graft_absent stands, if_neg apart, hd]

/-- Clearing a place takes the labels from its cluster down. -/
theorem Labelled.entry?_graft_eq_none_iff (h : t.Labelled) (distinct : t.root.labels.Nodup)
    (distinct' : u.root.labels.Nodup) (hu : u.root = t.root.graft (front ++ [q]) .absent)
    (hc : t.root.at? (front ++ [q]) = some c) :
    u.entry? x = none ↔ t.entry? x = none ∨ t.Above c.id x := by
  constructor
  · intro gone
    cases he : t.entry? x with
    | none => exact .inl rfl
    | some e =>
      obtain ⟨place, d, hd, rfl, rfl⟩ := (entry?_iff distinct).mp he
      refine .inr ((h.above_iff_prefix distinct hc hd).mpr ?_)
      by_contra apart
      rw [(entry?_graft_absent distinct' hu hc).mpr ⟨place, d, hd, apart, rfl, rfl⟩] at gone
      cases gone
  · intro lost
    cases he : u.entry? x with
    | none => rfl
    | some e =>
      obtain ⟨place, d, hd, apart, rfl, -⟩ := (entry?_graft_absent distinct' hu hc).mp he
      obtain unknown | above := lost
      · rw [entry?_of_at? distinct hd] at unknown
        cases unknown
      · exact absurd ((h.above_iff_prefix distinct hc hd).mp above) apart

/-- Deleting a cluster cuts it off. -/
theorem Labelled.cut_delete (h : t.Labelled) (room : t.labels.clusters ≤ UInt32.size)
    (hc : t.root.at? path = some c) (other : c.id ≠ rootId) :
    ∃ u, t.delete c.id = .ok u ∧ t.Cut c.id u := by
  have distinct := h.nodup room
  obtain rfl | ⟨front, q, rfl⟩ := path.eq_nil_or_concat'
  · exact absurd ((h.eq_nil_iff distinct hc).mp rfl) other
  have deleted := delete_eq distinct hc other
  obtain ⟨u, hu, grown⟩ := h.regrown_delete distinct hc other
  obtain rfl := Except.ok.inj (deleted.symm.trans hu)
  have distinct' := (grown.labelled h).nodup room
  have gone {x : ClusterId} := h.entry?_graft_eq_none_iff (x := x) distinct distinct' rfl hc
  have kept {x : ClusterId} {e : ClusterEntry} :=
    entry?_graft_absent (x := x) (e := e) distinct' rfl hc
  obtain ⟨d, hd⟩ :=
    Option.isSome_iff_exists.mp (Branch.isSome_at?_of_append (Option.isSome_of_eq_some hc))
  have apart : ¬ front ++ [q] <+: front := by
    intro below
    have shorter := below.length_le
    rw [List.length_append, List.length_singleton] at shorter
    omega
  refine ⟨_, deleted, rfl, rfl, fun x => gone, _, d.id, _, q, entry?_of_at? distinct hc, ?_, ?_,
    entry?_of_at? distinct hd, fun r => ?_, ?_, fun x not_parent outside => ?_⟩
  · simp [Branch.entryAt, Branch.labelAt?, hd]
  · rwa [h.above_iff_prefix distinct hc hd]
  · rw [Branch.entryAt_slot]
    constructor
    · intro hr
      obtain ⟨e, he, same⟩ := Option.map_eq_some_iff.mp hr
      simpa using Branch.path_eq_of_nodup distinct he hc same
    · rintro rfl
      simp [Branch.labelAt?, hc]
  · exact kept.mpr ⟨front, d, hd, apart, rfl, (if_pos rfl).symm⟩
  · cases hx : t.entry? x with
    | none => exact gone.mpr (.inl hx)
    | some e =>
      obtain ⟨place, k, hk, rfl, rfl⟩ := (entry?_iff distinct).mp hx
      rw [h.above_iff_prefix distinct hc hk] at outside
      have elsewhere : place ≠ front := by
        rintro rfl
        exact not_parent (congrArg Cluster.id (Option.some.inj (hk.symm.trans hd)))
      exact kept.mpr ⟨place, k, hk, outside, rfl, (if_neg elsewhere).symm⟩

/-- When a deletion is refused, and as what. -/
theorem delete_eq_error_iff (distinct : t.root.labels.Nodup) : t.delete id = .error cause ↔
    (id = rootId ∧ cause = .rootIsPermanent id) ∨
      (id ≠ rootId ∧ t.entry? id = none ∧ cause = .unknownCluster id) := by
  have unknown : (!t.isRegistered id) = true ↔ t.entry? id = none := by
    rw [Bool.not_eq_true', ← Bool.not_eq_true, ← isSome_entry?_iff distinct,
      Option.not_isSome_iff_eq_none]
  rw [delete]
  split
  · next at_root => simp [at_root, eq_comm]
  · next other =>
    split
    · next absent => simp [other, unknown.mp absent, eq_comm]
    · next known =>
      rw [unknown] at known
      simp [other, known]

/-- What asking for a deletion and deleting do at a label. -/
structure Deletion (t : Tree) (id : ClusterId) : Prop where
  /-- It may be deleted if it is registered and nothing is indexed from it down. -/
  free : t.checkDelete id = .ok () ↔ (t.entry? id).isSome ∧
    ∀ x e, t.Above id x → t.entry? x = some e → e.cluster.hasData = false
  /-- Otherwise what stands against it is named. -/
  obstacle : ∀ cause, t.checkDelete id = .error cause ↔ t.Obstacle id cause
  /-- The root and unknown labels are not deleted. -/
  refused : ∀ cause, t.delete id = .error cause ↔
    (id = rootId ∧ cause = .rootIsPermanent id) ∨
      (id ≠ rootId ∧ t.entry? id = none ∧ cause = .unknownCluster id)
  /-- A deletion that is refused changes nothing. -/
  unchanged : ∀ cause, t.delete id = .error cause →
    t.answer (.delete id) = .ok t ∧ t.registry.answer (.delete id) = .ok t.registry
  /-- Any other cluster is cut off. -/
  deleted : id ≠ rootId → (t.entry? id).isSome → ∃ u, t.delete id = .ok u ∧ t.Cut id u ∧
    t.registry.answer (.delete id) = .ok u.registry
  /-- Asking goes from label to label, too, and no label leads nowhere or in a circle. -/
  followed : t.registry.checkDelete id = .ok (t.checkDelete id)

/-- In every tree that calls lead to, and at every label, whether a cluster may be deleted depends
on the data from it down, and deleting takes its subtree and the link to it. -/
theorem deletion_of_reachable (h : Reachable range t) (id : ClusterId) : t.Deletion id := by
  obtain ⟨labelled, before, -⟩ := h.labelled
  have room := Nat.le_of_lt before
  have distinct := labelled.nodup room
  constructor
  case free => exact labelled.checkDelete_eq_ok_iff distinct
  case obstacle => exact fun cause => labelled.checkDelete_eq_error_iff distinct
  case refused => exact fun cause => delete_eq_error_iff distinct
  case unchanged =>
    intro cause hcause
    have same : t.answer (.delete id) = .ok t := by rw [answer, hcause]
    exact ⟨same, labelled.registry_answer room trivial same room⟩
  case deleted =>
    intro other known
    obtain ⟨e, he⟩ := Option.isSome_iff_exists.mp known
    obtain ⟨path, c, hc, rfl, -⟩ := (entry?_iff distinct).mp he
    obtain ⟨u, hu, cut⟩ := labelled.cut_delete room hc other
    have answered : t.answer (.delete c.id) = .ok u := by rw [answer, hu]
    have fits : u.labels.clusters ≤ UInt32.size := cut.labels_eq ▸ room
    exact ⟨u, hu, cut, labelled.registry_answer room trivial answered fits⟩
  case followed => exact labelled.registry_checkDelete distinct id

/-- A residence that is indexed from a child down stands against deleting the child and the root.
The child is cut off all the same, and the root is not. -/
theorem deletion_of_reachable_residence :
    let p : Placement := ⟨.ofNat 1, ⟨2⟩, .residence, some ⟨1, 1⟩, none⟩
    ∃ t, Reachable ⟨3, 2⟩ t ∧ t.holders p.owner p.id = [⟨1⟩] ∧
      t.Obstacle rootId (.dataExists ⟨1⟩) ∧ t.Obstacle ⟨1⟩ (.dataExists ⟨1⟩) ∧
      t.delete rootId = .error (.rootIsPermanent rootId) ∧
      ∃ u, t.delete ⟨1⟩ = .ok u ∧ t.Cut ⟨1⟩ u := by
  intro p
  let bare : Tree :=
    { range := ⟨3, 2⟩, root := .leaf (.empty rootId (worldSquare ⟨3, 2⟩)), labels := ⟨1, 0⟩ }
  have admissible : bare.Admissible (.newChild rootId 1 1) :=
    ⟨_, .southEast, rfl, rfl, rfl, (by decide : (2 : Int) < 3), rfl⟩
  have child : Reachable ⟨3, 2⟩ _ := .answered (.created rfl) admissible rfl (by decide)
  have held : Reachable ⟨3, 2⟩ _ :=
    @Reachable.answered _ _ _ (.addFrom ⟨1⟩ p) child rfl rfl (by decide +kernel)
  have at_root := deletion_of_reachable held rootId
  have at_child := deletion_of_reachable held ⟨1⟩
  obtain ⟨u, hu, cut, -⟩ := at_child.deleted (by decide) (by decide +kernel)
  refine ⟨_, held, by decide +kernel, (at_root.obstacle _).mp ?_, (at_child.obstacle _).mp ?_,
    (at_root.refused _).mpr (.inl ⟨rfl, rfl⟩), u, hu, cut⟩
  · decide +kernel
  · decide +kernel

end Tree

end RailAtlas
