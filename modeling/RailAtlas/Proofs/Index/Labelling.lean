import RailAtlas.Index.Lookup
import RailAtlas.Proofs.Index.FlatIndex
import RailAtlas.Proofs.Index.Graft

/-!
# Labels of the clusters of a tree

`Labelled` says of a tree that its clusters cover the squares of their places, that the root has
the first label, and that no label is used more often than it was given out. Every operation keeps
it, wherever it starts. While there are fewer labels than 32 bits can tell apart, each was given
out at most once, and so each belongs to one cluster.
-/

namespace RailAtlas

/-- The cluster labels that were given out so far. -/
def Labels.givenOut (l : Labels) : List ClusterId :=
  (List.range l.clusters).map fun n => ⟨UInt32.ofNat n⟩

/-- Up to `2 ^ 32` counts are told apart by their last 32 bits. -/
theorem nodup_numbers {n : Nat} (h : n ≤ UInt32.size) :
    ((List.range n).map UInt32.ofNat).Nodup := by
  refine List.Nodup.map_on ?_ List.nodup_range
  intro j hj k hk same
  have hnat := congrArg UInt32.toNat same
  rw [List.mem_range] at hj hk
  rwa [UInt32.toNat_ofNat_of_lt' (Nat.lt_of_lt_of_le hj h),
    UInt32.toNat_ofNat_of_lt' (Nat.lt_of_lt_of_le hk h)] at hnat

namespace Labels

variable {l : Labels} {id : ClusterId}

theorem givenOut_takeCluster : l.takeCluster.2.givenOut = l.givenOut ++ [l.takeCluster.1] := by
  simp [givenOut, takeCluster, List.range_succ]

/-- Fewer labels than 32 bits can tell apart are all different. -/
theorem nodup_givenOut (h : l.clusters ≤ UInt32.size) : l.givenOut.Nodup := by
  have numbers : l.givenOut = ((List.range l.clusters).map UInt32.ofNat).map .mk := by
    rw [List.map_map]
    rfl
  rw [numbers]
  exact (nodup_numbers h).map fun _ _ same => congrArg ClusterId.number same

end Labels

namespace Branch

variable {b : Branch} {owner : OwnerId} {entity : EntityId} {m : Member} {levels : Nat}
variable {square : Square} {l : Labels} {id : ClusterId}

/-- A branch has become another one while the counters moved on: besides the labels that it used
before it uses at most those that were taken meanwhile. -/
structure Draws (b : Branch) (l : Labels) (new : Branch) (drawn : Labels) : Prop where
  le : l.clusters ≤ drawn.clusters
  count : ∀ id, new.labels.count id + l.givenOut.count id ≤
    b.labels.count id + drawn.givenOut.count id

theorem Draws.refl (b : Branch) (l : Labels) : Draws b l b l :=
  ⟨Nat.le_refl _, fun _ => Nat.le_refl _⟩

theorem Draws.trans {d new : Branch} {k drawn : Labels} (h : Draws b l d k)
    (next : Draws d k new drawn) : Draws b l new drawn := by
  refine ⟨Nat.le_trans h.le next.le, ?_⟩
  intro id
  have first := h.count id
  have second := next.count id
  omega

theorem draws_of_sublist {new : Branch} (h : new.labels.Sublist b.labels) (l : Labels) :
    Draws b l new l :=
  ⟨Nat.le_refl _, fun id => Nat.add_le_add_right (h.count_le id) _⟩

/-! ### Growing -/

/-- The counter of chunks does not matter for the labels of clusters. -/
@[simp] theorem clusters_record (c : Cluster) :
    (c.record owner entity m l).2.clusters = l.clusters := by
  rw [Cluster.record]
  cases c.bucket? owner <;> rfl

@[simp] theorem givenOut_record (c : Cluster) :
    (c.record owner entity m l).2.givenOut = l.givenOut := by
  simp [Labels.givenOut]

/-- Visiting a branch takes a label if the branch was absent. -/
theorem draws_visit (square : Square) (b : Branch) (l : Labels) : let v := b.visit square l
    Draws b l (node v.cluster v.northWest v.northEast v.southWest v.southEast) v.labels := by
  cases b with
  | node c nw ne sw se => exact .refl _ l
  | absent =>
    refine ⟨Nat.le_succ _, ?_⟩
    intro id
    change [l.takeCluster.1].count id + _ ≤ [].count id + l.takeCluster.2.givenOut.count id
    rw [Labels.givenOut_takeCluster, List.count_append, List.count_nil]
    omega

/-- What growing a cluster does to the branch over one of its quadrants. -/
def enter (owner : OwnerId) (entity : EntityId) (m : Member) (levels : Nat) (above : Square)
    (q : Quadrant) (b : Branch) (l : Labels) : Growth :=
  if (above.quadrant q).contains m.point then grow owner entity m levels (above.quadrant q) b l
  else b.unchanged l

/-- Growing visits the top, records the member, and enters the quadrants one after the other. -/
theorem exists_grow_succ (owner : OwnerId) (entity : EntityId) (m : Member) (levels : Nat)
    (square : Square) (b : Branch) (l : Labels) : let v := b.visit square l
      let filled := v.cluster.record owner entity m v.labels
      ∃ nw ne sw se,
        nw = enter owner entity m levels v.cluster.square .northWest v.northWest filled.2 ∧
        ne = enter owner entity m levels v.cluster.square .northEast v.northEast nw.labels ∧
        sw = enter owner entity m levels v.cluster.square .southWest v.southWest ne.labels ∧
        se = enter owner entity m levels v.cluster.square .southEast v.southEast sw.labels ∧
        (grow owner entity m (levels + 1) square b l).branch =
          node filled.1 nw.branch ne.branch sw.branch se.branch ∧
        (grow owner entity m (levels + 1) square b l).labels = se.labels :=
  ⟨_, _, _, _, rfl, rfl, rfl, rfl, rfl, rfl⟩

/-- Growing uses the labels that it takes. -/
theorem draws_grow (b : Branch) (l : Labels) :
    Draws b l (grow owner entity m levels square b l).branch
      (grow owner entity m levels square b l).labels := by
  induction levels generalizing square b l with
  | zero =>
    obtain ⟨hle, hcount⟩ := draws_visit square b l
    refine ⟨?_, fun id => ?_⟩
    · rw [grow, clusters_record]
      exact hle
    · have := hcount id
      simp only [grow, labels_node, List.count_cons, List.count_append, Cluster.record_id,
        givenOut_record] at this ⊢
      omega
  | succ levels ih =>
    have entered : ∀ above q (b : Branch) (l : Labels) g,
        g = enter owner entity m levels above q b l → Draws b l g.branch g.labels := by
      rintro above q b l g rfl
      rw [enter]
      split
      · exact ih b l
      · exact .refl b l
    obtain ⟨nw, ne, sw, se, hnw, hne, hsw, hse, hbranch, hlabels⟩ :=
      exists_grow_succ owner entity m levels square b l
    obtain ⟨vle, vcount⟩ := draws_visit square b l
    obtain ⟨nwle, nwcount⟩ := entered _ _ _ _ _ hnw
    obtain ⟨nele, necount⟩ := entered _ _ _ _ _ hne
    obtain ⟨swle, swcount⟩ := entered _ _ _ _ _ hsw
    obtain ⟨sele, secount⟩ := entered _ _ _ _ _ hse
    rw [hbranch, hlabels]
    rw [clusters_record] at nwle
    refine ⟨by omega, ?_⟩
    intro id
    have v_id := vcount id
    have nw_id := nwcount id
    have ne_id := necount id
    have sw_id := swcount id
    have se_id := secount id
    simp only [labels_node, List.count_cons, List.count_append, Cluster.record_id,
      givenOut_record] at v_id nw_id ⊢
    omega

theorem draws_enter (above : Square) (q : Quadrant) (b : Branch) (l : Labels) :
    Draws b l (enter owner entity m levels above q b l).branch
      (enter owner entity m levels above q b l).labels := by
  rw [enter]
  split
  · exact draws_grow b l
  · exact .refl b l

/-! ### Removing -/

theorem labels_prune_sublist : b.prune.labels.Sublist b.labels := by
  rw [prune]
  split
  · exact List.Sublist.refl _
  · exact List.nil_sublist _

theorem labels_scrub_sublist : (b.scrub owner entity).labels.Sublist b.labels := by
  induction b with
  | absent => exact List.Sublist.refl _
  | node c nw ne sw se ihNW ihNE ihSW ihSE =>
    rw [scrub]
    split
    · apply labels_prune_sublist.trans
      rw [labels_node, labels_node, Cluster.discard_id]
      exact (((ihNW.append ihNE).append ihSW).append ihSE).cons_cons c.id
    · exact List.Sublist.refl _

theorem labels_scrubFrom_sublist (isRoot : Bool) :
    (b.scrubFrom isRoot owner entity).labels.Sublist b.labels := by
  cases b with
  | absent => exact List.Sublist.refl _
  | node c nw ne sw se =>
    have kept : (node (c.discard owner entity) (nw.scrub owner entity) (ne.scrub owner entity)
        (sw.scrub owner entity) (se.scrub owner entity)).labels.Sublist
          (node c nw ne sw se).labels := by
      rw [labels_node, labels_node, Cluster.discard_id]
      exact (((labels_scrub_sublist.append labels_scrub_sublist).append
        labels_scrub_sublist).append labels_scrub_sublist).cons_cons c.id
    cases isRoot with
    | false => exact labels_prune_sublist.trans kept
    | true => exact kept

end Branch

namespace Tree

variable {range : ScaleRange} {t u : Tree} {p : Placement} {id : ClusterId} {c : Cluster}
variable {path : List Quadrant} {new : Branch} {drawn : Labels}

/-- The number of scales below the world square. -/
def levels (t : Tree) : Nat :=
  (t.range.maxScale - t.range.minScale).toNat

/-- The clusters cover the squares of their places, the root has the first label, and no label is
used more often than it was given out. -/
structure Labelled (t : Tree) : Prop where
  sound : t.root.Sound t.levels (worldSquare t.range)
  rooted : t.root.label? = some rootId
  counted : ∀ id, t.root.labels.count id ≤ t.labels.givenOut.count id

theorem labelled_create (h : create range = .ok t) : t.Labelled := by
  obtain ⟨hrange, hroot, hlabels⟩ := create_eq h
  have anchored := anchored_create h
  refine ⟨anchored.sound, ?_, fun id => ?_⟩
  · rw [hroot]
    rfl
  · rw [hroot, hlabels]
    exact Nat.le_refl _

namespace Labelled

/-- While labels can be told apart no label is used twice. -/
theorem nodup (h : t.Labelled) (room : t.labels.clusters ≤ UInt32.size) : t.root.labels.Nodup := by
  rw [List.nodup_iff_count_le_one]
  intro id
  exact Nat.le_trans (h.counted id) (List.nodup_iff_count_le_one.mp (Labels.nodup_givenOut room) id)

theorem exists_root (h : t.Labelled) : ∃ c, t.root.top? = some c ∧ c.id = rootId :=
  Option.map_eq_some_iff.mp h.rooted

/-- Only the root has the first label. -/
theorem eq_nil_iff (h : t.Labelled) (distinct : t.root.labels.Nodup)
    (hc : t.root.at? path = some c) : path = [] ↔ c.id = rootId := by
  obtain ⟨top, htop, hid⟩ := h.exists_root
  constructor
  · rintro rfl
    obtain rfl := Option.some.inj (htop.symm.trans hc)
    exact hid
  · intro same
    exact Branch.path_eq_of_nodup distinct hc htop (same.trans hid.symm)

/-- Putting a branch in the place of another one keeps a tree labelled, if the branch covers the
square of the place and draws its labels from the counters. -/
theorem graft (h : t.Labelled) (hpath : (t.root.at? path).isSome)
    (fits : new.Sound (t.levels - path.length) ((worldSquare t.range).along path))
    (top : path = [] → new.label? = some rootId)
    (draws : (t.root.under path).Draws t.labels new drawn) :
    { t with root := t.root.graft path new, labels := drawn }.Labelled := by
  refine ⟨h.sound.graft hpath fits, ?_, fun id => ?_⟩
  · cases path with
    | nil => exact top rfl
    | cons q path =>
      change (t.root.graft (q :: path) new).label? = some rootId
      rw [Branch.label?, Branch.top?_graft_cons]
      exact h.rooted
  · have grafted := @Branch.count_labels_graft t.root new path id hpath
    have counted := h.counted id
    have drawn_id := draws.count id
    change (t.root.graft path new).labels.count id ≤ drawn.givenOut.count id
    omega

end Labelled

/-- Where a label leads, if it is in use. -/
theorem branch?_eq (distinct : t.root.labels.Nodup) (hc : t.root.at? path = some c) :
    t.branch? c.id = some (t.root.under path) :=
  Branch.find?_eq_under distinct hc

/-- The labels in use are those of the clusters at the places. -/
theorem isRegistered_iff :
    t.isRegistered id = true ↔ ∃ path c, t.root.at? path = some c ∧ c.id = id := by
  rw [← Branch.mem_labels_iff, isRegistered, branch?, ← not_iff_not, ← Branch.find?_eq_none_iff]
  simp

theorem Labelled.isRegistered_root (h : t.Labelled) : t.isRegistered rootId = true := by
  obtain ⟨c, hc, hid⟩ := h.exists_root
  exact isRegistered_iff.mpr ⟨[], c, hc, hid⟩

/-- A label that is in use leads to the branch at the place of its cluster. -/
theorem exists_of_branch? (distinct : t.root.labels.Nodup) {b : Branch}
    (h : t.branch? id = some b) :
    ∃ path c, t.root.at? path = some c ∧ c.id = id ∧ b = t.root.under path := by
  have registered : t.isRegistered id = true := by rw [isRegistered, h]; rfl
  obtain ⟨path, c, hc, rfl⟩ := isRegistered_iff.mp registered
  rw [branch?_eq distinct hc] at h
  exact ⟨path, c, hc, rfl, (Option.some.inj h).symm⟩

end Tree

end RailAtlas
