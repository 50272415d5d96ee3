import RailAtlas.Proofs.Index.Removal

/-!
# Branches by their labels

The operations that start at a given cluster find it by its label and put the changed branch back
by its label. As long as no label is used twice, this is grafting at the place of the cluster:
the places that do not lie below it stay as they are.

That no label is used twice is a matter of counting. Every operation uses a label at most as often
as before, or as often as it has just been given out.
-/

namespace RailAtlas

namespace Branch

variable {b new : Branch} {c : Cluster} {q r : Quadrant} {path rest : List Quadrant}
variable {id : ClusterId} {owner : OwnerId} {entity : EntityId} {m : Member}
variable {levels : Nat} {square : Square} {l : Labels}

/-- The labels of the clusters of a branch, in the order of `clusters`. -/
def labels (b : Branch) : List ClusterId :=
  b.clusters.map (·.id)

@[simp] theorem labels_absent : absent.labels = [] := rfl

@[simp] theorem labels_node (c : Cluster) (nw ne sw se : Branch) : (node c nw ne sw se).labels =
    c.id :: (nw.labels ++ ne.labels ++ sw.labels ++ se.labels) := by
  simp [labels, clusters]

theorem mem_labels_iff : id ∈ b.labels ↔ ∃ path c, b.at? path = some c ∧ c.id = id := by
  simp only [labels, List.mem_map, mem_clusters_iff]
  constructor
  · rintro ⟨c, ⟨path, hc⟩, rfl⟩
    exact ⟨path, c, hc, rfl⟩
  · rintro ⟨path, c, hc, rfl⟩
    exact ⟨c, ⟨path, hc⟩, rfl⟩

theorem mem_labels_of_at? (h : b.at? path = some c) : c.id ∈ b.labels :=
  mem_labels_iff.mpr ⟨path, c, h, rfl⟩

/-- Two branches are equal if their tops and their quadrants are. -/
theorem ext_child {b d : Branch} (top : b.top? = d.top?) (below : ∀ q, b.child q = d.child q) :
    b = d := by
  cases b with
  | absent => exact (top?_eq_none_iff.mp top.symm).symm
  | node c nw ne sw se =>
    cases d with
    | absent => simp at top
    | node d nw' ne' sw' se' =>
      obtain rfl : c = d := by simpa using top
      obtain rfl : nw = nw' := below .northWest
      obtain rfl : ne = ne' := below .northEast
      obtain rfl : sw = sw' := below .southWest
      obtain rfl : se = se' := below .southEast
      rfl

/-! ### Distinct labels -/

/-- A label is used at the top or in a quadrant. -/
theorem mem_labels_iff_child (hc : b.top? = some c) :
    id ∈ b.labels ↔ id = c.id ∨ ∃ q, id ∈ (b.child q).labels := by
  cases b with
  | absent => simp at hc
  | node top nw ne sw se =>
    obtain rfl : top = c := by simpa using hc
    simp only [labels_node, List.mem_cons, List.mem_append, Quadrant.exists_iff, child, or_assoc]

/-- What it means for a cluster and its quadrants that no label is used twice. -/
theorem nodup_labels_child (h : b.labels.Nodup) (hc : b.top? = some c) :
    (∀ q, c.id ∉ (b.child q).labels) ∧ (∀ q, (b.child q).labels.Nodup) ∧
      ∀ q r id, id ∈ (b.child q).labels → id ∈ (b.child r).labels → q = r := by
  cases b with
  | absent => simp at hc
  | node top nw ne sw se =>
    obtain rfl : top = c := by simpa using hc
    simp only [labels_node, List.nodup_cons, List.mem_append, not_or, List.nodup_append',
      List.disjoint_left] at h
    obtain ⟨above, within⟩ := h
    refine ⟨?_, ?_, ?_⟩
    · intro q
      cases q <;> simp only [child, above, not_false_eq_true]
    · intro q
      cases q <;> simp only [child, within]
    · intro q r id hq hr
      cases q <;> cases r <;> grind [child]

/-- A label tells the place. -/
theorem path_eq_of_nodup (h : b.labels.Nodup) {c d : Cluster} {path other : List Quadrant}
    (hc : b.at? path = some c) (hd : b.at? other = some d) (same : c.id = d.id) : path = other := by
  induction path generalizing b other with
  | nil =>
    cases other with
    | nil => rfl
    | cons r other =>
      cases b with
      | absent => simp at hc
      | node top nw ne sw se =>
        obtain rfl : top = c := by simpa using hc
        exact absurd (same ▸ mem_labels_of_at? hd) ((nodup_labels_child h rfl).1 r)
  | cons q path ih =>
    cases b with
    | absent => simp at hc
    | node top nw ne sw se =>
      obtain ⟨above, below, apart⟩ := nodup_labels_child h rfl
      cases other with
      | nil =>
        obtain rfl : top = d := by simpa using hd
        exact absurd (same ▸ mem_labels_of_at? hc) (above q)
      | cons r other =>
        obtain rfl := apart q r c.id (mem_labels_of_at? hc) (same ▸ mem_labels_of_at? hd)
        rw [ih (below q) hc hd]

/-! ### Finding by a label -/

theorem find?_eq_none_iff : b.find? id = none ↔ id ∉ b.labels := by
  induction b with
  | absent => simp [find?]
  | node c nw ne sw se ihNW ihNE ihSW ihSE =>
    simp only [labels_node, List.mem_cons, List.mem_append, not_or, ← ihNW, ← ihNE, ← ihSW, ← ihSE]
    rw [find?]
    split
    · next same => simp [same]
    · next other => simp [Option.or_eq_none_iff, Ne.symm other, and_assoc]

/-- A label that is used below a quadrant leads into this quadrant. -/
theorem find?_node {nw ne sw se : Branch} (distinct : (node c nw ne sw se).labels.Nodup)
    (h : id ∈ ((node c nw ne sw se).child q).labels) :
    (node c nw ne sw se).find? id = ((node c nw ne sw se).child q).find? id := by
  obtain ⟨above, -, apart⟩ := nodup_labels_child distinct rfl
  have other : c.id ≠ id := by
    rintro rfl
    exact above q h
  have elsewhere : ∀ r, r ≠ q → ((node c nw ne sw se).child r).find? id = none := by
    intro r hr
    exact find?_eq_none_iff.mpr fun hmem => hr (apart r q id hmem h)
  have hnw := elsewhere .northWest
  have hne := elsewhere .northEast
  have hsw := elsewhere .southWest
  have hse := elsewhere .southEast
  rw [find?, if_neg other]
  cases q <;> simp_all [child]

theorem find?_eq_under (distinct : b.labels.Nodup) (hc : b.at? path = some c) :
    b.find? c.id = some (b.under path) := by
  induction path generalizing b with
  | nil =>
    cases b with
    | absent => simp at hc
    | node top nw ne sw se =>
      obtain rfl : top = c := by simpa using hc
      simp [find?]
  | cons q path ih =>
    cases b with
    | absent => simp at hc
    | node top nw ne sw se =>
      rw [find?_node distinct (mem_labels_of_at? hc)]
      exact ih ((nodup_labels_child distinct rfl).2.1 q) hc

/-! ### Grafting -/

/-- The branch with another one at the end of a path. -/
def graft (b : Branch) : List Quadrant → Branch → Branch
  | [], new => new
  | q :: path, new => b.setChild q ((b.child q).graft path new)

@[simp] theorem top?_setChild : (b.setChild q new).top? = b.top? := by
  cases b <;> cases q <;> rfl

theorem child_setChild (h : b.top?.isSome) :
    (b.setChild q new).child r = if r = q then new else b.child r := by
  cases b with
  | absent => simp at h
  | node c nw ne sw se => cases q <;> cases r <;> rfl

theorem child_setChild_self (h : b.top?.isSome) : (b.setChild q new).child q = new := by
  rw [child_setChild h, if_pos rfl]

theorem replace_eq_self (h : id ∉ b.labels) : replace id new b = b := by
  induction b with
  | absent => rfl
  | node c nw ne sw se ihNW ihNE ihSW ihSE =>
    simp only [labels_node, List.mem_cons, List.mem_append, not_or] at h
    obtain ⟨htop, ⟨⟨hnw, hne⟩, hsw⟩, hse⟩ := h
    rw [replace, if_neg (Ne.symm htop), ihNW hnw, ihNE hne, ihSW hsw, ihSE hse]

theorem child_replace {nw ne sw se : Branch} (other : c.id ≠ id) :
    (replace id new (node c nw ne sw se)).child q =
      replace id new ((node c nw ne sw se).child q) := by
  rw [replace, if_neg other]
  cases q <;> rfl

/-- As long as no label is used twice, replacing by a label is grafting at a place. -/
theorem replace_eq_graft (distinct : b.labels.Nodup) (hc : b.at? path = some c) :
    replace c.id new b = b.graft path new := by
  induction path generalizing b with
  | nil =>
    cases b with
    | absent => simp at hc
    | node top nw ne sw se =>
      obtain rfl : top = c := by simpa using hc
      simp [replace, graft]
  | cons q path ih =>
    cases b with
    | absent => simp at hc
    | node top nw ne sw se =>
      obtain ⟨above, below, apart⟩ := nodup_labels_child distinct rfl
      have hmem : c.id ∈ ((node top nw ne sw se).child q).labels := mem_labels_of_at? hc
      have other : top.id ≠ c.id := fun same => above q (same ▸ hmem)
      refine ext_child ?_ fun r => ?_
      · rw [graft, top?_setChild, replace, if_neg other]
        rfl
      · rw [child_replace other, graft, child_setChild rfl]
        split
        · next same =>
          rw [same]
          exact ih (below q) hc
        · next hr => exact replace_eq_self fun h => hr (apart r q c.id h hmem)

/-! ### What grafting does to the places -/

theorem top?_graft_cons : (b.graft (q :: path) new).top? = b.top? :=
  top?_setChild

theorem child_graft_cons (h : b.top?.isSome) : (b.graft (q :: path) new).child r =
    if r = q then (b.child q).graft path new else b.child r :=
  child_setChild h

/-- At the end of the path and below it, a grafted branch is the new one. -/
theorem under_graft (h : (b.at? path).isSome) (rest : List Quadrant) :
    (b.graft path new).under (path ++ rest) = new.under rest := by
  induction path generalizing b with
  | nil => rfl
  | cons q path ih =>
    have htop : b.top?.isSome := isSome_top?_of_at? h
    rw [List.cons_append, under_cons, child_graft_cons htop, if_pos rfl]
    exact ih h

/-- Places that do not lie below the end of the path keep their clusters. -/
theorem at?_graft_apart (h : (b.at? path).isSome) {other : List Quadrant}
    (apart : ¬ path <+: other) : (b.graft path new).at? other = b.at? other := by
  induction path generalizing b other with
  | nil => exact absurd List.nil_prefix apart
  | cons q path ih =>
    have htop : b.top?.isSome := isSome_top?_of_at? h
    cases other with
    | nil => exact top?_graft_cons
    | cons r other =>
      rw [at?_cons, child_graft_cons htop, at?_cons]
      split
      · next same =>
        subst same
        exact ih h fun below => apart (List.cons_prefix_cons.mpr ⟨rfl, below⟩)
      · rfl

/-- Grafting a sound branch over the right square keeps a branch sound. -/
theorem Sound.graft (h : Sound levels square b) (hpath : (b.at? path).isSome)
    (fits : Sound (levels - path.length) (square.along path) new) :
    Sound levels square (b.graft path new) := by
  obtain ⟨c, hc⟩ := Option.isSome_iff_exists.mp hpath
  have within := h.bounded hc
  have grafted : ∀ rest, (b.graft path new).at? (path ++ rest) = new.at? rest := by
    intro rest
    rw [at?, under_graft hpath, at?]
  constructor <;> intro other d hd <;> by_cases hp : path <+: other
  · obtain ⟨rest, rfl⟩ := hp
    exact fits.tidy (grafted rest ▸ hd)
  · exact h.tidy (at?_graft_apart hpath hp ▸ hd)
  · obtain ⟨rest, rfl⟩ := hp
    rw [Square.along_append]
    exact fits.placed (grafted rest ▸ hd)
  · exact h.placed (at?_graft_apart hpath hp ▸ hd)
  · obtain ⟨rest, rfl⟩ := hp
    have := fits.bounded (grafted rest ▸ hd)
    rw [List.length_append]
    omega
  · exact h.bounded (at?_graft_apart hpath hp ▸ hd)

/-! ### Counting labels -/

/-- What the clusters list is listed once more in a quadrant that is put in, and once less in the
one that makes way. -/
theorem count_flatMap_setChild {α : Type} [BEq α] (f : Cluster → List α) (a : α)
    (h : b.top?.isSome) : ((b.setChild q new).clusters.flatMap f).count a +
      ((b.child q).clusters.flatMap f).count a =
        (b.clusters.flatMap f).count a + (new.clusters.flatMap f).count a := by
  cases b with
  | absent => simp at h
  | node c nw ne sw se =>
    cases q <;> simp only [setChild, child, clusters, List.flatMap_cons, List.flatMap_append,
      List.count_append] <;> omega

theorem count_flatMap_graft {α : Type} [BEq α] (f : Cluster → List α) (a : α)
    (h : (b.at? path).isSome) : ((b.graft path new).clusters.flatMap f).count a +
      ((b.under path).clusters.flatMap f).count a =
        (b.clusters.flatMap f).count a + (new.clusters.flatMap f).count a := by
  induction path generalizing b with
  | nil => exact Nat.add_comm _ _
  | cons q path ih =>
    have htop : b.top?.isSome := isSome_top?_of_at? h
    have outer := @count_flatMap_setChild b ((b.child q).graft path new) q _ _ f a htop
    have inner := ih h
    rw [graft, under_cons]
    omega

theorem labels_eq_flatMap : b.labels = b.clusters.flatMap fun c => [c.id] :=
  List.map_eq_flatMap

theorem count_labels_setChild (h : b.top?.isSome) :
    (b.setChild q new).labels.count id + (b.child q).labels.count id =
      b.labels.count id + new.labels.count id := by
  simp only [labels_eq_flatMap]
  exact count_flatMap_setChild _ id h

theorem count_labels_graft (h : (b.at? path).isSome) :
    (b.graft path new).labels.count id + (b.under path).labels.count id =
      b.labels.count id + new.labels.count id := by
  simp only [labels_eq_flatMap]
  exact count_flatMap_graft _ id h

end Branch

end RailAtlas
