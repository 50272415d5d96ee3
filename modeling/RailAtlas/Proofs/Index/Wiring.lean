import RailAtlas.Proofs.Index.Labelling

/-!
# How the clusters hang together

A tree shows each cluster with the label of its parent and the labels of its children, and these
labels are all that a caller can follow. `WellFormed` says that following them makes sense: parents
and children know each other, squares fit, and from the root every cluster is reached by exactly
one path. A tree is well formed if it is labelled and its labels can be told apart.
-/

namespace RailAtlas

/-- The label of the child in a quadrant. -/
def ClusterEntry.slot (e : ClusterEntry) : Quadrant → Option ClusterId
  | .northWest => e.northWest
  | .northEast => e.northEast
  | .southWest => e.southWest
  | .southEast => e.southEast

namespace Branch

variable {b : Branch} {c : Cluster} {path : List Quadrant} {parent : Option ClusterId}
variable {e : ClusterEntry} {q : Quadrant}

def labelAt? (b : Branch) (path : List Quadrant) : Option ClusterId :=
  (b.at? path).map (·.id)

theorem label?_of_top? (h : b.top? = some c) : b.label? = some c.id := by
  rw [label?, h]
  rfl

@[simp] theorem labelAt?_cons : b.labelAt? (q :: path) = (b.child q).labelAt? path := rfl

/-- The cluster at a place with its links, in a branch below some parent. -/
def entryAt (parent : Option ClusterId) (b : Branch) (path : List Quadrant) (c : Cluster) :
    ClusterEntry :=
  { cluster := c
    parent := if path = [] then parent else b.labelAt? path.dropLast
    northWest := b.labelAt? (path ++ [.northWest])
    northEast := b.labelAt? (path ++ [.northEast])
    southWest := b.labelAt? (path ++ [.southWest])
    southEast := b.labelAt? (path ++ [.southEast]) }

@[simp] theorem entryAt_slot : (entryAt parent b path c).slot q = b.labelAt? (path ++ [q]) := by
  cases q <;> rfl

/-- A slot without a label is that of an absent quadrant. -/
theorem child_eq_absent_of_slot (h : (entryAt parent b path c).slot q = none) :
    (b.under path).child q = absent := by
  rw [entryAt_slot] at h
  rw [← top?_eq_none_iff, ← Option.map_eq_none_iff.mp h, at?_append]
  rfl

theorem entryAt_cons : entryAt parent b (q :: path) c = entryAt b.label? (b.child q) path c := by
  cases path with
  | nil => rfl
  | cons r path => rfl

/-- The entries of a branch are those of its places. -/
theorem mem_entries_iff :
    e ∈ b.entries parent ↔ ∃ path c, b.at? path = some c ∧ e = entryAt parent b path c := by
  induction b using quadrant_induction generalizing parent with
  | absent => simp [entries]
  | node top nw ne sw se ih =>
    have listed : e ∈ (node top nw ne sw se).entries parent ↔
        e = entryAt parent (node top nw ne sw se) [] top ∨
          ∃ q, e ∈ ((node top nw ne sw se).child q).entries (some top.id) := by
      rw [Quadrant.exists_iff, entries, List.mem_cons, List.mem_append, List.mem_append,
        List.mem_append, or_assoc, or_assoc]
      rfl
    rw [listed]
    constructor
    · rintro (rfl | ⟨q, hq⟩)
      · exact ⟨[], top, rfl, rfl⟩
      · obtain ⟨path, c, hc, rfl⟩ := (ih q).mp hq
        exact ⟨q :: path, c, hc, entryAt_cons.symm⟩
    · rintro ⟨path, c, hc, rfl⟩
      cases path with
      | nil =>
        obtain rfl := Option.some.inj hc
        exact .inl rfl
      | cons q path => exact .inr ⟨q, (ih q).mpr ⟨path, c, hc, entryAt_cons⟩⟩

end Branch

namespace Tree

variable {t : Tree} {c : Cluster} {path : List Quadrant} {e : ClusterEntry} {id : ClusterId}

theorem mem_entries_iff :
    e ∈ t.entries ↔ ∃ path c, t.root.at? path = some c ∧ e = t.root.entryAt none path c := by
  rw [entries, List.mem_mergeSort, Branch.mem_entries_iff]

theorem entry?_iff (distinct : t.root.labels.Nodup) : t.entry? id = some e ↔
    ∃ path c, t.root.at? path = some c ∧ c.id = id ∧ e = t.root.entryAt none path c := by
  unfold entry?
  constructor
  · intro h
    obtain ⟨path, c, hc, rfl⟩ := Branch.mem_entries_iff.mp (List.mem_of_find?_eq_some h)
    exact ⟨path, c, hc, by simpa [Branch.entryAt] using List.find?_some h, rfl⟩
  · rintro ⟨path, c, hc, rfl, rfl⟩
    have listed : t.root.entryAt none path c ∈ t.root.entries none :=
      Branch.mem_entries_iff.mpr ⟨path, c, hc, rfl⟩
    cases hf : (t.root.entries none).find? fun e => e.cluster.id == c.id with
    | none => simpa [Branch.entryAt] using List.find?_eq_none.mp hf _ listed
    | some found =>
      -- the label tells the place, and the place tells the entry
      obtain ⟨other, d, hd, rfl⟩ := Branch.mem_entries_iff.mp (List.mem_of_find?_eq_some hf)
      have same : d.id = c.id := by simpa [Branch.entryAt] using List.find?_some hf
      obtain rfl := Branch.path_eq_of_nodup distinct hd hc same
      obtain rfl := Option.some.inj (hd.symm.trans hc)
      rfl

theorem entry?_of_at? (distinct : t.root.labels.Nodup) (hc : t.root.at? path = some c) :
    t.entry? c.id = some (t.root.entryAt none path c) :=
  (entry?_iff distinct).mpr ⟨path, c, hc, rfl, rfl⟩

/-- The label that is reached from the root by following children. -/
def follow (t : Tree) (path : List Quadrant) : Option ClusterId :=
  path.foldlM (fun id q => (t.entry? id).bind (·.slot q)) rootId

/-- Following children is walking down the tree. -/
theorem Labelled.follow_eq (h : t.Labelled) (distinct : t.root.labels.Nodup)
    (path : List Quadrant) : t.follow path = t.root.labelAt? path := by
  induction path using List.reverseRecOn with
  | nil => exact h.rooted.symm
  | append_singleton path q ih =>
    rw [follow] at ih
    rw [follow, List.foldlM_append, ih]
    cases hc : t.root.at? path with
    | none =>
      have gone : t.root.at? (path ++ [q]) = none := by
        rw [← Option.not_isSome_iff_eq_none]
        intro below
        simpa [hc] using Branch.isSome_at?_of_append below
      simp [Branch.labelAt?, hc, gone]
    | some c => simp [Branch.labelAt?, hc, entry?_of_at? distinct hc]

/-- The clusters of a tree hang together. -/
structure WellFormed (t : Tree) : Prop where
  /-- Every label is registered for one entry. -/
  registered : ∀ e, e ∈ t.entries ↔ t.entry? e.cluster.id = some e
  /-- The root is registered over the world square and has no parent. -/
  root : ∃ e, t.entry? rootId = some e ∧ e.parent = none ∧ e.cluster.square = worldSquare t.range
  /-- Any other cluster has a registered parent, which has it as its child in one quadrant. It is
  one scale finer and covers this quadrant. -/
  parent : ∀ id e, t.entry? id = some e → id ≠ rootId → ∃ p above q, e.parent = some p ∧
    t.entry? p = some above ∧ above.slot q = some id ∧ (∀ r, above.slot r = some id → r = q) ∧
    e.cluster.square.scale = above.cluster.square.scale - 1 ∧
    t.range.minScale ≤ e.cluster.square.scale ∧
    t.childCenter? above.cluster q = some e.cluster.square.center
  /-- Children are registered and have the cluster as their parent. -/
  child : ∀ id e q child, t.entry? id = some e → e.slot q = some child →
    ∃ below, t.entry? child = some below ∧ below.parent = some id
  /-- Following children from the root leads to every cluster by one path. -/
  reached : ∀ id e, t.entry? id = some e → ∃ path, t.follow path = some id ∧
    ∀ other, t.follow other = some id → other = path
  /-- There are centers for children above the finest scale. -/
  centers : ∀ id e q, t.entry? id = some e → ((t.childCenter? e.cluster q).isSome ↔
    t.range.minScale < e.cluster.square.scale)
  /-- Chunks are not empty, are kept under their owners and know their cluster. -/
  buckets : ∀ id e owner chunk, t.entry? id = some e → e.cluster.bucket? owner = some chunk →
    chunk.isEmpty = false ∧ chunk.owner = owner ∧ chunk.home = id ∧ chunk.square = e.cluster.square

theorem Labelled.wellFormed (h : t.Labelled) (distinct : t.root.labels.Nodup) : t.WellFormed := by
  constructor
  · intro e
    rw [mem_entries_iff, entry?_iff distinct]
    constructor
    · rintro ⟨path, c, hc, rfl⟩
      exact ⟨path, c, hc, rfl, rfl⟩
    · rintro ⟨path, c, hc, -, he⟩
      exact ⟨path, c, hc, he⟩
  · obtain ⟨c, hc, hid⟩ := h.exists_root
    refine ⟨t.root.entryAt none [] c, hid ▸ entry?_of_at? distinct hc, rfl, ?_⟩
    exact h.sound.top_square hc
  · intro id e he other
    obtain ⟨path, c, hc, rfl, rfl⟩ := (entry?_iff distinct).mp he
    obtain rfl | ⟨front, q, rfl⟩ := path.eq_nil_or_concat'
    · exact absurd ((h.eq_nil_iff distinct hc).mp rfl) other
    · obtain ⟨above, ha⟩ :=
        Option.isSome_iff_exists.mp (Branch.isSome_at?_of_append (Option.isSome_of_eq_some hc))
      have hsquare : c.square = above.square.quadrant q := by
        rw [h.sound.placed hc, h.sound.placed ha, Square.along_append]
        rfl
      have fine : t.range.minScale < above.square.scale := by
        have hscale : above.square.scale = t.range.maxScale - front.length := by
          rw [h.sound.placed ha, Square.scale_along, worldSquare]
        have bounded := h.sound.bounded hc
        rw [List.length_append, List.length_singleton, levels] at bounded
        omega
      refine ⟨above.id, t.root.entryAt none front above, q, ?_, entry?_of_at? distinct ha, ?_, ?_,
        ?_, ?_, ?_⟩
      · simp [Branch.entryAt, Branch.labelAt?, ha]
      · simp [Branch.labelAt?, hc]
      · intro r hr
        rw [Branch.entryAt_slot] at hr
        obtain ⟨d, hd, same⟩ := Option.map_eq_some_iff.mp hr
        have paths := Branch.path_eq_of_nodup distinct hd hc same
        simpa using paths
      · exact congrArg Square.scale hsquare
      · change t.range.minScale ≤ c.square.scale
        rw [hsquare]
        change t.range.minScale ≤ above.square.scale - 1
        omega
      · change t.childCenter? above q = some c.square.center
        rw [childCenter?, splits, if_pos (decide_eq_true fine), hsquare]
  · intro id e q child he hslot
    obtain ⟨path, c, hc, rfl, rfl⟩ := (entry?_iff distinct).mp he
    rw [Branch.entryAt_slot] at hslot
    obtain ⟨d, hd, rfl⟩ := Option.map_eq_some_iff.mp hslot
    refine ⟨_, entry?_of_at? distinct hd, ?_⟩
    simp [Branch.entryAt, Branch.labelAt?, hc]
  · intro id e he
    obtain ⟨path, c, hc, rfl, rfl⟩ := (entry?_iff distinct).mp he
    refine ⟨path, by simp [h.follow_eq distinct, Branch.labelAt?, hc], ?_⟩
    intro other hother
    rw [h.follow_eq distinct] at hother
    obtain ⟨d, hd, same⟩ := Option.map_eq_some_iff.mp hother
    exact Branch.path_eq_of_nodup distinct hd hc same
  · intro id e q he
    rw [childCenter?, splits]
    split <;> simp_all
  · intro id e owner chunk he hb
    obtain ⟨path, c, hc, rfl, rfl⟩ := (entry?_iff distinct).mp he
    have tidy := h.sound.tidy hc
    exact ⟨tidy.inhabited hb, tidy.owner hb, tidy.home hb, tidy.square hb⟩

end Tree

end RailAtlas
