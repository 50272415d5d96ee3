import Mathlib.Data.Set.Function
import RailAtlas.Proofs.Index.ChunkLabels
import RailAtlas.Proofs.Index.Renaming

/-!
# Trees are determined by what they record

What an anchored tree records determines its clusters, their squares, their chunks and the members
of these; only the labels are left open. Two trees that record the same are therefore one tree up
to labels: giving the label at each place of the one the label at this place of the other carries
the first tree onto the second. If labels can be told apart this renaming is one-to-one.
-/

namespace RailAtlas

section Matching

variable {α β : Type} {f g : α → Option β}

/-- A partial function with the domain of an injective one is a map of its values. -/
theorem exists_map_eq (domain : ∀ a, (f a).isSome = (g a).isSome)
    (inj : ∀ a b x, f a = some x → f b = some x → a = b) : ∃ r : β → β, ∀ a, (f a).map r = g a := by
  let value (a : {a // (f a).isSome}) : β := (f a).get a.2
  let partner (a : {a // (f a).isSome}) : β := (g a).get (domain a ▸ a.2)
  have value_injective : Function.Injective value := by
    intro a b same
    refine Subtype.ext (inj a b (value a) (Option.some_get a.2).symm ?_)
    rw [same]
    exact (Option.some_get b.2).symm
  refine ⟨Function.extend value partner id, fun a => ?_⟩
  by_cases here : (f a).isSome
  · have extended : Function.extend value partner id (value ⟨a, here⟩) = partner ⟨a, here⟩ :=
      value_injective.extend_apply partner id ⟨a, here⟩
    rw [← Option.some_get here, Option.map_some]
    exact (congrArg some extended).trans (Option.some_get _)
  · have gone : g a = none := by simpa [domain] using here
    rw [gone, Option.not_isSome_iff_eq_none.mp here, Option.map_none]

/-- Two injective partial functions with one domain are matched by a map between their values. -/
theorem exists_matching (domain : ∀ a, (f a).isSome = (g a).isSome)
    (inj : ∀ a b x, f a = some x → f b = some x → a = b)
    (inj' : ∀ a b y, g a = some y → g b = some y → a = b) :
    ∃ r : β → β, (∀ a, (f a).map r = g a) ∧
      Set.BijOn r {x | ∃ a, f a = some x} {y | ∃ a, g a = some y} := by
  obtain ⟨r, matched⟩ := exists_map_eq domain inj
  have partner {a : α} {x : β} (hx : f a = some x) : g a = some (r x) := by
    rw [← matched, hx, Option.map_some]
  refine ⟨r, matched, ?_, ?_, ?_⟩
  · rintro x ⟨a, hx⟩
    exact ⟨a, partner hx⟩
  · rintro x ⟨a, hx⟩ y ⟨b, hy⟩ same
    obtain rfl := inj' a b _ (partner hx) (same ▸ partner hy)
    exact Option.some.inj (hx.symm.trans hy)
  · rintro y ⟨a, hy⟩
    rw [← matched, Option.map_eq_some_iff] at hy
    obtain ⟨x, hx, rfl⟩ := hy
    exact ⟨x, ⟨a, hx⟩, rfl⟩

end Matching

/-- Chunks are equal if their labels, places and members are. -/
theorem Chunk.ext_get? {c d : Chunk} (id : c.id = d.id) (owner : c.owner = d.owner)
    (home : c.home = d.home) (square : c.square = d.square)
    (members : ∀ entity, c.get? entity = d.get? entity) : c = d := by
  obtain ⟨_, _, _, _, held⟩ := c
  obtain ⟨_, _, _, _, held'⟩ := d
  obtain rfl : held = held' := Std.ExtTreeMap.ext_getElem? fun {entity} => members entity
  simp_all

namespace Cluster

variable {c d : Cluster} {ρ : Renaming} {owner : OwnerId}

/-- Chunks in clusters that correspond are equal up to labels if they have the same members. -/
theorem bucket?_eq_rename (tidy : c.Tidy) (tidy' : d.Tidy) (label : d.id = ρ.cluster c.id)
    (square : d.square = c.square)
    (members : ∀ entity, c.member? owner entity = d.member? owner entity)
    (chunk : ((c.bucket? owner).map (·.id)).map ρ.chunk = (d.bucket? owner).map (·.id)) :
    d.bucket? owner = (c.bucket? owner).map (·.rename ρ) := by
  unfold member? at members
  cases hb : c.bucket? owner with
  | none =>
    rw [hb] at chunk
    exact Option.map_eq_none_iff.mp chunk.symm
  | some x =>
    rw [hb] at chunk members
    obtain ⟨y, hy, hid⟩ := Option.map_eq_some_iff.mp chunk.symm
    rw [hy] at members
    rw [hy, Option.map_some, Option.some.injEq]
    refine Chunk.ext_get? hid ?_ ?_ ?_ fun entity => (members entity).symm
    · exact (tidy'.owner hy).trans (tidy.owner hb).symm
    · exact (tidy'.home hy).trans (label.trans (congrArg ρ.cluster (tidy.home hb).symm))
    · exact (tidy'.square hy).trans (square.trans (tidy.square hb).symm)

/-- Tidy clusters over one square with the same members are equal up to labels. -/
theorem eq_rename (tidy : c.Tidy) (tidy' : d.Tidy) (label : d.id = ρ.cluster c.id)
    (square : d.square = c.square)
    (members : ∀ owner entity, c.member? owner entity = d.member? owner entity)
    (chunks : ∀ owner,
      ((c.bucket? owner).map (·.id)).map ρ.chunk = (d.bucket? owner).map (·.id)) :
    d = c.rename ρ := by
  refine ext_bucket? label square fun owner => ?_
  rw [bucket?_rename]
  exact bucket?_eq_rename tidy tidy' label square (members owner) (chunks owner)

end Cluster

namespace Branch

/-- Branches with the same clusters at all places are equal. -/
theorem ext_at? {b d : Branch} (h : ∀ path, b.at? path = d.at? path) : b = d := by
  induction b using quadrant_induction generalizing d with
  | absent => exact (top?_eq_none_iff.mp (h []).symm).symm
  | node c nw ne sw se ih => exact ext_child (h []) fun q => ih q fun path => h (q :: path)

/-- A label tells the place, as `path_eq_of_nodup` has it for clusters. -/
theorem path_eq_of_labelAt? {b : Branch} (h : b.labels.Nodup) {path other : List Quadrant}
    {id : ClusterId} (hp : b.labelAt? path = some id) (ho : b.labelAt? other = some id) :
    path = other := by
  obtain ⟨c, hc, rfl⟩ := Option.map_eq_some_iff.mp hp
  obtain ⟨d, hd, hid⟩ := Option.map_eq_some_iff.mp ho
  exact path_eq_of_nodup h hc hd hid.symm

end Branch

namespace Tree

variable {t u : Tree} {ρ : Renaming}

/-- A renaming carries a tree onto another one: the other tree is the first one with its labels
renamed, and labels in use correspond one to one. -/
structure Carries (ρ : Renaming) (t u : Tree) : Prop where
  clusters : Set.BijOn ρ.cluster {id | t.isRegistered id = true} {id | u.isRegistered id = true}
  chunks : Set.BijOn ρ.chunk {id | id ∈ t.root.chunkLabels} {id | id ∈ u.root.chunkLabels}
  root : u.root = t.root.rename ρ

/-! ### The same record -/

theorem isRegistered_iff_labelAt? {id : ClusterId} :
    t.isRegistered id = true ↔ ∃ path, t.root.labelAt? path = some id := by
  simp only [isRegistered_iff, Branch.labelAt?, Option.map_eq_some_iff]

theorem isSome_labelAt?_eq (ht : t.Anchored) (hu : u.Anchored) (same : t.contents = u.contents)
    (path : List Quadrant) : (t.root.labelAt? path).isSome = (u.root.labelAt? path).isSome := by
  rw [Branch.labelAt?, Branch.labelAt?, Option.isSome_map, Option.isSome_map, Bool.eq_iff_iff,
    ht.isSome_at?_iff, hu.isSome_at?_iff, same]

theorem isSome_chunkLabelAt?_eq (ht : t.Anchored) (hu : u.Anchored)
    (same : t.contents = u.contents) (place : List Quadrant × OwnerId) :
    (t.root.chunkLabelAt? place).isSome = (u.root.chunkLabelAt? place).isSome := by
  rw [Branch.chunkLabelAt?, Branch.chunkLabelAt?, Option.isSome_map, Option.isSome_map,
    Bool.eq_iff_iff, ht.isSome_bucket?_iff, hu.isSome_bucket?_iff, same]

/-- If labels are renamed place by place, the clusters at each place are renamed. -/
theorem at?_eq_rename (ht : t.Anchored) (hu : u.Anchored) (range : t.range = u.range)
    (same : t.contents = u.contents)
    (clusters : ∀ path, (t.root.labelAt? path).map ρ.cluster = u.root.labelAt? path)
    (chunks : ∀ place, (t.root.chunkLabelAt? place).map ρ.chunk = u.root.chunkLabelAt? place)
    (path : List Quadrant) : u.root.at? path = (t.root.at? path).map (·.rename ρ) := by
  have label := clusters path
  rw [Branch.labelAt?, Branch.labelAt?] at label
  cases hc : t.root.at? path with
  | none =>
    rw [hc] at label
    exact Option.map_eq_none_iff.mp label.symm
  | some c =>
    rw [hc] at label
    obtain ⟨d, hd, hid⟩ := Option.map_eq_some_iff.mp label.symm
    have square : d.square = c.square := by rw [hu.sound.placed hd, ht.sound.placed hc, range]
    rw [hd, Option.map_some, Option.some.injEq]
    refine Cluster.eq_rename (ht.sound.tidy hc) (hu.sound.tidy hd) hid square ?_ ?_
    · intro owner entity
      rw [← Branch.memberAt?_of_at? hc, ← Branch.memberAt?_of_at? hd]
      exact congrFun (congrFun (congrFun same path) owner) entity
    · intro owner
      simpa only [Branch.chunkLabelAt?, hc, hd, Option.bind_some] using chunks (path, owner)

/-- Trees that record the same over the same scales are one tree up to labels. -/
theorem exists_carries (ht : t.Anchored) (hu : u.Anchored) (range : t.range = u.range)
    (same : t.contents = u.contents) (distinct : t.Distinct) (distinct' : u.Distinct) :
    ∃ ρ, Carries ρ t u := by
  obtain ⟨cluster, cluster_eq, cluster_bij⟩ := exists_matching
    (f := t.root.labelAt?) (g := u.root.labelAt?) (isSome_labelAt?_eq ht hu same)
    (fun _ _ _ => Branch.path_eq_of_labelAt? distinct.clusters)
    (fun _ _ _ => Branch.path_eq_of_labelAt? distinct'.clusters)
  obtain ⟨chunk, chunk_eq, chunk_bij⟩ := exists_matching
    (f := t.root.chunkLabelAt?) (g := u.root.chunkLabelAt?) (isSome_chunkLabelAt?_eq ht hu same)
    (fun _ _ _ => Branch.place_eq_of_nodup_chunkLabels distinct.chunks)
    (fun _ _ _ => Branch.place_eq_of_nodup_chunkLabels distinct'.chunks)
  refine ⟨⟨cluster, chunk⟩, ?_, ?_, Branch.ext_at? fun path => ?_⟩
  · simpa only [isRegistered_iff_labelAt?] using cluster_bij
  · simpa only [Branch.mem_chunkLabels_iff] using chunk_bij
  · rw [Branch.at?_rename]
    exact at?_eq_rename ht hu range same cluster_eq chunk_eq path

end Tree

end RailAtlas
