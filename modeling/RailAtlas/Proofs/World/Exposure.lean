import RailAtlas.Proofs.Geometry.Overlap
import RailAtlas.Proofs.World.Viewport

/-!
# What a viewport exports lies in its square

A view takes its sources from clusters that meet the viewport. As the borders of a cluster are
finite, each of these covers a finite point that is beyond no border of the viewport. If the borders
of the viewport are numbers, it covers this point as well, and where it covers no finite point the
view is empty.

A border of a viewport is no number if its center is none, or if both the center and half the side
are infinite. Such a border is ignored: clusters are exported as if the viewport went on there
without end, although it covers no point.
-/

namespace RailAtlas

def Viewport.frame (viewport : Viewport) : Frame :=
  .around viewport.center (halfSide viewport.scale)

/-- The square of a place is confined by the world square. -/
theorem Square.confined_along {range : ScaleRange} (valid : range.validate = .ok ())
    (path : List Quadrant) (short : path.length < range.depth) :
    ((Tree.worldSquare range).along path).Confined path.length (range.maxScale - 1) := by
  obtain ⟨least, ordered, greatest⟩ := range.bounds_of_valid valid
  induction path using List.reverseRecOn with
  | nil =>
    have origin : Grid.Within 0 (range.maxScale - 1) 0 :=
      ⟨by decide, by rw [Nat.zero_mul]; decide⟩
    exact ⟨origin, origin, by change _ ≤ range.maxScale; omega, by change range.maxScale ≤ _; omega⟩
  | append_singleton path q ih =>
    rw [List.length_append, List.length_singleton] at short ⊢
    have splits : range.minScale < ((Tree.worldSquare range).along path).scale :=
      (splits_along_iff path).mpr short
    have few : range.depth ≤ 2001 := by
      rw [ScaleRange.depth]
      omega
    rw [Square.along_append]
    exact (ih (by omega)).quadrant (by omega) (by omega) (by omega) q

namespace World

variable {range : ScaleRange} {w : World} {viewport : Viewport} {s : ViewSource}
variable {c : Cluster} {path : List Quadrant}

/-- The clusters of a world have finite borders. -/
theorem Reachable.bounded_frame (h : Reachable range w) (hc : w.index.root.at? path = some c) :
    c.square.frame.Bounded := by
  obtain ⟨least, ordered, greatest⟩ := range.bounds_of_valid h.valid
  have short := h.length_lt_depth hc
  rw [h.mirrored.anchored.sound.placed hc, h.range_index]
  refine (Square.confined_along h.valid path short).bounded ?_ (by omega)
  rw [ScaleRange.depth] at short
  omega

/-- A source of a view is a chunk of a cluster at which the walk stops. -/
theorem Reachable.exists_exported (h : Reachable range w) (source : s ∈ (w.view viewport).sources) :
    ∃ path c, w.index.root.at? path = some c ∧ w.index.root.Exported viewport path ∧
      s ∈ c.sources := by
  have sources := (@Chunk.foldl_exportTo .empty (w.index.root.shown viewport)).1
  rw [view, Tree.fillView, sources] at source
  obtain ⟨chunk, shown, rfl⟩ := List.mem_map.mp source
  obtain ⟨path, c, owner, hc, exported, filed⟩ := Branch.exists_of_mem_shown shown
  refine ⟨path, c, hc, exported, ?_⟩
  rw [← (h.mirrored.anchored.sound.tidy hc).map_source]
  exact List.mem_map_of_mem (List.mem_map_of_mem (Cluster.mem_bucketList_iff.mpr filed))

/-- A view without sources is empty. -/
theorem view_eq_empty (none : (w.view viewport).sources = []) : w.view viewport = .empty := by
  have sources := (@Chunk.foldl_exportTo .empty (w.index.root.shown viewport)).1
  have nothing : w.index.root.shown viewport = [] := by
    rw [view, Tree.fillView, sources] at none
    exact List.map_eq_nil_iff.mp none
  rw [view, Tree.fillView, nothing]
  rfl

/-- Each source of a view is a chunk of a cluster that covers some finite point beyond no border of
the viewport. It covers one that the viewport covers, too, exactly if the borders of the viewport
are numbers. -/
theorem Reachable.exists_overlap (h : Reachable range w)
    (source : s ∈ (w.view viewport).sources) : ∃ c ∈ w.index.root.clusters, s ∈ c.sources ∧
      (∃ p, p.isFinite = true ∧ c.square.frame.Covers p ∧ viewport.frame.Admits p) ∧
      ((∃ p, p.isFinite = true ∧ c.square.frame.Covers p ∧ viewport.frame.Covers p) ↔
        viewport.frame.Numeric) := by
  obtain ⟨path, c, hc, exported, filed⟩ := h.exists_exported source
  have meets : c.square.meets viewport.center viewport.scale = true :=
    exported.meets List.prefix_rfl hc
  obtain ⟨p, finite, covers, admits⟩ := (Square.meets_iff (h.bounded_frame hc)).mp meets
  refine ⟨c, Branch.mem_clusters_iff.mpr ⟨path, hc⟩, filed, ⟨p, finite, covers, admits⟩, ?_, ?_⟩
  · rintro ⟨q, -, -, common⟩
    exact common.numeric
  · intro numeric
    exact ⟨p, finite, covers, (Frame.admits_iff_covers numeric finite).mp admits⟩

/-- A viewport exports clusters that share a point with its square, and nothing where its square
holds no point, as long as the borders of the square are numbers. They are if its center and half
its side are and not both of these are infinite. Otherwise the square holds no point at all, and of
an exported cluster it is only known that some point of it is beyond no border. -/
theorem sources_overlap (started : Started range w) (calls : List Call) (viewport : Viewport) :
    (∀ s ∈ ((w.run calls).view viewport).sources,
      ∃ c ∈ (w.run calls).index.root.clusters, s ∈ c.sources ∧
        (∃ p, p.isFinite = true ∧ c.square.frame.Covers p ∧ viewport.frame.Admits p) ∧
        ((∃ p, p.isFinite = true ∧ c.square.frame.Covers p ∧ viewport.frame.Covers p) ↔
          viewport.frame.Numeric)) ∧
    (viewport.frame.Numeric → (∀ p, p.isFinite = true → ¬ viewport.frame.Covers p) →
      (w.run calls).view viewport = .empty) ∧
    (viewport.frame.Numeric ↔ viewport.center.x.isNaN = false ∧ viewport.center.y.isNaN = false ∧
      (halfSide viewport.scale).isNaN = false ∧
      (viewport.center.isFinite = true ∨ (halfSide viewport.scale).isFinite = true)) := by
  have reachable := started.reachable.run calls
  refine ⟨fun s source => reachable.exists_overlap source, fun numeric nowhere => ?_,
    Frame.numeric_around_iff⟩
  refine view_eq_empty (List.eq_nil_iff_forall_not_mem.mpr fun s source => ?_)
  obtain ⟨c, -, -, -, common⟩ := reachable.exists_overlap source
  obtain ⟨p, finite, -, covers⟩ := common.mpr numeric
  exact nowhere p finite covers

/-- A station in the square of a viewport. -/
theorem sources_overlap_station :
    let viewport : Viewport := ⟨.origin, 5, 0⟩
    let calls : List Call := [.spawnWithId (.ofNat 1) ⟨.station, ⟨2⟩, .point ⟨1, 1⟩⟩]
    ∃ w, create .standard 7 = .ok w ∧ ((w.run calls).view viewport).sources ≠ [] ∧
      ∀ s ∈ ((w.run calls).view viewport).sources, ∃ (c : Cluster) (p : Point), s ∈ c.sources ∧
        c.square.frame.Covers p ∧ viewport.frame.Covers p := by
  intro viewport calls
  have created : create .standard 7 = .ok _ := rfl
  obtain ⟨overlap, -, numeric⟩ := sources_overlap (.created created) calls viewport
  refine ⟨_, created, by decide +kernel, fun s source => ?_⟩
  obtain ⟨c, -, filed, -, common⟩ := overlap s source
  obtain ⟨p, -, covers, covers'⟩ := common.mpr (numeric.mpr (by decide +kernel))
  exact ⟨c, p, filed, covers, covers'⟩

/-- A viewport whose center is no number covers no point, yet it exports the chunk of a station. -/
theorem exports_outside_of_no_number :
    let viewport : Viewport := ⟨⟨.ofBits 0x7ff8000000000000, 0⟩, 5, 0⟩
    let calls : List Call := [.spawnWithId (.ofNat 1) ⟨.station, ⟨2⟩, .point ⟨1, 1⟩⟩]
    ∃ w, create .standard 7 = .ok w ∧ ((w.run calls).view viewport).sources ≠ [] ∧
      ∀ p, ¬ viewport.frame.Covers p := by
  intro viewport calls
  have created : create .standard 7 = .ok _ := rfl
  refine ⟨_, created, by decide +kernel, fun p covers => ?_⟩
  have number : viewport.frame.columns.low.isNaN = false := covers.numeric.1.1
  exact absurd number (by decide +kernel)

end World

end RailAtlas
