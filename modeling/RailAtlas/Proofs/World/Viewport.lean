import RailAtlas.Proofs.Index.Trail
import RailAtlas.Proofs.Index.Walk
import RailAtlas.Proofs.World.Mirror

/-!
# What a viewport sees of the registry

An entity whose point lies in the square of a viewport is shown exactly if the descent of the point
has a square that is fine enough: every square of the descent holds the point and therefore meets
the viewport, so nothing is pruned before the walk stops.

How fine the descent gets is known down to the precision of doubles. On at most 54 scales the
entity is shown as long as the viewport asks for squares coarser than the finest ones. Asked for
the finest squares or for finer ones, the walk comes to an end without having shown anything.
-/

namespace RailAtlas

namespace Descent

variable {range : ScaleRange} {p : Point} {path : List Quadrant}

/-- A descent goes no deeper than the finest scale. -/
theorem minScale_le (valid : range.validate = .ok ()) (h : Descent range p path) :
    range.minScale ≤ ((Tree.worldSquare range).along path).scale := by
  obtain ⟨-, ordered, -⟩ := range.bounds_of_valid valid
  have bounded := Branch.length_le_of_visits (iff_visits.mp h)
  rw [scale_along_worldSquare]
  omega

end Descent

/-- Only a valid range has a tree. -/
theorem Tree.valid_of_create {range : ScaleRange} {t : Tree} (h : create range = .ok t) :
    range.validate = .ok () := by
  rw [create] at h
  cases hv : range.validate with
  | error cause => simp [hv, bind, Except.bind] at h
  | ok u => rfl

namespace World

variable {range : ScaleRange} {w : World} {viewport : Viewport} {id : EntityId} {r : EntityRecord}
variable {p : Point}

theorem Reachable.valid (h : Reachable range w) : range.validate = .ok () := by
  induction h with
  | created hw =>
    obtain ⟨index, hindex, -⟩ := create_eq hw
    exact Tree.valid_of_create hindex
  | step _ _ ih => exact ih
  | relogged _ _ ih => exact ih

/-- The places of a world are on the scales of its range. -/
theorem Reachable.length_lt_depth (h : Reachable range w) {path : List Quadrant} {c : Cluster}
    (hc : w.index.root.at? path = some c) : path.length < range.depth := by
  obtain ⟨-, ordered, -⟩ := range.bounds_of_valid h.valid
  have bounded := h.mirrored.anchored.sound.bounded hc
  rw [h.range_index] at bounded
  rw [ScaleRange.depth]
  omega

/-- A square of the descent is fine enough for a viewport. -/
def Resolves (range : ScaleRange) (viewport : Viewport) (path : List Quadrant) : Prop :=
  Float.ofInt ((Tree.worldSquare range).along path).scale < viewport.scale - viewport.span

/-- An entity is recorded on the descent of its point, for its owner. -/
theorem Reachable.isSome_memberAt?_iff (h : Reachable range w) (known : w.get? id = some r)
    (spatial : r.kind.isSpatial = true) (hp : w.anchor? r = some p) {path : List Quadrant}
    {owner : OwnerId} : (w.index.root.memberAt? path owner id).isSome ↔
      owner = r.owner ∧ Descent range p path := by
  have recorded : w.index.root.memberAt? path owner id = w.mirror path owner id := by
    rw [← h.mirrored.contents]
    rfl
  rw [recorded]
  constructor
  · intro held
    obtain ⟨m, hm⟩ := Option.isSome_iff_exists.mp held
    obtain ⟨r', p', hr', howner, -, hp', descends, -⟩ := h.integrity.mirror_eq_some_iff.mp hm
    obtain rfl := Option.some.inj (known.symm.trans hr')
    obtain rfl := Option.some.inj (hp.symm.trans hp')
    exact ⟨howner.symm, h.range_index ▸ descends⟩
  · rintro ⟨rfl, descends⟩
    rw [h.integrity.mirror_eq_some_iff.mpr
      ⟨r, p, known, rfl, spatial, hp, h.range_index.symm ▸ descends, rfl⟩]
    rfl

/-- An entity in the square of a viewport is shown exactly if some square of the descent of its
point is fine enough. -/
theorem Reachable.contains_view_iff (h : Reachable range w) (known : w.get? id = some r)
    (spatial : r.kind.isSpatial = true) (hp : w.anchor? r = some p)
    (seen : p.isIn viewport.center viewport.scale = true) :
    (w.view viewport).contains id = true ↔ ∃ path, Descent range p path ∧
      Resolves range viewport path := by
  have placed {path : List Quadrant} {c : Cluster} (hc : w.index.root.at? path = some c) :
      c.square = (Tree.worldSquare range).along path := by
    rw [h.mirrored.anchored.sound.placed hc, h.range_index]
  rw [view, Tree.contains_fillView_iff]
  simp only [h.isSome_memberAt?_iff known spatial hp, exists_eq_left]
  constructor
  · rintro ⟨path, exported, descends⟩
    obtain ⟨c, hc, finer⟩ := exported.finer
    exact ⟨path, descends, by rwa [Resolves, ← placed hc]⟩
  · rintro ⟨path, descends, finer⟩
    have held := (h.isSome_memberAt?_iff known spatial hp).mpr ⟨rfl, descends⟩
    obtain ⟨c, hc⟩ := Option.isSome_iff_exists.mp (Branch.isSome_at?_of_memberAt? held)
    have inside := (h.anchor_inside known spatial hp).2
    have fine_enough : viewport.Finer c := by rwa [Viewport.Finer, placed hc]
    -- every square of the descent holds the point, so the walk is pruned nowhere on it
    have meets : ∀ ⦃front d⦄, front <+: path → w.index.root.at? front = some d →
        viewport.Meets d := by
      rintro front d ⟨back, rfl⟩ hd
      rw [Viewport.Meets, placed hd]
      exact Square.meets_of_contains (descends.of_append.contains inside) seen
    obtain ⟨front, above, exported⟩ := Branch.exists_exported hc fine_enough meets
    obtain ⟨back, rfl⟩ := above
    exact ⟨front, exported, descends.of_append⟩

section Resolution

variable {path : List Quadrant}

theorem natAbs_scale_lt (valid : range.validate = .ok ()) {scale : Int}
    (least : range.minScale ≤ scale) (greatest : scale ≤ range.maxScale) :
    scale.natAbs < 2 ^ 53 := by
  obtain ⟨low, -, high⟩ := range.bounds_of_valid valid
  have small : scale.natAbs ≤ 1000 := by omega
  exact small.trans_lt (by decide)

/-- A finer square is fine enough wherever a coarser one is. -/
theorem lt_of_ofInt_lt {m n : Int} {x : Float} (hm : m.natAbs < 2 ^ 53) (hn : n.natAbs < 2 ^ 53)
    (le : m ≤ n) (h : Float.ofInt n < x) : Float.ofInt m < x := by
  obtain rfl | less := Int.le_iff_eq_or_lt.mp le
  · exact h
  · have below := (Grid.ofInt_lt_ofInt hm hn).mpr less
    rw [Grid.lt_iff] at below h ⊢
    exact ⟨below.1, h.2.1, below.2.2.trans h.2.2⟩

/-- If any square of a descent is fine enough, then the finest ones are. -/
theorem Resolves.finest (valid : range.validate = .ok ()) (descends : Descent range p path)
    (h : Resolves range viewport path) :
    Float.ofInt range.minScale < viewport.scale - viewport.span := by
  obtain ⟨-, ordered, -⟩ := range.bounds_of_valid valid
  have least := descends.minScale_le valid
  refine lt_of_ofInt_lt (natAbs_scale_lt valid le_rfl ordered) (natAbs_scale_lt valid least ?_)
    least h
  rw [scale_along_worldSquare]
  omega

/-- The last square of the trail without rounding. -/
theorem resolves_trail (valid : range.validate = .ok ())
    (h : Float.ofInt (max range.minScale (range.maxScale - 53)) < viewport.scale - viewport.span) :
    Resolves range viewport (trail range p (range.exactDepth - 1)) := by
  obtain ⟨-, ordered, -⟩ := range.bounds_of_valid valid
  have scale : ((Tree.worldSquare range).along (trail range p (range.exactDepth - 1))).scale =
      max range.minScale (range.maxScale - 53) := by
    rw [scale_along_worldSquare, length_trail, ScaleRange.exactDepth, ScaleRange.depth]
    omega
  rwa [Resolves, scale]

end Resolution

/-- Of the registered spatial entities whose points lie in the square of a viewport, those are shown
whose descent has a square that is fine enough. With at most 54 scales these are all of them if the
finest scale is fine enough, and none otherwise. -/
theorem contains_view_iff_of_isIn (started : Started range w) (calls : List Call)
    (known : (w.run calls).get? id = some r) (spatial : r.kind.isSpatial = true)
    (hp : (w.run calls).anchor? r = some p)
    (seen : p.isIn viewport.center viewport.scale = true) :
    (((w.run calls).view viewport).contains id = true ↔
      ∃ path, Descent range p path ∧ Resolves range viewport path) ∧
    (Float.ofInt (max range.minScale (range.maxScale - 53)) < viewport.scale - viewport.span →
      ((w.run calls).view viewport).contains id = true) ∧
    (range.depth ≤ 54 → (((w.run calls).view viewport).contains id = true ↔
      Float.ofInt range.minScale < viewport.scale - viewport.span)) := by
  have reachable := started.reachable.run calls
  have valid := reachable.valid
  have shown_iff := reachable.contains_view_iff known spatial hp seen
  obtain ⟨-, ordered, -⟩ := range.bounds_of_valid valid
  have inside := reachable.anchor_inside known spatial hp
  have exact_scales : Float.ofInt (max range.minScale (range.maxScale - 53)) <
      viewport.scale - viewport.span → ((w.run calls).view viewport).contains id = true := by
    intro resolved
    have last : range.exactDepth - 1 < range.exactDepth :=
      Nat.sub_lt (exactDepth_pos valid) Nat.zero_lt_one
    exact shown_iff.mpr ⟨_, (descent_trail valid inside.1 inside.2 last).1,
      resolves_trail valid resolved⟩
  refine ⟨shown_iff, exact_scales, fun shallow => ⟨?_, ?_⟩⟩
  · intro shown
    obtain ⟨path, descends, resolved⟩ := shown_iff.mp shown
    exact resolved.finest valid descends
  · intro finest
    refine exact_scales ?_
    rwa [max_eq_left]
    rw [ScaleRange.depth] at shallow
    omega

/-- A station in a viewport of eight times its finest square. -/
theorem contains_view_iff_of_isIn_station :
    let viewport : Viewport := ⟨.origin, 5, 0⟩
    let station : EntityRecord := ⟨.station, ⟨2⟩, .point ⟨1, 1⟩⟩
    ∃ w, create .standard 7 = .ok w ∧
      Point.isIn ⟨1, 1⟩ viewport.center viewport.scale = true ∧
      ((w.run [.spawnWithId (.ofNat 1) station]).view viewport).contains (.ofNat 1) = true := by
  intro viewport station
  have created : create .standard 7 = .ok _ := rfl
  have seen : Point.isIn ⟨1, 1⟩ viewport.center viewport.scale = true := by decide +kernel
  have shown := @contains_view_iff_of_isIn _ _ viewport (.ofNat 1) station ⟨1, 1⟩
    (.created created) [.spawnWithId (.ofNat 1) station] rfl rfl rfl seen
  exact ⟨_, created, seen, (shown.2.2 (by decide)).mpr (by decide +kernel)⟩

/-- A viewport whose square is one of the finest ones shows nothing of what is in it. -/
theorem not_shown_at_finest_scale :
    let viewport : Viewport := ⟨.origin, 2, 0⟩
    let station : EntityRecord := ⟨.station, ⟨2⟩, .point ⟨1, 1⟩⟩
    ∃ w, create .standard 7 = .ok w ∧
      (w.run [.spawnWithId (.ofNat 1) station]).get? (.ofNat 1) = some station ∧
      Point.isIn ⟨1, 1⟩ viewport.center viewport.scale = true ∧
      ((w.run [.spawnWithId (.ofNat 1) station]).view viewport).contains (.ofNat 1) = false := by
  intro viewport station
  have created : create .standard 7 = .ok _ := rfl
  have reachable := (Reachable.created created).run [.spawnWithId (.ofNat 1) station]
  have seen : Point.isIn ⟨1, 1⟩ viewport.center viewport.scale = true := by decide +kernel
  have shown_iff := @Reachable.contains_view_iff _ _ viewport (.ofNat 1) station ⟨1, 1⟩ reachable
    rfl rfl rfl seen
  refine ⟨_, created, rfl, seen, ?_⟩
  rw [← Bool.not_eq_true, shown_iff]
  rintro ⟨path, descends, resolved⟩
  exact absurd (resolved.finest reachable.valid descends) (by decide +kernel)

end World

end RailAtlas
