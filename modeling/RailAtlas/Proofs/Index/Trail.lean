import RailAtlas.Proofs.Geometry.Tiling
import RailAtlas.Proofs.Index.Preorder

/-!
# The trail of a point

From the world square a point of it leads into one quadrant after another. As long as the squares
are aligned, which they are for 53 scales below the world square, this `trail` is the whole descent
of the point: every scale has one square of it, and the square holds the point.

An entity that is indexed anew is therefore held by one cluster on each of these scales. Below
them centers and borders are rounded, and how often an entity is held there is left open: it may be
twice or not at all.
-/

namespace RailAtlas

/-- The path of the quadrants on a point's side of each center. -/
def trail (range : ScaleRange) (p : Point) : Nat → List Quadrant
  | 0 => []
  | n + 1 => trail range p n ++ [((Tree.worldSquare range).along (trail range p n)).toward p]

/-- How many scales below the world square are free of rounding, the world square's included. -/
def ScaleRange.exactDepth (r : ScaleRange) : Nat :=
  min r.depth 54

namespace Square

variable {s : Square} {p : Point}

/-- The square reached from another one on a point's side of each center. -/
def approach (p : Point) : Nat → Square → Square
  | 0, s => s
  | n + 1, s => approach p n (s.quadrant (s.toward p))

theorem approach_succ (n : Nat) :
    s.approach p (n + 1) = (s.approach p n).quadrant ((s.approach p n).toward p) := by
  induction n generalizing s with
  | zero => rfl
  | succ n ih => exact ih

end Square

section Descent

variable {range : ScaleRange} {p : Point} {path : List Quadrant}

@[simp] theorem length_trail (n : Nat) : (trail range p n).length = n := by
  induction n with
  | zero => rfl
  | succ n ih => simp [trail, ih]

theorem along_trail (n : Nat) :
    (Tree.worldSquare range).along (trail range p n) = (Tree.worldSquare range).approach p n := by
  induction n with
  | zero => rfl
  | succ n ih => rw [trail, Square.along_append, ih, Square.approach_succ, Square.along_cons,
      Square.along_nil]

theorem ScaleRange.bounds_of_valid (valid : range.validate = .ok ()) :
    -1000 ≤ range.minScale ∧ range.minScale ≤ range.maxScale ∧ range.maxScale ≤ 1000 := by
  have greatest : allows range.maxScale = true := by
    by_contra outside
    simp [validate, Bool.not_eq_true _ ▸ outside] at valid
  have least : allows range.minScale = true := by
    by_contra outside
    simp [validate, greatest, Bool.not_eq_true _ ▸ outside] at valid
  have ordered : ¬ range.maxScale < range.minScale := by
    intro inverted
    simp [validate, greatest, least, inverted] at valid
  rw [allows, Bool.and_eq_true, decide_eq_true_eq, decide_eq_true_eq, limit] at greatest least
  omega

theorem exactDepth_pos (valid : range.validate = .ok ()) : 0 < range.exactDepth := by
  obtain ⟨-, ordered, -⟩ := range.bounds_of_valid valid
  rw [ScaleRange.exactDepth, ScaleRange.depth]
  omega

theorem aligned_worldSquare (valid : range.validate = .ok ()) :
    (Tree.worldSquare range).Aligned 0 := by
  obtain ⟨least, ordered, greatest⟩ := range.bounds_of_valid valid
  have origin : Grid.rank 0 = 0 := rfl
  have zero : Aligned 0 range.maxScale (0 : Float) :=
    ⟨by decide, ⟨0, by rw [origin, zero_mul], by decide⟩, by decide, by omega,
      by push_cast; omega⟩
  exact ⟨zero, zero⟩

theorem scale_along_worldSquare (path : List Quadrant) :
    ((Tree.worldSquare range).along path).scale = range.maxScale - path.length :=
  Square.scale_along path

theorem splits_along_iff (path : List Quadrant) :
    range.minScale < ((Tree.worldSquare range).along path).scale ↔
      path.length + 1 < range.depth := by
  rw [scale_along_worldSquare, ScaleRange.depth]
  omega

/-- The squares of the first 54 scales are aligned. -/
theorem aligned_along (valid : range.validate = .ok ()) (path : List Quadrant)
    (h : path.length < range.exactDepth) :
    ((Tree.worldSquare range).along path).Aligned path.length := by
  induction path using List.reverseRecOn with
  | nil => exact aligned_worldSquare valid
  | append_singleton path q ih =>
    obtain ⟨least, -⟩ := range.bounds_of_valid valid
    rw [List.length_append, List.length_singleton, ScaleRange.exactDepth] at h
    have splits : range.minScale < ((Tree.worldSquare range).along path).scale :=
      (splits_along_iff path).mpr (by omega)
    rw [List.length_append, List.length_singleton, Square.along_append]
    exact (ih (by rw [ScaleRange.exactDepth]; omega)).quadrant (by omega) (by omega) q

/-- Down to the precision of doubles the descent of a point of the world square is its trail. -/
theorem descent_iff_trail (valid : range.validate = .ok ()) (finite : p.isFinite = true)
    (inside : (Tree.worldSquare range).contains p = true) (short : path.length < range.exactDepth) :
    (Descent range p path ↔ path = trail range p path.length) ∧
      ((Tree.worldSquare range).along (trail range p path.length)).contains p = true := by
  induction path using List.reverseRecOn with
  | nil => exact ⟨by simp [Descent.root, trail], inside⟩
  | append_singleton path q ih =>
    rw [List.length_append, List.length_singleton] at short ⊢
    have above : path.length < range.exactDepth := by omega
    obtain ⟨descends, holds⟩ := ih above
    have depth : path.length + 1 < range.depth ∧ path.length < 53 := by
      rw [ScaleRange.exactDepth] at short
      omega
    have splits : range.minScale < ((Tree.worldSquare range).along path).scale :=
      (splits_along_iff path).mpr depth.1
    obtain ⟨least, -⟩ := range.bounds_of_valid valid
    have aligned : ((Tree.worldSquare range).along (trail range p path.length)).Aligned
        path.length := by
      simpa using aligned_along valid (trail range p path.length) (by simpa using above)
    have same_scale : ((Tree.worldSquare range).along (trail range p path.length)).scale =
        ((Tree.worldSquare range).along path).scale := by
      rw [scale_along_worldSquare, scale_along_worldSquare, length_trail]
    have enters := aligned.contains_quadrant_iff depth.2 (by omega) finite holds
    rw [Descent.append_singleton_iff, descends, trail]
    simp only [Square.along_append, Square.along_cons, Square.along_nil]
    refine ⟨?_, (enters _).mpr rfl⟩
    constructor
    · rintro ⟨same, -, entered⟩
      rw [← same] at enters ⊢
      rw [(enters q).mp entered]
    · intro same
      obtain ⟨front, last⟩ := List.append_inj' same rfl
      obtain rfl : q = _ := List.singleton_inj.mp last
      rw [← front] at holds enters ⊢
      exact ⟨rfl, splits, (enters _).mpr rfl⟩

theorem descent_trail (valid : range.validate = .ok ()) (finite : p.isFinite = true)
    (inside : (Tree.worldSquare range).contains p = true) {n : Nat} (short : n < range.exactDepth) :
    Descent range p (trail range p n) ∧
      ((Tree.worldSquare range).along (trail range p n)).contains p = true := by
  have length : (trail range p n).length < range.exactDepth := by rwa [length_trail]
  obtain ⟨descends, holds⟩ := descent_iff_trail valid finite inside length
  rw [length_trail] at descends holds
  exact ⟨descends.mpr rfl, holds⟩

/-- A descent passes through every square above its end. -/
theorem Descent.of_append {front back : List Quadrant} (h : Descent range p (front ++ back)) :
    Descent range p front := by
  induction back using List.reverseRecOn with
  | nil => simpa using h
  | append_singleton back q ih =>
    rw [← List.append_assoc, append_singleton_iff] at h
    exact ih h.1

end Descent

namespace Branch

variable {b : Branch} {c : Cluster} {owner : OwnerId} {entity : EntityId}

/-! ### Holders -/

theorem holders_eq_nil_iff :
    b.holders owner entity = [] ↔ ∀ path, b.memberAt? path owner entity = none := by
  rw [holders_eq_map_filter, List.map_eq_nil_iff, List.filter_eq_nil_iff]
  constructor
  · intro free path
    cases hc : b.at? path with
    | none => rw [memberAt?, hc, Option.bind_none]
    | some c =>
      have held := free c (mem_clusters_iff.mpr ⟨path, hc⟩)
      rwa [Cluster.holds_eq_isSome_member?, Option.not_isSome_iff_eq_none,
        ← memberAt?_of_at? hc] at held
  · intro free c listed
    obtain ⟨path, hc⟩ := mem_clusters_iff.mp listed
    rw [Cluster.holds_eq_isSome_member?, Option.not_isSome_iff_eq_none, ← memberAt?_of_at? hc]
    exact free path

theorem holders_eq_cons (hc : b.top? = some c) (held : c.holds owner entity = true) :
    b.holders owner entity =
      c.id :: Quadrant.all.flatMap fun q => (b.child q).holders owner entity := by
  rw [holders_eq hc, if_pos held, List.singleton_append]

theorem flatMap_quadrants_of_single {α : Type} {f : Quadrant → List α} {q : Quadrant}
    (others : ∀ r, r ≠ q → f r = []) : Quadrant.all.flatMap f = f q := by
  have hnw := others .northWest
  have hne := others .northEast
  have hsw := others .southWest
  have hse := others .southEast
  cases q <;> simp_all [Quadrant.all]

/-! ### A branch that holds an entity on the descent of a point -/

/-- The labels of the clusters on the first squares of a trail. -/
def lineage (b : Branch) (range : ScaleRange) (p : Point) (n : Nat) : List ClusterId :=
  (List.range n).filterMap fun k => (b.at? (trail range p k)).map (·.id)

/-- A branch over the world square records an entity exactly on the descent of a point in this
square. -/
structure OnDescent (range : ScaleRange) (p : Point) (owner : OwnerId) (entity : EntityId)
    (b : Branch) : Prop where
  valid : range.validate = .ok ()
  finite : p.isFinite = true
  inside : (Tree.worldSquare range).contains p = true
  held : ∀ path, (b.memberAt? path owner entity).isSome ↔ Descent range p path

namespace OnDescent

variable {range : ScaleRange} {p : Point} {n : Nat} {path : List Quadrant}

theorem descent_trail (h : OnDescent range p owner entity b) (short : n < range.exactDepth) :
    Descent range p (trail range p n) :=
  (RailAtlas.descent_trail h.valid h.finite h.inside short).1

/-- The cluster at a place of the descent holds the entity. -/
theorem exists_holder (h : OnDescent range p owner entity b) (descends : Descent range p path) :
    ∃ c, b.at? path = some c ∧ c.holds owner entity = true := by
  have found := (h.held path).mpr descends
  obtain ⟨c, hc⟩ := Option.isSome_iff_exists.mp (isSome_at?_of_memberAt? found)
  rw [memberAt?_of_at? hc, ← Cluster.holds_eq_isSome_member?] at found
  exact ⟨c, hc, found⟩

/-- No quadrant that the point does not enter holds the entity. -/
theorem holders_under_eq_nil (h : OnDescent range p owner entity b)
    (off : ¬ Descent range p path) : (b.under path).holders owner entity = [] := by
  rw [holders_eq_nil_iff]
  intro rest
  have below : (b.under path).memberAt? rest owner entity =
      b.memberAt? (path ++ rest) owner entity := by
    rw [memberAt?, memberAt?, at?_append]
  rw [below, Option.eq_none_iff_forall_ne_some]
  intro m hm
  exact off ((h.held _).mp (Option.isSome_of_eq_some hm)).of_append

/-- The holders are those on the trail, then those below its end. -/
theorem holders_eq_lineage (h : OnDescent range p owner entity b) (short : n < range.exactDepth) :
    b.holders owner entity =
      b.lineage range p n ++ (b.under (trail range p n)).holders owner entity := by
  induction n with
  | zero => rfl
  | succ n ih =>
    obtain ⟨c, hc, holds⟩ := h.exists_holder (h.descent_trail (n := n) (by omega))
    have entered : (b.under (trail range p n)).holders owner entity =
        c.id :: (b.under (trail range p (n + 1))).holders owner entity := by
      rw [holders_eq_cons hc holds, trail, under_append]
      refine congrArg _ (flatMap_quadrants_of_single fun r other => ?_)
      have off : ¬ Descent range p (trail range p n ++ [r]) := by
        rw [(descent_iff_trail h.valid h.finite h.inside (by simpa using short)).1]
        simpa [trail] using other
      simpa [under_append] using h.holders_under_eq_nil off
    rw [ih (by omega), entered, lineage, lineage, List.range_succ, List.filterMap_append]
    simp [hc]

theorem length_lineage (h : OnDescent range p owner entity b) (short : n ≤ range.exactDepth) :
    (b.lineage range p n).length = n := by
  induction n with
  | zero => rfl
  | succ n ih =>
    obtain ⟨c, hc, -⟩ := h.exists_holder (h.descent_trail short)
    have shorter := ih (by omega)
    rw [lineage] at shorter ⊢
    rw [List.range_succ, List.filterMap_append, List.length_append, shorter]
    simp [hc]

/-- The holders begin with the whole trail, and end with it if no scale lies below. -/
theorem exists_holders_deeper (h : OnDescent range p owner entity b) :
    ∃ deeper, b.holders owner entity = b.lineage range p range.exactDepth ++ deeper ∧
      (range.depth ≤ 54 → deeper = []) := by
  obtain ⟨n, hn⟩ := Nat.exists_eq_add_of_lt (exactDepth_pos h.valid)
  rw [zero_add] at hn
  have last : n < range.exactDepth := by omega
  obtain ⟨c, hc, holds⟩ := h.exists_holder (h.descent_trail last)
  refine ⟨Quadrant.all.flatMap fun q =>
    ((b.under (trail range p n)).child q).holders owner entity, ?_, ?_⟩
  · rw [h.holders_eq_lineage last, holders_eq_cons hc holds, hn, lineage, lineage, List.range_succ,
      List.filterMap_append]
    simp [hc]
  · intro shallow
    rw [List.flatMap_eq_nil_iff]
    intro q _
    have off : ¬ Descent range p (trail range p n ++ [q]) := by
      rw [Descent.append_singleton_iff, splits_along_iff, length_trail]
      rw [ScaleRange.exactDepth] at hn
      omega
    simpa [under_append] using h.holders_under_eq_nil off

end OnDescent

/-! ### Finding a chunk by its scale -/

/-- A chunk is found at a scale exactly if some cluster of that scale holds the entity. -/
theorem Sound.isSome_findChunk?_iff {levels : Nat} {square : Square} (h : Sound levels square b)
    (scale : Int) : (b.findChunk? owner entity scale).isSome ↔
      ∃ path, (square.along path).scale = scale ∧ (b.memberAt? path owner entity).isSome := by
  rw [h.findChunk?_eq_bind_find?]
  constructor
  · intro found
    obtain ⟨c, hc⟩ := Option.isSome_iff_exists.mp (Option.isSome_of_isSome_bind found)
    obtain ⟨same, held⟩ := Cluster.holdsOn_eq_true_iff.mp (List.find?_some hc)
    obtain ⟨path, hpath⟩ := mem_clusters_iff.mp (List.mem_of_find?_eq_some hc)
    refine ⟨path, by rw [← h.placed hpath, same], ?_⟩
    rwa [memberAt?_of_at? hpath, ← Cluster.holds_eq_isSome_member?]
  · rintro ⟨path, same, held⟩
    obtain ⟨c, hc⟩ := Option.isSome_iff_exists.mp (isSome_at?_of_memberAt? held)
    rw [memberAt?_of_at? hc, ← Cluster.holds_eq_isSome_member?] at held
    have fits : c.holdsOn scale owner entity = true :=
      Cluster.holdsOn_eq_true_iff.mpr ⟨by rw [h.placed hc, same], held⟩
    cases found : b.clusters.find? (·.holdsOn scale owner entity) with
    | none => exact absurd fits (List.find?_eq_none.mp found c (mem_clusters_iff.mpr ⟨path, hc⟩))
    | some d =>
      exact Cluster.isSome_bucket?_of_holds
        (Cluster.holdsOn_eq_true_iff.mp (List.find?_some found)).2

namespace OnDescent

variable {range : ScaleRange} {p : Point} {n : Nat} {levels : Nat}

/-- On every square of the trail there is a cluster, which holds the entity and its point. -/
theorem exists_on_trail (h : OnDescent range p owner entity b)
    (sound : Sound levels (Tree.worldSquare range) b) (short : n < range.exactDepth) :
    ∃ c, b.at? (trail range p n) = some c ∧ c.square.scale = range.maxScale - n ∧
      c.square.contains p = true ∧ c.holds owner entity = true := by
  obtain ⟨descends, contains⟩ := RailAtlas.descent_trail h.valid h.finite h.inside short
  obtain ⟨c, hc, holds⟩ := h.exists_holder descends
  refine ⟨c, hc, ?_, ?_, holds⟩
  · rw [sound.placed hc, scale_along_worldSquare, length_trail]
  · rw [sound.placed hc]
    exact contains

/-- Down to the precision of doubles a chunk is found at the scales of the range. -/
theorem isSome_findChunk?_iff (h : OnDescent range p owner entity b)
    (sound : Sound levels (Tree.worldSquare range) b) {scale : Int}
    (coarse : range.maxScale - 53 ≤ scale) : (b.findChunk? owner entity scale).isSome ↔
      range.minScale ≤ scale ∧ scale ≤ range.maxScale := by
  have depth_iff (k : Nat) : k < range.exactDepth ↔
      range.minScale ≤ range.maxScale - k ∧ range.maxScale - 53 ≤ range.maxScale - k := by
    rw [ScaleRange.exactDepth, ScaleRange.depth]
    omega
  rw [sound.isSome_findChunk?_iff]
  constructor
  · rintro ⟨path, hs, hm⟩
    have descends := (h.held path).mp hm
    rw [scale_along_worldSquare] at hs
    refine ⟨?_, by omega⟩
    have bounded := Branch.length_le_of_visits (Descent.iff_visits.mp descends)
    obtain ⟨-, ordered, -⟩ := range.bounds_of_valid h.valid
    omega
  · rintro ⟨least, greatest⟩
    obtain ⟨n, hn⟩ := Int.eq_ofNat_of_zero_le (Int.sub_nonneg_of_le greatest)
    have short : n < range.exactDepth := (depth_iff n).mpr (by omega)
    refine ⟨trail range p n, ?_, (h.held _).mpr (h.descent_trail short)⟩
    rw [scale_along_worldSquare, length_trail]
    omega

/-- Where no quadrant of the last square without rounding holds the point, the entity is held
nowhere on the next scale. -/
theorem findChunk?_eq_none_of_lost (h : OnDescent range p owner entity b)
    (sound : Sound levels (Tree.worldSquare range) b) (deep : 54 < range.depth)
    (lost : ∀ q, (((Tree.worldSquare range).approach p 53).quadrant q).contains p = false) :
    b.findChunk? owner entity (range.maxScale - 54) = none := by
  rw [← Option.not_isSome_iff_eq_none, sound.isSome_findChunk?_iff]
  rintro ⟨path, hs, hm⟩
  have descends := (h.held path).mp hm
  rw [scale_along_worldSquare] at hs
  obtain rfl | ⟨front, q, rfl⟩ := List.eq_nil_or_concat' path
  · rw [List.length_nil] at hs
    omega
  · rw [List.length_append, List.length_singleton] at hs
    have length : front.length = 53 := by omega
    obtain ⟨above, -, enters⟩ := Descent.append_singleton_iff.mp descends
    have short : front.length < range.exactDepth := by
      rw [ScaleRange.exactDepth]
      omega
    rw [(descent_iff_trail h.valid h.finite h.inside short).1, length] at above
    rw [above, Square.along_append, along_trail, Square.along_cons, Square.along_nil,
      lost q] at enters
    cases enters

end OnDescent

end Branch

namespace Tree

variable {range : ScaleRange} {t : Tree} {p : Placement} {position : Point}

/-- An entity that was held nowhere is held on the descent of its point once it is indexed. -/
theorem Anchored.onDescent_add (h : t.Anchored) (hrange : t.range = range)
    (valid : range.validate = .ok ()) (spatial : p.kind.isSpatial = true)
    (placed : p.point = some position) (finite : position.isFinite = true)
    (inside : (worldSquare range).contains position = true)
    (new : t.holders p.owner p.id = []) :
    (t.add p).value.root.OnDescent range position p.owner p.id ∧
      (t.add p).value.root.Sound (range.maxScale - range.minScale).toNat (worldSquare range) := by
  subst hrange
  have hp : p.position? = some position := by simp [Placement.position?, placed, finite]
  refine ⟨⟨valid, finite, inside, fun path => ?_⟩, ?_⟩
  · have absent : t.contents path p.owner p.id = none := Branch.holders_eq_nil_iff.mp new path
    change ((t.add p).value.contents path p.owner p.id).isSome ↔ _
    rw [h.contents_add, FlatIndex.add_of_position spatial hp, absent]
    simp
  · have sound := (h.add p).sound
    rwa [range_add] at sound

/-- An entity that is indexed anew is held by one cluster on every scale down to the precision of
doubles: the cluster of the square on its trail, which holds its point. If no scale lies below,
these are all its holders. On these scales a chunk of it is found exactly if they are in the
range. -/
theorem held_along_trail {fresh : Tree} (valid : range.validate = .ok ())
    (hfresh : create range = .ok fresh) (ops : List RootOperation)
    (spatial : p.kind.isSpatial = true) (placed : p.point = some position)
    (finite : position.isFinite = true) (inside : (worldSquare range).contains position = true)
    (new : (ops.foldl perform fresh).holders p.owner p.id = []) :
    let t := ((ops.foldl perform fresh).add p).value
    (∀ n < range.exactDepth, ∃ c, t.root.at? (trail range position n) = some c ∧
      c.square.scale = range.maxScale - n ∧ c.square.contains position = true ∧
      c.holds p.owner p.id = true) ∧
    (t.root.lineage range position range.exactDepth).length = range.exactDepth ∧
    (∃ deeper, t.holders p.owner p.id = t.root.lineage range position range.exactDepth ++ deeper ∧
      (range.depth ≤ 54 → deeper = [])) ∧
    (∀ scale, range.maxScale - 53 ≤ scale → ((t.findChunk? p.owner p.id scale).isSome ↔
      range.minScale ≤ scale ∧ scale ≤ range.maxScale)) := by
  intro t
  obtain ⟨anchored, hrange, -⟩ := run_refines hfresh ops
  obtain ⟨held, sound⟩ :=
    anchored.onDescent_add hrange valid spatial placed finite inside new
  refine ⟨fun n short => ?_, ?_, ?_, fun scale coarse => ?_⟩
  · exact held.exists_on_trail sound short
  · exact held.length_lineage le_rfl
  · exact held.exists_holders_deeper
  · exact held.isSome_findChunk?_iff sound coarse

/-- A residence south east of the center of a world of two scales is held on both. -/
theorem held_along_trail_residence :
    let p : Placement := ⟨.ofNat 1, ⟨2⟩, .residence, some ⟨1, 1⟩, none⟩
    ∃ fresh, create ⟨3, 2⟩ = .ok fresh ∧ fresh.holders p.owner p.id = [] ∧
      (((fresh.add p).value.findChunk? p.owner p.id 2).isSome ↔ (2 : Int) ≤ 2 ∧ (2 : Int) ≤ 3) := by
  intro p
  have valid : ScaleRange.validate ⟨3, 2⟩ = .ok () := by decide
  obtain ⟨fresh, hfresh⟩ := exists_create valid
  have new : fresh.holders p.owner p.id = [] := by
    rw [holders, (create_eq hfresh).2.1]
    decide
  have held := held_along_trail (p := p) valid hfresh [] rfl rfl (by decide) (by decide) new
  exact ⟨fresh, hfresh, new, held.2.2.2 2 (by decide)⟩

/-- One scale more than doubles can resolve: the borders between the quadrants of the 54th square on
this trail are rounded away from the point, and no cluster of the last scale holds it. -/
theorem not_held_on_last_scale :
    let range : ScaleRange := ⟨0, -54⟩
    let position : Point := ⟨Float.ofBits 0x3fd3333333333333, Float.ofBits 0x3fd3333333333333⟩
    let p : Placement := ⟨.ofNat 1, ⟨2⟩, .railNode, some position, none⟩
    range.validate = .ok () ∧ position.isFinite = true ∧
      (worldSquare range).contains position = true ∧
      ∃ fresh, create range = .ok fresh ∧ fresh.holders p.owner p.id = [] ∧
        (fresh.add p).value.findChunk? p.owner p.id range.minScale = none := by
  intro range position p
  have valid : range.validate = .ok () := by decide
  have finite : position.isFinite = true := by decide
  have inside : (worldSquare range).contains position = true := by decide
  have lost : ∀ q, (((worldSquare range).approach position 53).quadrant q).contains position =
      false := by
    rw [Quadrant.forall_iff]
    decide +kernel
  obtain ⟨fresh, hfresh⟩ := exists_create valid
  have new : fresh.holders p.owner p.id = [] := by
    rw [holders, (create_eq hfresh).2.1]
    decide
  obtain ⟨held, sound⟩ := (anchored_create hfresh).onDescent_add (create_eq hfresh).1 valid
    (p := p) rfl rfl finite inside new
  refine ⟨valid, finite, inside, fresh, hfresh, new, ?_⟩
  exact held.findChunk?_eq_none_of_lost sound (by decide) lost

end Tree

end RailAtlas
