import RailAtlas.Proofs.Index.Departures
import RailAtlas.Proofs.World.Viewport

/-!
# To which squares a view attributes edges

A view shows the edge delegates of the chunks that it exports, and a delegate stands for the edges
that lead to one other square. Targets are the points of registered rail nodes, so they lie in the
world square, and down to 52 scales below it the chunks' squares are aligned. There an edge is
attributed to the square of its target, unless rounding carries the target over to the next
square. Targets that end with the 53rd place of the world square are never carried.
-/

namespace RailAtlas

open Grid

/-- A point that has no places after the 53rd one of the world square. -/
structure ScaleRange.Resolves (range : ScaleRange) (p : Point) : Prop where
  x : ∃ m : Int, rank p.x = m * multiple 1 (range.maxScale - 53)
  y : ∃ m : Int, rank p.y = m * multiple 1 (range.maxScale - 53)

/-- The points of the world square span the squares of every place. -/
theorem Square.spans_along {range : ScaleRange} {p : Point} (valid : range.validate = .ok ())
    (finite : p.isFinite = true) (inside : (Tree.worldSquare range).contains p = true)
    (path : List Quadrant) (short : path.length ≤ 52) :
    ((Tree.worldSquare range).along path).Spans path.length p := by
  obtain ⟨least, ordered, greatest⟩ := range.bounds_of_valid valid
  have across : multiple 1 (range.maxScale - 1) =
      2 ^ path.length * multiple 1 (((Tree.worldSquare range).along path).scale - 1) := by
    rw [scale_along_worldSquare, ← multiple_add _ _ (by omega)]
    congr 1
    omega
  have origin : rank 0 = 0 := rfl
  have world := ((aligned_worldSquare valid).contains_iff finite).mp inside
  rw [Point.isFinite, Bool.and_eq_true] at finite
  change (rank 0 - multiple 1 (range.maxScale - 1) ≤ _ ∧
    _ < rank 0 + multiple 1 (range.maxScale - 1)) ∧ (rank 0 - multiple 1 (range.maxScale - 1) ≤ _ ∧
    _ < rank 0 + multiple 1 (range.maxScale - 1)) at world
  rw [origin, zero_sub, zero_add, across, Nat.cast_mul] at world
  exact ⟨⟨finite.1, world.1.1, world.1.2⟩, ⟨finite.2, world.2.1, world.2.2⟩⟩

namespace World

variable {range : ScaleRange} {w : World} {viewport : Viewport} {id : EntityId} {r : EntityRecord}
variable {t : Point} {m : Member} {chunk : Chunk}

/-- An edge leads to the point of a registered rail node, which is inside the world. -/
theorem Integrity.leadsTo_inside (sound : w.Integrity) (known : w.get? id = some r)
    (leads : w.leadsTo? r = some t) : w.containsPoint t = true := by
  obtain ⟨-, fits⟩ := sound known
  rw [leadsTo?] at leads
  cases hs : r.shape with
  | point p => simp [hs] at leads
  | placeless => simp [hs] at leads
  | edge origin target =>
    rw [hs] at fits leads
    obtain ⟨p, located, inside⟩ := sound.exists_position fits.2
    obtain rfl := Option.some.inj (located.symm.trans leads)
    exact inside

/-- A shown chunk covers the square of its place, and its members are those recorded there. -/
theorem Reachable.exists_path_of_shown (h : Reachable range w)
    (shown : chunk ∈ w.index.root.shown viewport) : ∃ path owner, path.length < range.depth ∧
      chunk.square = (Tree.worldSquare range).along path ∧
        ∀ id, w.index.root.memberAt? path owner id = chunk.get? id := by
  obtain ⟨path, c, owner, hc, -, filed⟩ := Branch.exists_of_mem_shown shown
  have sound := h.mirrored.anchored.sound
  refine ⟨path, owner, h.length_lt_depth hc, ?_, fun id => ?_⟩
  · rw [(sound.tidy hc).square filed, sound.placed hc, h.range_index]
  · rw [Branch.memberAt?_of_at? hc, Cluster.member?, filed]
    rfl

/-- The target of a member of a shown chunk lies in the world square. -/
theorem Reachable.target_inside (h : Reachable range w)
    (shown : chunk ∈ w.index.root.shown viewport) (held : chunk.get? id = some m)
    (leads : m.target = some t) :
    t.isFinite = true ∧ (Tree.worldSquare range).contains t = true := by
  obtain ⟨path, owner, -, -, members⟩ := h.exists_path_of_shown shown
  have recorded : w.mirror path owner id = some m := by
    rw [← h.mirrored.contents, ← held, ← members]
    rfl
  obtain ⟨r, p, known, -, -, -, -, rfl⟩ := h.integrity.mirror_eq_some_iff.mp recorded
  have inside := h.integrity.leadsTo_inside known leads
  rwa [containsPoint, Bool.and_eq_true, h.range_index] at inside

/-- A view has the edge delegates of each chunk that it shows, with their peers filled in. -/
theorem exists_edges_of_shown (shown : chunk ∈ w.index.root.shown viewport) : ∃ front back,
    (w.view viewport).edges = front ++ chunk.edgeDelegates.map w.index.linkPeer ++ back := by
  obtain ⟨front, back, split⟩ := List.append_of_mem shown
  have edges := (@Chunk.foldl_exportTo .empty (w.index.root.shown viewport)).2.2.1
  refine ⟨(front.flatMap Chunk.edgeDelegates).map w.index.linkPeer,
    (back.flatMap Chunk.edgeDelegates).map w.index.linkPeer, ?_⟩
  refine (congrArg (List.map w.index.linkPeer) edges).trans ?_
  simp [split, View.empty]

/-- A directed member of a chunk that a view shows is listed by at most one edge delegate of the
chunk. In a square at most 52 scales below the world square it is attributed to the square of its
target exactly if rounding does not carry the target to a border, and rounding carries no target
that ends with the 53rd place of the world square. -/
theorem attributed_iff_not_carried (started : Started range w) (calls : List Call)
    (shown : chunk ∈ (w.run calls).index.root.shown viewport) (held : chunk.get? id = some m)
    (leads : m.target = some t) :
    (∃ front back, ((w.run calls).view viewport).edges =
      front ++ chunk.edgeDelegates.map (w.run calls).index.linkPeer ++ back) ∧
    (chunk.delegatesOf id).length ≤ 1 ∧
    (range.maxScale - 52 ≤ chunk.square.scale →
      (chunk.Attributed id t ↔ ¬ chunk.square.Carries t) ∧
      (range.Resolves t → chunk.Attributed id t)) := by
  have reachable := started.reachable.run calls
  have valid := reachable.valid
  obtain ⟨finite, inside⟩ := reachable.target_inside shown held leads
  obtain ⟨path, -, bounded, placed, -⟩ := reachable.exists_path_of_shown shown
  refine ⟨exists_edges_of_shown shown, Chunk.length_delegatesOf_le held leads, fun coarse => ?_⟩
  have scale : chunk.square.scale = range.maxScale - path.length := by
    rw [placed, scale_along_worldSquare]
  have short : path.length ≤ 52 := by omega
  have spans : chunk.square.Spans path.length t := by
    rw [placed]
    exact Square.spans_along valid finite inside path short
  have aligned : chunk.square.Aligned path.length := by
    rw [placed]
    refine aligned_along valid path ?_
    rw [ScaleRange.exactDepth]
    omega
  have attributed_iff := Chunk.attributed_iff aligned spans short held leads
  refine ⟨attributed_iff, fun resolves => attributed_iff.mpr ?_⟩
  have last : range.maxScale - 53 = chunk.square.scale + path.length - 53 := by omega
  obtain ⟨⟨i, hx⟩, ⟨j, hy⟩⟩ := resolves
  rw [last] at hx hy
  rw [Square.Carries, not_or]
  exact ⟨aligned.x.not_carried spans.x short hx, aligned.y.not_carried spans.y short hy⟩

/-- An edge that leads from one finest square of a small world into the next one. -/
theorem attributed_iff_not_carried_edge :
    let nodes : List Call := [.spawnWithId (.ofNat 1) ⟨.railNode, ⟨2⟩, .point ⟨-2, 1⟩⟩,
      .spawnWithId (.ofNat 2) ⟨.railNode, ⟨2⟩, .point ⟨1, 1⟩⟩]
    let calls := nodes ++ [.spawnWithId (.ofNat 3) ⟨.railEdge, ⟨2⟩, .edge (.ofNat 1) (.ofNat 2)⟩]
    ∃ w chunk, create ⟨3, 2⟩ 7 = .ok w ∧
      chunk ∈ (w.run calls).index.root.shown ⟨.origin, 3, 0⟩ ∧
      chunk.get? (.ofNat 3) = some ⟨.railEdge, ⟨-2, 1⟩, some ⟨1, 1⟩⟩ ∧
      chunk.square.contains ⟨1, 1⟩ = false ∧ chunk.Attributed (.ofNat 3) ⟨1, 1⟩ := by
  intro nodes calls
  obtain ⟨w, created, found⟩ : ∃ w, create ⟨3, 2⟩ 7 = .ok w ∧
      ((w.run calls).index.root.shown ⟨.origin, 3, 0⟩).any (fun chunk =>
        decide (chunk.get? (.ofNat 3) = some ⟨.railEdge, ⟨-2, 1⟩, some ⟨1, 1⟩⟩ ∧
          chunk.square = ⟨⟨-2, 2⟩, 2⟩)) = true := ⟨_, rfl, by decide +kernel⟩
  obtain ⟨chunk, shown, same⟩ := List.any_eq_true.mp found
  obtain ⟨held, square⟩ := of_decide_eq_true same
  have attributed := attributed_iff_not_carried (.created created) calls shown held rfl
  have resolves : ScaleRange.Resolves ⟨3, 2⟩ ⟨1, 1⟩ :=
    ⟨⟨2 ^ 50, by decide +kernel⟩, ⟨2 ^ 50, by decide +kernel⟩⟩
  refine ⟨_, chunk, created, shown, held, ?_, (attributed.2.2 (by rw [square]; decide)).2 resolves⟩
  rw [square]
  decide +kernel

/-- An edge that ends short of the border of its own square is listed as one into the next. -/
theorem carried_out_of_own_square :
    let target : Point := ⟨-powerOfTwo (-60), 1⟩
    let nodes : List Call := [.spawnWithId (.ofNat 1) ⟨.railNode, ⟨2⟩, .point ⟨-2, 1⟩⟩,
      .spawnWithId (.ofNat 2) ⟨.railNode, ⟨2⟩, .point target⟩]
    let calls := nodes ++ [.spawnWithId (.ofNat 3) ⟨.railEdge, ⟨2⟩, .edge (.ofNat 1) (.ofNat 2)⟩]
    ∃ w chunk, create ⟨3, 2⟩ 7 = .ok w ∧
      chunk ∈ (w.run calls).index.root.shown ⟨.origin, 3, 0⟩ ∧
      chunk.get? (.ofNat 3) = some ⟨.railEdge, ⟨-2, 1⟩, some target⟩ ∧
      chunk.square.contains target = true ∧
      (chunk.delegatesOf (.ofNat 3)).map (·.offset) = [⟨1, 0⟩] ∧
      ¬ chunk.Attributed (.ofNat 3) target := by
  intro target nodes calls
  obtain ⟨w, created, found⟩ : ∃ w, create ⟨3, 2⟩ 7 = .ok w ∧
      ((w.run calls).index.root.shown ⟨.origin, 3, 0⟩).any (fun chunk =>
        decide (chunk.get? (.ofNat 3) = some ⟨.railEdge, ⟨-2, 1⟩, some target⟩ ∧
          chunk.square.contains target = true ∧
          (chunk.delegatesOf (.ofNat 3)).map (·.offset) = [⟨1, 0⟩])) = true :=
    ⟨_, rfl, by decide +kernel⟩
  obtain ⟨chunk, shown, same⟩ := List.any_eq_true.mp found
  obtain ⟨held, inside, listed⟩ := of_decide_eq_true same
  refine ⟨_, chunk, created, shown, held, inside, listed, fun attributed => ?_⟩
  rw [attributed.left_out.mpr inside] at listed
  cases listed

end World

end RailAtlas
