import RailAtlas.Index.Tree
import RailAtlas.Proofs.Index.Path

/-!
# The descent of a point

`Descent range p` is the least set of squares that has the world square and, with every square
that may split, each of its quadrants that holds `p`. Squares are named by their paths.

Indexing an entity records it in exactly these squares and creates the clusters that are missing
there; every other cluster stays as it is. This is stated for a branch over any square, so that
the induction on the levels goes through, and `Sound` is all that it needs.
-/

namespace RailAtlas

/-- The squares that are visited when an entity at `p` is indexed. -/
inductive Descent (range : ScaleRange) (p : Point) : List Quadrant → Prop
  | root : Descent range p []
  | quadrant {path : List Quadrant} {q : Quadrant} : Descent range p path →
      range.minScale < ((Tree.worldSquare range).along path).scale →
      ((Tree.worldSquare range).along (path ++ [q])).contains p = true →
      Descent range p (path ++ [q])

namespace Branch

/-- Whether a path of at most `levels` steps enters only quadrants that hold a point. -/
def visits (p : Point) : (levels : Nat) → (square : Square) → List Quadrant → Bool
  | _, _, [] => true
  | 0, _, _ :: _ => false
  | levels + 1, square, q :: path =>
    (square.quadrant q).contains p && visits p levels (square.quadrant q) path

variable {p : Point} {levels : Nat} {square : Square} {path : List Quadrant} {q : Quadrant}

@[simp] theorem visits_nil : visits p levels square [] = true := by
  cases levels <;> rfl

theorem visits_append_singleton : visits p levels square (path ++ [q]) =
    (visits p levels square path && decide (path.length < levels) &&
      (square.along (path ++ [q])).contains p) := by
  induction path generalizing levels square with
  | nil =>
    cases levels with
    | zero => simp [visits]
    | succ levels => simp [visits]
  | cons r path ih =>
    cases levels with
    | zero => simp [visits]
    | succ levels => simp [visits, ih, Bool.and_assoc]

theorem length_le_of_visits (h : visits p levels square path = true) : path.length ≤ levels := by
  induction path generalizing levels square with
  | nil => simp
  | cons q path ih =>
    cases levels with
    | zero => simp [visits] at h
    | succ levels =>
      simp only [visits, Bool.and_eq_true] at h
      have := ih h.2
      simpa using this

end Branch

namespace Descent

variable {range : ScaleRange} {p : Point} {path : List Quadrant} {q : Quadrant}

/-- Every square of a descent holds the point, if the world square does. -/
theorem contains (h : Descent range p path)
    (inside : (Tree.worldSquare range).contains p = true) :
    ((Tree.worldSquare range).along path).contains p = true := by
  cases h with
  | root => exact inside
  | quadrant _ _ holds => exact holds

/-- The last step of a descent. -/
theorem append_singleton_iff : Descent range p (path ++ [q]) ↔ Descent range p path ∧
    range.minScale < ((Tree.worldSquare range).along path).scale ∧
      ((Tree.worldSquare range).along (path ++ [q])).contains p = true := by
  constructor
  · intro h
    generalize hfull : path ++ [q] = full at h
    cases h with
    | root => simp at hfull
    | @quadrant front r above splits holds =>
      obtain ⟨rfl, hq⟩ := List.append_inj' hfull rfl
      obtain rfl : q = r := by simpa using hq
      exact ⟨above, splits, hfull ▸ holds⟩
  · rintro ⟨above, splits, holds⟩
    exact .quadrant above splits holds

/-- The descent set as the walk from the world square computes it. -/
theorem iff_visits : Descent range p path ↔
    Branch.visits p (range.maxScale - range.minScale).toNat (Tree.worldSquare range) path =
      true := by
  induction path using List.reverseRecOn with
  | nil => simp [Descent.root]
  | append_singleton path q ih =>
    have splits_iff : range.minScale < ((Tree.worldSquare range).along path).scale ↔
        path.length < (range.maxScale - range.minScale).toNat := by
      rw [Square.scale_along]
      simp only [Tree.worldSquare]
      omega
    rw [append_singleton_iff, ih, splits_iff, Branch.visits_append_singleton]
    simp [and_assoc]

instance : Decidable (Descent range p path) :=
  decidable_of_iff _ iff_visits.symm

end Descent

namespace Branch

variable {owner other : OwnerId} {entity someone : EntityId} {m : Member}
variable {levels : Nat} {square : Square} {b : Branch} {labels : Labels}
variable {path : List Quadrant} {q : Quadrant} {c : Cluster}

/-! ### What growing does to a place -/

/-- Growing visits the top of a branch, which it creates if need be, and records the member. -/
theorem top?_grow : ∃ id drawn, (grow owner entity m levels square b labels).branch.top? =
    some ((b.top?.getD (.empty id square)).record owner entity m drawn).1 := by
  cases b with
  | absent =>
    refine ⟨labels.takeCluster.1, labels.takeCluster.2, ?_⟩
    cases levels <;> rfl
  | node c nw ne sw se =>
    refine ⟨labels.takeCluster.1, labels, ?_⟩
    cases levels <;> rfl

theorem child_grow_zero :
    (grow owner entity m 0 square b labels).branch.child q = b.child q := by
  cases b <;> cases q <;> rfl

theorem Sound.visit_square (h : Sound levels square b) (labels : Labels) :
    (b.visit square labels).cluster.square = square := by
  cases b with
  | absent => rfl
  | node c nw ne sw se => exact h.top_square rfl

/-- Growing goes on in the quadrants that hold the member's point. -/
theorem Sound.child_grow (h : Sound (levels + 1) square b) (owner : OwnerId) (entity : EntityId)
    (m : Member) (labels : Labels) (q : Quadrant) :
    ∃ drawn, (grow owner entity m (levels + 1) square b labels).branch.child q =
      if (square.quadrant q).contains m.point then
        (grow owner entity m levels (square.quadrant q) (b.child q) drawn).branch
      else b.child q := by
  have enters : ∀ above r (b' : Branch) drawn, above = square →
      (if (above.quadrant r).contains m.point then
        grow owner entity m levels (above.quadrant r) b' drawn
      else b'.unchanged drawn).branch =
      if (square.quadrant r).contains m.point then
        (grow owner entity m levels (square.quadrant r) b' drawn).branch
      else b' := by
    rintro above r b' drawn rfl
    split <;> rfl
  have quadrants : b.child .northWest = (b.visit square labels).northWest ∧
      b.child .northEast = (b.visit square labels).northEast ∧
      b.child .southWest = (b.visit square labels).southWest ∧
      b.child .southEast = (b.visit square labels).southEast := by
    cases b <;> exact ⟨rfl, rfl, rfl, rfl⟩
  obtain ⟨hnw, hne, hsw, hse⟩ := quadrants
  have hsquare := h.visit_square labels
  rw [grow]
  cases q with
  | northWest => exact ⟨_, by rw [hnw]; exact enters _ _ _ _ hsquare⟩
  | northEast => exact ⟨_, by rw [hne]; exact enters _ _ _ _ hsquare⟩
  | southWest => exact ⟨_, by rw [hsw]; exact enters _ _ _ _ hsquare⟩
  | southEast => exact ⟨_, by rw [hse]; exact enters _ _ _ _ hsquare⟩

/-- At a place that is visited the cluster that was there, or else a new one, has the member. -/
theorem Sound.at?_grow_of_visits (h : Sound levels square b)
    (hv : visits m.point levels square path = true) :
    ∃ id drawn, (grow owner entity m levels square b labels).branch.at? path =
      some (((b.at? path).getD (.empty id (square.along path))).record owner entity m drawn).1 := by
  induction path generalizing levels square b labels with
  | nil => exact top?_grow
  | cons q path ih =>
    cases levels with
    | zero => simp [visits] at hv
    | succ levels =>
      simp only [visits, Bool.and_eq_true] at hv
      obtain ⟨drawn, hchild⟩ := h.child_grow owner entity m labels q
      rw [at?_cons, hchild, if_pos hv.1, at?_cons, Square.along_cons]
      exact ih (h.child q) hv.2

/-- A place that is not visited stays as it is. -/
theorem Sound.at?_grow_of_not_visits (h : Sound levels square b)
    (hv : visits m.point levels square path = false) :
    (grow owner entity m levels square b labels).branch.at? path = b.at? path := by
  induction path generalizing levels square b labels with
  | nil => simp at hv
  | cons q path ih =>
    cases levels with
    | zero => rw [at?_cons, child_grow_zero, at?_cons]
    | succ levels =>
      obtain ⟨drawn, hchild⟩ := h.child_grow owner entity m labels q
      rw [at?_cons, hchild, at?_cons]
      split
      · next holds =>
        apply ih (h.child q)
        simpa [visits, holds] using hv
      · rfl

/-! ### What growing does to a branch -/

theorem Sound.isSome_at?_grow_iff (h : Sound levels square b) :
    ((grow owner entity m levels square b labels).branch.at? path).isSome ↔
      visits m.point levels square path = true ∨ (b.at? path).isSome := by
  cases hv : visits m.point levels square path with
  | true =>
    obtain ⟨id, drawn, hat⟩ := h.at?_grow_of_visits hv
    rw [hat]
    simp
  | false =>
    rw [h.at?_grow_of_not_visits hv]
    simp

/-- Growing keeps a branch sound. -/
theorem Sound.grow (h : Sound levels square b) :
    Sound levels square (grow owner entity m levels square b labels).branch := by
  -- what is recorded into: the cluster that was there, or an empty one over the right square
  have before : ∀ path id, ((b.at? path).getD (.empty id (square.along path))).Tidy ∧
      ((b.at? path).getD (.empty id (square.along path))).square = square.along path := by
    intro path id
    cases hb : b.at? path with
    | none => exact ⟨Cluster.tidy_empty _ _, rfl⟩
    | some c => exact ⟨h.tidy hb, h.placed hb⟩
  constructor <;> intro path c hc <;> cases hv : visits m.point levels square path
  · exact h.tidy (h.at?_grow_of_not_visits hv ▸ hc)
  · obtain ⟨id, drawn, hat⟩ := h.at?_grow_of_visits hv
    rw [← Option.some.inj (hat.symm.trans hc)]
    exact (before path id).1.record
  · exact h.placed (h.at?_grow_of_not_visits hv ▸ hc)
  · obtain ⟨id, drawn, hat⟩ := h.at?_grow_of_visits hv
    rw [← Option.some.inj (hat.symm.trans hc), Cluster.record_square]
    exact (before path id).2
  · exact h.bounded (h.at?_grow_of_not_visits hv ▸ hc)
  · exact length_le_of_visits hv

/-- Growing sets the entries of one entity on the descent of its point. -/
theorem Sound.memberAt?_grow (h : Sound levels square b) :
    (Branch.grow owner entity m levels square b labels).branch.memberAt? path other someone =
      if visits m.point levels square path = true ∧ other = owner ∧ someone = entity then some m
      else b.memberAt? path other someone := by
  cases hv : visits m.point levels square path with
  | false => simp [memberAt?, h.at?_grow_of_not_visits hv]
  | true =>
    obtain ⟨id, drawn, hat⟩ := h.at?_grow_of_visits hv
    rw [memberAt?_of_at? hat]
    cases hb : b.at? path with
    | none =>
      rw [Option.getD_none, (Cluster.tidy_empty _ _).member?_record]
      simp [memberAt?, hb]
    | some c =>
      rw [Option.getD_some, (h.tidy hb).member?_record]
      simp [memberAt?, hb]

/-- Growing keeps a branch nested, since a descent passes through every square above. -/
theorem Sound.nested_grow (h : Sound levels square b) (nested : b.Nested) :
    (Branch.grow owner entity m levels square b labels).branch.Nested := by
  intro path q other someone hm
  rw [h.memberAt?_grow] at hm ⊢
  split
  · rfl
  · next off =>
    rw [if_neg] at hm
    · exact nested hm
    · rintro ⟨hv, same⟩
      simp only [visits_append_singleton, Bool.and_eq_true] at hv
      exact off ⟨hv.1.1, same⟩

/-- Growing leaves no cluster below the top without data if there was none. -/
theorem Sound.hasData_grow (h : Sound levels square b)
    (occupied : ∀ c, b.at? path = some c → c.hasData = true)
    (hc : (Branch.grow owner entity m levels square b labels).branch.at? path = some c) :
    c.hasData = true := by
  cases hv : visits m.point levels square path with
  | false => exact occupied c (h.at?_grow_of_not_visits hv ▸ hc)
  | true =>
    refine (h.grow.tidy hc).hasData_iff_member?.mpr ⟨owner, entity, ?_⟩
    rw [← memberAt?_of_at? hc, h.memberAt?_grow]
    simp [hv]

end Branch

end RailAtlas
