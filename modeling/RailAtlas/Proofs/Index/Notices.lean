import RailAtlas.Proofs.Index.FlatIndex

/-!
# When indexing raises notices

Indexing an entity looks at its position, goes down through the squares that hold it, and reports
an entity without a position and a cluster that it visits out of bounds. A quadrant is entered only
if it holds the point, and the cluster there covers just this quadrant, so the only cluster that
can be out of bounds is the one where indexing starts.
-/

namespace RailAtlas

namespace Branch

variable {levels : Nat} {square : Square} {b : Branch} {owner : OwnerId} {entity : EntityId}
variable {m : Member} {l : Labels}

/-- A cluster over a square that holds the point is visited without a warning. -/
theorem Sound.boundsWarning_eq_nil (h : Sound levels square b)
    (inside : square.contains m.point = true) :
    boundsWarning (b.visit square l).cluster entity m = [] := by
  rw [boundsWarning, h.visit_square, if_pos inside]

/-- Only the cluster on top can be out of bounds: the induction is on the levels, and each quadrant
that is entered holds the point. -/
theorem Sound.warnings_grow (h : Sound levels square b) :
    (Branch.grow owner entity m levels square b l).warnings =
      boundsWarning (b.visit square l).cluster entity m := by
  induction levels generalizing square b l with
  | zero => rfl
  | succ levels ih =>
    have quiet : ∀ above q drawn, above = square →
        (if (above.quadrant q).contains m.point then
          Branch.grow owner entity m levels (above.quadrant q) (b.child q) drawn
        else (b.child q).unchanged drawn).warnings = [] := by
      rintro above q drawn rfl
      split
      · next holds => rw [ih (h.child q), (h.child q).boundsWarning_eq_nil holds]
      · rfl
    have quadrants : b.child .northWest = (b.visit square l).northWest ∧
        b.child .northEast = (b.visit square l).northEast ∧
        b.child .southWest = (b.visit square l).southWest ∧
        b.child .southEast = (b.visit square l).southEast := by
      cases b <;> exact ⟨rfl, rfl, rfl, rfl⟩
    obtain ⟨hnw, hne, hsw, hse⟩ := quadrants
    have hsquare := h.visit_square l
    simp only [Branch.grow, ← hnw, ← hne, ← hsw, ← hse, quiet _ _ _ hsquare, List.append_nil]

end Branch

namespace Tree

variable {t : Tree} {p : Placement}

/-- Adding an entity to an anchored tree raises no notice exactly if the entity is not to be
indexed, or has a position inside the world square. -/
theorem Anchored.notices_add_eq_nil_iff (h : t.Anchored) : (t.add p).notices = [] ↔
    (p.kind.isSpatial = true → ∃ position, p.position? = some position ∧
      (worldSquare t.range).contains position = true) := by
  rw [Tree.add]
  cases p.kind.isSpatial with
  | false => simp
  | true =>
    cases hp : p.position? with
    | none => simp
    | some position =>
      have warned := @Branch.Sound.warnings_grow _ _ _ p.owner p.id (p.member position) t.labels
        h.sound
      have square := h.sound.visit_square t.labels
      rw [Branch.boundsWarning, square] at warned
      simp only [Bool.not_true, Bool.false_eq_true, if_false, forall_const, Option.some.injEq,
        exists_eq_left']
      refine (Eq.congr_left warned).trans ?_
      change (if (worldSquare t.range).contains position then [] else _) = [] ↔ _
      cases (worldSquare t.range).contains position <;> simp

end Tree

end RailAtlas
