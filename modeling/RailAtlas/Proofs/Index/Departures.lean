import RailAtlas.Proofs.Geometry.Column
import RailAtlas.Proofs.Index.Walk

/-!
# Edge delegates of a chunk

The departures of a chunk are grouped by the offsets of the squares to which they lead. The offsets
are listed in ascending order, each once, so a directed member is listed by one edge delegate: that
of its own offset, or by none if its offset is that of the chunk's square.

The offset is computed and may be wrong by a square. `Attributed` says that the member is listed
where its target is, and it is so exactly if rounding does not carry the target to a border.
-/

namespace RailAtlas

namespace SquareOffset

/-- The order of offsets: by column, then by row. -/
def Precedes (o p : SquareOffset) : Prop :=
  o.dx < p.dx ∨ o.dx = p.dx ∧ o.dy < p.dy

variable {o p q : SquareOffset}

theorem before_iff : o.before p = true ↔ o.Precedes p ∨ o = p := by
  rw [before, Precedes, Bool.or_eq_true, Bool.and_eq_true, decide_eq_true_eq, decide_eq_true_eq,
    decide_eq_true_eq, SquareOffset.mk.injEq]
  omega

theorem Precedes.trans (h : o.Precedes p) (next : p.Precedes q) : o.Precedes q := by
  rw [Precedes] at *
  omega

theorem Precedes.ne (h : o.Precedes p) : o ≠ p := by
  rintro rfl
  rw [Precedes] at h
  omega

theorem precedes_of_not_before (h : ¬ o.before p = true) : p.Precedes o := by
  rw [before_iff, Precedes, SquareOffset.mk.injEq] at h
  rw [Precedes]
  omega

end SquareOffset

namespace Chunk

open SquareOffset

variable {o p : SquareOffset} {os : List SquareOffset}

theorem mem_insertOffset_iff : p ∈ insertOffset o os ↔ p = o ∨ p ∈ os := by
  induction os with
  | nil => simp [insertOffset]
  | cons q os ih =>
    rw [insertOffset]
    split
    · next same => simp [same]
    · split
      · simp
      · simp only [List.mem_cons, ih]
        tauto

theorem pairwise_insertOffset (h : os.Pairwise Precedes) :
    (insertOffset o os).Pairwise Precedes := by
  induction os with
  | nil => simp [insertOffset]
  | cons q os ih =>
    obtain ⟨first, rest⟩ := List.pairwise_cons.mp h
    rw [insertOffset]
    split
    · exact h
    · next other =>
      split
      · next earlier =>
        have precedes : o.Precedes q := (before_iff.mp earlier).resolve_right other
        refine List.pairwise_cons.mpr ⟨fun r hr => ?_, h⟩
        obtain rfl | hr := List.mem_cons.mp hr
        · exact precedes
        · exact precedes.trans (first r hr)
      · next later =>
        refine List.pairwise_cons.mpr ⟨fun r hr => ?_, ih rest⟩
        obtain rfl | hr := mem_insertOffset_iff.mp hr
        · exact precedes_of_not_before later
        · exact first r hr

/-- The offsets of some departures, in ascending order. -/
def offsets (ds : List Departure) : List SquareOffset :=
  ds.foldl (fun os d => insertOffset d.offset os) []

theorem offsets_append_singleton (ds : List Departure) (d : Departure) :
    offsets (ds ++ [d]) = insertOffset d.offset (offsets ds) :=
  List.foldl_append

theorem mem_offsets_iff {ds : List Departure} : o ∈ offsets ds ↔ ∃ d ∈ ds, d.offset = o := by
  induction ds using List.reverseRecOn with
  | nil => simp [offsets]
  | append_singleton ds d ih =>
    rw [offsets_append_singleton, mem_insertOffset_iff, ih]
    simp only [List.mem_append, List.mem_singleton]
    constructor
    · rintro (rfl | ⟨e, he, rfl⟩)
      · exact ⟨d, .inr rfl, rfl⟩
      · exact ⟨e, .inl he, rfl⟩
    · rintro ⟨e, he | rfl, rfl⟩
      · exact .inr ⟨e, he, rfl⟩
      · exact .inl rfl

theorem pairwise_offsets (ds : List Departure) : (offsets ds).Pairwise Precedes := by
  induction ds using List.reverseRecOn with
  | nil => exact List.Pairwise.nil
  | append_singleton ds d ih =>
    rw [offsets_append_singleton]
    exact pairwise_insertOffset ih

theorem nodup_offsets (ds : List Departure) : (offsets ds).Nodup :=
  (pairwise_offsets ds).imp Precedes.ne

variable {c : Chunk} {id : EntityId} {m : Member} {t : Point}

theorem edgeDelegates_eq : c.edgeDelegates = (offsets c.departures).map fun o =>
    c.edgeDelegate o (c.departures.filter fun d => d.offset == o) := rfl

/-- What departs: the members with a target in another square. -/
theorem mem_departures_iff {d : Departure} : d ∈ c.departures ↔ ∃ m, c.get? d.id = some m ∧
    m.target = some d.target ∧ d.offset = c.squareOffset d.target ∧ d.offset ≠ .here ∧
      d.origin = m.point := by
  simp only [departures, List.mem_filterMap]
  constructor
  · rintro ⟨⟨id, m⟩, listed, departs⟩
    obtain ⟨t, leads, departs⟩ := Option.bind_eq_some_iff.mp departs
    split at departs
    · cases departs
    · next elsewhere =>
      obtain rfl := Option.some.inj departs
      exact ⟨m, mem_memberList_iff.mp listed, leads, rfl, elsewhere, rfl⟩
  · rintro ⟨m, held, leads, offset, elsewhere, origin⟩
    refine ⟨(d.id, m), mem_memberList_iff.mpr held, ?_⟩
    rw [offset] at elsewhere
    refine Option.bind_eq_some_iff.mpr ⟨_, leads, ?_⟩
    rw [if_neg elsewhere, ← offset, ← origin]

/-- The edge delegates that list an entity. -/
def delegatesOf (c : Chunk) (id : EntityId) : List EdgeDelegate :=
  c.edgeDelegates.filter fun d => d.members.contains id

/-- The group of an offset lists a directed member exactly if the offset is its own. -/
theorem mem_group_iff (held : c.get? id = some m) (leads : m.target = some t) :
    id ∈ (c.edgeDelegate o (c.departures.filter fun d => d.offset == o)).members ↔
      c.squareOffset t = o ∧ o ≠ .here := by
  simp only [edgeDelegate, List.mem_map, List.mem_filter, mem_departures_iff, beq_iff_eq]
  constructor
  · rintro ⟨d, ⟨⟨m', held', leads', offset, elsewhere, -⟩, rfl⟩, rfl⟩
    obtain rfl := Option.some.inj (held.symm.trans held')
    obtain rfl := Option.some.inj (leads.symm.trans leads')
    exact ⟨offset.symm, elsewhere⟩
  · rintro ⟨rfl, elsewhere⟩
    exact ⟨⟨id, c.squareOffset t, m.point, t⟩,
      ⟨⟨m, held, leads, rfl, elsewhere, rfl⟩, rfl⟩, rfl⟩

/-- A directed member is listed by the edge delegate of its own offset, and by no other. -/
theorem delegatesOf_eq (held : c.get? id = some m) (leads : m.target = some t) :
    c.delegatesOf id = if c.squareOffset t = .here then [] else
      [c.edgeDelegate (c.squareOffset t)
        (c.departures.filter fun d => d.offset == c.squareOffset t)] := by
  rw [delegatesOf, edgeDelegates_eq, List.filter_map]
  have lists (o : SquareOffset) : ((fun d : EdgeDelegate => d.members.contains id) ∘ fun o =>
      c.edgeDelegate o (c.departures.filter fun d => d.offset == o)) o = true ↔
        c.squareOffset t = o ∧ o ≠ .here := by
    rw [Function.comp_apply, List.contains_iff_mem, mem_group_iff held leads]
  split
  · next here =>
    rw [List.map_eq_nil_iff, List.filter_eq_nil_iff]
    intro o _ listed
    obtain ⟨rfl, elsewhere⟩ := (lists o).mp listed
    exact elsewhere here
  · next elsewhere =>
    have grouped : c.squareOffset t ∈ offsets c.departures :=
      mem_offsets_iff.mpr ⟨⟨id, c.squareOffset t, m.point, t⟩,
        mem_departures_iff.mpr ⟨m, held, leads, rfl, elsewhere, rfl⟩, rfl⟩
    have own (o : SquareOffset) (_ : o ∈ offsets c.departures) :
        ((fun d : EdgeDelegate => d.members.contains id) ∘ fun o =>
          c.edgeDelegate o (c.departures.filter fun d => d.offset == o)) o =
            decide (o = c.squareOffset t) := by
      rw [Bool.eq_iff_iff, lists, decide_eq_true_eq]
      exact ⟨fun h => h.1.symm, fun h => ⟨h.symm, h ▸ elsewhere⟩⟩
    rw [List.filter_congr own, List.filter_eq, List.count_eq_one_of_mem (nodup_offsets _) grouped]
    rfl

theorem length_delegatesOf_le (held : c.get? id = some m) (leads : m.target = some t) :
    (c.delegatesOf id).length ≤ 1 := by
  rw [delegatesOf_eq held leads]
  split <;> simp

/-! ### Attribution -/

/-- A directed member is left out of the edge delegates if its target is in the chunk's square, and
listed by one of them, that of the square of the target, if it is not. -/
structure Attributed (c : Chunk) (id : EntityId) (t : Point) : Prop where
  left_out : c.delegatesOf id = [] ↔ c.square.contains t = true
  listed : c.square.contains t = false → ∃ d, c.delegatesOf id = [d] ∧
    ({ center := d.peerCenter, scale := d.scale } : Square).contains t = true

/-- The offset of the square in which a point lies, without rounding. -/
def offsetOf (c : Chunk) (t : Point) : SquareOffset :=
  { dx := Column.number c.square.scale c.square.center.x t.x
    dy := Column.number c.square.scale c.square.center.y t.y }

section Rounding

variable {depth : Nat} (h : c.square.Aligned depth) (spans : c.square.Spans depth t)
variable (short : depth ≤ 52)
include h spans

theorem contains_iff_offsetOf : c.square.contains t = true ↔ c.offsetOf t = .here := by
  rw [h.contains_iff_number spans.finite, offsetOf, SquareOffset.here, SquareOffset.mk.injEq]

include short

theorem squareOffset_eq_iff : c.squareOffset t = c.offsetOf t ↔ ¬ c.square.Carries t := by
  rw [Square.Carries, not_or, ← h.x.floorClamped_quotient_eq_iff spans.x short,
    ← h.y.floorClamped_quotient_eq_iff spans.y short, offsetOf, ← SquareOffset.mk.injEq]
  rfl

theorem contains_centerAt_iff :
    Square.contains { center := c.centerAt (c.squareOffset t), scale := c.square.scale } t = true ↔
      c.squareOffset t = c.offsetOf t := by
  refine (h.contains_computed_iff spans short).trans ?_
  rw [← SquareOffset.mk.injEq]
  rfl

/-- A directed member is attributed to the square of its target exactly if rounding does not carry
the target. -/
theorem attributed_iff (held : c.get? id = some m) (leads : m.target = some t) :
    c.Attributed id t ↔ ¬ c.square.Carries t := by
  have here := contains_iff_offsetOf h spans
  have there := contains_centerAt_iff h spans short
  rw [← squareOffset_eq_iff h spans short]
  constructor
  · rintro ⟨left_out, listed⟩
    rw [delegatesOf_eq held leads] at left_out listed
    split at left_out
    · next stays => rw [stays, here.mp (left_out.mp rfl)]
    · next leaves =>
      have elsewhere : c.square.contains t = false := by
        rw [← Bool.not_eq_true, ← left_out]
        exact List.cons_ne_nil _ _
      obtain ⟨d, same, holds⟩ := listed elsewhere
      rw [if_neg leaves, List.singleton_inj] at same
      rw [← same] at holds
      exact there.mp holds
  · intro right
    rw [right] at there
    constructor <;> rw [delegatesOf_eq held leads, right]
    · rw [here]
      split <;> simp [*]
    · intro elsewhere
      rw [← Bool.not_eq_true, here] at elsewhere
      rw [if_neg elsewhere]
      exact ⟨_, rfl, there.mpr rfl⟩

end Rounding

end Chunk

end RailAtlas
