import RailAtlas.Proofs.Registry.Evolution

/-!
# Deleting in a registry

Deleting a cluster empties its quadrant, after the quadrants below it have been emptied in the same
way. What is left to do then is the link from the parent, which has to be found by the label.
-/

namespace RailAtlas

namespace Registry

variable {r r' : Registry} {parent : Option ClusterId} {b new : Branch} {c d : Cluster}
variable {q : Quadrant} {levels fuel : Nat} {square : Square} {owner : OwnerId} {entity : EntityId}

/-- The label in a quadrant leads to the quadrant. -/
theorem Stands.label?_eq_iff (h : r.Stands parent b) (room : r.labels.clusters ≤ UInt32.size)
    (hc : b.top? = some c) (hd : (b.child q).top? = some d) (p : Quadrant) :
    (b.child p).label? = some d.id ↔ p = q := by
  constructor
  · intro same
    obtain ⟨e, he, hid⟩ := Option.map_eq_some_iff.mp same
    refine (Branch.nodup_labels_child (h.nodup room) hc).2.2 p q d.id ?_ ?_
    · exact Branch.mem_labels_iff.mpr ⟨[], e, he, hid⟩
    · exact Branch.mem_labels_iff.mpr ⟨[], d, hd, rfl⟩
  · rintro rfl
    exact Branch.label?_of_top? hd

/-- What is done for the children is done for the quadrants that have one. -/
theorem foldlM_children (e : ClusterEntry)
    (step : Registry → ClusterId → Except WiringFault Registry) (r : Registry) :
    e.children.foldlM step r = Quadrant.all.foldlM (fun r q =>
      match e.slot q with
      | some child => step r child
      | none => .ok r) r := by
  rw [ClusterEntry.children, List.foldlM_filterMap]
  congr 1
  funext r q
  cases e.slot q <;> rfl

/-! ### Deleting -/

/-- A cluster without children leaves its parent and the registry. -/
theorem unlink_spec (h : r.Stands parent b) (room : r.labels.clusters ≤ UInt32.size)
    (hc : b.top? = some c) (hleaf : b.child q = .leaf d) : ∃ r', r.unlink d.id = .ok r' ∧
      r'.labels = r.labels ∧ Rebuilt parent r b (r'.drop d.id) (b.setChild q .absent) := by
  have htop : b.top?.isSome := Option.isSome_of_eq_some hc
  have hd : (b.child q).top? = some d := by rw [hleaf]; rfl
  let above := Branch.entryAt parent b [] c
  have linked : ∀ p, (above.slot p == some d.id) = true ↔ p = q := by
    intro p
    rw [beq_iff_eq, Branch.slot_top, h.label?_eq_iff room hc hd]
  have other : c.id ≠ d.id := by
    intro same
    apply (Branch.nodup_labels_child (h.nodup room) hc).1 q
    exact Branch.mem_labels_iff.mpr ⟨[], d, hd, same.symm⟩
  refine ⟨r.put (above.setSlot q none), ?_, rfl, ?_⟩
  · have hparent : (Branch.entryAt (some c.id) (b.child q) [] d).parent = some c.id := rfl
    have found : Quadrant.all.find? (fun p => (Branch.entryAt parent b [] c).slot p == some d.id) =
        some q := Quadrant.find?_all linked
    simp only [unlink, get_eq ((h.child hc q).kept.top hd), hparent, get_eq (h.kept.top hc), bind,
      Except.bind, found]
    rfl
  · have draws := Branch.draws_setChild (Branch.draws_absent (b.child q) r.labels) htop
    refine ⟨rfl, draws, Branch.evolves_setChild h.kept hc (h.nodup room)
      (h.nodup_of_draws draws room) ?_ Branch.kept_absent fun id not_top _ => ?_⟩
    · change (if c.id = d.id then none else if c.id = _ then _ else _) = _
      rw [if_neg other, ClusterEntry.cluster_setSlot]
      exact if_pos rfl
    · change (if id = d.id then none else if id = _ then _ else r.entries id) = _
      rw [ClusterEntry.cluster_setSlot, if_neg (show id ≠ above.cluster.id from not_top), hleaf]
      simp [Branch.leaf]

/-- Deleting a child empties the quadrant. -/
theorem destroy_spec (h : r.Stands parent b) (room : r.labels.clusters ≤ UInt32.size)
    (hc : b.top? = some c) (hd : (b.child q).top? = some d)
    (sound : (b.child q).Sound levels square) (enough : levels < fuel) :
    ∃ r', destroy fuel d.id r = .ok r' ∧ r'.labels = r.labels ∧
      Rebuilt parent r b r' (b.setChild q .absent) := by
  induction fuel generalizing r parent b c q d levels square with
  | zero => omega
  | succ fuel ih =>
    have stands := h.child hc q
    -- first the quadrants of the child are emptied
    have each : ∀ {s : Registry} {k : Branch} (p : Quadrant), s.Stands (some c.id) k →
        s.labels = r.labels → k.top? = some d → k.child p = (b.child q).child p →
        ∃ r', (match (Branch.entryAt (some c.id) (b.child q) [] d).slot p with
            | some child => destroy fuel child s
            | none => .ok s) = .ok r' ∧ r'.labels = s.labels ∧
          Rebuilt (some c.id) s k r' (k.setChild p .absent) := by
      intro s k p standing hlabels hk same
      rw [Branch.slot_top, ← same, Branch.label?]
      cases he : (k.child p).top? with
      | none =>
        refine ⟨s, rfl, rfl, ?_⟩
        rw [← Branch.top?_eq_none_iff.mp he, Branch.setChild_child]
        exact .refl standing
      | some e =>
        obtain ⟨below, rfl, fits⟩ := sound.exists_levels (same ▸ he)
        rw [← same] at fits
        exact ih standing (hlabels ▸ room) hk he fits (Nat.lt_of_succ_lt_succ enough)
    obtain ⟨r₁, hr₁, hlabels₁, emptied⟩ :=
      foldlM_quadrants (fun _ => .absent) stands hd room each
    have lifted := emptied.lift h hc (Branch.label?_of_top? hd).symm (hlabels₁ ▸ room)
    -- then the child is a leaf
    have hc₁ := (@Branch.top?_setChild b (.leaf d) q).trans hc
    have hleaf : (b.setChild q (.leaf d)).child q = .leaf d :=
      Branch.child_setChild_self (Option.isSome_of_eq_some hc)
    obtain ⟨r₂, hr₂, hlabels₂, unlinked⟩ :=
      unlink_spec (lifted.stands h) (hlabels₁ ▸ room) hc₁ hleaf
    rw [Branch.setChild_setChild] at unlinked
    have hlabels : (r₂.drop d.id).labels = r.labels := hlabels₂.trans hlabels₁
    refine ⟨r₂.drop d.id, ?_, hlabels, lifted.trans unlinked h (hlabels ▸ room)⟩
    rw [destroy, get_eq (stands.kept.top hd)]
    simp only [bind, Except.bind]
    rw [foldlM_children, hr₁]
    simp only [hr₂]

end Registry

end RailAtlas
