import RailAtlas.Proofs.Registry.Insertion
import RailAtlas.Proofs.Registry.Removal

/-!
# The registry of a tree

A tree shows its clusters with their links, and these make a registry. Whatever a call does to the
tree, the same call does to the registry, without fault: links are never missing, doubled or left
behind, whether or not the tree keeps them in its structure.
-/

namespace RailAtlas

namespace Tree

variable {t u : Tree} {p : Placement} {id start : ClusterId} {c : Cluster}
variable {path : List Quadrant} {q : Quadrant} {new : Branch} {r : Registry} {drawn : Labels}

/-- The clusters of a tree with their links, by label. -/
def registry (t : Tree) : Registry :=
  { range := t.range, entries := t.entry?, labels := t.labels }

theorem entry?_eq_none (h : id ∉ t.root.labels) : t.entry? id = none := by
  unfold entry?
  rw [List.find?_eq_none]
  intro e he same
  obtain ⟨path, c, hc, rfl⟩ := Branch.mem_entries_iff.mp he
  exact h (Branch.mem_labels_iff.mpr ⟨path, c, hc, eq_of_beq same⟩)

theorem Labelled.stands (h : t.Labelled) (distinct : t.root.labels.Nodup) :
    t.registry.Stands none t.root := by
  refine ⟨fun path c hc => entry?_of_at? distinct hc, h.counted, fun id hid => ?_⟩
  obtain ⟨e, he⟩ := Option.isSome_iff_exists.mp hid
  obtain ⟨path, c, hc, rfl, -⟩ := (entry?_iff distinct).mp he
  have used := List.count_pos_iff.mpr (Branch.mem_labels_of_at? hc)
  exact List.count_pos_iff.mp (Nat.lt_of_lt_of_le used (h.counted c.id))

/-- The registry in which the branch of a tree has been rebuilt is that of the tree with the new
branch. -/
theorem Labelled.registry_eq (h : t.Labelled) (distinct : t.root.labels.Nodup)
    (rebuilt : Registry.Rebuilt none t.registry t.root r new) (hlabels : r.labels = drawn)
    (room : drawn.clusters ≤ UInt32.size) :
    r = { t with root := new, labels := drawn }.registry := by
  subst hlabels
  let u : Tree := { t with root := new, labels := r.labels }
  have apart : u.root.labels.Nodup := (h.stands distinct).nodup_of_draws rebuilt.draws room
  have entries : r.entries = u.entry? := by
    funext id
    by_cases used : id ∈ new.labels
    · obtain ⟨path, c, hc, rfl⟩ := Branch.mem_labels_iff.mp used
      rw [rebuilt.evolves.kept path c hc]
      exact (entry?_of_at? apart hc).symm
    · have gone : u.entry? id = none := entry?_eq_none used
      rw [rebuilt.evolves.frame id used, gone]
      split
      · rfl
      · next unused => exact entry?_eq_none unused
  obtain ⟨range, found, labels⟩ := r
  obtain rfl : range = t.range := rebuilt.range_eq
  exact congrArg (Registry.mk t.range · labels) entries

/-- What stands in the registry at a place of the tree, and what comes of rebuilding it. -/
theorem Labelled.exists_above (h : t.Labelled) (distinct : t.root.labels.Nodup)
    (hc : t.root.at? path = some c) : ∃ above, t.registry.Stands above (t.root.under path) ∧
      (path = [] → above = none) ∧ ∀ {r new drawn},
        Registry.Rebuilt above t.registry (t.root.under path) r new →
        new.label? = (t.root.under path).label? → r.labels = drawn →
        drawn.clusters ≤ UInt32.size →
        r = { t with root := t.root.graft path new, labels := drawn }.registry := by
  obtain ⟨above, stands, at_root, lifted⟩ :=
    Registry.Rebuilt.exists_place (h.stands distinct) (Option.isSome_of_eq_some hc)
  refine ⟨above, stands, at_root, fun rebuilt label hlabels room => ?_⟩
  exact h.registry_eq distinct (lifted rebuilt label (hlabels ▸ room)) hlabels room

/-- What stands in the registry at the parent's place, and what comes of changing the quadrant. -/
theorem Labelled.exists_parent (h : t.Labelled) (room : t.labels.clusters ≤ UInt32.size)
    (hc : t.root.at? (path ++ [q]) = some c) : ∃ above d,
      t.registry.Stands above (t.root.under path) ∧ t.root.at? path = some d ∧
      ((t.root.under path).child q).top? = some c ∧
      ((t.root.under path).child q).Sound (t.levelsBelow c.square.scale) c.square ∧ ∀ {r new},
        Registry.Rebuilt above t.registry (t.root.under path) r
          ((t.root.under path).setChild q new) → r.labels = t.labels →
        r = { t with root := t.root.graft (path ++ [q]) new }.registry := by
  obtain ⟨d, hd⟩ :=
    Option.isSome_iff_exists.mp (Branch.isSome_at?_of_append (Option.isSome_of_eq_some hc))
  obtain ⟨above, stands, -, put_back⟩ := h.exists_above (h.nodup room) hd
  have hchild : (t.root.under path).child q = t.root.under (path ++ [q]) :=
    (Branch.under_append path [q]).symm
  refine ⟨above, d, stands, hd, ?_, ?_, fun rebuilt hlabels => ?_⟩
  · rw [hchild]
    exact hc
  · rw [hchild]
    exact h.sound_under hc
  · rw [put_back rebuilt Branch.label?_setChild hlabels room, Branch.graft_concat]

/-- The registry has fuel for all levels below a cluster. -/
theorem Labelled.levelsBelow_lt_fuel (h : t.Labelled) (hc : t.root.at? path = some c) :
    t.levelsBelow c.square.scale < t.registry.fuel := by
  rw [h.levelsBelow_eq hc]
  exact Nat.lt_succ_of_le (Nat.sub_le _ _)

/-! ### Operations -/

theorem Labelled.registry_addFrom (h : t.Labelled) (distinct : t.root.labels.Nodup)
    {l : Logged IndexWarning Tree} (hl : t.addFrom start p = .ok l)
    (room : l.value.labels.clusters ≤ UInt32.size) :
    t.registry.addFrom start p = .ok l.value.registry := by
  cases spatial : p.kind.isSpatial with
  | false =>
    simp only [addFrom, spatial, Bool.not_false, if_true, Except.ok.injEq] at hl
    simp only [Registry.addFrom, spatial, Bool.not_false, if_true, ← hl]
    rfl
  | true =>
    cases hp : p.position? with
    | none =>
      simp only [addFrom, spatial, hp, Bool.not_true, Bool.false_eq_true, if_false,
        Except.ok.injEq] at hl
      simp only [Registry.addFrom, spatial, hp, Bool.not_true, Bool.false_eq_true, if_false, ← hl]
    | some position =>
      cases hb : t.branch? start with
      | none => simp [addFrom, spatial, hp, hb] at hl
      | some b =>
        obtain ⟨path, c, hc, rfl, rfl⟩ := exists_of_branch? distinct hb
        rw [addFrom_eq distinct hc spatial hp] at hl
        obtain rfl := Except.ok.inj hl
        obtain ⟨above, stands, -, put_back⟩ := h.exists_above distinct hc
        obtain ⟨r, hr, hlabels, rebuilt⟩ := Registry.insert_spec (h.levelsBelow_lt_fuel hc)
          stands hc (h.sound_under hc) rfl room
        simp only [Registry.addFrom, spatial, hp, Bool.not_true, Bool.false_eq_true, if_false, hr]
        exact congrArg Except.ok (put_back rebuilt (Branch.label?_grow hc) hlabels room)

theorem Labelled.registry_removeFrom (h : t.Labelled) (room : t.labels.clusters ≤ UInt32.size)
    (hu : t.removeFrom start p = .ok u) : t.registry.removeFrom start p = .ok u.registry := by
  have distinct := h.nodup room
  cases spatial : p.kind.isSpatial with
  | false =>
    simp only [removeFrom, spatial, Bool.not_false, if_true, Except.ok.injEq] at hu
    simp only [Registry.removeFrom, spatial, Bool.not_false, if_true, ← hu]
  | true =>
    cases hb : t.branch? start with
    | none => simp [removeFrom, spatial, hb] at hu
    | some b =>
      obtain ⟨path, c, hc, rfl, rfl⟩ := exists_of_branch? distinct hb
      rw [removeFrom_eq distinct hc spatial] at hu
      obtain rfl := Except.ok.inj hu
      simp only [Registry.removeFrom, spatial, Bool.not_true, Bool.false_eq_true, if_false]
      have enough := h.levelsBelow_lt_fuel hc
      obtain rfl | ⟨front, q, rfl⟩ := path.eq_nil_or_concat'
      · obtain ⟨above, stands, at_root, put_back⟩ := h.exists_above distinct hc
        obtain rfl := at_root rfl
        obtain ⟨r, hr, hlabels, rebuilt⟩ :=
          Registry.scrub_root_spec p.owner p.id stands room hc (h.sound_under hc) enough
        have first : (c.id == rootId) = true := beq_iff_eq.mpr ((h.eq_nil_iff distinct hc).mp rfl)
        rw [hr, first]
        exact congrArg Except.ok (put_back rebuilt Branch.label?_scrubFrom_root hlabels room)
      · obtain ⟨above, d, stands, hd, htop, sound, put_back⟩ := h.exists_parent room hc
        have other : (c.id == rootId) = false := by
          rw [beq_eq_false_iff_ne]
          intro same
          simpa using (h.eq_nil_iff distinct hc).mpr same
        obtain ⟨r, hr, hlabels, rebuilt⟩ :=
          Registry.scrub_spec p.owner p.id stands room hd htop sound enough
        rw [hr, other, Branch.under_append]
        exact congrArg Except.ok (put_back rebuilt hlabels)

theorem Labelled.registry_newChild (h : t.Labelled) (distinct : t.root.labels.Nodup)
    (hc : t.root.at? path = some c) (fine : t.range.minScale < c.square.scale)
    (free : (t.root.under path).child q = .absent) {u : Tree}
    (hu : t.newChild c.id q.dx q.dy = .ok (id, u)) (room : u.labels.clusters ≤ UInt32.size) :
    t.registry.newChild c.id q.dx q.dy = .ok (id, u.registry) := by
  rw [newChild_eq distinct hc fine free] at hu
  obtain ⟨rfl, rfl⟩ := Prod.mk.inj (Except.ok.inj hu)
  obtain ⟨above, stands, -, put_back⟩ := h.exists_above distinct hc
  obtain ⟨r, hr, hlabels, rebuilt⟩ :=
    Registry.newChild_spec stands hc (decide_eq_true fine) free room
  rw [hr]
  have same := put_back rebuilt Branch.label?_setChild hlabels room
  exact congrArg (fun r => Except.ok (t.labels.takeCluster.1, r)) same

theorem Labelled.registry_delete (h : t.Labelled) (room : t.labels.clusters ≤ UInt32.size)
    (hc : t.root.at? path = some c) (other : c.id ≠ rootId) (hu : t.delete c.id = .ok u) :
    Registry.destroy t.registry.fuel c.id t.registry = .ok u.registry := by
  have distinct := h.nodup room
  rw [delete_eq distinct hc other] at hu
  obtain rfl := Except.ok.inj hu
  obtain rfl | ⟨front, q, rfl⟩ := path.eq_nil_or_concat'
  · exact absurd ((h.eq_nil_iff distinct hc).mp rfl) other
  · obtain ⟨above, d, stands, hd, htop, sound, put_back⟩ := h.exists_parent room hc
    obtain ⟨r, hr, hlabels, rebuilt⟩ :=
      Registry.destroy_spec stands room hd htop sound (h.levelsBelow_lt_fuel hc)
    rw [hr]
    exact congrArg Except.ok (put_back rebuilt hlabels)

theorem Labelled.registry_updateFrom (h : t.Labelled) (room : t.labels.clusters ≤ UInt32.size)
    {l : Logged IndexWarning Tree} (hl : t.updateFrom start p = .ok l)
    (fits : l.value.labels.clusters ≤ UInt32.size) :
    t.registry.updateFrom start p = .ok l.value.registry := by
  cases hrest : t.removeFrom start p with
  | error fault => simp [updateFrom, hrest, bind, Except.bind] at hl
  | ok rest =>
    have continues := h.continues_of (h.regrown_removeFrom (h.nodup room) hrest)
    have distinct := continues.labelled.nodup (labels_removeFrom hrest ▸ room)
    have removed := h.registry_removeFrom room hrest
    simp only [updateFrom, hrest, bind, Except.bind] at hl
    simp only [Registry.updateFrom, removed, bind, Except.bind]
    have kept : (rest.registry.entries start).isSome = rest.isRegistered start :=
      Bool.eq_iff_iff.mpr (isSome_entry?_iff distinct)
    rw [kept]
    split at hl
    · next stays =>
      rw [if_pos stays]
      exact continues.labelled.registry_addFrom distinct hl fits
    · next gone =>
      rw [if_neg gone]
      obtain rfl := Except.ok.inj hl
      have added := continues.labelled.addFrom_root distinct p
      exact continues.labelled.registry_addFrom distinct added fits

/-! ### Calls -/

variable {range : ScaleRange} {call : TreeCall}

/-- What an admissible call does to a tree, it does to the registry. -/
theorem Labelled.registry_answer (h : t.Labelled) (room : t.labels.clusters ≤ UInt32.size)
    (admissible : t.Admissible call) (hu : t.answer call = .ok u)
    (fits : u.labels.clusters ≤ UInt32.size) : t.registry.answer call = .ok u.registry := by
  have distinct := h.nodup room
  cases call with
  | newChild parent dx dy =>
    obtain ⟨e, q, he, rfl, rfl, fine, free⟩ := admissible
    obtain ⟨path, c, hc, rfl, rfl⟩ := (entry?_iff distinct).mp he
    obtain ⟨made, hn, rfl⟩ := exists_of_map_eq_ok hu
    have registered := h.registry_newChild distinct hc fine (Branch.child_eq_absent_of_slot free) hn
      fits
    rw [Registry.answer, registered]
    rfl
  | add p =>
    obtain rfl := Except.ok.inj hu
    exact h.registry_addFrom distinct (h.addFrom_root distinct p) fits
  | remove p =>
    obtain rfl := Except.ok.inj hu
    exact h.registry_removeFrom room (h.removeFrom_root distinct p)
  | update p =>
    obtain rfl := Except.ok.inj hu
    exact h.registry_updateFrom room (h.updateFrom_root room p) fits
  | addFrom start p =>
    obtain ⟨l, hl, rfl⟩ := exists_of_map_eq_ok hu
    exact h.registry_addFrom distinct hl fits
  | removeFrom start p => exact h.registry_removeFrom room hu
  | updateFrom start p =>
    obtain ⟨l, hl, rfl⟩ := exists_of_map_eq_ok hu
    exact h.registry_updateFrom room hl fits
  | delete id =>
    by_cases at_root : id = rootId
    · rw [Tree.answer, delete, if_pos at_root] at hu
      rw [Registry.answer, if_pos at_root, Except.ok.inj hu]
    · rw [Registry.answer, if_neg at_root]
      cases he : t.entry? id with
      | none =>
        have unknown : t.isRegistered id = false := by
          rw [← Bool.not_eq_true, ← isSome_entry?_iff distinct, he]
          exact Bool.false_ne_true
        have absent : t.registry.entries id = none := he
        simp only [Tree.answer, delete, if_neg at_root, unknown, Bool.not_false, if_true] at hu
        rw [absent, Except.ok.inj hu]
      | some e =>
        obtain ⟨path, c, hc, rfl, rfl⟩ := (entry?_iff distinct).mp he
        have deleted := delete_eq distinct hc at_root
        rw [Tree.answer, deleted] at hu
        obtain rfl := Except.ok.inj hu
        have found : t.registry.entries c.id = some _ := he
        rw [found]
        exact h.registry_delete room hc at_root deleted

/-- Every tree that admissible calls lead to is well formed. An admissible call on it is answered by
another tree, and as long as labels last the same call turns the registry of the one into that of
the other: no fault comes up, neither in the tree nor in the links. -/
theorem wellFormed_of_reachable (h : Reachable range t) : t.range = range ∧ t.WellFormed ∧
    ∀ call, t.Admissible call → ∃ u, t.answer call = .ok u ∧
      (u.labels.clusters < UInt32.size → t.registry.answer call = .ok u.registry) := by
  obtain ⟨labelled, room, hrange⟩ := h.labelled
  refine ⟨hrange, labelled.wellFormed (labelled.nodup (Nat.le_of_lt room)), ?_⟩
  intro call admissible
  obtain ⟨u, hu, -⟩ := labelled.answer (Nat.le_of_lt room) admissible
  refine ⟨u, hu, ?_⟩
  intro fits
  exact labelled.registry_answer (Nat.le_of_lt room) admissible hu (Nat.le_of_lt fits)

/-- A tree of two scales with a child in the south east, which can be deleted again. -/
theorem wellFormed_of_reachable_child : ∃ t u, create ⟨3, 2⟩ = .ok t ∧
    t.Admissible (.newChild rootId 1 1) ∧ t.answer (.newChild rootId 1 1) = .ok u ∧
    u.WellFormed ∧ ∃ v, u.answer (.delete ⟨1⟩) = .ok v ∧
      u.registry.answer (.delete ⟨1⟩) = .ok v.registry := by
  let t : Tree :=
    { range := ⟨3, 2⟩, root := .leaf (.empty rootId (worldSquare ⟨3, 2⟩)), labels := ⟨1, 0⟩ }
  have created : create ⟨3, 2⟩ = .ok t := rfl
  have admissible : t.Admissible (.newChild rootId 1 1) :=
    ⟨_, .southEast, rfl, rfl, rfl, (by decide : (2 : Int) < 3), rfl⟩
  have answered : t.answer (.newChild rootId 1 1) = .ok _ := rfl
  obtain ⟨-, well_formed, calls⟩ :=
    wellFormed_of_reachable (.answered (.created created) admissible answered (by decide))
  obtain ⟨v, hv, registered⟩ := calls (.delete ⟨1⟩) trivial
  refine ⟨t, _, created, admissible, answered, well_formed, v, hv, registered ?_⟩
  obtain rfl := Except.ok.inj hv
  decide

end Tree

end RailAtlas
