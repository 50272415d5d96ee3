import RailAtlas.Proofs.Index.Wiring

/-!
# Calls on a tree

Every call puts branches in the places of others, at most one after the other. `Regrown` says what
such a change can do: the new branch covers the square of its place and draws its labels from the
counters. A tree stays labelled by that, so all trees that calls can reach are labelled, and a call
that is admissible is never answered by a fault.
-/

namespace RailAtlas

namespace Branch

variable {b new : Branch} {c : Cluster} {q : Quadrant} {owner : OwnerId} {entity : EntityId}
variable {m : Member} {levels : Nat} {square : Square} {l : Labels} {id : ClusterId}

theorem label?_grow (h : b.top? = some c) :
    (grow owner entity m levels square b l).branch.label? = b.label? := by
  obtain ⟨id, drawn, htop⟩ := @top?_grow owner entity m levels square b l
  rw [label?, htop, h, Option.getD_some, Option.map_some, Cluster.record_id, label?, h,
    Option.map_some]

theorem label?_scrubFrom_root : (b.scrubFrom true owner entity).label? = b.label? := by
  rw [label?, top?_scrubFrom true rfl, label?]
  cases b.top? <;> simp

theorem Sound.setChild (h : Sound (levels + 1) square b) (htop : b.top?.isSome)
    (fits : Sound levels (square.quadrant q) new) :
    Sound (levels + 1) square (b.setChild q new) := by
  refine sound_of_child ?_ fun r => ?_
  · intro c hc
    rw [top?_setChild] at hc
    exact ⟨h.top_tidy hc, h.top_square hc⟩
  · rw [child_setChild htop]
    split
    · next same => rwa [same]
    · exact h.child r

/-- Putting a new cluster into a free quadrant takes one label. -/
theorem draws_setChild_leaf (htop : b.top?.isSome) (free : b.child q = absent) (l : Labels)
    (square : Square) : b.Draws l (b.setChild q (.leaf (.empty l.takeCluster.1 square)))
      l.takeCluster.2 := by
  refine ⟨Nat.le_succ _, ?_⟩
  intro id
  have counted := @count_labels_setChild b (.leaf (.empty l.takeCluster.1 square)) q id htop
  have hleaf : (leaf (.empty l.takeCluster.1 square)).labels = [l.takeCluster.1] := rfl
  rw [free, labels_absent, List.count_nil, hleaf] at counted
  rw [Labels.givenOut_takeCluster, List.count_append]
  omega

theorem draws_absent (b : Branch) (l : Labels) : b.Draws l absent l := by
  refine draws_of_sublist ?_ l
  rw [labels_absent]
  exact List.nil_sublist _

end Branch

namespace Quadrant

/-- The directions of a quadrant lead to it. -/
theorem ofDirections_dx_dy (q : Quadrant) : ofDirections q.dx q.dy = .ok q := by
  cases q <;> rfl

theorem ofDirections_eq_ok_iff {dx dy : Int} {q : Quadrant} :
    ofDirections dx dy = .ok q ↔ dx = q.dx ∧ dy = q.dy := by
  constructor
  · intro h
    rw [ofDirections] at h
    split at h
    · cases h
    split at h
    · cases h
    · next vertical horizontal =>
      have hy : dy = -1 ∨ dy = 1 := by omega
      have hx : dx = -1 ∨ dx = 1 := by omega
      obtain rfl := Except.ok.inj h
      obtain rfl | rfl := hy <;> obtain rfl | rfl := hx <;> exact ⟨rfl, rfl⟩
  · rintro ⟨rfl, rfl⟩
    exact ofDirections_dx_dy q

end Quadrant

namespace Tree

variable {range : ScaleRange} {t u v : Tree} {p : Placement} {id start : ClusterId} {c : Cluster}
variable {path : List Quadrant} {q : Quadrant}

/-- A tree has become another one by putting a branch in the place of one with a cluster. -/
def Regrown (t u : Tree) : Prop :=
  ∃ path new drawn, (t.root.at? path).isSome ∧
    new.Sound (t.levels - path.length) ((worldSquare t.range).along path) ∧
    (path = [] → new.label? = some rootId) ∧ (t.root.under path).Draws t.labels new drawn ∧
    u = { t with root := t.root.graft path new, labels := drawn }

namespace Regrown

theorem range_eq (h : t.Regrown u) : u.range = t.range := by
  obtain ⟨path, new, drawn, -, -, -, -, rfl⟩ := h
  rfl

theorem le (h : t.Regrown u) : t.labels.clusters ≤ u.labels.clusters := by
  obtain ⟨path, new, drawn, -, -, -, draws, rfl⟩ := h
  exact draws.le

theorem labelled (h : t.Regrown u) (ht : t.Labelled) : u.Labelled := by
  obtain ⟨path, new, drawn, hpath, fits, top, draws, rfl⟩ := h
  exact ht.graft hpath fits top draws

end Regrown

/-- The square of the cluster at a place leaves the branch the levels that are left. -/
theorem Labelled.levelsBelow_eq (h : t.Labelled) (hc : t.root.at? path = some c) :
    t.levelsBelow c.square.scale = t.levels - path.length := by
  have hscale : c.square.scale = t.range.maxScale - path.length := by
    rw [h.sound.placed hc, Square.scale_along, worldSquare]
  rw [levelsBelow, levels, hscale]
  omega

/-- The branch at the place of a cluster covers the square of the cluster. -/
theorem Labelled.sound_under (h : t.Labelled) (hc : t.root.at? path = some c) :
    (t.root.under path).Sound (t.levelsBelow c.square.scale) c.square := by
  rw [h.levelsBelow_eq hc, h.sound.placed hc]
  exact h.sound.under path

/-! ### What each operation does -/

/-- At the place of a cluster a member grows the branch. -/
theorem addFrom_eq (distinct : t.root.labels.Nodup) (hc : t.root.at? path = some c)
    {position : Point} (spatial : p.kind.isSpatial = true) (hp : p.position? = some position) :
    let g := (t.root.under path).grow p.owner p.id (p.member position)
      (t.levelsBelow c.square.scale) c.square t.labels
    t.addFrom c.id p = .ok {
      value := { t with root := t.root.graft path g.branch, labels := g.labels }
      notices := g.warnings } := by
  have htop : (t.root.under path).top? = some c := hc
  simp only [addFrom, spatial, hp, branch?_eq distinct hc, growBranch, htop, Bool.not_true,
    Bool.false_eq_true, if_false, Branch.replace_eq_graft distinct hc]

/-- At the place of a cluster an entity is scrubbed from the branch. -/
theorem removeFrom_eq (distinct : t.root.labels.Nodup) (hc : t.root.at? path = some c)
    (spatial : p.kind.isSpatial = true) :
    let scrubbed := (t.root.under path).scrubFrom (c.id == rootId) p.owner p.id
    t.removeFrom c.id p = .ok { t with root := t.root.graft path scrubbed } := by
  simp only [removeFrom, spatial, branch?_eq distinct hc, Bool.not_true, Bool.false_eq_true,
    if_false, Branch.replace_eq_graft distinct hc]

/-- A free quadrant of a cluster that splits can be given a cluster. -/
theorem newChild_eq (distinct : t.root.labels.Nodup) (hc : t.root.at? path = some c)
    (fine : t.range.minScale < c.square.scale) (free : (t.root.under path).child q = .absent) :
    t.newChild c.id q.dx q.dy = .ok (t.labels.takeCluster.1, { t with
      root := t.root.graft path ((t.root.under path).setChild q
        (.leaf (.empty t.labels.takeCluster.1 (c.square.quadrant q))))
      labels := t.labels.takeCluster.2 }) := by
  have splits : t.splits c.square.scale = true := decide_eq_true fine
  rw [newChild, branch?_eq distinct hc, ← Branch.replace_eq_graft distinct hc]
  cases hb : t.root.under path with
  | absent => simp [Branch.at?, hb] at hc
  | node d nw ne sw se =>
    rw [Branch.at?, hb] at hc
    obtain rfl : d = c := by simpa using hc
    rw [hb] at free
    simp only [splits, Quadrant.ofDirections_dx_dy, free, Bool.not_true, Bool.false_eq_true,
      if_false]

/-- Deleting a cluster other than the root clears its place. -/
theorem delete_eq (distinct : t.root.labels.Nodup) (hc : t.root.at? path = some c)
    (other : c.id ≠ rootId) : t.delete c.id = .ok { t with root := t.root.graft path .absent } := by
  have registered : t.isRegistered c.id = true := isRegistered_iff.mpr ⟨path, c, hc, rfl⟩
  rw [delete, if_neg other, registered, Branch.replace_eq_graft distinct hc]
  rfl

/-- What is indexed from the root down is indexed in the root's place. -/
theorem Labelled.addFrom_root (h : t.Labelled) (distinct : t.root.labels.Nodup) (p : Placement) :
    t.addFrom rootId p = .ok (t.add p) := by
  obtain ⟨c, hc, hid⟩ := h.exists_root
  have hroot : t.root.at? [] = some c := hc
  have hsquare : c.square = worldSquare t.range := h.sound.top_square hc
  cases spatial : p.kind.isSpatial with
  | false => simp only [addFrom, add, spatial, Bool.not_false, if_true]
  | true =>
    cases hp : p.position? with
    | none => simp only [addFrom, add, spatial, hp, Bool.not_true, Bool.false_eq_true, if_false]
    | some position =>
      rw [← hid, addFrom_eq distinct hroot spatial hp, hsquare]
      simp only [add, spatial, hp, Bool.not_true, Bool.false_eq_true, if_false]
      rfl

theorem Labelled.removeFrom_root (h : t.Labelled) (distinct : t.root.labels.Nodup)
    (p : Placement) : t.removeFrom rootId p = .ok (t.remove p) := by
  obtain ⟨c, hc, hid⟩ := h.exists_root
  have hroot : t.root.at? [] = some c := hc
  cases spatial : p.kind.isSpatial with
  | false => simp only [removeFrom, remove, spatial, Bool.not_false, if_true]
  | true =>
    have removed := removeFrom_eq distinct hroot spatial
    rw [hid] at removed
    rw [removed, remove, spatial]
    rfl

/-- Indexing from a cluster does nothing, or grows the branch at the place of the cluster. -/
theorem addFrom_cases (distinct : t.root.labels.Nodup) {l : Logged IndexWarning Tree}
    (hl : t.addFrom start p = .ok l) : l.value = t ∨ ∃ path c position,
      t.root.at? path = some c ∧ c.id = start ∧
      let g := (t.root.under path).grow p.owner p.id (p.member position)
        (t.levelsBelow c.square.scale) c.square t.labels
      l.value = { t with root := t.root.graft path g.branch, labels := g.labels } := by
  cases spatial : p.kind.isSpatial with
  | false =>
    simp only [addFrom, spatial, Bool.not_false, if_true, Except.ok.injEq] at hl
    exact .inl (congrArg Logged.value hl).symm
  | true =>
    cases hp : p.position? with
    | none =>
      simp only [addFrom, spatial, hp, Bool.not_true, Bool.false_eq_true, if_false,
        Except.ok.injEq] at hl
      exact .inl (congrArg Logged.value hl).symm
    | some position =>
      cases hb : t.branch? start with
      | none => simp [addFrom, spatial, hp, hb] at hl
      | some b =>
        obtain ⟨path, c, hc, rfl, rfl⟩ := exists_of_branch? distinct hb
        rw [addFrom_eq distinct hc spatial hp] at hl
        exact .inr ⟨path, c, position, hc, rfl, congrArg Logged.value (Except.ok.inj hl).symm⟩

/-- Removing from a cluster does nothing, or scrubs the branch at the place of the cluster. -/
theorem removeFrom_cases (distinct : t.root.labels.Nodup) (hu : t.removeFrom start p = .ok u) :
    u = t ∨ ∃ path c, t.root.at? path = some c ∧ c.id = start ∧
      let scrubbed := (t.root.under path).scrubFrom (c.id == rootId) p.owner p.id
      u = { t with root := t.root.graft path scrubbed } := by
  cases spatial : p.kind.isSpatial with
  | false =>
    simp only [removeFrom, spatial, Bool.not_false, if_true, Except.ok.injEq] at hu
    exact .inl hu.symm
  | true =>
    cases hb : t.branch? start with
    | none => simp [removeFrom, spatial, hb] at hu
    | some b =>
      obtain ⟨path, c, hc, rfl, rfl⟩ := exists_of_branch? distinct hb
      rw [removeFrom_eq distinct hc spatial] at hu
      exact .inr ⟨path, c, hc, rfl, (Except.ok.inj hu).symm⟩

/-- An update adds to what the removal has left, where it started or else from the root. -/
theorem updateFrom_cases {l : Logged IndexWarning Tree} (hl : t.updateFrom start p = .ok l) :
    ∃ rest, t.removeFrom start p = .ok rest ∧ (rest.addFrom start p = .ok l ∨ rest.add p = l) := by
  cases removed : t.removeFrom start p with
  | error fault => simp [updateFrom, removed, bind, Except.bind] at hl
  | ok rest =>
    refine ⟨rest, rfl, ?_⟩
    simp only [updateFrom, removed, bind, Except.bind] at hl
    split at hl
    · exact .inl hl
    · exact .inr (Except.ok.inj hl)

/-- A cluster is made in a free quadrant of a cluster that splits, or not at all. -/
theorem newChild_cases (distinct : t.root.labels.Nodup) {parent : ClusterId} {dx dy : Int}
    (h : t.newChild parent dx dy = .ok (id, u)) : ∃ path c q, t.root.at? path = some c ∧
      c.id = parent ∧ dx = q.dx ∧ dy = q.dy ∧ t.range.minScale < c.square.scale ∧
      (t.root.under path).child q = .absent ∧ id = t.labels.takeCluster.1 ∧ u = { t with
        root := t.root.graft path ((t.root.under path).setChild q
          (.leaf (.empty id (c.square.quadrant q))))
        labels := t.labels.takeCluster.2 } := by
  have answered := h
  rw [newChild] at h
  split at h
  · cases h
  · cases h
  next c nw ne sw se found =>
  obtain ⟨path, d, hd, rfl, under_eq⟩ := exists_of_branch? distinct found
  have top : some d = some c := by rw [← hd, Branch.at?, ← under_eq]; rfl
  obtain rfl := Option.some.inj top
  split at h
  · cases h
  next splits =>
  split at h
  · cases h
  next q directions =>
  split at h
  · cases h
  next absent =>
  obtain ⟨rfl, rfl⟩ := Quadrant.ofDirections_eq_ok_iff.mp directions
  have fine : t.range.minScale < d.square.scale := by simpa [Tree.splits] using splits
  have free : (t.root.under path).child q = .absent := by rw [← under_eq, absent]
  rw [newChild_eq distinct hd fine free, Except.ok.injEq, Prod.mk.injEq] at answered
  obtain ⟨rfl, made⟩ := answered
  exact ⟨path, d, q, hd, rfl, rfl, rfl, fine, free, rfl, made.symm⟩

theorem Labelled.regrown_addFrom (h : t.Labelled) (distinct : t.root.labels.Nodup)
    {l : Logged IndexWarning Tree} (hl : t.addFrom start p = .ok l) :
    l.value = t ∨ t.Regrown l.value := by
  obtain same | ⟨path, c, position, hc, -, grown⟩ := addFrom_cases distinct hl
  · exact .inl same
  · refine .inr ⟨path, _, _, Option.isSome_of_eq_some hc, ?_, ?_, Branch.draws_grow _ _, grown⟩
    · rw [← h.levelsBelow_eq hc, ← h.sound.placed hc]
      exact (h.sound_under hc).grow
    · rintro rfl
      rw [Branch.label?_grow hc]
      exact h.rooted

theorem Labelled.regrown_removeFrom (h : t.Labelled) (distinct : t.root.labels.Nodup)
    (hu : t.removeFrom start p = .ok u) : u = t ∨ t.Regrown u := by
  obtain same | ⟨path, c, hc, -, scrubbed⟩ := removeFrom_cases distinct hu
  · exact .inl same
  · refine .inr ⟨path, _, t.labels, Option.isSome_of_eq_some hc, (h.sound.under path).scrubFrom _,
      fun at_root => ?_, Branch.draws_of_sublist (Branch.labels_scrubFrom_sublist _) _, scrubbed⟩
    have first := (h.eq_nil_iff distinct hc).mp at_root
    subst at_root
    rw [first, beq_self_eq_true, Branch.label?_scrubFrom_root]
    exact h.rooted

/-- Removing takes no labels. -/
theorem labels_removeFrom (hu : t.removeFrom start p = .ok u) : u.labels = t.labels := by
  rw [removeFrom] at hu
  split at hu
  · rw [Except.ok.inj hu]
  · split at hu
    · simp at hu
    · rw [← Except.ok.inj hu]

theorem Labelled.regrown_add (h : t.Labelled) (distinct : t.root.labels.Nodup) (p : Placement) :
    (t.add p).value = t ∨ t.Regrown (t.add p).value :=
  h.regrown_addFrom distinct (h.addFrom_root distinct p)

theorem Labelled.regrown_remove (h : t.Labelled) (distinct : t.root.labels.Nodup)
    (p : Placement) : t.remove p = t ∨ t.Regrown (t.remove p) :=
  h.regrown_removeFrom distinct (h.removeFrom_root distinct p)

/-- A tree that is updated from the root down keeps its root meanwhile. -/
theorem Labelled.updateFrom_root (h : t.Labelled) (room : t.labels.clusters ≤ UInt32.size)
    (p : Placement) : t.updateFrom rootId p = .ok (t.update p) := by
  have removed := h.removeFrom_root (h.nodup room) p
  have hlabels := labels_removeFrom removed
  have rest : (t.remove p).Labelled := by
    obtain same | grown := h.regrown_remove (h.nodup room) p
    · rw [same]
      exact h
    · exact grown.labelled h
  simp only [updateFrom, removed, bind, Except.bind, rest.isRegistered_root, if_true]
  exact rest.addFrom_root (rest.nodup (hlabels ▸ room)) p

theorem Labelled.regrown_newChild (h : t.Labelled) (distinct : t.root.labels.Nodup)
    (hc : t.root.at? path = some c) (fine : t.range.minScale < c.square.scale)
    (free : (t.root.under path).child q = .absent) :
    ∃ id u, t.newChild c.id q.dx q.dy = .ok (id, u) ∧ t.Regrown u := by
  have htop : (t.root.under path).top?.isSome := Option.isSome_of_eq_some hc
  refine ⟨_, _, newChild_eq distinct hc fine free, path, _, _, Option.isSome_of_eq_some hc, ?_, ?_,
    Branch.draws_setChild_leaf htop free t.labels (c.square.quadrant q), rfl⟩
  · have under := h.sound_under hc
    rw [← h.levelsBelow_eq hc, ← h.sound.placed hc]
    obtain ⟨below, hbelow⟩ : ∃ below, t.levelsBelow c.square.scale = below + 1 :=
      ⟨t.levelsBelow c.square.scale - 1, by rw [levelsBelow]; omega⟩
    rw [hbelow] at under ⊢
    exact under.setChild htop (Branch.anchored_leaf _).sound
  · rintro rfl
    rw [Branch.label?, Branch.top?_setChild]
    exact h.rooted

theorem Labelled.regrown_delete (h : t.Labelled) (distinct : t.root.labels.Nodup)
    (hc : t.root.at? path = some c) (other : c.id ≠ rootId) :
    ∃ u, t.delete c.id = .ok u ∧ t.Regrown u := by
  refine ⟨_, delete_eq distinct hc other, path, .absent, t.labels, Option.isSome_of_eq_some hc,
    Branch.sound_absent, fun at_root => ?_, Branch.draws_absent _ _, rfl⟩
  exact absurd ((h.eq_nil_iff distinct hc).mp at_root) other

/-! ### Calls -/

end Tree

inductive TreeCall where
  | newChild (parent : ClusterId) (dx dy : Int)
  | add (p : Placement)
  | addFrom (start : ClusterId) (p : Placement)
  | remove (p : Placement)
  | removeFrom (start : ClusterId) (p : Placement)
  | update (p : Placement)
  | updateFrom (start : ClusterId) (p : Placement)
  | delete (id : ClusterId)

namespace Tree

/-- The tree after a call, or the fault that answers it. A deletion that is refused changes
nothing. -/
def answer (t : Tree) : TreeCall → Except Fault Tree
  | .newChild parent dx dy => (t.newChild parent dx dy).map (·.2)
  | .add p => .ok (t.add p).value
  | .addFrom start p => (t.addFrom start p).map (·.value)
  | .remove p => .ok (t.remove p)
  | .removeFrom start p => t.removeFrom start p
  | .update p => .ok (t.update p).value
  | .updateFrom start p => (t.updateFrom start p).map (·.value)
  | .delete id =>
    match t.delete id with
    | .ok u => .ok u
    | .error _ => .ok t

/-- What has come out of a mapped answer came from an answer. -/
theorem exists_of_map_eq_ok {ε α β : Type} {answered : Except ε α} {f : α → β} {y : β}
    (h : answered.map f = .ok y) : ∃ x, answered = .ok x ∧ f x = y := by
  cases answered with
  | error fault => cases h
  | ok x => exact ⟨x, rfl, Except.ok.inj h⟩

/-- What a caller has to see to. A cluster to start from is registered, and a new child goes into
a free quadrant of a registered cluster above the finest scale. -/
def Admissible (t : Tree) : TreeCall → Prop
  | .newChild parent dx dy => ∃ e q, t.entry? parent = some e ∧ dx = q.dx ∧ dy = q.dy ∧
      t.range.minScale < e.cluster.square.scale ∧ e.slot q = none
  | .addFrom start _ | .removeFrom start _ | .updateFrom start _ => (t.entry? start).isSome
  | .add _ | .remove _ | .update _ | .delete _ => True

/-- The trees over some scales that admissible calls lead to while labels last. -/
inductive Reachable (range : ScaleRange) : Tree → Prop
  | created {t : Tree} : create range = .ok t → Reachable range t
  | answered {t u : Tree} {call : TreeCall} : Reachable range t → t.Admissible call →
      t.answer call = .ok u → u.labels.clusters < UInt32.size → Reachable range u

variable {range : ScaleRange} {t u : Tree} {call : TreeCall}

/-- A call turns a labelled tree into another one and takes labels at most. -/
structure Continues (t u : Tree) : Prop where
  labelled : u.Labelled
  le : t.labels.clusters ≤ u.labels.clusters
  range_eq : u.range = t.range

theorem Labelled.continues_of (h : t.Labelled) (hu : u = t ∨ t.Regrown u) : t.Continues u := by
  obtain rfl | grown := hu
  · exact ⟨h, Nat.le_refl _, rfl⟩
  · exact ⟨grown.labelled h, grown.le, grown.range_eq⟩

theorem Continues.trans {v : Tree} (h : t.Continues u) (next : u.Continues v) : t.Continues v :=
  ⟨next.labelled, Nat.le_trans h.le next.le, next.range_eq.trans h.range_eq⟩

/-- An update is a removal, and an indexing of what the removal has left. -/
theorem Labelled.updateFrom_steps (h : t.Labelled) (room : t.labels.clusters ≤ UInt32.size)
    {start : ClusterId} {p : Placement} {l : Logged IndexWarning Tree}
    (hl : t.updateFrom start p = .ok l) :
    ∃ rest again, (again = start ∨ again = rootId) ∧ t.removeFrom start p = .ok rest ∧
      rest.Labelled ∧ rest.root.labels.Nodup ∧ rest.addFrom again p = .ok l := by
  obtain ⟨rest, hrest, hadd⟩ := updateFrom_cases hl
  have removed := h.continues_of (h.regrown_removeFrom (h.nodup room) hrest)
  have distinct := removed.labelled.nodup (labels_removeFrom hrest ▸ room)
  obtain hadd | rfl := hadd
  · exact ⟨rest, start, .inl rfl, hrest, removed.labelled, distinct, hadd⟩
  · exact ⟨rest, rootId, .inr rfl, hrest, removed.labelled, distinct,
      removed.labelled.addFrom_root distinct p⟩

theorem isSome_entry?_iff (distinct : t.root.labels.Nodup) {id : ClusterId} :
    (t.entry? id).isSome ↔ t.isRegistered id = true := by
  rw [Option.isSome_iff_exists, isRegistered_iff]
  constructor
  · rintro ⟨e, he⟩
    obtain ⟨path, c, hc, hid, -⟩ := (entry?_iff distinct).mp he
    exact ⟨path, c, hc, hid⟩
  · rintro ⟨path, c, hc, rfl⟩
    exact ⟨_, entry?_of_at? distinct hc⟩

/-- What a caller has to see to before making a child is all that can go wrong. -/
theorem newChild_answered_iff (distinct : t.root.labels.Nodup) {parent : ClusterId} {dx dy : Int} :
    (∃ made, t.newChild parent dx dy = .ok made) ↔ t.Admissible (.newChild parent dx dy) := by
  constructor
  · rintro ⟨⟨id, u⟩, hu⟩
    obtain ⟨path, c, q, hc, rfl, hx, hy, fine, free, -⟩ := newChild_cases distinct hu
    refine ⟨_, q, entry?_of_at? distinct hc, hx, hy, fine, ?_⟩
    rw [Branch.entryAt_slot, Branch.labelAt?, Branch.at?_append]
    exact Option.map_eq_none_iff.mpr (Branch.top?_eq_none_iff.mpr free)
  · rintro ⟨e, q, he, rfl, rfl, fine, free⟩
    obtain ⟨path, c, hc, rfl, rfl⟩ := (entry?_iff distinct).mp he
    exact ⟨_, newChild_eq distinct hc fine (Branch.child_eq_absent_of_slot free)⟩

/-- From a registered cluster entities are indexed and removed without fault. -/
theorem exists_addFrom {start : ClusterId} (h : t.isRegistered start = true) (p : Placement) :
    ∃ l, t.addFrom start p = .ok l := by
  obtain ⟨b, hb⟩ := Option.isSome_iff_exists.mp h
  rw [addFrom]
  split
  · exact ⟨_, rfl⟩
  · split
    · exact ⟨_, rfl⟩
    · rw [hb]
      exact ⟨_, rfl⟩

theorem exists_removeFrom {start : ClusterId} (h : t.isRegistered start = true) (p : Placement) :
    ∃ u, t.removeFrom start p = .ok u := by
  obtain ⟨b, hb⟩ := Option.isSome_iff_exists.mp h
  rw [removeFrom]
  split
  · exact ⟨_, rfl⟩
  · rw [hb]
    exact ⟨_, rfl⟩

theorem Labelled.exists_updateFrom (h : t.Labelled) (room : t.labels.clusters ≤ UInt32.size)
    {start : ClusterId} (registered : t.isRegistered start = true) (p : Placement) :
    ∃ l, t.updateFrom start p = .ok l ∧ t.Continues l.value := by
  obtain ⟨rest, hrest⟩ := exists_removeFrom registered p
  have removed := h.continues_of (h.regrown_removeFrom (h.nodup room) hrest)
  have distinct := removed.labelled.nodup (labels_removeFrom hrest ▸ room)
  -- the cluster may have gone with what was removed
  by_cases stays : rest.isRegistered start = true
  · obtain ⟨l, hl⟩ := exists_addFrom stays p
    refine ⟨l, ?_, removed.trans
      (removed.labelled.continues_of (removed.labelled.regrown_addFrom distinct hl))⟩
    simp only [updateFrom, hrest, bind, Except.bind, stays, if_true, hl]
  · refine ⟨rest.add p, ?_, removed.trans
      (removed.labelled.continues_of (removed.labelled.regrown_add distinct p))⟩
    simp only [updateFrom, hrest, bind, Except.bind, stays]
    rfl

/-- An admissible call is answered by a tree that continues the one before. -/
theorem Labelled.answer (h : t.Labelled) (room : t.labels.clusters ≤ UInt32.size)
    (admissible : t.Admissible call) : ∃ u, t.answer call = .ok u ∧ t.Continues u := by
  have distinct := h.nodup room
  cases call with
  | newChild parent dx dy =>
    obtain ⟨e, q, he, rfl, rfl, fine, free⟩ := admissible
    obtain ⟨path, c, hc, rfl, rfl⟩ := (entry?_iff distinct).mp he
    obtain ⟨id, u, hu, grown⟩ :=
      h.regrown_newChild distinct hc fine (Branch.child_eq_absent_of_slot free)
    refine ⟨u, ?_, h.continues_of (.inr grown)⟩
    rw [Tree.answer, hu]
    rfl
  | add p => exact ⟨_, rfl, h.continues_of (h.regrown_add distinct p)⟩
  | remove p => exact ⟨_, rfl, h.continues_of (h.regrown_remove distinct p)⟩
  | update p =>
    obtain ⟨u, hu, continues⟩ := h.exists_updateFrom room h.isRegistered_root p
    rw [h.updateFrom_root room] at hu
    exact ⟨_, rfl, Except.ok.inj hu ▸ continues⟩
  | addFrom start p =>
    obtain ⟨l, hl⟩ := exists_addFrom ((isSome_entry?_iff distinct).mp admissible) p
    refine ⟨l.value, ?_, h.continues_of (h.regrown_addFrom distinct hl)⟩
    rw [Tree.answer, hl]
    rfl
  | removeFrom start p =>
    obtain ⟨u, hu⟩ := exists_removeFrom ((isSome_entry?_iff distinct).mp admissible) p
    exact ⟨u, hu, h.continues_of (h.regrown_removeFrom distinct hu)⟩
  | updateFrom start p =>
    obtain ⟨u, hu, continues⟩ :=
      h.exists_updateFrom room ((isSome_entry?_iff distinct).mp admissible) p
    refine ⟨u.value, ?_, continues⟩
    rw [Tree.answer, hu]
    rfl
  | delete id =>
    by_cases at_root : id = rootId
    · refine ⟨t, ?_, h.continues_of (.inl rfl)⟩
      rw [Tree.answer, delete, if_pos at_root]
    · by_cases registered : t.isRegistered id = true
      · obtain ⟨path, c, hc, rfl⟩ := isRegistered_iff.mp registered
        obtain ⟨u, hu, grown⟩ := h.regrown_delete distinct hc at_root
        refine ⟨u, ?_, h.continues_of (.inr grown)⟩
        rw [Tree.answer, hu]
      · refine ⟨t, ?_, h.continues_of (.inl rfl)⟩
        simp only [Tree.answer, delete, if_neg at_root, registered, Bool.not_false, if_true]

theorem Reachable.labelled (h : Reachable range t) :
    t.Labelled ∧ t.labels.clusters < UInt32.size ∧ t.range = range := by
  induction h with
  | created ht =>
    obtain ⟨hrange, -, hlabels⟩ := create_eq ht
    exact ⟨labelled_create ht, by rw [hlabels]; decide, hrange⟩
  | answered _ admissible hu room ih =>
    obtain ⟨labelled, before, hrange⟩ := ih
    obtain ⟨v, hv, continues⟩ := labelled.answer (Nat.le_of_lt before) admissible
    obtain rfl := Except.ok.inj (hu.symm.trans hv)
    exact ⟨continues.labelled, room, continues.range_eq.trans hrange⟩

end Tree

end RailAtlas
