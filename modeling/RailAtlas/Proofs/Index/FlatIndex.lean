import RailAtlas.Proofs.Index.Removal

/-!
# The tree as a flat map

A flat index has no tree in it: it is a partial map from a place, an owner and an entity to what
is recorded there. Adding an entity sets its entries on the descent of its point, removing it
clears its entries at every place, whatever put them there.

A tree that is only changed from the root down represents such a map, one operation at a time. Its
clusters are the root and the places that occur in the map, and its chunks hold exactly the
entries of the map. No assumption is made about the placements: points may lie outside the world
square or be missing, an entity may be added again elsewhere or under another owner without having
been removed, and what is removed need not be there.
-/

namespace RailAtlas

/-- What is recorded at a place about an owner's entity. -/
def FlatIndex : Type :=
  List Quadrant → OwnerId → EntityId → Option Member

namespace FlatIndex

def empty : FlatIndex := fun _ _ _ => none

/-- Record an entity on the whole descent of its point. Bookkeeping kinds and entities without a
finite position are left out. -/
def add (range : ScaleRange) (M : FlatIndex) (p : Placement) : FlatIndex :=
  if p.kind.isSpatial then
    match p.position? with
    | none => M
    | some position => fun path owner entity =>
      if Descent range position path ∧ owner = p.owner ∧ entity = p.id then
        some { kind := p.kind, point := position, target := p.target }
      else M path owner entity
  else M

/-- Clear the entries of an owner's entity at every place. -/
def remove (M : FlatIndex) (p : Placement) : FlatIndex :=
  if p.kind.isSpatial then fun path owner entity =>
    if owner = p.owner ∧ entity = p.id then none else M path owner entity
  else M

/-- Clear the entries of an entity, then record it anew. -/
def update (range : ScaleRange) (M : FlatIndex) (p : Placement) : FlatIndex :=
  (M.remove p).add range p

section Entry

variable {range : ScaleRange} {M N : FlatIndex} {p : Placement} {path : List Quadrant}
variable {owner : OwnerId} {entity : EntityId}

theorem add_of_position {position : Point} (spatial : p.kind.isSpatial = true)
    (hp : p.position? = some position) : M.add range p path owner entity =
      if Descent range position path ∧ owner = p.owner ∧ entity = p.id then
        some (p.member position)
      else M path owner entity := by
  rw [add, if_pos spatial, hp, Placement.member]

theorem add_of_unplaced (h : p.kind.isSpatial = true → p.position? = none) :
    M.add range p = M := by
  rw [add]
  split
  · next spatial => rw [h spatial]
  · rfl

theorem add_of_ne (h : entity ≠ p.id) : M.add range p path owner entity = M path owner entity := by
  rw [add]
  cases p.kind.isSpatial with
  | false => rfl
  | true =>
    cases p.position? with
    | none => rfl
    | some position => exact if_neg fun same => h same.2.2

theorem remove_of_ne (h : entity ≠ p.id) : M.remove p path owner entity = M path owner entity := by
  rw [remove]
  cases p.kind.isSpatial with
  | false => rfl
  | true => exact if_neg fun same => h same.2

/-- What adding makes of an entry depends on this entry only. -/
theorem add_congr (h : M path owner entity = N path owner entity) :
    M.add range p path owner entity = N.add range p path owner entity := by
  unfold add
  cases p.kind.isSpatial with
  | false => exact h
  | true =>
    cases p.position? with
    | none => exact h
    | some position => simp [h]

/-- Removal leaves nothing of an entity that is recorded for its owner at most. -/
theorem remove_self (h : (M path owner p.id).isSome → owner = p.owner ∧ p.kind.isSpatial = true) :
    M.remove p path owner p.id = none := by
  rw [remove]
  cases hm : M path owner p.id with
  | none => cases p.kind.isSpatial <;> simp [hm]
  | some m =>
    obtain ⟨howner, hspatial⟩ := h (Option.isSome_of_eq_some hm)
    simp [hspatial, howner]

/-- The entries of a single entity. -/
theorem add_empty_eq_some_iff {m : Member} : empty.add range p path owner entity = some m ↔
    p.kind.isSpatial = true ∧ owner = p.owner ∧ entity = p.id ∧
      ∃ position, p.position? = some position ∧ Descent range position path ∧
        m = p.member position := by
  by_cases spatial : p.kind.isSpatial = true
  · cases hp : p.position? with
    | none => simp [add_of_unplaced fun _ => hp, empty]
    | some position =>
      rw [add_of_position spatial hp]
      constructor
      · intro h
        obtain ⟨⟨hd, ho, he⟩, hm⟩ := Option.ite_none_right_eq_some.mp h
        exact ⟨spatial, ho, he, position, rfl, hd, (Option.some.inj hm).symm⟩
      · rintro ⟨-, ho, he, found, hfound, hd, rfl⟩
        obtain rfl := Option.some.inj hfound
        exact if_pos ⟨hd, ho, he⟩
  · simp [add_of_unplaced fun h => absurd h spatial, empty, spatial]

end Entry

def Occurs (M : FlatIndex) (path : List Quadrant) : Prop :=
  ∃ owner entity, (M path owner entity).isSome

end FlatIndex

/-- A change of the index that starts at the root. -/
inductive RootOperation where
  | add (p : Placement)
  | remove (p : Placement)
  | update (p : Placement)

def FlatIndex.perform (range : ScaleRange) (M : FlatIndex) : RootOperation → FlatIndex
  | .add p => M.add range p
  | .remove p => M.remove p
  | .update p => M.update range p

namespace Tree

variable {range : ScaleRange} {t : Tree} {p : Placement} {path : List Quadrant}
variable {owner : OwnerId} {entity : EntityId}

/-- Apply a change to a tree; notices are left out. -/
def perform (t : Tree) : RootOperation → Tree
  | .add p => (t.add p).value
  | .remove p => t.remove p
  | .update p => (t.update p).value

/-- What a tree records, without its clusters. -/
def contents (t : Tree) : FlatIndex := t.root.memberAt?

/-- The tree is anchored over the world square of its range. -/
def Anchored (t : Tree) : Prop :=
  t.root.Anchored (t.range.maxScale - t.range.minScale).toNat (worldSquare t.range)

/-! ### One operation -/

theorem create_eq (h : create range = .ok t) : t.range = range ∧
    t.root = .leaf (.empty rootId (worldSquare range)) ∧ t.labels = ⟨1, 0⟩ := by
  rw [create] at h
  cases hv : range.validate with
  | error cause => simp [hv, bind, Except.bind] at h
  | ok u =>
    simp only [hv, bind, Except.bind, pure, Except.pure, Except.ok.injEq] at h
    subst h
    exact ⟨rfl, rfl, rfl⟩

theorem anchored_create (h : create range = .ok t) : t.Anchored := by
  obtain ⟨hrange, hroot, -⟩ := create_eq h
  rw [Anchored, hrange, hroot]
  exact Branch.anchored_leaf rootId

theorem contents_create (h : create range = .ok t) : t.contents = .empty := by
  obtain ⟨-, hroot, -⟩ := create_eq h
  funext path owner entity
  rw [contents, hroot]
  rcases path with _ | ⟨q, path⟩
  · simp [Branch.memberAt?, Branch.leaf, FlatIndex.empty]
  · cases q <;> simp [Branch.memberAt?, Branch.leaf, Branch.child, FlatIndex.empty]

@[simp] theorem range_add : (t.add p).value.range = t.range := by
  rw [add]
  split
  · rfl
  · split <;> rfl

@[simp] theorem range_remove : (t.remove p).range = t.range := by
  rw [remove]
  split <;> rfl

/-- What adding does to the root branch. -/
theorem root_add : (t.add p).value.root =
    if p.kind.isSpatial then
      match p.position? with
      | none => t.root
      | some position => (t.root.grow p.owner p.id (p.member position)
          (t.range.maxScale - t.range.minScale).toNat (worldSquare t.range) t.labels).branch
    else t.root := by
  rw [add]
  cases p.kind.isSpatial with
  | false => rfl
  | true => cases p.position? <;> rfl

theorem root_remove : (t.remove p).root =
    if p.kind.isSpatial then t.root.scrubFrom true p.owner p.id else t.root := by
  rw [remove]
  cases p.kind.isSpatial <;> rfl

namespace Anchored

theorem add (h : t.Anchored) (p : Placement) : (t.add p).value.Anchored := by
  rw [Anchored] at h ⊢
  rw [range_add, root_add]
  split
  · split
    · exact h
    · exact h.grow
  · exact h

theorem remove (h : t.Anchored) (p : Placement) : (t.remove p).Anchored := by
  rw [Anchored] at h ⊢
  rw [range_remove, root_remove]
  split
  · exact h.scrubFrom
  · exact h

theorem contents_add (h : t.Anchored) (p : Placement) :
    (t.add p).value.contents = t.contents.add t.range p := by
  funext path owner entity
  rw [contents, root_add, FlatIndex.add]
  cases p.kind.isSpatial with
  | false => rfl
  | true =>
    cases p.position? with
    | none => rfl
    | some position =>
      simp only [if_true, h.sound.memberAt?_grow, Descent.iff_visits, contents]
      rfl

theorem contents_remove (h : t.Anchored) (p : Placement) :
    (t.remove p).contents = t.contents.remove p := by
  funext path owner entity
  rw [contents, root_remove, FlatIndex.remove]
  cases p.kind.isSpatial with
  | false => rfl
  | true => exact Branch.Anchored.memberAt?_scrubFrom h

theorem update (h : t.Anchored) (p : Placement) : (t.update p).value.Anchored :=
  (h.remove p).add p

theorem contents_update (h : t.Anchored) (p : Placement) :
    (t.update p).value.contents = t.contents.update t.range p := by
  rw [Tree.update, (h.remove p).contents_add, h.contents_remove, range_remove, FlatIndex.update]

/-- One operation on the tree is the same operation on the flat map. -/
theorem perform (h : t.Anchored) (op : RootOperation) : (t.perform op).Anchored ∧
    (t.perform op).range = t.range ∧
      (t.perform op).contents = t.contents.perform t.range op := by
  cases op with
  | add p => exact ⟨h.add p, range_add, h.contents_add p⟩
  | remove p => exact ⟨h.remove p, range_remove, h.contents_remove p⟩
  | update p => exact ⟨h.update p, by simp [Tree.perform, Tree.update], h.contents_update p⟩

/-- The clusters of an anchored tree are the root and the places that occur in its contents. -/
theorem isSome_at?_iff (h : t.Anchored) :
    (t.root.at? path).isSome ↔ path = [] ∨ t.contents.Occurs path :=
  Branch.Anchored.isSome_at?_iff h

/-- An owner has a chunk at a place exactly if something is recorded for the owner there. -/
theorem isSome_bucket?_iff (h : t.Anchored) :
    ((t.root.at? path).bind (·.bucket? owner)).isSome ↔
      ∃ entity, (t.contents path owner entity).isSome := by
  unfold contents Branch.memberAt?
  cases hc : t.root.at? path with
  | none => simp
  | some c => exact (h.sound.tidy hc).isSome_bucket?_iff

end Anchored

/-! ### A whole run -/

/-- A run of operations keeps the tree anchored and does to its contents what it does to the flat
map. -/
theorem run_refines (h : create range = .ok t) (ops : List RootOperation) :
    (ops.foldl perform t).Anchored ∧ (ops.foldl perform t).range = range ∧
      (ops.foldl perform t).contents = ops.foldl (FlatIndex.perform range) .empty := by
  have carried : ∀ (ops : List RootOperation) (t : Tree), t.Anchored → t.range = range →
      (ops.foldl perform t).Anchored ∧ (ops.foldl perform t).range = range ∧
        (ops.foldl perform t).contents = ops.foldl (FlatIndex.perform range) t.contents := by
    intro ops
    induction ops with
    | nil => exact fun t anchored hrange => ⟨anchored, hrange, rfl⟩
    | cons op ops ih =>
      intro t anchored hrange
      obtain ⟨hanchored, hkept, hcontents⟩ := anchored.perform op
      rw [List.foldl_cons, List.foldl_cons, ← hrange, ← hcontents]
      rw [hrange]
      exact ih _ hanchored (hkept.trans hrange)
  rw [← contents_create h]
  exact carried ops t (anchored_create h) (create_eq h).1

/-- A valid range has a fresh tree. -/
theorem exists_create (valid : range.validate = .ok ()) : ∃ t, create range = .ok t := by
  rw [create]
  rw [valid]
  exact ⟨_, rfl⟩

/-- The tree represents the flat map after every run: its clusters stand at the root and at the
places that occur in the map, one at each and over the square of the place, and every chunk holds
what the map says. -/
theorem represents_flatIndex (valid : range.validate = .ok ()) (ops : List RootOperation) :
    let M := ops.foldl (FlatIndex.perform range) .empty
    ∃ fresh, create range = .ok fresh ∧
      let root := (ops.foldl perform fresh).root
      root.places.Nodup ∧ root.places.map root.at? = root.clusters.map some ∧
      (∀ path, path ∈ root.places ↔ path = [] ∨ M.Occurs path) ∧
      (∀ path c, root.at? path = some c → c.square = (worldSquare range).along path) ∧
      (∀ path owner, ((root.at? path).bind (·.bucket? owner)).isSome ↔
        ∃ entity, (M path owner entity).isSome) ∧
      (∀ path c owner chunk, root.at? path = some c → c.bucket? owner = some chunk →
        chunk.owner = owner ∧ chunk.home = c.id ∧ chunk.square = c.square ∧
          ∀ entity, chunk.get? entity = M path owner entity) := by
  intro M
  obtain ⟨fresh, hfresh⟩ := exists_create valid
  obtain ⟨anchored, hrange, hcontents⟩ := run_refines hfresh ops
  have hM : (ops.foldl perform fresh).contents = M := hcontents
  refine ⟨fresh, hfresh, Branch.nodup_places, Branch.map_at?_places, ?_, ?_, ?_, ?_⟩
  · intro path
    rw [Branch.mem_places_iff, anchored.isSome_at?_iff, hM]
  · intro path c hc
    rw [anchored.sound.placed hc, hrange]
  · intro path owner
    rw [anchored.isSome_bucket?_iff, hM]
  · intro path c owner chunk hc hb
    have tidy := anchored.sound.tidy hc
    refine ⟨tidy.owner hb, tidy.home hb, tidy.square hb, ?_⟩
    intro entity
    rw [← hM, contents, Branch.memberAt?_of_at? hc, Cluster.member?, hb, Option.bind_some]

/-- A residence south east of the center has a cluster over the quadrant to itself. -/
theorem represents_flatIndex_residence :
    let p : Placement := ⟨.ofNat 1, ⟨2⟩, .residence, some ⟨1, 1⟩, none⟩
    ScaleRange.validate ⟨3, 2⟩ = .ok () ∧ ∃ fresh, create ⟨3, 2⟩ = .ok fresh ∧
      [.southEast] ∈ ([.add p].foldl perform fresh).root.places := by
  intro p
  have valid : ScaleRange.validate ⟨3, 2⟩ = .ok () := by decide
  obtain ⟨fresh, hfresh, -, -, hplaces, -⟩ := represents_flatIndex valid [.add p]
  refine ⟨valid, fresh, hfresh, (hplaces _).mpr (.inr ⟨p.owner, p.id, ?_⟩)⟩
  decide

end Tree

end RailAtlas
