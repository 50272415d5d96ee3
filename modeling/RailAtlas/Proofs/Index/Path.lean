import Mathlib.Data.List.Induction
import Mathlib.Data.List.Nodup
import RailAtlas.Proofs.Index.Membership

/-!
# Clusters by their place

The place of a cluster is the path of quadrants that leads to it from the top of a branch. A
branch is read as a partial map from paths to clusters, and what the operations do to a branch is
stated by this map alone: labels play no part in it, and the four quadrants need not be told apart.

`Square.along` computes the square that belongs to a place from the square of the top. A branch
is `Sound` over a square if its clusters are tidy, cover the squares of their places and lie within
the levels that the branch may have.
-/

namespace RailAtlas

namespace Quadrant

theorem mem_all (q : Quadrant) : q ∈ all := by
  cases q <;> decide

theorem find?_all {f : Quadrant → Bool} {q : Quadrant} (h : ∀ p, f p = true ↔ p = q) :
    all.find? f = some q := by
  have hit : f q = true := (h q).mpr rfl
  have miss : ∀ p, p ≠ q → f p = false := by
    intro p hp
    rw [← Bool.not_eq_true, h]
    exact hp
  cases q <;> simp [all, hit, miss]

theorem forall_iff {P : Quadrant → Prop} :
    (∀ q, P q) ↔ P .northWest ∧ P .northEast ∧ P .southWest ∧ P .southEast := by
  constructor
  · intro h
    exact ⟨h _, h _, h _, h _⟩
  · rintro ⟨hnw, hne, hsw, hse⟩ q
    cases q <;> assumption

theorem exists_iff {P : Quadrant → Prop} :
    (∃ q, P q) ↔ P .northWest ∨ P .northEast ∨ P .southWest ∨ P .southEast := by
  constructor
  · rintro ⟨q, hq⟩
    cases q <;> simp [hq]
  · rintro (h | h | h | h) <;> exact ⟨_, h⟩

end Quadrant

namespace Square

/-- The square at the end of a path. -/
def along (s : Square) : List Quadrant → Square
  | [] => s
  | q :: path => (s.quadrant q).along path

variable {s : Square}

@[simp] theorem along_nil : s.along [] = s := rfl

@[simp] theorem along_cons (q : Quadrant) (path : List Quadrant) :
    s.along (q :: path) = (s.quadrant q).along path := rfl

theorem along_append (front back : List Quadrant) :
    s.along (front ++ back) = (s.along front).along back := by
  induction front generalizing s with
  | nil => rfl
  | cons q front ih => exact ih

theorem scale_along (path : List Quadrant) : (s.along path).scale = s.scale - path.length := by
  induction path generalizing s with
  | nil => simp
  | cons q path ih =>
    rw [along_cons, ih]
    simp only [quadrant, List.length_cons]
    omega

end Square

namespace Branch

variable {b : Branch} {c : Cluster} {q : Quadrant} {path : List Quadrant}

/-- Induction from the quadrants of a cluster to the branch over all of them. -/
@[elab_as_elim] theorem quadrant_induction {motive : Branch → Prop} (absent : motive .absent)
    (node : ∀ c nw ne sw se, (∀ q, motive ((Branch.node c nw ne sw se).child q)) →
      motive (.node c nw ne sw se)) (b : Branch) : motive b := by
  induction b with
  | absent => exact absent
  | node c nw ne sw se ihNW ihNE ihSW ihSE =>
    apply node c nw ne sw se
    intro q
    cases q with
    | northWest => exact ihNW
    | northEast => exact ihNE
    | southWest => exact ihSW
    | southEast => exact ihSE

/-- The branch at the end of a path. -/
def under (b : Branch) : List Quadrant → Branch
  | [] => b
  | q :: path => (b.child q).under path

/-- The cluster at the end of a path. -/
def at? (b : Branch) (path : List Quadrant) : Option Cluster :=
  (b.under path).top?

@[simp] theorem under_nil : b.under [] = b := rfl

@[simp] theorem under_cons : b.under (q :: path) = (b.child q).under path := rfl

@[simp] theorem child_absent : absent.child q = absent := by
  cases q <;> rfl

@[simp] theorem under_absent : absent.under path = absent := by
  induction path with
  | nil => rfl
  | cons q path ih => simpa using ih

theorem under_append (front back : List Quadrant) :
    b.under (front ++ back) = (b.under front).under back := by
  induction front generalizing b with
  | nil => rfl
  | cons q front ih => exact ih

@[simp] theorem at?_nil : b.at? [] = b.top? := rfl

@[simp] theorem at?_cons : b.at? (q :: path) = (b.child q).at? path := rfl

@[simp] theorem at?_absent : absent.at? path = none := by
  simp [at?, top?]

theorem at?_append (front back : List Quadrant) :
    b.at? (front ++ back) = (b.under front).at? back := by
  simp only [at?, under_append]

theorem top?_eq_none_iff : b.top? = none ↔ b = absent := by
  cases b <;> simp [top?]

/-- Above every cluster there is another, up to the top. -/
theorem isSome_at?_of_append {front back : List Quadrant} (h : (b.at? (front ++ back)).isSome) :
    (b.at? front).isSome := by
  rw [at?_append] at h
  rw [at?, Option.isSome_iff_ne_none, Ne, top?_eq_none_iff]
  intro gone
  simp [gone] at h

theorem isSome_top?_of_at? (h : (b.at? path).isSome) : b.top?.isSome :=
  @isSome_at?_of_append b [] path h

@[simp] theorem top?_absent : absent.top? = none := rfl

@[simp] theorem top?_node (c : Cluster) (nw ne sw se : Branch) :
    (node c nw ne sw se).top? = some c :=
  rfl

/-- The places of the clusters of a branch, in the order of `clusters`. -/
def places : Branch → List (List Quadrant)
  | absent => []
  | node _ nw ne sw se =>
    [] :: (nw.places.map (.northWest :: ·) ++ ne.places.map (.northEast :: ·) ++
      sw.places.map (.southWest :: ·) ++ se.places.map (.southEast :: ·))

theorem map_at?_places : b.places.map b.at? = b.clusters.map some := by
  induction b with
  | absent => rfl
  | node c nw ne sw se ihNW ihNE ihSW ihSE =>
    have entering : ∀ q, (node c nw ne sw se).at? ∘ (q :: ·) = ((node c nw ne sw se).child q).at? :=
      fun _ => rfl
    simp only [places, clusters, List.map_cons, List.map_append, List.map_map, entering, child,
      ihNW, ihNE, ihSW, ihSE]
    rfl

theorem mem_places_iff : path ∈ b.places ↔ (b.at? path).isSome := by
  induction b generalizing path with
  | absent => simp [places]
  | node c nw ne sw se ihNW ihNE ihSW ihSE =>
    rcases path with _ | ⟨q, path⟩
    · simp [places]
    · cases q <;> simp [places, child, ihNW, ihNE, ihSW, ihSE]

theorem nodup_places : b.places.Nodup := by
  induction b with
  | absent => simp [places]
  | node c nw ne sw se ihNW ihNE ihSW ihSE =>
    have entered : ∀ (q : Quadrant) (paths : List (List Quadrant)), paths.Nodup →
        (paths.map (q :: ·)).Nodup := fun q paths h =>
      List.Nodup.map (fun _ _ same => (List.cons.inj same).2) h
    have apart : ∀ {q r : Quadrant} {paths others : List (List Quadrant)}, q ≠ r →
        (paths.map (q :: ·)).Disjoint (others.map (r :: ·)) := by
      intro q r paths others hqr path hq hr
      obtain ⟨_, -, rfl⟩ := List.mem_map.mp hq
      obtain ⟨_, -, same⟩ := List.mem_map.mp hr
      exact hqr (List.cons.inj same).1.symm
    simp only [places, List.nodup_cons, List.nodup_append', List.disjoint_append_left]
    refine ⟨by simp, ⟨⟨⟨entered _ _ ihNW, entered _ _ ihNE, ?_⟩, entered _ _ ihSW, ?_, ?_⟩,
      entered _ _ ihSE, ⟨?_, ?_⟩, ?_⟩⟩
    all_goals exact apart (by decide)

/-- A cluster is listed exactly if it has a place. -/
theorem mem_clusters_iff : c ∈ b.clusters ↔ ∃ path, b.at? path = some c := by
  have listed : c ∈ b.clusters ↔ some c ∈ b.clusters.map some := by simp
  rw [listed, ← map_at?_places, List.mem_map]
  constructor
  · rintro ⟨path, -, h⟩
    exact ⟨path, h⟩
  · rintro ⟨path, h⟩
    exact ⟨path, mem_places_iff.mpr (Option.isSome_of_eq_some h), h⟩

/-! ### Sound branches -/

/-- Every cluster of a branch over `square` is tidy and covers the square of its place, at most
`levels` scales below the top. -/
structure Sound (levels : Nat) (square : Square) (b : Branch) : Prop where
  tidy : ∀ {path c}, b.at? path = some c → c.Tidy
  placed : ∀ {path c}, b.at? path = some c → c.square = square.along path
  bounded : ∀ {path c}, b.at? path = some c → path.length ≤ levels

variable {levels : Nat} {square : Square}

theorem sound_absent : Sound levels square absent := by
  constructor <;> simp

theorem Sound.top_tidy (h : Sound levels square b) (hc : b.top? = some c) : c.Tidy :=
  @tidy levels square b h [] c hc

theorem Sound.top_square (h : Sound levels square b) (hc : b.top? = some c) : c.square = square :=
  @placed levels square b h [] c hc

theorem Sound.under (h : Sound levels square b) (path : List Quadrant) :
    Sound (levels - path.length) (square.along path) (b.under path) := by
  have at_end : ∀ {rest c}, (b.under path).at? rest = some c → b.at? (path ++ rest) = some c := by
    intro rest c hc
    rw [at?_append, hc]
  constructor
  · intro rest c hc
    exact h.tidy (at_end hc)
  · intro rest c hc
    rw [h.placed (at_end hc), Square.along_append]
  · intro rest c hc
    have := h.bounded (at_end hc)
    simp only [List.length_append] at this
    omega

theorem Sound.child (h : Sound (levels + 1) square b) (q : Quadrant) :
    Sound levels (square.quadrant q) (b.child q) :=
  h.under [q]

/-- A cluster in a quadrant takes one of the levels. -/
theorem Sound.exists_levels (h : Sound levels square b) (hc : (b.child q).top? = some c) :
    ∃ below, levels = below + 1 ∧ Sound below (square.quadrant q) (b.child q) := by
  have bounded : [q].length ≤ levels := h.bounded hc
  rw [List.length_singleton] at bounded
  obtain ⟨below, rfl⟩ := Nat.exists_eq_add_of_le' bounded
  exact ⟨below, rfl, h.child q⟩

/-- Soundness from the top cluster and the quadrants. -/
theorem sound_of_child (top : ∀ {c}, b.top? = some c → c.Tidy ∧ c.square = square)
    (below : ∀ q, Sound levels (square.quadrant q) (b.child q)) : Sound (levels + 1) square b := by
  constructor
  · rintro (_ | ⟨q, path⟩) c hc
    · exact (top hc).1
    · exact (below q).tidy hc
  · rintro (_ | ⟨q, path⟩) c hc
    · exact (top hc).2
    · exact (below q).placed hc
  · rintro (_ | ⟨q, path⟩) c hc
    · simp
    · have := (below q).bounded hc
      simpa using this

/-! ### Members by place -/

/-- What is recorded about an entity in the chunk of an owner, in the cluster at a place. -/
def memberAt? (b : Branch) (path : List Quadrant) (owner : OwnerId) (entity : EntityId) :
    Option Member :=
  (b.at? path).bind fun c => c.member? owner entity

variable {owner : OwnerId} {entity : EntityId}

theorem memberAt?_nil : b.memberAt? [] owner entity = b.top?.bind (·.member? owner entity) := rfl

@[simp] theorem memberAt?_cons :
    b.memberAt? (q :: path) owner entity = (b.child q).memberAt? path owner entity := rfl

theorem memberAt?_of_at? (h : b.at? path = some c) :
    b.memberAt? path owner entity = c.member? owner entity := by
  simp [memberAt?, h]

theorem memberAt?_of_top? (h : b.top? = some c) :
    b.memberAt? [] owner entity = c.member? owner entity :=
  memberAt?_of_at? h

theorem isSome_at?_of_memberAt? (h : (b.memberAt? path owner entity).isSome) :
    (b.at? path).isSome := by
  obtain ⟨m, hm⟩ := Option.isSome_iff_exists.mp h
  obtain ⟨c, hc, -⟩ := Option.bind_eq_some_iff.mp hm
  exact Option.isSome_of_eq_some hc

/-- Whoever is recorded in a cluster is recorded in the one above it, too. -/
def Nested (b : Branch) : Prop :=
  ∀ ⦃path : List Quadrant⦄ ⦃q : Quadrant⦄ ⦃owner : OwnerId⦄ ⦃entity : EntityId⦄,
    (b.memberAt? (path ++ [q]) owner entity).isSome → (b.memberAt? path owner entity).isSome

def Occupied (b : Branch) : Prop :=
  ∀ ⦃path : List Quadrant⦄ ⦃c : Cluster⦄, b.at? path = some c → c.hasData = true

theorem Nested.child (h : b.Nested) (q : Quadrant) : (b.child q).Nested := by
  intro path r owner entity hm
  exact @h (q :: path) r owner entity hm

theorem Occupied.child (h : b.Occupied) (q : Quadrant) : (b.child q).Occupied := by
  intro path c hc
  exact @h (q :: path) c hc

/-- In a nested branch the top records everyone who is recorded anywhere. -/
theorem Nested.top (h : b.Nested) (hm : (b.memberAt? path owner entity).isSome) :
    (b.memberAt? [] owner entity).isSome := by
  induction path using List.reverseRecOn with
  | nil => exact hm
  | append_singleton path q ih => exact ih (h hm)

end Branch

end RailAtlas
