import RailAtlas.Proofs.Index.Descent

/-!
# Removal from the root

Removing an entity follows the clusters that hold it and drops the clusters that are left without
data on the way back. In a branch that is nested, and has data in every cluster, this comes to the
same as discarding the entity everywhere and dropping what is left without data: no holder is
missed, because everyone recorded in a cluster is recorded above it, and no cluster with data goes,
because a cluster without data has nothing below it either.

`Anchored` collects what holds of the whole tree when entities are only indexed and removed from
the root down.
-/

namespace RailAtlas

namespace Branch

variable {owner other : OwnerId} {entity someone : EntityId} {m : Member}
variable {levels : Nat} {square : Square} {b : Branch} {labels : Labels}
variable {path : List Quadrant} {q : Quadrant} {c : Cluster}

/-! ### Pruning -/

theorem firstData?_eq_none_iff :
    b.firstData? = none ↔ ∀ path c, b.at? path = some c → c.hasData = false := by
  induction b using quadrant_induction with
  | absent => simp [firstData?]
  | node top nw ne sw se ih =>
    have here_and_below : (node top nw ne sw se).firstData? = none ↔
        top.hasData = false ∧ ∀ q, ((node top nw ne sw se).child q).firstData? = none := by
      rw [Quadrant.forall_iff, firstData?]
      cases top.hasData <;> simp [Option.or_eq_none_iff, child]
    rw [here_and_below]
    constructor
    · rintro ⟨htop, hbelow⟩ (_ | ⟨q, path⟩) c hc
      · rwa [← Option.some.inj hc]
      · exact (ih q).mp (hbelow q) path c hc
    · intro h
      exact ⟨h [] top rfl, fun q => (ih q).mpr fun path c hc => h (q :: path) c hc⟩

theorem prune_of_hasData (hc : b.top? = some c) (data : c.hasData = true) : b.prune = b := by
  rw [prune]
  cases hf : b.firstData? with
  | some _ => rfl
  | none =>
    have no_data := firstData?_eq_none_iff.mp hf [] c hc
    simp [no_data] at data

theorem prune_of_no_data (h : ∀ path c, b.at? path = some c → c.hasData = false) :
    b.prune = absent := by
  rw [prune]
  rw [firstData?_eq_none_iff.mpr h]

/-! ### Scrubbing -/

/-- A cluster with an entity discarded, unless that leaves it without data. -/
def cleared (owner : OwnerId) (entity : EntityId) (c : Option Cluster) : Option Cluster :=
  (c.map (·.discard owner entity)).filter (·.hasData)

/-- Where the top of a branch does not hold an entity, clearing changes nothing below it. -/
theorem Sound.cleared_of_not_held (h : Sound levels square b) (nested : b.Nested)
    (occupied : b.Occupied) (hc : b.top? = some c) (apart : c.holds owner entity = false)
    (path : List Quadrant) : cleared owner entity (b.at? path) = b.at? path := by
  cases hd : b.at? path with
  | none => rfl
  | some d =>
    have not_held : d.holds owner entity = false := by
      rw [Cluster.holds_eq_isSome_member?, ← memberAt?_of_at? hd, ← Bool.not_eq_true]
      intro hm
      have hm_top := nested.top hm
      rw [memberAt?_of_top? hc, ← Cluster.holds_eq_isSome_member?, apart] at hm_top
      simp at hm_top
    simp [cleared, Option.filter_some, (h.tidy hd).discard_of_not_held not_held, occupied hd]

/-- Where the top of a branch is left without data, no place of the branch is left with any:
whoever were left there would be left in the top, too. -/
theorem Sound.cleared_of_no_data (h : Sound levels square b) (nested : b.Nested)
    (hc : b.top? = some c) (bare : (c.discard owner entity).hasData = false)
    (path : List Quadrant) : cleared owner entity (b.at? path) = none := by
  apply Option.eq_none_iff_forall_ne_some.mpr
  intro d hd
  obtain ⟨hmap, hdata⟩ := Option.filter_eq_some_iff.mp hd
  obtain ⟨old, hold, rfl⟩ := Option.map_eq_some_iff.mp hmap
  obtain ⟨o, x, hm⟩ := (h.tidy hold).discard.hasData_iff_member?.mp hdata
  rw [Cluster.member?_discard] at hm
  split at hm
  · simp at hm
  · next apart =>
    rw [← memberAt?_of_at? hold] at hm
    have hm_top := nested.top hm
    rw [memberAt?_of_top? hc] at hm_top
    have left : (c.discard owner entity).hasData = true := by
      refine (h.top_tidy hc).discard.hasData_iff_member?.mpr ⟨o, x, ?_⟩
      rwa [Cluster.member?_discard, if_neg apart]
    simp [bare] at left

/-- Clearing a place clears one entry: what is dropped had no entry left. -/
theorem member?_cleared {place : Option Cluster} (tidy : ∀ c, place = some c → c.Tidy) :
    ((cleared owner entity place).bind fun c => c.member? other someone) =
      if other = owner ∧ someone = entity then none
      else place.bind fun c => c.member? other someone := by
  cases place with
  | none => simp [cleared]
  | some c =>
    rw [cleared, Option.map_some, Option.filter_some, Option.bind_some, ← Cluster.member?_discard]
    split
    · rfl
    · next bare =>
      rw [Option.bind_none]
      refine (Option.eq_none_iff_forall_ne_some.mpr fun m hm => ?_).symm
      exact bare ((tidy c rfl).discard.hasData_iff_member?.mpr ⟨other, someone, by simp [hm]⟩)

/-- Removal from a nested branch with data in every cluster clears every place of it. -/
theorem Sound.at?_scrub (h : Sound levels square b) (nested : b.Nested) (occupied : b.Occupied) :
    (b.scrub owner entity).at? path = cleared owner entity (b.at? path) := by
  induction b using quadrant_induction generalizing levels square path with
  | absent => simp [scrub, cleared]
  | node top nw ne sw se ih =>
    cases held : top.holds owner entity with
    | false =>
      rw [scrub, if_neg (by simp [held])]
      exact (h.cleared_of_not_held nested occupied rfl held path).symm
    | true =>
      let rest : Branch := node (top.discard owner entity) (nw.scrub owner entity)
        (ne.scrub owner entity) (sw.scrub owner entity) (se.scrub owner entity)
      have hscrub : (node top nw ne sw se).scrub owner entity = rest.prune := by
        rw [scrub, if_pos held]
      have below : ∀ q path, rest.at? (q :: path) =
          cleared owner entity ((node top nw ne sw se).at? (q :: path)) := by
        intro q path
        have hchild : rest.child q = ((node top nw ne sw se).child q).scrub owner entity := by
          cases q <;> rfl
        rw [at?_cons, hchild, ih q (h.under [q]) (nested.child q) (occupied.child q), at?_cons]
      rw [hscrub]
      cases data : (top.discard owner entity).hasData with
      | true =>
        rw [prune_of_hasData rfl data]
        rcases path with _ | ⟨q, path⟩
        · simp [rest, cleared, Option.filter_some, data]
        · exact below q path
      | false =>
        have gone := h.cleared_of_no_data nested rfl data
        rw [gone path, prune_of_no_data, at?_absent]
        rintro (_ | ⟨q, path⟩) c hc
        · rw [← Option.some.inj hc, data]
        · rw [below, gone] at hc
          simp at hc

theorem at?_of_prune {path : List Quadrant} {c : Cluster} (h : b.prune.at? path = some c) :
    b.at? path = some c := by
  rw [prune] at h
  split at h
  · exact h
  · simp at h

/-- Where removal leaves a cluster, it is the one that was there, with or without the entity. -/
theorem exists_at?_of_scrub {path : List Quadrant} {c : Cluster}
    (h : (b.scrub owner entity).at? path = some c) :
    ∃ old, b.at? path = some old ∧ (c = old ∨ c = old.discard owner entity) := by
  induction b using quadrant_induction generalizing path with
  | absent => simp [scrub] at h
  | node top nw ne sw se ih =>
    rw [scrub] at h
    split at h
    · have kept := at?_of_prune h
      cases path with
      | nil =>
        obtain rfl := Option.some.inj kept
        exact ⟨top, rfl, .inr rfl⟩
      | cons q path => exact ih q (by cases q <;> exact kept)
    · exact ⟨c, h, .inl rfl⟩

theorem exists_at?_of_scrubFrom {isRoot : Bool} {path : List Quadrant} {c : Cluster}
    (h : (b.scrubFrom isRoot owner entity).at? path = some c) :
    ∃ old, b.at? path = some old ∧ (c = old ∨ c = old.discard owner entity) := by
  cases b with
  | absent => simp [scrubFrom] at h
  | node top nw ne sw se =>
    have kept : (node (top.discard owner entity) (nw.scrub owner entity) (ne.scrub owner entity)
        (sw.scrub owner entity) (se.scrub owner entity)).at? path = some c := by
      cases isRoot with
      | false => exact at?_of_prune h
      | true => exact h
    cases path with
    | nil =>
      obtain rfl := Option.some.inj kept
      exact ⟨top, rfl, .inr rfl⟩
    | cons q path =>
      have below : ((node top nw ne sw se).child q).scrub owner entity =
          (node (top.discard owner entity) (nw.scrub owner entity) (ne.scrub owner entity)
            (sw.scrub owner entity) (se.scrub owner entity)).child q := by
        cases q <;> rfl
      rw [at?_cons, ← below] at kept
      obtain ⟨old, hold, same⟩ := exists_at?_of_scrub kept
      exact ⟨old, hold, same⟩

theorem Sound.scrubFrom (h : Sound levels square b) (isRoot : Bool) :
    Sound levels square (b.scrubFrom isRoot owner entity) := by
  constructor <;> intro path c hc <;> obtain ⟨old, hold, rfl | rfl⟩ := exists_at?_of_scrubFrom hc
  · exact h.tidy hold
  · exact (h.tidy hold).discard
  · exact h.placed hold
  · rw [Cluster.discard_square, h.placed hold]
  · exact h.bounded hold
  · exact h.bounded hold

/-! ### The whole tree -/

/-- What holds of a tree in which entities are indexed and removed from the root down: there is a
root, everyone recorded in a cluster is recorded above it, and only the root may lack data. -/
structure Anchored (levels : Nat) (square : Square) (b : Branch) : Prop where
  sound : Sound levels square b
  rooted : b.top?.isSome
  nested : b.Nested
  occupied : ∀ q, (b.child q).Occupied

theorem top?_scrubFrom (isRoot : Bool) (hroot : isRoot = true) :
    (b.scrubFrom isRoot owner entity).top? = b.top?.map (·.discard owner entity) := by
  subst hroot
  cases b <;> rfl

theorem child_scrubFrom (isRoot : Bool) (hroot : isRoot = true) :
    (b.scrubFrom isRoot owner entity).child q = (b.child q).scrub owner entity := by
  subst hroot
  cases b <;> cases q <;> rfl

namespace Anchored

/-- Clusters are the root and the places at which someone is recorded. -/
theorem isSome_at?_iff (h : Anchored levels square b) :
    (b.at? path).isSome ↔ path = [] ∨ ∃ owner entity, (b.memberAt? path owner entity).isSome := by
  constructor
  · intro hat
    obtain ⟨c, hc⟩ := Option.isSome_iff_exists.mp hat
    rcases path with _ | ⟨q, path⟩
    · exact .inl rfl
    · obtain ⟨o, x, hm⟩ := (h.sound.tidy hc).hasData_iff_member?.mp (h.occupied q hc)
      exact .inr ⟨o, x, by rwa [memberAt?_of_at? hc]⟩
  · rintro (rfl | ⟨o, x, hm⟩)
    · exact h.rooted
    · exact isSome_at?_of_memberAt? hm

theorem at?_scrubFrom (h : Anchored levels square b) :
    (b.scrubFrom true owner entity).at? (q :: path) = cleared owner entity (b.at? (q :: path)) := by
  rw [at?_cons, child_scrubFrom true rfl, at?_cons]
  exact (h.sound.under [q]).at?_scrub (h.nested.child q) (h.occupied q)

/-- Removal from the root clears the entries of one entity at every place. -/
theorem memberAt?_scrubFrom (h : Anchored levels square b) :
    (b.scrubFrom true owner entity).memberAt? path other someone =
      if other = owner ∧ someone = entity then none else b.memberAt? path other someone := by
  rcases path with _ | ⟨q, path⟩
  · rw [memberAt?_nil, memberAt?_nil, top?_scrubFrom true rfl]
    cases b.top? with
    | none => simp
    | some c => simp [Cluster.member?_discard]
  · rw [memberAt?, h.at?_scrubFrom, member?_cleared fun c hc => h.sound.tidy hc, memberAt?]

/-- Removal from the root keeps the tree anchored. -/
theorem scrubFrom (h : Anchored levels square b) :
    Anchored levels square (b.scrubFrom true owner entity) where
  sound := h.sound.scrubFrom true
  rooted := by
    rw [top?_scrubFrom true rfl, Option.isSome_map]
    exact h.rooted
  nested := by
    intro path q other someone hm
    rw [h.memberAt?_scrubFrom] at hm ⊢
    split
    · next same => simp [same] at hm
    · next apart =>
      rw [if_neg apart] at hm
      exact h.nested hm
  occupied := by
    intro q path c hc
    change (b.scrubFrom true owner entity).at? (q :: path) = some c at hc
    rw [h.at?_scrubFrom] at hc
    exact (Option.filter_eq_some_iff.mp hc).2

/-- Indexing from the root keeps the tree anchored. -/
theorem grow (h : Anchored levels square b) :
    Anchored levels square (b.grow owner entity m levels square labels).branch where
  sound := h.sound.grow
  rooted := h.sound.isSome_at?_grow_iff.mpr (.inl visits_nil)
  nested := h.sound.nested_grow h.nested
  occupied := by
    intro q path c hc
    change (b.grow owner entity m levels square labels).branch.at? (q :: path) = some c at hc
    refine h.sound.hasData_grow (fun c hold => ?_) hc
    rw [at?_cons] at hold
    exact h.occupied q hold

end Anchored

/-- A root without data is anchored. -/
theorem anchored_leaf (id : ClusterId) : Anchored levels square (leaf (.empty id square)) := by
  have bare : ∀ q, (leaf (.empty id square)).child q = absent := by
    intro q
    cases q <;> rfl
  refine ⟨?_, rfl, ?_, ?_⟩
  · constructor <;> rintro (_ | ⟨q, path⟩) c hc
    · rw [← Option.some.inj hc]
      exact Cluster.tidy_empty _ _
    · simp [bare] at hc
    · rw [← Option.some.inj hc]
      rfl
    · simp [bare] at hc
    · simp
    · simp [bare] at hc
  · rintro (_ | ⟨r, path⟩) q owner entity hm <;> simp [bare, memberAt?] at hm
  · intro q path c hc
    simp [bare] at hc

end Branch

end RailAtlas
