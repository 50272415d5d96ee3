import RailAtlas.Proofs.Index.Calls

/-!
# What removal leaves behind

Removal goes down from holder to holder: a quadrant is entered only if the cluster over it holds
the entity. Calls that start below the root can record an entity under a cluster that does not hold
it, and there the chain of holders is broken. What removal leaves behind are the holders below
such a gap, and nothing else, in every tree that calls lead to.
-/

namespace RailAtlas

/-- Without data nothing is recorded. -/
theorem Cluster.member?_of_no_data {c : Cluster} {owner : OwnerId} {entity : EntityId}
    (h : c.hasData = false) : c.member? owner entity = none := by
  rw [member?, hasData_eq_false_iff.mp h owner, Option.bind_none]

namespace Branch

variable {b : Branch} {owner : OwnerId} {entity : EntityId} {path : List Quadrant}

/-- Pruning drops nothing that is recorded. -/
theorem memberAt?_prune : b.prune.memberAt? path owner entity = b.memberAt? path owner entity := by
  rw [prune]
  cases first : b.firstData? with
  | some _ => rfl
  | none =>
    rw [memberAt?, at?_absent, Option.bind_none, memberAt?]
    cases hc : b.at? path with
    | none => rfl
    | some c =>
      have bare := firstData?_eq_none_iff.mp first path c hc
      rw [Option.bind_some, Cluster.member?_of_no_data bare]

/-- Above some place, the top not counted, a cluster does not hold an entity. -/
def Gap (b : Branch) (owner : OwnerId) (entity : EntityId) (path : List Quadrant) : Prop :=
  ∃ front, front ≠ [] ∧ front <+: path ∧ b.memberAt? front owner entity = none

theorem not_gap_nil : ¬ b.Gap owner entity [] := by
  rintro ⟨front, below, above, -⟩
  exact below (List.prefix_nil.mp above)

/-- Seen from the top, a gap is below the first quadrant or it is the cluster over it. -/
theorem gap_cons_iff {q : Quadrant} : b.Gap owner entity (q :: path) ↔
    (b.child q).memberAt? [] owner entity = none ∨ (b.child q).Gap owner entity path := by
  constructor
  · rintro ⟨_ | ⟨r, front⟩, below, above, gap⟩
    · exact absurd rfl below
    · obtain ⟨rfl, within⟩ := List.cons_prefix_cons.mp above
      rcases front with _ | ⟨r', front⟩
      · exact .inl gap
      · exact .inr ⟨_, by simp, within, gap⟩
  · rintro (gap | ⟨front, -, above, gap⟩)
    · exact ⟨[q], by simp, by simp, gap⟩
    · exact ⟨q :: front, by simp, List.cons_prefix_cons.mpr ⟨rfl, above⟩, gap⟩

/-- A cluster from which an entity is discarded, over quadrants that are scrubbed: left are the
holders in each quadrant whose top is a gap, and those below another gap in it. -/
theorem isSome_memberAt?_discard_iff {c : Cluster} {nw ne sw se : Branch}
    (below : ∀ q path,
      ((((node c nw ne sw se).child q).scrub owner entity).memberAt? path owner entity).isSome ↔
        (((node c nw ne sw se).child q).memberAt? path owner entity).isSome ∧
          (((node c nw ne sw se).child q).memberAt? [] owner entity = none ∨
            ((node c nw ne sw se).child q).Gap owner entity path)) :
    ((node (c.discard owner entity) (nw.scrub owner entity) (ne.scrub owner entity)
      (sw.scrub owner entity) (se.scrub owner entity)).memberAt? path owner entity).isSome ↔
        ((node c nw ne sw se).memberAt? path owner entity).isSome ∧
          (node c nw ne sw se).Gap owner entity path := by
  rcases path with _ | ⟨q, path⟩
  · rw [memberAt?_of_top? rfl, Cluster.member?_discard, if_pos ⟨rfl, rfl⟩]
    simp [not_gap_nil]
  · rw [gap_cons_iff, memberAt?_cons, memberAt?_cons, ← below q path]
    cases q <;> rfl

/-- Scrubbing leaves the holders below a gap, and everyone if the top is one. -/
theorem isSome_memberAt?_scrub_iff : ((b.scrub owner entity).memberAt? path owner entity).isSome ↔
    (b.memberAt? path owner entity).isSome ∧
      (b.memberAt? [] owner entity = none ∨ b.Gap owner entity path) := by
  induction b using quadrant_induction generalizing path with
  | absent => simp [scrub, memberAt?]
  | node c nw ne sw se ih =>
    have top : (node c nw ne sw se).memberAt? [] owner entity = c.member? owner entity :=
      memberAt?_of_top? rfl
    rw [top, scrub]
    split
    · next held =>
      rw [Cluster.holds_eq_isSome_member?] at held
      rw [memberAt?_prune, isSome_memberAt?_discard_iff fun q path => ih q]
      simp [Option.isSome_iff_ne_none.mp held]
    · next apart =>
      rw [Cluster.holds_eq_isSome_member?, Option.not_isSome_iff_eq_none] at apart
      simp [apart]

/-- Where removal starts, the top is no gap, whether or not it holds the entity. -/
theorem isSome_memberAt?_scrubFrom_iff {isRoot : Bool} :
    ((b.scrubFrom isRoot owner entity).memberAt? path owner entity).isSome ↔
      (b.memberAt? path owner entity).isSome ∧ b.Gap owner entity path := by
  cases b with
  | absent => simp [scrubFrom, memberAt?]
  | node c nw ne sw se =>
    have started :
        ((node c nw ne sw se).scrubFrom isRoot owner entity).memberAt? path owner entity =
        (node (c.discard owner entity) (nw.scrub owner entity) (ne.scrub owner entity)
          (sw.scrub owner entity) (se.scrub owner entity)).memberAt? path owner entity := by
      cases isRoot with
      | true => rfl
      | false => exact memberAt?_prune
    rw [started]
    exact isSome_memberAt?_discard_iff fun q path => isSome_memberAt?_scrub_iff

/-- Below the top the holders of an entity are unbroken: with every cluster, the one above it
holds the entity, too. -/
def Unbroken (b : Branch) (owner : OwnerId) (entity : EntityId) : Prop :=
  ∀ ⦃path : List Quadrant⦄ ⦃q : Quadrant⦄, path ≠ [] →
    (b.memberAt? (path ++ [q]) owner entity).isSome → (b.memberAt? path owner entity).isSome

/-- Holders that are unbroken have no gap above them. -/
theorem Unbroken.isSome_of_prefix (h : b.Unbroken owner entity) {front : List Quadrant}
    (below : front ≠ []) (above : front <+: path) (held : (b.memberAt? path owner entity).isSome) :
    (b.memberAt? front owner entity).isSome := by
  obtain ⟨back, rfl⟩ := above
  induction back using List.reverseRecOn with
  | nil => simpa using held
  | append_singleton back q ih =>
    rw [← List.append_assoc] at held
    exact ih (h (by simp [below]) held)

/-- The holders are unbroken exactly if none of them is below a gap. -/
theorem unbroken_iff : b.Unbroken owner entity ↔
    ∀ path, (b.memberAt? path owner entity).isSome → ¬ b.Gap owner entity path := by
  constructor
  · rintro h path held ⟨front, below, above, gap⟩
    have kept := h.isSome_of_prefix below above held
    simp [gap] at kept
  · intro h path q below held
    by_contra gap
    exact h _ held ⟨path, below, List.prefix_append _ _, by simpa using gap⟩

end Branch

namespace Tree

variable {range : ScaleRange} {t u : Tree} {p : Placement} {start id : ClusterId} {c : Cluster}
variable {place path : List Quadrant} {b : Branch} {owner : OwnerId} {entity : EntityId}

/-- A label leads to the cluster at a place. -/
theorem cluster?_eq_some_iff (distinct : t.root.labels.Nodup) :
    t.cluster? id = some c ↔ ∃ path, t.root.at? path = some c ∧ c.id = id := by
  rw [cluster?, Option.bind_eq_some_iff]
  constructor
  · rintro ⟨b, hb, hc⟩
    obtain ⟨path, found, hfound, rfl, rfl⟩ := exists_of_branch? distinct hb
    obtain rfl : found = c := Option.some.inj (Eq.trans (Eq.symm hfound) hc)
    exact ⟨path, hfound, rfl⟩
  · rintro ⟨path, hc, rfl⟩
    exact ⟨_, branch?_eq distinct hc, hc⟩

/-- The clusters that a removal leaves stay in their places, under their labels. -/
theorem exists_at?_of_removeFrom (distinct : t.root.labels.Nodup)
    (hu : t.removeFrom start p = .ok u) {d : Cluster} (hd : u.root.at? path = some d) :
    ∃ c, t.root.at? path = some c ∧ d.id = c.id := by
  obtain rfl | ⟨place, top, htop, -, rfl⟩ := removeFrom_cases distinct hu
  · exact ⟨d, hd, rfl⟩
  have stands : (t.root.at? place).isSome := Option.isSome_of_eq_some htop
  by_cases below : place <+: path
  · obtain ⟨rest, rfl⟩ := below
    rw [Branch.at?, Branch.under_graft stands] at hd
    obtain ⟨c, hc, rfl | rfl⟩ := Branch.exists_at?_of_scrubFrom hd
    · exact ⟨_, (Branch.at?_append _ _).trans hc, rfl⟩
    · exact ⟨c, (Branch.at?_append _ _).trans hc, Cluster.discard_id⟩
  · exact ⟨d, (Branch.at?_graft_apart stands below).symm.trans hd, rfl⟩

/-- Removal starts at the place of a cluster. -/
theorem exists_removeFrom_at (distinct : t.root.labels.Nodup) (hb : t.branch? start = some b)
    (spatial : p.kind.isSpatial = true) : ∃ place u, t.removeFrom start p = .ok u ∧
      t.root.under place = b ∧
      u.root.under place = b.scrubFrom (start == rootId) p.owner p.id := by
  obtain ⟨place, top, htop, rfl, rfl⟩ := exists_of_branch? distinct hb
  refine ⟨place, _, removeFrom_eq distinct htop spatial, rfl, ?_⟩
  simpa using Branch.under_graft (Option.isSome_of_eq_some htop) []

/-- After a removal the label of a cluster below the start leads to a holder exactly if one is left
at the place of the cluster. -/
theorem exists_holder_iff (distinct : t.root.labels.Nodup) (distinct' : u.root.labels.Nodup)
    (kept : ∀ path d, u.root.at? path = some d → ∃ c, t.root.at? path = some c ∧ d.id = c.id)
    (hc : t.root.at? path = some c) :
    (∃ d, u.cluster? c.id = some d ∧ d.holds owner entity = true) ↔
      (u.root.memberAt? path owner entity).isSome := by
  constructor
  · rintro ⟨d, hd, holds⟩
    obtain ⟨other, hd, same⟩ := (cluster?_eq_some_iff distinct').mp hd
    obtain ⟨c', hc', id⟩ := kept other d hd
    obtain rfl := Branch.path_eq_of_nodup distinct hc' hc (id.symm.trans same)
    rwa [Branch.memberAt?_of_at? hd, ← Cluster.holds_eq_isSome_member?]
  · intro held
    obtain ⟨d, hd⟩ := Option.isSome_iff_exists.mp (Branch.isSome_at?_of_memberAt? held)
    rw [Branch.memberAt?_of_at? hd, ← Cluster.holds_eq_isSome_member?] at held
    obtain ⟨c', hc', id⟩ := kept path d hd
    obtain rfl := Option.some.inj (hc.symm.trans hc')
    exact ⟨d, (cluster?_eq_some_iff distinct').mpr ⟨path, hd, id⟩, held⟩

/-- Of the clusters below the start of a removal, those still hold the entity that held it and have
a gap above them. -/
theorem Reachable.exists_removeFrom (h : Reachable range t) (hb : t.branch? start = some b)
    (spatial : p.kind.isSpatial = true) : ∃ u, t.removeFrom start p = .ok u ∧
      ∀ path c, b.at? path = some c →
        ((∃ d, u.cluster? c.id = some d ∧ d.holds p.owner p.id = true) ↔
          c.holds p.owner p.id = true ∧ b.Gap p.owner p.id path) := by
  obtain ⟨labelled, before, -⟩ := h.labelled
  have room := Nat.le_of_lt before
  have distinct := labelled.nodup room
  obtain ⟨place, u, hu, rfl, scrubbed⟩ := exists_removeFrom_at distinct hb spatial
  have distinct' : u.root.labels.Nodup :=
    (labelled.continues_of (labelled.regrown_removeFrom distinct hu)).labelled.nodup
      (labels_removeFrom hu ▸ room)
  refine ⟨u, hu, fun path c hc => ?_⟩
  rw [Cluster.holds_eq_isSome_member?, ← Branch.memberAt?_of_at? hc,
    ← @Branch.isSome_memberAt?_scrubFrom_iff _ _ _ _ (start == rootId), ← scrubbed,
    Branch.memberAt?, ← Branch.at?_append]
  rw [← Branch.at?_append] at hc
  exact exists_holder_iff distinct distinct'
    (fun path d hd => exists_at?_of_removeFrom distinct hu hd) hc

/-- Where holders below a gap are left behind, nobody is exactly if there is no gap. -/
theorem nobody_left_iff (left : ∀ path c, b.at? path = some c →
      ((∃ d, u.cluster? c.id = some d ∧ d.holds owner entity = true) ↔
        c.holds owner entity = true ∧ b.Gap owner entity path)) :
    (∀ c ∈ b.clusters, ∀ d, u.cluster? c.id = some d → d.holds owner entity = false) ↔
      b.Unbroken owner entity := by
  rw [Branch.unbroken_iff]
  constructor
  · intro nobody path held gap
    obtain ⟨c, hc⟩ := Option.isSome_iff_exists.mp (Branch.isSome_at?_of_memberAt? held)
    rw [Branch.memberAt?_of_at? hc, ← Cluster.holds_eq_isSome_member?] at held
    obtain ⟨d, hd, holds⟩ := (left path c hc).mpr ⟨held, gap⟩
    rw [nobody c (Branch.mem_clusters_iff.mpr ⟨path, hc⟩) d hd] at holds
    cases holds
  · intro unbroken c listed d hd
    obtain ⟨path, hc⟩ := Branch.mem_clusters_iff.mp listed
    rw [← Bool.not_eq_true]
    intro holds
    obtain ⟨held, gap⟩ := (left path c hc).mp ⟨d, hd, holds⟩
    rw [Cluster.holds_eq_isSome_member?, ← Branch.memberAt?_of_at? hc] at held
    exact unbroken path held gap

/-- Removing a spatial entity from a registered cluster of any tree that calls lead to: of the
clusters that were in its subtree, those still hold the entity that held it before and have a gap
above them, and nobody is left behind exactly if the holders below the cluster are unbroken. -/
theorem left_behind_iff (h : Reachable range t) (hb : t.branch? start = some b)
    (spatial : p.kind.isSpatial = true) : ∃ u, t.removeFrom start p = .ok u ∧
      (∀ path c, b.at? path = some c →
        ((∃ d, u.cluster? c.id = some d ∧ d.holds p.owner p.id = true) ↔
          c.holds p.owner p.id = true ∧ b.Gap p.owner p.id path)) ∧
      ((∀ c ∈ b.clusters, ∀ d, u.cluster? c.id = some d → d.holds p.owner p.id = false) ↔
        b.Unbroken p.owner p.id) := by
  obtain ⟨u, hu, left⟩ := h.exists_removeFrom hb spatial
  exact ⟨u, hu, left, nobody_left_iff left⟩

/-- A residence is indexed from the root and removed from there. -/
theorem left_behind_iff_residence : ∃ (t : Tree) (b : Branch) (p : Placement) (u : Tree),
    Reachable ⟨3, 2⟩ t ∧ t.branch? rootId = some b ∧ p.kind.isSpatial = true ∧
      t.removeFrom rootId p = .ok u ∧
      ((∀ c ∈ b.clusters, ∀ d, u.cluster? c.id = some d → d.holds p.owner p.id = false) ↔
        b.Unbroken p.owner p.id) := by
  let bare : Tree :=
    { range := ⟨3, 2⟩, root := .leaf (.empty rootId (worldSquare ⟨3, 2⟩)), labels := ⟨1, 0⟩ }
  let p : Placement := ⟨.ofNat 1, ⟨2⟩, .residence, some ⟨1, 1⟩, none⟩
  have indexed : Reachable ⟨3, 2⟩ (bare.add p).value :=
    @Reachable.answered _ _ _ (.add p) (.created rfl) trivial rfl (by decide +kernel)
  obtain ⟨b, hb⟩ := Option.isSome_iff_exists.mp
    (show ((bare.add p).value.branch? rootId).isSome = true by decide +kernel)
  obtain ⟨u, hu, -, nobody⟩ := left_behind_iff indexed hb (show p.kind.isSpatial = true from rfl)
  exact ⟨_, b, p, u, indexed, hb, rfl, hu, nobody⟩

/-- An entity that is indexed from the root, and again from a cluster in the opposite corner under
one that does not hold it, stays there when it is removed from the root. -/
theorem left_behind_in_corner : ¬ ∀ t : Tree, Reachable ⟨4, 2⟩ t → ∀ start b,
    t.branch? start = some b → ∀ p : Placement, p.kind.isSpatial = true →
      ∃ u, t.removeFrom start p = .ok u ∧
        ∀ c ∈ b.clusters, ∀ d, u.cluster? c.id = some d → d.holds p.owner p.id = false := by
  intro recursive
  let p (x : Float) : Placement := ⟨.ofNat 1, ⟨2⟩, .residence, some ⟨x, x⟩, none⟩
  let bare : Tree :=
    { range := ⟨4, 2⟩, root := .leaf (.empty rootId (worldSquare ⟨4, 2⟩)), labels := ⟨1, 0⟩ }
  let corner := (worldSquare ⟨4, 2⟩).quadrant .southEast
  let child : Branch := .leaf (.empty ⟨1⟩ corner)
  let grandchild : Branch := .leaf (.empty ⟨2⟩ (corner.quadrant .southEast))
  let first : Tree :=
    { bare with root := bare.root.setChild .southEast child, labels := ⟨2, 0⟩ }
  let second : Tree :=
    { bare with
      root := bare.root.setChild .southEast (child.setChild .southEast grandchild)
      labels := ⟨3, 0⟩ }
  let third : Tree := (second.add (p (-1))).value
  let fourth : Tree := ((third.addFrom ⟨2⟩ (p 5)).map (·.value)).toOption.getD bare
  let last : Tree := (fourth.removeFrom rootId (p (-1))).toOption.getD bare
  have divided : Reachable ⟨4, 2⟩ first :=
    @Reachable.answered _ bare _ (.newChild rootId 1 1) (.created rfl)
      ⟨_, .southEast, rfl, rfl, rfl, (by decide : (2 : Int) < 4), rfl⟩ rfl (by decide)
  have again : Reachable ⟨4, 2⟩ second :=
    @Reachable.answered _ _ _ (.newChild ⟨1⟩ 1 1) divided
      ⟨_, .southEast, rfl, rfl, rfl, (by decide : (2 : Int) < 3), rfl⟩ rfl (by decide)
  have indexed : Reachable ⟨4, 2⟩ third :=
    @Reachable.answered _ _ _ (.add (p (-1))) again trivial rfl (by decide +kernel)
  obtain ⟨added, hadded⟩ :=
    exists_addFrom (show third.isRegistered ⟨2⟩ = true by decide +kernel) (p 5)
  have twice : Reachable ⟨4, 2⟩ fourth :=
    @Reachable.answered _ _ _ (.addFrom ⟨2⟩ (p 5)) indexed
      (show (third.entry? ⟨2⟩).isSome = true by decide +kernel)
      (show (third.addFrom ⟨2⟩ (p 5)).map (·.value) = .ok fourth by
        simp only [fourth, hadded]; rfl)
      (by decide +kernel)
  obtain ⟨b, hb⟩ := Option.isSome_iff_exists.mp
    (show (fourth.branch? rootId).isSome = true by decide +kernel)
  obtain ⟨u, hu, nobody⟩ := recursive fourth twice rootId b hb (p (-1)) rfl
  have hlast : last = u := by simp only [last, hu]; rfl
  have listed : (fourth.branch? rootId).any (·.clusters.any (·.id == ⟨2⟩)) = true := by
    decide +kernel
  rw [hb, Option.any_some, List.any_eq_true] at listed
  obtain ⟨c, hc, same⟩ := listed
  have left : (last.cluster? ⟨2⟩).any (·.holds ⟨2⟩ (.ofNat 1)) = true := by decide +kernel
  obtain ⟨d, hd, holds⟩ := (Option.any_eq_true _ _).mp left
  have gone := nobody c hc d (by rw [eq_of_beq same, ← hlast, hd])
  exact absurd holds (by simpa [p] using gone)

end Tree

end RailAtlas
