import RailAtlas.Proofs.Index.Calls

/-!
# What indexing an entity leaves alone

A membership is an entity in the chunk of an owner in a cluster, with what is recorded about the
entity and with the label of the chunk. Indexing or removing one entity of one owner spares all
other memberships, wherever it starts: a chunk that goes had no other member, and what is pruned
had no chunk at all. Nothing has to be known for this about what is recorded above or below a
cluster, so it holds as well of trees in which clusters without data stand above others with data.
-/

namespace RailAtlas

/-! ### One cluster -/

namespace Cluster

variable {c : Cluster} {owner other : OwnerId} {entity someone : EntityId} {m : Member} {l : Labels}

/-- The membership of an entity with an owner: the label of the chunk, and what it records. -/
def membership? (c : Cluster) (owner : OwnerId) (entity : EntityId) : Option (ChunkId × Member) :=
  (c.bucket? owner).bind fun chunk => (chunk.get? entity).map (chunk.id, ·)

@[simp] theorem membership?_empty (id : ClusterId) (square : Square) :
    (empty id square).membership? owner entity = none := by
  simp [membership?]

/-- Without data there are no memberships. -/
theorem membership?_of_no_data (h : c.hasData = false) : c.membership? owner entity = none := by
  rw [membership?, hasData_eq_false_iff.mp h owner, Option.bind_none]

theorem Tidy.membership?_record (h : c.Tidy) (apart : (other, someone) ≠ (owner, entity)) :
    (c.record owner entity m l).1.membership? other someone = c.membership? other someone := by
  unfold membership?
  rw [h.bucket?_record]
  split
  · next same =>
    subst same
    have different : someone ≠ entity := fun same => apart (congrArg (other, ·) same)
    cases hb : c.bucket? other with
    | none => simp [chunkFor, hb, Chunk.get?_insert, different]
    | some chunk =>
      simp only [chunkFor, hb, Option.getD_some, Option.bind_some, Chunk.get?_insert, different,
        if_false]
      rfl
  · rfl

theorem membership?_discard (apart : (other, someone) ≠ (owner, entity)) :
    (c.discard owner entity).membership? other someone = c.membership? other someone := by
  unfold membership?
  rw [bucket?_discard]
  split
  · next same =>
    subst same
    have different : someone ≠ entity := fun same => apart (congrArg (other, ·) same)
    cases hb : c.bucket? other with
    | none => rfl
    | some chunk =>
      have kept : (chunk.erase entity).get? someone = chunk.get? someone := by
        rw [Chunk.get?_erase, if_neg different]
      rw [Option.map_some, Option.filter_some, Option.bind_some]
      cases bare : (chunk.erase entity).isEmpty with
      | true =>
        -- the chunk goes, and had no member besides
        rw [← kept, Chunk.isEmpty_iff.mp bare someone]
        rfl
      | false =>
        rw [← kept]
        rfl
  · rfl

end Cluster

/-! ### Branches -/

namespace Branch

variable {b d e new : Branch} {c c' : Cluster} {owner other : OwnerId} {entity someone : EntityId}
variable {m : Member} {levels : Nat} {square : Square} {l : Labels} {path : List Quadrant}

/-- The membership of an entity with an owner in the cluster at a place, with the label of the
cluster. -/
def membershipAt? (b : Branch) (path : List Quadrant) (owner : OwnerId) (entity : EntityId) :
    Option (ClusterId × ChunkId × Member) :=
  (b.at? path).bind fun c => (c.membership? owner entity).map (c.id, ·)

/-- A branch has become another one in which all memberships but those of one entity with one owner
are as before, and clusters above them still stand. -/
structure Spares (owner : OwnerId) (entity : EntityId) (b d : Branch) : Prop where
  kept {other : OwnerId} {someone : EntityId} : (other, someone) ≠ (owner, entity) →
    ∀ path, d.membershipAt? path other someone = b.membershipAt? path other someone
  stands {other : OwnerId} {someone : EntityId} : (other, someone) ≠ (owner, entity) →
    ∀ {front back c}, b.at? front = some c →
      (b.membershipAt? (front ++ back) other someone).isSome →
      ∃ c', d.at? front = some c' ∧ c'.id = c.id

theorem membershipAt?_of_at? (h : b.at? path = some c) :
    b.membershipAt? path owner entity = (c.membership? owner entity).map (c.id, ·) := by
  rw [membershipAt?, h, Option.bind_some]

theorem membershipAt?_of_top? (h : b.top? = some c) :
    b.membershipAt? [] owner entity = (c.membership? owner entity).map (c.id, ·) :=
  membershipAt?_of_at? h

theorem membershipAt?_of_at?_eq_none (h : b.at? path = none) :
    b.membershipAt? path owner entity = none := by
  rw [membershipAt?, h, Option.bind_none]

namespace Spares

theorem refl (b : Branch) : Spares owner entity b b :=
  ⟨fun _ _ => rfl, fun _ _ _ _ hc _ => ⟨_, hc, rfl⟩⟩

theorem trans (h : Spares owner entity b d) (next : Spares owner entity d e) :
    Spares owner entity b e where
  kept apart path := (next.kept apart path).trans (h.kept apart path)
  stands apart _ _ _ hc held := by
    obtain ⟨c', hc', same⟩ := h.stands apart hc held
    rw [← h.kept apart] at held
    obtain ⟨c'', hc'', same'⟩ := next.stands apart hc' held
    exact ⟨c'', hc'', same'.trans same⟩

/-- It is enough to look at the top and at the quadrants. -/
theorem of_child (hc : b.top? = some c) (hc' : d.top? = some c') (id : c'.id = c.id)
    (top : ∀ {other someone}, (other, someone) ≠ (owner, entity) →
      c'.membership? other someone = c.membership? other someone)
    (below : ∀ q, Spares owner entity (b.child q) (d.child q)) : Spares owner entity b d := by
  constructor
  · rintro other someone apart (_ | ⟨q, path⟩)
    · rw [membershipAt?_of_top? hc', membershipAt?_of_top? hc, top apart, id]
    · exact (below q).kept apart path
  · rintro other someone apart (_ | ⟨q, front⟩) back d' hd held
    · obtain rfl : c = d' := Option.some.inj (hc.symm.trans hd)
      exact ⟨c', hc', id⟩
    · exact (below q).stands apart hd held

/-- Pruning spares everyone: what is dropped has no data. -/
theorem prune (b : Branch) : Spares owner entity b b.prune := by
  rw [Branch.prune]
  cases first : b.firstData? with
  | some _ => exact .refl b
  | none =>
    have bare : ∀ path other someone, b.membershipAt? path other someone = none := by
      intro path other someone
      cases hc : b.at? path with
      | none => exact membershipAt?_of_at?_eq_none hc
      | some c =>
        have no_data := firstData?_eq_none_iff.mp first path c hc
        rw [membershipAt?_of_at? hc, Cluster.membership?_of_no_data no_data, Option.map_none]
    constructor
    · intro other someone _ path
      rw [bare, membershipAt?_of_at?_eq_none at?_absent]
    · intro other someone _ front back c _ held
      rw [bare] at held
      cases held

/-- Discarding at the top spares everyone else if scrubbing the quadrants does. -/
theorem discard_top {nw ne sw se : Branch} (below : ∀ q, Spares owner entity
      ((node c nw ne sw se).child q) (((node c nw ne sw se).child q).scrub owner entity)) :
    Spares owner entity (node c nw ne sw se) (node (c.discard owner entity) (nw.scrub owner entity)
      (ne.scrub owner entity) (sw.scrub owner entity) (se.scrub owner entity)) := by
  refine of_child rfl rfl Cluster.discard_id Cluster.membership?_discard fun q => ?_
  have scrubbed := below q
  cases q <;> exact scrubbed

theorem scrub (b : Branch) : Spares owner entity b (b.scrub owner entity) := by
  induction b using quadrant_induction with
  | absent => exact .refl _
  | node c nw ne sw se ih =>
    rw [Branch.scrub]
    split
    · exact (discard_top ih).trans (prune _)
    · exact .refl _

theorem scrubFrom (b : Branch) (isRoot : Bool) :
    Spares owner entity b (b.scrubFrom isRoot owner entity) := by
  cases b with
  | absent => exact .refl _
  | node c nw ne sw se =>
    have scrubbed := @discard_top c owner entity nw ne sw se fun q => scrub _
    cases isRoot with
    | true => exact scrubbed
    | false => exact scrubbed.trans (prune _)

/-- Growing spares everyone else: it records the member in clusters that were there, which keep
their labels, or in new ones. -/
theorem grow (h : b.Sound levels square) :
    Spares owner entity b (b.grow owner entity m levels square l).branch := by
  constructor
  · intro other someone apart path
    cases hv : visits m.point levels square path with
    | false => rw [membershipAt?, h.at?_grow_of_not_visits hv, membershipAt?]
    | true =>
      obtain ⟨id, drawn, hat⟩ := h.at?_grow_of_visits hv
      rw [membershipAt?_of_at? hat]
      cases hc : b.at? path with
      | none =>
        rw [membershipAt?_of_at?_eq_none hc, Option.getD_none,
          (Cluster.tidy_empty _ _).membership?_record apart, Cluster.membership?_empty,
          Option.map_none]
      | some c =>
        rw [membershipAt?_of_at? hc, Option.getD_some, (h.tidy hc).membership?_record apart,
          Cluster.record_id]
  · intro other someone _ front back c hc _
    cases hv : visits m.point levels square front with
    | false => exact ⟨c, (h.at?_grow_of_not_visits hv).trans hc, rfl⟩
    | true =>
      obtain ⟨id, drawn, hat⟩ := h.at?_grow_of_visits hv
      rw [hc, Option.getD_some] at hat
      exact ⟨_, hat, Cluster.record_id⟩

/-- What spares everyone else at a place does so in the branch around it. -/
theorem graft (hpath : (b.at? path).isSome) (h : Spares owner entity (b.under path) new) :
    Spares owner entity b (b.graft path new) := by
  induction path generalizing b with
  | nil => exact h
  | cons q path ih =>
    have rooted : b.top?.isSome := isSome_top?_of_at? hpath
    obtain ⟨c, hc⟩ := Option.isSome_iff_exists.mp rooted
    refine of_child hc (top?_graft_cons.trans hc) rfl (fun _ => rfl) fun r => ?_
    rw [child_graft_cons rooted]
    split
    · next same =>
      subst same
      exact ih hpath h
    · exact .refl _

end Spares

end Branch

/-! ### Trees -/

namespace Tree

variable {range : ScaleRange} {t u v : Tree} {p : Placement} {id start : ClusterId}
variable {owner : OwnerId} {entity : EntityId} {path : List Quadrant}

/-- The membership of an entity with an owner in the cluster with a label. -/
def membership? (t : Tree) (id : ClusterId) (owner : OwnerId) (entity : EntityId) :
    Option (ChunkId × Member) :=
  (t.cluster? id).bind fun c => c.membership? owner entity

/-- A label leads to the memberships at the place of its cluster. -/
theorem membership?_eq_some_iff (distinct : t.root.labels.Nodup) {found : ChunkId × Member} :
    t.membership? id owner entity = some found ↔
      ∃ path, t.root.membershipAt? path owner entity = some (id, found) := by
  simp only [membership?, cluster?, Option.bind_eq_some_iff]
  constructor
  · rintro ⟨c, ⟨b, hb, hc⟩, hfound⟩
    obtain ⟨path, c', hc', rfl, rfl⟩ := exists_of_branch? distinct hb
    obtain rfl : c' = c := Option.some.inj (Eq.trans (Eq.symm hc') hc)
    exact ⟨path, by rw [Branch.membershipAt?_of_at? hc', hfound, Option.map_some]⟩
  · rintro ⟨path, hm⟩
    obtain ⟨c, hc, hm⟩ := Option.bind_eq_some_iff.mp hm
    obtain ⟨found', hfound, same⟩ := Option.map_eq_some_iff.mp hm
    obtain ⟨rfl, rfl⟩ := Prod.mk.inj same
    exact ⟨c, ⟨_, branch?_eq distinct hc, hc⟩, hfound⟩

/-- A tree has become another one without touching anyone but the entity of a placement. -/
def Spares (p : Placement) (t u : Tree) : Prop :=
  t.root.Spares p.owner p.id u.root

namespace Spares

variable (h : Spares p t u) (apart : (owner, entity) ≠ (p.owner, p.id))
include h apart

/-- Memberships of others are the same under the same labels. -/
theorem membership?_eq (distinct : t.root.labels.Nodup) (distinct' : u.root.labels.Nodup) :
    u.membership? id owner entity = t.membership? id owner entity := by
  refine Option.ext fun found => ?_
  rw [membership?_eq_some_iff distinct, membership?_eq_some_iff distinct']
  simp only [h.kept apart]

/-- A cluster stays as long as someone else has a membership in it or below it. -/
theorem isRegistered_of_membershipAt? (distinct : t.root.labels.Nodup) {b : Branch}
    (hb : t.branch? id = some b) (held : (b.membershipAt? path owner entity).isSome) :
    u.isRegistered id = true := by
  obtain ⟨front, c, hc, rfl, rfl⟩ := exists_of_branch? distinct hb
  have below : (t.root.membershipAt? (front ++ path) owner entity).isSome := by
    rwa [Branch.membershipAt?, Branch.at?_append]
  obtain ⟨c', hc', same⟩ := h.stands apart hc below
  exact isRegistered_iff.mpr ⟨front, c', hc', same⟩

end Spares

theorem Labelled.spares_addFrom (h : t.Labelled) (distinct : t.root.labels.Nodup)
    {l : Logged IndexWarning Tree} (hl : t.addFrom start p = .ok l) : Spares p t l.value := by
  obtain same | ⟨path, c, position, hc, -, grown⟩ := addFrom_cases distinct hl
  · exact same ▸ .refl _
  · rw [grown]
    exact .graft (Option.isSome_of_eq_some hc) (.grow (h.sound_under hc))

theorem spares_removeFrom (distinct : t.root.labels.Nodup) (hu : t.removeFrom start p = .ok u) :
    Spares p t u := by
  obtain same | ⟨path, c, hc, -, scrubbed⟩ := removeFrom_cases distinct hu
  · exact same ▸ .refl _
  · rw [scrubbed]
    exact .graft (Option.isSome_of_eq_some hc) (.scrubFrom _ _)

theorem Labelled.spares_updateFrom (h : t.Labelled) (room : t.labels.clusters ≤ UInt32.size)
    {l : Logged IndexWarning Tree} (hl : t.updateFrom start p = .ok l) : Spares p t l.value := by
  obtain ⟨rest, again, -, hrest, labelled, distinct, hadd⟩ := h.updateFrom_steps room hl
  exact (spares_removeFrom (h.nodup room) hrest).trans (labelled.spares_addFrom distinct hadd)

/-- The calls that index an entity or remove it from a cluster down. -/
def callsAbout (start : ClusterId) (p : Placement) : List TreeCall :=
  [.addFrom start p, .removeFrom start p, .updateFrom start p]

theorem mem_callsAbout {call : TreeCall} : call ∈ callsAbout start p ↔
    call = .addFrom start p ∨ call = .removeFrom start p ∨ call = .updateFrom start p := by
  simp [callsAbout]

theorem Labelled.spares_answer (h : t.Labelled) (room : t.labels.clusters ≤ UInt32.size)
    {call : TreeCall} (about : call ∈ callsAbout start p) (hu : t.answer call = .ok u) :
    Spares p t u := by
  obtain rfl | rfl | rfl := mem_callsAbout.mp about
  · obtain ⟨l, hl, rfl⟩ := exists_of_map_eq_ok hu
    exact h.spares_addFrom (h.nodup room) hl
  · exact spares_removeFrom (h.nodup room) hu
  · obtain ⟨l, hl, rfl⟩ := exists_of_map_eq_ok hu
    exact h.spares_updateFrom room hl

/-- From any registered cluster of any tree that admissible calls lead to, entities are indexed and
removed without fault. All memberships of other entities, and those of the same entity with other
owners, are as before, under the same cluster labels and in chunks with the same labels, and no
cluster goes that has such a membership in it or below it. -/
theorem bystanders_undisturbed (h : Reachable range t) (registered : t.isRegistered start = true)
    (p : Placement) : ∀ call ∈ callsAbout start p, ∃ u, t.answer call = .ok u ∧
      (u.labels.clusters < UInt32.size →
        (∀ id owner entity, (owner, entity) ≠ (p.owner, p.id) →
          u.membership? id owner entity = t.membership? id owner entity) ∧
        ∀ id b path owner entity, (owner, entity) ≠ (p.owner, p.id) → t.branch? id = some b →
          (b.membershipAt? path owner entity).isSome → u.isRegistered id = true) := by
  intro call about
  obtain ⟨labelled, before, -⟩ := h.labelled
  have room : t.labels.clusters ≤ UInt32.size := Nat.le_of_lt before
  have distinct := labelled.nodup room
  have admissible : t.Admissible call := by
    have entered : (t.entry? start).isSome := (isSome_entry?_iff distinct).mpr registered
    obtain rfl | rfl | rfl := mem_callsAbout.mp about
    all_goals exact entered
  obtain ⟨u, hu, continues⟩ := labelled.answer room admissible
  have spares := labelled.spares_answer room about hu
  refine ⟨u, hu, fun fits => ⟨?_, ?_⟩⟩
  · intro id owner entity apart
    exact spares.membership?_eq apart distinct (continues.labelled.nodup (Nat.le_of_lt fits))
  · intro id b path owner entity apart hb held
    exact spares.isRegistered_of_membershipAt? apart distinct hb held

/-- Of two residences in one chunk of a small tree the one stays when the other is removed. -/
theorem bystanders_undisturbed_residence :
    let p (n : Nat) : Placement := ⟨.ofNat n, ⟨2⟩, .residence, some ⟨1, 1⟩, none⟩
    ∃ t u v, create ⟨3, 2⟩ = .ok t ∧ (t.add (p 1)).value.answer (.add (p 2)) = .ok u ∧
      u.isRegistered ⟨1⟩ = true ∧ u.answer (.removeFrom ⟨1⟩ (p 2)) = .ok v ∧
      v.membership? ⟨1⟩ ⟨2⟩ (.ofNat 1) = some (⟨1⟩, ⟨.residence, ⟨1, 1⟩, none⟩) := by
  intro p
  let t : Tree :=
    { range := ⟨3, 2⟩, root := .leaf (.empty rootId (worldSquare ⟨3, 2⟩)), labels := ⟨1, 0⟩ }
  have created : create ⟨3, 2⟩ = .ok t := rfl
  have first : Reachable ⟨3, 2⟩ (t.add (p 1)).value :=
    @Reachable.answered _ _ _ (.add (p 1)) (.created created) trivial rfl (by decide +kernel)
  have second : Reachable ⟨3, 2⟩ ((t.add (p 1)).value.add (p 2)).value :=
    @Reachable.answered _ _ _ (.add (p 2)) first trivial rfl (by decide +kernel)
  have registered : ((t.add (p 1)).value.add (p 2)).value.isRegistered ⟨1⟩ = true := by
    decide +kernel
  obtain ⟨v, removed, spared⟩ := bystanders_undisturbed second registered (p 2)
    (.removeFrom ⟨1⟩ (p 2)) (mem_callsAbout.mpr (.inr (.inl rfl)))
  have fits : v.labels.clusters < UInt32.size := by
    rw [labels_removeFrom removed]
    decide +kernel
  refine ⟨t, _, v, created, rfl, registered, removed, ?_⟩
  rw [(spared fits).1 _ _ _ (by decide)]
  decide +kernel

end Tree

end RailAtlas
