import RailAtlas.Proofs.Registry.Deletion

/-!
# Removing an entity in a registry

Removing an entity in a registry does to a branch that is kept in it what scrubbing does to the
branch. The holders are picked before any of them is entered, and which labels they have does not
change while they are entered one after the other. A cluster that is left bare takes itself out of
its parent, so the induction is about a quadrant of a branch that stands, and not about the branch.
-/

namespace RailAtlas

namespace Branch

variable {b : Branch} {c : Cluster} {owner : OwnerId} {entity : EntityId}

theorem scrub_of_holds (hc : b.top? = some c) (held : c.holds owner entity = true) :
    b.scrub owner entity = b.scrubFrom false owner entity := by
  cases b with
  | absent => rfl
  | node d nw ne sw se =>
    obtain rfl : d = c := Option.some.inj hc
    rw [scrub, if_pos held]
    rfl

theorem scrub_of_not_holds (hc : b.top? = some c) (held : c.holds owner entity = false) :
    b.scrub owner entity = b := by
  cases b with
  | absent => rfl
  | node d nw ne sw se =>
    obtain rfl : d = c := Option.some.inj hc
    rw [scrub, if_neg (by rw [held]; exact Bool.false_ne_true)]

/-- Below the root removal prunes what it leaves in the root's case. -/
theorem scrubFrom_eq_prune (owner : OwnerId) (entity : EntityId) (b : Branch) :
    b.scrubFrom false owner entity = (b.scrubFrom true owner entity).prune := by
  cases b <;> rfl

end Branch

theorem Cluster.discard_of_free {c : Cluster} {owner : OwnerId} {entity : EntityId}
    (free : c.bucket? owner = none) : c.discard owner entity = c := by
  rw [discard, free]

theorem Cluster.discard_of_bucket? {c : Cluster} {owner : OwnerId} {entity : EntityId}
    {chunk : Chunk} (held : c.bucket? owner = some chunk) : c.discard owner entity =
      if (chunk.erase entity).isEmpty then c.unfile owner
      else c.file owner (chunk.erase entity) := by
  rw [discard, held]
  rfl

theorem Cluster.unfile_file {c : Cluster} {owner : OwnerId} {chunk : Chunk} :
    (c.file owner chunk).unfile owner = c.unfile owner := by
  refine ext_bucket? rfl rfl fun other => ?_
  rw [bucket?_unfile, bucket?_unfile, bucket?_file]
  split <;> rfl

namespace Registry

variable {r r' : Registry} {parent : Option ClusterId} {b new : Branch} {c d : Cluster}
variable {q : Quadrant} {levels fuel : Nat} {square : Square} {owner : OwnerId} {entity : EntityId}

/-- Nothing is indexed in a kept branch exactly if no cluster of it has data. -/
theorem isBare_iff (h : b.Kept r.entries parent) (hc : b.top? = some c)
    (sound : b.Sound levels square) (enough : levels < fuel) :
    r.isBare fuel c.id = true ↔ b.firstData? = none := by
  rw [Branch.firstData?_eq_none_iff]
  refine h.fuel_induction (motive := fun fuel _ c b => r.isBare fuel c.id = true ↔
    ∀ path e, b.at? path = some e → e.hasData = false)
    ?_ hc (sound.top_square hc ▸ sound) enough
  intro fuel levels parent c b hc entry _ below
  have unfolded : r.isBare (fuel + 1) c.id = true ↔ c.hasData = false ∧
      ∀ p d, (b.child p).top? = some d → r.isBare fuel d.id = true := by
    simp only [isBare, entry, Bool.and_eq_true, Bool.not_eq_true', List.all_eq_true,
      Branch.children_entryAt, List.mem_filterMap]
    apply and_congr_right
    intro _
    constructor
    · intro bare p d hd
      exact bare d.id ⟨p, Quadrant.mem_all p, Branch.label?_of_top? hd⟩
    · rintro bare id ⟨p, -, hid⟩
      obtain ⟨d, hd, rfl⟩ := Option.map_eq_some_iff.mp hid
      exact bare p d hd
  rw [unfolded]
  constructor
  · rintro ⟨top, bare⟩ (_ | ⟨p, path⟩) e he
    · rwa [← Option.some.inj (hc.symm.trans he)]
    · have occupied : (b.child p).top?.isSome :=
        Branch.isSome_top?_of_at? (Option.isSome_of_eq_some he)
      obtain ⟨d, hd⟩ := Option.isSome_iff_exists.mp occupied
      obtain ⟨-, -, -, bare_iff⟩ := below p d hd
      exact bare_iff.mp (bare p d hd) path e he
  · intro bare
    refine ⟨bare [] c hc, fun p d hd => ?_⟩
    obtain ⟨-, -, -, bare_iff⟩ := below p d hd
    exact bare_iff.mpr fun path e he => bare (p :: path) e he

/-- Whether the cluster with a label holds an entity. -/
def holdsAt (r : Registry) (owner : OwnerId) (entity : EntityId) (id : ClusterId) : Bool :=
  (r.entries id).any fun e => e.cluster.holds owner entity

theorem holders_eq {ids : List ClusterId} (h : ∀ id ∈ ids, (r.entries id).isSome) :
    r.holders owner entity ids = .ok (ids.filter (r.holdsAt owner entity)) := by
  induction ids with
  | nil => rfl
  | cons id ids ih =>
    obtain ⟨e, he⟩ := Option.isSome_iff_exists.mp (h id List.mem_cons_self)
    have held : r.holdsAt owner entity id = e.cluster.holds owner entity := by
      rw [holdsAt, he]
      rfl
    rw [holders, get_eq he, ih fun x hx => h x (List.mem_cons_of_mem id hx), List.filter_cons, held]
    rfl

/-- The holders among the children of a kept cluster are found. -/
theorem Stands.holders_eq (h : r.Stands parent b) (hc : b.top? = some c) :
    let children := (Branch.entryAt parent b [] c).children
    r.holders owner entity children = .ok (children.filter (r.holdsAt owner entity)) := by
  apply Registry.holders_eq
  intro id hid
  obtain ⟨p, -, hslot⟩ := List.mem_filterMap.mp hid
  rw [Branch.slot_top] at hslot
  obtain ⟨d, hd, rfl⟩ := Option.map_eq_some_iff.mp hslot
  exact Option.isSome_of_eq_some ((h.kept.child hc p).top hd)

/-- Of a child the registry says what the branch says. -/
theorem Stands.holdsAt_eq (h : r.Stands parent b) (hc : b.top? = some c)
    (hd : (b.child q).top? = some d) : r.holdsAt owner entity d.id = d.holds owner entity := by
  rw [holdsAt, (h.kept.child hc q).top hd]
  rfl

/-- With enough fuel `scrub` takes an entity out of every quadrant of the given levels. -/
def ScrubsChild (owner : OwnerId) (entity : EntityId) (fuel : Nat) : Prop :=
  ∀ {r : Registry} {parent : Option ClusterId} {b : Branch} {c d : Cluster} {q : Quadrant}
    {levels : Nat} {square : Square}, r.Stands parent b → r.labels.clusters ≤ UInt32.size →
    b.top? = some c → (b.child q).top? = some d → (b.child q).Sound levels square →
    levels < fuel → ∃ r', scrub owner entity fuel d.id r = .ok r' ∧ r'.labels = r.labels ∧
      Rebuilt parent r b r' (b.setChild q ((b.child q).scrubFrom false owner entity))

/-- The holders below a cluster are scrubbed one after the other. -/
theorem holders_spec (ih : ScrubsChild owner entity fuel) {nw ne sw se : Branch}
    (h : r.Stands parent (.node c nw ne sw se)) (room : r.labels.clusters ≤ UInt32.size)
    (fits : ∀ p d, ((Branch.node c nw ne sw se).child p).top? = some d →
      ∃ below square, below < fuel ∧ ((Branch.node c nw ne sw se).child p).Sound below square)
    {e : ClusterEntry} {held : ClusterId → Bool}
    (slots : ∀ p, e.slot p = ((Branch.node c nw ne sw se).child p).label?)
    (picked : ∀ p d, ((Branch.node c nw ne sw se).child p).top? = some d →
      held d.id = d.holds owner entity) :
    ∃ r', (e.children.filter held).foldlM (fun r child => scrub owner entity fuel child r) r =
        .ok r' ∧ r'.labels = r.labels ∧ Rebuilt parent r (.node c nw ne sw se) r'
          (.node c (nw.scrub owner entity) (ne.scrub owner entity) (sw.scrub owner entity)
            (se.scrub owner entity)) := by
  rw [List.foldlM_filter, foldlM_children]
  apply foldlM_quadrants (Branch.scrub owner entity) h rfl room
  intro s k p standing hlabels hk same
  rw [slots, ← same, Branch.label?]
  cases hd : (k.child p).top? with
  | none =>
    refine ⟨s, rfl, rfl, ?_⟩
    have bare : (k.child p).scrub owner entity = k.child p := by
      rw [Branch.top?_eq_none_iff.mp hd, Branch.scrub]
    rw [bare, Branch.setChild_child]
    exact .refl standing
  | some d =>
    have hheld := picked p d (same ▸ hd)
    rw [Option.map_some]
    simp only [hheld]
    cases holding : d.holds owner entity with
    | false =>
      refine ⟨s, rfl, rfl, ?_⟩
      rw [Branch.scrub_of_not_holds hd holding, Branch.setChild_child]
      exact .refl standing
    | true =>
      obtain ⟨below, square, enough, sound⟩ := fits p d (same ▸ hd)
      rw [← same] at sound
      rw [Branch.scrub_of_holds hd holding]
      exact ih standing (hlabels ▸ room) hk hd sound enough

theorem strip_of_bucket? {below : ClusterId → Registry → Except WiringFault Registry}
    {id : ClusterId} {e : ClusterEntry} {chunk : Chunk} {ids : List ClusterId} {r₁ : Registry}
    (he : r.entries id = some e) (hholders : r.holders owner entity e.children = .ok ids)
    (held : e.cluster.bucket? owner = some chunk)
    (entered : ids.foldlM (fun r child => below child r)
      (r.put { e with cluster := e.cluster.file owner (chunk.erase entity) }) = .ok r₁) :
    r.strip below owner entity id =
      if (chunk.erase entity).isEmpty then
        (r₁.get id).map fun e => r₁.put { e with cluster := e.cluster.unfile owner }
      else .ok r₁ := by
  simp only [strip, get_eq he, hholders, held, bind, Except.bind, entered]
  cases (chunk.erase entity).isEmpty with
  | false => rfl
  | true =>
    cases r₁.get id <;> rfl

/-- Taking an entity out of a cluster and of the holders below it scrubs the branch, but prunes
nothing at its top. -/
theorem strip_spec (ih : ScrubsChild owner entity fuel) (h : r.Stands parent b)
    (room : r.labels.clusters ≤ UInt32.size) (hc : b.top? = some c) (sound : b.Sound levels square)
    (enough : levels < fuel + 1) :
    ∃ r', r.strip (scrub owner entity fuel) owner entity c.id = .ok r' ∧ r'.labels = r.labels ∧
      Rebuilt parent r b r' (b.scrubFrom true owner entity) := by
  cases b with
  | absent => simp at hc
  | node d nw ne sw se =>
    obtain rfl : d = c := Option.some.inj hc
    let e := Branch.entryAt parent (.node d nw ne sw se) [] d
    have he : r.entries d.id = some e := h.kept.top rfl
    have hholders : r.holders owner entity e.children =
        .ok (e.children.filter (r.holdsAt owner entity)) := h.holders_eq rfl
    have slots : ∀ p, e.slot p = ((Branch.node d nw ne sw se).child p).label? :=
      fun _ => Branch.slot_top
    have picked : ∀ p k, ((Branch.node d nw ne sw se).child p).top? = some k →
        r.holdsAt owner entity k.id = k.holds owner entity := fun _ _ hk => h.holdsAt_eq rfl hk
    have fits : ∀ p k, ((Branch.node d nw ne sw se).child p).top? = some k → ∃ below square,
        below < fuel ∧ ((Branch.node d nw ne sw se).child p).Sound below square := by
      intro p k hk
      obtain ⟨below, rfl, fits⟩ := sound.exists_levels hk
      exact ⟨below, _, Nat.lt_of_succ_lt_succ enough, fits⟩
    cases hb : d.bucket? owner with
    | none =>
      have free : e.cluster.bucket? owner = none := hb
      obtain ⟨r₁, hr₁, hlabels₁, scrubbed⟩ := holders_spec ih h room fits slots picked
      refine ⟨r₁, ?_, hlabels₁, ?_⟩
      · simp only [strip, get_eq he, hholders, free, bind, Except.bind]
        exact hr₁
      · rw [Branch.scrubFrom, Cluster.discard_of_free hb]
        exact scrubbed
    | some chunk =>
      -- the chunk loses its member before the holders are scrubbed, and goes after them
      let left := chunk.erase entity
      have held : e.cluster.bucket? owner = some chunk := hb
      have same : ∀ p, (Branch.node (d.file owner left) nw ne sw se).child p =
          (Branch.node d nw ne sw se).child p := by
        intro p
        cases p <;> rfl
      simp only [← same] at slots picked fits
      have filed := @rebuilt_top r parent d nw ne sw se (d.file owner left) r.labels h room rfl rfl
      obtain ⟨r₁, hr₁, hlabels₁, scrubbed⟩ :=
        holders_spec ih (filed.stands h) room fits slots picked
      have both := filed.trans scrubbed h (hlabels₁ ▸ room)
      rw [strip_of_bucket? he hholders held hr₁, Branch.scrubFrom, if_pos rfl,
        Cluster.discard_of_bucket? hb]
      cases empty : left.isEmpty with
      | false => exact ⟨r₁, rfl, hlabels₁, both⟩
      | true =>
        have stands₁ := both.stands h
        let k := Branch.node (d.file owner left) (nw.scrub owner entity) (ne.scrub owner entity)
          (sw.scrub owner entity) (se.scrub owner entity)
        let e₁ := Branch.entryAt parent k [] (d.file owner left)
        have found : r₁.entries d.id = some e₁ := stands₁.kept.top (c := d.file owner left) rfl
        have emptied := rebuilt_top (d := (d.file owner left).unfile owner) (l := r₁.labels) stands₁
          (hlabels₁ ▸ room) rfl rfl
        rw [if_pos rfl, if_pos rfl, get_eq found, ← @Cluster.unfile_file d owner left]
        exact ⟨_, rfl, hlabels₁, both.trans emptied h (hlabels₁ ▸ room)⟩

/-- Removing an entity from a child scrubs the quadrant. -/
theorem scrub_spec (owner : OwnerId) (entity : EntityId) : ScrubsChild owner entity fuel := by
  induction fuel with
  | zero =>
    intro r parent b c d q levels square h room hc hd sound enough
    omega
  | succ fuel ih =>
    intro r parent b c d q levels square h room hc hd sound enough
    let rest := (b.child q).scrubFrom true owner entity
    obtain ⟨r₁, hr₁, hlabels₁, stripped⟩ := strip_spec ih (h.child hc q) room hd sound enough
    have room₁ : r₁.labels.clusters ≤ UInt32.size := hlabels₁ ▸ room
    have lifted := stripped.lift h hc Branch.label?_scrubFrom_root room₁
    have hrest : rest.top? = some (d.discard owner entity) := by
      rw [Branch.top?_scrubFrom true rfl, hd]
      rfl
    let e := Branch.entryAt (some c.id) rest [] (d.discard owner entity)
    have kept := (stripped.stands (h.child hc q)).kept
    have found : r₁.entries d.id = some e := by
      rw [← @Cluster.discard_id d owner entity]
      exact kept.top hrest
    have bare := isBare_iff kept hrest (sound.scrubFrom true) enough
    rw [Cluster.discard_id] at bare
    have stops : scrub owner entity (fuel + 1) d.id r =
        if !e.cluster.hasData && r₁.isBare (fuel + 1) d.id then destroy (fuel + 1) d.id r₁
        else .ok r₁ := by
      simp only [scrub, hr₁, get_eq found, bind, Except.bind]
      rfl
    rw [stops, Branch.scrubFrom_eq_prune]
    cases hf : rest.firstData? with
    | some holder =>
      have not_bare : r₁.isBare (fuel + 1) d.id = false := by
        rw [← Bool.not_eq_true, bare, hf]
        exact Option.some_ne_none holder
      have pruned : rest.prune = rest := by
        rw [Branch.prune, hf]
      rw [not_bare, Bool.and_false, pruned]
      exact ⟨r₁, rfl, hlabels₁, lifted⟩
    | none =>
      -- nothing is left, so the child takes itself out of the quadrant
      have no_data : e.cluster.hasData = false := Branch.firstData?_eq_none_iff.mp hf [] _ hrest
      have pruned : rest.prune = .absent := by
        rw [Branch.prune, hf]
      rw [no_data, bare.mpr hf, pruned]
      have hc₁ : (b.setChild q rest).top? = some c := Branch.top?_setChild.trans hc
      have hchild : (b.setChild q rest).child q = rest :=
        Branch.child_setChild_self (Option.isSome_of_eq_some hc)
      obtain ⟨r₂, hr₂, hlabels₂, destroyed⟩ := destroy_spec (lifted.stands h) room₁ hc₁
        (hchild ▸ hrest) (by rw [hchild]; exact sound.scrubFrom true) enough
      rw [Cluster.discard_id] at hr₂
      rw [Branch.setChild_setChild] at destroyed
      exact ⟨r₂, hr₂, hlabels₂.trans hlabels₁, lifted.trans destroyed h (hlabels₂ ▸ room₁)⟩

/-- Removing an entity from the root scrubs the whole branch. -/
theorem scrub_root_spec (owner : OwnerId) (entity : EntityId) (h : r.Stands none b)
    (room : r.labels.clusters ≤ UInt32.size) (hc : b.top? = some c)
    (sound : b.Sound levels square) (enough : levels < fuel) :
    ∃ r', scrub owner entity fuel c.id r = .ok r' ∧ r'.labels = r.labels ∧
      Rebuilt none r b r' (b.scrubFrom true owner entity) := by
  obtain ⟨fuel, rfl⟩ := Nat.exists_eq_add_one_of_ne_zero (Nat.ne_of_gt (Nat.zero_lt_of_lt enough))
  obtain ⟨r₁, hr₁, hlabels₁, stripped⟩ :=
    strip_spec (scrub_spec owner entity) h room hc sound enough
  refine ⟨r₁, ?_, hlabels₁, stripped⟩
  have hrest : (b.scrubFrom true owner entity).top? = some (c.discard owner entity) := by
    rw [Branch.top?_scrubFrom true rfl, hc]
    rfl
  have found := (stripped.stands h).kept.top hrest
  rw [Cluster.discard_id] at found
  simp only [scrub, hr₁, get_eq found, bind, Except.bind]
  rfl

end Registry

end RailAtlas
