import RailAtlas.Proofs.Registry.Evolution

/-!
# Indexing in a registry

Indexing an entity in a registry does to a branch that is kept in it what growing does to the
branch, without fault. The induction is on the fuel. What a quadrant needs is a child to go on with,
which is made if the quadrant is free, and the quadrants follow one another with the counters.
-/

namespace RailAtlas

namespace Registry

variable {r : Registry} {e d : ClusterEntry} {id : ClusterId} {owner : OwnerId}
variable {entity : EntityId} {m : Member} {q : Quadrant}

theorem resolve_eq {chunk : Chunk} (he : r.entries id = some e)
    (free : e.cluster.bucket? chunk.owner = none) :
    r.resolve id chunk = .ok (r.put { e with cluster := e.cluster.setBucket chunk }) := by
  simp only [resolve, get_eq he, bind, Except.bind, free]

theorem enroll_eq {chunk : Chunk} (he : r.entries id = some e)
    (held : e.cluster.bucket? owner = some chunk) : r.enroll id owner entity m =
      .ok (r.put { e with cluster := e.cluster.file owner (chunk.insert entity m) }) := by
  simp only [enroll, get_eq he, bind, Except.bind, held]

/-- Giving an owner a chunk where there is none, and a member then, is recording the member. -/
theorem furnish_enroll_eq (he : r.entries e.cluster.id = some e) (tidy : e.cluster.Tidy) :
    (r.furnish e.cluster.id owner >>= fun r => r.enroll e.cluster.id owner entity m) =
      .ok ({ r with labels := (e.cluster.record owner entity m r.labels).2 }.put
        { e with cluster := (e.cluster.record owner entity m r.labels).1 }) := by
  cases hb : e.cluster.bucket? owner with
  | some chunk =>
    have howner := tidy.owner hb
    have filed : (chunk.insert entity m).owner = owner := howner
    have furnished : r.furnish e.cluster.id owner = .ok r := by
      simp only [furnish, get_eq he, bind, Except.bind, hb]
    rw [furnished]
    change r.enroll _ _ _ _ = _
    rw [enroll_eq he hb]
    simp only [Cluster.record, hb, Cluster.setBucket, filed]
    rfl
  | none =>
    let chunk := Chunk.empty r.labels.takeChunk.1 owner e.cluster.id e.cluster.square
    let e' : ClusterEntry := { e with cluster := e.cluster.setBucket chunk }
    have furnished : r.furnish e.cluster.id owner =
        .ok ({ r with labels := r.labels.takeChunk.2 }.put e') := by
      simp only [furnish, get_eq he, bind, Except.bind, hb]
      exact resolve_eq he hb
    have given : e'.cluster.bucket? owner = some chunk := by
      rw [Cluster.bucket?_setBucket]
      exact if_pos rfl
    have found : ({ r with labels := r.labels.takeChunk.2 }.put e').entries e.cluster.id =
        some e' := entries_put_self e.cluster.id rfl
    rw [furnished]
    change Registry.enroll _ _ _ _ _ = _
    rw [enroll_eq found given, put_put (by rfl)]
    have filed : e'.cluster.file owner (chunk.insert entity m) =
        e.cluster.setBucket (chunk.insert entity m) := by
      refine Cluster.ext_bucket? rfl rfl fun other => ?_
      rw [Cluster.bucket?_file, Cluster.bucket?_setBucket, Cluster.bucket?_setBucket]
      change (if other = owner then _ else if other = owner then _ else _) =
        if other = owner then _ else _
      split <;> rfl
    rw [filed]
    simp only [Cluster.record, hb]
    rfl

/-! ### Making children -/

variable {parent : Option ClusterId} {b new : Branch} {c : Cluster} {levels : Nat} {square : Square}

/-- The next label was not given out before. -/
theorem takeCluster_not_mem {l : Labels} (room : l.clusters < UInt32.size) :
    l.takeCluster.1 ∉ l.givenOut := by
  have distinct := @Labels.nodup_givenOut l.takeCluster.2 room
  rw [Labels.givenOut_takeCluster, List.nodup_append'] at distinct
  exact fun hmem => distinct.2.2 hmem List.mem_cons_self

/-- A child is made in a free quadrant. -/
theorem newChild_spec (h : r.Stands parent b) (hc : b.top? = some c)
    (fine : r.splits c.square.scale = true) (free : b.child q = .absent)
    (room : r.labels.clusters < UInt32.size) :
    ∃ r', r.newChild c.id q.dx q.dy = .ok (r.labels.takeCluster.1, r') ∧
      r'.labels = r.labels.takeCluster.2 ∧ Rebuilt parent r b r'
        (b.setChild q (.leaf (.empty r.labels.takeCluster.1 (c.square.quadrant q)))) := by
  have htop : b.top?.isSome := Option.isSome_of_eq_some hc
  let id := r.labels.takeCluster.1
  let e := Branch.entryAt parent b [] c
  let child : ClusterEntry :=
    { cluster := .empty id (c.square.quadrant q), parent := some c.id
      northWest := none, northEast := none, southWest := none, southEast := none }
  let r' : Registry :=
    ({ r with labels := r.labels.takeCluster.2 }.put (e.setSlot q (some id))).put child
  have he : r.entries c.id = some e := h.kept.top hc
  have hslot : e.slot q = none := by
    rw [Branch.slot_top, free]
    rfl
  have other : c.id ≠ id := by
    intro same
    have given : c.id ∈ r.labels.givenOut := h.fresh c.id (by rw [he]; rfl)
    rw [same] at given
    exact takeCluster_not_mem room given
  refine ⟨r', ?_, rfl, rfl, Branch.draws_setChild_leaf htop free r.labels _, ?_⟩
  · have fine' : r.splits e.cluster.square.scale = true := fine
    simp only [newChild, get_eq he, bind, Except.bind, fine', Quadrant.ofDirections_dx_dy, hslot]
    rfl
  · have elsewhere : ∀ x, x ≠ id → r'.entries x =
        if x = c.id then some (e.setSlot q (some id)) else r.entries x := by
      intro x hx
      change (if x = id then _ else if x = (e.setSlot q (some id)).cluster.id then _ else _) = _
      rw [if_neg hx, ClusterEntry.cluster_setSlot]
      rfl
    have above : r'.entries c.id = some (e.setSlot q (some id)) := by
      rw [elsewhere c.id other, if_pos rfl]
    refine Branch.evolves_setChild h.kept hc (h.nodup (Nat.le_of_lt room))
      (h.nodup_of_draws (Branch.draws_setChild_leaf htop free r.labels _) room) above ?_ ?_
    · refine (Branch.kept_iff rfl).mpr ⟨entries_put_self id rfl, ?_⟩
      intro p
      have nothing : (Branch.leaf (.empty id (c.square.quadrant q))).child p = .absent := by
        cases p <;> rfl
      rw [nothing]
      exact Branch.kept_absent
    · intro x not_top not_new
      have not_child : x ≠ id := by
        rintro rfl
        exact not_new List.mem_cons_self
      rw [elsewhere x not_child, if_neg not_top, free, Branch.labels_absent,
        if_neg List.not_mem_nil]

/-! ### Growing -/

/-- The first step of growing is to record the member in the top cluster. -/
theorem record_spec {nw ne sw se : Branch} (h : r.Stands parent (.node c nw ne sw se))
    (tidy : c.Tidy) (room : r.labels.clusters ≤ UInt32.size) : ∃ r',
      (r.furnish c.id owner >>= fun r => r.enroll c.id owner entity m) = .ok r' ∧
      r'.labels = (c.record owner entity m r.labels).2 ∧ Rebuilt parent r (.node c nw ne sw se) r'
        (.node (c.record owner entity m r.labels).1 nw ne sw se) := by
  let e := Branch.entryAt parent (.node c nw ne sw se) [] c
  have he : r.entries c.id = some e := h.kept.top rfl
  exact ⟨_, furnish_enroll_eq (e := e) he tidy, rfl,
    rebuilt_top h room Cluster.record_id (Branch.clusters_record c)⟩

/-- An absent branch grows like a new cluster. -/
theorem grow_absent (square : Square) (l : Labels) :
    Branch.grow owner entity m levels square .absent l =
      Branch.grow owner entity m levels square (.leaf (.empty l.takeCluster.1 square))
        l.takeCluster.2 := by
  cases levels <;> rfl

theorem childAt_of_top {d : Cluster} (h : r.Stands parent b) (hc : b.top? = some c)
    (hd : (b.child q).top? = some d) : r.childAt c.id q = .ok (d.id, r) := by
  have hslot : (Branch.entryAt parent b [] c).slot q = some d.id := by
    rw [Branch.slot_top, Branch.label?_of_top? hd]
  simp only [childAt, get_eq (h.kept.top hc), bind, Except.bind, hslot]

theorem childAt_of_free (h : r.Stands parent b) (hc : b.top? = some c)
    (free : b.child q = .absent) : r.childAt c.id q = r.newChild c.id q.dx q.dy := by
  have hslot : (Branch.entryAt parent b [] c).slot q = none := by
    rw [Branch.slot_top, free]
    rfl
  simp only [childAt, get_eq (h.kept.top hc), bind, Except.bind, hslot]

/-- With enough fuel `insert` grows every branch of the given levels. -/
def InsertGrows (owner : OwnerId) (entity : EntityId) (m : Member) (levels fuel : Nat) : Prop :=
  ∀ {r : Registry} {parent : Option ClusterId} {b : Branch} {c : Cluster} {square : Square},
    r.Stands parent b → b.top? = some c → b.Sound levels square →
    levels = (square.scale - r.range.minScale).toNat →
    (b.grow owner entity m levels square r.labels).labels.clusters ≤ UInt32.size →
    ∃ r', insert owner entity m fuel c.id r = .ok r' ∧
      r'.labels = (b.grow owner entity m levels square r.labels).labels ∧
      Rebuilt parent r b r' (b.grow owner entity m levels square r.labels).branch

/-- A child that is made in a free quadrant grows into what the quadrant would grow into. -/
theorem enter_free_spec {fuel : Nat} (ih : InsertGrows owner entity m levels fuel)
    (h : r.Stands parent b) (hc : b.top? = some c) (free : b.child q = .absent)
    (fine : r.splits c.square.scale = true)
    (hlevels : levels = ((c.square.quadrant q).scale - r.range.minScale).toNat)
    (room : (Branch.grow owner entity m levels (c.square.quadrant q) .absent
      r.labels).labels.clusters ≤ UInt32.size) :
    let g := Branch.grow owner entity m levels (c.square.quadrant q) .absent r.labels
    ∃ r', (do
        let (child, r) ← r.childAt c.id q
        insert owner entity m fuel child r) = .ok r' ∧
      r'.labels = g.labels ∧ Rebuilt parent r b r' (b.setChild q g.branch) := by
  rw [grow_absent] at room ⊢
  let leaf := Branch.leaf (.empty r.labels.takeCluster.1 (c.square.quadrant q))
  have taken := (@Branch.draws_grow owner entity m levels (c.square.quadrant q) leaf
    r.labels.takeCluster.2).le
  obtain ⟨r₁, hr₁, hlabels₁, made⟩ := newChild_spec h hc fine free (Nat.le_trans taken room)
  have hc₁ : (b.setChild q leaf).top? = some c := Branch.top?_setChild.trans hc
  have hleaf : (b.setChild q leaf).child q = leaf :=
    Branch.child_setChild_self (Option.isSome_of_eq_some hc)
  have below := (made.stands h).child hc₁ q
  rw [hleaf] at below
  rw [← hlabels₁] at room ⊢
  rw [← made.range_eq] at hlevels
  obtain ⟨r', hr', hlabels, grown⟩ := ih below rfl (Branch.anchored_leaf _).sound hlevels room
  rw [← hleaf] at grown
  refine ⟨r', ?_, hlabels, made.trans ?_ h (hlabels ▸ room)⟩
  · simp only [childAt_of_free h hc free, hr₁, bind, Except.bind]
    exact hr'
  · have lifted := grown.lift (made.stands h) hc₁ ?_ (hlabels ▸ room)
    · rwa [Branch.setChild_setChild, hleaf] at lifted
    · rw [hleaf]
      exact Branch.label?_grow rfl

/-- Entering a quadrant makes a child if there is none and goes on with it. -/
theorem enter_spec {fuel : Nat} {g : Growth} (ih : InsertGrows owner entity m levels fuel)
    (h : r.Stands parent b) (hc : b.top? = some c) (hid : c.id = id) (hsquare : c.square = square)
    (sound : (b.child q).Sound levels (square.quadrant q))
    (hlevels : levels + 1 = (square.scale - r.range.minScale).toNat)
    (hg : g = (b.child q).enter owner entity m levels square q r.labels)
    (room : g.labels.clusters ≤ UInt32.size) :
    ∃ r', (if (square.quadrant q).contains m.point then do
          let (child, r) ← r.childAt id q
          insert owner entity m fuel child r
        else .ok r) = .ok r' ∧
      r'.labels = g.labels ∧ Rebuilt parent r b r' (b.setChild q g.branch) := by
  subst hid hsquare hg
  have square_below : (c.square.quadrant q).scale = c.square.scale - 1 := rfl
  have hlevels' : levels = ((c.square.quadrant q).scale - r.range.minScale).toNat := by
    omega
  rw [Branch.enter] at room ⊢
  split
  · next inside =>
    rw [if_pos inside] at room
    cases hd : (b.child q).top? with
    | some d =>
      obtain ⟨r', hr', hlabels, grown⟩ := ih (h.child hc q) hd sound hlevels' room
      refine ⟨r', ?_, hlabels, grown.lift h hc (Branch.label?_grow hd) (hlabels ▸ room)⟩
      simp only [childAt_of_top h hc hd, bind, Except.bind, hr']
    | none =>
      have free : b.child q = .absent := Branch.top?_eq_none_iff.mp hd
      rw [free] at room ⊢
      exact enter_free_spec ih h hc free (decide_eq_true (by omega)) hlevels' room
  · refine ⟨r, rfl, rfl, ?_⟩
    rw [Branch.unchanged, Branch.setChild_child]
    exact .refl h

theorem insert_eq {fuel : Nat} {r₀ : Registry} (he : r.entries id = some e)
    (filed : (r.furnish id owner >>= fun r => r.enroll id owner entity m) = .ok r₀) :
    insert owner entity m (fuel + 1) id r =
      if !r₀.splits e.cluster.square.scale then .ok r₀
      else
        Quadrant.all.foldlM (fun r q =>
          if (e.cluster.square.quadrant q).contains m.point then do
            let (child, r) ← r.childAt id q
            insert owner entity m fuel child r
          else .ok r) r₀ := by
  rw [insert, get_eq he]
  change (r.furnish id owner >>= fun r => r.enroll id owner entity m >>= _) = _
  rw [← bind_assoc, filed]
  rfl

/-- Indexing a member does to the registry what growing does to the branch. -/
theorem insert_spec {fuel : Nat} (enough : levels < fuel) :
    InsertGrows owner entity m levels fuel := by
  induction levels generalizing fuel with
  | zero =>
    intro r parent b c square h hc sound hlevels room
    obtain ⟨fuel, rfl⟩ := Nat.exists_eq_add_one_of_ne_zero (Nat.ne_of_gt enough)
    obtain rfl := sound.top_square hc
    cases b with
    | absent => simp at hc
    | node d nw ne sw se =>
      obtain rfl : d = c := Option.some.inj hc
      have start := Nat.le_trans (Branch.draws_grow (.node d nw ne sw se) r.labels).le room
      obtain ⟨r₀, hr₀, hlabels, grown⟩ :=
        @record_spec r owner entity m parent d nw ne sw se h (sound.top_tidy hc) start
      refine ⟨r₀, ?_, hlabels, grown⟩
      have finest : r₀.splits d.square.scale = false := by
        rw [splits, grown.range_eq]
        exact decide_eq_false (by omega)
      rw [insert_eq (h.kept.top hc) hr₀]
      change (if !r₀.splits d.square.scale then _ else _) = _
      rw [finest]
      rfl
  | succ levels ih =>
    intro r parent b c square h hc sound hlevels room
    obtain ⟨fuel, rfl⟩ := Nat.exists_eq_add_one_of_ne_zero (Nat.ne_of_gt (Nat.zero_lt_of_lt enough))
    obtain rfl := sound.top_square hc
    cases b with
    | absent => simp at hc
    | node d nw ne sw se =>
      obtain rfl : d = c := Option.some.inj hc
      have start := Nat.le_trans (Branch.draws_grow (.node d nw ne sw se) r.labels).le room
      obtain ⟨r₀, hr₀, hlabels₀, recorded⟩ :=
        @record_spec r owner entity m parent d nw ne sw se h (sound.top_tidy hc) start
      obtain ⟨gnw, gne, gsw, gse, hnw, hne, hsw, hse, hbranch, hlabels⟩ :=
        Branch.exists_grow_succ owner entity m levels d.square (.node d nw ne sw se) r.labels
      rw [hlabels] at room
      have room_sw : gsw.labels.clusters ≤ UInt32.size :=
        Nat.le_trans (hse ▸ (Branch.draws_enter ..).le) room
      have room_ne : gne.labels.clusters ≤ UInt32.size :=
        Nat.le_trans (hsw ▸ (Branch.draws_enter ..).le) room_sw
      have room_nw : gnw.labels.clusters ≤ UInt32.size :=
        Nat.le_trans (hne ▸ (Branch.draws_enter ..).le) room_ne
      have grows : InsertGrows owner entity m levels fuel := ih (Nat.lt_of_succ_lt_succ enough)
      have below : ∀ {r' : Registry}, r'.range = r.range →
          levels + 1 = (d.square.scale - r'.range.minScale).toNat := by
        intro r' hrange
        rw [hrange]
        exact hlevels
      -- each quadrant finds the others as they were, and the counters where they were left
      obtain ⟨r₁, hr₁, hlabels₁, entered₁⟩ := enter_spec (q := .northWest) grows
        (recorded.stands h) rfl Cluster.record_id Cluster.record_square (sound.child .northWest)
        (below recorded.range_eq) (hlabels₀ ▸ hnw) room_nw
      have grown₁ := recorded.trans entered₁ h (hlabels₁ ▸ room_nw)
      obtain ⟨r₂, hr₂, hlabels₂, entered₂⟩ := enter_spec (q := .northEast) grows
        (grown₁.stands h) rfl Cluster.record_id Cluster.record_square (sound.child .northEast)
        (below grown₁.range_eq) (hlabels₁ ▸ hne) room_ne
      have grown₂ := grown₁.trans entered₂ h (hlabels₂ ▸ room_ne)
      obtain ⟨r₃, hr₃, hlabels₃, entered₃⟩ := enter_spec (q := .southWest) grows
        (grown₂.stands h) rfl Cluster.record_id Cluster.record_square (sound.child .southWest)
        (below grown₂.range_eq) (hlabels₂ ▸ hsw) room_sw
      have grown₃ := grown₂.trans entered₃ h (hlabels₃ ▸ room_sw)
      obtain ⟨r₄, hr₄, hlabels₄, entered₄⟩ := enter_spec (q := .southEast) grows
        (grown₃.stands h) rfl Cluster.record_id Cluster.record_square (sound.child .southEast)
        (below grown₃.range_eq) (hlabels₃ ▸ hse) room
      refine ⟨r₄, ?_, hlabels₄.trans hlabels.symm, ?_⟩
      · have splits : r₀.splits d.square.scale = true := by
          rw [Registry.splits, recorded.range_eq]
          exact decide_eq_true (by omega)
        rw [insert_eq (h.kept.top hc) hr₀]
        change (if !r₀.splits d.square.scale then _ else _) = _
        rw [splits, Bool.not_true, if_neg Bool.false_ne_true]
        exact foldlM_all hr₁ hr₂ hr₃ hr₄
      · rw [hbranch]
        exact grown₃.trans entered₄ h (hlabels₄ ▸ room)

end Registry

end RailAtlas
