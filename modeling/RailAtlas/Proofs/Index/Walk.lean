import RailAtlas.Proofs.Index.Calls

/-!
# What a viewport query collects

The walk of a viewport query stops at the first cluster on each path that is fine enough, and does
not enter clusters that the viewport does not meet. `Exported` describes these places without a
walk. The chunks found there are written into a view one after the other; the first one that holds
an entity gives its entry, and the rest is appended.
-/

namespace RailAtlas

/-! ### Writing chunks into a view -/

namespace View

variable {v : View} {e : ViewEntry} {id : EntityId}

theorem get?_insert :
    (v.insert e).get? id = (v.get? id).or (if id = e.id then some e else none) := by
  have contains : v.contains e.id = (v.get? e.id).isSome :=
    Std.ExtTreeMap.contains_eq_isSome_getElem?
  rw [insert, contains]
  cases shown : v.get? e.id with
  | some other =>
    simp only [Option.isSome_some, if_true]
    split
    · next same => rw [same, shown, Option.some_or]
    · rw [Option.or_none]
  | none =>
    simp only [Option.isSome_none, Bool.false_eq_true, if_false, get?,
      Std.ExtTreeMap.getElem?_insert, Std.compare_eq_iff_eq]
    by_cases same : e.id = id
    · rw [if_pos same, if_pos same.symm, ← same]
      change some e = (v.get? e.id).or (some e)
      rw [shown, Option.none_or]
    · rw [if_neg same, if_neg (Ne.symm same), Option.or_none]

@[simp] theorem sources_insert : (v.insert e).sources = v.sources := by
  rw [insert]; split <;> rfl

@[simp] theorem delegates_insert : (v.insert e).delegates = v.delegates := by
  rw [insert]; split <;> rfl

@[simp] theorem edges_insert : (v.insert e).edges = v.edges := by
  rw [insert]; split <;> rfl

theorem foldl_addDelegate (ds : List Delegate) :
    ds.foldl addDelegate v = { v with delegates := v.delegates ++ ds } := by
  induction ds generalizing v with
  | nil => simp
  | cons d ds ih => simp [ih, addDelegate]

theorem foldl_addEdge (ds : List EdgeDelegate) :
    ds.foldl addEdge v = { v with edges := v.edges ++ ds } := by
  induction ds generalizing v with
  | nil => simp
  | cons d ds ih => simp [ih, addEdge]

/-- Showing entries one after the other keeps the rest of the view. -/
theorem foldl_insert (es : List ViewEntry) :
    (es.foldl insert v).sources = v.sources ∧ (es.foldl insert v).delegates = v.delegates ∧
      (es.foldl insert v).edges = v.edges := by
  induction es generalizing v with
  | nil => exact ⟨rfl, rfl, rfl⟩
  | cons e es ih =>
    obtain ⟨hs, hd, he⟩ := @ih (v.insert e)
    exact ⟨hs.trans sources_insert, hd.trans delegates_insert, he.trans edges_insert⟩

/-- Of several entries of an entity the first one is shown. -/
theorem get?_foldl_insert (es : List ViewEntry) :
    (es.foldl insert v).get? id = (v.get? id).or (es.find? fun e => decide (id = e.id)) := by
  induction es generalizing v with
  | nil => simp
  | cons e es ih =>
    rw [List.foldl_cons, ih, get?_insert, Option.or_assoc, List.find?_cons]
    by_cases same : id = e.id <;> simp [same]

end View

namespace Chunk

variable {c : Chunk} {v : View} {id : EntityId}

def entryList (c : Chunk) : List ViewEntry :=
  c.memberList.map fun e => c.entry e.1 e.2

/-- What a view has to show of an entity that a chunk holds: its kind and its point under the owner
and the scale of the chunk. -/
def entryOf? (c : Chunk) (id : EntityId) : Option ViewEntry :=
  (c.get? id).map fun m =>
    { id, owner := c.owner, kind := m.kind, point := m.point, scale := c.square.scale }

theorem mem_memberList_iff {m : Member} : (id, m) ∈ c.memberList ↔ c.get? id = some m :=
  Std.ExtTreeMap.mem_toList_iff_getElem?_eq_some

theorem find?_entryList : (c.entryList.find? fun e => decide (id = e.id)) = c.entryOf? id := by
  rw [entryList, List.find?_map, entryOf?]
  cases found : c.memberList.find? ((fun e => decide (id = e.id)) ∘ fun e => c.entry e.1 e.2) with
  | none =>
    rw [List.find?_eq_none] at found
    cases held : c.get? id with
    | none => rfl
    | some m =>
      have missed := found (id, m) (mem_memberList_iff.mpr held)
      simp [entry] at missed
  | some e =>
    obtain ⟨id', m⟩ := e
    have same : id = id' := by simpa [entry] using List.find?_some found
    subst same
    rw [mem_memberList_iff.mp (List.mem_of_find?_eq_some found)]
    rfl

/-- What a chunk adds to a view. -/
theorem exportTo_spec :
    (c.exportTo v).sources = v.sources ++ [c.source] ∧
    (c.exportTo v).delegates = v.delegates ++ delegatedKinds.filterMap c.delegate? ∧
    (c.exportTo v).edges = v.edges ++ c.edgeDelegates ∧
    ∀ id, (c.exportTo v).get? id = (v.get? id).or (c.entryOf? id) := by
  have shown : c.exportTo v = c.edgeDelegates.foldl View.addEdge
      ((delegatedKinds.filterMap c.delegate?).foldl View.addDelegate
        (c.entryList.foldl View.insert (v.addSource c.source))) := by
    rw [entryList, List.foldl_map]
    rfl
  obtain ⟨hs, hd, he⟩ := @View.foldl_insert (v.addSource c.source) c.entryList
  rw [shown, View.foldl_addEdge, View.foldl_addDelegate]
  refine ⟨hs, congrArg (· ++ _) hd, congrArg (· ++ _) he, fun id => ?_⟩
  rw [← find?_entryList]
  exact View.get?_foldl_insert c.entryList

/-- What several chunks add to a view, one after the other. -/
theorem foldl_exportTo (cs : List Chunk) :
    let shown := cs.foldl (fun v c => c.exportTo v) v
    shown.sources = v.sources ++ cs.map source ∧
    shown.delegates = v.delegates ++ cs.flatMap (fun c => delegatedKinds.filterMap c.delegate?) ∧
    shown.edges = v.edges ++ cs.flatMap edgeDelegates ∧
    ∀ id, shown.get? id = (v.get? id).or (cs.findSome? (·.entryOf? id)) := by
  induction cs generalizing v with
  | nil => simp
  | cons c cs ih =>
    obtain ⟨hs, hd, he, hg⟩ := @ih (c.exportTo v)
    obtain ⟨ks, kd, ke, kg⟩ := @exportTo_spec c v
    refine ⟨?_, ?_, ?_, fun id => ?_⟩
    · rw [List.foldl_cons, hs, ks]
      simp
    · rw [List.foldl_cons, hd, kd]
      simp
    · rw [List.foldl_cons, he, ke]
      simp
    · rw [List.foldl_cons, hg, kg, Option.or_assoc, List.findSome?_cons]
      cases c.entryOf? id <;> rfl

/-- Where an edge delegate leads is not known yet when it is made. -/
theorem peer_of_mem_edgeDelegates {d : EdgeDelegate} (h : d ∈ c.edgeDelegates) : d.peer = none := by
  obtain ⟨offset, -, rfl⟩ := List.mem_map.mp h
  rfl

end Chunk

/-! ### Where the walk stops -/

theorem Cluster.mem_bucketList_iff {c : Cluster} {owner : OwnerId} {chunk : Chunk} :
    (owner, chunk) ∈ c.bucketList ↔ c.bucket? owner = some chunk :=
  Std.ExtTreeMap.mem_toList_iff_getElem?_eq_some

namespace Viewport

/-- A cluster is fine enough for a viewport. -/
def Finer (viewport : Viewport) (c : Cluster) : Prop :=
  Float.ofInt c.square.scale < viewport.scale - viewport.span

def Meets (viewport : Viewport) (c : Cluster) : Prop :=
  c.square.meets viewport.center viewport.scale = true

end Viewport

namespace Branch

variable {b : Branch} {c : Cluster} {q : Quadrant} {path : List Quadrant} {viewport : Viewport}

/-- A cluster is exported: it is fine enough, none above it is, and it and all above it meet the
viewport. -/
structure Exported (viewport : Viewport) (b : Branch) (path : List Quadrant) : Prop where
  finer : ∃ c, b.at? path = some c ∧ viewport.Finer c
  first : ∀ ⦃front c⦄, front <+: path → front ≠ path → b.at? front = some c → ¬ viewport.Finer c
  meets : ∀ ⦃front c⦄, front <+: path → b.at? front = some c → viewport.Meets c

/-- The chunks of the cluster at a place, in ascending order of their owners. -/
def bucketsAt (b : Branch) (path : List Quadrant) : List Chunk :=
  match b.at? path with
  | some c => c.bucketList.map (·.2)
  | none => []

/-- The chunks at a place hold an entity exactly if it is recorded there for some owner. -/
theorem exists_bucketsAt_iff {id : EntityId} :
    (∃ chunk ∈ b.bucketsAt path, (chunk.get? id).isSome) ↔
      ∃ owner, (b.memberAt? path owner id).isSome := by
  rw [bucketsAt]
  cases hc : b.at? path with
  | none => simp [memberAt?, hc]
  | some c =>
    simp only [memberAt?_of_at? hc, List.mem_map]
    constructor
    · rintro ⟨-, ⟨⟨owner, chunk⟩, listed, rfl⟩, held⟩
      exact ⟨owner, by rwa [Cluster.member?, Cluster.mem_bucketList_iff.mp listed]⟩
    · rintro ⟨owner, held⟩
      obtain ⟨m, hm⟩ := Option.isSome_iff_exists.mp held
      obtain ⟨chunk, filed, hget⟩ := Option.bind_eq_some_iff.mp hm
      exact ⟨chunk, ⟨(owner, chunk), Cluster.mem_bucketList_iff.mpr filed, rfl⟩,
        Option.isSome_of_eq_some hget⟩

open Classical in
/-- The places where the walk stops, in the order in which it comes to them. -/
noncomputable def exportPlaces (viewport : Viewport) : Branch → List (List Quadrant)
  | absent => []
  | node c nw ne sw se =>
    if ¬ viewport.Meets c then []
    else if viewport.Finer c then [[]]
    else
      (nw.exportPlaces viewport).map (.northWest :: ·) ++
        (ne.exportPlaces viewport).map (.northEast :: ·) ++
        (sw.exportPlaces viewport).map (.southWest :: ·) ++
        (se.exportPlaces viewport).map (.southEast :: ·)

theorem exported_nil_iff (hc : b.top? = some c) :
    Exported viewport b [] ↔ viewport.Meets c ∧ viewport.Finer c := by
  constructor
  · rintro ⟨⟨d, hd, finer⟩, -, meets⟩
    obtain rfl := Option.some.inj (hc.symm.trans hd)
    exact ⟨meets List.prefix_rfl hc, finer⟩
  · rintro ⟨meets, finer⟩
    refine ⟨⟨c, hc, finer⟩, ?_, ?_⟩
    · intro front d above below
      exact absurd (List.prefix_nil.mp above) below
    · intro front d above hd
      rw [List.prefix_nil.mp above] at hd
      rwa [← Option.some.inj (hc.symm.trans hd)]

theorem exported_cons_iff (hc : b.top? = some c) : Exported viewport b (q :: path) ↔
    viewport.Meets c ∧ ¬ viewport.Finer c ∧ Exported viewport (b.child q) path := by
  constructor
  · rintro ⟨finer, first, meets⟩
    refine ⟨meets (List.nil_prefix) hc, first (List.nil_prefix) (by simp) hc, finer, ?_, ?_⟩
    · intro front d above below hd
      exact first (List.cons_prefix_cons.mpr ⟨rfl, above⟩) (by simpa using below) hd
    · intro front d above hd
      exact meets (List.cons_prefix_cons.mpr ⟨rfl, above⟩) hd
  · rintro ⟨here, coarse, finer, first, meets⟩
    refine ⟨finer, ?_, ?_⟩
    · rintro (_ | ⟨r, front⟩) d above below hd
      · rwa [← Option.some.inj (hc.symm.trans hd)]
      · obtain ⟨rfl, rest⟩ := List.cons_prefix_cons.mp above
        exact first rest (by simpa using below) hd
    · rintro (_ | ⟨r, front⟩) d above hd
      · rwa [← Option.some.inj (hc.symm.trans hd)]
      · obtain ⟨rfl, rest⟩ := List.cons_prefix_cons.mp above
        exact meets rest hd

theorem mem_exportPlaces_iff : path ∈ b.exportPlaces viewport ↔ Exported viewport b path := by
  induction b using quadrant_induction generalizing path with
  | absent =>
    constructor
    · simp [exportPlaces]
    · rintro ⟨⟨c, hc, -⟩, -, -⟩
      simp at hc
  | node c nw ne sw se ih =>
    have top : (node c nw ne sw se).top? = some c := rfl
    rw [exportPlaces]
    rcases path with _ | ⟨q, path⟩
    · rw [exported_nil_iff top]
      split
      · next apart => simp [apart]
      · next meets => split <;> simp_all
    · rw [exported_cons_iff top, ← ih q]
      split
      · next apart => simp [apart]
      · next meets =>
        split
        · next finer => simp [finer]
        · next coarse => cases q <;> simp_all [child]

theorem exportPlaces_sublist : (b.exportPlaces viewport).Sublist b.places := by
  induction b with
  | absent => exact List.Sublist.refl _
  | node c nw ne sw se ihNW ihNE ihSW ihSE =>
    rw [exportPlaces, places]
    split
    · exact List.nil_sublist _
    · split
      · exact (List.nil_sublist _).cons_cons _
      · exact ((((ihNW.map _).append (ihNE.map _)).append (ihSW.map _)).append (ihSE.map _)).cons _

/-- The walk takes the chunks of the places where it stops. -/
theorem shown_eq_flatMap : b.shown viewport = (b.exportPlaces viewport).flatMap b.bucketsAt := by
  induction b with
  | absent => rfl
  | node c nw ne sw se ihNW ihNE ihSW ihSE =>
    have entered (q : Quadrant) (places : List (List Quadrant)) :
        (places.map (q :: ·)).flatMap (node c nw ne sw se).bucketsAt =
          places.flatMap ((node c nw ne sw se).child q).bucketsAt := by
      rw [List.flatMap_map]
      rfl
    rw [shown, exportPlaces]
    by_cases meets : c.square.meets viewport.center viewport.scale = true
    · by_cases finer : Float.ofInt c.square.scale < viewport.scale - viewport.span
      · simp [meets, finer, Viewport.Meets, Viewport.Finer, bucketsAt]
      · simp only [Viewport.Meets, Viewport.Finer, meets, finer, Bool.not_true, not_true,
          Bool.false_eq_true, if_false, List.flatMap_append, entered, ihNW, ihNE, ihSW, ihSE]
        rfl
    · simp [meets, Viewport.Meets]

/-- A shown chunk is one of a cluster at which the walk stops. -/
theorem exists_of_mem_shown {chunk : Chunk} (shown : chunk ∈ b.shown viewport) :
    ∃ path c owner, b.at? path = some c ∧ Exported viewport b path ∧
      c.bucket? owner = some chunk := by
  rw [shown_eq_flatMap] at shown
  obtain ⟨path, place, listed⟩ := List.mem_flatMap.mp shown
  have exported := mem_exportPlaces_iff.mp place
  obtain ⟨c, hc, -⟩ := exported.finer
  rw [bucketsAt, hc] at listed
  obtain ⟨⟨owner, chunk⟩, filed, rfl⟩ := List.mem_map.mp listed
  exact ⟨path, c, owner, hc, exported, Cluster.mem_bucketList_iff.mp filed⟩

/-- On a path of clusters that meet the viewport, with one that is fine enough at its end, there is
a first one. -/
theorem exists_exported (hc : b.at? path = some c) (finer : viewport.Finer c)
    (meets : ∀ ⦃front d⦄, front <+: path → b.at? front = some d → viewport.Meets d) :
    ∃ front, front <+: path ∧ Exported viewport b front := by
  induction path generalizing b with
  | nil => exact ⟨[], List.prefix_rfl, (exported_nil_iff hc).mpr ⟨meets List.prefix_rfl hc, finer⟩⟩
  | cons q path ih =>
    obtain ⟨top, htop⟩ := Option.isSome_iff_exists.mp
      (isSome_top?_of_at? (Option.isSome_of_eq_some hc))
    have here : viewport.Meets top := meets List.nil_prefix htop
    by_cases early : viewport.Finer top
    · exact ⟨[], List.nil_prefix, (exported_nil_iff htop).mpr ⟨here, early⟩⟩
    · obtain ⟨front, above, exported⟩ := @ih (b.child q) hc fun front d above hd =>
        meets (List.cons_prefix_cons.mpr ⟨rfl, above⟩) hd
      exact ⟨q :: front, List.cons_prefix_cons.mpr ⟨rfl, above⟩,
        (exported_cons_iff htop).mpr ⟨here, early, exported⟩⟩

/-- No exported cluster is above another one. -/
theorem Exported.eq_of_above {front : List Quadrant} (h : Exported viewport b path)
    (above : Exported viewport b front) (below : front <+: path) : front = path := by
  by_contra apart
  obtain ⟨c, hc, finer⟩ := above.finer
  exact h.first below apart hc finer

/-- All exported clusters have one scale: which scales are fine enough is the same on each path. -/
theorem Sound.length_eq_of_exported {levels : Nat} {square : Square} (h : Sound levels square b)
    {other : List Quadrant} (hp : Exported viewport b path) (ho : Exported viewport b other) :
    path.length = other.length := by
  have not_shorter {short long : List Quadrant} (hs : Exported viewport b short)
      (hl : Exported viewport b long) : long.length ≤ short.length := by
    by_contra longer
    obtain ⟨c, hc, finer⟩ := hs.finer
    obtain ⟨d, hd, -⟩ := hl.finer
    have above : long.take short.length <+: long := List.take_prefix _ _
    obtain ⟨e, he⟩ := Option.isSome_iff_exists.mp (isSome_at?_of_append
      ((List.take_append_drop short.length long).symm ▸ Option.isSome_of_eq_some hd))
    have same : e.square.scale = c.square.scale := by
      rw [h.placed he, h.placed hc, Square.scale_along, Square.scale_along, List.length_take]
      omega
    refine hl.first above (fun all => ?_) he ?_
    · have := congrArg List.length all
      rw [List.length_take] at this
      omega
    · rwa [Viewport.Finer, same]
  exact Nat.le_antisymm (not_shorter ho hp) (not_shorter hp ho)

end Branch

/-! ### The view of a reachable tree -/

namespace Cluster

variable {c : Cluster}

/-- The chunks of a cluster as sources of a view. -/
def sources (c : Cluster) : List ViewSource :=
  c.bucketList.map fun (owner, chunk) =>
    { cluster := c.id, chunk := chunk.id, owner, scale := c.square.scale }

/-- The chunks of a tidy cluster name it and its scale. -/
theorem Tidy.map_source (h : c.Tidy) : (c.bucketList.map (·.2)).map Chunk.source = c.sources := by
  rw [sources, List.map_map]
  refine List.map_congr_left ?_
  rintro ⟨owner, chunk⟩ listed
  have filed := mem_bucketList_iff.mp listed
  simp [Chunk.source, h.home filed, h.owner filed, h.square filed]

theorem pairwise_owner_sources : c.sources.Pairwise fun s r => compare s.owner r.owner = .lt :=
  List.pairwise_map.mpr Std.ExtTreeMap.ordered_keys_toList

theorem nodup_sources : c.sources.Nodup := by
  refine pairwise_owner_sources.imp ?_
  rintro s r before rfl
  have itself : compare s.owner s.owner = .eq := Std.ReflCmp.compare_self
  rw [itself] at before
  cases before

end Cluster

namespace Tree

variable {range : ScaleRange} {t : Tree} {viewport : Viewport} {d : EdgeDelegate}

/-- The sources that the cluster at a place gives to a view. -/
def sourcesAt (t : Tree) (path : List Quadrant) : List ViewSource :=
  match t.root.at? path with
  | some c => c.sources
  | none => []

theorem peer?_eq : t.peer? d =
    ((t.locate? d.peerCenter d.scale).bind (·.bucket? d.owner)).map (·.id) := by
  rw [peer?]
  cases t.locate? d.peerCenter d.scale with
  | none => rfl
  | some c =>
    cases found : c.bucket? d.owner <;> simp [found]

theorem fillView_eq {v : View} : t.fillView viewport v =
    let shown := ((t.root.exportPlaces viewport).flatMap t.root.bucketsAt).foldl
      (fun v c => c.exportTo v) v
    { shown with edges := shown.edges.map t.linkPeer } := by
  rw [fillView, Branch.shown_eq_flatMap]

/-- The first exported chunk that holds an entity gives its entry. -/
theorem get?_fillView (id : EntityId) : (t.fillView viewport .empty).get? id =
    ((t.root.exportPlaces viewport).flatMap t.root.bucketsAt).findSome? (·.entryOf? id) := by
  have none_yet : View.empty.get? id = none := by simp [View.empty, View.get?]
  rw [fillView_eq]
  refine (Chunk.foldl_exportTo _).2.2.2 id |>.trans ?_
  rw [none_yet, Option.none_or]

/-- An entity is shown exactly if an exported cluster holds it for some owner. -/
theorem contains_fillView_iff {id : EntityId} : (t.fillView viewport .empty).contains id = true ↔
    ∃ path, t.root.Exported viewport path ∧ ∃ owner, (t.root.memberAt? path owner id).isSome := by
  have shown : (t.fillView viewport .empty).contains id =
      ((t.fillView viewport .empty).get? id).isSome := Std.ExtTreeMap.contains_eq_isSome_getElem?
  rw [shown, get?_fillView, List.findSome?_isSome_iff]
  simp only [List.mem_flatMap, Branch.mem_exportPlaces_iff, ← Branch.exists_bucketsAt_iff,
    Chunk.entryOf?, Option.isSome_map]
  constructor
  · rintro ⟨chunk, ⟨path, exported, listed⟩, held⟩
    exact ⟨path, exported, chunk, listed, held⟩
  · rintro ⟨path, exported, chunk, listed, held⟩
    exact ⟨chunk, ⟨path, exported, listed⟩, held⟩

theorem linkPeer_of_none (h : d.peer = none) : t.linkPeer d = { d with peer := t.peer? d } := by
  rw [linkPeer, h]

theorem Labelled.map_source_bucketsAt (h : t.Labelled) (path : List Quadrant) :
    (t.root.bucketsAt path).map Chunk.source = t.sourcesAt path := by
  rw [Branch.bucketsAt, sourcesAt]
  cases hc : t.root.at? path with
  | none => rfl
  | some c => exact (h.sound.tidy hc).map_source

theorem Labelled.scale_of_mem_sourcesAt (h : t.Labelled) {path : List Quadrant} {s : ViewSource}
    (hs : s ∈ t.sourcesAt path) : s.scale = t.range.maxScale - path.length := by
  rw [sourcesAt] at hs
  cases hc : t.root.at? path with
  | none => simp [hc] at hs
  | some c =>
    rw [hc] at hs
    obtain ⟨entry, -, rfl⟩ := List.mem_map.mp hs
    change c.square.scale = _
    rw [h.sound.placed hc, Square.scale_along, worldSquare]

theorem nodup_flatMap_sourcesAt (distinct : t.root.labels.Nodup) {places : List (List Quadrant)}
    (h : places.Nodup) : (places.flatMap t.sourcesAt).Nodup := by
  have named {path : List Quadrant} {s : ViewSource} (hs : s ∈ t.sourcesAt path) :
      ∃ c, t.root.at? path = some c ∧ s.cluster = c.id := by
    rw [sourcesAt] at hs
    cases hc : t.root.at? path with
    | none => simp [hc] at hs
    | some c =>
      rw [hc] at hs
      obtain ⟨entry, -, rfl⟩ := List.mem_map.mp hs
      exact ⟨c, rfl, rfl⟩
  rw [List.nodup_flatMap]
  refine ⟨fun path _ => ?_, h.imp ?_⟩
  · rw [sourcesAt]
    cases t.root.at? path with
    | none => exact List.nodup_nil
    | some c => exact Cluster.nodup_sources
  · intro path other apart s hs ho
    obtain ⟨c, hc, hid⟩ := named hs
    obtain ⟨e, he, hid'⟩ := named ho
    exact apart (Branch.path_eq_of_nodup distinct hc he (hid.symm.trans hid'))

/-- A view of a reachable tree shows the chunks of the first clusters on each path that are fine
enough, as far as the viewport meets everything above them. -/
theorem fillView_of_reachable (h : Reachable range t) (viewport : Viewport) :
    let v := t.fillView viewport .empty
    ∃ places : List (List Quadrant), places.Sublist t.root.places ∧
      (∀ path, path ∈ places ↔ t.root.Exported viewport path) ∧
      (∀ path ∈ places, ∀ other ∈ places, path <+: other → path = other) ∧
      v.sources = places.flatMap t.sourcesAt ∧ v.sources.Nodup ∧
      (∀ path ∈ places, (t.sourcesAt path).Pairwise fun s r => compare s.owner r.owner = .lt) ∧
      (∀ s ∈ v.sources, ∀ r ∈ v.sources, s.scale = r.scale) ∧
      let chunks := places.flatMap t.root.bucketsAt
      (∀ id, v.get? id = chunks.findSome? (·.entryOf? id)) ∧
      v.delegates = chunks.flatMap (fun c =>
        [EntityKind.railNode, .residence, .company].filterMap c.delegate?) ∧
      v.edges = (chunks.flatMap Chunk.edgeDelegates).map fun d => { d with
        peer := ((t.locate? d.peerCenter d.scale).bind (·.bucket? d.owner)).map (·.id) } := by
  intro v
  obtain ⟨labelled, room, -⟩ := h.labelled
  let places := t.root.exportPlaces viewport
  have exported {path : List Quadrant} : path ∈ places ↔ t.root.Exported viewport path :=
    Branch.mem_exportPlaces_iff
  have ordered : places.Sublist t.root.places := Branch.exportPlaces_sublist
  obtain ⟨hsources, hdelegates, hedges, -⟩ :=
    @Chunk.foldl_exportTo .empty (places.flatMap t.root.bucketsAt)
  have hv : v = _ := fillView_eq
  have sources : v.sources = places.flatMap t.sourcesAt := by
    rw [hv]
    refine hsources.trans ((List.nil_append _).trans ?_)
    rw [List.map_flatMap]
    exact congrArg (places.flatMap ·) (funext labelled.map_source_bucketsAt)
  refine ⟨places, ordered, fun _ => exported, ?_, sources, ?_, ?_, ?_, ?_, ?_, ?_⟩
  · intro path hp other ho below
    exact (exported.mp ho).eq_of_above (exported.mp hp) below
  · rw [sources]
    exact nodup_flatMap_sourcesAt (labelled.nodup (Nat.le_of_lt room))
      (ordered.nodup Branch.nodup_places)
  · intro path _
    rw [sourcesAt]
    cases t.root.at? path with
    | none => exact List.Pairwise.nil
    | some c => exact Cluster.pairwise_owner_sources
  · intro s hs r hr
    rw [sources, List.mem_flatMap] at hs hr
    obtain ⟨path, hp, hs⟩ := hs
    obtain ⟨other, ho, hr⟩ := hr
    rw [labelled.scale_of_mem_sourcesAt hs, labelled.scale_of_mem_sourcesAt hr,
      labelled.sound.length_eq_of_exported (exported.mp hp) (exported.mp ho)]
  · exact get?_fillView
  · rw [hv]
    exact hdelegates.trans (List.nil_append _)
  · rw [hv]
    refine (congrArg (List.map t.linkPeer) (hedges.trans (List.nil_append _))).trans
      (List.map_congr_left fun d hd => ?_)
    obtain ⟨c, -, hc⟩ := List.mem_flatMap.mp hd
    rw [linkPeer_of_none (Chunk.peer_of_mem_edgeDelegates hc), peer?_eq]

/-- A viewport of twice the world's side shows the residence of a small world, once and through the
root cluster. -/
theorem fillView_of_reachable_residence :
    let p : Placement := ⟨.ofNat 1, ⟨2⟩, .residence, some ⟨1, 1⟩, none⟩
    let viewport : Viewport := ⟨.origin, 4, 0⟩
    ∃ t u, create ⟨3, 2⟩ = .ok t ∧ t.Admissible (.add p) ∧ t.answer (.add p) = .ok u ∧
      (u.fillView viewport .empty).sources.Nodup ∧
      (u.fillView viewport .empty).get? p.id =
        some { id := p.id, owner := ⟨2⟩, kind := .residence, point := ⟨1, 1⟩, scale := 3 } := by
  intro p viewport
  let t : Tree :=
    { range := ⟨3, 2⟩, root := .leaf (.empty rootId (worldSquare ⟨3, 2⟩)), labels := ⟨1, 0⟩ }
  have created : create ⟨3, 2⟩ = .ok t := rfl
  have admissible : t.Admissible (.add p) := trivial
  have answered : t.answer (.add p) = .ok (t.add p).value := rfl
  obtain ⟨places, -, -, -, -, distinct, -⟩ := fillView_of_reachable
    (.answered (.created created) admissible answered (by decide +kernel)) viewport
  exact ⟨t, _, created, admissible, answered, distinct, by decide +kernel⟩

end Tree

end RailAtlas
