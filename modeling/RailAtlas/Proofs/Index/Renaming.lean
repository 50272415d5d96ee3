import RailAtlas.Proofs.Index.Walk

/-!
# Renaming clusters and chunks

The labels of clusters and chunks only name them. Renaming the labels of a tree changes neither
its squares nor its members, and every query follows: what it finds in the renamed tree is what it
finds in the tree, renamed. Nothing is asked of the renaming, except where a cluster is looked up
by its label.
-/

namespace RailAtlas

/-- New labels for clusters and chunks. -/
structure Renaming where
  cluster : ClusterId → ClusterId
  chunk : ChunkId → ChunkId

/-! ### What carries labels -/

/-- A chunk under its new label, in a cluster under its new label. -/
def Chunk.rename (ρ : Renaming) (c : Chunk) : Chunk :=
  { c with id := ρ.chunk c.id, home := ρ.cluster c.home }

def Cluster.rename (ρ : Renaming) (c : Cluster) : Cluster :=
  { id := ρ.cluster c.id
    square := c.square
    buckets := c.buckets.map fun _ chunk => chunk.rename ρ }

def Branch.rename (ρ : Renaming) : Branch → Branch
  | absent => absent
  | node c nw ne sw se =>
    node (c.rename ρ) (nw.rename ρ) (ne.rename ρ) (sw.rename ρ) (se.rename ρ)

def ClusterEntry.rename (ρ : Renaming) (e : ClusterEntry) : ClusterEntry :=
  { cluster := e.cluster.rename ρ
    parent := e.parent.map ρ.cluster
    northWest := e.northWest.map ρ.cluster
    northEast := e.northEast.map ρ.cluster
    southWest := e.southWest.map ρ.cluster
    southEast := e.southEast.map ρ.cluster }

def ViewSource.rename (ρ : Renaming) (s : ViewSource) : ViewSource :=
  { s with cluster := ρ.cluster s.cluster, chunk := ρ.chunk s.chunk }

def Delegate.rename (ρ : Renaming) (d : Delegate) : Delegate :=
  { d with chunk := ρ.chunk d.chunk }

def EdgeDelegate.rename (ρ : Renaming) (d : EdgeDelegate) : EdgeDelegate :=
  { d with chunk := ρ.chunk d.chunk, peer := d.peer.map ρ.chunk }

/-- A view of clusters and chunks under their new labels. The entries carry none. -/
def View.rename (ρ : Renaming) (v : View) : View :=
  { entries := v.entries
    sources := v.sources.map (·.rename ρ)
    delegates := v.delegates.map (·.rename ρ)
    edges := v.edges.map (·.rename ρ) }

variable {ρ : Renaming}

/-! ### Clusters -/

namespace Cluster

variable {c : Cluster} {owner : OwnerId}

@[simp] theorem rename_id : (c.rename ρ).id = ρ.cluster c.id := rfl

@[simp] theorem rename_square : (c.rename ρ).square = c.square := rfl

@[simp] theorem bucket?_rename : (c.rename ρ).bucket? owner = (c.bucket? owner).map (·.rename ρ) :=
  Std.ExtTreeMap.getElem?_map

theorem bucketList_rename :
    (c.rename ρ).bucketList = c.bucketList.map fun b => (b.1, b.2.rename ρ) :=
  Std.ExtTreeMap.toList_map

@[simp] theorem map_snd_bucketList_rename :
    (c.rename ρ).bucketList.map (·.2) = (c.bucketList.map (·.2)).map (·.rename ρ) := by
  rw [bucketList_rename, List.map_map, List.map_map]
  rfl

@[simp] theorem size_buckets_rename : (c.rename ρ).buckets.size = c.buckets.size :=
  Std.ExtTreeMap.size_map

@[simp] theorem memberCount_rename : (c.rename ρ).memberCount = c.memberCount := by
  rw [memberCount, bucketList_rename, List.foldr_map]
  rfl

end Cluster

/-! ### Branches -/

namespace Branch

variable {b : Branch} {c : Cluster} {q : Quadrant} {path : List Quadrant}

@[simp] theorem top?_rename : (b.rename ρ).top? = b.top?.map (·.rename ρ) := by
  cases b <;> rfl

@[simp] theorem child_rename : (b.rename ρ).child q = (b.child q).rename ρ := by
  cases b <;> cases q <;> rfl

@[simp] theorem under_rename : (b.rename ρ).under path = (b.under path).rename ρ := by
  induction path generalizing b with
  | nil => rfl
  | cons q path ih => rw [under_cons, child_rename, ih, under_cons]

@[simp] theorem at?_rename : (b.rename ρ).at? path = (b.at? path).map (·.rename ρ) := by
  rw [at?, under_rename, top?_rename, at?]

@[simp] theorem labelAt?_rename : (b.rename ρ).labelAt? path = (b.labelAt? path).map ρ.cluster := by
  rw [labelAt?, at?_rename, labelAt?, Option.map_map, Option.map_map]
  rfl

theorem clusters_rename : (b.rename ρ).clusters = b.clusters.map (·.rename ρ) := by
  induction b with
  | absent => rfl
  | node c nw ne sw se ihNW ihNE ihSW ihSE => simp [rename, clusters, ihNW, ihNE, ihSW, ihSE]

theorem entryAt_rename {parent : Option ClusterId} :
    (b.rename ρ).entryAt (parent.map ρ.cluster) path (c.rename ρ) =
      (b.entryAt parent path c).rename ρ := by
  simp only [entryAt, ClusterEntry.rename, labelAt?_rename]
  split <;> rfl

@[simp] theorem takes_rename {above : Square} {p : Point} :
    (b.rename ρ).takes above q p = b.takes above q p := by
  cases b <;> rfl

/-- The way down to a point does not depend on labels. -/
theorem locate?_rename (p : Point) (scale : Int) :
    (b.rename ρ).locate? p scale = (b.locate? p scale).map (·.rename ρ) := by
  induction b with
  | absent => rfl
  | node c nw ne sw se ihNW ihNE ihSW ihSE =>
    simp only [rename, locate?, Cluster.rename_square, takes_rename, ihNW, ihNE, ihSW, ihSE]
    split_ifs <;> rfl

/-- Nor does the walk of a viewport query. -/
theorem shown_rename (viewport : Viewport) :
    (b.rename ρ).shown viewport = (b.shown viewport).map (·.rename ρ) := by
  induction b with
  | absent => rfl
  | node c nw ne sw se ihNW ihNE ihSW ihSE =>
    simp only [rename, shown, Cluster.rename_square, Cluster.map_snd_bucketList_rename, ihNW, ihNE,
      ihSW, ihSE, ← List.map_append]
    split_ifs <;> rfl

end Branch

/-! ### Views -/

namespace Chunk

variable {c : Chunk}

theorem delegate?_rename (kind : EntityKind) :
    (c.rename ρ).delegate? kind = (c.delegate? kind).map (·.rename ρ) := by
  have members : (c.rename ρ).ofKind kind = c.ofKind kind := rfl
  rw [delegate?, delegate?, members]
  cases c.ofKind kind <;> rfl

theorem edgeDelegates_rename :
    (c.rename ρ).edgeDelegates = c.edgeDelegates.map (·.rename ρ) := by
  have departures : (c.rename ρ).departures = c.departures := rfl
  rw [edgeDelegates, edgeDelegates, departures, List.map_map]
  rfl

end Chunk

namespace View

variable {v : View}

@[simp] theorem rename_empty : View.empty.rename ρ = .empty := rfl

theorem insert_rename (e : ViewEntry) : (v.rename ρ).insert e = (v.insert e).rename ρ := by
  have shown : (v.rename ρ).contains e.id = v.contains e.id := rfl
  rw [insert, insert, shown]
  split <;> rfl

theorem addSource_rename (s : ViewSource) :
    (v.rename ρ).addSource (s.rename ρ) = (v.addSource s).rename ρ := by
  simp [addSource, rename]

theorem addDelegate_rename (d : Delegate) :
    (v.rename ρ).addDelegate (d.rename ρ) = (v.addDelegate d).rename ρ := by
  simp [addDelegate, rename]

theorem addEdge_rename (d : EdgeDelegate) :
    (v.rename ρ).addEdge (d.rename ρ) = (v.addEdge d).rename ρ := by
  simp [addEdge, rename]

/-- A renamed chunk writes into a renamed view what the chunk writes into the view. -/
theorem exportTo_rename (c : Chunk) :
    (c.rename ρ).exportTo (v.rename ρ) = (c.exportTo v).rename ρ := by
  have members (v : View) : (c.rename ρ).memberList.foldl
      (fun v e => v.insert ((c.rename ρ).entry e.1 e.2)) (v.rename ρ) =
        (c.memberList.foldl (fun v e => v.insert (c.entry e.1 e.2)) v).rename ρ :=
    List.foldl_hom (View.rename ρ) fun _ _ => insert_rename _
  have summarised : Chunk.delegatedKinds.filterMap (c.rename ρ).delegate? =
      (Chunk.delegatedKinds.filterMap c.delegate?).map (·.rename ρ) := by
    rw [List.map_filterMap]
    exact List.filterMap_congr fun kind _ => c.delegate?_rename kind
  have delegates (v : View) (ds : List Delegate) :
      (ds.map (·.rename ρ)).foldl addDelegate (v.rename ρ) = (ds.foldl addDelegate v).rename ρ := by
    rw [List.foldl_map]
    exact List.foldl_hom (View.rename ρ) fun _ _ => addDelegate_rename _
  have edges (v : View) (ds : List EdgeDelegate) :
      (ds.map (·.rename ρ)).foldl addEdge (v.rename ρ) = (ds.foldl addEdge v).rename ρ := by
    rw [List.foldl_map]
    exact List.foldl_hom (View.rename ρ) fun _ _ => addEdge_rename _
  have source : (c.rename ρ).source = c.source.rename ρ := rfl
  rw [Chunk.exportTo, Chunk.exportTo]
  dsimp only
  rw [source, addSource_rename, members, summarised, delegates, c.edgeDelegates_rename, edges]

end View

/-! ### Trees -/

namespace Tree

variable {t u : Tree} {viewport : Viewport}

theorem peer?_rename (h : u.root = t.root.rename ρ) (d : EdgeDelegate) :
    u.peer? (d.rename ρ) = (t.peer? d).map ρ.chunk := by
  have located : u.locate? d.peerCenter d.scale =
      (t.locate? d.peerCenter d.scale).map (·.rename ρ) := by
    rw [locate?, h, Branch.locate?_rename, locate?]
  rw [peer?_eq, peer?_eq]
  change ((u.locate? d.peerCenter d.scale).bind (·.bucket? d.owner)).map (·.id) = _
  rw [located]
  cases t.locate? d.peerCenter d.scale with
  | none => rfl
  | some c =>
    rw [Option.map_some, Option.bind_some, Option.bind_some, Cluster.bucket?_rename,
      Option.map_map, Option.map_map]
    rfl

theorem linkPeer_rename (h : u.root = t.root.rename ρ) (d : EdgeDelegate) :
    u.linkPeer (d.rename ρ) = (t.linkPeer d).rename ρ := by
  have known : (d.rename ρ).peer = d.peer.map ρ.chunk := rfl
  rw [linkPeer, linkPeer, known]
  cases d.peer with
  | some _ => rfl
  | none =>
    rw [Option.map_none]
    dsimp only
    rw [peer?_rename h]
    rfl

/-- A viewport shows of a renamed tree what it shows of the tree, renamed. -/
theorem fillView_rename (h : u.root = t.root.rename ρ) (viewport : Viewport) (v : View) :
    u.fillView viewport (v.rename ρ) = (t.fillView viewport v).rename ρ := by
  have chunks : (u.root.shown viewport).foldl (fun v c => c.exportTo v) (v.rename ρ) =
      ((t.root.shown viewport).foldl (fun v c => c.exportTo v) v).rename ρ := by
    rw [h, Branch.shown_rename, List.foldl_map]
    exact List.foldl_hom (View.rename ρ) fun _ _ => View.exportTo_rename _
  have linked (ds : List EdgeDelegate) : (ds.map (·.rename ρ)).map u.linkPeer =
      (ds.map t.linkPeer).map (·.rename ρ) := by
    rw [List.map_map, List.map_map]
    exact List.map_congr_left fun d _ => linkPeer_rename h d
  rw [fillView, fillView, chunks]
  dsimp only [View.rename]
  rw [linked]

/-- Sizes do not depend on labels. -/
theorem stats_rename (h : u.root = t.root.rename ρ) (range : u.range = t.range) :
    u.stats = t.stats := by
  simp [stats, h, range, Branch.clusters_rename, List.foldr_map, Function.comp_def]

/-- As long as labels can be told apart in both trees, a cluster is found under its new label with
its links renamed. -/
theorem exists_entry?_rename (h : u.root = t.root.rename ρ) (distinct : t.root.labels.Nodup)
    (still : u.root.labels.Nodup) {id : ClusterId} (registered : t.isRegistered id = true) :
    ∃ e, t.entry? id = some e ∧ u.entry? (ρ.cluster id) = some (e.rename ρ) := by
  obtain ⟨path, c, hc, rfl⟩ := isRegistered_iff.mp registered
  have renamed : u.root.at? path = some (c.rename ρ) := by rw [h, Branch.at?_rename, hc]; rfl
  refine ⟨_, entry?_of_at? distinct hc, ?_⟩
  rw [← Branch.entryAt_rename, ← h]
  exact entry?_of_at? still renamed

end Tree

end RailAtlas
