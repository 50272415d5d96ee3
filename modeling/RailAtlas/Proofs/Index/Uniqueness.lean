import Mathlib.Data.List.Flatten
import Mathlib.Data.List.Perm.Subperm
import Mathlib.Logic.Function.Iterate
import RailAtlas.Proofs.Index.ChunkLabels
import RailAtlas.Proofs.Index.Locating

/-!
# Labels that are in use are never given out again

Labels are counters of 32 bits. As long as neither counter has come round, all labels in use are
different, and those that a call takes are different from the ones in use and from each other. This
holds of whatever calls a tree has seen, wherever they started. What a viewport shows can then be
told apart by chunk labels: the edges out of a chunk are its own, and the edges into it lead to it.

A counter is a number of 32 bits, so it cannot count `2 ^ 32` labels. Where counters are checked, a
call that would have one do so is a fault. Where they are not, the counter starts again, and labels
in use do come up a second time.
-/

namespace RailAtlas

/-! ### Labels taken -/

theorem map_range_append_drop {α : Type} (f : Nat → α) {n k : Nat} (h : n ≤ k) :
    (List.range n).map f ++ ((List.range k).map f).drop n = (List.range k).map f := by
  have front : ((List.range k).map f).take n = (List.range n).map f := by
    rw [← List.map_take, List.take_range, Nat.min_eq_left h]
  rw [← front, List.take_append_drop]

namespace Labels

variable {l drawn : Labels}

/-- The cluster labels that were given out after others had been. -/
def takenClusters (l drawn : Labels) : List ClusterId :=
  drawn.givenOut.drop l.clusters

/-- The chunk labels that were given out after others had been. -/
def takenChunks (l drawn : Labels) : List ChunkId :=
  drawn.givenOutChunks.drop l.chunks

theorem givenOut_append_takenClusters (h : l.clusters ≤ drawn.clusters) :
    l.givenOut ++ l.takenClusters drawn = drawn.givenOut :=
  map_range_append_drop _ h

theorem givenOutChunks_append_takenChunks (h : l.chunks ≤ drawn.chunks) :
    l.givenOutChunks ++ l.takenChunks drawn = drawn.givenOutChunks :=
  map_range_append_drop _ h

end Labels

namespace Branch

variable {b new : Branch} {l drawn : Labels} {path : List Quadrant} {q : Quadrant}

/-! ### Putting branches in the places of others -/

theorem count_chunkLabels_setChild {id : ChunkId} (h : b.top?.isSome) :
    (b.setChild q new).chunkLabels.count id + (b.child q).chunkLabels.count id =
      b.chunkLabels.count id + new.chunkLabels.count id :=
  count_flatMap_setChild _ id h

theorem count_chunkLabels_graft {id : ChunkId} (h : (b.at? path).isSome) :
    (b.graft path new).chunkLabels.count id + (b.under path).chunkLabels.count id =
      b.chunkLabels.count id + new.chunkLabels.count id :=
  count_flatMap_graft _ id h

/-- What draws its labels at a place does so in the branch around it. -/
theorem Draws.graft (hpath : (b.at? path).isSome) (h : (b.under path).Draws l new drawn) :
    b.Draws l (b.graft path new) drawn := by
  refine ⟨h.le, fun id => ?_⟩
  have grafted := @count_labels_graft b new path id hpath
  have counted := h.count id
  omega

theorem DrawsChunks.graft (hpath : (b.at? path).isSome)
    (h : (b.under path).DrawsChunks l new drawn) : b.DrawsChunks l (b.graft path new) drawn := by
  intro id
  have grafted := @count_chunkLabels_graft b new path id hpath
  have counted := h id
  omega

end Branch

namespace Tree

variable {range : ScaleRange} {t u v : Tree} {p : Placement} {id start : ClusterId} {c : Cluster}
variable {path : List Quadrant} {q : Quadrant} {new : Branch} {drawn : Labels}

theorem Draws.graft (hc : t.root.at? path = some c)
    (clusters : (t.root.under path).Draws t.labels new drawn)
    (le : t.labels.chunks ≤ drawn.chunks)
    (chunks : (t.root.under path).DrawsChunks t.labels new drawn) :
    t.Draws { t with root := t.root.graft path new, labels := drawn } :=
  ⟨clusters.graft (Option.isSome_of_eq_some hc), le, chunks.graft (Option.isSome_of_eq_some hc)⟩

/-! ### What each call takes -/

theorem Labelled.draws_addFrom (h : t.Labelled) (distinct : t.root.labels.Nodup)
    {l : Logged IndexWarning Tree} (hl : t.addFrom start p = .ok l) : t.Draws l.value := by
  obtain same | ⟨path, c, position, hc, -, grown⟩ := addFrom_cases distinct hl
  · exact same ▸ .refl t
  · rw [grown]
    have tidy : (t.root.under path).Tidy := fun _ _ hd => (h.sound.under path).tidy hd
    exact .graft hc (Branch.draws_grow _ _) (Branch.chunks_le_grow _ _ _ _ _ _ _)
      (tidy.drawsChunks_grow _)

theorem draws_removeFrom (distinct : t.root.labels.Nodup) (hu : t.removeFrom start p = .ok u) :
    t.Draws u := by
  obtain same | ⟨path, c, hc, -, scrubbed⟩ := removeFrom_cases distinct hu
  · exact same ▸ .refl t
  · rw [scrubbed]
    exact .graft hc (Branch.draws_of_sublist (Branch.labels_scrubFrom_sublist _) _) (Nat.le_refl _)
      fun id => Nat.add_le_add_right (Branch.count_chunkLabels_scrubFrom_le _ id) _

theorem Labelled.draws_updateFrom (h : t.Labelled) (room : t.labels.clusters ≤ UInt32.size)
    {l : Logged IndexWarning Tree} (hl : t.updateFrom start p = .ok l) : t.Draws l.value := by
  obtain ⟨rest, again, -, hrest, labelled, distinct, hadd⟩ := h.updateFrom_steps room hl
  exact (draws_removeFrom (h.nodup room) hrest).trans (labelled.draws_addFrom distinct hadd)

/-- A new cluster has no chunks. -/
theorem draws_newChild (distinct : t.root.labels.Nodup) {parent : ClusterId} {dx dy : Int}
    (hu : t.newChild parent dx dy = .ok (id, u)) : t.Draws u := by
  obtain ⟨path, c, q, hc, -, -, -, -, free, rfl, rfl⟩ := newChild_cases distinct hu
  have htop : (t.root.under path).top?.isSome := Option.isSome_of_eq_some hc
  refine .graft hc (Branch.draws_setChild_leaf htop free _ _) (Nat.le_refl _) fun id => ?_
  have put := @Branch.count_chunkLabels_setChild (t.root.under path)
    (.leaf (.empty t.labels.takeCluster.1 (c.square.quadrant q))) q id htop
  have bare := Branch.chunkLabels_leaf_empty t.labels.takeCluster.1 (c.square.quadrant q)
  rw [free, Branch.chunkLabels_absent, bare] at put
  exact Nat.le_of_eq (congrArg (· + _) put)

/-- Deleting a cluster takes no labels. -/
theorem draws_delete (distinct : t.root.labels.Nodup) (hu : t.delete id = .ok u) : t.Draws u := by
  rw [delete] at hu
  split at hu
  · cases hu
  · next other =>
    split at hu
    · cases hu
    · next registered =>
      obtain ⟨path, c, hc, rfl⟩ := isRegistered_iff.mp (by simpa using registered)
      rw [Branch.replace_eq_graft distinct hc] at hu
      rw [← Except.ok.inj hu]
      refine .graft hc (Branch.draws_absent _ _) (Nat.le_refl _) fun id => ?_
      exact Nat.add_le_add_right (Nat.zero_le _) _

/-- Calls use no other labels than before and those that they take. -/
theorem Labelled.draws_answer (h : t.Labelled) (room : t.labels.clusters ≤ UInt32.size)
    {call : TreeCall} (hu : t.answer call = .ok u) : t.Draws u := by
  have distinct := h.nodup room
  cases call with
  | newChild parent dx dy =>
    obtain ⟨made, hmade, rfl⟩ := exists_of_map_eq_ok hu
    exact draws_newChild distinct hmade
  | add p =>
    obtain rfl := Except.ok.inj hu
    exact h.draws_addFrom distinct (h.addFrom_root distinct p)
  | remove p =>
    obtain rfl := Except.ok.inj hu
    exact draws_removeFrom distinct (h.removeFrom_root distinct p)
  | update p =>
    obtain rfl := Except.ok.inj hu
    exact h.draws_updateFrom room (h.updateFrom_root room p)
  | addFrom start p =>
    obtain ⟨l, hl, rfl⟩ := exists_of_map_eq_ok hu
    exact h.draws_addFrom distinct hl
  | removeFrom start p => exact draws_removeFrom distinct hu
  | updateFrom start p =>
    obtain ⟨l, hl, rfl⟩ := exists_of_map_eq_ok hu
    exact h.draws_updateFrom room hl
  | delete id =>
    rw [Tree.answer] at hu
    cases deleted : t.delete id with
    | ok rest =>
      rw [deleted] at hu
      exact Except.ok.inj hu ▸ draws_delete distinct deleted
    | error cause =>
      rw [deleted] at hu
      exact Except.ok.inj hu ▸ .refl t

theorem Reachable.counted (h : Reachable range t) : t.Counted := by
  induction h with
  | created ht => exact counted_create ht
  | answered before _ hu _ ih =>
    obtain ⟨labelled, room, -⟩ := before.labelled
    exact (labelled.draws_answer (Nat.le_of_lt room) hu).counted ih

/-! ### Labels of a call -/

/-- Why a call is not answered where the counters of labels are checked. -/
inductive CallFault where
  | fault (cause : Fault)
  | outOfLabels

/-- The answer to a call where the counters of labels are checked. They never go back, so it is
enough to look at them after the call. -/
def checkedAnswer (t : Tree) (call : TreeCall) : Except CallFault Tree :=
  match t.answer call with
  | .error cause => .error (.fault cause)
  | .ok u => if u.labels.InRange then .ok u else .error .outOfLabels

theorem checkedAnswer_of_ok {call : TreeCall} (hu : t.answer call = .ok u) :
    t.checkedAnswer call = if u.labels.InRange then .ok u else .error .outOfLabels := by
  rw [checkedAnswer, hu]

theorem checkedAnswer_eq_ok_iff {call : TreeCall} :
    t.checkedAnswer call = .ok u ↔ t.answer call = .ok u ∧ u.labels.InRange := by
  cases answered : t.answer call with
  | error cause => simp [checkedAnswer, answered]
  | ok v =>
    rw [checkedAnswer_of_ok answered]
    constructor
    · intro h
      split at h
      · next inRange =>
        obtain rfl := Except.ok.inj h
        exact ⟨rfl, inRange⟩
      · cases h
    · rintro ⟨same, inRange⟩
      obtain rfl := Except.ok.inj same
      exact if_pos inRange

/-- A new child takes one cluster label. -/
theorem labels_newChild (distinct : t.root.labels.Nodup) {parent : ClusterId} {dx dy : Int}
    {made : ClusterId × Tree} (h : t.newChild parent dx dy = .ok made) :
    made.2.labels = t.labels.takeCluster.2 := by
  obtain ⟨_, _, _, -, -, -, -, -, -, -, grafted⟩ := newChild_cases distinct h
  rw [grafted]

/-- A child is made exactly if the caller has seen to what it has to, and if one more cluster can
be counted. -/
theorem checkedAnswer_newChild_iff (distinct : t.root.labels.Nodup)
    (room : t.labels.chunks < UInt32.size) {parent : ClusterId} {dx dy : Int} :
    (∃ u, t.checkedAnswer (.newChild parent dx dy) = .ok u) ↔
      t.Admissible (.newChild parent dx dy) ∧ t.labels.clusters + 1 < UInt32.size := by
  rw [← newChild_answered_iff distinct]
  constructor
  · rintro ⟨u, hu⟩
    obtain ⟨answered, inRange⟩ := checkedAnswer_eq_ok_iff.mp hu
    obtain ⟨made, hmade, rfl⟩ := exists_of_map_eq_ok answered
    rw [labels_newChild distinct hmade] at inRange
    exact ⟨⟨made, hmade⟩, inRange.1⟩
  · rintro ⟨⟨made, hmade⟩, more⟩
    refine ⟨made.2, checkedAnswer_eq_ok_iff.mpr ⟨?_, ?_⟩⟩
    · rw [answer, hmade]
      rfl
    · rw [labels_newChild distinct hmade]
      exact ⟨more, room⟩

/-- The labels in use and those that a call takes are all different, and the tree that answers the
call uses no others. -/
structure Fresh (t u : Tree) : Prop where
  clusters : (t.root.labels ++ t.labels.takenClusters u.labels).Nodup
  chunks : (t.root.chunkLabels ++ t.labels.takenChunks u.labels).Nodup
  clusters_subset : u.root.labels ⊆ t.root.labels ++ t.labels.takenClusters u.labels
  chunks_subset : u.root.chunkLabels ⊆ t.root.chunkLabels ++ t.labels.takenChunks u.labels

section Counting

variable {α : Type} [DecidableEq α] {given taken before after : List α}

theorem nodup_append_of_count_le (distinct : (given ++ taken).Nodup)
    (h : ∀ a, before.count a ≤ given.count a) : (before ++ taken).Nodup := by
  refine nodup_of_count_le distinct fun a => ?_
  rw [List.count_append, List.count_append]
  exact Nat.add_le_add_right (h a) _

theorem subset_append_of_count_le
    (h : ∀ a, after.count a + given.count a ≤ before.count a + (given ++ taken).count a) :
    after ⊆ before ++ taken := by
  refine (List.subperm_iff_count.mpr fun a => ?_).subset
  have counted := h a
  rw [List.count_append] at counted ⊢
  omega

end Counting

theorem Draws.fresh (h : t.Draws u) (before : t.Counted) (fit : u.labels.Fit) : t.Fresh u := by
  have clusters := Labels.givenOut_append_takenClusters h.clusters.le
  have chunks := Labels.givenOutChunks_append_takenChunks h.le
  constructor
  · exact nodup_append_of_count_le (clusters ▸ Labels.nodup_givenOut fit.1) before.clusters
  · exact nodup_append_of_count_le (chunks ▸ Labels.nodup_givenOutChunks fit.2) before.chunks
  · exact subset_append_of_count_le fun id => clusters ▸ h.clusters.count id
  · exact subset_append_of_count_le fun id => chunks ▸ h.chunks id

end Tree

/-! ### Labels in a view -/

/-- In a list whose parts have different keys, filtering by a key leaves one part. -/
theorem filter_flatMap_eq {α β κ : Type} [BEq κ] [LawfulBEq κ] (key : α → κ) (tag : β → κ)
    {f : α → List β} (tagged : ∀ {a b}, b ∈ f a → tag b = key a) {parts : List α}
    (distinct : (parts.map key).Nodup) {a : α} (ha : a ∈ parts) :
    (parts.flatMap f).filter (fun b => tag b == key a) = f a := by
  have whole (x : α) (same : key x = key a) : (f x).filter (fun b => tag b == key a) = f x :=
    List.filter_eq_self.mpr fun b hb => by rw [tagged hb, same, beq_self_eq_true]
  have nothing (x : α) (apart : key x ≠ key a) : (f x).filter (fun b => tag b == key a) = [] :=
    List.filter_eq_nil_iff.mpr fun b hb => by simpa [tagged hb] using apart
  induction parts with
  | nil => cases ha
  | cons x parts ih =>
    obtain ⟨fresh, distinct⟩ := List.nodup_cons.mp distinct
    rw [List.flatMap_cons, List.filter_append]
    obtain rfl | below := List.mem_cons.mp ha
    · have rest : (parts.flatMap f).filter (fun b => tag b == key a) = [] := by
        rw [List.filter_flatMap, List.flatMap_eq_nil_iff]
        exact fun y hy => nothing y fun same => fresh (same ▸ List.mem_map_of_mem hy)
      rw [whole a rfl, rest, List.append_nil]
    · have apart : key x ≠ key a := fun same => fresh (same ▸ List.mem_map_of_mem below)
      rw [nothing x apart, ih distinct below, List.nil_append]

namespace Branch

variable {b : Branch} {c : Cluster} {chunk : Chunk} {viewport : Viewport} {p : Point} {scale : Int}

/-- What is shown has a place and an owner. -/
theorem exists_place_of_shown (h : chunk ∈ b.shown viewport) :
    ∃ path owner, (b.at? path).bind (·.bucket? owner) = some chunk := by
  rw [shown_eq_flatMap] at h
  obtain ⟨path, -, listed⟩ := List.mem_flatMap.mp h
  rw [bucketsAt] at listed
  cases hc : b.at? path with
  | none => simp [hc] at listed
  | some c =>
    simp only [hc, List.mem_map] at listed
    obtain ⟨⟨owner, chunk⟩, listed, rfl⟩ := listed
    exact ⟨path, owner, by rw [hc]; exact Cluster.mem_bucketList_iff.mp listed⟩

theorem chunkLabels_eq_flatMap_bucketsAt :
    b.chunkLabels = b.places.flatMap fun path => (b.bucketsAt path).map (·.id) := by
  refine chunkLabels_eq_flatMap_places.trans (List.flatMap_congr fun path _ => ?_)
  rw [bucketsAt]
  cases b.at? path with
  | none => rfl
  | some c => simp [Cluster.chunkLabels]

/-- The labels of the chunks that are shown are labels of the branch, in the same order. -/
theorem map_id_shown_sublist : ((b.shown viewport).map (·.id)).Sublist b.chunkLabels := by
  rw [shown_eq_flatMap, List.map_flatMap, chunkLabels_eq_flatMap_bucketsAt]
  exact exportPlaces_sublist.flatMap _

end Branch

theorem Chunk.chunk_of_mem_edgeDelegates {c : Chunk} {d : EdgeDelegate} (h : d ∈ c.edgeDelegates) :
    d.chunk = c.id := by
  obtain ⟨offset, -, rfl⟩ := List.mem_map.mp h
  rfl

namespace Tree

variable {range : ScaleRange} {t : Tree} {viewport : Viewport} {d : EdgeDelegate}

@[simp] theorem chunk_linkPeer : (t.linkPeer d).chunk = d.chunk := by
  rw [linkPeer]
  split <;> rfl

theorem sources_fillView : (t.fillView viewport .empty).sources =
    (t.root.shown viewport).map Chunk.source :=
  (@Chunk.foldl_exportTo .empty (t.root.shown viewport)).1.trans (List.nil_append _)

theorem edges_fillView : (t.fillView viewport .empty).edges =
    (t.root.shown viewport).flatMap fun c => c.edgeDelegates.map t.linkPeer := by
  have edges := (@Chunk.foldl_exportTo .empty (t.root.shown viewport)).2.2.1
  refine (congrArg (List.map t.linkPeer) (edges.trans (List.nil_append _))).trans ?_
  rw [List.map_flatMap]

/-- Chunk labels tell apart what a viewport shows. -/
structure Unambiguous (t : Tree) (viewport : Viewport) : Prop where
  /-- No label occurs twice among the sources. -/
  sources : ((t.fillView viewport .empty).sources.map (·.chunk)).Nodup
  /-- The edges out of a chunk that is shown are its own. -/
  outgoing : ∀ c ∈ t.root.shown viewport,
    (t.fillView viewport .empty).outEdges c.id = c.edgeDelegates.map t.linkPeer
  /-- The edges into a chunk that is shown lead to it. -/
  incoming : ∀ c ∈ t.root.shown viewport, ∀ d ∈ (t.fillView viewport .empty).inEdges c.id,
    (t.locate? d.peerCenter d.scale).bind (·.bucket? d.owner) = some c

theorem Distinct.unambiguous (h : t.Distinct) (viewport : Viewport) : t.Unambiguous viewport := by
  have shown : ((t.root.shown viewport).map (·.id)).Nodup :=
    h.chunks.sublist Branch.map_id_shown_sublist
  constructor
  · rw [sources_fillView, List.map_map]
    exact shown
  · intro c hc
    rw [View.outEdges, edges_fillView]
    refine filter_flatMap_eq (fun c : Chunk => c.id) (fun d : EdgeDelegate => d.chunk) ?_ shown hc
    intro c d linked
    obtain ⟨d, listed, rfl⟩ := List.mem_map.mp linked
    rw [chunk_linkPeer, Chunk.chunk_of_mem_edgeDelegates listed]
  · intro c hc d hd
    rw [View.inEdges, edges_fillView, List.mem_filter, beq_iff_eq] at hd
    obtain ⟨shown_edge, peer⟩ := hd
    obtain ⟨source, -, linked⟩ := List.mem_flatMap.mp shown_edge
    obtain ⟨d, listed, rfl⟩ := List.mem_map.mp linked
    rw [linkPeer_of_none (Chunk.peer_of_mem_edgeDelegates listed)] at peer ⊢
    rw [peer?_eq] at peer
    obtain ⟨found, hfound, same⟩ := Option.map_eq_some_iff.mp peer
    obtain ⟨e, he, filed⟩ := Option.bind_eq_some_iff.mp hfound
    obtain ⟨front, hfront, -⟩ := Branch.exists_place_of_locate? he
    obtain ⟨path, owner, hpath⟩ := Branch.exists_place_of_shown hc
    have there : t.root.chunkLabelAt? (front, d.owner) = some c.id := by
      rw [Branch.chunkLabelAt?, hfront, Option.bind_some, filed, Option.map_some, same]
    have here : t.root.chunkLabelAt? (path, owner) = some c.id := by
      rw [Branch.chunkLabelAt?, hpath, Option.map_some]
    -- one label, so one place and one owner
    obtain ⟨rfl, rfl⟩ := Prod.mk.inj (Branch.place_eq_of_nodup_chunkLabels h.chunks there here)
    rw [hfront, Option.bind_some, filed] at hpath
    exact hfound.trans hpath

end Tree

/-! ### Once the counters have come round -/

/-- What is recorded and removed again leaves nothing. -/
theorem FlatIndex.remove_add_empty (range : ScaleRange) (p : Placement) :
    (empty.add range p).remove p = empty := by
  funext path owner entity
  by_cases same : entity = p.id
  · subst same
    refine remove_self fun held => ?_
    obtain ⟨m, hm⟩ := Option.isSome_iff_exists.mp held
    obtain ⟨spatial, owned, -⟩ := add_empty_eq_some_iff.mp hm
    exact ⟨owned, spatial⟩
  · rw [remove_of_ne same, add_of_ne same]

/-- A member in the south east of a cluster without data takes one cluster label and two chunk
labels, if there is one level below. -/
theorem Branch.labels_grow_leaf {owner : OwnerId} {entity : EntityId} {m : Member}
    {square : Square} (id : ClusterId) (l : Labels)
    (one : ∀ q, (square.quadrant q).contains m.point = decide (q = .southEast)) :
    (grow owner entity m 1 square (leaf (.empty id square)) l).labels =
      ⟨l.clusters + 1, l.chunks + 2⟩ := by
  have nw : (square.quadrant .northWest).contains m.point = false := one _
  have ne : (square.quadrant .northEast).contains m.point = false := one _
  have sw : (square.quadrant .southWest).contains m.point = false := one _
  have se : (square.quadrant .southEast).contains m.point = true := one _
  simp [grow, leaf, visit, Cluster.record, unchanged, nw, ne, sw, se, Labels.takeChunk,
    Labels.takeCluster, Cluster.setBucket, Cluster.empty, Cluster.bucket?]

namespace Tree

variable {range : ScaleRange} {t u : Tree} {p : Placement}

/-- The same in a tree over two scales that has no data. -/
theorem labels_add_leaf {position : Point} {id : ClusterId} (spatial : p.kind.isSpatial = true)
    (hp : p.position? = some position) (levels : t.levelsBelow t.range.maxScale = 1)
    (one : ∀ q, ((worldSquare t.range).quadrant q).contains position = decide (q = .southEast))
    (bare : t.root = .leaf (.empty id (worldSquare t.range))) :
    (t.add p).value.labels = ⟨t.labels.clusters + 1, t.labels.chunks + 2⟩ := by
  have grown := @Branch.labels_grow_leaf p.owner p.id (p.member position) _ id t.labels one
  rw [← bare] at grown
  rw [add, spatial, hp, levels]
  exact grown

/-- A tree that records nothing has its root cluster only. -/
theorem Anchored.root_eq_leaf (h : t.Anchored) (rooted : t.root.label? = some rootId)
    (bare : t.contents = .empty) : t.root = .leaf (.empty rootId (worldSquare t.range)) := by
  obtain ⟨c, hc, hid⟩ := Option.map_eq_some_iff.mp rooted
  have nobody {path : List Quadrant} {owner : OwnerId} {entity : EntityId} :
      ¬ (t.contents path owner entity).isSome := by
    rw [bare]
    exact Bool.false_ne_true
  have top : c = .empty rootId (worldSquare t.range) := by
    refine Cluster.ext_bucket? hid (h.sound.top_square hc) fun owner => ?_
    rw [Cluster.bucket?_empty]
    by_contra filed
    obtain ⟨entity, held⟩ := (@Anchored.isSome_bucket?_iff t [] owner h).mp
      (by rw [Branch.at?_nil, hc]; exact Option.isSome_iff_ne_none.mpr filed)
    exact nobody held
  refine Branch.ext_child (hc.trans (congrArg some top)) fun q => ?_
  have gone : t.root.at? [q] = none := by
    by_contra there
    obtain atop | ⟨owner, entity, held⟩ :=
      h.isSome_at?_iff.mp (Option.isSome_iff_ne_none.mpr there)
    · cases atop
    · exact nobody held
  have absent : t.root.child q = .absent := Branch.top?_eq_none_iff.mp gone
  rw [absent]
  cases q <;> rfl

/-- Index an entity and remove it again. -/
def round (p : Placement) (t : Tree) : Tree :=
  (t.add p).value.remove p

/-- In a tree that records nothing a round leaves nothing behind, but for the counters. -/
theorem Anchored.round_eq (h : t.Anchored) (rooted : t.root.label? = some rootId)
    (bare : t.contents = .empty) (p : Placement) :
    round p t = { t with labels := (t.add p).value.labels } := by
  obtain ⟨c, hc, -⟩ := Option.map_eq_some_iff.mp rooted
  have still_rooted : (round p t).root.label? = some rootId := by
    rw [round, root_remove, root_add]
    split
    · rw [Branch.label?_scrubFrom_root]
      split
      · exact rooted
      · rw [Branch.label?_grow hc, rooted]
    · exact rooted
  have still_bare : (round p t).contents = .empty := by
    rw [round, (h.add p).contents_remove, h.contents_add, bare, FlatIndex.remove_add_empty]
  have range_eq : (round p t).range = t.range := by rw [round, range_remove, range_add]
  have anchored : (round p t).Anchored := (h.add p).remove p
  have root_eq : (round p t).root = t.root := by
    rw [anchored.root_eq_leaf still_rooted still_bare, range_eq]
    exact (h.root_eq_leaf rooted bare).symm
  have labels_eq : (round p t).labels = (t.add p).value.labels := by
    rw [round, Tree.remove]
    split <;> rfl
  change Tree.mk (round p t).range (round p t).root (round p t).labels = _
  rw [range_eq, root_eq, labels_eq]

/-- Each round takes its labels anew. -/
theorem Anchored.iterate_round (h : t.Anchored) (rooted : t.root.label? = some rootId)
    (bare : t.contents = .empty)
    (taken : ∀ l, ({ t with labels := l }.add p).value.labels = ⟨l.clusters + 1, l.chunks + 2⟩)
    (n : Nat) : (round p)^[n] t =
      { t with labels := ⟨t.labels.clusters + n, t.labels.chunks + 2 * n⟩ } := by
  induction n with
  | zero => rfl
  | succ n ih =>
    rw [Function.iterate_succ_apply', ih]
    have again : Anchored { t with labels := ⟨t.labels.clusters + n, t.labels.chunks + 2 * n⟩ } := h
    rw [again.round_eq rooted bare, taken]
    simp only [Nat.mul_succ, Nat.add_assoc]

/-! ### As long as labels last -/

/-- As long as neither counter has come round, no two clusters and no two chunks of a tree that
admissible calls lead to have one label, and chunk labels tell apart what any viewport shows. A call
that is answered takes no label that is in use. An admissible call is answered, unless it would have
a counter come round, and a child is made only by a call that is admissible. -/
theorem labels_unambiguous (h : Reachable range t) (room : t.labels.chunks < UInt32.size) :
    t.Distinct ∧ (∀ viewport, t.Unambiguous viewport) ∧
    (∀ call u, t.checkedAnswer call = .ok u → t.Fresh u ∧ u.Distinct) ∧
    (∀ call, t.Admissible call →
      (∃ u, t.checkedAnswer call = .ok u) ∨ t.checkedAnswer call = .error .outOfLabels) ∧
    ∀ parent dx dy, (∃ u, t.checkedAnswer (.newChild parent dx dy) = .ok u) ↔
      t.Admissible (.newChild parent dx dy) ∧ t.labels.clusters + 1 < UInt32.size := by
  obtain ⟨labelled, lasting, -⟩ := h.labelled
  have still := Nat.le_of_lt lasting
  have distinct := h.counted.distinct ⟨still, Nat.le_of_lt room⟩
  refine ⟨distinct, distinct.unambiguous, ?taken, ?answered, ?made⟩
  case taken =>
    intro call u hu
    obtain ⟨answered, inRange⟩ := checkedAnswer_eq_ok_iff.mp hu
    have draws := labelled.draws_answer still answered
    exact ⟨draws.fresh h.counted inRange.fit, (draws.counted h.counted).distinct inRange.fit⟩
  case answered =>
    intro call admissible
    obtain ⟨u, hu, -⟩ := labelled.answer still admissible
    rw [checkedAnswer_of_ok hu]
    split
    · exact .inl ⟨u, rfl⟩
    · exact .inr rfl
  case made =>
    intro parent dx dy
    exact checkedAnswer_newChild_iff distinct.clusters room

/-- Removing a residence gives up its labels; the one that comes later takes others. -/
theorem labels_unambiguous_residence :
    let p : Placement := ⟨.ofNat 1, ⟨2⟩, .residence, some ⟨1, 1⟩, none⟩
    ∃ t u, create ⟨3, 2⟩ = .ok t ∧ (round p t).labels.chunks < UInt32.size ∧
      (round p t).Admissible (.add p) ∧ (round p t).checkedAnswer (.add p) = .ok u ∧
      (round p t).Fresh u ∧ u.root.labels = [rootId, ⟨2⟩] := by
  intro p
  let t : Tree :=
    { range := ⟨3, 2⟩, root := .leaf (.empty rootId (worldSquare ⟨3, 2⟩)), labels := ⟨1, 0⟩ }
  have created : create ⟨3, 2⟩ = .ok t := rfl
  have first : Reachable ⟨3, 2⟩ (t.add p).value :=
    @Reachable.answered _ _ _ (.add p) (.created created) trivial rfl (by decide +kernel)
  have second : Reachable ⟨3, 2⟩ (round p t) :=
    @Reachable.answered _ _ _ (.remove p) first trivial rfl (by decide +kernel)
  have room : (round p t).labels.chunks < UInt32.size := by decide +kernel
  have inRange : ((round p t).add p).value.labels.InRange := by decide +kernel
  obtain ⟨-, -, taken, -, -⟩ := labels_unambiguous second room
  have answered : (round p t).checkedAnswer (.add p) = .ok ((round p t).add p).value :=
    checkedAnswer_eq_ok_iff.mpr ⟨rfl, inRange⟩
  exact ⟨t, _, created, room, trivial, answered, (taken _ _ answered).1, by decide +kernel⟩

/-- At the finest scale there is no room for a child. Half as many rounds as there are labels use up
those for chunks, and where counters are checked no round comes after them. Where they are not, as
many rounds as there are labels for children leave the root alone in its tree, and the next child
is given its label. -/
theorem label_given_twice :
    let p : Placement := ⟨.ofNat 1, ⟨2⟩, .residence, some ⟨1, 1⟩, none⟩
    (∃ t c, create ⟨2, 2⟩ = .ok t ∧ t.root.top? = some c ∧
      t.newChild rootId 1 1 = .error (.atFinestScale c)) ∧
    ∃ t, create ⟨3, 2⟩ = .ok t ∧
      ((round p)^[UInt32.size / 2 - 1] t).checkedAnswer (.add p) = .error .outOfLabels ∧
      let u := (round p)^[UInt32.size - 1] t
      u.root.labels = [rootId] ∧ u.labels.takeCluster.1 = rootId := by
  intro p
  refine ⟨⟨_, _, rfl, rfl, rfl⟩, ?_⟩
  let t : Tree :=
    { range := ⟨3, 2⟩, root := .leaf (.empty rootId (worldSquare ⟨3, 2⟩)), labels := ⟨1, 0⟩ }
  have created : create ⟨3, 2⟩ = .ok t := rfl
  have one (q : Quadrant) : ((worldSquare ⟨3, 2⟩).quadrant q).contains ⟨1, 1⟩ =
      decide (q = .southEast) := by
    cases q <;> decide +kernel
  have position : p.position? = some ⟨1, 1⟩ := by decide +kernel
  have taken (l : Labels) : ({ t with labels := l }.add p).value.labels =
      ⟨l.clusters + 1, l.chunks + 2⟩ :=
    @labels_add_leaf { t with labels := l } p _ rootId rfl position rfl one rfl
  have rounds := (anchored_create created).iterate_round rfl (contents_create created) taken
  refine ⟨t, created, ?checked, ?_⟩
  case checked =>
    have half : 2 * (UInt32.size / 2 - 1) + 2 = UInt32.size := rfl
    -- only that the rounds leave two chunks to count matters
    generalize UInt32.size / 2 - 1 = n at half ⊢
    rw [rounds, checkedAnswer_of_ok rfl, taken, if_neg]
    rintro ⟨-, chunks⟩
    have counted : 0 + 2 * n + 2 < UInt32.size := chunks
    omega
  have all : UInt32.size - 1 + 1 = UInt32.size := rfl
  -- only that the number of rounds is one short of the labels matters
  generalize UInt32.size - 1 = n at all ⊢
  rw [rounds]
  have start_again : UInt32.ofNat (1 + n) = 0 := by
    rw [Nat.add_comm, all]
    exact UInt32.toNat_inj.mp (UInt32.toNat_ofNat'.trans (Nat.mod_self _))
  exact ⟨rfl, congrArg ClusterId.mk start_again⟩

end Tree

end RailAtlas
