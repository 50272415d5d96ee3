import Mathlib.Data.List.Pairwise
import RailAtlas.Proofs.Index.Walk

/-!
# Labels of the chunks of a tree

Chunks are labelled by a counter of their own. As for clusters, every operation uses a chunk label
at most as often as before, or as often as it has just been given out: recording takes a label for
an owner who has no chunk yet, and discarding an owner's last member gives up a chunk for good.

A tree that is changed from the root down is therefore `Counted`. While 32 bits can tell its labels
apart, a cluster label belongs to one place and a chunk label to one place and one owner.
-/

namespace RailAtlas

/-- A list whose elements occur at most as often as in a list without repetition. -/
theorem nodup_of_count_le {α : Type} [BEq α] [LawfulBEq α] {xs ys : List α} (distinct : ys.Nodup)
    (h : ∀ a, xs.count a ≤ ys.count a) : xs.Nodup :=
  List.nodup_iff_count_le_one.mpr fun a =>
    Nat.le_trans (h a) (List.nodup_iff_count_le_one.mp distinct a)

namespace Labels

/-- The chunk labels that were given out so far. -/
def givenOutChunks (l : Labels) : List ChunkId :=
  (List.range l.chunks).map fun n => ⟨UInt32.ofNat n⟩

/-- All labels that were given out so far have 32 bits. -/
def Fit (l : Labels) : Prop :=
  l.clusters ≤ UInt32.size ∧ l.chunks ≤ UInt32.size

instance (l : Labels) : Decidable l.Fit :=
  inferInstanceAs (Decidable (l.clusters ≤ UInt32.size ∧ l.chunks ≤ UInt32.size))

/-- Both counters are numbers of 32 bits, so that neither has come round. -/
def InRange (l : Labels) : Prop :=
  l.clusters < UInt32.size ∧ l.chunks < UInt32.size

instance (l : Labels) : Decidable l.InRange :=
  inferInstanceAs (Decidable (l.clusters < UInt32.size ∧ l.chunks < UInt32.size))

variable {l : Labels}

theorem InRange.fit (h : l.InRange) : l.Fit :=
  ⟨Nat.le_of_lt h.1, Nat.le_of_lt h.2⟩

theorem givenOutChunks_takeChunk :
    l.takeChunk.2.givenOutChunks = l.givenOutChunks ++ [l.takeChunk.1] := by
  simp [givenOutChunks, takeChunk, List.range_succ]

theorem nodup_givenOutChunks (h : l.chunks ≤ UInt32.size) : l.givenOutChunks.Nodup := by
  have numbers : l.givenOutChunks = ((List.range l.chunks).map UInt32.ofNat).map .mk := by
    rw [List.map_map]
    rfl
  rw [numbers]
  exact (nodup_numbers h).map fun _ _ same => congrArg ChunkId.number same

end Labels

/-! ### One cluster -/

namespace Cluster

variable {c : Cluster} {owner other : OwnerId} {entity : EntityId} {m : Member} {l : Labels}
variable {chunk : Chunk} {id : ChunkId}

/-- The labels of the chunks of a cluster, in ascending order of the owners. -/
def chunkLabels (c : Cluster) : List ChunkId :=
  c.bucketList.map (·.2.id)

theorem mem_chunkLabels_iff :
    id ∈ c.chunkLabels ↔ ∃ owner chunk, c.bucket? owner = some chunk ∧ chunk.id = id := by
  simp only [chunkLabels, List.mem_map, Prod.exists, mem_bucketList_iff]

theorem nodup_bucketList : c.bucketList.Nodup := by
  refine List.Pairwise.imp ?_ Std.ExtTreeMap.distinct_keys_toList
  rintro a b apart rfl
  exact apart Std.ReflCmp.compare_self

/-- Filing a chunk puts it before the others, up to the order. -/
theorem bucketList_file_perm :
    (c.file owner chunk).bucketList.Perm ((owner, chunk) :: (c.unfile owner).bucketList) := by
  have fresh : (owner, chunk) ∉ (c.unfile owner).bucketList := by
    rw [mem_bucketList_iff, bucket?_unfile, if_pos rfl]
    simp
  rw [List.perm_ext_iff_of_nodup nodup_bucketList (List.nodup_cons.mpr ⟨fresh, nodup_bucketList⟩)]
  rintro ⟨other, found⟩
  rw [List.mem_cons, mem_bucketList_iff, mem_bucketList_iff, bucket?_file, bucket?_unfile]
  by_cases same : other = owner
  · simp [same, eq_comm]
  · simp [same]

theorem count_chunkLabels_file : (c.file owner chunk).chunkLabels.count id =
    [chunk.id].count id + (c.unfile owner).chunkLabels.count id := by
  rw [chunkLabels, (bucketList_file_perm.map _).count_eq, chunkLabels, List.map_cons,
    ← List.singleton_append, List.count_append]

/-- An owner's chunk counts for itself. -/
theorem count_chunkLabels_of_some (h : c.bucket? owner = some chunk) :
    c.chunkLabels.count id = [chunk.id].count id + (c.unfile owner).chunkLabels.count id := by
  have refiled : c.file owner chunk = c := by
    refine ext_bucket? rfl rfl fun other => ?_
    rw [bucket?_file]
    split
    · next same => rw [same, h]
    · rfl
  rw [← count_chunkLabels_file, refiled]

theorem unfile_of_none (h : c.bucket? owner = none) : c.unfile owner = c := by
  refine ext_bucket? rfl rfl fun other => ?_
  rw [bucket?_unfile]
  split
  · next same => rw [same, h]
  · rfl

/-- Recording uses a label exactly if it takes one. -/
theorem Tidy.count_chunkLabels_record (h : c.Tidy) (id : ChunkId) :
    (c.record owner entity m l).1.chunkLabels.count id + l.givenOutChunks.count id =
      c.chunkLabels.count id + (c.record owner entity m l).2.givenOutChunks.count id := by
  rw [Cluster.record]
  cases hb : c.bucket? owner with
  | some chunk =>
    have filed : c.setBucket (chunk.insert entity m) = c.file owner (chunk.insert entity m) := by
      rw [← h.owner hb]
      rfl
    dsimp only
    rw [filed, count_chunkLabels_file, count_chunkLabels_of_some hb]
    rfl
  | none =>
    have filed : c.setBucket ((Chunk.empty l.takeChunk.1 owner c.id c.square).insert entity m) =
        c.file owner ((Chunk.empty l.takeChunk.1 owner c.id c.square).insert entity m) := rfl
    dsimp only
    rw [filed, count_chunkLabels_file, unfile_of_none hb, Labels.givenOutChunks_takeChunk,
      List.count_append]
    change [l.takeChunk.1].count id + _ + _ = _
    omega

/-- Discarding uses no new label. -/
theorem count_chunkLabels_discard_le (id : ChunkId) :
    (c.discard owner entity).chunkLabels.count id ≤ c.chunkLabels.count id := by
  rw [discard]
  cases hb : c.bucket? owner with
  | none => exact Nat.le_refl _
  | some chunk =>
    rw [count_chunkLabels_of_some hb]
    dsimp only
    split
    · exact Nat.le_add_left _ _
    · exact Nat.le_of_eq count_chunkLabels_file

end Cluster

/-! ### Branches -/

/-- In a list without repetition that is put together from parts, an element tells its part. -/
theorem eq_of_nodup_flatMap {α β : Type} {parts : List α} {f : α → List β}
    (h : (parts.flatMap f).Nodup) {a b : α} (ha : a ∈ parts) (hb : b ∈ parts) {x : β}
    (hx : x ∈ f a) (hx' : x ∈ f b) : a = b := by
  by_contra apart
  rw [List.nodup_flatMap] at h
  have : Std.Symm (Function.onFun List.Disjoint f) := ⟨fun _ _ => List.disjoint_symm⟩
  exact h.2.forall ha hb apart hx hx'

namespace Branch

variable {b : Branch} {c : Cluster} {owner : OwnerId} {entity : EntityId} {m : Member}
variable {levels : Nat} {square : Square} {l : Labels} {path : List Quadrant} {id : ChunkId}

/-- The labels of the chunks of a branch, in the order of `clusters`. -/
def chunkLabels (b : Branch) : List ChunkId :=
  b.clusters.flatMap (·.chunkLabels)

@[simp] theorem chunkLabels_absent : absent.chunkLabels = [] := rfl

@[simp] theorem chunkLabels_node (c : Cluster) (nw ne sw se : Branch) :
    (node c nw ne sw se).chunkLabels = c.chunkLabels ++
      (nw.chunkLabels ++ ne.chunkLabels ++ sw.chunkLabels ++ se.chunkLabels) := by
  simp [chunkLabels, clusters]

theorem chunkLabels_leaf_empty (id : ClusterId) (square : Square) :
    (leaf (.empty id square)).chunkLabels = [] := by
  simp [leaf, Cluster.chunkLabels, Cluster.bucketList, Cluster.empty]

/-- The labels of a branch, place by place. -/
theorem chunkLabels_eq_flatMap_places : b.chunkLabels =
    b.places.flatMap fun path => ((b.at? path).map (·.chunkLabels)).getD [] := by
  have listed := congrArg (List.flatMap fun c => (c.map (·.chunkLabels)).getD []) b.map_at?_places
  rw [List.flatMap_map, List.flatMap_map] at listed
  exact listed.symm

def chunkLabelAt? (b : Branch) (place : List Quadrant × OwnerId) : Option ChunkId :=
  ((b.at? place.1).bind (·.bucket? place.2)).map (·.id)

theorem mem_chunkLabels_iff :
    id ∈ b.chunkLabels ↔ ∃ place, b.chunkLabelAt? place = some id := by
  simp only [chunkLabels, List.mem_flatMap, mem_clusters_iff, Cluster.mem_chunkLabels_iff,
    chunkLabelAt?, Option.map_eq_some_iff, Option.bind_eq_some_iff, Prod.exists]
  constructor
  · rintro ⟨c, ⟨path, hc⟩, owner, chunk, hb, hid⟩
    exact ⟨path, owner, chunk, ⟨c, hc, hb⟩, hid⟩
  · rintro ⟨path, owner, chunk, ⟨c, hc, hb⟩, hid⟩
    exact ⟨c, ⟨path, hc⟩, owner, chunk, hb, hid⟩

/-- If no chunk label is used twice, it tells the place and the owner. -/
theorem place_eq_of_nodup_chunkLabels (h : b.chunkLabels.Nodup)
    {place other : List Quadrant × OwnerId} (hp : b.chunkLabelAt? place = some id)
    (ho : b.chunkLabelAt? other = some id) : place = other := by
  rw [chunkLabels_eq_flatMap_places] at h
  obtain ⟨path, owner⟩ := place
  obtain ⟨path', owner'⟩ := other
  obtain ⟨chunk, hchunk, hid⟩ := Option.map_eq_some_iff.mp hp
  obtain ⟨c, hc, hb⟩ := Option.bind_eq_some_iff.mp hchunk
  obtain ⟨chunk', hchunk', hid'⟩ := Option.map_eq_some_iff.mp ho
  obtain ⟨d, hd, hb'⟩ := Option.bind_eq_some_iff.mp hchunk'
  have standing : path ∈ b.places := mem_places_iff.mpr (Option.isSome_of_eq_some hc)
  have one_place : path = path' := by
    refine eq_of_nodup_flatMap h standing (mem_places_iff.mpr (Option.isSome_of_eq_some hd))
      (x := id) ?_ ?_
    · simpa [hc] using Cluster.mem_chunkLabels_iff.mpr ⟨owner, chunk, hb, hid⟩
    · simpa [hd] using Cluster.mem_chunkLabels_iff.mpr ⟨owner', chunk', hb', hid'⟩
  subst one_place
  obtain rfl := Option.some.inj (hc.symm.trans hd)
  have distinct := (List.nodup_flatMap.mp h).1 path standing
  rw [hc, Option.map_some, Option.getD_some, Cluster.chunkLabels] at distinct
  have one_chunk := List.inj_on_of_nodup_map distinct (Cluster.mem_bucketList_iff.mpr hb)
    (Cluster.mem_bucketList_iff.mpr hb') (hid.trans hid'.symm)
  exact congrArg (path, ·) (Prod.ext_iff.mp one_chunk).1

/-! ### Growing -/

def Tidy (b : Branch) : Prop :=
  ∀ ⦃path : List Quadrant⦄ ⦃c : Cluster⦄, b.at? path = some c → c.Tidy

/-- Besides the chunk labels that a branch used before, the new one uses at most those that were
taken meanwhile. -/
def DrawsChunks (b : Branch) (l : Labels) (new : Branch) (drawn : Labels) : Prop :=
  ∀ id, new.chunkLabels.count id + l.givenOutChunks.count id ≤
    b.chunkLabels.count id + drawn.givenOutChunks.count id

theorem tidy_visit (h : b.Tidy) (square : Square) (l : Labels) : let v := b.visit square l
    v.cluster.Tidy ∧ v.northWest.Tidy ∧ v.northEast.Tidy ∧ v.southWest.Tidy ∧ v.southEast.Tidy := by
  cases b with
  | absent =>
    have nothing : absent.Tidy := by
      intro path c hc
      simp at hc
    exact ⟨Cluster.tidy_empty _ _, nothing, nothing, nothing, nothing⟩
  | node c nw ne sw se =>
    have below (q : Quadrant) : ((node c nw ne sw se).child q).Tidy := fun path c hc =>
      @h (q :: path) c hc
    exact ⟨@h [] c rfl, below .northWest, below .northEast, below .southWest,
      below .southEast⟩

/-- Visiting a branch takes no chunk label. -/
theorem drawsChunks_visit (square : Square) (b : Branch) (l : Labels) : let v := b.visit square l
    DrawsChunks b l (node v.cluster v.northWest v.northEast v.southWest v.southEast) v.labels := by
  cases b with
  | node c nw ne sw se => exact fun _ => Nat.le_refl _
  | absent =>
    intro v id
    have bare : (leaf v.cluster).chunkLabels = [] := chunkLabels_leaf_empty _ _
    change (leaf v.cluster).chunkLabels.count id + _ ≤ _
    rw [bare]
    exact Nat.le_refl _

/-- Growing uses the chunk labels that it takes. -/
theorem Tidy.drawsChunks_grow (h : b.Tidy) (l : Labels) :
    DrawsChunks b l (grow owner entity m levels square b l).branch
      (grow owner entity m levels square b l).labels := by
  induction levels generalizing square b l with
  | zero =>
    intro id
    have visited := drawsChunks_visit square b l id
    have recorded := @Cluster.Tidy.count_chunkLabels_record _ owner entity m
      (b.visit square l).labels (tidy_visit h square l).1 id
    simp only [grow, chunkLabels_node, List.count_append] at visited ⊢
    omega
  | succ levels ih =>
    have entered : ∀ above q (b : Branch) (l : Labels) g, b.Tidy →
        g = enter owner entity m levels above q b l → DrawsChunks b l g.branch g.labels := by
      rintro above q b l g tidy rfl
      rw [enter]
      split
      · exact ih tidy l
      · exact fun _ => Nat.le_refl _
    obtain ⟨nw, ne, sw, se, hnw, hne, hsw, hse, hbranch, hlabels⟩ :=
      exists_grow_succ owner entity m levels square b l
    obtain ⟨tidy, tidyNW, tidyNE, tidySW, tidySE⟩ := tidy_visit h square l
    intro id
    have visited := drawsChunks_visit square b l id
    have recorded := @Cluster.Tidy.count_chunkLabels_record _ owner entity m
      (b.visit square l).labels tidy id
    have nw_id := entered _ _ _ _ _ tidyNW hnw id
    have ne_id := entered _ _ _ _ _ tidyNE hne id
    have sw_id := entered _ _ _ _ _ tidySW hsw id
    have se_id := entered _ _ _ _ _ tidySE hse id
    rw [hbranch, hlabels]
    simp only [chunkLabels_node, List.count_append] at visited ⊢
    omega

theorem chunks_le_record (c : Cluster) : l.chunks ≤ (c.record owner entity m l).2.chunks := by
  rw [Cluster.record]
  cases c.bucket? owner with
  | none => exact Nat.le_succ _
  | some chunk => exact Nat.le_refl _

@[simp] theorem chunks_visit : (b.visit square l).labels.chunks = l.chunks := by
  cases b <;> rfl

theorem chunks_le_grow (owner : OwnerId) (entity : EntityId) (m : Member) (levels : Nat)
    (square : Square) (b : Branch) (l : Labels) :
    l.chunks ≤ (grow owner entity m levels square b l).labels.chunks := by
  induction levels generalizing square b l with
  | zero =>
    have recorded := @chunks_le_record owner entity m (b.visit square l).labels
      (b.visit square l).cluster
    rwa [chunks_visit] at recorded
  | succ levels ih =>
    have entered (above : Square) (q : Quadrant) (b : Branch) (l : Labels) :
        l.chunks ≤ (enter owner entity m levels above q b l).labels.chunks := by
      rw [enter]
      split
      · exact ih _ b l
      · exact Nat.le_refl _
    obtain ⟨nw, ne, sw, se, rfl, rfl, rfl, rfl, -, hlabels⟩ :=
      exists_grow_succ owner entity m levels square b l
    rw [hlabels, ← @chunks_visit b square l]
    calc (b.visit square l).labels.chunks
      _ ≤ _ := @chunks_le_record owner entity m _ _
      _ ≤ _ := entered _ .northWest _ _
      _ ≤ _ := entered _ .northEast _ _
      _ ≤ _ := entered _ .southWest _ _
      _ ≤ _ := entered _ .southEast _ _

/-! ### Removing -/

theorem count_chunkLabels_prune_le (id : ChunkId) :
    b.prune.chunkLabels.count id ≤ b.chunkLabels.count id := by
  rw [prune]
  split
  · exact Nat.le_refl _
  · exact Nat.zero_le _

theorem count_chunkLabels_scrub_le (id : ChunkId) :
    (b.scrub owner entity).chunkLabels.count id ≤ b.chunkLabels.count id := by
  induction b with
  | absent => exact Nat.le_refl _
  | node c nw ne sw se ihNW ihNE ihSW ihSE =>
    rw [scrub]
    split
    · have discarded := @Cluster.count_chunkLabels_discard_le c owner entity id
      refine Nat.le_trans (count_chunkLabels_prune_le id) ?_
      simp only [chunkLabels_node, List.count_append]
      omega
    · exact Nat.le_refl _

/-- Removal uses no new chunk label. -/
theorem count_chunkLabels_scrubFrom_le (isRoot : Bool) (id : ChunkId) :
    (b.scrubFrom isRoot owner entity).chunkLabels.count id ≤ b.chunkLabels.count id := by
  cases b with
  | absent => exact Nat.le_refl _
  | node c nw ne sw se =>
    have kept : (node (c.discard owner entity) (nw.scrub owner entity) (ne.scrub owner entity)
        (sw.scrub owner entity) (se.scrub owner entity)).chunkLabels.count id ≤
          (node c nw ne sw se).chunkLabels.count id := by
      have discarded := @Cluster.count_chunkLabels_discard_le c owner entity id
      have hnw := @count_chunkLabels_scrub_le nw owner entity id
      have hne := @count_chunkLabels_scrub_le ne owner entity id
      have hsw := @count_chunkLabels_scrub_le sw owner entity id
      have hse := @count_chunkLabels_scrub_le se owner entity id
      simp only [chunkLabels_node, List.count_append]
      omega
    cases isRoot with
    | false => exact Nat.le_trans (count_chunkLabels_prune_le id) kept
    | true => exact kept

end Branch

/-! ### Trees -/

namespace Tree

variable {range : ScaleRange} {t u v : Tree}

/-- No label of a cluster or a chunk is used more often than it was given out. -/
structure Counted (t : Tree) : Prop where
  clusters : ∀ id, t.root.labels.count id ≤ t.labels.givenOut.count id
  chunks : ∀ id, t.root.chunkLabels.count id ≤ t.labels.givenOutChunks.count id

/-- No two clusters of a tree have one label, and no two of its chunks. -/
structure Distinct (t : Tree) : Prop where
  clusters : t.root.labels.Nodup
  chunks : t.root.chunkLabels.Nodup

theorem counted_create (h : create range = .ok t) : t.Counted := by
  obtain ⟨-, hroot, hlabels⟩ := create_eq h
  refine ⟨(labelled_create h).counted, fun id => ?_⟩
  rw [hroot, Branch.chunkLabels_leaf_empty]
  exact Nat.zero_le _

/-- While labels can be told apart none is used twice. -/
theorem Counted.distinct (h : t.Counted) (fit : t.labels.Fit) : t.Distinct :=
  ⟨nodup_of_count_le (Labels.nodup_givenOut fit.1) h.clusters,
    nodup_of_count_le (Labels.nodup_givenOutChunks fit.2) h.chunks⟩

/-- A tree has become another one while the counters moved on, and uses no other labels than before
and those taken meanwhile. -/
structure Draws (t u : Tree) : Prop where
  clusters : t.root.Draws t.labels u.root u.labels
  le : t.labels.chunks ≤ u.labels.chunks
  chunks : t.root.DrawsChunks t.labels u.root u.labels

namespace Draws

theorem refl (t : Tree) : t.Draws t :=
  ⟨.refl _ _, Nat.le_refl _, fun _ => Nat.le_refl _⟩

theorem trans (h : t.Draws u) (next : u.Draws v) : t.Draws v := by
  refine ⟨h.clusters.trans next.clusters, Nat.le_trans h.le next.le, fun id => ?_⟩
  have first := h.chunks id
  have second := next.chunks id
  omega

/-- Nothing that is given up is given out again. -/
theorem counted (h : t.Draws u) (before : t.Counted) : u.Counted := by
  constructor
  · intro id
    have drawn := h.clusters.count id
    have counted := before.clusters id
    omega
  · intro id
    have drawn := h.chunks id
    have counted := before.chunks id
    omega

end Draws

/-! ### Changes from the root down -/

theorem Anchored.draws_add (h : t.Anchored) (p : Placement) : t.Draws (t.add p).value := by
  rw [Tree.add]
  split
  · exact .refl t
  · split
    · exact .refl t
    · have tidy : t.root.Tidy := fun _ _ hc => h.sound.tidy hc
      exact ⟨Branch.draws_grow _ _, Branch.chunks_le_grow _ _ _ _ _ _ _, tidy.drawsChunks_grow _⟩

theorem draws_remove (p : Placement) : t.Draws (t.remove p) := by
  rw [Tree.remove]
  split
  · exact .refl t
  · exact ⟨Branch.draws_of_sublist (Branch.labels_scrubFrom_sublist true) _, Nat.le_refl _,
      fun id => Nat.add_le_add_right (Branch.count_chunkLabels_scrubFrom_le true id) _⟩

theorem Anchored.draws_perform (h : t.Anchored) (op : RootOperation) : t.Draws (t.perform op) := by
  cases op with
  | add p => exact h.draws_add p
  | remove p => exact draws_remove p
  | update p => exact (draws_remove p).trans ((h.remove p).draws_add p)

/-- Every run of changes from the root down leaves a counted tree. -/
theorem counted_run (h : create range = .ok t) (ops : List RootOperation) :
    (ops.foldl perform t).Counted := by
  induction ops using List.reverseRecOn with
  | nil => exact counted_create h
  | append_singleton ops op ih =>
    rw [List.foldl_concat]
    exact ((run_refines h ops).1.draws_perform op).counted ih

end Tree

end RailAtlas
