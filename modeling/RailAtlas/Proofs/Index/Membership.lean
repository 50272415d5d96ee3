import RailAtlas.Index.Branch

/-!
# Who is recorded in a cluster

A cluster is read as a partial map from an owner and an entity to what is recorded about the
entity. Recording sets one entry of this map and discarding clears one.

`Cluster.Tidy` states what every operation maintains about the chunks themselves: each stands
under its own owner, carries the label and the square of its cluster, and has members. In a tidy
cluster the partial map therefore also tells which owners have a chunk.
-/

namespace RailAtlas

namespace Chunk

variable {c : Chunk} {entity other : EntityId} {m : Member}

@[simp] theorem get?_empty (id : ChunkId) (owner : OwnerId) (home : ClusterId) (square : Square) :
    (empty id owner home square).get? entity = none := by
  simp [empty, get?]

theorem get?_insert :
    (c.insert entity m).get? other = if other = entity then some m else c.get? other := by
  simp only [insert, get?, Std.ExtTreeMap.getElem?_insert, Std.compare_eq_iff_eq]
  by_cases h : entity = other
  · simp [h]
  · simp [h, Ne.symm h]

theorem get?_erase :
    (c.erase entity).get? other = if other = entity then none else c.get? other := by
  simp only [erase, get?, Std.ExtTreeMap.getElem?_erase, Std.compare_eq_iff_eq]
  by_cases h : entity = other
  · simp [h]
  · simp [h, Ne.symm h]

theorem has_eq_isSome_get? : c.has entity = (c.get? entity).isSome :=
  Std.ExtTreeMap.contains_eq_isSome_getElem?

theorem isEmpty_iff : c.isEmpty = true ↔ ∀ entity, c.get? entity = none := by
  rw [isEmpty, Std.ExtTreeMap.isEmpty_iff]
  constructor
  · intro h entity
    simp [get?, h]
  · intro h
    exact Std.ExtTreeMap.ext_getElem? fun {k} => by simpa [get?] using h k

theorem isEmpty_eq_false_iff : c.isEmpty = false ↔ ∃ entity, (c.get? entity).isSome := by
  rw [← Bool.not_eq_true, isEmpty_iff]
  simp [Option.isSome_iff_ne_none]

@[simp] theorem isEmpty_insert : (c.insert entity m).isEmpty = false :=
  isEmpty_eq_false_iff.mpr ⟨entity, by simp [get?_insert]⟩

/-- Letting go of an entity that is not held changes nothing. -/
theorem erase_of_get?_eq_none (h : c.get? entity = none) : c.erase entity = c := by
  have same : c.members.erase entity = c.members := by
    refine Std.ExtTreeMap.ext_getElem? fun {k} => ?_
    change (c.erase entity).get? k = c.get? k
    rw [get?_erase]
    split
    · next hk => rw [hk, h]
    · rfl
  simp [erase, same]

end Chunk

namespace Cluster

variable {c : Cluster} {owner other : OwnerId} {entity someone : EntityId} {m : Member}
variable {labels : Labels} {chunk : Chunk}

/-- What is recorded about an entity in the chunk of an owner. -/
def member? (c : Cluster) (owner : OwnerId) (entity : EntityId) : Option Member :=
  (c.bucket? owner).bind fun chunk => chunk.get? entity

/-- The chunks of a cluster are filed and labelled as they should be, and none is empty. -/
structure Tidy (c : Cluster) : Prop where
  owner : ∀ {owner chunk}, c.bucket? owner = some chunk → chunk.owner = owner
  home : ∀ {owner chunk}, c.bucket? owner = some chunk → chunk.home = c.id
  square : ∀ {owner chunk}, c.bucket? owner = some chunk → chunk.square = c.square
  inhabited : ∀ {owner chunk}, c.bucket? owner = some chunk → chunk.isEmpty = false

theorem holds_eq_isSome_member? : c.holds owner entity = (c.member? owner entity).isSome := by
  rw [holds, member?]
  cases c.bucket? owner with
  | none => rfl
  | some chunk => exact Chunk.has_eq_isSome_get?

@[simp] theorem bucket?_empty (id : ClusterId) (square : Square) :
    (empty id square).bucket? owner = none := by
  simp [empty, bucket?]

@[simp] theorem member?_empty (id : ClusterId) (square : Square) :
    (empty id square).member? owner entity = none := by
  simp [member?]

theorem tidy_empty (id : ClusterId) (square : Square) : (empty id square).Tidy := by
  constructor <;> simp

/-- The cluster with a chunk in the place of an owner's. -/
def file (c : Cluster) (owner : OwnerId) (chunk : Chunk) : Cluster :=
  { c with buckets := c.buckets.insert owner chunk }

/-- The cluster without the chunk of an owner. -/
def unfile (c : Cluster) (owner : OwnerId) : Cluster :=
  { c with buckets := c.buckets.erase owner }

theorem bucket?_file :
    (c.file owner chunk).bucket? other = if other = owner then some chunk else c.bucket? other := by
  simp only [file, bucket?, Std.ExtTreeMap.getElem?_insert, Std.compare_eq_iff_eq]
  by_cases h : owner = other
  · simp [h]
  · simp [h, Ne.symm h]

theorem bucket?_unfile :
    (c.unfile owner).bucket? other = if other = owner then none else c.bucket? other := by
  simp only [unfile, bucket?, Std.ExtTreeMap.getElem?_erase, Std.compare_eq_iff_eq]
  by_cases h : owner = other
  · simp [h]
  · simp [h, Ne.symm h]

theorem bucket?_setBucket : (c.setBucket chunk).bucket? other =
    if other = chunk.owner then some chunk else c.bucket? other :=
  bucket?_file

/-- Clusters are equal if their labels, squares and chunks are. -/
theorem ext_bucket? {c d : Cluster} (id : c.id = d.id) (square : c.square = d.square)
    (buckets : ∀ owner, c.bucket? owner = d.bucket? owner) : c = d := by
  obtain ⟨id', square', held⟩ := c
  obtain ⟨id'', square'', held'⟩ := d
  obtain rfl : id' = id'' := id
  obtain rfl : square' = square'' := square
  obtain rfl : held = held' := Std.ExtTreeMap.ext_getElem? buckets
  rfl

/-! ### Recording -/

/-- The chunk in which recording puts its member, before it does. -/
def chunkFor (c : Cluster) (owner : OwnerId) (labels : Labels) : Chunk :=
  (c.bucket? owner).getD (.empty labels.takeChunk.1 owner c.id c.square)

theorem record_eq : (c.record owner entity m labels).1 =
    c.setBucket ((c.chunkFor owner labels).insert entity m) := by
  rw [record, chunkFor]
  cases c.bucket? owner <;> rfl

@[simp] theorem record_id : (c.record owner entity m labels).1.id = c.id := by
  rw [record_eq]; rfl

@[simp] theorem record_square : (c.record owner entity m labels).1.square = c.square := by
  rw [record_eq]; rfl

theorem Tidy.chunkFor_owner (h : c.Tidy) : (c.chunkFor owner labels).owner = owner := by
  rw [chunkFor]
  cases hb : c.bucket? owner with
  | none => rfl
  | some chunk => exact h.owner hb

theorem Tidy.bucket?_record (h : c.Tidy) : (c.record owner entity m labels).1.bucket? other =
    if other = owner then some ((c.chunkFor owner labels).insert entity m)
    else c.bucket? other := by
  have filed : ((c.chunkFor owner labels).insert entity m).owner = owner := h.chunkFor_owner
  rw [record_eq, bucket?_setBucket, filed]

theorem Tidy.record (h : c.Tidy) : (c.record owner entity m labels).1.Tidy := by
  have kept : (c.chunkFor owner labels).home = c.id ∧
      (c.chunkFor owner labels).square = c.square := by
    rw [chunkFor]
    cases hb : c.bucket? owner with
    | none => exact ⟨rfl, rfl⟩
    | some chunk => exact ⟨h.home hb, h.square hb⟩
  constructor <;> intro o chunk ho <;> rw [h.bucket?_record] at ho <;> split at ho
  · next same =>
    rw [← Option.some.inj ho, same]
    exact h.chunkFor_owner
  · exact h.owner ho
  · rw [← Option.some.inj ho, record_id]
    exact kept.1
  · rw [record_id]
    exact h.home ho
  · rw [← Option.some.inj ho, record_square]
    exact kept.2
  · rw [record_square]
    exact h.square ho
  · rw [← Option.some.inj ho]
    exact Chunk.isEmpty_insert
  · exact h.inhabited ho

/-- Recording sets one entry. -/
theorem Tidy.member?_record (h : c.Tidy) :
    (c.record owner entity m labels).1.member? other someone =
      if other = owner ∧ someone = entity then some m else c.member? other someone := by
  unfold member?
  rw [h.bucket?_record]
  by_cases ho : other = owner
  · subst ho
    by_cases he : someone = entity
    · simp [Chunk.get?_insert, he]
    · cases hb : c.bucket? other <;> simp [Chunk.get?_insert, chunkFor, hb, he]
  · simp [ho]

/-! ### Discarding -/

@[simp] theorem discard_id : (c.discard owner entity).id = c.id := by
  rw [discard]
  split
  · rfl
  · dsimp only
    split <;> rfl

@[simp] theorem discard_square : (c.discard owner entity).square = c.square := by
  rw [discard]
  split
  · rfl
  · dsimp only
    split <;> rfl

/-- Discarding leaves the rest of an owner's chunk, unless nothing is left. -/
theorem bucket?_discard : (c.discard owner entity).bucket? other =
    if other = owner then
      ((c.bucket? owner).map (·.erase entity)).filter fun rest => !rest.isEmpty
    else c.bucket? other := by
  rw [discard]
  cases hb : c.bucket? owner with
  | none =>
    by_cases ho : other = owner
    · simp [ho, hb]
    · simp [ho]
  | some chunk =>
    rw [Option.map_some, Option.filter_some]
    cases he : (chunk.erase entity).isEmpty with
    | true =>
      simp only [he, if_true]
      exact bucket?_unfile
    | false =>
      simp only [he, Bool.false_eq_true, if_false]
      exact bucket?_file

theorem Tidy.discard (h : c.Tidy) : (c.discard owner entity).Tidy := by
  -- every chunk left behind comes from one of the old ones
  have from_old : ∀ {o chunk}, (c.discard owner entity).bucket? o = some chunk →
      ∃ old, c.bucket? o = some old ∧ chunk.owner = old.owner ∧ chunk.home = old.home ∧
        chunk.square = old.square ∧ chunk.isEmpty = false := by
    intro o chunk ho
    rw [bucket?_discard] at ho
    split at ho
    · next same =>
      obtain ⟨hsome, hne⟩ := Option.filter_eq_some_iff.mp ho
      obtain ⟨old, hold, rfl⟩ := Option.map_eq_some_iff.mp hsome
      exact ⟨old, same ▸ hold, rfl, rfl, rfl, by simpa using hne⟩
    · exact ⟨chunk, ho, rfl, rfl, rfl, h.inhabited ho⟩
  constructor <;> intro o chunk ho <;>
    obtain ⟨old, hold, howner, hhome, hsquare, hne⟩ := from_old ho
  · rw [howner, h.owner hold]
  · rw [hhome, h.home hold, discard_id]
  · rw [hsquare, h.square hold, discard_square]
  · exact hne

/-- Discarding clears one entry. -/
theorem member?_discard : (c.discard owner entity).member? other someone =
    if other = owner ∧ someone = entity then none else c.member? other someone := by
  unfold member?
  rw [bucket?_discard]
  by_cases ho : other = owner
  · subst ho
    cases hb : c.bucket? other with
    | none => simp
    | some chunk =>
      rw [Option.map_some, Option.filter_some]
      cases he : (chunk.erase entity).isEmpty with
      | true =>
        have gone := Chunk.isEmpty_iff.mp he someone
        rw [Chunk.get?_erase] at gone
        by_cases hs : someone = entity
        · simp [hs]
        · simpa [hs] using gone.symm
      | false => simp [Chunk.get?_erase]
  · simp [ho]

/-- Discarding an entity that an owner's chunk does not hold changes nothing. -/
theorem Tidy.discard_of_not_held (h : c.Tidy) (absent : c.holds owner entity = false) :
    c.discard owner entity = c := by
  rw [Cluster.discard]
  cases hb : c.bucket? owner with
  | none => rfl
  | some chunk =>
    have hget : chunk.get? entity = none := by
      simpa [holds_eq_isSome_member?, member?, hb] using absent
    have same : c.buckets.insert owner chunk = c.buckets := by
      refine Std.ExtTreeMap.ext_getElem? fun {k} => ?_
      simp only [Std.ExtTreeMap.getElem?_insert, Std.compare_eq_iff_eq]
      split
      · next hk => rw [← hk]; exact hb.symm
      · rfl
    simp [Chunk.erase_of_get?_eq_none hget, h.inhabited hb, same]

/-! ### Data -/

theorem hasData_eq_false_iff : c.hasData = false ↔ ∀ owner, c.bucket? owner = none := by
  rw [hasData, Bool.not_eq_false', Std.ExtTreeMap.isEmpty_iff]
  constructor
  · intro h owner
    simp [bucket?, h]
  · intro h
    exact Std.ExtTreeMap.ext_getElem? fun {k} => by simpa [bucket?] using h k

theorem hasData_iff : c.hasData = true ↔ ∃ owner, (c.bucket? owner).isSome := by
  rw [← Bool.not_eq_false, hasData_eq_false_iff]
  simp [Option.isSome_iff_ne_none]

theorem Tidy.isSome_bucket?_iff (h : c.Tidy) :
    (c.bucket? owner).isSome ↔ ∃ entity, (c.member? owner entity).isSome := by
  unfold member?
  cases hb : c.bucket? owner with
  | none => simp
  | some chunk => simpa using Chunk.isEmpty_eq_false_iff.mp (h.inhabited hb)

theorem Tidy.hasData_iff_member? (h : c.Tidy) :
    c.hasData = true ↔ ∃ owner entity, (c.member? owner entity).isSome := by
  simp only [hasData_iff, h.isSome_bucket?_iff]

end Cluster

end RailAtlas
