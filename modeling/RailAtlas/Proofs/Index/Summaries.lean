import RailAtlas.Proofs.Index.Departures

/-!
# What a chunk says about its members

A chunk is changed by recording members and by letting go of them, and what it holds of an entity
is what was said of it last. Its summaries stand for the members that it holds, each once: the
delegate of a kind lists those of the kind, and the edge delegates share out those that lead to
another square, by the square to which they lead. Ascending lists make the sums behind the means
definite, since doubles are added in a fixed order.

The edge delegates can be gathered in one pass, with running sums for each square. `tallies` does
so, and comes to the same groups.
-/

namespace RailAtlas

namespace Point

/-- Each coordinate is the sum of theirs, from zero in the order given, over their number. -/
structure IsMeanOf (p : Point) (points : List Point) : Prop where
  x : p.x = (points.map (·.x)).foldl (· + ·) 0 / Float.ofNat points.length
  y : p.y = (points.map (·.y)).foldl (· + ·) 0 / Float.ofNat points.length

theorem foldl_add (p : Point) (points : List Point) :
    points.foldl add p = { x := (points.map (·.x)).foldl (· + ·) p.x
                           y := (points.map (·.y)).foldl (· + ·) p.y } := by
  induction points generalizing p with
  | nil => rfl
  | cons q points ih => exact ih (p.add q)

theorem isMeanOf_iff {p : Point} {points : List Point} : p.IsMeanOf points ↔ p = mean points := by
  rw [mean, foldl_add]
  constructor
  · rintro ⟨x, y⟩
    exact congrArg₂ Point.mk x y
  · rintro rfl
    exact ⟨rfl, rfl⟩

end Point

namespace Chunk

open SquareOffset

/-! ### Changes -/

inductive Change where
  | insert (entity : EntityId) (m : Member)
  | erase (entity : EntityId)

def change (c : Chunk) : Change → Chunk
  | .insert entity m => c.insert entity m
  | .erase entity => c.erase entity

/-- What is recorded for an entity after a change, given what was before. -/
def Change.effect (entity : EntityId) (before : Option Member) : Change → Option Member
  | .insert other m => if other = entity then some m else before
  | .erase other => if other = entity then none else before

/-- What some changes, oldest first, say of an entity in the end. -/
def lastSaid (changes : List Change) (entity : EntityId) : Option Member :=
  changes.foldl (Change.effect entity) none

variable {c : Chunk} {id : EntityId} {m : Member} {t : Point} {kind : EntityKind}

theorem get?_change (change : Change) :
    (c.change change).get? id = change.effect id (c.get? id) := by
  cases change with
  | insert entity m => simp only [Chunk.change, Change.effect, get?_insert, eq_comm]
  | erase entity => simp only [Chunk.change, Change.effect, get?_erase, eq_comm]

/-- Changes leave a chunk at its place. -/
theorem place_foldl_change (changes : List Change) :
    (changes.foldl change c).id = c.id ∧ (changes.foldl change c).owner = c.owner ∧
      (changes.foldl change c).square = c.square := by
  induction changes generalizing c with
  | nil => exact ⟨rfl, rfl, rfl⟩
  | cons change changes ih => cases change <;> exact ih

/-- A chunk holds of an entity what was said of it last. -/
theorem get?_foldl_change (changes : List Change) :
    (changes.foldl change c).get? id = changes.foldl (Change.effect id) (c.get? id) := by
  induction changes generalizing c with
  | nil => rfl
  | cons change changes ih => rw [List.foldl_cons, ih, get?_change, List.foldl_cons]

/-! ### Members in ascending order -/

/-- Entities in ascending order, each once. -/
def Ascending (ids : List EntityId) : Prop :=
  ids.Pairwise fun a b => compare a b = .lt

theorem ascending_memberList (c : Chunk) : Ascending (c.memberList.map (·.1)) :=
  List.pairwise_map.mpr Std.ExtTreeMap.ordered_keys_toList

theorem Ascending.nodup {ids : List EntityId} (h : Ascending ids) : ids.Nodup := by
  refine List.Pairwise.imp ?_ h
  rintro a b before rfl
  have itself : compare a a = .eq := Std.ReflCmp.compare_self
  rw [itself] at before
  cases before

/-- Where the members of some entities are. -/
def pointsOf (c : Chunk) (ids : List EntityId) : List Point :=
  ids.filterMap fun id => (c.get? id).map (·.point)

/-- Where the members of some entities lead. -/
def targetsOf (c : Chunk) (ids : List EntityId) : List Point :=
  ids.filterMap fun id => (c.get? id).bind (·.target)

/-! ### Delegates -/

/-- A delegate stands for all members of a kind. -/
structure Represents (c : Chunk) (kind : EntityKind) (d : Delegate) : Prop where
  heading : d.chunk = c.id ∧ d.owner = c.owner ∧ d.kind = kind ∧ d.scale = c.square.scale
  mem_iff : ∀ id, id ∈ d.members ↔ ∃ m, c.get? id = some m ∧ m.kind = kind
  ascending : Ascending d.members
  point : d.point.IsMeanOf (c.pointsOf d.members)

theorem mem_ofKind_iff : (id, m) ∈ c.ofKind kind ↔ c.get? id = some m ∧ m.kind = kind := by
  rw [ofKind, List.mem_filter, mem_memberList_iff, beq_iff_eq]

/-- There is a delegate of a kind exactly if there are members of the kind. -/
theorem delegate?_eq_none_iff :
    c.delegate? kind = none ↔ ∀ id m, c.get? id = some m → m.kind ≠ kind := by
  have none_iff : c.delegate? kind = none ↔ c.ofKind kind = [] := by
    rw [delegate?]
    cases c.ofKind kind <;> simp
  rw [none_iff, List.eq_nil_iff_forall_not_mem]
  constructor
  · exact fun none id m held same => none (id, m) (mem_ofKind_iff.mpr ⟨held, same⟩)
  · rintro none ⟨id, m⟩ listed
    obtain ⟨held, same⟩ := mem_ofKind_iff.mp listed
    exact none id m held same

theorem represents_of_delegate? {d : Delegate} (h : c.delegate? kind = some d) :
    c.Represents kind d := by
  have found : d = { chunk := c.id, owner := c.owner, kind, scale := c.square.scale
                     point := Point.mean ((c.ofKind kind).map (·.2.point))
                     members := (c.ofKind kind).map (·.1) } := by
    rw [delegate?] at h
    split at h
    · cases h
    · exact (Option.some.inj h).symm
  subst found
  refine ⟨⟨rfl, rfl, rfl, rfl⟩, fun id => ?_, ?_, Point.isMeanOf_iff.mpr (congrArg Point.mean ?_)⟩
  · simp only [List.mem_map, Prod.exists, exists_and_right, exists_eq_right, mem_ofKind_iff]
  · exact c.ascending_memberList.sublist (List.filter_sublist.map _)
  · rw [pointsOf, List.filterMap_map, ← List.filterMap_eq_map]
    refine List.filterMap_congr ?_
    rintro ⟨id, m⟩ listed
    rw [Function.comp_apply, Function.comp_apply, (mem_ofKind_iff.mp listed).1]
    rfl

/-! ### Edge delegates -/

/-- An edge delegate stands for all members that lead to the square at its offset. -/
structure Groups (c : Chunk) (d : EdgeDelegate) : Prop where
  heading : d.chunk = c.id ∧ d.owner = c.owner ∧ d.scale = c.square.scale
  peer : d.peerCenter = c.centerAt d.offset ∧ d.peer = none
  elsewhere : d.offset ≠ .here
  inhabited : d.members ≠ []
  mem_iff : ∀ id, id ∈ d.members ↔
    ∃ m t, c.get? id = some m ∧ m.target = some t ∧ c.squareOffset t = d.offset
  ascending : Ascending d.members
  origin : d.origin.IsMeanOf (c.pointsOf d.members)
  target : d.target.IsMeanOf (c.targetsOf d.members)

/-- The departures towards one square. -/
def toward (c : Chunk) (o : SquareOffset) : List Departure :=
  c.departures.filter fun d => d.offset == o

variable {o : SquareOffset}

theorem mem_toward_iff {d : Departure} : d ∈ c.toward o ↔ d ∈ c.departures ∧ d.offset = o := by
  rw [toward, List.mem_filter, beq_iff_eq]

/-- Departures are listed in ascending order. -/
theorem ascending_departures (c : Chunk) : Ascending (c.departures.map (·.id)) := by
  have named {id : EntityId} {m : Member} {d : Departure} (departs : (do
      let target ← m.target
      let offset := c.squareOffset target
      if offset = .here then none else some ({ id, offset, origin := m.point, target } : Departure))
        = some d) : d.id = id := by
    obtain ⟨t, -, departs⟩ := Option.bind_eq_some_iff.mp departs
    change (if _ then _ else _) = _ at departs
    split at departs
    · cases departs
    · rw [← Option.some.inj departs]
  refine List.pairwise_map.mpr (List.Pairwise.filterMap _ ?_ Std.ExtTreeMap.ordered_keys_toList)
  rintro ⟨id, m⟩ ⟨id', m'⟩ before d departs d' departs'
  rw [named departs, named departs']
  exact before

/-- The departures towards one square are described by one edge delegate. -/
theorem groups_edgeDelegate (listed : o ∈ offsets c.departures) :
    c.Groups (c.edgeDelegate o (c.toward o)) := by
  obtain ⟨first, departs, same⟩ := mem_offsets_iff.mp listed
  have elsewhere : o ≠ .here := by
    obtain ⟨m, -, -, -, elsewhere, -⟩ := mem_departures_iff.mp departs
    rwa [← same]
  have found {d : Departure} (hd : d ∈ c.toward o) :
      ∃ m, c.get? d.id = some m ∧ m.target = some d.target ∧ d.origin = m.point := by
    obtain ⟨m, held, leads, -, -, origin⟩ := mem_departures_iff.mp (mem_toward_iff.mp hd).1
    exact ⟨m, held, leads, origin⟩
  refine ⟨⟨rfl, rfl, rfl⟩, ⟨rfl, rfl⟩, elsewhere, ?_, fun id => ?_, ?_, ?_, ?_⟩
  · exact List.ne_nil_of_mem (List.mem_map_of_mem (mem_toward_iff.mpr ⟨departs, same⟩))
  · constructor
    · intro member
      obtain ⟨d, hd, rfl⟩ := List.mem_map.mp member
      obtain ⟨hd, same⟩ := mem_toward_iff.mp hd
      obtain ⟨m, held, leads, offset, -, -⟩ := mem_departures_iff.mp hd
      exact ⟨m, d.target, held, leads, offset.symm.trans same⟩
    · rintro ⟨m, t, held, leads, offset⟩
      exact (mem_group_iff held leads).mpr ⟨offset, elsewhere⟩
  · exact c.ascending_departures.sublist (List.filter_sublist.map _)
  · refine Point.isMeanOf_iff.mpr (congrArg Point.mean ?_)
    simp only [edgeDelegate, pointsOf]
    rw [List.filterMap_map, ← List.filterMap_eq_map]
    refine List.filterMap_congr fun d hd => ?_
    obtain ⟨m, held, -, origin⟩ := found hd
    rw [Function.comp_apply, Function.comp_apply, held, origin, Option.map_some]
  · refine Point.isMeanOf_iff.mpr (congrArg Point.mean ?_)
    simp only [edgeDelegate, targetsOf]
    rw [List.filterMap_map, ← List.filterMap_eq_map]
    refine List.filterMap_congr fun d hd => ?_
    obtain ⟨m, held, leads, -⟩ := found hd
    rw [Function.comp_apply, Function.comp_apply, held, Option.bind_some, leads]

theorem groups_of_mem_edgeDelegates {d : EdgeDelegate} (h : d ∈ c.edgeDelegates) : c.Groups d := by
  rw [edgeDelegates_eq] at h
  obtain ⟨o, listed, rfl⟩ := List.mem_map.mp h
  exact groups_edgeDelegate listed

/-- The edge delegates come in the order of their offsets. -/
theorem pairwise_edgeDelegates (c : Chunk) :
    c.edgeDelegates.Pairwise fun d e => d.offset.Precedes e.offset := by
  rw [edgeDelegates_eq]
  exact List.pairwise_map.mpr (pairwise_offsets _)

/-- No entity is listed twice by the edge delegates of a chunk. -/
theorem nodup_edgeDelegates (c : Chunk) : (c.edgeDelegates.flatMap (·.members)).Nodup := by
  rw [List.nodup_flatMap]
  refine ⟨fun d hd => (groups_of_mem_edgeDelegates hd).ascending.nodup, ?_⟩
  refine c.pairwise_edgeDelegates.imp_of_mem fun {d e} hd he precedes => ?_
  intro id listed again
  obtain ⟨m, t, held, leads, offset⟩ := ((groups_of_mem_edgeDelegates hd).mem_iff id).mp listed
  obtain ⟨m', t', held', leads', offset'⟩ := ((groups_of_mem_edgeDelegates he).mem_iff id).mp again
  obtain rfl := Option.some.inj (held.symm.trans held')
  obtain rfl := Option.some.inj (leads.symm.trans leads')
  exact precedes.ne (offset.symm.trans offset')

/-- A directed member is listed by the edge delegate of its own offset and by no other one. -/
theorem delegatesOf_of_elsewhere (held : c.get? id = some m) (leads : m.target = some t)
    (elsewhere : c.squareOffset t ≠ .here) :
    ∃ d, c.delegatesOf id = [d] ∧ d.offset = c.squareOffset t := by
  rw [delegatesOf_eq held leads, if_neg elsewhere]
  exact ⟨_, rfl, rfl⟩

/-- Listed by an edge delegate are the members that lead to another square. -/
theorem delegatesOf_ne_nil_iff : c.delegatesOf id ≠ [] ↔
    ∃ m t, c.get? id = some m ∧ m.target = some t ∧ c.squareOffset t ≠ .here := by
  constructor
  · intro listed
    obtain ⟨d, hd⟩ := List.exists_mem_of_ne_nil _ listed
    obtain ⟨hd, member⟩ := List.mem_filter.mp hd
    have groups := groups_of_mem_edgeDelegates hd
    obtain ⟨m, t, held, leads, offset⟩ := (groups.mem_iff id).mp (List.contains_iff_mem.mp member)
    exact ⟨m, t, held, leads, offset ▸ groups.elsewhere⟩
  · rintro ⟨m, t, held, leads, elsewhere⟩
    obtain ⟨d, only, -⟩ := delegatesOf_of_elsewhere held leads elsewhere
    rw [only]
    exact List.cons_ne_nil _ _

/-! ### One pass -/

/-- Running sums of the departures towards one square. -/
structure Tally where
  origin : Point
  target : Point
  members : List EntityId

def Tally.empty : Tally :=
  { origin := .origin, target := .origin, members := [] }

def Tally.add (tally : Tally) (d : Departure) : Tally :=
  { origin := tally.origin.add d.origin
    target := tally.target.add d.target
    members := tally.members ++ [d.id] }

/-- Count a departure in at the tally of its offset, which is put in its place if there is none. -/
def tallyIn (d : Departure) : List (SquareOffset × Tally) → List (SquareOffset × Tally)
  | [] => [(d.offset, Tally.empty.add d)]
  | (o, tally) :: rest =>
    if d.offset = o then (o, tally.add d) :: rest
    else if d.offset.before o then (d.offset, Tally.empty.add d) :: (o, tally) :: rest
    else (o, tally) :: tallyIn d rest

/-- The tallies of a chunk, in one pass over its departures. -/
def tallies (c : Chunk) : List (SquareOffset × Tally) :=
  c.departures.foldl (fun ts d => tallyIn d ts) []

/-- The edge delegate that a tally amounts to. -/
def ofTally (c : Chunk) (o : SquareOffset) (tally : Tally) : EdgeDelegate :=
  let n := Float.ofNat tally.members.length
  { chunk := c.id
    owner := c.owner
    scale := c.square.scale
    offset := o
    peerCenter := c.centerAt o
    peer := none
    origin := { x := tally.origin.x / n, y := tally.origin.y / n }
    target := { x := tally.target.x / n, y := tally.target.y / n }
    members := tally.members }

def tallyOf (ds : List Departure) : Tally :=
  ds.foldl Tally.add .empty

theorem tallyOf_eq (ds : List Departure) : tallyOf ds =
    { origin := (ds.map (·.origin)).foldl Point.add .origin
      target := (ds.map (·.target)).foldl Point.add .origin
      members := ds.map (·.id) } := by
  induction ds using List.reverseRecOn with
  | nil => rfl
  | append_singleton ds d ih =>
    rw [tallyOf, List.foldl_append, ← tallyOf, ih]
    simp [Tally.add]

/-- The tally of a group amounts to its edge delegate. -/
theorem ofTally_tallyOf (ds : List Departure) : c.ofTally o (tallyOf ds) = c.edgeDelegate o ds := by
  rw [tallyOf_eq, ofTally, edgeDelegate, Point.mean, Point.mean]
  simp only [List.length_map]

theorem tallyOf_concat (ds : List Departure) (d : Departure) :
    tallyOf (ds ++ [d]) = (tallyOf ds).add d :=
  List.foldl_append

/-- The tallies of some departures, sorted out by offset. -/
def sorted (ds : List Departure) (os : List SquareOffset) : List (SquareOffset × Tally) :=
  os.map fun o => (o, tallyOf (ds.filter fun d => d.offset == o))

theorem sorted_cons (ds : List Departure) (o : SquareOffset) (os : List SquareOffset) :
    sorted ds (o :: os) = (o, tallyOf (ds.filter fun d => d.offset == o)) :: sorted ds os :=
  rfl

variable {ds : List Departure} {d : Departure} {os : List SquareOffset}

theorem sorted_concat_of_not_mem (apart : d.offset ∉ os) :
    sorted (ds ++ [d]) os = sorted ds os := by
  refine List.map_congr_left fun o ho => ?_
  have other : (d.offset == o) = false := beq_false_of_ne fun same => apart (same ▸ ho)
  rw [List.filter_append, List.filter_singleton, other, cond_false, List.append_nil]

theorem filter_concat_self (ds : List Departure) (d : Departure) :
    (ds ++ [d]).filter (fun e => e.offset == d.offset) =
      ds.filter (fun e => e.offset == d.offset) ++ [d] := by
  rw [List.filter_append, List.filter_singleton, beq_self_eq_true, cond_true]

/-- The first departure towards a square opens a tally. -/
theorem sorted_concat_cons_of_not_mem (apart : d.offset ∉ os)
    (complete : ∀ e ∈ ds, e.offset = d.offset → d.offset ∈ os) :
    sorted (ds ++ [d]) (d.offset :: os) = (d.offset, Tally.empty.add d) :: sorted ds os := by
  have none : ds.filter (fun e => e.offset == d.offset) = [] :=
    List.filter_eq_nil_iff.mpr fun e he same => apart (complete e he (beq_iff_eq.mp same))
  rw [sorted_cons, sorted_concat_of_not_mem apart, filter_concat_self, none, tallyOf_concat]
  rfl

/-- Counting one more departure in changes the tally of its offset, and no other one. -/
theorem tallyIn_sorted (ordered : os.Pairwise Precedes)
    (complete : ∀ e ∈ ds, e.offset = d.offset → d.offset ∈ os) :
    tallyIn d (sorted ds os) = sorted (ds ++ [d]) (insertOffset d.offset os) := by
  induction os with
  | nil => exact (sorted_concat_cons_of_not_mem List.not_mem_nil complete).symm
  | cons o os ih =>
    obtain ⟨first, rest⟩ := List.pairwise_cons.mp ordered
    rw [sorted_cons, tallyIn, insertOffset]
    split
    · next same =>
      have apart : d.offset ∉ os := fun again => (first _ again).ne same.symm
      rw [sorted_cons, sorted_concat_of_not_mem apart, ← same, filter_concat_self, tallyOf_concat]
    · next other =>
      split
      · next earlier =>
        have precedes : d.offset.Precedes o := (before_iff.mp earlier).resolve_right other
        have apart : d.offset ∉ o :: os := fun again =>
          (List.mem_cons.mp again).elim other fun again => (precedes.trans (first _ again)).ne rfl
        rw [sorted_concat_cons_of_not_mem apart complete, sorted_cons]
      · have further := ih rest fun e he same =>
          (List.mem_cons.mp (complete e he same)).resolve_left other
        have kept : sorted (ds ++ [d]) [o] = sorted ds [o] :=
          sorted_concat_of_not_mem fun same => other (List.mem_singleton.mp same)
        rw [further, sorted_cons]
        exact congrArg (· ++ _) kept.symm

/-- One pass sorts the departures out by offset. -/
theorem foldl_tallyIn (ds : List Departure) :
    ds.foldl (fun ts d => tallyIn d ts) [] = sorted ds (offsets ds) := by
  induction ds using List.reverseRecOn with
  | nil => rfl
  | append_singleton ds d ih =>
    rw [List.foldl_append, ih, offsets_append_singleton]
    exact tallyIn_sorted (pairwise_offsets ds) fun e he same => mem_offsets_iff.mpr ⟨e, he, same⟩

/-- One pass gathers the edge delegates. -/
theorem edgeDelegates_eq_tallies (c : Chunk) :
    c.edgeDelegates = c.tallies.map fun (o, tally) => c.ofTally o tally := by
  rw [tallies, foldl_tallyIn, sorted, List.map_map, edgeDelegates_eq]
  exact List.map_congr_left fun o _ => (ofTally_tallyOf _).symm

/-! ### After any changes -/

/-- Whatever has been done to a chunk, its summaries stand for its members. It holds of each entity
what was said of it last; the delegate of a kind lists the members of the kind, and there is none
if there are none; the edge delegates are in the order of their squares, each lists the members
that lead to its square, and together they list those that lead to another square, each once. -/
theorem summaries_of_changes (id : ChunkId) (owner : OwnerId) (home : ClusterId) (square : Square)
    (changes : List Change) :
    let c := changes.foldl change (empty id owner home square)
    (c.id = id ∧ c.owner = owner ∧ c.square = square) ∧
    (∀ entity, c.get? entity = lastSaid changes entity) ∧
    (∀ kind, (c.delegate? kind = none ↔ ∀ entity m, c.get? entity = some m → m.kind ≠ kind) ∧
      ∀ d, c.delegate? kind = some d → c.Represents kind d) ∧
    c.edgeDelegates.Pairwise (fun d e => d.offset.Precedes e.offset) ∧
    (∀ d ∈ c.edgeDelegates, c.Groups d) ∧
    (c.edgeDelegates.flatMap (·.members)).Nodup ∧
    (∀ entity, c.delegatesOf entity ≠ [] ↔
      ∃ m t, c.get? entity = some m ∧ m.target = some t ∧ c.squareOffset t ≠ .here) ∧
    (∀ entity m t, c.get? entity = some m → m.target = some t → c.squareOffset t ≠ .here →
      ∃ d, c.delegatesOf entity = [d] ∧ d.offset = c.squareOffset t) ∧
    c.edgeDelegates = c.tallies.map fun (o, tally) => c.ofTally o tally := by
  intro c
  refine ⟨place_foldl_change changes, fun entity => ?_, fun kind => ?_, c.pairwise_edgeDelegates,
    fun d => groups_of_mem_edgeDelegates, c.nodup_edgeDelegates, fun entity => ?_, ?_,
    c.edgeDelegates_eq_tallies⟩
  · rw [lastSaid, ← get?_empty id owner home square]
    exact get?_foldl_change changes
  · exact ⟨delegate?_eq_none_iff, fun d => represents_of_delegate?⟩
  · exact delegatesOf_ne_nil_iff
  · exact fun entity m t => delegatesOf_of_elsewhere

end Chunk

end RailAtlas
