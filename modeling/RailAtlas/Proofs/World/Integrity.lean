import RailAtlas.Proofs.Index.FlatIndex
import RailAtlas.World.Replay

/-!
# Worlds whose records fit together

`Integrity` says that every record of a world is well formed and fits: points lie inside the world
and edges join registered rail nodes. The conditions under which the operations go through are
stated in the same terms, and so is what the operations do to the registry.
-/

namespace RailAtlas

namespace World

variable {w u : World} {id x : EntityId} {r : EntityRecord} {old goal : Point}

/-! ### The registry -/

def IsNode (w : World) (id : EntityId) : Prop :=
  ∃ r, w.get? id = some r ∧ r.kind = .railNode

/-- A shape has its place in a world: a point lies inside, an edge joins two rail nodes. -/
def Fits (w : World) : Shape → Prop
  | .point p => w.containsPoint p = true
  | .edge origin target => w.IsNode origin ∧ w.IsNode target
  | .placeless => True

/-- Every record is well formed and fits the world. -/
def Integrity (w : World) : Prop :=
  ∀ ⦃id : EntityId⦄ ⦃r : EntityRecord⦄, w.get? id = some r → r.isWellFormed = true ∧ w.Fits r.shape

/-- No record refers to an entity. -/
def Unreferenced (w : World) (id : EntityId) : Prop :=
  ∀ ⦃x : EntityId⦄ ⦃r : EntityRecord⦄, w.get? x = some r → r.touches id = false

theorem mem_entities : (id, r) ∈ w.entities ↔ w.get? id = some r :=
  Std.ExtTreeMap.mem_toList_iff_getElem?_eq_some

/-- No entity is listed twice. -/
theorem nodup_entities : (w.entities.map (·.1)).Nodup :=
  List.pairwise_map.mpr (Std.ExtTreeMap.distinct_keys_toList.imp fun apart same =>
    apart (Std.compare_eq_iff_eq.mpr same))

/-- No entity is listed twice among those with some property. -/
theorem nodup_filter_entities {held : EntityId × EntityRecord → Bool} :
    ((w.entities.filter held).map (·.1)).Nodup :=
  nodup_entities.sublist (List.filter_sublist.map _)

theorem get?_insert (registry : Std.ExtTreeMap EntityId EntityRecord) :
    (registry.insert id r)[x]? = if x = id then some r else registry[x]? := by
  simp only [Std.ExtTreeMap.getElem?_insert, Std.compare_eq_iff_eq]
  by_cases h : id = x
  · simp [h]
  · simp [h, Ne.symm h]

theorem registry_contains : w.registry.contains id = (w.get? id).isSome :=
  Std.ExtTreeMap.contains_eq_isSome_getElem?

/-- Only edges refer to entities. -/
theorem kind_of_touches (formed : r.isWellFormed = true) (h : r.touches id = true) :
    r.kind = .railEdge := by
  rw [EntityRecord.touches] at h
  rw [EntityRecord.isWellFormed] at formed
  cases hs : r.shape with
  | point p => simp [hs] at h
  | placeless => simp [hs] at h
  | edge origin target =>
    simp only [hs] at formed
    cases hk : r.kind <;> simp [hk, EntityKind.isDirected] at formed ⊢

/-- A rail node has a point. -/
theorem exists_point_of_railNode (formed : r.isWellFormed = true) (h : r.kind = .railNode) :
    ∃ p, r.shape = .point p := by
  cases hs : r.shape with
  | point p => exact ⟨p, rfl⟩
  | edge origin target =>
    simp [EntityRecord.isWellFormed, hs, h, EntityKind.isDirected] at formed
  | placeless =>
    simp [EntityRecord.isWellFormed, hs, h, EntityKind.isSpatial] at formed

theorem Fits.isNode_of_touches (h : w.Fits r.shape) (touches : r.touches id = true) :
    w.IsNode id := by
  rw [EntityRecord.touches] at touches
  cases hs : r.shape with
  | point p => simp [hs] at touches
  | placeless => simp [hs] at touches
  | edge origin target =>
    rw [hs] at h
    simp only [hs, Bool.or_eq_true, beq_iff_eq] at touches
    obtain rfl | rfl := touches
    · exact h.1
    · exact h.2

/-- A record goes on fitting as long as the nodes it refers to stay. -/
theorem Fits.mono (h : w.Fits r.shape) (range : u.index.range = w.index.range)
    (nodes : ∀ n, r.touches n = true → w.IsNode n → u.IsNode n) : u.Fits r.shape := by
  cases hs : r.shape with
  | point p =>
    rw [hs] at h
    simpa only [Fits, containsPoint, range] using h
  | placeless => trivial
  | edge origin target =>
    rw [hs] at h
    exact ⟨nodes _ (by simp [EntityRecord.touches, hs]) h.1,
      nodes _ (by simp [EntityRecord.touches, hs]) h.2⟩

/-- Nothing refers to an entity that is no rail node. -/
theorem Integrity.unreferenced (h : w.Integrity) (apart : ¬ w.IsNode id) : w.Unreferenced id := by
  intro x r hr
  rw [← Bool.not_eq_true]
  exact fun touches => apart ((h hr).2.isNode_of_touches touches)

/-! ### Conditions of the operations -/

theorem requireNode_eq_ok_iff : w.requireNode id = .ok () ↔ w.IsNode id := by
  rw [requireNode, IsNode]
  cases w.get? id with
  | none => simp
  | some r =>
    by_cases h : r.kind = .railNode <;> simp [h]

theorem requirePlace_eq_ok_iff {s : Shape} : w.requirePlace s = .ok () ↔ w.Fits s := by
  cases s with
  | point p =>
    by_cases h : w.containsPoint p = true <;> simp [requirePlace, Fits, h]
  | placeless => simp [requirePlace, Fits]
  | edge origin target =>
    rw [Fits, ← requireNode_eq_ok_iff, ← requireNode_eq_ok_iff, requirePlace]
    cases h : w.requireNode origin with
    | error cause => simp [bind, Except.bind]
    | ok u => simp [bind, Except.bind]

theorem requireSpawnable_eq_ok_iff : w.requireSpawnable id r = .ok () ↔
    w.get? id = none ∧ r.isWellFormed = true ∧ w.Fits r.shape := by
  rw [← requirePlace_eq_ok_iff, requireSpawnable, registry_contains]
  cases w.get? id with
  | some old => simp
  | none =>
    cases h : r.isWellFormed <;> simp

theorem requireMovable_eq_ok_iff : w.requireMovable id goal = .ok (r, old) ↔
    w.get? id = some r ∧ r.shape = .point old ∧ w.containsPoint goal = true := by
  rw [requireMovable]
  cases hr : w.get? id with
  | none => simp
  | some found =>
    cases hs : found.shape with
    | point p =>
      by_cases hc : w.containsPoint goal = true
      · simp only [hs, hc, if_true, Except.ok.injEq, Prod.mk.injEq, Option.some.injEq]
        constructor
        · rintro ⟨rfl, rfl⟩
          exact ⟨rfl, hs, trivial⟩
        · rintro ⟨rfl, same, -⟩
          exact ⟨rfl, by simpa [hs] using same⟩
      · simp [hs, hc]
    | edge origin target =>
      simp only [hs, Option.some.injEq]
      exact ⟨by simp, by rintro ⟨rfl, same, -⟩; simp [hs] at same⟩
    | placeless =>
      simp only [hs, Option.some.injEq]
      exact ⟨by simp, by rintro ⟨rfl, same, -⟩; simp [hs] at same⟩

/-! ### What the operations do to the registry -/

theorem get?_register :
    (w.register id r).value.get? x = if x = id then some r else w.get? x :=
  get?_insert w.registry

@[simp] theorem range_register : (w.register id r).value.index.range = w.index.range :=
  Tree.range_add

theorem retire_of_none (h : w.get? id = none) : w.retire id = w := by
  rw [retire, h]

theorem retire_of_some (h : w.get? id = some r) : w.retire id =
    { w with
      index := w.index.remove (w.placementOf id r)
      registry := w.registry.erase id }.record (.despawned id r) := by
  rw [retire, h]

theorem get?_retire : (w.retire id).get? x = if x = id then none else w.get? x := by
  cases hr : w.get? id with
  | none =>
    rw [retire_of_none hr]
    split
    · next same => rw [same, hr]
    · rfl
  | some r =>
    rw [retire_of_some hr]
    change (w.registry.erase id)[x]? = if x = id then none else w.registry[x]?
    simp only [Std.ExtTreeMap.getElem?_erase, Std.compare_eq_iff_eq]
    by_cases h : id = x
    · simp [h]
    · simp [h, Ne.symm h]

@[simp] theorem range_retire : (w.retire id).index.range = w.index.range := by
  cases hr : w.get? id with
  | none => rw [retire_of_none hr]
  | some r =>
    rw [retire_of_some hr]
    exact Tree.range_remove

/-- Indexing entities anew changes the index only. -/
theorem foldList_reindex (w : World) (ids : List EntityId) : ∃ index,
    (Logged.foldList reindex w ids).value = { w with index } ∧ index.range = w.index.range := by
  rw [Logged.value_foldList]
  induction ids generalizing w with
  | nil => exact ⟨w.index, rfl, rfl⟩
  | cons x ids ih =>
    have once : ∃ index, (w.reindex x).value = { w with index } ∧ index.range = w.index.range := by
      rw [reindex]
      cases w.placement? x with
      | none => exact ⟨w.index, rfl, rfl⟩
      | some p => exact ⟨(w.index.update p).value, rfl, by simp [Tree.update]⟩
    obtain ⟨middle, hmiddle, hrange⟩ := once
    obtain ⟨index, hindex, hkept⟩ := ih { w with index := middle }
    exact ⟨index, by rw [List.foldl_cons, hmiddle, hindex], hkept.trans hrange⟩

/-- The world with a new position on record, of which the index has not been told. -/
def repositioned (w : World) (id : EntityId) (r : EntityRecord) (goal : Point) : World :=
  { w with registry := w.registry.insert id { r with shape := .point goal } }

theorem get?_repositioned : (w.repositioned id r goal).get? x =
    if x = id then some { r with shape := .point goal } else w.get? x :=
  get?_insert w.registry

/-- Moving tells the index anew about an entity and its dependants, and changes nothing else. -/
theorem relocate_eq : ∃ index, (w.relocate id r old goal).value =
      { w.repositioned id r goal with index }.record (.moved id old goal) ∧
    (Logged.foldList reindex (w.repositioned id r goal)
      (id :: (w.repositioned id r goal).dependants id r)).value.index = index ∧
    index.range = w.index.range := by
  obtain ⟨index, hindex, hrange⟩ := foldList_reindex (w.repositioned id r goal)
    (id :: (w.repositioned id r goal).dependants id r)
  refine ⟨index, ?_, by rw [hindex], hrange⟩
  rw [← hindex]
  rfl

theorem get?_relocate : (w.relocate id r old goal).value.get? x =
    if x = id then some { r with shape := .point goal } else w.get? x := by
  obtain ⟨index, hvalue, -⟩ := @relocate_eq w id r old goal
  rw [hvalue]
  exact get?_repositioned

@[simp] theorem range_relocate :
    (w.relocate id r old goal).value.index.range = w.index.range := by
  obtain ⟨index, hvalue, -, hrange⟩ := @relocate_eq w id r old goal
  rw [hvalue]
  exact hrange

/-! ### Integrity is kept -/

/-- Changing one record keeps integrity if the new record fits and no node is lost to which
another record refers. -/
theorem Integrity.of_change (h : w.Integrity) (id : EntityId)
    (range : u.index.range = w.index.range)
    (others : ∀ {x}, x ≠ id → u.get? x = w.get? x)
    (here : ∀ {r}, u.get? id = some r → r.isWellFormed = true ∧ w.Fits r.shape)
    (kept : ∀ {x r}, x ≠ id → w.get? x = some r → r.touches id = true → u.IsNode id)
    (self : ∀ {r}, u.get? id = some r → r.touches id = false) : u.Integrity := by
  have nodes : ∀ {n}, n ≠ id → w.IsNode n → u.IsNode n := by
    rintro n hn ⟨r, hr, hk⟩
    exact ⟨r, (others hn).trans hr, hk⟩
  intro x r hr
  by_cases hx : x = id
  · subst hx
    obtain ⟨formed, fits⟩ := here hr
    refine ⟨formed, fits.mono range fun n touches hn => nodes ?_ hn⟩
    rintro rfl
    simp [self hr] at touches
  · rw [others hx] at hr
    obtain ⟨formed, fits⟩ := h hr
    refine ⟨formed, fits.mono range ?_⟩
    intro n touches hn
    by_cases hid : n = id
    · subst hid
      exact kept hx hr touches
    · exact nodes hid hn

/-- Registering an acceptable record keeps integrity: nothing referred to it before. -/
theorem Integrity.register (h : w.Integrity) (fresh : w.get? id = none)
    (formed : r.isWellFormed = true) (fits : w.Fits r.shape) :
    (w.register id r).value.Integrity := by
  have apart : ¬ w.IsNode id := by
    rintro ⟨old, hold, -⟩
    simp [fresh] at hold
  refine h.of_change id range_register (fun hx => by rw [get?_register, if_neg hx]) ?_ ?_ ?_
  · intro r' hr
    rw [get?_register, if_pos rfl] at hr
    rw [← Option.some.inj hr]
    exact ⟨formed, fits⟩
  · intro x r' _ hr touches
    simp [h.unreferenced apart hr] at touches
  · intro r' hr
    rw [get?_register, if_pos rfl] at hr
    rw [← Option.some.inj hr, ← Bool.not_eq_true]
    exact fun touches => apart (fits.isNode_of_touches touches)

/-- Taking out an entity that nothing refers to keeps integrity. -/
theorem Integrity.retire (h : w.Integrity) (unreferenced : w.Unreferenced id) :
    (w.retire id).Integrity := by
  have gone : ∀ {r}, (w.retire id).get? id = some r → False := by
    intro r hr
    simp [get?_retire] at hr
  refine h.of_change id range_retire (fun hx => by rw [get?_retire, if_neg hx])
    (fun hr => (gone hr).elim) ?_ (fun hr => (gone hr).elim)
  intro x r _ hr touches
  simp [unreferenced hr] at touches

/-- Integrity is a matter of the registry. -/
theorem Integrity.congr (h : w.Integrity) (range : u.index.range = w.index.range)
    (same : ∀ x, u.get? x = w.get? x) : u.Integrity := by
  intro x r hr
  rw [same] at hr
  refine ⟨(h hr).1, (h hr).2.mono range ?_⟩
  rintro n - ⟨node, hnode, hk⟩
  exact ⟨node, (same n).trans hnode, hk⟩

/-- A new position inside the world keeps integrity: a rail node remains one. -/
theorem Integrity.repositioned (h : w.Integrity) (hr : w.get? id = some r)
    (hs : r.shape = .point old) (inside : w.containsPoint goal = true) :
    (w.repositioned id r goal).Integrity := by
  refine h.of_change id rfl (fun hx => by rw [get?_repositioned, if_neg hx]) ?_ ?_ ?_
  · intro r' hr'
    rw [get?_repositioned, if_pos rfl] at hr'
    rw [← Option.some.inj hr']
    have formed := (h hr).1
    simp only [EntityRecord.isWellFormed, hs] at formed ⊢
    exact ⟨formed, inside⟩
  · intro x r' _ hr' touches
    obtain ⟨found, hfound, hk⟩ := (h hr').2.isNode_of_touches touches
    refine ⟨{ r with shape := .point goal }, by rw [get?_repositioned, if_pos rfl], ?_⟩
    rwa [Option.some.inj (hr.symm.trans hfound)]
  · intro r' hr'
    rw [get?_repositioned, if_pos rfl] at hr'
    rw [← Option.some.inj hr']
    rfl

theorem Integrity.relocate (h : w.Integrity) (hr : w.get? id = some r) (hs : r.shape = .point old)
    (inside : w.containsPoint goal = true) : (w.relocate id r old goal).value.Integrity :=
  (h.repositioned hr hs inside).congr range_relocate
    fun x => by rw [get?_relocate, get?_repositioned]

end World

end RailAtlas
