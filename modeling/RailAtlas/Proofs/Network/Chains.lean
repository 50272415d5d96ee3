import Mathlib.Data.List.Infix
import RailAtlas.Proofs.Network.Laying

/-!
# The chains of a network

The nodes of an owner are those whose numbers leave the same remainder, and two of them are
neighbours if their numbers are a round apart. So the edges of an owner lead from each of its nodes
to the next one, in the order in which they were placed: they form a single simple path. `Chain`
says so of one owner, and `Layout` of everything in a network that has been grown from a plan.
-/

namespace RailAtlas

variable {id origin target : EntityId} {r : EntityRecord} {nodes edges : List EntityId}
variable {owners : Nat} {owner : OwnerId}

/-! ### Every so many elements of a list -/

/-- A filter that picks the elements whose numbers are `first`, `first + gap`, `first + gap * 2`
and so on gives them in this order. -/
theorem getElem?_filter_of_every {α : Type} {gap first : Nat} {picked : α → Bool} {xs : List α}
    (small : first < gap)
    (picks : ∀ i x, xs[i]? = some x → (picked x = true ↔ ∃ m, i = first + gap * m)) (m : Nat) :
    (xs.filter picked)[m]? = xs[first + gap * m]? := by
  induction xs generalizing first m with
  | nil => simp
  | cons x xs ih =>
    cases first with
    | zero =>
      have here : picked x = true := (picks 0 x rfl).mpr ⟨0, by simp⟩
      -- behind a picked element the next one is a gap away, which is one less in the rest
      have later : ∀ i y, xs[i]? = some y → (picked y = true ↔ ∃ m, i = gap - 1 + gap * m) := by
        intro i y hy
        rw [picks (i + 1) y hy]
        constructor
        · rintro ⟨_ | m, hm⟩
          · omega
          · exact ⟨m, by rw [Nat.mul_succ] at hm; omega⟩
        · rintro ⟨m, rfl⟩
          exact ⟨m + 1, by rw [Nat.mul_succ]; omega⟩
      rw [List.filter_cons_of_pos here]
      cases m with
      | zero => simp
      | succ m =>
        have place : 0 + gap * (m + 1) = gap - 1 + gap * m + 1 := by rw [Nat.mul_succ]; omega
        rw [List.getElem?_cons_succ, place, List.getElem?_cons_succ]
        exact ih (by omega) later m
    | succ first =>
      have skipped : ¬ picked x = true := by
        rw [picks 0 x rfl]
        omega
      have later : ∀ i y, xs[i]? = some y → (picked y = true ↔ ∃ m, i = first + gap * m) := by
        intro i y hy
        rw [picks (i + 1) y hy]
        exact exists_congr fun m => by omega
      rw [List.filter_cons_of_neg skipped, ih (by omega) later, Nat.succ_add_eq_add_succ,
        Nat.add_succ, List.getElem?_cons_succ]

/-- Two elements are next to each other if their numbers are. -/
theorem pair_infix_iff {α : Type} {a b : α} {xs : List α} :
    [a, b] <:+: xs ↔ ∃ i, xs[i]? = some a ∧ xs[i + 1]? = some b := by
  rw [List.infix_iff_getElem?]
  constructor
  · rintro ⟨i, -, same⟩
    exact ⟨i, by simpa using same 0 (by simp), by simpa [Nat.add_comm] using same 1 (by simp)⟩
  · rintro ⟨i, first, second⟩
    have inside := (List.getElem?_eq_some_iff.mp second).1
    refine ⟨i, by simp only [List.length_cons, List.length_nil]; omega, fun j hj => ?_⟩
    match j, hj with
    | 0, _ => simpa using first
    | 1, _ => simpa [Nat.add_comm] using second

/-! ### What the world tells of a network -/

namespace World

variable {w : World}

/-- The rail nodes of an owner, in the order in which they were placed. -/
def chainOf (w : World) (owner : OwnerId) : List EntityId :=
  w.placedNodes.filter fun id => (w.get? id).any fun r => r.owner == owner

/-- The entities of a kind are as many as a list of them without repetition. -/
theorem countP_kind {kind : EntityKind} {ids : List EntityId} (distinct : ids.Nodup)
    (mem_iff : ∀ id, id ∈ ids ↔ ∃ r, w.get? id = some r ∧ r.kind = kind) :
    (w.entities.countP fun e => e.2.kind == kind) = ids.length := by
  have same : ((w.entities.filter fun e => e.2.kind == kind).map (·.1)).Perm ids := by
    refine (List.perm_ext_iff_of_nodup nodup_filter_entities distinct).mpr fun id => ?_
    rw [mem_iff]
    simp [mem_entities]
  rw [List.countP_eq_length_filter, ← List.length_map (·.1), same.length_eq]

end World

/-- The rails of an owner are a single simple path along a list of nodes. -/
structure World.Chain (w : World) (owner : OwnerId) (nodes : List EntityId) : Prop where
  nodup : nodes.Nodup
  mem_iff : ∀ id, id ∈ nodes ↔ ∃ r, w.get? id = some r ∧ r.kind = .railNode ∧ r.owner = owner
  /-- One edge leads from each node to the next one, and it is the owner's. -/
  joined : ∀ a b, [a, b] <:+: nodes → ∃ edge,
    w.get? edge = some ⟨.railEdge, owner, .edge a b⟩ ∧
    ∀ x r, w.get? x = some r → r.shape = .edge a b → x = edge
  /-- The owner has no other edges, and there are no others at the nodes. -/
  along : ∀ edge r, w.get? edge = some r → r.kind = .railEdge →
    (r.owner = owner ∨ ∃ id ∈ nodes, r.touches id = true) →
    r.owner = owner ∧ ∃ a b, r.shape = .edge a b ∧ [a, b] <:+: nodes

/-- What a world looks like in which the network of a plan has been grown. -/
structure NetworkPlan.Layout (plan : NetworkPlan) (w : World) : Prop where
  nodes : (w.entities.countP fun e => e.2.kind == .railNode) = plan.nodes
  edges : (w.entities.countP fun e => e.2.kind == .railEdge) =
    plan.nodes - min plan.nodes plan.ownerCount
  exhaustive : ∀ id r, w.get? id = some r → r.kind = .railNode ∨ r.kind = .railEdge
  placed : w.placedNodes.length = plan.nodes
  /-- The nodes are dealt to the owners in turn. -/
  dealt : ∀ i id, w.placedNodes[i]? = some id → ∃ r, w.get? id = some r ∧
    r.kind = .railNode ∧ r.owner.number.toNat = i % plan.ownerCount
  /-- One edge leads to each node from the one that was placed a round before. -/
  linked : ∀ i, plan.ownerCount ≤ i → i < plan.nodes → ∃ origin target edge r,
    w.placedNodes[i - plan.ownerCount]? = some origin ∧ w.placedNodes[i]? = some target ∧
    w.get? edge = some r ∧ r.kind = .railEdge ∧ r.owner.number.toNat = i % plan.ownerCount ∧
    r.shape = .edge origin target ∧
    ∀ x s, w.get? x = some s → s.shape = .edge origin target → x = edge
  chain : ∀ owner, w.Chain owner (w.chainOf owner)

/-! ### What has been laid are chains -/

namespace Network

variable {n net : Network} {range : ScaleRange} {plan : NetworkPlan} {ids : IdStream}

namespace Laid

variable {w : World}

/-- What is shaped like an edge has a number among the edges. -/
theorem exists_number (laid : Laid owners w nodes edges) (known : w.get? id = some r)
    (shape : r.shape = .edge origin target) : ∃ i, edges[i]? = some id ∧
      nodes[i]? = some origin ∧ nodes[i + owners]? = some target ∧
      r = ⟨.railEdge, turn owners i, .edge origin target⟩ := by
  obtain ⟨i, p, -, rfl⟩ | ⟨i, a, b, hi, first, second, rfl⟩ := laid.cases_of_known known
  · cases shape
  · cases shape
    exact ⟨i, hi, first, second, rfl⟩

/-- No two edges lead from one node to the same other one. -/
theorem edge_unique (laid : Laid owners w nodes edges) {x y : EntityId} {s : EntityRecord}
    (hx : w.get? x = some r) (hy : w.get? y = some s) (shape : r.shape = .edge origin target)
    (shape' : s.shape = .edge origin target) : x = y := by
  obtain ⟨i, hi, first, -⟩ := laid.exists_number hx shape
  obtain ⟨j, hj, first', -⟩ := laid.exists_number hy shape'
  have inside := (List.getElem?_eq_some_iff.mp first).1
  have same := (List.getElem?_inj inside laid.nodup_nodes).mp (first.trans first'.symm)
  rw [same, hj] at hi
  exact (Option.some.inj hi).symm

theorem mem_chainOf_iff (laid : Laid owners w nodes edges) :
    id ∈ w.chainOf owner ↔ ∃ i, nodes[i]? = some id ∧ turn owners i = owner := by
  rw [World.chainOf, laid.logged, List.mem_filter, List.mem_iff_getElem?]
  constructor
  · rintro ⟨⟨i, hi⟩, mine⟩
    obtain ⟨p, known⟩ := laid.node i id hi
    exact ⟨i, hi, by simpa [known] using mine⟩
  · rintro ⟨i, hi, rfl⟩
    obtain ⟨p, known⟩ := laid.node i id hi
    exact ⟨⟨i, hi⟩, by simp [known]⟩

/-- The nodes of an owner are those whose numbers leave the same remainder. -/
theorem getElem?_chainOf (laid : Laid owners w nodes edges) (few : owners ≤ UInt64.size)
    (playing : owner.number.toNat < owners) (m : Nat) :
    (w.chainOf owner)[m]? = nodes[owner.number.toNat + owners * m]? := by
  rw [World.chainOf, laid.logged]
  refine getElem?_filter_of_every playing (fun i id hid => ?_) m
  obtain ⟨p, known⟩ := laid.node i id hid
  have someone : 0 < owners := by omega
  have mine : (w.get? id).any (fun r => r.owner == owner) = true ↔ turn owners i = owner := by
    simp [known]
  rw [mine, turn_eq_iff someone few, Nat.mod_eq_iff]
  simp [someone.ne', playing, Nat.add_comm]

/-- The neighbours in a chain are a round apart. -/
theorem pair_infix_chainOf_iff (laid : Laid owners w nodes edges) (someone : 0 < owners)
    (few : owners ≤ UInt64.size) : [origin, target] <:+: w.chainOf owner ↔
      ∃ i, turn owners i = owner ∧ nodes[i]? = some origin ∧ nodes[i + owners]? = some target := by
  constructor
  · intro next
    obtain ⟨i, -, mine⟩ := laid.mem_chainOf_iff.mp (next.subset List.mem_cons_self)
    have playing : owner.number.toNat < owners := by
      rw [← (turn_eq_iff someone few).mp mine]
      exact Nat.mod_lt _ someone
    obtain ⟨m, first, second⟩ := pair_infix_iff.mp next
    rw [laid.getElem?_chainOf few playing] at first second
    refine ⟨_, ?_, first, by rwa [Nat.mul_succ, ← Nat.add_assoc] at second⟩
    rw [turn_eq_iff someone few, Nat.add_mul_mod_self_left, Nat.mod_eq_of_lt playing]
  · rintro ⟨i, mine, first, second⟩
    have remainder := (turn_eq_iff someone few).mp mine
    have playing : owner.number.toNat < owners := remainder ▸ Nat.mod_lt _ someone
    have number : owner.number.toNat + owners * (i / owners) = i := by
      rw [← remainder, Nat.mod_add_div]
    refine pair_infix_iff.mpr ⟨i / owners, ?_, ?_⟩
    · rwa [laid.getElem?_chainOf few playing, number]
    · rwa [laid.getElem?_chainOf few playing, Nat.mul_succ, ← Nat.add_assoc, number]

end Laid

namespace Ready

theorem chain (ready : Ready owners n nodes edges) (someone : 0 < owners)
    (few : owners ≤ UInt64.size) (owner : OwnerId) :
    n.world.Chain owner (n.world.chainOf owner) where
  nodup := by
    rw [World.chainOf, ready.laid.logged]
    exact ready.laid.nodup_nodes.filter _
  mem_iff id := by
    rw [World.chainOf, ready.laid.logged, List.mem_filter, ready.laid.mem_nodes_iff]
    constructor
    · rintro ⟨⟨r, known, kind⟩, mine⟩
      exact ⟨r, known, kind, by simpa [known] using mine⟩
    · rintro ⟨r, known, kind, rfl⟩
      exact ⟨⟨r, known, kind⟩, by simp [known]⟩
  joined a b next := by
    obtain ⟨i, rfl, first, second⟩ := (ready.laid.pair_infix_chainOf_iff someone few).mp next
    obtain ⟨edge, known⟩ := ready.exists_edge first second
    exact ⟨edge, known, fun x r hx shape => ready.laid.edge_unique hx known shape rfl⟩
  along edge r known kind mine := by
    obtain ⟨i, p, -, rfl⟩ | ⟨i, a, b, -, first, second, rfl⟩ := ready.laid.cases_of_known known
    · cases kind
    have same : turn owners i = owner := by
      obtain same | ⟨id, mem, touches⟩ := mine
      · exact same
      obtain ⟨j, hj, rfl⟩ := ready.laid.mem_chainOf_iff.mp mem
      have inside := (List.getElem?_eq_some_iff.mp hj).1
      -- the owner of an edge owns its ends
      simp only [EntityRecord.touches, Bool.or_eq_true, beq_iff_eq] at touches
      obtain rfl | rfl := touches
      · rw [(List.getElem?_inj inside ready.laid.nodup_nodes).mp (hj.trans first.symm)]
      · rw [(List.getElem?_inj inside ready.laid.nodup_nodes).mp (hj.trans second.symm), turn_add]
    exact ⟨same, a, b, rfl,
      (ready.laid.pair_infix_chainOf_iff someone few).mpr ⟨i, same, first, second⟩⟩

end Ready

/-- A network that has been grown has the nodes of its plan, dealt to the owners in turn, and one
edge to every node from the one that was placed a round before; so each owner has one chain. -/
theorem populate_chains (grown : populate range plan ids = .ok net) : plan.Layout net.world := by
  obtain ⟨nodes, edges, ready, length⟩ := ready_of_populate grown
  have laid := ready.laid
  constructor
  case nodes =>
    exact (World.countP_kind laid.nodup_nodes fun _ => laid.mem_nodes_iff).trans length
  case edges =>
    rw [World.countP_kind laid.nodup_edges fun _ => laid.mem_edges_iff, ready.length_edges, length]
    omega
  case exhaustive =>
    intro id r known
    obtain ⟨i, p, -, rfl⟩ | ⟨i, a, b, -, -, -, rfl⟩ := laid.cases_of_known known
    · exact .inl rfl
    · exact .inr rfl
  case placed => rw [laid.logged, length]
  case dealt =>
    intro i id hid
    rw [laid.logged] at hid
    obtain ⟨p, known⟩ := laid.node i id hid
    exact ⟨_, known, rfl, toNat_turn ownerCount_pos ownerCount_le⟩
  case linked =>
    intro i late inside
    rw [laid.logged]
    obtain ⟨origin, first⟩ : ∃ id, nodes[i - plan.ownerCount]? = some id :=
      ⟨_, List.getElem?_eq_getElem (by omega)⟩
    obtain ⟨target, second⟩ : ∃ id, nodes[i]? = some id :=
      ⟨_, List.getElem?_eq_getElem (by omega)⟩
    have round : i - plan.ownerCount + plan.ownerCount = i := Nat.sub_add_cancel late
    obtain ⟨edge, known⟩ := ready.exists_edge first (round.symm ▸ second)
    refine ⟨origin, target, edge, _, first, second, known, rfl, ?_, rfl, fun x s hx shape => ?_⟩
    · rw [← turn_add, round, toNat_turn ownerCount_pos ownerCount_le]
    · exact laid.edge_unique hx known shape rfl
  case chain => exact ready.chain ownerCount_pos ownerCount_le

/-- Five nodes of two owners: three for one of them and two for the other, and three edges. -/
theorem populate_chains_of_five :
    let plan : NetworkPlan := { nodes := 5, owners := 2, seed := 7 }
    ∃ net, populate ⟨4, 3⟩ plan (.start 0) = .ok net ∧ plan.Layout net.world ∧
      (net.world.entities.countP fun e => e.2.kind == .railEdge) = 3 := by
  intro plan
  cases grown : populate ⟨4, 3⟩ plan (.start 0) with
  | error cause =>
    have accepted : (populate ⟨4, 3⟩ plan (.start 0)).isOk = true := by decide +kernel
    rw [grown] at accepted
    cases accepted
  | ok net => exact ⟨net, rfl, populate_chains grown, (populate_chains grown).edges⟩

end Network

end RailAtlas
