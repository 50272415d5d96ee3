import RailAtlas.Network
import RailAtlas.Proofs.World.Step

/-!
# How a network is laid

A network deals its nodes to the owners in turn. `Laid` says what has become of the world after
some nodes and edges: what is registered, and that the edge with a number leads from the node with
this number to the node that was placed a round later. `Latest` says what the table of last nodes
knows, which are the nodes of the latest round; so the node that is placed next is linked to the one
a round before it. `Ready` joins the two. It holds of an empty network and is kept by placing a
node, and therefore holds of every network that has been grown.
-/

namespace RailAtlas

variable {id node edge origin target : EntityId} {r : EntityRecord} {p : Point} {half : Float}
variable {nodes edges : List EntityId} {owners number count : Nat} {owner : OwnerId}

/-! ### Worlds that gain an entity -/

namespace World

variable {w u : World}

/-- The rail nodes that the log tells of, in the order in which they were placed. -/
def placedNodes (w : World) : List EntityId :=
  w.log.toList.filterMap fun
    | .spawned id r => if r.kind = .railNode then some id else none
    | _ => none

/-- What a world becomes by spawning. -/
structure Gains (w : World) (id : EntityId) (r : EntityRecord) (u : World) : Prop where
  fresh : w.get? id = none
  get? : ∀ x, u.get? x = if x = id then some r else w.get? x
  log : u.log = w.log.push (.spawned id r)

theorem gains_of_spawn {ids : IdStream} {l : Logged IndexWarning World}
    (h : (w.spawn ids r).1 = .ok (id, l)) : w.Gains id r l.value := by
  obtain ⟨fresh, -, -, rfl⟩ := eq_of_spawnWithId (spawnWithId_of_spawn h)
  exact ⟨fresh, fun x => get?_register, rfl⟩

namespace Gains

theorem get?_self (h : w.Gains id r u) : u.get? id = some r := by
  rw [h.get?, if_pos rfl]

/-- What was registered stays. -/
theorem get?_of_some (h : w.Gains id r u) {x : EntityId} {s : EntityRecord}
    (known : w.get? x = some s) : u.get? x = some s := by
  rw [h.get?, if_neg, known]
  rintro rfl
  rw [h.fresh] at known
  cases known

theorem placedNodes_of_node (h : w.Gains id r u) (kind : r.kind = .railNode) :
    u.placedNodes = w.placedNodes ++ [id] := by
  simp [placedNodes, h.log, kind]

theorem placedNodes_of_other (h : w.Gains id r u) (kind : r.kind ≠ .railNode) :
    u.placedNodes = w.placedNodes := by
  simp [placedNodes, h.log, kind]

end Gains

end World

namespace Network

variable {n m net : Network} {range : ScaleRange} {plan : NetworkPlan} {ids : IdStream}

/-! ### Turns -/

theorem ownerCount_pos : 0 < plan.ownerCount :=
  Nat.lt_of_lt_of_le Nat.zero_lt_one (Nat.le_max_right _ _)

theorem ownerCount_le : plan.ownerCount ≤ UInt64.size :=
  Nat.max_le.mpr ⟨Nat.le_of_lt plan.owners.toNat_lt, by decide⟩

/-- The owner whose turn it is when the node with a given number is placed. -/
def turn (owners number : Nat) : OwnerId :=
  ⟨UInt64.ofNat (number % owners)⟩

theorem toNat_turn (someone : 0 < owners) (few : owners ≤ UInt64.size) :
    (turn owners number).number.toNat = number % owners :=
  UInt64.toNat_ofNat_of_lt' (Nat.lt_of_lt_of_le (Nat.mod_lt _ someone) few)

theorem turn_eq_iff (someone : 0 < owners) (few : owners ≤ UInt64.size) :
    turn owners number = owner ↔ number % owners = owner.number.toNat := by
  rw [← @toNat_turn _ number someone few, UInt64.toNat_inj]
  exact ⟨fun same => same ▸ rfl, fun same => congrArg OwnerId.mk same⟩

theorem turn_add : turn owners (number + owners) = turn owners number := by
  rw [turn, turn, Nat.add_mod_right]

/-- Within a round nobody has two turns. -/
theorem turn_ne (few : owners ≤ UInt64.size) {i j : Nat} (before : i < j) (near : j < i + owners) :
    turn owners i ≠ turn owners j := by
  intro same
  have someone : 0 < owners := by omega
  have numbers : j % owners = i % owners := by
    rw [← toNat_turn someone few, ← same, toNat_turn someone few]
  have whole : owners ∣ j - i := Nat.dvd_of_mod_eq_zero (Nat.sub_mod_eq_zero_of_mod_eq numbers)
  have := Nat.le_of_dvd (by omega) whole
  omega

/-! ### Placing one node -/

/-- What placing a node for an owner comes to: the node is spawned and becomes the last one of the
owner, and if there was a last one before, an edge is spawned that leads from it to the node. -/
inductive Places (n : Network) (owner : OwnerId) (node : EntityId) (m : Network) : Prop
  | first {p : Point} (unknown : n.last[owner]? = none)
      (last : m.last = n.last.insert owner node)
      (placed : n.world.Gains node ⟨.railNode, owner, .point p⟩ m.world)
  | next {p : Point} {previous edge : EntityId} {w : World} (known : n.last[owner]? = some previous)
      (last : m.last = n.last.insert owner node)
      (placed : n.world.Gains node ⟨.railNode, owner, .point p⟩ w)
      (linked : w.Gains edge ⟨.railEdge, owner, .edge previous node⟩ m.world)

theorem eq_of_spawn (h : n.spawn r = .ok (id, m)) :
    n.world.Gains id r m.world ∧ m.last = n.last := by
  rw [spawn] at h
  split at h
  · cases h
  · next x l ids spawned =>
    simp only [Except.ok.injEq, Prod.mk.injEq] at h
    obtain ⟨rfl, rfl⟩ := h
    exact ⟨World.gains_of_spawn (by rw [spawned]), rfl⟩

theorem places_of_placeNode (h : n.placeNode owners half number = .ok m) :
    ∃ node, n.Places (turn owners number) node m := by
  simp only [placeNode, bind, Except.bind] at h
  split at h
  · cases h
  · next found placed =>
    obtain ⟨node, u⟩ := found
    obtain ⟨gains, last⟩ := eq_of_spawn placed
    simp only [pure, Except.pure] at h
    split at h
    · next unknown =>
      obtain rfl := Except.ok.inj h
      exact ⟨node, .first (last ▸ unknown) (by simp only [last]; rfl) gains⟩
    · next previous known =>
      split at h
      · cases h
      · next found linked =>
        obtain ⟨edge, v⟩ := found
        obtain ⟨joins, kept⟩ := eq_of_spawn linked
        obtain rfl := Except.ok.inj h
        exact ⟨node, .next (last ▸ known) (by rw [kept, last]; rfl) gains joins⟩

/-! ### What has been laid -/

/-- The world of a network after some nodes and edges. -/
structure Laid (owners : Nat) (w : World) (nodes edges : List EntityId) : Prop where
  node : ∀ i id, nodes[i]? = some id →
    ∃ p, w.get? id = some ⟨.railNode, turn owners i, .point p⟩
  edge : ∀ i id, edges[i]? = some id → ∃ origin target, nodes[i]? = some origin ∧
    nodes[i + owners]? = some target ∧
    w.get? id = some ⟨.railEdge, turn owners i, .edge origin target⟩
  listed : ∀ id r, w.get? id = some r → id ∈ nodes ∨ id ∈ edges
  nodup_nodes : nodes.Nodup
  nodup_edges : edges.Nodup
  logged : w.placedNodes = nodes

/-- What the table of last nodes knows: the nodes of the latest round. -/
structure Latest (owners : Nat) (last : Std.ExtTreeMap OwnerId EntityId)
    (nodes : List EntityId) : Prop where
  known : ∀ i id, nodes[i]? = some id → nodes.length ≤ i + owners →
    last[turn owners i]? = some id
  unknown : ∀ i, nodes.length ≤ i → i < owners → last[turn owners i]? = none

theorem getElem?_concat_eq_some_iff {α : Type} {xs : List α} {x y : α} {i : Nat} :
    (xs ++ [x])[i]? = some y ↔ xs[i]? = some y ∨ i = xs.length ∧ x = y := by
  obtain inside | rfl | outside := Nat.lt_trichotomy i xs.length
  · rw [List.getElem?_append_left inside]
    exact ⟨.inl, fun h => h.resolve_right fun last => Nat.ne_of_lt inside last.1⟩
  · rw [List.getElem?_concat_length, List.getElem?_eq_none (Nat.le_refl _)]
    simp
  · have beyond : (xs ++ [x]).length ≤ i := by
      rw [List.length_append, List.length_singleton]
      exact outside
    rw [List.getElem?_eq_none beyond, List.getElem?_eq_none (Nat.le_of_lt outside)]
    simp [Nat.ne_of_gt outside]

namespace Laid

variable {w u : World}

/-- Everything registered is a node or an edge and has its number. -/
theorem cases_of_known (laid : Laid owners w nodes edges) (known : w.get? id = some r) :
    (∃ i p, nodes[i]? = some id ∧ r = ⟨.railNode, turn owners i, .point p⟩) ∨
    ∃ i origin target, edges[i]? = some id ∧ nodes[i]? = some origin ∧
      nodes[i + owners]? = some target ∧ r = ⟨.railEdge, turn owners i, .edge origin target⟩ := by
  obtain mem | mem := laid.listed id r known
  · obtain ⟨i, hi⟩ := List.mem_iff_getElem?.mp mem
    obtain ⟨p, found⟩ := laid.node i id hi
    exact .inl ⟨i, p, hi, Option.some.inj (known.symm.trans found)⟩
  · obtain ⟨i, hi⟩ := List.mem_iff_getElem?.mp mem
    obtain ⟨a, b, first, second, found⟩ := laid.edge i id hi
    exact .inr ⟨i, a, b, hi, first, second, Option.some.inj (known.symm.trans found)⟩

theorem mem_nodes_iff (laid : Laid owners w nodes edges) :
    id ∈ nodes ↔ ∃ r, w.get? id = some r ∧ r.kind = .railNode := by
  rw [List.mem_iff_getElem?]
  constructor
  · rintro ⟨i, hi⟩
    obtain ⟨p, known⟩ := laid.node i id hi
    exact ⟨_, known, rfl⟩
  · rintro ⟨r, known, kind⟩
    obtain ⟨i, p, hi, -⟩ | ⟨i, a, b, -, -, -, rfl⟩ := laid.cases_of_known known
    · exact ⟨i, hi⟩
    · cases kind

theorem mem_edges_iff (laid : Laid owners w nodes edges) :
    id ∈ edges ↔ ∃ r, w.get? id = some r ∧ r.kind = .railEdge := by
  rw [List.mem_iff_getElem?]
  constructor
  · rintro ⟨i, hi⟩
    obtain ⟨a, b, -, -, known⟩ := laid.edge i id hi
    exact ⟨_, known, rfl⟩
  · rintro ⟨r, known, kind⟩
    obtain ⟨i, p, -, rfl⟩ | ⟨i, a, b, hi, -⟩ := laid.cases_of_known known
    · cases kind
    · exact ⟨i, hi⟩

theorem not_mem_of_fresh (laid : Laid owners w nodes edges) (fresh : w.get? id = none) :
    id ∉ nodes ∧ id ∉ edges := by
  constructor
  · intro mem
    obtain ⟨r, known, -⟩ := laid.mem_nodes_iff.mp mem
    cases fresh.symm.trans known
  · intro mem
    obtain ⟨r, known, -⟩ := laid.mem_edges_iff.mp mem
    cases fresh.symm.trans known

theorem node_of_gains (laid : Laid owners w nodes edges)
    (gains : w.Gains node ⟨.railNode, turn owners nodes.length, .point p⟩ u) :
    Laid owners u (nodes ++ [node]) edges where
  node i id hid := by
    obtain hid | ⟨rfl, rfl⟩ := getElem?_concat_eq_some_iff.mp hid
    · obtain ⟨q, known⟩ := laid.node i id hid
      exact ⟨q, gains.get?_of_some known⟩
    · exact ⟨p, gains.get?_self⟩
  edge i id hid := by
    obtain ⟨origin, target, first, second, known⟩ := laid.edge i id hid
    exact ⟨origin, target, getElem?_concat_eq_some_iff.mpr (.inl first),
      getElem?_concat_eq_some_iff.mpr (.inl second), gains.get?_of_some known⟩
  listed id r known := by
    rw [gains.get?] at known
    split at known
    · next same => simp [same]
    · exact (laid.listed id r known).imp_left (List.mem_append_left _)
  nodup_nodes := by
    rw [← List.concat_eq_append]
    exact .concat (laid.not_mem_of_fresh gains.fresh).1 laid.nodup_nodes
  nodup_edges := laid.nodup_edges
  logged := by rw [gains.placedNodes_of_node rfl, laid.logged]

theorem edge_of_gains (laid : Laid owners w nodes edges)
    (first : nodes[edges.length]? = some origin)
    (second : nodes[edges.length + owners]? = some target)
    (gains : w.Gains edge ⟨.railEdge, turn owners edges.length, .edge origin target⟩ u) :
    Laid owners u nodes (edges ++ [edge]) where
  node i id hid := by
    obtain ⟨q, known⟩ := laid.node i id hid
    exact ⟨q, gains.get?_of_some known⟩
  edge i id hid := by
    obtain hid | ⟨rfl, rfl⟩ := getElem?_concat_eq_some_iff.mp hid
    · obtain ⟨a, b, ha, hb, known⟩ := laid.edge i id hid
      exact ⟨a, b, ha, hb, gains.get?_of_some known⟩
    · exact ⟨origin, target, first, second, gains.get?_self⟩
  listed id r known := by
    rw [gains.get?] at known
    split at known
    · next same => simp [same]
    · exact (laid.listed id r known).imp_right (List.mem_append_left _)
  nodup_nodes := laid.nodup_nodes
  nodup_edges := by
    rw [← List.concat_eq_append]
    exact .concat (laid.not_mem_of_fresh gains.fresh).2 laid.nodup_edges
  logged := by rw [gains.placedNodes_of_other (by simp), laid.logged]

end Laid

namespace Latest

variable {last : Std.ExtTreeMap OwnerId EntityId}

theorem lookup_of_lt (latest : Latest owners last nodes) (early : nodes.length < owners) :
    last[turn owners nodes.length]? = none :=
  latest.unknown _ (Nat.le_refl _) early

/-- After the first round the table has the node that was placed a round before. -/
theorem lookup_of_le (latest : Latest owners last nodes) (someone : 0 < owners)
    (late : owners ≤ nodes.length) :
    last[turn owners nodes.length]? = nodes[nodes.length - owners]? := by
  obtain ⟨before, hbefore⟩ : ∃ id, nodes[nodes.length - owners]? = some id :=
    ⟨_, List.getElem?_eq_getElem (by omega)⟩
  have known := latest.known _ _ hbefore (by omega)
  rwa [← turn_add, Nat.sub_add_cancel late, ← hbefore] at known

/-- The node that is placed takes the place of the one a round before. -/
theorem concat (latest : Latest owners last nodes) (few : owners ≤ UInt64.size) (node : EntityId) :
    Latest owners (last.insert (turn owners nodes.length) node) (nodes ++ [node]) where
  known i id hid near := by
    rw [List.length_append, List.length_singleton] at near
    rw [Std.ExtTreeMap.getElem?_insert]
    obtain hid | ⟨rfl, rfl⟩ := getElem?_concat_eq_some_iff.mp hid
    · have inside := (List.getElem?_eq_some_iff.mp hid).1
      have apart := turn_ne few inside (by omega)
      rw [if_neg fun same => apart (Std.compare_eq_iff_eq.mp same).symm]
      exact latest.known i id hid (by omega)
    · rw [if_pos (Std.compare_eq_iff_eq.mpr rfl)]
  unknown i later early := by
    rw [List.length_append, List.length_singleton] at later
    have apart := turn_ne few later (by omega)
    rw [Std.ExtTreeMap.getElem?_insert, if_neg fun same => apart (Std.compare_eq_iff_eq.mp same)]
    exact latest.unknown i (by omega) early

end Latest

/-- Nodes and edges that have been laid in a network, with the table ready for the next turn. Every
node but the first one of each owner has its edge. -/
structure Ready (owners : Nat) (n : Network) (nodes edges : List EntityId) : Prop where
  laid : Laid owners n.world nodes edges
  latest : Latest owners n.last nodes
  length_edges : edges.length = nodes.length - owners

namespace Ready

/-- Placing a node keeps a network ready: whether the table knows a node of the owner tells whether
the first round is over. -/
theorem places (ready : Ready owners n nodes edges) (someone : 0 < owners)
    (few : owners ≤ UInt64.size) (h : n.Places (turn owners nodes.length) node m) :
    ∃ edges', Ready owners m (nodes ++ [node]) edges' := by
  have latest := ready.latest.concat few node
  cases h with
  | first unknown last placed =>
    have early : nodes.length < owners := by
      by_contra late
      rw [ready.latest.lookup_of_le someone (Nat.not_lt.mp late)] at unknown
      have beyond := List.getElem?_eq_none_iff.mp unknown
      omega
    refine ⟨edges, ready.laid.node_of_gains placed, last ▸ latest, ?_⟩
    rw [ready.length_edges, List.length_append, List.length_singleton]
    omega
  | @next p previous edge w known last placed linked =>
    have late : owners ≤ nodes.length := by
      by_contra early
      rw [ready.latest.lookup_of_lt (Nat.not_le.mp early)] at known
      cases known
    rw [ready.latest.lookup_of_le someone late, ← ready.length_edges] at known
    have number : edges.length + owners = nodes.length := by
      rw [ready.length_edges, Nat.sub_add_cancel late]
    rw [← number, turn_add] at linked
    have first : (nodes ++ [node])[edges.length]? = some previous :=
      getElem?_concat_eq_some_iff.mpr (.inl known)
    have second : (nodes ++ [node])[edges.length + owners]? = some node :=
      getElem?_concat_eq_some_iff.mpr (.inr ⟨number, rfl⟩)
    refine ⟨edges ++ [edge], (ready.laid.node_of_gains placed).edge_of_gains first second linked,
      last ▸ latest, ?_⟩
    simp only [List.length_append, List.length_singleton]
    omega

/-- However many nodes are placed, a network stays ready. -/
theorem placeNodes (ready : Ready owners n nodes edges) (someone : 0 < owners)
    (few : owners ≤ UInt64.size) (h : Network.placeNodes owners half count nodes.length n = .ok m) :
    ∃ nodes' edges', Ready owners m nodes' edges' ∧ nodes'.length = nodes.length + count := by
  induction count generalizing n nodes edges with
  | zero =>
    rw [← Except.ok.inj h]
    exact ⟨nodes, edges, ready, rfl⟩
  | succ count ih =>
    simp only [Network.placeNodes, bind, Except.bind] at h
    split at h
    · cases h
    · next u placed =>
      obtain ⟨node, places⟩ := places_of_placeNode placed
      obtain ⟨edges', onward⟩ := ready.places someone few places
      obtain ⟨all, joins, last, length⟩ := ih onward (by simpa using h)
      refine ⟨all, joins, last, ?_⟩
      rw [length, List.length_append, List.length_singleton]
      omega

/-- There is an edge between nodes that are a round apart. -/
theorem exists_edge (ready : Ready owners n nodes edges) {i : Nat} (first : nodes[i]? = some origin)
    (second : nodes[i + owners]? = some target) : ∃ edge,
      n.world.get? edge = some ⟨.railEdge, turn owners i, .edge origin target⟩ := by
  have inside := (List.getElem?_eq_some_iff.mp second).1
  obtain ⟨edge, number⟩ : ∃ edge, edges[i]? = some edge :=
    ⟨_, List.getElem?_eq_getElem (by rw [ready.length_edges]; omega)⟩
  obtain ⟨a, b, ha, hb, known⟩ := ready.laid.edge i edge number
  obtain rfl := Option.some.inj (first.symm.trans ha)
  obtain rfl := Option.some.inj (second.symm.trans hb)
  exact ⟨edge, known⟩

end Ready

/-- The table of a new network is as empty as its world. -/
theorem ready_create {seed : UInt64} {w : World} (created : World.create range seed = .ok w) :
    Ready owners { world := w, ids, state := seed, last := ∅ } [] [] where
  laid := by
    obtain ⟨index, -, rfl⟩ := World.create_eq created
    refine ⟨by simp, by simp, fun id r known => ?_, List.nodup_nil, List.nodup_nil, rfl⟩
    simp [World.get?] at known
  latest := ⟨by simp, by simp⟩
  length_edges := by simp

theorem ready_of_populate (grown : populate range plan ids = .ok net) :
    ∃ nodes edges, Ready plan.ownerCount net nodes edges ∧ nodes.length = plan.nodes := by
  rw [populate] at grown
  split at grown
  · cases grown
  · next w created =>
    split at grown
    · cases grown
    · cases placed : Network.placeNodes plan.ownerCount (Tree.worldSquare range).half plan.nodes 0
        { world := w, ids, state := plan.seed, last := ∅ } with
      | error cause =>
        rw [placed] at grown
        cases grown
      | ok m =>
        rw [placed] at grown
        obtain rfl := Except.ok.inj grown
        obtain ⟨nodes, edges, ready, length⟩ :=
          (ready_create created).placeNodes ownerCount_pos ownerCount_le placed
        exact ⟨nodes, edges, ready, by simpa using length⟩

end Network

end RailAtlas
