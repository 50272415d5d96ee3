import RailAtlas.Proofs.Registry.Operations

/-!
# Branches in a registry

A branch is `Kept` in a registry if each of its clusters is registered with the links that its place
calls for. `Evolves` says what an operation on a branch does to the registry: afterwards another
branch is kept in its place, the labels that are no longer used are forgotten, and everything else
is as before. Such changes follow one another, and a change of a quadrant is a change of the whole.
-/

namespace RailAtlas

namespace ClusterEntry

variable {e : ClusterEntry} {q p : Quadrant} {label : Option ClusterId}

@[simp] theorem cluster_setSlot : (e.setSlot q label).cluster = e.cluster := by
  cases q <;> rfl

@[simp] theorem parent_setSlot : (e.setSlot q label).parent = e.parent := by
  cases q <;> rfl

theorem slot_setSlot : (e.setSlot q label).slot p = if p = q then label else e.slot p := by
  cases q <;> cases p <;> rfl

/-- Entries are equal if their clusters, parents and children are. -/
theorem ext_slot {e d : ClusterEntry} (cluster : e.cluster = d.cluster)
    (parent : e.parent = d.parent) (slots : ∀ q, e.slot q = d.slot q) : e = d := by
  obtain ⟨c, above, nw, ne, sw, se⟩ := e
  obtain ⟨c', above', nw', ne', sw', se'⟩ := d
  obtain rfl : c = c' := cluster
  obtain rfl : above = above' := parent
  obtain rfl : nw = nw' := slots .northWest
  obtain rfl : ne = ne' := slots .northEast
  obtain rfl : sw = sw' := slots .southWest
  obtain rfl : se = se' := slots .southEast
  rfl

end ClusterEntry

namespace Branch

variable {entries next last : ClusterId → Option ClusterEntry} {parent : Option ClusterId}
variable {b d new : Branch} {c : Cluster} {q : Quadrant} {id : ClusterId}

/-- Each cluster of a branch below some parent is registered with its links. -/
def Kept (entries : ClusterId → Option ClusterEntry) (parent : Option ClusterId) (b : Branch) :
    Prop :=
  ∀ path c, b.at? path = some c → entries c.id = some (entryAt parent b path c)

theorem kept_absent : absent.Kept entries parent := by
  intro path c hc
  simp at hc

theorem slot_top : (entryAt parent b [] c).slot q = (b.child q).label? := by
  rw [entryAt_slot]
  rfl

/-- A branch is kept if its top is registered with its links and its quadrants are kept. -/
theorem kept_iff (hc : b.top? = some c) : b.Kept entries parent ↔
    entries c.id = some (entryAt parent b [] c) ∧ ∀ q, (b.child q).Kept entries (some c.id) := by
  have hlabel := label?_of_top? hc
  constructor
  · intro h
    refine ⟨h [] c hc, ?_⟩
    intro q path d hd
    rw [← hlabel, ← entryAt_cons]
    exact h (q :: path) d hd
  · rintro ⟨top, below⟩ (_ | ⟨q, path⟩) d hd
    · obtain rfl := Option.some.inj (hc.symm.trans hd)
      exact top
    · rw [entryAt_cons, hlabel]
      exact below q path d hd

theorem Kept.top (h : b.Kept entries parent) (hc : b.top? = some c) :
    entries c.id = some (entryAt parent b [] c) :=
  h [] c hc

theorem Kept.child (h : b.Kept entries parent) (hc : b.top? = some c) (q : Quadrant) :
    (b.child q).Kept entries (some c.id) :=
  ((kept_iff hc).mp h).2 q

theorem children_entryAt : (entryAt parent b [] c).children =
    Quadrant.all.filterMap fun q => (b.child q).label? := by
  rw [ClusterEntry.children]
  exact congrArg (List.filterMap · Quadrant.all) (funext fun q => slot_top)

/-- A branch stays kept while nothing happens to its labels. -/
theorem Kept.congr (h : b.Kept entries parent) (same : ∀ id ∈ b.labels, next id = entries id) :
    b.Kept next parent := by
  intro path c hc
  rw [same c.id (mem_labels_of_at? hc)]
  exact h path c hc

/-- A statement about the clusters of a kept branch and the fuel for a search from them holds if it
holds of every cluster of whose children it holds with less fuel. -/
theorem Kept.fuel_induction {entries : ClusterId → Option ClusterEntry}
    {motive : (fuel levels : Nat) → Cluster → Branch → Prop}
    (step : ∀ {fuel levels parent c b}, b.top? = some c →
      entries c.id = some (entryAt parent b [] c) → b.Sound levels c.square →
      (∀ q d, (b.child q).top? = some d → ∃ below, levels = below + 1 ∧
        d.square = c.square.quadrant q ∧ motive fuel below d (b.child q)) →
      motive (fuel + 1) levels c b)
    {fuel levels : Nat} (h : b.Kept entries parent) (hc : b.top? = some c)
    (sound : b.Sound levels c.square) (enough : levels < fuel) : motive fuel levels c b := by
  induction fuel generalizing b parent c levels with
  | zero => omega
  | succ fuel ih =>
    refine step hc (h.top hc) sound fun q d hd => ?_
    obtain ⟨below, rfl, fits⟩ := sound.exists_levels hd
    have place := fits.top_square hd
    exact ⟨below, rfl, place, ih (h.child hc q) hd (place ▸ fits) (Nat.lt_of_succ_lt_succ enough)⟩

/-- One branch has taken the place of another in a registry. -/
structure Evolves (parent : Option ClusterId) (entries : ClusterId → Option ClusterEntry)
    (b : Branch) (next : ClusterId → Option ClusterEntry) (new : Branch) : Prop where
  kept : new.Kept next parent
  frame : ∀ id, id ∉ new.labels → next id = if id ∈ b.labels then none else entries id

theorem Kept.evolves_refl (h : b.Kept entries parent) : Evolves parent entries b entries b :=
  ⟨h, fun _ hid => (if_neg hid).symm⟩

/-- Changes follow one another if labels in between are old or were free. -/
theorem Evolves.trans (h : Evolves parent entries b next d) (h' : Evolves parent next d last new)
    (between : ∀ id ∈ d.labels, id ∈ b.labels ∨ entries id = none) :
    Evolves parent entries b last new := by
  refine ⟨h'.kept, ?_⟩
  intro id hid
  rw [h'.frame id hid]
  by_cases hd : id ∈ d.labels
  · rw [if_pos hd]
    obtain hb | free := between id hd
    · rw [if_pos hb]
    · rw [free, ite_self]
  · rw [if_neg hd, h.frame id hd]

/-! ### Changes of a quadrant -/

theorem entryAt_setChild_nil (htop : b.top?.isSome) :
    entryAt parent (b.setChild q new) [] c = (entryAt parent b [] c).setSlot q new.label? := by
  refine ClusterEntry.ext_slot ?_ ?_ fun p => ?_
  · rw [ClusterEntry.cluster_setSlot]
    rfl
  · rw [ClusterEntry.parent_setSlot]
    rfl
  · rw [ClusterEntry.slot_setSlot, slot_top, slot_top, child_setChild htop]
    split <;> rfl

theorem mem_labels_setChild (hc : b.top? = some c) : id ∈ (b.setChild q new).labels ↔
    id = c.id ∨ id ∈ new.labels ∨ ∃ p, p ≠ q ∧ id ∈ (b.child p).labels := by
  rw [mem_labels_iff_child (top?_setChild.trans hc)]
  simp only [child_setChild (Option.isSome_of_eq_some hc)]
  constructor
  · rintro (rfl | ⟨p, hp⟩)
    · exact .inl rfl
    · split at hp
      · exact .inr (.inl hp)
      · next other => exact .inr (.inr ⟨p, other, hp⟩)
  · rintro (rfl | hnew | ⟨p, other, hp⟩)
    · exact .inl rfl
    · exact .inr ⟨q, by rwa [if_pos rfl]⟩
    · exact .inr ⟨p, by rwa [if_neg other]⟩

/-- A change of a quadrant, together with the link to it, is a change of the whole branch. -/
theorem evolves_setChild (h : b.Kept entries parent) (hc : b.top? = some c)
    (distinct : b.labels.Nodup) (apart : (b.setChild q new).labels.Nodup)
    (linked : next c.id = some ((entryAt parent b [] c).setSlot q new.label?))
    (kept : new.Kept next (some c.id))
    (frame : ∀ id, id ≠ c.id → id ∉ new.labels →
      next id = if id ∈ (b.child q).labels then none else entries id) :
    Evolves parent entries b next (b.setChild q new) := by
  have htop : b.top?.isSome := Option.isSome_of_eq_some hc
  have hc' : (b.setChild q new).top? = some c := top?_setChild.trans hc
  obtain ⟨above, -, sides⟩ := nodup_labels_child distinct hc
  obtain ⟨-, -, sides'⟩ := nodup_labels_child apart hc'
  constructor
  · refine (kept_iff hc').mpr ⟨by rw [linked, entryAt_setChild_nil htop], ?_⟩
    intro p
    rw [child_setChild htop]
    split
    · exact kept
    · next other =>
      -- the other quadrants share no label with what was in the quadrant or is in it now
      apply (h.child hc p).congr
      intro id hid
      have not_old : id ∉ (b.child q).labels := fun hq => other (sides p q id hid hq)
      have not_new : id ∉ new.labels := by
        intro hnew
        refine other (sides' p q id ?_ ?_)
        · rwa [child_setChild htop, if_neg other]
        · rwa [child_setChild_self htop]
      rw [frame id (fun same => above p (same ▸ hid)) not_new, if_neg not_old]
  · intro id hid
    rw [mem_labels_setChild hc, not_or, not_or, not_exists] at hid
    obtain ⟨not_top, not_new, elsewhere⟩ := hid
    have only_here : id ∈ b.labels ↔ id ∈ (b.child q).labels := by
      rw [mem_labels_iff_child hc]
      constructor
      · rintro (rfl | ⟨p, hp⟩)
        · exact absurd rfl not_top
        · by_cases same : p = q
          · exact same ▸ hp
          · exact absurd ⟨same, hp⟩ (elsewhere p)
      · exact fun hq => .inr ⟨q, hq⟩
    rw [frame id not_top not_new]
    simp only [only_here]

/-- What takes the place of a quadrant under the same label is a change of the whole branch. -/
theorem Evolves.lift (h : Evolves (some c.id) entries (b.child q) next new)
    (hb : b.Kept entries parent) (hc : b.top? = some c) (distinct : b.labels.Nodup)
    (apart : (b.setChild q new).labels.Nodup) (label : new.label? = (b.child q).label?) :
    Evolves parent entries b next (b.setChild q new) := by
  have htop : b.top?.isSome := Option.isSome_of_eq_some hc
  have not_new : c.id ∉ new.labels := by
    have above := (nodup_labels_child apart (top?_setChild.trans hc)).1 q
    rwa [child_setChild_self htop] at above
  refine evolves_setChild hb hc distinct apart ?_ h.kept fun id _ hid => h.frame id hid
  have hslot : ((entryAt parent b [] c).setSlot q new.label?) = entryAt parent b [] c := by
    apply ClusterEntry.ext_slot ClusterEntry.cluster_setSlot ClusterEntry.parent_setSlot
    intro p
    rw [ClusterEntry.slot_setSlot]
    split
    · next same => rw [same, label, slot_top]
    · rfl
  rw [hslot, h.frame c.id not_new, if_neg ((nodup_labels_child distinct hc).1 q), hb.top hc]

theorem draws_setChild {l drawn : Labels} (h : (b.child q).Draws l new drawn)
    (htop : b.top?.isSome) : b.Draws l (b.setChild q new) drawn := by
  refine ⟨h.le, ?_⟩
  intro id
  have counted := @count_labels_setChild b new q id htop
  have drawn_id := h.count id
  omega

@[simp] theorem setChild_setChild {first : Branch} :
    (b.setChild q first).setChild q new = b.setChild q new := by
  cases b <;> cases q <;> rfl

@[simp] theorem setChild_child : b.setChild q (b.child q) = b := by
  cases b <;> cases q <;> rfl

theorem label?_setChild : (b.setChild q new).label? = b.label? := by
  rw [label?, top?_setChild, label?]

/-- A branch keeps its label if the one at a place does. -/
theorem label?_graft {path : List Quadrant} (label : new.label? = (b.under path).label?) :
    (b.graft path new).label? = b.label? := by
  cases path with
  | nil => exact label
  | cons q path => exact label?_setChild

theorem graft_concat (path : List Quadrant) (q : Quadrant) (new : Branch) :
    b.graft path ((b.under path).setChild q new) = b.graft (path ++ [q]) new := by
  induction path generalizing b with
  | nil => rfl
  | cons p path ih => exact congrArg (b.setChild p) ih

/-- Changing the top cluster under its label is a change of the whole branch. -/
theorem evolves_top {nw ne sw se : Branch} {d : Cluster}
    (h : (node c nw ne sw se).Kept entries parent) (distinct : (node c nw ne sw se).labels.Nodup)
    (same : d.id = c.id)
    (top : next c.id = some { entryAt parent (node c nw ne sw se) [] c with cluster := d })
    (frame : ∀ id, id ≠ c.id → next id = entries id) :
    Evolves parent entries (node c nw ne sw se) next (node d nw ne sw se) := by
  have above := (nodup_labels_child distinct rfl).1
  have below : ∀ q, (node d nw ne sw se).child q = (node c nw ne sw se).child q := by
    intro q
    cases q <;> rfl
  constructor
  · refine (kept_iff rfl).mpr ⟨by rw [same, top]; rfl, ?_⟩
    intro q
    rw [below, same]
    exact (h.child rfl q).congr fun id hid => frame id fun at_top => above q (at_top ▸ hid)
  · intro id hid
    have labels : (node d nw ne sw se).labels = (node c nw ne sw se).labels := by
      rw [labels_node, labels_node, same]
    rw [labels] at hid
    rw [if_neg hid]
    apply frame id
    rintro rfl
    exact hid (@mem_labels_of_at? (node c nw ne sw se) c [] rfl)

end Branch

namespace Registry

variable {r r' : Registry} {parent : Option ClusterId} {b new : Branch} {c : Cluster}
variable {q : Quadrant}

/-- A branch stands in a registry below some parent: it is kept, it uses no label more often than it
was given out, and nothing is registered under a label that was not. -/
structure Stands (r : Registry) (parent : Option ClusterId) (b : Branch) : Prop where
  kept : b.Kept r.entries parent
  counted : ∀ id, b.labels.count id ≤ r.labels.givenOut.count id
  fresh : ∀ id, (r.entries id).isSome → id ∈ r.labels.givenOut

namespace Stands

/-- What draws its labels from the counters uses none twice while labels can be told apart. -/
theorem nodup_of_draws (h : r.Stands parent b) {drawn : Labels} (draws : b.Draws r.labels new drawn)
    (room : drawn.clusters ≤ UInt32.size) : new.labels.Nodup := by
  rw [List.nodup_iff_count_le_one]
  intro id
  have before := h.counted id
  have drawn_id := draws.count id
  have once := List.nodup_iff_count_le_one.mp (Labels.nodup_givenOut room) id
  omega

theorem nodup (h : r.Stands parent b) (room : r.labels.clusters ≤ UInt32.size) : b.labels.Nodup :=
  h.nodup_of_draws (.refl b r.labels) room

theorem child (h : r.Stands parent b) (hc : b.top? = some c) (q : Quadrant) :
    r.Stands (some c.id) (b.child q) := by
  refine ⟨h.kept.child hc q, fun id => Nat.le_trans ?_ (h.counted id), h.fresh⟩
  have counted := @Branch.count_labels_setChild b .absent q id (Option.isSome_of_eq_some hc)
  rw [Branch.labels_absent, List.count_nil] at counted
  omega

/-- What stands in the place of a branch after a change that draws its labels from the counters. -/
theorem evolve (h : r.Stands parent b) (evolves : Branch.Evolves parent r.entries b r'.entries new)
    (draws : b.Draws r.labels new r'.labels) : r'.Stands parent new := by
  have counted : ∀ id, new.labels.count id ≤ r'.labels.givenOut.count id := by
    intro id
    have before := h.counted id
    have drawn := draws.count id
    omega
  refine ⟨evolves.kept, counted, ?_⟩
  intro id hid
  by_cases hnew : id ∈ new.labels
  · have used := List.count_pos_iff.mpr hnew
    have given := counted id
    exact List.count_pos_iff.mp (by omega)
  · rw [evolves.frame id hnew] at hid
    split at hid
    · simp at hid
    · -- what was given out before is still given out
      have before := h.fresh id hid
      simp only [Labels.givenOut, List.mem_map, List.mem_range] at before ⊢
      obtain ⟨n, hn, hlabel⟩ := before
      exact ⟨n, Nat.lt_of_lt_of_le hn draws.le, hlabel⟩

end Stands

/-- A branch has been rebuilt in a registry: another one has taken its place, which draws its labels
from the counters. -/
structure Rebuilt (parent : Option ClusterId) (r : Registry) (b : Branch) (r' : Registry)
    (new : Branch) : Prop where
  range_eq : r'.range = r.range
  draws : b.Draws r.labels new r'.labels
  evolves : Branch.Evolves parent r.entries b r'.entries new

namespace Rebuilt

variable {r'' : Registry} {d : Branch}

theorem refl (h : r.Stands parent b) : Rebuilt parent r b r b where
  range_eq := rfl
  draws := .refl b r.labels
  evolves := h.kept.evolves_refl

theorem stands (rebuilt : Rebuilt parent r b r' new) (h : r.Stands parent b) :
    r'.Stands parent new :=
  h.evolve rebuilt.evolves rebuilt.draws

theorem trans (first : Rebuilt parent r b r' d) (second : Rebuilt parent r' d r'' new)
    (h : r.Stands parent b) (room : r''.labels.clusters ≤ UInt32.size) :
    Rebuilt parent r b r'' new where
  range_eq := second.range_eq.trans first.range_eq
  draws := first.draws.trans second.draws
  evolves := by
    apply first.evolves.trans second.evolves
    intro id hd
    by_cases hb : id ∈ b.labels
    · exact .inl hb
    · -- a label in between that is not an old one has been given out in between
      refine .inr (Option.not_isSome_iff_eq_none.mp fun registered => ?_)
      have drawn := first.draws.count id
      have once := List.nodup_iff_count_le_one.mp
        (Labels.nodup_givenOut (Nat.le_trans second.draws.le room)) id
      have given := List.count_pos_iff.mpr (h.fresh id registered)
      have used := List.count_pos_iff.mpr hd
      have unused := List.count_eq_zero.mpr hb
      omega

/-- When a quadrant is rebuilt under its label, the branch is. -/
theorem lift (rebuilt : Rebuilt (some c.id) r (b.child q) r' new) (h : r.Stands parent b)
    (hc : b.top? = some c) (label : new.label? = (b.child q).label?)
    (room : r'.labels.clusters ≤ UInt32.size) : Rebuilt parent r b r' (b.setChild q new) where
  range_eq := rebuilt.range_eq
  draws := Branch.draws_setChild rebuilt.draws (Option.isSome_of_eq_some hc)
  evolves := by
    refine rebuilt.evolves.lift h.kept hc (h.nodup (Nat.le_trans rebuilt.draws.le room)) ?_ label
    exact h.nodup_of_draws (Branch.draws_setChild rebuilt.draws (Option.isSome_of_eq_some hc)) room

/-- When the branch at a place is rebuilt under its label, the whole branch is. -/
theorem exists_place {path : List Quadrant} (h : r.Stands parent b)
    (hpath : (b.at? path).isSome) : ∃ above, r.Stands above (b.under path) ∧
      (path = [] → above = parent) ∧ ∀ {r' new}, Rebuilt above r (b.under path) r' new →
        new.label? = (b.under path).label? → r'.labels.clusters ≤ UInt32.size →
        Rebuilt parent r b r' (b.graft path new) := by
  induction path generalizing b parent with
  | nil => exact ⟨parent, h, fun _ => rfl, fun rebuilt _ _ => rebuilt⟩
  | cons q path ih =>
    obtain ⟨c, hc⟩ := Option.isSome_iff_exists.mp (Branch.isSome_top?_of_at? hpath)
    obtain ⟨above, stands, -, lifted⟩ := ih (h.child hc q) hpath
    refine ⟨above, stands, fun at_top => by simp at at_top, fun rebuilt label room => ?_⟩
    exact (lifted rebuilt label room).lift h hc (Branch.label?_graft label) room

end Rebuilt

/-- A cluster with the same label takes the place of the top one. The counter of clusters stays. -/
theorem rebuilt_top {nw ne sw se : Branch} {d : Cluster} {l : Labels}
    (h : r.Stands parent (.node c nw ne sw se)) (room : r.labels.clusters ≤ UInt32.size)
    (same : d.id = c.id) (counter : l.clusters = r.labels.clusters) :
    Rebuilt parent r (.node c nw ne sw se) ({ r with labels := l }.put
      { Branch.entryAt parent (.node c nw ne sw se) [] c with cluster := d })
      (.node d nw ne sw se) := by
  have given : r.labels.givenOut = l.givenOut := by
    simp only [Labels.givenOut, counter]
  have used : (Branch.node d nw ne sw se).labels = (Branch.node c nw ne sw se).labels := by
    rw [Branch.labels_node, Branch.labels_node, same]
  refine ⟨rfl, ⟨Nat.le_of_eq counter.symm, fun id => ?_⟩, ?_⟩
  · exact Nat.le_of_eq (congrArg₂ (List.count id · + List.count id ·) used given)
  · refine Branch.evolves_top h.kept (h.nodup room) same ?_ fun id other => ?_
    · exact entries_put_self c.id same.symm
    · exact if_neg (same ▸ other)

/-- What is done to every quadrant in turn, each time without labels, is done to the branch. -/
theorem foldlM_quadrants {step : Registry → Quadrant → Except WiringFault Registry}
    (change : Branch → Branch) {b : Branch} (h : r.Stands parent b) (hc : b.top? = some c)
    (room : r.labels.clusters ≤ UInt32.size)
    (each : ∀ {s : Registry} {d : Branch} (q : Quadrant), s.Stands parent d →
      s.labels = r.labels → d.top? = some c → d.child q = b.child q → ∃ r', step s q = .ok r' ∧
        r'.labels = s.labels ∧ Rebuilt parent s d r' (d.setChild q (change (b.child q)))) :
    ∃ r', Quadrant.all.foldlM step r = .ok r' ∧ r'.labels = r.labels ∧
      Rebuilt parent r b r' (.node c (change (b.child .northWest)) (change (b.child .northEast))
        (change (b.child .southWest)) (change (b.child .southEast))) := by
  cases b with
  | absent => simp at hc
  | node top nw ne sw se =>
    obtain rfl : top = c := Option.some.inj hc
    obtain ⟨r₁, hr₁, hlabels₁, first⟩ := each .northWest h rfl rfl rfl
    have stands₁ := first.stands h
    obtain ⟨r₂, hr₂, labels₂, second⟩ := each .northEast stands₁ hlabels₁ rfl rfl
    have hlabels₂ := labels₂.trans hlabels₁
    have rebuilt₂ := first.trans second h (hlabels₂ ▸ room)
    obtain ⟨r₃, hr₃, labels₃, third⟩ := each .southWest (rebuilt₂.stands h) hlabels₂ rfl rfl
    have hlabels₃ := labels₃.trans hlabels₂
    have rebuilt₃ := rebuilt₂.trans third h (hlabels₃ ▸ room)
    obtain ⟨r₄, hr₄, labels₄, fourth⟩ := each .southEast (rebuilt₃.stands h) hlabels₃ rfl rfl
    have hlabels₄ := labels₄.trans hlabels₃
    exact ⟨r₄, foldlM_all hr₁ hr₂ hr₃ hr₄, hlabels₄, rebuilt₃.trans fourth h (hlabels₄ ▸ room)⟩

end Registry

end RailAtlas
