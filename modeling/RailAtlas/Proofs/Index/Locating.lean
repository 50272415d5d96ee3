import RailAtlas.Proofs.Index.Preorder

/-!
# Locating a point

From cluster to cluster the first quadrant that has one and holds the point is entered, and no
other is tried after it. What is found at the end therefore lies under squares that all hold the
point. That a cluster under such squares is found takes more: on its way no other quadrant may hold
the point, too, as it may where borders are rounded.
-/

namespace RailAtlas

/-- No two quadrants of the square hold the point. -/
def Square.Parts (s : Square) (p : Point) : Prop :=
  ∀ q r, (s.quadrant q).contains p = true → (s.quadrant r).contains p = true → q = r

namespace Branch

variable {b : Branch} {c d : Cluster} {q : Quadrant} {path : List Quadrant} {p : Point}
variable {scale : Int} {levels : Nat} {square above : Square}

/-- The clusters on the way to a place, the one there included, hold a point. -/
def Covers (b : Branch) (path : List Quadrant) (p : Point) : Prop :=
  ∀ front c, front <+: path → b.at? front = some c → c.square.contains p = true

theorem covers_nil (hc : b.top? = some c) : b.Covers [] p ↔ c.square.contains p = true := by
  constructor
  · intro h
    exact h [] c List.nil_prefix hc
  · intro inside front d hfront hd
    obtain rfl := List.prefix_nil.mp hfront
    rwa [Option.some.inj (hd.symm.trans hc)]

theorem covers_cons (hc : b.top? = some c) : b.Covers (q :: path) p ↔
    c.square.contains p = true ∧ (b.child q).Covers path p := by
  constructor
  · intro h
    refine ⟨h [] c List.nil_prefix hc, fun front d hfront hd => ?_⟩
    exact h (q :: front) d (List.cons_prefix_cons.mpr ⟨rfl, hfront⟩) hd
  · rintro ⟨inside, below⟩ (_ | ⟨r, front⟩) d hfront hd
    · rwa [Option.some.inj (hd.symm.trans hc)]
    · obtain ⟨rfl, hback⟩ := List.cons_prefix_cons.mp hfront
      exact below front d hback hd

theorem takes_eq_true_iff :
    b.takes above q p = true ↔ b.top?.isSome ∧ (above.quadrant q).contains p = true := by
  cases b <;> simp [takes]

/-- Locating goes on in the first quadrant that takes the point. -/
theorem locate?_eq (hc : b.top? = some c) : b.locate? p scale =
    if c.square.scale < scale ∨ !c.square.contains p then none
    else if c.square.scale = scale then some c
    else (Quadrant.all.find? fun q => (b.child q).takes c.square q p).bind fun q =>
      (b.child q).locate? p scale := by
  cases b with
  | absent => cases hc
  | node top nw ne sw se =>
    obtain rfl : top = c := Option.some.inj hc
    simp only [locate?, Quadrant.all, List.find?_cons, List.find?_nil, child]
    cases nw.takes top.square .northWest p <;> cases ne.takes top.square .northEast p <;>
      cases sw.takes top.square .southWest p <;> cases se.takes top.square .southEast p <;> rfl

/-- What is located is of the scale, and every cluster on the way to it holds the point. -/
theorem exists_place_of_locate? (h : b.locate? p scale = some c) :
    ∃ path, b.at? path = some c ∧ c.square.scale = scale ∧ b.Covers path p := by
  induction b using quadrant_induction with
  | absent => cases h
  | node top nw ne sw se ih =>
    rw [locate?_eq (c := top) rfl] at h
    split at h
    · cases h
    next inside =>
    have holds : top.square.contains p = true := by
      cases hp : top.square.contains p with
      | true => rfl
      | false => exact absurd (.inr (by rw [hp]; rfl)) inside
    split at h
    · next here =>
      obtain rfl := Option.some.inj h
      exact ⟨[], rfl, here, (covers_nil rfl).mpr holds⟩
    · obtain ⟨q, -, found⟩ := Option.bind_eq_some_iff.mp h
      obtain ⟨path, hc, hscale, covers⟩ := ih q found
      exact ⟨q :: path, hc, hscale, (covers_cons rfl).mpr ⟨holds, covers⟩⟩

/-- A cluster is located if every cluster on the way to it holds the point, each in one quadrant
only. -/
theorem Sound.locate?_eq_some (h : Sound levels square b) (hc : b.at? path = some c)
    (covers : b.Covers path p) (parts : ∀ front d, front <+: path → front ≠ path →
      b.at? front = some d → d.square.Parts p) : b.locate? p c.square.scale = some c := by
  induction path generalizing b levels square with
  | nil =>
    have top : b.top? = some c := hc
    have inside := (covers_nil top).mp covers
    rw [locate?_eq top, if_neg (by simp [inside]), if_pos rfl]
  | cons q path ih =>
    obtain ⟨d, hd⟩ :=
      Option.isSome_iff_exists.mp (isSome_top?_of_at? (Option.isSome_of_eq_some hc))
    obtain ⟨inside, below⟩ := (covers_cons hd).mp covers
    have coarser : c.square.scale < d.square.scale :=
      h.scale_lt hd (mem_clusters_iff.mpr ⟨path, hc⟩)
    obtain ⟨e, he⟩ := Option.isSome_iff_exists.mp
      (@isSome_top?_of_at? (b.child q) path (Option.isSome_of_eq_some hc))
    have entered : (d.square.quadrant q).contains p = true := by
      have place : e.square = square.quadrant q := (h.under [q]).top_square he
      rw [h.top_square hd, ← place]
      exact below [] e List.nil_prefix he
    -- the quadrant on the way takes the point, and no other one holds it
    have takes : ∀ r, (b.child r).takes d.square r p = true ↔ r = q := by
      intro r
      rw [takes_eq_true_iff]
      constructor
      · rintro ⟨-, holds⟩
        exact parts [] d List.nil_prefix (List.cons_ne_nil q path).symm hd r q holds entered
      · rintro rfl
        exact ⟨Option.isSome_of_eq_some he, entered⟩
    rw [locate?_eq hd, if_neg (by simp [inside, coarser.not_gt]), if_neg coarser.ne',
      Quadrant.find?_all takes, Option.bind_some]
    refine ih (h.under [q]) hc below fun front k hfront apart hk => ?_
    refine parts (q :: front) k (List.cons_prefix_cons.mpr ⟨rfl, hfront⟩) ?_ hk
    exact fun same => apart (List.cons.inj same).2

end Branch

end RailAtlas
