import Mathlib
import RailAtlas.World.Fingerprint
import RailAtlas.Proofs.World.Mirror

/-!
# What the bytes of a fingerprint tell

A fingerprint is taken of the clock, the seed and the records of a world, written one after the
other without lengths or separators. All fields but the tags have a width that is known when they
are reached: identifiers and owners always, shapes once the kind is known. So reading both byte
sequences in step fails only at a tag that goes on where the other one ends. Four pairs of kinds
have such tags.

Worlds with equal bytes therefore have the same clock and seed, and they have the same records up
to a first entity that is of one kind in one world and of the other kind of such a pair in the other
world. There the bytes of the next records may make up for the difference.
-/

namespace RailAtlas

/-! ### Words and identifiers -/

/-- Numbers whose last `k` digits to the base 256 agree are congruent. -/
theorem mod_eq_of_digits {m n k : Nat}
    (h : ∀ i < k, m / 256 ^ i % 256 = n / 256 ^ i % 256) : m % 256 ^ k = n % 256 ^ k := by
  induction k with
  | zero => rw [Nat.pow_zero, Nat.mod_one, Nat.mod_one]
  | succ k ih =>
    rw [Nat.mod_pow_succ, Nat.mod_pow_succ, h k (Nat.lt_succ_self k),
      ih fun i hi => h i (Nat.lt_succ_of_lt hi)]

/-- Numbers of at most `k` digits to the base 256 are equal if their digits are. -/
theorem eq_of_digits {m n : Nat} (k : Nat) (hm : m < 256 ^ k) (hn : n < 256 ^ k)
    (h : ∀ i < k, m / 256 ^ i % 256 = n / 256 ^ i % 256) : m = n := by
  have congruent := mod_eq_of_digits h
  rwa [Nat.mod_eq_of_lt hm, Nat.mod_eq_of_lt hn] at congruent

@[simp] theorem length_wordBytes (n : UInt64) : (wordBytes n).length = 8 := by
  rw [wordBytes, List.length_map, List.length_range]

theorem toNat_wordByte (n : UInt64) {i : Nat} (hi : i < 8) :
    (n >>> (8 * UInt64.ofNat i)).toUInt8.toNat = n.toNat / 256 ^ i % 256 := by
  have places : (8 * UInt64.ofNat i).toNat % 64 = 8 * i := by
    rw [UInt64.toNat_mul, UInt64.toNat_ofNat']
    change 8 * (i % 2 ^ 64) % 2 ^ 64 % 64 = 8 * i
    omega
  rw [UInt64.toNat_toUInt8, UInt64.toNat_shiftRight, places, Nat.shiftRight_eq_div_pow, Nat.pow_mul]

theorem wordBytes_inj {m n : UInt64} : wordBytes m = wordBytes n ↔ m = n := by
  refine ⟨fun same => ?_, congrArg _⟩
  have digits := List.map_inj_left.mp same
  refine UInt64.toNat_inj.mp (eq_of_digits 8 m.toNat_lt n.toNat_lt fun i hi => ?_)
  rw [← toNat_wordByte m hi, ← toNat_wordByte n hi, digits i (List.mem_range.mpr hi)]

@[simp] theorem EntityId.length_bytes (id : EntityId) : id.bytes.length = 16 := by
  rw [bytes, List.length_map, List.length_range]

theorem EntityId.bytes_inj {a b : EntityId} : a.bytes = b.bytes ↔ a = b := by
  refine ⟨fun same => ?_, congrArg _⟩
  have digits := List.map_inj_left.mp same
  have digit (n : Nat) (i : Nat) :
      (UInt8.ofNat (n >>> (8 * (15 - i)))).toNat = n / 256 ^ (15 - i) % 256 := by
    rw [UInt8.toNat_ofNat', Nat.shiftRight_eq_div_pow, Nat.pow_mul]
  have number : a.bits.toNat = b.bits.toNat :=
    eq_of_digits 16 a.bits.isLt b.bits.isLt fun i hi => by
      -- the most significant byte comes first
      have place := digits (15 - i) (List.mem_range.mpr (by omega))
      have turned : 15 - (15 - i) = i := by omega
      rw [← turned, ← digit, ← digit, place]
  exact congrArg EntityId.mk (BitVec.eq_of_toNat_eq number)

/-! ### Tags -/

namespace EntityKind

def tagBytes (kind : EntityKind) : List UInt8 :=
  kind.tag.toList.map fun c => UInt8.ofNat c.toNat

/-- The pairs of kinds where the tag of the second goes on after that of the first. -/
def blurred : List (EntityKind × EntityKind) :=
  [(residence, railNode), (residence, railEdge), (step, station), (railLine, lineTask)]

/-- The tag of one of two kinds goes on after that of the other. -/
def Confusable (a b : EntityKind) : Prop :=
  (a, b) ∈ blurred ∨ (b, a) ∈ blurred

instance (a b : EntityKind) : Decidable (Confusable a b) :=
  inferInstanceAs (Decidable (_ ∨ _))

theorem mem_all (kind : EntityKind) : kind ∈ all := by
  cases kind <;> decide

theorem not_confusable_self (kind : EntityKind) : ¬ kind.Confusable kind := by
  cases kind <;> decide

theorem eq_or_blurred_of_begins {a b : EntityKind} (front : a.tagBytes <+: b.tagBytes) :
    a = b ∨ (a, b) ∈ blurred := by
  have checked : ∀ a ∈ all, ∀ b ∈ all, a.tagBytes <+: b.tagBytes → a = b ∨ (a, b) ∈ blurred := by
    decide +kernel
  exact checked a (mem_all a) b (mem_all b) front

/-- Of two tags that begin the same bytes one begins the other. -/
theorem eq_or_confusable {a b : EntityKind} {s t : List UInt8}
    (same : a.tagBytes ++ s = b.tagBytes ++ t) : a = b ∨ a.Confusable b := by
  have left : a.tagBytes <+: b.tagBytes ++ t := same ▸ List.prefix_append _ _
  obtain front | front := List.prefix_or_prefix_of_prefix left (List.prefix_append _ _)
  · exact (eq_or_blurred_of_begins front).imp_right .inl
  · exact (eq_or_blurred_of_begins front).imp Eq.symm .inr

end EntityKind

/-! ### Records -/

variable {id id' : EntityId} {r r' : EntityRecord} {s t : List UInt8}

/-- The shapes of well-formed records of one kind are written with the same width. -/
theorem Shape.eq_of_append (formed : r.isWellFormed = true) (formed' : r'.isWellFormed = true)
    (kind : r.kind = r'.kind) (same : r.shape.bytes ++ s = r'.shape.bytes ++ t) :
    r.shape = r'.shape ∧ s = t := by
  have placed : r'.kind.isDirected = true → r'.kind.isSpatial = true := by
    cases r'.kind <;> simp [EntityKind.isDirected, EntityKind.isSpatial]
  rw [EntityRecord.isWellFormed, kind] at formed
  rw [EntityRecord.isWellFormed] at formed'
  cases hs : r.shape <;> cases hs' : r'.shape <;> rw [hs] at formed same <;>
    rw [hs'] at formed' same
  case point.point p q =>
    simp only [bytes, List.append_assoc] at same
    obtain ⟨x, rest⟩ := List.append_inj same (by simp)
    obtain ⟨y, later⟩ := List.append_inj rest (by simp)
    rw [wordBytes_inj, Float.toBits_inj] at x y
    cases p
    cases q
    cases x
    cases y
    exact ⟨rfl, later⟩
  case edge.edge a b c d =>
    simp only [bytes, List.append_assoc] at same
    obtain ⟨origin, rest⟩ := List.append_inj same (by simp)
    obtain ⟨target, rest⟩ := List.append_inj rest (by simp)
    rw [EntityId.bytes_inj] at origin target
    exact ⟨by rw [origin, target], rest⟩
  case placeless.placeless => exact ⟨rfl, same⟩
  all_goals simp_all

/-- Where records begin the same bytes, they have the same identifier and owner. They agree as a
whole if their kinds do, and otherwise their kinds are confusable. -/
theorem EntityRecord.eq_of_append (formed : r.isWellFormed = true)
    (formed' : r'.isWellFormed = true)
    (same : id.bytes ++ r.bytes ++ s = id'.bytes ++ r'.bytes ++ t) :
    id = id' ∧ r.owner = r'.owner ∧ (r = r' ∧ s = t ∨ r.kind.Confusable r'.kind) := by
  simp only [EntityRecord.bytes, List.append_assoc] at same
  obtain ⟨identifier, rest⟩ := List.append_inj same (by simp)
  obtain ⟨owner, rest⟩ := List.append_inj rest (by simp)
  rw [EntityId.bytes_inj] at identifier
  have number : r.owner = r'.owner := congrArg OwnerId.mk (wordBytes_inj.mp owner)
  refine ⟨identifier, number, ?_⟩
  obtain kind | confusable := EntityKind.eq_or_confusable rest
  · rw [kind] at rest
    obtain ⟨shape, later⟩ := Shape.eq_of_append formed formed' kind (List.append_cancel_left rest)
    left
    cases r
    cases r'
    cases kind
    cases number
    cases shape
    exact ⟨rfl, later⟩
  · exact .inr confusable

/-! ### Registries -/

def entryBytes (e : EntityId × EntityRecord) : List UInt8 :=
  e.1.bytes ++ e.2.bytes

/-- Two lists of records agree up to an entity whose kinds are confusable. -/
def Blurs (es es' : List (EntityId × EntityRecord)) : Prop :=
  ∃ front id r r' back back', es = front ++ (id, r) :: back ∧ es' = front ++ (id, r') :: back' ∧
    r.owner = r'.owner ∧ r.kind.Confusable r'.kind

theorem Blurs.cons {es es' : List (EntityId × EntityRecord)} (e : EntityId × EntityRecord)
    (h : Blurs es es') : Blurs (e :: es) (e :: es') := by
  obtain ⟨front, id, r, r', back, back', rfl, rfl, owner, confusable⟩ := h
  exact ⟨e :: front, id, r, r', back, back', rfl, rfl, owner, confusable⟩

/-- Lists of records that blur differ in their kinds. -/
theorem Blurs.kinds_ne {es es' : List (EntityId × EntityRecord)} (h : Blurs es es') :
    es.map (·.2.kind) ≠ es'.map (·.2.kind) := by
  obtain ⟨front, id, r, r', back, back', rfl, rfl, -, confusable⟩ := h
  intro same
  rw [List.map_append, List.map_append, List.append_cancel_left_eq, List.map_cons, List.map_cons,
    List.cons.injEq] at same
  rw [same.1] at confusable
  exact EntityKind.not_confusable_self _ confusable

theorem entryBytes_ne_nil (e : EntityId × EntityRecord) (rest : List UInt8) :
    entryBytes e ++ rest ≠ [] := by
  intro none
  have := congrArg List.length none
  simp [entryBytes] at this

/-- Reading the bytes of two lists of well-formed records in step, either the lists agree or they
blur. -/
theorem eq_or_blurs {es es' : List (EntityId × EntityRecord)}
    (formed : ∀ e ∈ es, e.2.isWellFormed = true) (formed' : ∀ e ∈ es', e.2.isWellFormed = true)
    (same : es.flatMap entryBytes = es'.flatMap entryBytes) : es = es' ∨ Blurs es es' := by
  induction es generalizing es' with
  | nil =>
    cases es' with
    | nil => exact .inl rfl
    | cons e' es' => exact absurd same.symm (entryBytes_ne_nil e' _)
  | cons e es ih =>
    cases es' with
    | nil => exact absurd same (entryBytes_ne_nil e _)
    | cons e' es' =>
      obtain ⟨id, r⟩ := e
      obtain ⟨id', r'⟩ := e'
      obtain ⟨here, later⟩ := List.forall_mem_cons.mp formed
      obtain ⟨here', later'⟩ := List.forall_mem_cons.mp formed'
      rw [List.flatMap_cons, List.flatMap_cons] at same
      obtain ⟨rfl, owner, ⟨rfl, rest⟩ | confusable⟩ :=
        EntityRecord.eq_of_append here here' same
      · obtain rfl | blurs := ih later later' rest
        · exact .inl rfl
        · exact .inr (blurs.cons _)
      · exact .inr ⟨[], id, r, r', es, es', rfl, rfl, owner, confusable⟩

namespace World

variable {range range' : ScaleRange} {u w : World}

theorem encoding_eq : w.encoding =
    wordBytes w.tick ++ (wordBytes w.seed ++ w.entities.flatMap entryBytes) :=
  rfl

theorem Reachable.formed (h : Reachable range w) : ∀ e ∈ w.entities, e.2.isWellFormed = true := by
  rintro ⟨id, r⟩ listed
  exact (h.integrity (mem_entities.mp listed)).1

/-- Worlds with equal bytes have the same clock and the same seed. They have the same records unless
these agree only up to an entity that has confusable kinds in the two worlds. So worlds with the
same kinds in order of their entities are told apart in all other respects. -/
theorem encoding_separates (hu : Started range u) (hw : Started range' w)
    (calls calls' : List Call) (same : (u.run calls).encoding = (w.run calls').encoding) :
    (u.run calls).tick = (w.run calls').tick ∧ (u.run calls).seed = (w.run calls').seed ∧
    ((u.run calls).registry = (w.run calls').registry ∨
      Blurs (u.run calls).entities (w.run calls').entities) ∧
    ((u.run calls).entities.map (·.2.kind) = (w.run calls').entities.map (·.2.kind) →
      (u.run calls).registry = (w.run calls').registry) := by
  have formed := (hu.reachable.run calls).formed
  have formed' := (hw.reachable.run calls').formed
  rw [encoding_eq, encoding_eq] at same
  obtain ⟨tick, rest⟩ := List.append_inj same (by simp)
  obtain ⟨seed, rest⟩ := List.append_inj rest (by simp)
  have registries := (eq_or_blurs formed formed' rest).imp_left Std.ExtTreeMap.toList_inj.mp
  exact ⟨wordBytes_inj.mp tick, wordBytes_inj.mp seed, registries,
    fun kinds => registries.resolve_right fun blurs => blurs.kinds_ne kinds⟩

/-- Two worlds that were given the same two entities in either order. -/
theorem encoding_separates_orders :
    let station : Call := .spawnWithId (.ofNat 1) ⟨.station, ⟨2⟩, .point ⟨1, 1⟩⟩
    let residence : Call := .spawnWithId (.ofNat 2) ⟨.residence, ⟨2⟩, .point ⟨2, 2⟩⟩
    ∃ w, create .standard 7 = .ok w ∧
      (w.run [station, residence]).encoding = (w.run [residence, station]).encoding ∧
      (w.run [station, residence]).registry = (w.run [residence, station]).registry := by
  intro station residence
  have created : create .standard 7 = .ok _ := rfl
  refine ⟨_, created, by decide +kernel, ?_⟩
  exact (encoding_separates (.created created) (.created created) [station, residence]
    [residence, station] (by decide +kernel)).2.2.2 (by decide +kernel)

/-- A step and an edge are written with the bytes of a station and a company. -/
theorem step_and_edge_blur :
    let origin : EntityId := .ofNat 0x63
    let target : EntityId := .ofNat 0xf03f000000000000f03f
    let nodes : List Call := [.spawnWithId origin ⟨.railNode, ⟨2⟩, .point ⟨1, 1⟩⟩,
      .spawnWithId target ⟨.railNode, ⟨2⟩, .point ⟨2, 2⟩⟩]
    let calls := nodes ++ [.spawnWithId (.ofNat 0x100000000000000000000) ⟨.step, ⟨2⟩, .placeless⟩,
      .spawnWithId (.ofNat 0x74000000000000f03f000000000000f0)
        ⟨.railEdge, ⟨0x200000000003f⟩, .edge origin target⟩]
    let calls' := nodes ++ [
      .spawnWithId (.ofNat 0x100000000000000000000) ⟨.station, ⟨2⟩, .point ⟨1, 1⟩⟩,
      .spawnWithId (.ofNat 0x200726500000000000000) ⟨.company, .unowned, .point ⟨1, 1⟩⟩]
    ∃ w, create .standard 7 = .ok w ∧ (w.run calls).encoding = (w.run calls').encoding ∧
      (w.run calls).stateHash = (w.run calls').stateHash ∧
      (w.run calls).registry ≠ (w.run calls').registry := by
  intro origin target nodes calls calls'
  refine ⟨_, rfl, by decide +kernel, by decide +kernel, fun same => ?_⟩
  have step := congrArg (fun registry => registry[EntityId.ofNat 0x100000000000000000000]?) same
  exact absurd step (by decide +kernel)

end World

end RailAtlas
