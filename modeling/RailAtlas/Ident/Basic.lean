import Std.Data.ExtTreeMap

/-!
# Identifiers

Entities carry 128-bit identifiers, owners are 64-bit account numbers, and the clusters and chunks
of the index are numbered with 32-bit counters. Each kind has its own type, ordered by its number,
so that maps keyed by identifiers list their keys in ascending order.
-/

namespace RailAtlas

/-- A comparison by an injective number is a lawful order. -/
theorem lawfulEqCmp_compareOn {α : Type} (key : α → Nat)
    (injective : ∀ a b, key a = key b → a = b) : Std.LawfulEqCmp (compareOn key) where
  eq_of_compare {a b} h :=
    injective a b (Nat.compare_eq_eq.1 h)

/-- Identity of an entity, compared as a 128-bit number. -/
structure EntityId where
  bits : BitVec 128
deriving DecidableEq

/-- The account an entity belongs to. -/
structure OwnerId where
  number : UInt64
deriving DecidableEq

structure ClusterId where
  number : UInt32
deriving DecidableEq

structure ChunkId where
  number : UInt32
deriving DecidableEq

namespace EntityId

instance : Ord EntityId := ⟨compareOn fun e => e.bits.toNat⟩

instance : Std.TransOrd EntityId :=
  inferInstanceAs (Std.TransCmp (compareOn fun e : EntityId => e.bits.toNat))

instance : Std.LawfulEqOrd EntityId :=
  lawfulEqCmp_compareOn (fun e : EntityId => e.bits.toNat) fun a b h => by
    cases a; cases b; exact congrArg EntityId.mk (BitVec.eq_of_toNat_eq h)

/-- The identifier with a given number, which is taken modulo `2 ^ 128`. -/
def ofNat (n : Nat) : EntityId :=
  ⟨BitVec.ofNat 128 n⟩

/-- The sixteen bytes of the identifier, most significant first. -/
def bytes (e : EntityId) : List UInt8 :=
  (List.range 16).map fun i => UInt8.ofNat (e.bits.toNat >>> (8 * (15 - i)))

end EntityId

namespace OwnerId

instance : Ord OwnerId := ⟨compareOn fun o => o.number.toNat⟩

instance : Std.TransOrd OwnerId :=
  inferInstanceAs (Std.TransCmp (compareOn fun o : OwnerId => o.number.toNat))

instance : Std.LawfulEqOrd OwnerId :=
  lawfulEqCmp_compareOn (fun o : OwnerId => o.number.toNat) fun a b h => by
    cases a; cases b; exact congrArg OwnerId.mk (UInt64.toNat_inj.1 h)

/-- Owner of what the world itself has put up: residences, companies and agents. -/
def unowned : OwnerId := ⟨0⟩

def render (o : OwnerId) : String :=
  "o" ++ toString o.number.toNat

end OwnerId

namespace ClusterId

instance : Ord ClusterId := ⟨compareOn fun c => c.number.toNat⟩

instance : Std.TransOrd ClusterId :=
  inferInstanceAs (Std.TransCmp (compareOn fun c : ClusterId => c.number.toNat))

instance : Std.LawfulEqOrd ClusterId :=
  lawfulEqCmp_compareOn (fun c : ClusterId => c.number.toNat) fun a b h => by
    cases a; cases b; exact congrArg ClusterId.mk (UInt32.toNat_inj.1 h)

def render (c : ClusterId) : String :=
  "cl" ++ toString c.number.toNat

end ClusterId

namespace ChunkId

def render (c : ChunkId) : String :=
  "ch" ++ toString c.number.toNat

end ChunkId

end RailAtlas
