import Mathlib.Algebra.Group.Nat.Defs
import Mathlib.Data.Finset.Erase
import Mathlib.Data.Finset.Insert
import Mathlib.Data.Nat.Notation
import Mathlib.Data.Prod.Lex
import Mathlib.Order.Nat

/-!
# The peers' data and messages

The types and the four messages of `peer_node.cpp`, with the field names of the
source and its integer widths. Locations are pairs of floats that the agreement
only stores, sends and copies, so they are their 32-bit patterns here; the one
place that computes with them, the distance test of `GetNearbyElements`, gives its
results as an input.
-/

namespace EdgeConsensus.Peer

abbrev ElementId := UInt8

abbrev CausalNum := UInt8

abbrev NodeId := UInt32

instance linearOrderUInt32 : LinearOrder UInt32 where
  le_refl := UInt32.le_refl
  le_trans := fun _ _ _ => UInt32.le_trans
  le_antisymm := fun _ _ => UInt32.le_antisymm
  le_total := UInt32.le_total
  lt_iff_le_not_ge := fun a b => by
    rw [UInt32.lt_iff_toNat_lt, UInt32.le_iff_toNat_le, UInt32.le_iff_toNat_le]; omega
  toDecidableLE := fun a b => inferInstanceAs (Decidable (a ≤ b))
  toDecidableEq := inferInstance
  toDecidableLT := fun a b => inferInstanceAs (Decidable (a < b))
  min_def := fun _ _ => rfl
  max_def := fun _ _ => rfl

structure Location where
  x : UInt32
  y : UInt32
  deriving DecidableEq, Repr

/-- The size of `AgreementInformation_vec` and of `versionRoundNumbers`. -/
abbrev numElements : ℕ := 5

abbrev Element := Fin numElements

/-- The index of an element id in these vectors; `at` throws when there is none. -/
def element? (e : ElementId) : Option Element :=
  if h : e.toNat < numElements then some ⟨e.toNat, h⟩ else none

def elementId (i : Element) : ElementId := UInt8.ofNat i

theorem element?_elementId (i : Element) : element? (elementId i) = some i := by
  revert i; decide

theorem elementId_injective : Function.Injective elementId := by
  intro i j h
  have := element?_elementId i
  rw [h, element?_elementId] at this
  exact (Option.some.inj this).symm

theorem element?_inj {e e' : ElementId} {i : Element} (h : element? e = some i)
    (h' : element? e' = some i) : e = e' := by
  have hval : ∀ {x : ElementId}, element? x = some i → x.toNat = i := by
    intro x hx
    unfold element? at hx
    split at hx
    · rw [← Option.some.inj hx]
    · cases hx
  exact UInt8.toNat_inj.1 ((hval h).trans (hval h').symm)

/-- The comparison of two pairs (version, round), which the source writes out. -/
def later (s t : CausalNum × CausalNum) : Bool := s.1 > t.1 || (s.1 = t.1 && s.2 > t.2)

/-- A pair read as natural numbers, in lexicographic order. -/
def reading (s : CausalNum × CausalNum) : ℕ ×ₗ ℕ := toLex (s.1.toNat, s.2.toNat)

theorem reading_le {s t : CausalNum × CausalNum} :
    reading s ≤ reading t ↔ s.1.toNat < t.1.toNat ∨ (s.1.toNat = t.1.toNat ∧ s.2.toNat ≤ t.2.toNat) :=
  Prod.Lex.toLex_le_toLex

/-- **The comparison is that of the pairs read as natural numbers.** -/
theorem later_iff {s t : CausalNum × CausalNum} : later s t = true ↔ reading t < reading s := by
  have h : reading t < reading s ↔
      t.1.toNat < s.1.toNat ∨ (t.1.toNat = s.1.toNat ∧ t.2.toNat < s.2.toNat) :=
    Prod.Lex.toLex_lt_toLex
  rw [h, UInt8.toNat_inj]
  simp only [later, Bool.or_eq_true, Bool.and_eq_true, decide_eq_true_eq, gt_iff_lt,
    UInt8.lt_iff_toNat_lt]
  exact or_congr_right (and_congr_left' eq_comm)

theorem later_eq_false {s t : CausalNum × CausalNum} : later s t = false ↔ reading s ≤ reading t := by
  rw [← not_lt, ← later_iff, Bool.not_eq_true]

structure AgreementInformation where
  versionNumber : CausalNum
  roundNumber : CausalNum
  fineLocation : Location
  agreeingNodes : Finset NodeId
  deriving DecidableEq

namespace AgreementInformation

/-- The constructor. -/
def make (cl : Location) (id : NodeId) : AgreementInformation := ⟨0, 0, cl, {id}⟩

def stamp (a : AgreementInformation) : CausalNum × CausalNum := (a.versionNumber, a.roundNumber)

end AgreementInformation

/-- `nodeEntry`; times are in milliseconds. -/
structure NodeEntry where
  address : UInt32
  recentTime : ℕ
  versionRoundNumbers : Element → CausalNum × CausalNum

structure AdvertMessage where
  senderId : NodeId
  ipv4Address : UInt32
  elements : List (ElementId × CausalNum × CausalNum)
  deriving DecidableEq, Repr

structure RequestDataMessage where
  senderId : NodeId
  elementId : ElementId
  deriving DecidableEq, Repr

structure SendDataMessage where
  senderId : NodeId
  elementId : ElementId
  location : Location
  version : CausalNum
  round : CausalNum
  syncGroup : Finset NodeId
  deriving DecidableEq

structure AckMessage where
  senderId : NodeId
  elementId : ElementId
  deriving DecidableEq, Repr

inductive Packet
  | advert (info : AdvertMessage)
  | requestData (info : RequestDataMessage)
  | sendData (info : SendDataMessage)
  | ack (info : AckMessage)
  deriving DecidableEq

def Packet.senderId : Packet → NodeId
  | .advert info => info.senderId
  | .requestData info => info.senderId
  | .sendData info => info.senderId
  | .ack info => info.senderId

def Packet.elementIds : Packet → List ElementId
  | .advert info => info.elements.map Prod.fst
  | .requestData info => [info.elementId]
  | .sendData info => [info.elementId]
  | .ack info => [info.elementId]

end EdgeConsensus.Peer
