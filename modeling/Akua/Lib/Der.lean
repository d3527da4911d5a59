import Mathlib.Data.Nat.Digits.Lemmas
import Akua.Lib.FileSystem

/-! Writing DER: a tag, the length of what follows in as few octets as it takes, the contents. -/

namespace Der

/-- The number big-endian octets spell. -/
def number (octets : Bytes) : Nat := octets.foldl (fun n b => n * 256 + b.toNat) 0

/-- The octets of a number, the most significant first and none in excess. -/
def octets (n : Nat) : Bytes := (Nat.digits 256 n).reverse.map UInt8.ofNat

theorem number_octets (n : Nat) : number (octets n) = n := by
  have hdigit : ∀ d ∈ Nat.digits 256 n, (UInt8.ofNat d).toNat = d := fun d hd => by
    have := Nat.digits_lt_base (by decide) hd
    simpa using this
  rw [number, octets, List.map_reverse, List.foldl_reverse]
  have hdigits : ∀ l : List Nat, (∀ d ∈ l, (UInt8.ofNat d).toNat = d) →
      (l.map UInt8.ofNat).foldr (fun b n => n * 256 + b.toNat) 0 = Nat.ofDigits 256 l := by
    intro l hl
    induction l with
    | nil => rfl
    | cons d l ih =>
      obtain ⟨hd, hl⟩ := List.forall_mem_cons.mp hl
      rw [List.map_cons, List.foldr_cons, ih hl, hd, Nat.ofDigits_cons]
      omega
  rw [hdigits _ hdigit, Nat.ofDigits_digits]

theorem length_octets_le {n k : Nat} (h : n < 256 ^ k) : (octets n).length ≤ k := by
  rw [octets, List.length_map, List.length_reverse]
  exact (Nat.digits_length_le_iff (by decide) n).mpr h

structure Element where
  tag : UInt8
  contents : Bytes
deriving DecidableEq

/-- The octets of a length: itself when it is short, else how many follow and those. -/
def lengthOctets (n : Nat) : Bytes :=
  if n < 128 then [.ofNat n] else .ofNat (128 + (octets n).length) :: octets n

def Element.octets (element : Element) : Bytes :=
  element.tag :: (lengthOctets element.contents.length ++ element.contents)

/-- Elements one after the other. -/
def join (elements : List Element) : Bytes := elements.flatMap Element.octets

/-- An element whose contents are elements. -/
def constructed (tag : UInt8) (elements : List Element) : Element := { tag, contents := join elements }

end Der
