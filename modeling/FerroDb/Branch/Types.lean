import FerroDb.Catalog
import Mathlib.Order.Compare
import Mathlib.Tactic

/-!
# Identifiers of branches

After `branch/types.rs`. Branches are ordered by the slot they occupy and then by the generation
of that slot.
-/

namespace FerroDb.BranchId

instance : Inhabited BranchId := ⟨trunk⟩

instance : Ord BranchId := ⟨compareLex (compareOn id) (compareOn generation)⟩

instance : Std.TransOrd BranchId :=
  inferInstanceAs (Std.TransCmp (compareLex (compareOn id) (compareOn generation)))

instance : Std.LawfulEqOrd BranchId where
  eq_of_compare {a b} h := by
    have hc : (compare a.id b.id).then (compare a.generation b.generation) = .eq := h
    obtain ⟨hi, hg⟩ := Ordering.then_eq_eq.mp hc
    obtain ⟨ai, ag⟩ := a
    obtain ⟨bi, bg⟩ := b
    simp_all

end FerroDb.BranchId
