import FerroDb.Cow.Atomic
import FerroDb.Library.Fallible

/-!
# Reading trees

Code that writes nothing sees the store as a function from page ids to pages, which may refuse
some of them.
-/

namespace FerroDb.Cow

open Library SepTree

abbrev Reader := PageId → Except FerroError Page

def State.reader (s : State) : Reader := fun i =>
  match s.pages i with
  | some f => .ok f.page
  | none => .error (.store i)

/-- The pages of a tree are read as its nodes. -/
def Holds (read : Reader) (T : Tree) : Prop := ∀ c ∈ cells T, read c.1 = .ok c.2

lemma Stands.holds {s : State} {T : Tree} (h : Stands s T) : Holds s.reader T := by
  intro c hc
  obtain ⟨f, hf, hpage⟩ := Option.map_eq_some_iff.mp (h.held c hc)
  rw [State.reader, hf, ← hpage]

variable {i : PageId}

section

variable {read : Reader}

@[simp] lemma holds_leaf {es : LeafEntries} :
    Holds read (leaf i es) ↔ read i = .ok (.leaf es) := by
  simp [Holds]

lemma holds_node {l : Tree} {ks : List (Key × Tree)} :
    Holds read (node i l ks) ↔ read i = .ok (.internal l.id (heads ks)) ∧ Holds read l ∧
      ∀ kt ∈ ks, Holds read kt.2 := by
  simp only [Holds, cells_node, Multiset.mem_add, Multiset.mem_singleton, mem_cellsOf]
  constructor
  · intro h
    exact ⟨h _ (.inl rfl), fun c hc => h c (.inr (.inl hc)),
      fun kt hkt c hc => h c (.inr (.inr ⟨kt, hkt, hc⟩))⟩
  · rintro ⟨hi, hl, hk⟩ c (rfl | hc | ⟨kt, hkt, hc⟩)
    · exact hi
    · exact hl c hc
    · exact hk kt hkt c hc

end

end FerroDb.Cow
