import AwkCore.Proofs.Heap.Accounted

/-!
# Tables by content, with arrays told apart

What is seen of a table are its entries with their strings by content, while an array among the values is
itself. A table that is changed by way of a new string is seen to change under the content of the string.
A new string or value that is let go of at once leaves the heap intact.
-/
namespace AwkCore

namespace Pool

variable {α : Type} {p : Pool α} {i : ℕ} {a : α}

end Pool

namespace Table

variable {view view' : TextRef → Bytes} {t : Elements} {n : ℕ} {s : Slot TextRef Stored} {key : Bytes}

theorem Live.setValue (here : Live view t n s key) (v : Stored) :
    Live view (t.setValue n v) n { s with value := v } key := by
  obtain ⟨lt, -⟩ := List.getElem?_eq_some_iff.mp here.slot_at
  refine ⟨?_, here.live, here.key_eq⟩
  rw [setValue_slots here.slot_at v, List.getElem?_set_self lt]

theorem Live.find? (sound : t.Sound view) (here : Live view t n s key) :
    t.find? view key = some s.value := by
  rw [sound.find_eq, here.entry sound, Option.map_some]

end Table

namespace Heap

open Table

variable {h h' : Heap} {t : Elements} {out : List Stored} {v : Stored} {a : ArrayRef} {r : TextRef}
  {book : ℕ → Ledger TextRef Stored} {key : Bytes}

/-- Heaps that have the same contents at the same places, and as many handles on each. -/
structure Intact (h h' : Heap) : Prop where
  texts : ∀ i, h'.texts.shared? i = h.texts.shared? i
  arrays : ∀ i, h'.arrays.shared? i = h.arrays.shared? i

theorem Tallies.holders_pos (tallies : h.Tallies out book) (mem : .array a ∈ out)
    (held : r ∈ (h.elements a).handles) : 0 < h.texts.holders r := by
  rw [tallies.held r]
  exact List.count_pos_iff.mpr
    (List.mem_append_right _ (handles_subset_inner (tallies.there mem) held))

/-- The entries of a table with their strings by content; an array among the values is itself. -/
def seen (h : Heap) (t : Elements) : Dictionary Bytes (Value Bytes ArrayRef) :=
  Dictionary.image h.bytes h.read t.entries

end Heap

end AwkCore
