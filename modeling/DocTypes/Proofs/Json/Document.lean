import DocTypes.Json

set_option autoImplicit false

/-!
# Well-formed documents

The numbers of a document are numbers, and no object in it has two members of one key.
-/

namespace DocTypes.Json

inductive WellFormed : Json → Prop where
  | null : WellFormed .null
  | bool (b : Bool) : WellFormed (.bool b)
  | whole (n : Int) : WellFormed (.whole n)
  | real {x : Binary64} (hx : x.isNaN = false) : WellFormed (.real x)
  | string (s : Text) : WellFormed (.string s)
  | array {items : List Json} (hw : ∀ item ∈ items, WellFormed item) : WellFormed (.array items)
  | object {members : List (Text × Json)} (hk : (members.map Prod.fst).Nodup)
    (hw : ∀ value ∈ members.map Prod.snd, WellFormed value) : WellFormed (.object members)

theorem wellFormed_array_iff {items : List Json} :
    (array items).WellFormed ↔ ∀ item ∈ items, item.WellFormed := by
  refine ⟨fun h => ?_, .array⟩
  cases h with
  | array hw => exact hw

theorem wellFormed_object_iff {members : List (Text × Json)} :
    (object members).WellFormed ↔ (members.map Prod.fst).Nodup ∧
      ∀ value ∈ members.map Prod.snd, value.WellFormed := by
  refine ⟨fun h => ?_, fun h => .object h.1 h.2⟩
  cases h with
  | object hk hw => exact ⟨hk, hw⟩

end DocTypes.Json
