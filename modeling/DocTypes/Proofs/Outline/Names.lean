import DocTypes.Proofs.Scope
import Mathlib.Data.List.Basic

set_option autoImplicit false

/-!
# The names of what is compiled

The leaves of an outline that compiles are the names of its pattern, in the same order and as often.
-/

namespace DocTypes

namespace Pattern

theorem namesEach_eq_flatMap (patterns : List Pattern) :
    namesEach patterns = patterns.flatMap names := by
  induction patterns with
  | nil => rfl
  | cons pattern more ih => rw [namesEach, ih, List.flatMap_cons]

theorem namesFields_eq_flatMap (fields : List (Text × Pattern)) :
    namesFields fields = fields.flatMap fun field => field.2.names := by
  induction fields with
  | nil => rfl
  | cons field more ih => rw [namesFields, ih, List.flatMap_cons]

theorem names_bareEach {patterns : List Pattern}
    (h : ∀ pattern ∈ patterns, pattern.bare.names = pattern.names) :
    namesEach (bareEach patterns) = namesEach patterns := by
  rw [namesEach_eq_flatMap, namesEach_eq_flatMap, bareEach_eq_map, List.flatMap_map]
  exact List.flatMap_congr h

theorem names_bareFields {fields : List (Text × Pattern)}
    (h : ∀ field ∈ fields, field.2.bare.names = field.2.names) :
    namesFields (bareFields fields) = namesFields fields := by
  rw [namesFields_eq_flatMap, namesFields_eq_flatMap, bareFields_eq_map, List.flatMap_map]
  exact List.flatMap_congr h

/-- What a name is bound to does not show in the names. -/
theorem names_bare (pattern : Pattern) : pattern.bare.names = pattern.names := by
  induction pattern with
  | any => rfl
  | unresolved name => rfl
  | union alternatives ih => rw [bare, names, names, names_bareEach ih]
  | list element ih => rw [bare, names, names, ih]
  | tuple items ih => rw [bare, names, names, names_bareEach ih]
  | set element ih => rw [bare, names, names, ih]
  | map key value ihk ihv => rw [bare, names, names, ihk, ihv]
  | record fields ih => rw [bare, names, names, names_bareFields ih]
  | named name types => rfl

end Pattern

namespace Outline

theorem leaves_of_fillEach {outlines : List Outline} {ps : List Pattern}
    (h : ∀ outline ∈ outlines, ∀ p, outline.fill .unresolved = .ok p →
      outline.leaves = p.names.map .ok)
    (hf : fillEach .unresolved outlines = .ok ps) :
    leavesEach outlines = (Pattern.namesEach ps).map .ok := by
  induction outlines generalizing ps with
  | nil =>
    obtain rfl := Except.ok.inj hf
    rfl
  | cons outline more ih =>
    obtain ⟨ho, hm⟩ := List.forall_mem_cons.1 h
    rw [fillEach] at hf
    split at hf
    case h_1 p hp =>
      obtain ⟨rest, hr, rfl⟩ := exists_of_map_eq_ok hf
      rw [leavesEach, ho p hp, ih hm hr, Pattern.namesEach, List.map_append]
    case h_2 => cases hf

theorem leaves_of_fillFields {fields : List (Text × Outline)} {found : List (Text × Pattern)}
    (h : ∀ field ∈ fields, ∀ p, field.2.fill .unresolved = .ok p →
      field.2.leaves = p.names.map .ok)
    (hf : fillFields .unresolved fields = .ok found) :
    leavesFields fields = (Pattern.namesFields found).map .ok := by
  induction fields generalizing found with
  | nil =>
    obtain rfl := Except.ok.inj hf
    rfl
  | cons field more ih =>
    obtain ⟨ho, hm⟩ := List.forall_mem_cons.1 h
    rw [fillFields] at hf
    split at hf
    case h_1 p hp =>
      obtain ⟨rest, hr, rfl⟩ := exists_of_map_eq_ok hf
      rw [leavesFields, ho p hp, ih hm hr, Pattern.namesFields, List.map_append]
    case h_2 => cases hf

theorem leaves_of_fill (outline : Outline) {p : Pattern}
    (h : outline.fill .unresolved = .ok p) : outline.leaves = p.names.map .ok := by
  induction outline generalizing p with
  | blank =>
    obtain rfl := Except.ok.inj h
    rfl
  | name n =>
    obtain rfl := Except.ok.inj h
    rfl
  | union alternatives ih =>
    obtain ⟨ps, hp, rfl⟩ := exists_of_map_eq_ok h
    exact leaves_of_fillEach (fun outline ho p => ih outline ho) hp
  | list element ih =>
    obtain ⟨q, hq, rfl⟩ := exists_of_map_eq_ok h
    have hl := ih hq
    exact hl
  | tuple items ih =>
    obtain ⟨ps, hp, rfl⟩ := exists_of_map_eq_ok h
    exact leaves_of_fillEach (fun outline ho p => ih outline ho) hp
  | set element ih =>
    obtain ⟨q, hq, rfl⟩ := exists_of_map_eq_ok h
    have hl := ih hq
    exact hl
  | map key value ihk ihv =>
    rw [fill] at h
    split at h
    case h_1 k hk =>
      obtain ⟨v, hv, rfl⟩ := exists_of_map_eq_ok h
      rw [leaves, ihk hk, ihv hv, Pattern.names, List.map_append]
    case h_2 => cases h
  | record fields ih =>
    obtain ⟨found, hp, rfl⟩ := exists_of_map_eq_ok h
    exact leaves_of_fillFields (fun field hf p => ih field hf) hp
  | fault f => cases h

end Outline

theorem Scope.leaves_of_patternAt? {scope : Scope} {moment : Nat} {text : Text} {p : Pattern}
    (h : scope.patternAt? moment text = .ok p) :
    (Outline.read text).leaves = p.names.map .ok := by
  have hb := scope.patternAt?_bare moment text
  rw [h] at hb
  rw [← p.names_bare]
  exact Outline.leaves_of_fill _ hb.symm

theorem Scope.mem_leaves_of_patternAt? {scope : Scope} {moment : Nat} {text name : Text}
    {p : Pattern} (h : scope.patternAt? moment text = .ok p) :
    .ok name ∈ (Outline.read text).leaves ↔ name ∈ p.names := by
  rw [leaves_of_patternAt? h, List.mem_map]
  constructor
  · rintro ⟨other, hm, he⟩
    rwa [← Except.ok.inj he]
  · exact fun hm => ⟨name, hm, rfl⟩

end DocTypes
