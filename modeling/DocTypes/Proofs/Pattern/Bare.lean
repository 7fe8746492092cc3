import DocTypes.Pattern.Text

set_option autoImplicit false

/-!
# Patterns without bindings

A bare pattern has all its names unbound. It has the shape of the pattern and the same text, since
the text of a name does not tell what the name denotes.
-/

namespace DocTypes.Pattern

mutual

/-- The pattern with none of its names bound. -/
def bare : Pattern → Pattern
  | any => any
  | unresolved name => unresolved name
  | union alternatives => union (bareEach alternatives)
  | list element => list element.bare
  | tuple items => tuple (bareEach items)
  | set element => set element.bare
  | map key value => map key.bare value.bare
  | record fields => record (bareFields fields)
  | named name _ => unresolved name
termination_by structural pattern => pattern

def bareEach : List Pattern → List Pattern
  | [] => []
  | pattern :: more => pattern.bare :: bareEach more
termination_by structural patterns => patterns

def bareFields : List (Text × Pattern) → List (Text × Pattern)
  | [] => []
  | (label, pattern) :: more => (label, pattern.bare) :: bareFields more
termination_by structural fields => fields

end

/-- Two patterns differ at most in whether and to which types their names are bound. -/
def SameShape (p q : Pattern) : Prop := p.bare = q.bare

theorem bareEach_eq_map (patterns : List Pattern) : bareEach patterns = patterns.map bare := by
  induction patterns with
  | nil => rfl
  | cons pattern more ih => rw [bareEach, ih, List.map_cons]

theorem bareFields_eq_map (fields : List (Text × Pattern)) :
    bareFields fields = fields.map fun field => (field.1, field.2.bare) := by
  induction fields with
  | nil => rfl
  | cons field more ih => rw [bareFields, ih, List.map_cons]

theorem texts_bareEach {patterns : List Pattern}
    (h : ∀ pattern ∈ patterns, pattern.bare.text = pattern.text) :
    texts (bareEach patterns) = texts patterns := by
  rw [texts_eq_map, texts_eq_map, bareEach_eq_map, List.map_map]
  exact List.map_congr_left h

theorem fieldTexts_bareFields {fields : List (Text × Pattern)}
    (h : ∀ field ∈ fields, field.2.bare.text = field.2.text) :
    fieldTexts (bareFields fields) = fieldTexts fields := by
  rw [fieldTexts_eq_map, fieldTexts_eq_map, bareFields_eq_map, List.map_map]
  apply List.map_congr_left
  intro field hf
  change field.1 ++ ':' :: ' ' :: field.2.bare.text = _
  rw [h field hf]

theorem text_bare (pattern : Pattern) : pattern.bare.text = pattern.text := by
  induction pattern with
  | any => rfl
  | unresolved name => rfl
  | union alternatives ih => rw [bare, text, text, texts_bareEach ih]
  | list element ih => rw [bare, text, text, ih]
  | tuple items ih => rw [bare, text, text, texts_bareEach ih]
  | set element ih => rw [bare, text, text, ih]
  | map key value ihk ihv => rw [bare, text, text, ihk, ihv]
  | record fields ih => rw [bare, text, text, fieldTexts_bareFields ih]
  | named name types => rfl

theorem SameShape.text_eq {p q : Pattern} (h : SameShape p q) : p.text = q.text := by
  rw [← text_bare p, ← text_bare q, h]

end DocTypes.Pattern
