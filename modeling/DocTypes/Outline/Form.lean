import DocTypes.Bracket.Split

set_option autoImplicit false

/-!
# Forms

The form of a type expression is its outermost construct, with the texts of its parts as they
stand. Every part is shorter than the expression.
-/

namespace DocTypes

inductive Form where
  | blank
  | name (n : Text)
  | union (alternatives : List Text)
  | list (element : Text)
  | tuple (items : List Text)
  | set (element : Text)
  | map (key value : Text)
  | record (fields : List (Text × Text))
  | fault (f : Fault)

namespace Form

/-- The texts that are expressions themselves; the name of a field is none. -/
def parts : Form → List Text
  | union alternatives => alternatives
  | list element => [element]
  | tuple items => items
  | set element => [element]
  | map key value => [key, value]
  | record fields => fields.map Prod.snd
  | blank | name _ | fault _ => []

/-- The characters that no name contains. -/
def isStructural (c : Char) : Bool := "|[](){}<>,:".toList.contains c

def ofName (text : Text) : Form :=
  match text.find? isStructural with
  | some found => fault (.unexpected text found)
  | none => name text

/-- The two parts of each entry, or the first entry that does not have two. -/
def pairs : List Text → Except Text (List (Text × Text))
  | [] => .ok []
  | entry :: more =>
    match Bracket.tokens ':' entry with
    | [left, right] => (pairs more).map ((left, right) :: ·)
    | _ => .error entry

/-- A body with exactly one entry is a map, any other one a record. -/
def ofBraces (text inside : Text) : Form :=
  match pairs (Bracket.tokens ',' inside) with
  | .error entry => fault (.malformed text entry)
  | .ok [(key, value)] => map key value
  | .ok fields => record fields

/-- The form of a text in brackets, `inside` being what stands between them. -/
def ofInside (text : Text) (kind : Bracket) (inside : Text) : Form :=
  match kind with
  | .square => list inside
  | .angle => set inside
  | .round => tuple (Bracket.tokens ',' inside)
  | .curly => ofBraces text inside

/-- The form of a text that opens with a bracket, `rest` being what follows that bracket. -/
def ofBracketed (text : Text) (kind : Bracket) (rest : Text) : Form :=
  match Bracket.cut? [kind] rest with
  | none => fault (.unmatched text)
  | some (_, _ :: _) => fault (.trailing text)
  | some (inside, []) => ofInside text kind inside

def ofTrimmed : Text → Form
  | [] => blank
  | c :: rest =>
    if 1 < (Bracket.tokens '|' (c :: rest)).length then union (Bracket.tokens '|' (c :: rest))
    else
      match Bracket.ofOpener? c with
      | none => ofName (c :: rest)
      | some kind => ofBracketed (c :: rest) kind rest

def ofText (text : Text) : Form := ofTrimmed (Text.trim text)

theorem parts_ofName (text : Text) : (ofName text).parts = [] := by
  unfold ofName
  split <;> rfl

theorem tokens_of_mem_pairs {entries : List Text} {found : List (Text × Text)} {pair : Text × Text}
    (h : pairs entries = .ok found) (hp : pair ∈ found) :
    ∃ entry ∈ entries, Bracket.tokens ':' entry = [pair.1, pair.2] := by
  induction entries generalizing found with
  | nil =>
    obtain rfl := Except.ok.inj h
    simp at hp
  | cons entry more ih =>
    rw [pairs] at h
    split at h
    case h_1 left right he =>
      match hm : pairs more with
      | .error e => rw [hm] at h; cases h
      | .ok later =>
        rw [hm] at h
        obtain rfl := Except.ok.inj h
        rcases List.mem_cons.1 hp with rfl | hp
        · exact ⟨entry, List.mem_cons_self .., he⟩
        · obtain ⟨e, hl, ht⟩ := ih hm hp
          exact ⟨e, List.mem_cons_of_mem _ hl, ht⟩
    case h_2 => cases h

theorem length_le_of_mem_pairs {text : Text} {found : List (Text × Text)} {pair : Text × Text}
    (h : pairs (Bracket.tokens ',' text) = .ok found) (hp : pair ∈ found) :
    pair.1.length ≤ text.length ∧ pair.2.length ≤ text.length := by
  obtain ⟨entry, he, ht⟩ := tokens_of_mem_pairs h hp
  have hl := Bracket.length_le_of_mem_tokens he
  have h1 := Bracket.length_le_of_mem_tokens (ht ▸ List.mem_cons_self .. : pair.1 ∈ _)
  have h2 := Bracket.length_le_of_mem_tokens
    (ht ▸ List.mem_cons_of_mem _ (List.mem_cons_self ..) : pair.2 ∈ _)
  omega

theorem length_part_ofBraces_le {text inside part : Text}
    (h : part ∈ (ofBraces text inside).parts) : part.length ≤ inside.length := by
  unfold ofBraces at h
  split at h
  case h_1 => simp [parts] at h
  case h_2 key value hp =>
    have hl := length_le_of_mem_pairs hp (List.mem_singleton.2 rfl)
    simp only [parts, List.mem_cons, List.not_mem_nil, or_false] at h
    rcases h with rfl | rfl
    · exact hl.1
    · exact hl.2
  case h_3 found _ hp =>
    obtain ⟨pair, hm, rfl⟩ := List.mem_map.1 h
    exact (length_le_of_mem_pairs hp hm).2

theorem length_part_ofBracketed_lt {text rest part : Text} {kind : Bracket}
    (h : part ∈ (ofBracketed text kind rest).parts) : part.length < rest.length := by
  unfold ofBracketed at h
  split at h
  case h_1 => simp [parts] at h
  case h_2 => simp [parts] at h
  case h_3 inside hc =>
    have hl := Bracket.cut?_length hc
    cases kind with
    | square => rwa [List.mem_singleton.1 h]
    | angle => rwa [List.mem_singleton.1 h]
    | round => exact Nat.lt_of_le_of_lt (Bracket.length_le_of_mem_tokens h) hl
    | curly => exact Nat.lt_of_le_of_lt (length_part_ofBraces_le h) hl

theorem length_part_ofTrimmed_lt {text part : Text} (h : part ∈ (ofTrimmed text).parts) :
    part.length < text.length := by
  unfold ofTrimmed at h
  split at h
  case h_1 => simp [parts] at h
  case h_2 c rest =>
    split at h
    case isTrue hu => exact Bracket.length_lt_of_mem_tokens h hu
    case isFalse =>
      split at h
      · rw [parts_ofName] at h
        simp at h
      · exact Nat.lt_succ_of_lt (length_part_ofBracketed_lt h)

theorem length_part_lt {text part : Text} (h : part ∈ (ofText text).parts) :
    part.length < text.length :=
  Nat.lt_of_lt_of_le (length_part_ofTrimmed_lt h) (Text.trim_length_le text)

end Form

end DocTypes
