import DocTypes.Outline
import DocTypes.Proofs.Bracket.Pieces

set_option autoImplicit false

/-!
# Forms of texts

The form of a text depends on its trimmed form only. A text with two alternatives or more is a
union, and any other one is judged by its first character: a bracket that opens has to be closed by
the last character, and every other text has to be a name.
-/

namespace DocTypes.Form

open DocTypes.Bracket

theorem ofText_of_trim_eq {a b : Text} (h : Text.trim a = Text.trim b) : ofText a = ofText b :=
  congrArg ofTrimmed h

theorem ofText_of_blank {text : Text} (h : Text.Blank text) : ofText text = blank := by
  rw [ofText, Text.trim_eq_nil_iff.2 h]
  rfl

theorem ofText_of_many {text : Text} (h : 1 < (tokens '|' text).length) :
    ofText text = union (tokens '|' text) := by
  have ht : tokens '|' (Text.trim text) = tokens '|' text := tokens_trim rfl text
  rw [ofText]
  cases htr : Text.trim text with
  | nil =>
    rw [htr] at ht
    rw [← ht] at h
    exact absurd h (by decide)
  | cons c rest =>
    rw [htr] at ht
    rw [ofTrimmed, ht, if_pos h]

variable {text rest : Text} {c : Char}

theorem ofText_of_plain (h : (tokens '|' text).length ≤ 1) (ht : Text.trim text = c :: rest)
    (hc : ofOpener? c = none) : ofText text = ofName (c :: rest) := by
  have hn : ¬ 1 < (tokens '|' (c :: rest)).length := by
    rw [← ht, tokens_trim rfl]
    exact Nat.not_lt.2 h
  rw [ofText, ht, ofTrimmed, if_neg hn, hc]

theorem ofText_of_opener {b : Bracket} (h : (tokens '|' text).length ≤ 1)
    (ht : Text.trim text = b.opener :: rest) :
    ofText text = ofBracketed (b.opener :: rest) b rest := by
  have hn : ¬ 1 < (tokens '|' (b.opener :: rest)).length := by
    rw [← ht, tokens_trim rfl]
    exact Nat.not_lt.2 h
  rw [ofText, ht, ofTrimmed, if_neg hn, ofOpener?_opener]

/-- All that the form of a text can be. -/
theorem ofText_cases (text : Text) :
    (Text.Blank text ∧ ofText text = blank) ∨
    (1 < (tokens '|' text).length ∧ ofText text = union (tokens '|' text)) ∨
    ((tokens '|' text).length ≤ 1 ∧
      ((∃ c rest, Text.trim text = c :: rest ∧ ofOpener? c = none ∧
          ofText text = ofName (c :: rest)) ∨
        ∃ b rest, Text.trim text = Bracket.opener b :: rest ∧
          ofText text = ofBracketed (b.opener :: rest) b rest)) := by
  by_cases hm : 1 < (tokens '|' text).length
  · exact .inr (.inl ⟨hm, ofText_of_many hm⟩)
  · have hl : (tokens '|' text).length ≤ 1 := Nat.not_lt.1 hm
    cases ht : Text.trim text with
    | nil =>
      have hb := Text.trim_eq_nil_iff.1 ht
      exact .inl ⟨hb, ofText_of_blank hb⟩
    | cons c rest =>
      refine .inr (.inr ⟨hl, ?_⟩)
      cases hc : ofOpener? c with
      | none => exact .inl ⟨c, rest, rfl, hc, ofText_of_plain hl ht hc⟩
      | some b =>
        obtain rfl := ofOpener?_eq_some.1 hc
        exact .inr ⟨b, rest, rfl, ofText_of_opener hl ht⟩

theorem ofName_of_plain (h : ∀ d ∈ text, isStructural d = false) : ofName text = name text := by
  have hf : text.find? isStructural = none :=
    List.find?_eq_none.2 fun d hd => by rw [h d hd]; decide
  rw [ofName, hf]

theorem ofName_cases (text : Text) :
    ((∀ d ∈ text, isStructural d = false) ∧ ofName text = name text) ∨
      ∃ found, ofName text = fault (.unexpected text found) := by
  cases hf : text.find? isStructural with
  | none =>
    have hs : ∀ d ∈ text, isStructural d = false := fun d hd => by
      have hn := List.find?_eq_none.1 hf d hd
      cases hd : isStructural d
      · rfl
      · exact absurd hd hn
    exact .inl ⟨hs, ofName_of_plain hs⟩
  | some found => exact .inr ⟨found, by rw [ofName, hf]⟩

theorem ofBracketed_of_nested {b : Bracket} {inside : Text} (h : Nested [] inside) :
    ofBracketed text b (inside ++ [b.closer]) = ofInside text b inside := by
  rw [ofBracketed, cut?_nested_closer h]

theorem ofBracketed_cases (text : Text) (b : Bracket) (rest : Text) :
    (∃ inside, Nested [] inside ∧ rest = inside ++ [b.closer] ∧
      ofBracketed text b rest = ofInside text b inside) ∨
    ofBracketed text b rest = fault (.unmatched text) ∨
      ofBracketed text b rest = fault (.trailing text) := by
  cases hc : cut? [b] rest with
  | none =>
    right; left
    rw [ofBracketed, hc]
  | some found =>
    obtain ⟨inside, after⟩ := found
    obtain ⟨hn, rfl⟩ := cut?_eq_some_iff.1 hc
    cases after with
    | nil => exact .inl ⟨inside, hn, rfl, ofBracketed_of_nested hn⟩
    | cons d after =>
      right; right
      rw [ofBracketed, hc]

theorem pairs_eq_ok_iff {entries : List Text} {found : List (Text × Text)} :
    pairs entries = .ok found ↔
      entries.map (tokens ':') = found.map fun pair => [pair.1, pair.2] := by
  induction entries generalizing found with
  | nil => cases found <;> simp [pairs]
  | cons entry more ih =>
    rw [pairs, List.map_cons]
    split
    case h_1 left right he =>
      rw [he]
      cases hm : pairs more with
      | error e =>
        have hn : ∀ later : List (Text × Text),
            more.map (tokens ':') ≠ later.map fun pair => [pair.1, pair.2] :=
          fun later h => by
            rw [ih.2 h] at hm
            cases hm
        cases found with
        | nil => simp [Except.map]
        | cons pair later => simp [Except.map, hn later]
      | ok later =>
        cases found with
        | nil => simp [Except.map]
        | cons pair rest =>
          obtain ⟨l, r⟩ := pair
          simp only [Except.map, Except.ok.injEq, List.cons.injEq, Prod.mk.injEq, List.map_cons]
          rw [← ih, hm, Except.ok.injEq, and_true]
    case h_2 hne =>
      cases found with
      | nil => simp
      | cons pair later =>
        have hn : tokens ':' entry ≠ [pair.1, pair.2] := fun h => hne _ _ h
        simp [hn]

end DocTypes.Form

namespace DocTypes.Outline

theorem read_of_form {text : Text} (form : Form) (h : Form.ofText text = form) :
    read text = build read form := by
  rw [read_eq, h]

/-- Reading depends on the trimmed text only. -/
theorem read_of_trim_eq {a b : Text} (h : Text.trim a = Text.trim b) :
    read a = read b := by
  rw [read_eq, read_eq, Form.ofText_of_trim_eq h]

theorem read_trim (text : Text) : read (Text.trim text) = read text :=
  read_of_trim_eq (Text.trim_trim text)

theorem map_read_trim (texts : List Text) :
    (texts.map Text.trim).map read = texts.map read := by
  rw [List.map_map]
  exact List.map_congr_left fun text _ => read_trim text

end DocTypes.Outline
