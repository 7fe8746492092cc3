import DocTypes.Bracket.Split
import DocTypes.Proofs.Bracket.Nesting

set_option autoImplicit false

/-!
# Pieces of a text

Cutting a text outside brackets undoes joining nested texts, and joining the pieces undoes the
cutting. The pieces of a nested text are nested, and no separator stands outside their brackets.
Blanks around a text change none of its tokens.
-/

namespace DocTypes.Bracket

theorem depthStep_plain {c : Char} (h : Plain c) : depthStep c = 0 := by
  simp [depthStep, h.1, h.2]

theorem depthStep_opener (b : Bracket) : depthStep b.opener = 1 := by
  simp [depthStep]

theorem depthStep_closer (b : Bracket) : depthStep b.closer = -1 := by
  cases b <;> rfl

theorem plain_of_depthStep_eq_zero {c : Char} (h : depthStep c = 0) : Plain c := by
  rcases bracket_cases c with ⟨b, rfl⟩ | ⟨b, rfl⟩ | hc
  · rw [depthStep_opener] at h
    cases h
  · rw [depthStep_closer] at h
    cases h
  · exact hc

variable {separator : Char} {depth : Int}

theorem pieces_separator (hs : Plain separator) (rest : Text) :
    pieces separator 0 (separator :: rest) = [] :: pieces separator 0 rest := by
  rw [pieces, if_pos ⟨rfl, rfl, depthStep_plain hs⟩]

theorem pieces_plain {c : Char} (hc : Plain c) (hn : depth = 0 → c ≠ separator) (rest : Text) :
    pieces separator depth (c :: rest) = (pieces separator depth rest).modifyHead (c :: ·) := by
  rw [pieces, if_neg fun h => hn h.2.1 h.1, depthStep_plain hc, Int.add_zero]

theorem pieces_opener (b : Bracket) (rest : Text) :
    pieces separator depth (b.opener :: rest) =
      (pieces separator (depth + 1) rest).modifyHead (b.opener :: ·) := by
  rw [pieces, depthStep_opener, if_neg fun h => absurd h.2.2 (by decide)]

theorem pieces_closer (b : Bracket) (rest : Text) :
    pieces separator (depth + 1) (b.closer :: rest) =
      (pieces separator depth rest).modifyHead (b.closer :: ·) := by
  rw [pieces, depthStep_closer, if_neg fun h => absurd h.2.2 (by decide),
    show depth + 1 + -1 = depth by omega]

/-- A nested text is never cut inside brackets, and outside them only at separators. -/
theorem pieces_nested {apart : List Char} {text : Text} (h : Nested apart text)
    (hd : 0 ≤ depth) (hs : depth = 0 → separator ∈ apart) (rest : Text) :
    pieces separator depth (text ++ rest) =
      (pieces separator depth rest).modifyHead (text ++ ·) := by
  induction h generalizing depth rest with
  | nil =>
    change _ = (pieces separator depth rest).modifyHead id
    rw [List.modifyHead_id]
    rfl
  | @plain _ c _ hc ha _ ih =>
    have hn : depth = 0 → c ≠ separator := fun h0 he => ha (he ▸ hs h0)
    rw [List.cons_append, pieces_plain hc hn, ih hd hs, List.modifyHead_modifyHead]
    rfl
  | @group _ inside later b _ _ ihi ihr =>
    have h1 : depth + 1 = 0 → separator ∈ [] := fun h0 => by omega
    rw [List.cons_append, List.append_assoc, pieces_opener, ihi (by omega) h1, List.cons_append,
      pieces_closer, ihr hd hs, List.modifyHead_modifyHead, List.modifyHead_modifyHead,
      List.modifyHead_modifyHead]
    congr 1
    funext t
    simp

theorem pieces_eq_singleton {apart : List Char} {text : Text} (h : Nested apart text)
    (hs : separator ∈ apart) : pieces separator 0 text = [text] := by
  have hp := pieces_nested h (Int.le_refl 0) (fun _ => hs) []
  rw [List.append_nil] at hp
  rw [hp, pieces, List.modifyHead_cons, List.append_nil]

theorem pieces_nested_separator {apart : List Char} {text : Text} (hp : Plain separator)
    (h : Nested apart text) (hs : separator ∈ apart) (rest : Text) :
    pieces separator 0 (text ++ separator :: rest) = text :: pieces separator 0 rest := by
  rw [pieces_nested h (Int.le_refl 0) fun _ => hs, pieces_separator hp, List.modifyHead_cons,
    List.append_nil]

/-- Cutting undoes joining. -/
theorem pieces_intercalate {parts : List Text} (hp : Plain separator) (hne : parts ≠ [])
    (h : ∀ part ∈ parts, Nested [separator] part) :
    pieces separator 0 ([separator].intercalate parts) = parts := by
  induction parts with
  | nil => exact absurd rfl hne
  | cons part more ih =>
    have hn := h part (List.mem_cons_self ..)
    have hs : separator ∈ [separator] := List.mem_singleton.2 rfl
    cases more with
    | nil =>
      rw [List.intercalate_singleton]
      exact pieces_eq_singleton hn hs
    | cons next more =>
      have hm : ∀ p ∈ next :: more, Nested [separator] p :=
        fun p hp => h p (List.mem_cons_of_mem _ hp)
      rw [List.intercalate_cons_cons, List.append_assoc, List.singleton_append,
        pieces_nested_separator hp hn hs, ih (List.cons_ne_nil _ _) hm]

theorem intercalate_modifyHead (c : Char) {parts : List Text} (hne : parts ≠ []) :
    [separator].intercalate (parts.modifyHead (c :: ·)) =
      c :: [separator].intercalate parts := by
  cases parts with
  | nil => exact absurd rfl hne
  | cons part more => cases more <;> rfl

/-- Joining undoes cutting. -/
theorem intercalate_pieces (separator : Char) (depth : Int) (text : Text) :
    [separator].intercalate (pieces separator depth text) = text := by
  induction text generalizing depth with
  | nil => rfl
  | cons c rest ih =>
    rw [pieces]
    split
    case isTrue hc =>
      obtain ⟨first, more, he⟩ := List.exists_cons_of_ne_nil
        (pieces_ne_nil separator depth rest)
      have hr := ih depth
      rw [he] at hr ⊢
      rw [List.intercalate_cons_cons, hr, hc.1]
      rfl
    case isFalse => rw [intercalate_modifyHead c (pieces_ne_nil _ _ _), ih]

theorem nested_of_mem_pieces {apart : List Char} {text piece : Text} (h : Nested apart text)
    (hp : piece ∈ pieces separator 0 text) : Nested (separator :: apart) piece := by
  induction h generalizing piece with
  | nil =>
    obtain rfl := List.mem_singleton.1 hp
    exact .nil
  | @plain apart c rest hc ha _ ih =>
    by_cases he : c = separator
    · subst he
      rw [pieces_separator hc] at hp
      rcases List.mem_cons.1 hp with rfl | hp
      · exact .nil
      · exact ih hp
    · rw [pieces_plain hc fun _ => he] at hp
      obtain ⟨first, more, hf⟩ := List.exists_cons_of_ne_nil (pieces_ne_nil separator 0 rest)
      rw [hf, List.modifyHead_cons] at hp
      rw [hf] at ih
      rcases List.mem_cons.1 hp with rfl | hp
      · have hn : c ∉ separator :: apart := by
          rw [List.mem_cons]
          exact fun h => h.elim he ha
        exact .plain hc hn (ih (List.mem_cons_self ..))
      · exact ih (List.mem_cons_of_mem _ hp)
  | @group apart inside rest b hi _ _ ih =>
    have hg : Nested [separator] (b.opener :: (inside ++ [b.closer])) := .group_single b hi
    have hs : separator ∈ [separator] := List.mem_singleton.2 rfl
    rw [show b.opener :: (inside ++ b.closer :: rest) =
        (b.opener :: (inside ++ [b.closer])) ++ rest by simp,
      pieces_nested hg (Int.le_refl 0) fun _ => hs] at hp
    obtain ⟨first, more, hf⟩ := List.exists_cons_of_ne_nil (pieces_ne_nil separator 0 rest)
    rw [hf, List.modifyHead_cons] at hp
    rw [hf] at ih
    rcases List.mem_cons.1 hp with rfl | hp
    · exact .append (.group_single b hi) (ih (List.mem_cons_self ..))
    · exact ih (List.mem_cons_of_mem _ hp)

theorem nested_of_mem_tokens {text token : Text} (h : Nested [] text)
    (ht : token ∈ tokens separator text) : Nested [] token := by
  obtain ⟨-, piece, hp, rfl⟩ := exists_piece_of_mem_tokens ht
  exact ((nested_of_mem_pieces h hp).mono (List.forall_mem_nil _)).trim

/-- A piece is not cut any further. Only the first one starts at the depth of the whole text. -/
theorem pieces_of_pieces {text first : Text} {more : List Text}
    (h : pieces separator depth text = first :: more) :
    pieces separator depth first = [first] ∧
      ∀ piece ∈ more, pieces separator 0 piece = [piece] := by
  induction text generalizing depth first more with
  | nil =>
    obtain ⟨rfl, rfl⟩ := List.cons.inj h
    exact ⟨rfl, fun _ hp => by cases hp⟩
  | cons c rest ih =>
    rw [pieces] at h
    split at h
    case isTrue hc =>
      obtain ⟨rfl, rfl⟩ := List.cons.inj h
      refine ⟨rfl, fun piece hp => ?_⟩
      rw [hc.2.1] at hp
      obtain ⟨next, later, he⟩ := List.exists_cons_of_ne_nil (pieces_ne_nil separator 0 rest)
      obtain ⟨hn, hl⟩ := ih he
      rw [he] at hp
      rcases List.mem_cons.1 hp with rfl | hp
      · exact hn
      · exact hl piece hp
    case isFalse hc =>
      obtain ⟨next, later, he⟩ := List.exists_cons_of_ne_nil
        (pieces_ne_nil separator (depth + depthStep c) rest)
      obtain ⟨hn, hl⟩ := ih he
      rw [he, List.modifyHead_cons] at h
      obtain ⟨rfl, rfl⟩ := List.cons.inj h
      refine ⟨?_, hl⟩
      rw [pieces, if_neg hc, hn, List.modifyHead_cons]

theorem pieces_of_mem_pieces {text piece : Text} (h : piece ∈ pieces separator 0 text) :
    pieces separator 0 piece = [piece] := by
  obtain ⟨first, more, he⟩ := List.exists_cons_of_ne_nil (pieces_ne_nil separator 0 text)
  obtain ⟨hf, hm⟩ := pieces_of_pieces he
  rw [he] at h
  rcases List.mem_cons.1 h with rfl | h
  · exact hf
  · exact hm piece h

theorem length_le_of_mem_pieces {text piece : Text} (h : piece ∈ pieces separator 0 text) :
    piece.length ≤ text.length := by
  have hl := length_of_mem_pieces h
  have hp := List.length_pos_of_mem h
  omega

theorem ne_of_isBlank {c : Char} (hs : Text.isBlank separator = false)
    (hc : Text.isBlank c = true) : c ≠ separator := by
  rintro rfl
  rw [hs] at hc
  cases hc

theorem pieces_blank_append {before : Text} (hs : Text.isBlank separator = false)
    (hb : Text.Blank before) (text : Text) :
    pieces separator depth (before ++ text) =
      (pieces separator depth text).modifyHead (before ++ ·) := by
  induction before with
  | nil =>
    change _ = (pieces separator depth text).modifyHead id
    rw [List.modifyHead_id]
    rfl
  | cons c before ih =>
    have hc := hb c (List.mem_cons_self ..)
    rw [List.cons_append, pieces_plain (plain_of_isBlank hc) fun _ => ne_of_isBlank hs hc,
      ih fun d hd => hb d (List.mem_cons_of_mem _ hd), List.modifyHead_modifyHead]
    rfl

theorem pieces_append_blank {after : Text} (hs : Text.isBlank separator = false)
    (ha : Text.Blank after) (depth : Int) (text : Text) :
    ∃ firsts last, pieces separator depth text = firsts ++ [last] ∧
      pieces separator depth (text ++ after) = firsts ++ [last ++ after] := by
  induction text generalizing depth with
  | nil =>
    refine ⟨[], [], rfl, ?_⟩
    have hp := @pieces_blank_append separator depth after hs ha []
    rw [List.append_nil, pieces, List.modifyHead_cons, List.append_nil] at hp
    exact hp
  | cons c rest ih =>
    rw [List.cons_append, pieces, pieces]
    split
    case isTrue =>
      obtain ⟨firsts, last, he, hl⟩ := ih depth
      exact ⟨[] :: firsts, last, congrArg ([] :: ·) he, congrArg ([] :: ·) hl⟩
    case isFalse =>
      obtain ⟨firsts, last, he, hl⟩ := ih (depth + depthStep c)
      rw [he, hl]
      cases firsts with
      | nil => exact ⟨[], c :: last, rfl, rfl⟩
      | cons first firsts => exact ⟨(c :: first) :: firsts, last, rfl, rfl⟩

theorem map_trim_modifyHead {before : Text} (hb : Text.Blank before) (parts : List Text) :
    (parts.modifyHead (before ++ ·)).map Text.trim = parts.map Text.trim := by
  cases parts with
  | nil => rfl
  | cons part more =>
    have ht := Text.trim_padded hb Text.blank_nil part
    rw [List.append_nil] at ht
    rw [List.modifyHead_cons, List.map_cons, List.map_cons, ht]

theorem tokens_padded {before after : Text} (hs : Text.isBlank separator = false)
    (hb : Text.Blank before) (ha : Text.Blank after) (text : Text) :
    tokens separator (before ++ (text ++ after)) = tokens separator text := by
  obtain ⟨firsts, last, he, hl⟩ := pieces_append_blank hs ha 0 text
  rw [tokens, tokens, pieces_blank_append hs hb, map_trim_modifyHead hb, he, hl, List.map_append,
    List.map_append, List.map_singleton, List.map_singleton, Text.trim_append_blank ha]

theorem tokens_trim (hs : Text.isBlank separator = false) (text : Text) :
    tokens separator (Text.trim text) = tokens separator text := by
  obtain ⟨before, after, hb, ha, he⟩ := Text.exists_trim text
  have ht := tokens_padded hs hb ha (Text.trim text)
  rw [he] at ht
  exact ht.symm

theorem length_tokens_le (separator : Char) (text : Text) :
    (tokens separator text).length ≤ (pieces separator 0 text).length := by
  have h := List.length_filter_le (fun t => decide (t ≠ []))
    ((pieces separator 0 text).map Text.trim)
  rw [List.length_map] at h
  exact h

theorem length_tokens_le_one {apart : List Char} {text : Text} (h : Nested apart text)
    (hs : separator ∈ apart) : (tokens separator text).length ≤ 1 := by
  have hl := length_tokens_le separator text
  rw [pieces_eq_singleton h hs] at hl
  exact hl

end DocTypes.Bracket
