import DocTypes.Proofs.Bracket.Closing
import DocTypes.Proofs.Bracket.Pieces

set_option autoImplicit false

/-!
# Where a text is cut

Splitting counts the brackets that are open, of whatever kind, and cuts at the separators where the
count is zero. In a nested text a prefix with a count above zero is one that ends inside a bracket,
so that the cuts are the separators which no bracket encloses.
-/

namespace DocTypes.Bracket

open DocTypes.Text (byteLength StandsAt)

/-- How many more brackets a text opens than it closes. -/
def depth : Text → Int
  | [] => 0
  | c :: rest => depthStep c + depth rest

/-- The bytes at which a text is cut that begins at byte `place` and at the given level. -/
def cutsFrom (separator : Char) (place : Nat) (level : Int) : Text → List Nat
  | [] => []
  | c :: rest =>
    if c = separator ∧ level = 0 ∧ depthStep c = 0 then
      place :: cutsFrom separator (place + c.utf8Size) level rest
    else cutsFrom separator (place + c.utf8Size) (level + depthStep c) rest

def cuts (separator : Char) (text : Text) : List Nat := cutsFrom separator 0 0 text

/-- What stands before the first cut, between the cuts and after the last one, from byte `start` on.
A cut takes away `width` bytes. -/
def between (text : Text) (width start : Nat) : List Nat → List Text
  | [] => [Text.slice text start (byteLength text)]
  | cut :: more => Text.slice text start cut :: between text width (cut + width) more

@[simp] theorem depth_nil : depth [] = 0 := rfl

@[simp] theorem depth_cons (c : Char) (rest : Text) : depth (c :: rest) = depthStep c + depth rest :=
  rfl

@[simp] theorem depth_append (a b : Text) : depth (a ++ b) = depth a + depth b := by
  induction a with
  | nil => simp
  | cons c a ih => rw [List.cons_append, depth_cons, depth_cons, ih, Int.add_assoc]

theorem Nested.depth_eq {apart : List Char} {text : Text} (h : Nested apart text) :
    depth text = 0 := by
  induction h with
  | nil => rfl
  | plain hc _ _ ih => rw [depth_cons, depthStep_plain hc, ih, Int.zero_add]
  | group b _ _ ihi ihr =>
    rw [depth_cons, depth_append, depth_cons, depthStep_opener, depthStep_closer, ihi, ihr]
    rfl

theorem Encloses.append_left {text : Text} {opening closing : Nat} (before : Text)
    (h : Encloses text opening closing) :
    Encloses (before ++ text) (byteLength before + opening) (byteLength before + closing) := by
  obtain ⟨b, left, inside, after, rfl, hi, rfl, rfl⟩ := h
  refine ⟨b, before ++ left, inside, after, by simp, hi, by simp, ?_⟩
  rw [List.append_assoc, Text.byteLength_append]

/-- A place in a text is within a bracket that opens before it and is not closed before it. -/
def Within (text : Text) (place : Nat) : Prop :=
  ∃ opening closing, Encloses text opening closing ∧ opening < place ∧ place ≤ closing

theorem Within.append_left {text : Text} {place : Nat} (before : Text) (h : Within text place) :
    Within (before ++ text) (byteLength before + place) := by
  obtain ⟨opening, closing, he, ho, hc⟩ := h
  exact ⟨_, _, he.append_left before, by omega, by omega⟩

/-- A prefix of a nested text closes all the brackets that it opens, or else it ends within one. -/
theorem Nested.prefix_cases {apart : List Char} {text before after : Text}
    (h : Nested apart text) (he : text = before ++ after) :
    depth before = 0 ∨ 0 < depth before ∧ Within text (byteLength before) := by
  induction h generalizing before after with
  | nil =>
    obtain ⟨rfl, -⟩ := List.append_eq_nil_iff.1 he.symm
    exact .inl rfl
  | @plain apart c rest hc _ _ ih =>
    cases before with
    | nil => exact .inl rfl
    | cons d before =>
      obtain ⟨rfl, hr⟩ := List.cons.inj he
      rw [depth_cons, depthStep_plain hc, Int.zero_add]
      refine (ih hr).imp_right (And.imp_right fun hw => ?_)
      simpa using hw.append_left [c]
  | @group apart inside rest b hi _ ihi ihr =>
    cases before with
    | nil => exact .inl rfl
    | cons d before =>
      obtain ⟨rfl, hr⟩ := List.cons.inj he
      rw [depth_cons, depthStep_opener]
      -- The prefix ends within this group if it ends before the closing bracket.
      have hg {more : Text} (hm : inside = before ++ more) :
          0 < 1 + depth before ∧
            Within (b.opener :: (inside ++ b.closer :: rest))
              (byteLength (b.opener :: before)) := by
        constructor
        · rcases ihi hm with hd | ⟨hd, -⟩ <;> omega
        · refine ⟨_, _, ⟨b, [], inside, rest, rfl, hi, rfl, rfl⟩, ?_, ?_⟩
          · rw [Text.byteLength_cons, utf8Size_opener, Text.byteLength_nil]
            omega
          · rw [hm]
            simp only [List.nil_append, Text.byteLength_cons, Text.byteLength_append]
            omega
      rcases List.append_eq_append_iff.1 hr with ⟨more, rfl, hm⟩ | ⟨more, hm, -⟩
      · cases more with
        | nil => exact .inr (@hg [] (by simp))
        | cons d more =>
          obtain ⟨rfl, hl⟩ := List.cons.inj hm
          have hp := ihr hl
          rw [depth_append, depth_cons, depthStep_closer, hi.depth_eq]
          rw [show (1 : Int) + (0 + (-1 + depth more)) = depth more by omega]
          refine hp.imp_right (And.imp_right fun hw => ?_)
          have ha := hw.append_left (b.opener :: (inside ++ [b.closer]))
          rw [← Text.byteLength_append] at ha
          simpa using ha
      · exact .inr (hg hm)

theorem Nested.depth_nonneg {apart : List Char} {before after : Text}
    (h : Nested apart (before ++ after)) : 0 ≤ depth before := by
  rcases h.prefix_cases rfl with hd | ⟨hd, -⟩ <;> omega

theorem Nested.depth_pos_of_within {before after : Text} (h : Nested [] (before ++ after))
    (hw : Within (before ++ after) (byteLength before)) : 0 < depth before := by
  obtain ⟨opening, closing, ⟨b, left, inside, right, he, hi, rfl, rfl⟩, ho, hc⟩ := hw
  rcases List.append_eq_append_iff.1 he with ⟨more, rfl, -⟩ | ⟨more, rfl, hm⟩
  · rw [Text.byteLength_append] at ho
    omega
  cases more with
  | nil =>
    rw [List.append_nil] at ho
    omega
  | cons d more =>
    obtain ⟨rfl, hr⟩ := List.cons.inj hm
    have hl : 0 ≤ depth left := by
      rw [List.append_assoc] at h
      exact h.depth_nonneg
    -- What comes behind the opening bracket is a prefix of what the bracket encloses.
    have hp : ∃ later, inside = more ++ later := by
      rcases List.append_eq_append_iff.1 hr with ⟨later, rfl, hl⟩ | ⟨later, rfl, -⟩
      · cases later with
        | nil => exact ⟨[], by simp⟩
        | cons e later =>
          obtain ⟨rfl, -⟩ := List.cons.inj hl
          simp only [Text.byteLength_append, Text.byteLength_cons, utf8Size_closer] at hc
          omega
      · exact ⟨later, rfl⟩
    obtain ⟨later, rfl⟩ := hp
    have hd := hi.depth_nonneg
    rw [depth_append, depth_cons, depthStep_opener]
    omega

variable {separator : Char}

/-- Where a character stands in a text, from its first character on. -/
theorem exists_append_cons_iff {c d : Char} {rest : Text} {P : Text → Prop} :
    (∃ before after, c :: rest = before ++ d :: after ∧ P before) ↔
      c = d ∧ P [] ∨ ∃ before after, rest = before ++ d :: after ∧ P (c :: before) := by
  constructor
  · rintro ⟨before, after, he, hp⟩
    cases before with
    | nil => exact .inl ⟨(List.cons.inj he).1, hp⟩
    | cons e before =>
      obtain ⟨rfl, hr⟩ := List.cons.inj he
      exact .inr ⟨before, after, hr, hp⟩
  · rintro (⟨rfl, hp⟩ | ⟨before, after, rfl, hp⟩)
    · exact ⟨[], rest, rfl, hp⟩
    · exact ⟨c :: before, after, rfl, hp⟩

/-- The cuts are at the separators before which no bracket is left open. -/
theorem mem_cutsFrom (hs : Plain separator) {start place : Nat} {level : Int} {text : Text} :
    place ∈ cutsFrom separator start level text ↔
      ∃ before after, text = before ++ separator :: after ∧
        (level + depth before = 0 ∧ start + byteLength before = place) := by
  induction text generalizing start level with
  | nil => simp [cutsFrom]
  | cons c rest ih =>
    rw [exists_append_cons_iff, depth_nil, Text.byteLength_nil, Int.add_zero, Nat.add_zero, cutsFrom]
    simp only [depth_cons, Text.byteLength_cons, ← Int.add_assoc, ← Nat.add_assoc]
    rw [← ih]
    split
    case isTrue hc =>
      rw [List.mem_cons, hc.2.2, Int.add_zero]
      exact or_congr_left ⟨fun h => ⟨hc.1, hc.2.1, h.symm⟩, fun h => h.2.2.symm⟩
    case isFalse hc =>
      refine (or_iff_right fun h => hc ?_).symm
      obtain ⟨rfl, hl, -⟩ := h
      exact ⟨rfl, hl, depthStep_plain hs⟩

theorem le_of_mem_cutsFrom {start place : Nat} {level : Int} {text : Text}
    (h : place ∈ cutsFrom separator start level text) : start ≤ place := by
  induction text generalizing start level with
  | nil => cases h
  | cons c rest ih =>
    rw [cutsFrom] at h
    split at h
    · rcases List.mem_cons.1 h with rfl | h
      · exact Nat.le_refl _
      · exact Nat.le_of_add_right_le (ih h)
    · exact Nat.le_of_add_right_le (ih h)

theorem pairwise_cutsFrom (separator : Char) (start : Nat) (level : Int) (text : Text) :
    (cutsFrom separator start level text).Pairwise (· < ·) := by
  induction text generalizing start level with
  | nil => exact .nil
  | cons c rest ih =>
    rw [cutsFrom]
    split
    · refine List.pairwise_cons.2 ⟨fun place hp => ?_, ih _ _⟩
      have hl := le_of_mem_cutsFrom hp
      have hc := c.utf8Size_pos
      omega
    · exact ih _ _

/-- The pieces are what the cuts leave, `piece` being the beginning of the first one. -/
theorem between_cutsFrom (separator : Char) (level : Int) (before piece rest : Text) :
    between (before ++ (piece ++ rest)) separator.utf8Size (byteLength before)
        (cutsFrom separator (byteLength (before ++ piece)) level rest) =
      (pieces separator level rest).modifyHead (piece ++ ·) := by
  induction rest generalizing before piece level with
  | nil =>
    have h := Text.slice_append before piece []
    rw [List.append_nil] at h ⊢
    rw [cutsFrom, between, h, pieces, List.modifyHead_cons, List.append_nil]
  | cons c rest ih =>
    have hb : byteLength (before ++ (piece ++ [c])) =
        byteLength (before ++ piece) + c.utf8Size := by simp [Nat.add_assoc]
    rw [cutsFrom, pieces]
    split
    case isTrue hc =>
      obtain rfl := hc.1
      have h := ih level (before ++ (piece ++ [c])) []
      change _ = (pieces c level rest).modifyHead id at h
      rw [List.modifyHead_id, List.append_nil, hb] at h
      simp only [List.nil_append, List.append_assoc, List.singleton_append] at h
      rw [between, Text.slice_append, h, List.modifyHead_cons, List.append_nil]
      rfl
    case isFalse =>
      have h := ih (level + depthStep c) before (piece ++ [c])
      rw [hb] at h
      simp only [List.append_assoc, List.singleton_append] at h
      rw [h, List.modifyHead_modifyHead]
      rfl

theorem between_cuts (separator : Char) (text : Text) :
    between text separator.utf8Size 0 (cuts separator text) = pieces separator 0 text := by
  have h := between_cutsFrom separator 0 [] [] text
  change _ = (pieces separator 0 text).modifyHead id at h
  rwa [List.modifyHead_id] at h

/-- A separator within a bracket stands before the end of the bracket. -/
theorem within_iff_of_standsAt {text : Text} {place : Nat} (hs : Plain separator)
    (hp : StandsAt text place separator) : Within text place ↔
      ∃ opening closing, opening < place ∧ findClose text opening = .ok closing ∧
        place < closing := by
  constructor
  · rintro ⟨opening, closing, he, ho, hc⟩
    refine ⟨opening, closing, ho, he.findClose, Nat.lt_of_le_of_ne hc ?_⟩
    rintro rfl
    obtain ⟨b, -, hb⟩ := he.standsAt
    exact not_plain_closer b (hp.eq hb ▸ hs)
  · rintro ⟨opening, closing, ho, hf, hc⟩
    exact ⟨opening, closing, findClose_eq_ok_iff.1 hf, ho, Nat.le_of_lt hc⟩

theorem mem_cuts_iff {text : Text} (h : Nested [] text) (hs : Plain separator) {place : Nat} :
    place ∈ cuts separator text ↔ StandsAt text place separator ∧ ¬ Within text place := by
  rw [cuts, mem_cutsFrom hs]
  constructor
  · rintro ⟨before, after, rfl, hd, rfl⟩
    rw [Int.zero_add] at hd
    rw [Nat.zero_add]
    refine ⟨Text.standsAt_append before separator after, fun hw => ?_⟩
    have hp := h.depth_pos_of_within hw
    omega
  · rintro ⟨⟨before, after, rfl, rfl⟩, hn⟩
    have hd := (h.prefix_cases rfl).resolve_right fun hp => hn hp.2
    exact ⟨before, after, rfl, by rwa [Int.zero_add], Nat.zero_add _⟩

/-- In a nested text the splitting, which counts brackets of all kinds alike, and the search for
closing brackets, which tells them apart, agree on what is inside brackets. The cuts, from left to
right, are the separators that no bracket encloses, and the tokens are what is between them. -/
theorem split_nested {text : Text} {separator : Char} (h : Nested [] text)
    (hs : Plain separator) :
    (∀ place, place ∈ cuts separator text ↔ StandsAt text place separator ∧
      ¬ ∃ opening closing, opening < place ∧ findClose text opening = .ok closing ∧
        place < closing) ∧
    (cuts separator text).Pairwise (· < ·) ∧
    ∃ found, split text [separator] = .ok found ∧
      found = ((between text separator.utf8Size 0 (cuts separator text)).filter
        fun piece => ¬ Text.Blank piece).map Text.trim ∧
      ∀ token ∈ found, Nested [] token := by
  refine ⟨fun place => ?_, pairwise_cutsFrom .., tokens separator text, rfl, ?_,
    fun token => nested_of_mem_tokens h⟩
  · rw [mem_cuts_iff h hs]
    exact and_congr_right fun hp => not_congr (within_iff_of_standsAt hs hp)
  · rw [between_cuts, tokens, Text.filter_map_trim]

/-- Blanks that separate, a character of three bytes, and a bracket that separators surround. -/
theorem split_nested_of_blanks :
    let text := "  a{k : ‖ [b c]} <> d ".toList
    Nested [] text ∧ Plain ' ' ∧ cuts ' ' text = [0, 1, 18, 21, 23] ∧
      findClose text 3 = .ok 17 ∧ split text " ".toList =
        .ok ["a{k : ‖ [b c]}".toList, "<>".toList, "d".toList] ∧
      ∃ found, split text " ".toList = .ok found ∧ ∀ token ∈ found, Nested [] token := by
  intro text
  have h : Nested [] text := by decide
  have hs : Plain ' ' := by decide
  obtain ⟨-, -, found, hf, -, hn⟩ := split_nested h hs
  exact ⟨h, hs, by decide, by decide, by decide, found, hf, hn⟩

end DocTypes.Bracket
