import DocTypes.Proofs.Bracket.Cuts

set_option autoImplicit false

/-!
# Splitting what was split

A text falls apart at its first cut into a part that is not cut and the rest, and its tokens are
those of the two. Tokens that are joined by the separator are cut where they were joined and nowhere
else, since each of them but the last closes as many brackets as it opens.
-/

namespace DocTypes.Bracket

variable {separator : Char} {level : Int} {text : Text}

/-- As many brackets are opened as are closed, whatever their kinds and their order. -/
def Balanced (text : Text) : Prop :=
  text.countP (fun c => (ofOpener? c).isSome) = text.countP fun c => (ofCloser? c).isSome

instance (text : Text) : Decidable (Balanced text) := inferInstanceAs (Decidable (_ = _))

/-- Read from a level, the text is a single piece. -/
def Uncut (separator : Char) (level : Int) (text : Text) : Prop :=
  pieces separator level text = [text]

theorem depth_eq_countP (text : Text) :
    depth text = (text.countP (fun c => (ofOpener? c).isSome) : Int) -
      (text.countP fun c => (ofCloser? c).isSome : Nat) := by
  induction text with
  | nil => rfl
  | cons c rest ih =>
    rw [depth_cons, List.countP_cons, List.countP_cons, ih]
    rcases bracket_cases c with ⟨b, rfl⟩ | ⟨b, rfl⟩ | hc
    · simp only [depthStep_opener, ofOpener?_opener, ofCloser?_opener, Option.isSome, if_true,
        Bool.false_eq_true, if_false]
      omega
    · simp only [depthStep_closer, ofOpener?_closer, ofCloser?_closer, Option.isSome, if_true,
        Bool.false_eq_true, if_false]
      omega
    · simp only [depthStep_plain hc, hc.1, hc.2, Option.isSome, Bool.false_eq_true, if_false]
      omega

theorem depth_eq_zero_iff : depth text = 0 ↔ Balanced text := by
  rw [depth_eq_countP, Balanced]
  omega

theorem depth_eq_zero_of_blank (h : Text.Blank text) : depth text = 0 := by
  have hn : Nested [] text :=
    .of_plain fun c hc => ⟨plain_of_isBlank (h c hc), List.not_mem_nil⟩
  exact hn.depth_eq

theorem depth_trim (text : Text) : depth (Text.trim text) = depth text := by
  obtain ⟨before, after, hb, ha, he⟩ := Text.exists_trim text
  have hd := congrArg depth he
  rw [depth_append, depth_append, depth_eq_zero_of_blank hb, depth_eq_zero_of_blank ha] at hd
  omega

/-- At a separator outside brackets a text is cut, whatever follows. -/
theorem pieces_append_separator (hs : Plain separator) {before : Text}
    (hd : level + depth before = 0) (after : Text) :
    pieces separator level (before ++ separator :: after) =
      pieces separator level before ++ pieces separator 0 after := by
  induction before generalizing level with
  | nil =>
    obtain rfl : level = 0 := by simpa using hd
    exact pieces_separator hs after
  | cons c before ih =>
    rw [depth_cons, ← Int.add_assoc] at hd
    rw [List.cons_append, pieces, pieces]
    split
    case isTrue hc =>
      rw [hc.2.2, Int.add_zero] at hd
      rw [ih hd, List.cons_append]
    case isFalse =>
      obtain ⟨first, more, he⟩ := List.exists_cons_of_ne_nil
        (pieces_ne_nil separator (level + depthStep c) before)
      rw [ih hd, he, List.cons_append, List.modifyHead_cons, List.modifyHead_cons,
        List.cons_append]

theorem tokens_append_separator (hs : Plain separator) {before : Text} (hd : depth before = 0)
    (after : Text) : tokens separator (before ++ separator :: after) =
      tokens separator before ++ tokens separator after := by
  have hl : 0 + depth before = 0 := by rw [hd, Int.zero_add]
  rw [tokens, pieces_append_separator hs hl, List.map_append, List.filter_append]
  rfl

theorem uncut_cons_iff {c : Char} {rest : Text}
    (hc : ¬(c = separator ∧ level = 0 ∧ depthStep c = 0)) :
    Uncut separator level (c :: rest) ↔ Uncut separator (level + depthStep c) rest := by
  obtain ⟨first, more, he⟩ := List.exists_cons_of_ne_nil
    (pieces_ne_nil separator (level + depthStep c) rest)
  rw [Uncut, Uncut, pieces, if_neg hc, he, List.modifyHead_cons, List.cons.injEq, List.cons.injEq,
    List.cons.injEq, and_iff_right rfl]

theorem uncut_append_iff {before after : Text} :
    Uncut separator level (before ++ after) ↔
      Uncut separator level before ∧ Uncut separator (level + depth before) after := by
  induction before generalizing level with
  | nil =>
    rw [List.nil_append, depth_nil, Int.add_zero]
    exact (and_iff_right rfl).symm
  | cons c before ih =>
    rw [List.cons_append, depth_cons, ← Int.add_assoc]
    by_cases hc : c = separator ∧ level = 0 ∧ depthStep c = 0
    · -- neither text is in one piece
      have hn (rest : Text) : ¬ Uncut separator level (c :: rest) := by
        rw [Uncut, pieces, if_pos hc]
        intro h
        cases (List.cons.inj h).1
      exact iff_of_false (hn _) fun h => hn _ h.1
    · rw [uncut_cons_iff hc, uncut_cons_iff hc, ih]

theorem Uncut.trim (h : Uncut separator 0 text) : Uncut separator 0 (Text.trim text) := by
  obtain ⟨before, after, hb, -, he⟩ := Text.exists_trim text
  rw [← he, uncut_append_iff, depth_eq_zero_of_blank hb] at h
  exact (uncut_append_iff.1 h.2).1

/-- A text is not cut, or else its first cut is behind a part of it that is not cut. -/
theorem uncut_or_exists_cut (separator : Char) (level : Int) (text : Text) :
    Uncut separator level text ∨ ∃ first rest, text = first ++ separator :: rest ∧
      Plain separator ∧ Uncut separator level first ∧ level + depth first = 0 := by
  induction text generalizing level with
  | nil => exact .inl rfl
  | cons c rest ih =>
    by_cases hc : c = separator ∧ level = 0 ∧ depthStep c = 0
    · obtain ⟨rfl, rfl, hd⟩ := hc
      exact .inr ⟨[], rest, rfl, plain_of_depthStep_eq_zero hd, rfl, rfl⟩
    · rcases ih (level + depthStep c) with h | ⟨first, later, rfl, hs, hu, hd⟩
      · exact .inl ((uncut_cons_iff hc).2 h)
      · refine .inr ⟨c :: first, later, rfl, hs, (uncut_cons_iff hc).2 hu, ?_⟩
        rwa [depth_cons, ← Int.add_assoc]

/-- Induction on a text from its last cut to its first. -/
theorem cut_induction (separator : Char) {motive : Text → Prop}
    (whole : ∀ text, Uncut separator 0 text → motive text)
    (cut : ∀ first rest, Plain separator → Uncut separator 0 first → depth first = 0 →
      motive rest → motive (first ++ separator :: rest)) (text : Text) : motive text := by
  rcases uncut_or_exists_cut separator 0 text with h | ⟨first, rest, he, hs, hu, hd⟩
  · exact whole text h
  · rw [Int.zero_add] at hd
    rw [he]
    exact cut first rest hs hu hd (cut_induction separator whole cut rest)
termination_by text.length
decreasing_by
  rw [he, List.length_append, List.length_cons]
  omega

theorem tokens_of_blank (h : Uncut separator 0 text) (hb : Text.Blank text) :
    tokens separator text = [] := by
  rw [tokens, h, List.map_singleton, Text.trim_eq_nil_iff.2 hb]
  rfl

theorem tokens_of_not_blank (h : Uncut separator 0 text) (hb : ¬ Text.Blank text) :
    tokens separator text = [Text.trim text] := by
  have ht : Text.trim text ≠ [] := fun ht => hb (Text.trim_eq_nil_iff.1 ht)
  rw [tokens, h, List.map_singleton]
  exact List.filter_cons_of_pos (decide_eq_true ht)

theorem tokens_trim_of_not_blank (h : Uncut separator 0 text) (hb : ¬ Text.Blank text) :
    tokens separator (Text.trim text) = [Text.trim text] := by
  have ht : ¬ Text.Blank (Text.trim text) := by
    rwa [← Text.trim_eq_nil_iff, Text.trim_trim, Text.trim_eq_nil_iff]
  rw [tokens_of_not_blank h.trim ht, Text.trim_trim]

theorem tokens_intercalate_tokens (separator : Char) (text : Text) :
    tokens separator ([separator].intercalate (tokens separator text)) = tokens separator text := by
  induction text using cut_induction separator with
  | whole text hu =>
    by_cases hb : Text.Blank text
    · rw [tokens_of_blank hu hb]
      rfl
    · rw [tokens_of_not_blank hu hb, List.intercalate_singleton, tokens_trim_of_not_blank hu hb]
  | cut first rest hs hu hd ih =>
    rw [tokens_append_separator hs hd]
    by_cases hb : Text.Blank first
    · rwa [tokens_of_blank hu hb, List.nil_append]
    have ht := tokens_trim_of_not_blank hu hb
    rw [tokens_of_not_blank hu hb, List.singleton_append]
    cases hr : tokens separator rest with
    | nil => rwa [List.intercalate_singleton]
    | cons next more =>
      -- the first token closes what it opens, so that it ends where the separator follows it
      have hl : depth (Text.trim first) = 0 := by rw [depth_trim, hd]
      rw [List.intercalate_cons_cons, List.append_assoc, List.singleton_append,
        tokens_append_separator hs hl, ht, ← hr, ih]
      rfl

/-- Splitting the joined tokens gives the tokens again. In a text that is joined to another one by a
separator each of the two is split on its own, if the first closes as many brackets as it opens. -/
theorem split_rejoined (text : Text) (separator : Char) :
    ∃ found, split text [separator] = .ok found ∧
      (∀ token ∈ found, token ≠ [] ∧ Text.Trimmed token) ∧
      split ([separator].intercalate found) [separator] = .ok found ∧
      (Balanced text → Plain separator → ∀ rest, ∃ later, split rest [separator] = .ok later ∧
        split (text ++ separator :: rest) [separator] = .ok (found ++ later)) := by
  refine ⟨tokens separator text, rfl, fun token hm => ?_, ?_, fun hb hs rest => ?_⟩
  · obtain ⟨hn, piece, -, rfl⟩ := exists_piece_of_mem_tokens hm
    exact ⟨hn, Text.trimmed_trim piece⟩
  · exact congrArg Except.ok (tokens_intercalate_tokens separator text)
  · have ht := tokens_append_separator hs (depth_eq_zero_iff.2 hb) rest
    exact ⟨tokens separator rest, rfl, congrArg Except.ok ht⟩

/-- Blanks that separate, behind brackets that are closed before they are opened. -/
theorem split_rejoined_of_blanks :
    let text := " ] a [  b".toList
    let rest := "c (d  e ".toList
    Balanced text ∧ Plain ' ' ∧ ∃ found later, split text " ".toList = .ok found ∧
      found = ["] a [".toList, "b".toList] ∧
      split ([' '].intercalate found) " ".toList = .ok found ∧
      split rest " ".toList = .ok later ∧ later = ["c".toList, "(d  e".toList] ∧
      split (text ++ ' ' :: rest) " ".toList = .ok (found ++ later) := by
  intro text rest
  have hb : Balanced text := by decide
  have hs : Plain ' ' := by decide
  obtain ⟨found, hf, -, hj, ha⟩ := split_rejoined text ' '
  obtain ⟨later, hl, h⟩ := ha hb hs rest
  have hf' : split text " ".toList = .ok ["] a [".toList, "b".toList] := by decide
  have hl' : split rest " ".toList = .ok ["c".toList, "(d  e".toList] := by decide
  refine ⟨hb, hs, found, later, hf, ?_, hj, hl, ?_, h⟩
  · exact Except.ok.inj (hf.symm.trans hf')
  · exact Except.ok.inj (hl.symm.trans hl')

end DocTypes.Bracket
