import DocTypes.Proofs.Grammar
import DocTypes.Proofs.Outline.Fill
import DocTypes.Proofs.Outline.Form

set_option autoImplicit false

/-!
# Soundness of reading

If reading a text and filling in its names gives a pattern, the text derives that pattern. The
induction is on the length of the text, since the texts that are read next are not parts of a tree
but stretches of the text.
-/

namespace DocTypes.Grammar

open DocTypes.Bracket Outline

variable {bind : Text → Pattern} {derived : Text → Pattern → Prop}

theorem isUnion_of_fill_read {text : Text} {p : Pattern} (hb : ∀ n, (bind n).isUnion = false)
    (hl : (tokens '|' text).length ≤ 1) (h : (read text).fill bind = .ok p) :
    p.isUnion = false := by
  rw [read_eq] at h
  rcases Form.ofText_cases text with ⟨-, hf⟩ | ⟨hm, -⟩ | ⟨-, ⟨c, rest, -, -, hf⟩ | ⟨b, rest, -, hf⟩⟩
  · rw [hf] at h
    obtain rfl := Except.ok.inj h
    rfl
  · omega
  · rw [hf] at h
    rcases Form.ofName_cases (c :: rest) with ⟨-, hn⟩ | ⟨found, hn⟩
    · rw [hn] at h
      obtain rfl := Except.ok.inj h
      exact hb _
    · rw [hn] at h
      cases h
  · rw [hf] at h
    rcases Form.ofBracketed_cases (b.opener :: rest) b rest with ⟨inside, -, -, ho⟩ | ho | ho
    · rw [ho] at h
      cases b with
      | square =>
        obtain ⟨q, -, rfl⟩ := exists_of_map_eq_ok h
        rfl
      | angle =>
        obtain ⟨q, -, rfl⟩ := exists_of_map_eq_ok h
        rfl
      | round =>
        obtain ⟨ps, -, rfl⟩ := exists_of_map_eq_ok h
        rfl
      | curly =>
        change (build read (Form.ofBraces _ inside)).fill bind = _ at h
        unfold Form.ofBraces at h
        split at h
        · cases h
        · rw [build, fill] at h
          split at h
          · obtain ⟨v, -, rfl⟩ := exists_of_map_eq_ok h
            rfl
          · cases h
        · obtain ⟨fields, -, rfl⟩ := exists_of_map_eq_ok h
          rfl
    · rw [ho] at h
      cases h
    · rw [ho] at h
      cases h

theorem exists_items {texts : List Text} {ps : List Pattern}
    (hd : ∀ text ∈ texts, ∀ q, (read text).fill bind = .ok q → derived text q)
    (h : fillEach bind (texts.map read) = .ok ps) :
    ∃ items : List (Text × Pattern), items.map Prod.fst = texts ∧ items.map Prod.snd = ps ∧
      ∀ item ∈ items, derived item.1 item.2 := by
  induction texts generalizing ps with
  | nil =>
    obtain rfl := Except.ok.inj h
    exact ⟨[], rfl, rfl, List.forall_mem_nil _⟩
  | cons text more ih =>
    rw [List.map_cons, fillEach] at h
    split at h
    case h_1 q hq =>
      obtain ⟨qs, hm, rfl⟩ := exists_of_map_eq_ok h
      obtain ⟨items, hf, hs, hi⟩ := ih (fun t ht => hd t (List.mem_cons_of_mem _ ht)) hm
      refine ⟨(text, q) :: items, congrArg (text :: ·) hf, congrArg (q :: ·) hs, ?_⟩
      exact List.forall_mem_cons.2 ⟨hd text (List.mem_cons_self ..) q hq, hi⟩
    case h_2 => cases h

theorem exists_sides {entry x y : Text} (h : tokens ':' entry = [x, y]) :
    ∃ left right, Joined ':' [left, right] entry ∧ Text.trim left = x ∧ Text.trim right = y ∧
      left ∈ pieces ':' 0 entry ∧ right ∈ pieces ':' 0 entry ∧ ¬ Text.Blank left := by
  obtain ⟨kept, hj, ht, hk⟩ := exists_joined ':' entry
  rw [ht] at h
  rcases kept with _ | ⟨left, _ | ⟨right, _ | ⟨third, more⟩⟩⟩
  · cases h
  · cases h
  · obtain ⟨hl, hr⟩ := List.cons.inj h
    have hml := hk left (List.mem_cons_self ..)
    have hmr := hk right (List.mem_cons_of_mem _ (List.mem_cons_self ..))
    exact ⟨left, right, hj, hl, (List.cons.inj hr).1, hml.1, hmr.1, hml.2⟩
  · cases h

theorem labelled_trim {written : Text} (hn : Nested [',', ':'] written)
    (hb : ¬ Text.Blank written) : Labelled (Text.trim written) written := by
  obtain ⟨before, after, hbl, hal, he⟩ := Text.exists_trim written
  exact ⟨fun h => hb (Text.trim_eq_nil_iff.1 h), Text.trimmed_trim written, hn.trim,
    before, after, hbl, hal, he.symm⟩

theorem exists_entries {kept : List Text} {found : List (Text × Text)}
    {fields : List (Text × Pattern)}
    (hk : kept.map (tokens ':') = found.map fun pair => [pair.1, pair.2])
    (hn : ∀ entry ∈ kept, Nested [','] entry)
    (hd : ∀ entry ∈ kept, ∀ part ∈ pieces ':' 0 entry, ∀ q,
      (read part).fill bind = .ok q → derived part q)
    (h : fillFields bind (found.map fun pair => (pair.1, read pair.2)) = .ok fields) :
    ∃ entries : List Entry, entries.map Entry.whole = kept ∧
      (entries.map fun entry => (entry.label, entry.pattern)) = fields ∧
      ∀ entry ∈ entries, Joined ':' [entry.left, entry.right] entry.whole ∧
        Labelled entry.label entry.left ∧ derived entry.right entry.pattern := by
  induction kept generalizing found fields with
  | nil =>
    obtain rfl := List.map_eq_nil_iff.1 hk.symm
    obtain rfl := Except.ok.inj h
    exact ⟨[], rfl, rfl, List.forall_mem_nil _⟩
  | cons whole more ih =>
    rcases found with _ | ⟨⟨x, y⟩, later⟩
    · cases hk
    · obtain ⟨hw, hm⟩ := List.cons.inj hk
      rw [List.map_cons, fillFields] at h
      split at h
      case h_1 q hq =>
        obtain ⟨rest, hr, rfl⟩ := exists_of_map_eq_ok h
        obtain ⟨entries, he, hf, ha⟩ := ih hm (fun e he => hn e (List.mem_cons_of_mem _ he))
          (fun e he => hd e (List.mem_cons_of_mem _ he)) hr
        obtain ⟨left, right, hj, rfl, rfl, hl, hr, hb⟩ := exists_sides hw
        have hml := List.mem_cons_self (a := whole) (l := more)
        have hnl : Nested [',', ':'] left :=
          (nested_of_mem_pieces (hn whole hml) hl).mono (by simp)
        rw [read_trim] at hq
        refine ⟨⟨whole, left, right, Text.trim left, q⟩ :: entries, congrArg (whole :: ·) he,
          congrArg ((Text.trim left, q) :: ·) hf, List.forall_mem_cons.2 ⟨?_, ha⟩⟩
        exact ⟨hj, labelled_trim hnl hb, hd whole hml right hr q hq⟩
      case h_2 => cases h

/-- What follows needs that shorter texts derive what reading them gives. -/
def SoundUpTo (bind : Text → Pattern) (derived : Text → Pattern → Prop) (n : Nat) : Prop :=
  ∀ part : Text, part.length ≤ n → ∀ q, (read part).fill bind = .ok q → derived part q

theorem derives_braces {inside : Text} {p : Pattern} (whole : Text) (hn : Nested [] inside)
    (hd : SoundUpTo bind (Derives fun name q => q = bind name) inside.length)
    (h : (build read (Form.ofBraces whole inside)).fill bind = .ok p) :
    Derives (fun name q => q = bind name) ('{' :: (inside ++ ['}'])) p := by
  obtain ⟨kept, hj, ht, hk⟩ := exists_joined ',' inside
  have hnest : ∀ entry ∈ kept, Nested [','] entry :=
    fun entry he => nested_of_mem_pieces hn (hk entry he).1
  have hpart : ∀ entry ∈ kept, ∀ part ∈ pieces ':' 0 entry, ∀ q,
      (read part).fill bind = .ok q → Derives (fun name q => q = bind name) part q := by
    intro entry he part hp
    have hl := length_le_of_mem_pieces hp
    have hw := length_le_of_mem_pieces (hk entry he).1
    exact hd part (by omega)
  unfold Form.ofBraces at h
  split at h
  case h_1 => cases h
  case h_2 x y hf =>
    rw [Form.pairs_eq_ok_iff, ht] at hf
    rcases kept with _ | ⟨entry, _ | ⟨next, more⟩⟩
    · cases hf
    · have hs := (List.cons.inj hf).1
      rw [tokens_trim rfl] at hs
      obtain ⟨left, right, he, rfl, rfl, hl, hr, -⟩ := exists_sides hs
      have hm := List.mem_singleton_self entry
      rw [build, fill, read_trim, read_trim] at h
      split at h
      · obtain ⟨v, hv, rfl⟩ := exists_of_map_eq_ok h
        exact .map hj he (hpart entry hm left hl _ ‹_›) (hpart entry hm right hr v hv)
      · cases h
    · exact absurd (congrArg List.length hf) (by simp)
  case h_3 found hs hf =>
    rw [Form.pairs_eq_ok_iff, ht, List.map_map] at hf
    obtain ⟨fields, hq, rfl⟩ := exists_of_map_eq_ok h
    have hc : kept.map (tokens ':') = found.map fun pair => [pair.1, pair.2] := by
      rw [← hf]
      exact List.map_congr_left fun entry _ => (tokens_trim rfl entry).symm
    obtain ⟨entries, rfl, rfl, he⟩ := exists_entries hc hnest hpart hq
    have hl : entries.length ≠ 1 := by
      intro h1
      have hlen := congrArg List.length hc
      rw [List.length_map, List.length_map, List.length_map, h1] at hlen
      obtain ⟨⟨x, y⟩, hx⟩ := List.length_eq_one_iff.1 hlen.symm
      exact hs x y (by rw [hx])
    exact .record entries hl hj (fun e hm => (he e hm).1) (fun e hm => (he e hm).2.1)
      fun e hm => (he e hm).2.2

theorem derives_bracketed {inside : Text} {p : Pattern} (whole : Text) (b : Bracket)
    (hn : Nested [] inside)
    (hd : SoundUpTo bind (Derives fun name q => q = bind name) inside.length)
    (h : (build read (Form.ofInside whole b inside)).fill bind = .ok p) :
    Derives (fun name q => q = bind name) (b.opener :: (inside ++ [b.closer])) p := by
  cases b with
  | square =>
    obtain ⟨q, hq, rfl⟩ := exists_of_map_eq_ok h
    exact .list (hd inside (Nat.le_refl _) q hq)
  | angle =>
    obtain ⟨q, hq, rfl⟩ := exists_of_map_eq_ok h
    exact .set (hd inside (Nat.le_refl _) q hq)
  | round =>
    obtain ⟨ps, hq, rfl⟩ := exists_of_map_eq_ok h
    obtain ⟨kept, hj, ht, hk⟩ := exists_joined ',' inside
    rw [ht, map_read_trim] at hq
    have hp : ∀ part ∈ kept, ∀ q, (read part).fill bind = .ok q →
        Derives (fun name q => q = bind name) part q :=
      fun part hm => hd part (length_le_of_mem_pieces (hk part hm).1)
    obtain ⟨items, rfl, rfl, hi⟩ := exists_items hp hq
    exact .tuple items hj hi
  | curly => exact derives_braces whole hn hd h

theorem derives_union {text : Text} {p : Pattern} (hb : ∀ n, (bind n).isUnion = false)
    (hm : 1 < (tokens '|' text).length)
    (hd : ∀ part : Text, part.length < text.length → ∀ q,
      (read part).fill bind = .ok q → Derives (fun name q => q = bind name) part q)
    (h : (Outline.union ((tokens '|' text).map read)).fill bind = .ok p) :
    Derives (fun name q => q = bind name) text p := by
  obtain ⟨ps, hq, rfl⟩ := exists_of_map_eq_ok h
  obtain ⟨kept, hj, ht, hk⟩ := exists_joined '|' text
  have hle := length_tokens_le '|' text
  have hp : ∀ part ∈ kept, ∀ q, (read part).fill bind = .ok q →
      Derives (fun name q => q = bind name) part q ∧ q.isUnion = false := by
    intro part hpm q hpq
    obtain ⟨hpp, -⟩ := hk part hpm
    have hlen := length_of_mem_pieces hpp
    have h1 := length_tokens_le '|' part
    rw [pieces_of_mem_pieces hpp] at h1
    exact ⟨hd part (by omega) q hpq, isUnion_of_fill_read hb h1 hpq⟩
  rw [ht, map_read_trim] at hq
  obtain ⟨items, rfl, rfl, hi⟩ := exists_items hp hq
  rw [ht, List.length_map, List.length_map] at hm
  exact .union items hm hj (fun i hm => (hi i hm).1) fun i hm => (hi i hm).2

/-- A text derives the pattern that reading it gives. -/
theorem derives_of_fill (hb : ∀ n, (bind n).isUnion = false) {text : Text} {p : Pattern}
    (h : (read text).fill bind = .ok p) : Derives (fun name q => q = bind name) text p := by
  induction hn : text.length using Nat.strongRecOn generalizing text p with
  | ind n ih =>
    have hd : ∀ part : Text, part.length < text.length → ∀ q,
        (read part).fill bind = .ok q → Derives (fun name q => q = bind name) part q :=
      fun part hl q hq => ih part.length (hn ▸ hl) hq rfl
    rw [read_eq] at h
    obtain ⟨before, after, hbl, hal, he⟩ := Text.exists_trim text
    rcases Form.ofText_cases text with
      ⟨hbt, hf⟩ | ⟨hm, hf⟩ | ⟨-, ⟨c, rest, ht, -, hf⟩ | ⟨b, rest, ht, hf⟩⟩
    · rw [hf] at h
      obtain rfl := Except.ok.inj h
      exact .blank hbt
    · rw [hf] at h
      exact derives_union hb hm hd h
    all_goals
      have hnb : ¬ Text.Blank (Text.trim text) := fun hbt => by
        rw [Text.trim_eq_nil_iff.2 hbt |> (Text.trim_trim text).symm.trans] at ht
        cases ht
      rw [← he]
      refine .padded hbl hal hnb ?_
      rw [hf] at h
    · rcases Form.ofName_cases (c :: rest) with ⟨hs, ho⟩ | ⟨found, ho⟩
      · rw [ho] at h
        obtain rfl := Except.ok.inj h
        rw [ht]
        exact .name (List.cons_ne_nil _ _) (ht ▸ Text.trimmed_trim text) hs rfl
      · rw [ho] at h
        cases h
    · rcases Form.ofBracketed_cases (b.opener :: rest) b rest with ⟨inside, hi, rfl, ho⟩ | ho | ho
      · rw [ho] at h
        have hlen := Text.trim_length_le text
        rw [ht, List.length_cons, List.length_append, List.length_singleton] at hlen
        rw [ht]
        exact derives_bracketed _ b hi (fun part hl q hq => hd part (by omega) q hq) h
      · rw [ho] at h
        cases h
      · rw [ho] at h
        cases h

end DocTypes.Grammar
