import DocTypes.Proofs.Grammar
import DocTypes.Proofs.Outline.Fill
import DocTypes.Proofs.Outline.Form

set_option autoImplicit false

/-!
# Completeness of reading

Whatever pattern a text derives, reading the text and filling in its names gives that pattern. The
induction is on the derivation: where the grammar joins texts, reading cuts them again.
-/

namespace DocTypes.Grammar

open DocTypes.Bracket Outline

variable {bind : Text → Pattern}

theorem trimmed_bracketed (b : Bracket) (inside : Text) :
    Text.Trimmed (b.opener :: (inside ++ [b.closer])) := by
  constructor
  · intro c hc
    obtain rfl := Option.some.inj hc
    cases b <;> rfl
  · intro c hc
    rw [← List.cons_append, List.getLast?_concat] at hc
    obtain rfl := Option.some.inj hc
    cases b <;> rfl

/-- A nested text in brackets has the form that its brackets give it. -/
theorem ofText_bracketed (b : Bracket) {inside : Text} (h : Nested [] inside) :
    Form.ofText (b.opener :: (inside ++ [b.closer])) =
      Form.ofInside (b.opener :: (inside ++ [b.closer])) b inside := by
  have hn : Nested ['|'] (b.opener :: (inside ++ [b.closer])) := .group_single b h
  have hl := length_tokens_le_one hn (List.mem_singleton.2 rfl)
  have ht := Text.trim_of_trimmed (trimmed_bracketed b inside)
  rw [Form.ofText_of_opener hl ht, Form.ofBracketed_of_nested h]

theorem ofText_name {name : Text} (hne : name ≠ []) (ht : Text.Trimmed name)
    (hs : ∀ c ∈ name, Form.isStructural c = false) : Form.ofText name = .name name := by
  have hp : ∀ c ∈ name, Plain c ∧ c ∉ ['|'] := fun c hc =>
    ⟨plain_of_not_structural (hs c hc), fun hm =>
      not_mem_of_not_structural (hs c hc) (List.mem_cons.2 (.inl (List.mem_singleton.1 hm)))⟩
  have hl := length_tokens_le_one (Nested.of_plain hp) (List.mem_singleton.2 rfl)
  obtain ⟨c, rest, rfl⟩ := List.exists_cons_of_ne_nil hne
  have hc := (hp c (List.mem_cons_self ..)).1
  rw [Form.ofText_of_plain hl (Text.trim_of_trimmed ht) hc.1, Form.ofName_of_plain hs]

theorem fillEach_read {items : List (Text × Pattern)}
    (h : ∀ item ∈ items, (Outline.read item.1).fill bind = .ok item.2) :
    Outline.fillEach bind ((items.map Prod.fst).map Outline.read) = .ok (items.map Prod.snd) := by
  induction items with
  | nil => rfl
  | cons item more ih =>
    have hi := h item (List.mem_cons_self ..)
    have hm := ih fun i hi => h i (List.mem_cons_of_mem _ hi)
    rw [List.map_cons, List.map_cons, Outline.fillEach, hi, hm]
    rfl

/-- The label and the text of a field, as reading finds them. -/
def Entry.found (entry : Entry) : Text × Text := (entry.label, Text.trim entry.right)

theorem fillFields_read {entries : List Entry}
    (h : ∀ entry ∈ entries, (Outline.read entry.right).fill bind = .ok entry.pattern) :
    Outline.fillFields bind ((entries.map Entry.found).map fun pair =>
        (pair.1, Outline.read pair.2)) =
      .ok (entries.map fun entry => (entry.label, entry.pattern)) := by
  induction entries with
  | nil => rfl
  | cons entry more ih =>
    have he := h entry (List.mem_cons_self ..)
    have hm := ih fun e he => h e (List.mem_cons_of_mem _ he)
    rw [List.map_cons, List.map_cons, Entry.found, Outline.fillFields, read_trim, he, hm]
    rfl

theorem tokens_sides {entry left right : Text} (he : Joined ':' [left, right] entry)
    (hl : Nested [':'] left) (hr : Nested [':'] right) :
    tokens ':' entry = [Text.trim left, Text.trim right] := by
  apply he.tokens_eq ⟨rfl, rfl⟩ rfl
  intro part hp
  simp only [List.mem_cons, List.not_mem_nil, or_false] at hp
  rcases hp with rfl | rfl
  · exact hl
  · exact hr

theorem pairs_entries {inside : Text} {entries : List Entry}
    (hj : Joined ',' (entries.map Entry.whole) inside)
    (he : ∀ entry ∈ entries, Joined ':' [entry.left, entry.right] entry.whole)
    (hw : ∀ entry ∈ entries, Labelled entry.label entry.left)
    (hr : ∀ entry ∈ entries, Nested [',', ':'] entry.right) :
    Form.pairs (tokens ',' inside) = .ok (entries.map Entry.found) := by
  have hn : ∀ part ∈ entries.map Entry.whole, Nested [','] part := by
    intro part hp
    obtain ⟨entry, hm, rfl⟩ := List.mem_map.1 hp
    exact nested_entry (he entry hm) (by simp) ((hw entry hm).nested.mono (by simp))
      ((hr entry hm).mono (by simp))
  rw [hj.tokens_eq ⟨rfl, rfl⟩ rfl hn, Form.pairs_eq_ok_iff, List.map_map, List.map_map,
    List.map_map]
  apply List.map_congr_left
  intro entry hm
  have hs := tokens_sides (he entry hm) ((hw entry hm).nested.mono (by simp))
    ((hr entry hm).mono (by simp))
  change tokens ':' (Text.trim entry.whole) = [entry.label, Text.trim entry.right]
  rw [tokens_trim rfl, hs, (hw entry hm).trim_eq]

theorem ofBraces_of_singleton {text inside key value : Text}
    (h : Form.pairs (tokens ',' inside) = .ok [(key, value)]) :
    Form.ofBraces text inside = .map key value := by
  rw [Form.ofBraces, h]

theorem ofBraces_of_length {text inside : Text} {found : List (Text × Text)}
    (h : Form.pairs (tokens ',' inside) = .ok found) (hl : found.length ≠ 1) :
    Form.ofBraces text inside = .record found := by
  rw [Form.ofBraces, h]
  rcases found with _ | ⟨⟨key, value⟩, _ | ⟨next, more⟩⟩
  · rfl
  · exact absurd rfl hl
  · rfl

/-- Reading a text finds every pattern that it derives. -/
theorem fill_of_derives {text : Text} {p : Pattern}
    (h : Derives (fun name q => q = bind name) text p) :
    (Outline.read text).fill bind = .ok p := by
  induction h with
  | blank h =>
    rw [Outline.read_eq, Form.ofText_of_blank h]
    rfl
  | padded hb ha _ _ ih => rw [read_of_trim_eq (Text.trim_padded hb ha _), ih]
  | name hne ht hs hp =>
    rw [Outline.read_eq, ofText_name hne ht hs, hp]
    rfl
  | list hd ih =>
    have hf := ofText_bracketed .square (nested_of_apartFrom hd.nested (by simp))
    change Form.ofText ('[' :: (_ ++ [']'])) = .list _ at hf
    rw [Outline.read_eq, hf, Outline.build, Outline.fill, ih]
    rfl
  | set hd ih =>
    have hf := ofText_bracketed .angle (nested_of_apartFrom hd.nested (by simp))
    change Form.ofText ('<' :: (_ ++ ['>'])) = .set _ at hf
    rw [Outline.read_eq, hf, Outline.build, Outline.fill, ih]
    rfl
  | tuple items hj hd ih =>
    have hi : ∀ item ∈ items, Nested [','] item.1 :=
      fun item hm => nested_of_apartFrom (hd item hm).nested (by simp)
    have hn : Nested [] _ := hj.nested ⟨rfl, rfl⟩ (by simp) (by simp)
      (nested_of_fst fun item hm => (hi item hm).mono (by simp))
    have hf := ofText_bracketed .round hn
    change Form.ofText ('(' :: (_ ++ [')'])) = .tuple _ at hf
    rw [Outline.read_eq, hf, hj.tokens_eq ⟨rfl, rfl⟩ rfl (nested_of_fst hi), Outline.build,
      map_read_trim, Outline.fill, fillEach_read ih]
    rfl
  | @map inside entry left right k v hj he hk hv ihk ihv =>
    have hl : Nested [',', ':'] left := nested_of_apartFrom hk.nested (by simp)
    have hr : Nested [',', ':'] right := nested_of_apartFrom hv.nested (by simp)
    have hw : Nested [','] entry :=
      nested_entry he (by simp) (hl.mono (by simp)) (hr.mono (by simp))
    have hp : ∀ part ∈ [entry], Nested [','] part := fun part hp => List.mem_singleton.1 hp ▸ hw
    have hn : Nested [] inside := hj.nested ⟨rfl, rfl⟩ (by simp) (by simp)
      fun part hm => (hp part hm).mono (by simp)
    have hs := tokens_sides he (hl.mono (by simp)) (hr.mono (by simp))
    have ho : Form.pairs (tokens ',' inside) = .ok [(Text.trim left, Text.trim right)] := by
      rw [hj.tokens_eq ⟨rfl, rfl⟩ rfl hp, Form.pairs_eq_ok_iff, List.map_singleton,
        List.map_singleton, tokens_trim rfl, hs]
      rfl
    have hf := ofText_bracketed .curly hn
    change Form.ofText ('{' :: (_ ++ ['}'])) = .ofBraces _ _ at hf
    rw [Outline.read_eq, hf, ofBraces_of_singleton ho, Outline.build, Outline.fill, read_trim,
      read_trim, ihk, ihv]
    rfl
  | @record inside entries hl hj he hw hd ih =>
    have hr : ∀ entry ∈ entries, Nested [',', ':'] entry.right :=
      fun entry hm => nested_of_apartFrom (hd entry hm).nested (by simp)
    have hn : Nested [] inside := by
      refine hj.nested ⟨rfl, rfl⟩ (by simp) (by simp) fun part hp => ?_
      obtain ⟨entry, hm, rfl⟩ := List.mem_map.1 hp
      exact nested_entry (he entry hm) (by simp) ((hw entry hm).nested.mono (by simp))
        ((hr entry hm).mono (by simp))
    have ho := pairs_entries hj he hw hr
    have hm : (entries.map Entry.found).length ≠ 1 := by rwa [List.length_map]
    have hf := ofText_bracketed .curly hn
    change Form.ofText ('{' :: (_ ++ ['}'])) = .ofBraces _ _ at hf
    rw [Outline.read_eq, hf, ofBraces_of_length ho hm, Outline.build, Outline.fill,
      fillFields_read ih]
    rfl
  | @union whole alternatives hl hj hd hu ih =>
    have hi : ∀ alternative ∈ alternatives, Nested ['|'] alternative.1 := by
      intro alternative hm
      have hn := (hd alternative hm).nested
      rw [apartFrom, hu alternative hm] at hn
      exact hn.mono (by simp)
    have ht := hj.tokens_eq ⟨rfl, rfl⟩ rfl (nested_of_fst hi)
    have hm : 1 < (tokens '|' whole).length := by
      rw [ht, List.length_map, List.length_map]
      omega
    rw [Outline.read_eq, Form.ofText_of_many hm, ht, Outline.build, map_read_trim, Outline.fill,
      fillEach_read ih]
    rfl

end DocTypes.Grammar
