import DocTypes.Compilation
import DocTypes.Proofs.Bracket.Pieces

set_option autoImplicit false

/-!
# The grammar of type expressions

What a text derives is said by concatenation alone: which texts stand next to one another, with
which separators between them and which brackets around them. Every text that derives a pattern is
nested, and its separators are where the grammar puts them.
-/

namespace DocTypes

namespace Pattern

def isUnion : Pattern → Bool
  | union _ => true
  | _ => false

end Pattern

namespace Catalog

/-- What a name denotes: the types it has in the catalog, else the builtin kind of that name, else
nothing. -/
inductive Denotes (catalog : Catalog) (name : Text) : Pattern → Prop where
  | registered {types : TypeSet} (h : catalog.find? name = some types) :
    Denotes catalog name (.named name types)
  | builtin {kind : Kind} (h : catalog.find? name = none) (hk : kind.name = name) :
    Denotes catalog name (.named name (.single (.kind kind)))
  | unresolved (h : catalog.find? name = none) (hk : ∀ kind : Kind, kind.name ≠ name) :
    Denotes catalog name (.unresolved name)

end Catalog

namespace Grammar

open DocTypes.Bracket

/-- The whole consists of texts with a separator between each and the next; `kept` are those of
them that are not blank. -/
def Joined (separator : Char) (kept : List Text) (whole : Text) : Prop :=
  ∃ parts, whole = [separator].intercalate parts ∧
    kept = parts.filter fun part => ¬ Text.Blank part

/-- The label of a field as it is written, with blanks around. A label may contain anything but a
comma or a colon outside its brackets, which have to be nested. -/
def Labelled (label written : Text) : Prop :=
  label ≠ [] ∧ Text.Trimmed label ∧ Nested [',', ':'] label ∧
    ∃ before after, Text.Blank before ∧ Text.Blank after ∧ written = before ++ (label ++ after)

/-- A field of a record as it is written, and what it stands for. -/
structure Entry where
  whole : Text
  left : Text
  right : Text
  label : Text
  pattern : Pattern

/-- Which patterns a text derives, when `denotes` says what its names denote. -/
inductive Derives (denotes : Text → Pattern → Prop) : Text → Pattern → Prop where
  | blank {text : Text} (h : Text.Blank text) : Derives denotes text .any
  | padded {before text after : Text} {p : Pattern} (hb : Text.Blank before)
    (ha : Text.Blank after) (hn : ¬ Text.Blank text) (hd : Derives denotes text p) :
    Derives denotes (before ++ (text ++ after)) p
  | name {name : Text} {p : Pattern} (hne : name ≠ []) (ht : Text.Trimmed name)
    (hs : ∀ c ∈ name, Form.isStructural c = false) (hp : denotes name p) : Derives denotes name p
  | list {inside : Text} {p : Pattern} (hd : Derives denotes inside p) :
    Derives denotes ('[' :: (inside ++ [']'])) (.list p)
  | set {inside : Text} {p : Pattern} (hd : Derives denotes inside p) :
    Derives denotes ('<' :: (inside ++ ['>'])) (.set p)
  | tuple {inside : Text} (items : List (Text × Pattern))
    (hj : Joined ',' (items.map Prod.fst) inside)
    (hd : ∀ item ∈ items, Derives denotes item.1 item.2) :
    Derives denotes ('(' :: (inside ++ [')'])) (.tuple (items.map Prod.snd))
  | map {inside entry left right : Text} {k v : Pattern} (hj : Joined ',' [entry] inside)
    (he : Joined ':' [left, right] entry) (hk : Derives denotes left k)
    (hv : Derives denotes right v) : Derives denotes ('{' :: (inside ++ ['}'])) (.map k v)
  | record {inside : Text} (entries : List Entry) (hl : entries.length ≠ 1)
    (hj : Joined ',' (entries.map Entry.whole) inside)
    (he : ∀ entry ∈ entries, Joined ':' [entry.left, entry.right] entry.whole)
    (hw : ∀ entry ∈ entries, Labelled entry.label entry.left)
    (hd : ∀ entry ∈ entries, Derives denotes entry.right entry.pattern) :
    Derives denotes ('{' :: (inside ++ ['}']))
      (.record (entries.map fun entry => (entry.label, entry.pattern)))
  | union {whole : Text} (alternatives : List (Text × Pattern)) (hl : 2 ≤ alternatives.length)
    (hj : Joined '|' (alternatives.map Prod.fst) whole)
    (hd : ∀ alternative ∈ alternatives, Derives denotes alternative.1 alternative.2)
    (hu : ∀ alternative ∈ alternatives, alternative.2.isUnion = false) :
    Derives denotes whole (.union (alternatives.map Prod.snd))

theorem plain_of_not_structural {c : Char} (h : Form.isStructural c = false) : Plain c := by
  rcases bracket_cases c with ⟨b, rfl⟩ | ⟨b, rfl⟩ | hc
  · cases b <;> exact absurd h (by decide)
  · cases b <;> exact absurd h (by decide)
  · exact hc

theorem not_mem_of_not_structural {c : Char} (h : Form.isStructural c = false) :
    c ∉ ['|', ',', ':'] := by
  intro hc
  simp only [List.mem_cons, List.not_mem_nil, or_false] at hc
  rcases hc with rfl | rfl | rfl <;> exact absurd h (by decide)

theorem isBlank_of_mem : ∀ c ∈ ['|', ',', ':'], Text.isBlank c = false :=
  List.forall_mem_cons.2 ⟨rfl, List.forall_mem_cons.2 ⟨rfl, List.forall_mem_singleton.2 rfl⟩⟩

theorem nested_of_blank {apart : List Char} {text : Text}
    (ha : ∀ c ∈ apart, Text.isBlank c = false) (h : Text.Blank text) : Nested apart text := by
  apply Nested.of_plain
  intro c hc
  refine ⟨plain_of_isBlank (h c hc), fun hm => ?_⟩
  have hn := ha c hm
  rw [h c hc] at hn
  cases hn

theorem nested_intercalate {apart : List Char} {separator : Char} {parts : List Text}
    (hp : Plain separator) (hs : separator ∉ apart) (h : ∀ part ∈ parts, Nested apart part) :
    Nested apart ([separator].intercalate parts) := by
  induction parts with
  | nil => exact .nil
  | cons part more ih =>
    have hn := h part (List.mem_cons_self ..)
    have hm := ih fun p hp => h p (List.mem_cons_of_mem _ hp)
    cases more with
    | nil =>
      rw [List.intercalate_singleton]
      exact hn
    | cons next more =>
      rw [List.intercalate_cons_cons, List.append_assoc, List.singleton_append]
      exact hn.append (.plain hp hs hm)

namespace Joined

variable {apart : List Char} {separator : Char} {kept : List Text} {whole : Text}

theorem parts_nested {parts : List Text} (ha : ∀ c ∈ apart, Text.isBlank c = false)
    (hk : kept = parts.filter fun part => ¬ Text.Blank part)
    (h : ∀ part ∈ kept, Nested apart part) : ∀ part ∈ parts, Nested apart part := by
  intro part hm
  by_cases hb : Text.Blank part
  · exact nested_of_blank ha hb
  · apply h
    rw [hk, List.mem_filter]
    exact ⟨hm, decide_eq_true hb⟩

theorem not_blank (hj : Joined separator kept whole) : ∀ part ∈ kept, ¬ Text.Blank part := by
  obtain ⟨parts, -, rfl⟩ := hj
  intro part hp
  exact of_decide_eq_true (List.mem_filter.1 hp).2

theorem nested (hj : Joined separator kept whole) (hp : Plain separator)
    (hs : separator ∉ apart) (ha : ∀ c ∈ apart, Text.isBlank c = false)
    (h : ∀ part ∈ kept, Nested apart part) : Nested apart whole := by
  obtain ⟨parts, rfl, hk⟩ := hj
  exact nested_intercalate hp hs (parts_nested ha hk h)

/-- The tokens of joined texts are these texts, trimmed. -/
theorem tokens_eq (hj : Joined separator kept whole) (hp : Plain separator)
    (hb : Text.isBlank separator = false) (h : ∀ part ∈ kept, Nested [separator] part) :
    tokens separator whole = kept.map Text.trim := by
  obtain ⟨parts, rfl, hk⟩ := hj
  have ha : ∀ c ∈ [separator], Text.isBlank c = false := fun c hc => by
    rw [List.mem_singleton.1 hc, hb]
  have hn := parts_nested ha hk h
  rw [hk, ← Text.filter_map_trim]
  cases parts with
  | nil => rfl
  | cons part more => rw [tokens, pieces_intercalate hp (List.cons_ne_nil _ _) hn]

end Joined

/-- Every text is joined from its pieces. -/
theorem exists_joined (separator : Char) (text : Text) :
    ∃ kept, Joined separator kept text ∧ tokens separator text = kept.map Text.trim ∧
      ∀ part ∈ kept, part ∈ pieces separator 0 text ∧ ¬ Text.Blank part := by
  refine ⟨(pieces separator 0 text).filter fun part => ¬ Text.Blank part,
    ⟨pieces separator 0 text, (intercalate_pieces separator 0 text).symm, rfl⟩, ?_, ?_⟩
  · rw [tokens, Text.filter_map_trim]
  · intro part hm
    obtain ⟨hp, hb⟩ := List.mem_filter.1 hm
    exact ⟨hp, of_decide_eq_true hb⟩

theorem Labelled.nested {label written : Text} (h : Labelled label written) :
    Nested [',', ':'] written := by
  obtain ⟨-, -, hn, before, after, hb, ha, rfl⟩ := h
  have hs : ∀ c ∈ [',', ':'], Text.isBlank c = false :=
    fun c hc => isBlank_of_mem c (List.mem_cons_of_mem _ hc)
  exact (nested_of_blank hs hb).append (hn.append (nested_of_blank hs ha))

theorem Labelled.trim_eq {label written : Text} (h : Labelled label written) :
    Text.trim written = label := by
  obtain ⟨-, ht, -, before, after, hb, ha, rfl⟩ := h
  rw [Text.trim_padded hb ha, Text.trim_of_trimmed ht]

/-- The separators that never stand outside the brackets of what derives a pattern. -/
def apartFrom (p : Pattern) : List Char := if p.isUnion then [',', ':'] else ['|', ',', ':']

theorem isBlank_of_mem_apartFrom {p : Pattern} : ∀ c ∈ apartFrom p, Text.isBlank c = false := by
  intro c hc
  unfold apartFrom at hc
  split at hc
  · exact isBlank_of_mem c (List.mem_cons_of_mem _ hc)
  · exact isBlank_of_mem c hc

theorem nested_of_apartFrom {p : Pattern} {apart : List Char} {text : Text}
    (h : Nested (apartFrom p) text) (hs : ∀ c ∈ apart, c = ',' ∨ c = ':') : Nested apart text := by
  apply h.mono
  intro c hc
  unfold apartFrom
  rcases hs c hc with rfl | rfl <;> split <;> decide

theorem nested_bracketed {p : Pattern} {inside : Text} (b : Bracket) (h : Nested [] inside) :
    Nested (apartFrom p) (b.opener :: (inside ++ [b.closer])) := .group_single b h

theorem nested_of_fst {items : List (Text × Pattern)} {apart : List Char}
    (h : ∀ item ∈ items, Nested apart item.1) : ∀ text ∈ items.map Prod.fst, Nested apart text := by
  intro text ht
  obtain ⟨item, hi, rfl⟩ := List.mem_map.1 ht
  exact h item hi

variable {denotes : Text → Pattern → Prop}

theorem nested_entry {left right entry : Text} {apart : List Char}
    (he : Joined ':' [left, right] entry) (ha : ∀ c ∈ apart, c = ',')
    (hl : Nested apart left) (hr : Nested apart right) : Nested apart entry := by
  refine he.nested ⟨rfl, rfl⟩ (fun hc => absurd (ha _ hc) (by decide)) (fun c hc => ?_) ?_
  · rw [ha c hc]
    rfl
  · intro part hp
    simp only [List.mem_cons, List.not_mem_nil, or_false] at hp
    rcases hp with rfl | rfl
    · exact hl
    · exact hr

/-- A text that derives a pattern is nested, with no comma and no colon outside its brackets, and
with a bar there only if the pattern is a union. -/
theorem Derives.nested {text : Text} {p : Pattern} (h : Derives denotes text p) :
    Nested (apartFrom p) text := by
  induction h with
  | blank h => exact nested_of_blank isBlank_of_mem_apartFrom h
  | padded hb ha _ _ ih =>
    exact (nested_of_blank isBlank_of_mem_apartFrom hb).append
      (ih.append (nested_of_blank isBlank_of_mem_apartFrom ha))
  | @name name p _ _ hs _ =>
    apply Nested.of_plain
    intro c hc
    have hn := hs c hc
    refine ⟨plain_of_not_structural hn, fun hm => not_mem_of_not_structural hn ?_⟩
    unfold apartFrom at hm
    split at hm
    · exact List.mem_cons_of_mem _ hm
    · exact hm
  | list _ ih => exact nested_bracketed .square (nested_of_apartFrom ih (by simp))
  | set _ ih => exact nested_bracketed .angle (nested_of_apartFrom ih (by simp))
  | tuple items hj _ ih =>
    have hi : ∀ item ∈ items, Nested [] item.1 :=
      fun item hm => nested_of_apartFrom (ih item hm) (by simp)
    exact nested_bracketed .round (hj.nested ⟨rfl, rfl⟩ (by simp) (by simp) (nested_of_fst hi))
  | @map _ entry _ _ _ _ hj he _ _ ihk ihv =>
    have hn : Nested [] entry := nested_entry he (by simp) (nested_of_apartFrom ihk (by simp))
      (nested_of_apartFrom ihv (by simp))
    refine nested_bracketed .curly (hj.nested ⟨rfl, rfl⟩ (by simp) (by simp) fun part hp => ?_)
    rw [List.mem_singleton.1 hp]
    exact hn
  | record entries _ hj he hw _ ih =>
    refine nested_bracketed .curly (hj.nested ⟨rfl, rfl⟩ (by simp) (by simp) fun part hp => ?_)
    obtain ⟨entry, hm, rfl⟩ := List.mem_map.1 hp
    exact nested_entry (he entry hm) (by simp) ((hw entry hm).nested.mono (by simp))
      (nested_of_apartFrom (ih entry hm) (by simp))
  | union alternatives _ hj _ _ ih =>
    have hi : ∀ alternative ∈ alternatives, Nested [',', ':'] alternative.1 :=
      fun alternative hm => nested_of_apartFrom (ih alternative hm) (by simp)
    have hs : '|' ∉ [',', ':'] := by decide
    exact hj.nested ⟨rfl, rfl⟩ hs (fun c hc => isBlank_of_mem c (List.mem_cons_of_mem _ hc))
      (nested_of_fst hi)

end Grammar

end DocTypes
