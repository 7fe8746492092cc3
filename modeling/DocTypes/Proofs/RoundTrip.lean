import DocTypes.Proofs.Grammar.Exact
import DocTypes.Proofs.Pattern.WellFormed

set_option autoImplicit false

/-!
# Canonical text

The canonical text of a well-formed pattern derives that pattern. So the patterns that texts compile
to are the well-formed ones, and compiling the canonical text of such a pattern gives it back.
-/

namespace DocTypes.Grammar

open DocTypes.Bracket

variable {denotes : Text → Pattern → Prop} {separator : Char}

theorem joined_intercalate {parts : List Text} (h : ∀ part ∈ parts, ¬ Text.Blank part) :
    Joined separator parts ([separator].intercalate parts) := by
  refine ⟨parts, rfl, (List.filter_eq_self.2 ?_).symm⟩
  intro part hp
  exact decide_eq_true (h part hp)

theorem blank_of_intercalate {parts : List Text} (h : Text.Blank ([separator].intercalate parts)) :
    ∀ part ∈ parts, Text.Blank part := by
  induction parts with
  | nil => exact List.forall_mem_nil _
  | cons part more ih =>
    cases more with
    | nil =>
      rw [List.intercalate_singleton] at h
      exact List.forall_mem_singleton.2 h
    | cons next more =>
      rw [List.intercalate_cons_cons, Text.blank_append, Text.blank_append] at h
      exact List.forall_mem_cons.2 ⟨h.1.1, ih h.2⟩

/-- The texts with a blank set before each but the first. -/
def spaced : List Text → List Text
  | [] => []
  | text :: more => text :: more.map (' ' :: ·)

theorem intercalate_comma_blank (texts : List Text) :
    [',', ' '].intercalate texts = [','].intercalate (spaced texts) := by
  induction texts with
  | nil => rfl
  | cons text more ih =>
    cases more with
    | nil => rfl
    | cons next more =>
      have hc : [','].intercalate ((' ' :: next) :: more.map (' ' :: ·)) =
          ' ' :: [','].intercalate (next :: more.map (' ' :: ·)) :=
        intercalate_modifyHead ' ' (List.cons_ne_nil next (more.map (' ' :: ·)))
      rw [List.intercalate_cons_cons, ih, spaced, spaced, List.map_cons, List.intercalate_cons_cons,
        hc]
      simp

theorem not_blank_cons {c : Char} (hc : Text.isBlank c = false) (rest : Text) :
    ¬ Text.Blank (c :: rest) := by
  intro h
  have hb := h c (List.mem_cons_self ..)
  rw [hc] at hb
  cases hb

theorem not_blank_append {a b : Text} (h : ¬ Text.Blank b) : ¬ Text.Blank (a ++ b) :=
  fun hb => h (Text.blank_append.1 hb).2

theorem blank_space : Text.Blank [' '] := by
  intro c hc
  obtain rfl := List.mem_singleton.1 hc
  rfl

theorem derives_after_space {text : Text} {p : Pattern} (hn : ¬ Text.Blank text)
    (h : Derives denotes text p) : Derives denotes (' ' :: text) p := by
  have hp := Derives.padded blank_space Text.blank_nil hn h
  rw [List.append_nil] at hp
  exact hp

/-- A pattern whose canonical text derives it, and is more than blanks. -/
def Canonical (denotes : Text → Pattern → Prop) (p : Pattern) : Prop :=
  Derives denotes p.text p ∧ ¬ Text.Blank p.text

def spacedItems : List Pattern → List (Text × Pattern)
  | [] => []
  | p :: more => (p.text, p) :: more.map fun q => (' ' :: q.text, q)

theorem fst_spacedItems (ps : List Pattern) :
    (spacedItems ps).map Prod.fst = spaced (Pattern.texts ps) := by
  cases ps with
  | nil => rfl
  | cons p more =>
    rw [spacedItems, List.map_cons, List.map_map, Pattern.texts, spaced, Pattern.texts_eq_map,
      List.map_map]
    rfl

theorem snd_spacedItems (ps : List Pattern) : (spacedItems ps).map Prod.snd = ps := by
  cases ps with
  | nil => rfl
  | cons p more =>
    rw [spacedItems, List.map_cons, List.map_map]
    exact congrArg (p :: ·) (List.map_id more)

theorem derives_spacedItems {ps : List Pattern} (h : ∀ p ∈ ps, Canonical denotes p) :
    ∀ item ∈ spacedItems ps, Derives denotes item.1 item.2 ∧ ¬ Text.Blank item.1 := by
  cases ps with
  | nil => exact List.forall_mem_nil _
  | cons p more =>
    refine List.forall_mem_cons.2 ⟨h p (List.mem_cons_self ..), ?_⟩
    intro item hi
    obtain ⟨q, hq, rfl⟩ := List.mem_map.1 hi
    obtain ⟨hd, hn⟩ := h q (List.mem_cons_of_mem _ hq)
    exact ⟨derives_after_space hn hd, not_blank_append (a := [' ']) hn⟩

theorem derives_text_tuple {ps : List Pattern} (h : ∀ p ∈ ps, Canonical denotes p) :
    Derives denotes (Pattern.tuple ps).text (.tuple ps) := by
  have hi := derives_spacedItems h
  have hj : Joined ',' ((spacedItems ps).map Prod.fst)
      ([','].intercalate ((spacedItems ps).map Prod.fst)) := by
    apply joined_intercalate
    intro part hp
    obtain ⟨item, hm, rfl⟩ := List.mem_map.1 hp
    exact (hi item hm).2
  have hd := Derives.tuple (spacedItems ps) hj fun item hm => (hi item hm).1
  rw [snd_spacedItems, fst_spacedItems, ← intercalate_comma_blank] at hd
  exact hd

theorem derives_text_union {ps : List Pattern} (hl : 2 ≤ ps.length)
    (hu : ∀ p ∈ ps, p.isUnion = false) (h : ∀ p ∈ ps, Canonical denotes p) :
    Derives denotes (Pattern.union ps).text (.union ps) := by
  have hf : (ps.map fun p => (p.text, p)).map Prod.fst = Pattern.texts ps := by
    rw [List.map_map, Pattern.texts_eq_map]
    rfl
  have hs : (ps.map fun p => (p.text, p)).map Prod.snd = ps := by
    rw [List.map_map]
    exact List.map_id ps
  have hj : Joined '|' (Pattern.texts ps) (['|'].intercalate (Pattern.texts ps)) := by
    apply joined_intercalate
    intro part hp
    rw [Pattern.texts_eq_map] at hp
    obtain ⟨p, hm, rfl⟩ := List.mem_map.1 hp
    exact (h p hm).2
  rw [← hf] at hj
  have hd : ∀ a ∈ ps.map fun p => (p.text, p), Derives denotes a.1 a.2 := by
    intro a ha
    obtain ⟨p, hm, rfl⟩ := List.mem_map.1 ha
    exact (h p hm).1
  have hn : ∀ a ∈ ps.map fun p => (p.text, p), a.2.isUnion = false := by
    intro a ha
    obtain ⟨p, hm, rfl⟩ := List.mem_map.1 ha
    exact hu p hm
  have hr := Derives.union _ (by rwa [List.length_map]) hj hd hn
  rw [hs, hf] at hr
  exact hr

theorem derives_text_map {k v : Pattern} (hk : Canonical denotes k) (hv : Canonical denotes v) :
    Derives denotes (Pattern.map k v).text (.map k v) := by
  have hn : ¬ Text.Blank (k.text ++ ':' :: ' ' :: v.text) :=
    not_blank_append (not_blank_cons rfl _)
  have hw : ∀ part ∈ [k.text ++ ':' :: ' ' :: v.text], ¬ Text.Blank part :=
    List.forall_mem_singleton.2 hn
  have hs : ∀ part ∈ [k.text, ' ' :: v.text], ¬ Text.Blank part :=
    List.forall_mem_cons.2 ⟨hk.2, List.forall_mem_singleton.2 (not_blank_append (a := [' ']) hv.2)⟩
  have hj : Joined ',' _ _ := joined_intercalate hw
  have he : Joined ':' _ _ := joined_intercalate hs
  rw [List.intercalate_singleton] at hj
  rw [List.intercalate_cons_cons, List.intercalate_singleton, List.append_assoc] at he
  exact .map hj he hk.1 (derives_after_space hv.2 hv.1)

/-- A field as the canonical text writes it, with blanks set before it. -/
def Entry.ofField (before : Text) (field : Text × Pattern) : Entry where
  whole := before ++ (field.1 ++ ':' :: ' ' :: field.2.text)
  left := before ++ field.1
  right := ' ' :: field.2.text
  label := field.1
  pattern := field.2

def spacedEntries : List (Text × Pattern) → List Entry
  | [] => []
  | field :: more => .ofField [] field :: more.map (.ofField [' '])

theorem whole_spacedEntries (fields : List (Text × Pattern)) :
    (spacedEntries fields).map Entry.whole = spaced (Pattern.fieldTexts fields) := by
  cases fields with
  | nil => rfl
  | cons field more =>
    rw [spacedEntries, List.map_cons, List.map_map, Pattern.fieldTexts_eq_map, List.map_cons,
      spaced, List.map_map]
    rfl

theorem field_spacedEntries (fields : List (Text × Pattern)) :
    ((spacedEntries fields).map fun entry => (entry.label, entry.pattern)) = fields := by
  cases fields with
  | nil => rfl
  | cons field more =>
    rw [spacedEntries, List.map_cons, List.map_map]
    exact congrArg (field :: ·) (List.map_id more)

theorem mem_spacedEntries {fields : List (Text × Pattern)} {entry : Entry}
    (h : entry ∈ spacedEntries fields) :
    ∃ before, Text.Blank before ∧ ∃ field ∈ fields, entry = .ofField before field := by
  cases fields with
  | nil => cases h
  | cons field more =>
    rcases List.mem_cons.1 h with rfl | h
    · exact ⟨[], Text.blank_nil, field, List.mem_cons_self .., rfl⟩
    · obtain ⟨other, hm, rfl⟩ := List.mem_map.1 h
      exact ⟨[' '], blank_space, other, List.mem_cons_of_mem _ hm, rfl⟩

section Fields

variable {field : Text × Pattern} {before : Text}

theorem labelled_ofField (hb : Text.Blank before) (h : Labelled field.1 field.1) :
    Labelled field.1 (before ++ field.1) := by
  obtain ⟨hne, ht, hn, -⟩ := h
  refine ⟨hne, ht, hn, before, [], hb, Text.blank_nil, ?_⟩
  rw [List.append_nil]

theorem not_blank_label (h : Labelled field.1 field.1) : ¬ Text.Blank field.1 :=
  Text.not_blank_of_trimmed h.1 h.2.1

theorem joined_ofField (h : Labelled field.1 field.1) (hc : Canonical denotes field.2) :
    Joined ':' [before ++ field.1, ' ' :: field.2.text]
      (before ++ (field.1 ++ ':' :: ' ' :: field.2.text)) := by
  have hs : ∀ part ∈ [before ++ field.1, ' ' :: field.2.text], ¬ Text.Blank part :=
    List.forall_mem_cons.2 ⟨not_blank_append (not_blank_label h),
      List.forall_mem_singleton.2 (not_blank_append (a := [' ']) hc.2)⟩
  have hj : Joined ':' _ _ := joined_intercalate hs
  rw [List.intercalate_cons_cons, List.intercalate_singleton, List.append_assoc,
    List.append_assoc] at hj
  exact hj

end Fields

theorem derives_text_record {fields : List (Text × Pattern)} (hl : fields.length ≠ 1)
    (hw : ∀ field ∈ fields, Labelled field.1 field.1)
    (h : ∀ field ∈ fields, Canonical denotes field.2) :
    Derives denotes (Pattern.record fields).text (.record fields) := by
  have hj : Joined ',' ((spacedEntries fields).map Entry.whole)
      ([','].intercalate ((spacedEntries fields).map Entry.whole)) := by
    apply joined_intercalate
    intro part hp
    obtain ⟨entry, he, rfl⟩ := List.mem_map.1 hp
    obtain ⟨before, -, field, -, rfl⟩ := mem_spacedEntries he
    exact not_blank_append (not_blank_append (not_blank_cons rfl _))
  have hn : (spacedEntries fields).length ≠ 1 := by
    have hf := congrArg List.length (field_spacedEntries fields)
    rw [List.length_map] at hf
    rwa [hf]
  have hd := Derives.record (spacedEntries fields) hn hj
    (fun entry he => by
      obtain ⟨before, -, field, hm, rfl⟩ := mem_spacedEntries he
      exact joined_ofField (hw field hm) (h field hm))
    (fun entry he => by
      obtain ⟨before, hb, field, hm, rfl⟩ := mem_spacedEntries he
      exact labelled_ofField hb (hw field hm))
    (fun entry he => by
      obtain ⟨before, -, field, hm, rfl⟩ := mem_spacedEntries he
      exact derives_after_space (h field hm).2 (h field hm).1)
  rw [field_spacedEntries, whole_spacedEntries, ← intercalate_comma_blank] at hd
  exact hd

theorem labelled_self {label : Text} (hne : label ≠ []) (ht : Text.Trimmed label)
    (hn : Nested [',', ':'] label) : Labelled label label := by
  refine ⟨hne, ht, hn, [], [], Text.blank_nil, Text.blank_nil, ?_⟩
  rw [List.append_nil, List.nil_append]

/-- Every well-formed pattern is derived by its canonical text. -/
theorem derives_text_of_wellFormed (hd : ∀ name p, denotes name p → p.text = name) {p : Pattern}
    (h : p.WellFormed denotes) : Derives denotes p.text p ∧ (p ≠ .any → ¬ Text.Blank p.text) := by
  induction h with
  | any => exact ⟨.blank Text.blank_nil, fun hn => absurd rfl hn⟩
  | name hne ht hs hp =>
    rw [hd _ _ hp]
    exact ⟨.name hne ht hs hp, fun _ => Text.not_blank_of_trimmed hne ht⟩
  | list _ ih => exact ⟨.list ih.1, fun _ => not_blank_cons rfl _⟩
  | set _ ih => exact ⟨.set ih.1, fun _ => not_blank_cons rfl _⟩
  | tuple hn _ ih =>
    have hc : ∀ p ∈ _, Canonical denotes p := fun p hp => ⟨(ih p hp).1, (ih p hp).2 (hn p hp)⟩
    exact ⟨derives_text_tuple hc, fun _ => not_blank_cons rfl _⟩
  | map hnk hnv _ _ ihk ihv =>
    exact ⟨derives_text_map ⟨ihk.1, ihk.2 hnk⟩ ⟨ihv.1, ihv.2 hnv⟩, fun _ => not_blank_cons rfl _⟩
  | record hl hb hn _ ih =>
    refine ⟨derives_text_record hl (fun field hf => ?_) fun field hf => ?_,
      fun _ => not_blank_cons rfl _⟩
    · obtain ⟨hne, ht, hs⟩ := hb field hf
      exact labelled_self hne ht hs
    · exact ⟨(ih field hf).1, (ih field hf).2 (hn field hf)⟩
  | @union ps hl hu hn _ ih =>
    have hc : ∀ p ∈ ps, Canonical denotes p := fun p hp => ⟨(ih p hp).1, (ih p hp).2 (hn p hp)⟩
    refine ⟨derives_text_union hl hu hc, fun _ hb => ?_⟩
    obtain ⟨p, hp⟩ := List.exists_mem_of_length_pos (Nat.lt_of_lt_of_le Nat.zero_lt_two hl)
    have ht := List.mem_map_of_mem (f := Pattern.text) hp
    rw [← Pattern.texts_eq_map] at ht
    exact (hc p hp).2 (blank_of_intercalate hb _ ht)

/-- The canonical text of what a text derives derives the same. -/
theorem derives_text (hd : ∀ name p, denotes name p → p.text = name) {text : Text} {p : Pattern}
    (h : Derives denotes text p) :
    Derives denotes p.text p ∧ (¬ Text.Blank text → ¬ Text.Blank p.text) := by
  have hn : ∀ name, name ≠ [] → ¬ denotes name .any := fun name hne ha => hne (hd name .any ha).symm
  obtain ⟨ht, hb⟩ := derives_text_of_wellFormed hd (h.wellFormed hn)
  exact ⟨ht, fun hne => hb (h.ne_any hn hne)⟩

end DocTypes.Grammar

namespace DocTypes.Scope

/-- The patterns that texts compile to are those that are well-formed. -/
theorem exists_pattern?_iff_wellFormed (catalog : Catalog) (p : Pattern) :
    (∃ text, (Scope.mk catalog none).pattern? text = .ok p) ↔ p.WellFormed catalog.Denotes := by
  have hs := steady_of_none catalog
  rw [catalog.denotes_eq]
  constructor
  · rintro ⟨text, h⟩
    refine ((patternAt?_eq_ok_iff hs).1 h).wellFormed fun name hne ha => ?_
    have ht := congrArg Pattern.text ha
    rw [text_bind] at ht
    exact hne ht.symm
  · intro h
    refine ⟨p.text, (patternAt?_eq_ok_iff hs).2 (Grammar.derives_text_of_wellFormed ?_ h).1⟩
    rintro name q rfl
    exact text_bind _ 0 name

/-- What a text compiles to is what its canonical text compiles to, whatever else the resolver has
been asked in between. -/
theorem patternAt?_text {scope : Scope} (hs : scope.Steady) {moment : Nat} {text : Text}
    {p : Pattern} (h : scope.patternAt? moment text = .ok p) (later : Nat) :
    scope.patternAt? later p.text = .ok p := by
  rw [patternAt?_eq_ok_iff hs] at h ⊢
  apply (Grammar.derives_text ?_ h).1
  rintro name q rfl
  exact text_bind scope 0 name

/-- A label that looks like a union, an entry that is blank, and a name that only the resolver
knows. -/
theorem patternAt?_text_of_fields :
    let foo : TypeRef := .ofClass ⟨"pkg.Foo".toList, []⟩
    let scope : Scope :=
      ⟨.withBuiltins, some fun _ name => if name = "Foo".toList then some foo else none⟩
    let text := " { a|[b]: int , c: <None|Foo> ,} ".toList
    let p := Pattern.record [("a|[b]".toList, .named "int".toList (.single (.kind .int))),
      ("c".toList, .set (.union [.named "None".toList (.single (.kind .null)),
        .named "Foo".toList (.single foo)]))]
    scope.Steady ∧ scope.patternAt? 0 text = .ok p ∧
      ∀ later, scope.patternAt? later p.text = .ok p := by
  intro foo scope text p
  have hs : scope.Steady := by
    rintro answer ⟨⟩ m n name
    rfl
  have hi : Outline.read "int".toList = .name "int".toList := Outline.read_of_form (.name _) rfl
  have hn : Outline.read "None".toList = .name "None".toList := Outline.read_of_form (.name _) rfl
  have hf : Outline.read "Foo".toList = .name "Foo".toList := Outline.read_of_form (.name _) rfl
  have hu : Outline.read "None|Foo".toList =
      .union [.name "None".toList, .name "Foo".toList] := by
    rw [Outline.read_of_form (.union ["None".toList, "Foo".toList]) rfl]
    simp only [Outline.build, List.map, hn, hf]
  have hc : Outline.read "<None|Foo>".toList =
      .set (.union [.name "None".toList, .name "Foo".toList]) := by
    rw [Outline.read_of_form (.set "None|Foo".toList) rfl]
    simp only [Outline.build, hu]
  have hr : Outline.read text = .record [("a|[b]".toList, .name "int".toList),
      ("c".toList, .set (.union [.name "None".toList, .name "Foo".toList]))] := by
    rw [Outline.read_of_form
      (.record [("a|[b]".toList, "int".toList), ("c".toList, "<None|Foo>".toList)]) rfl]
    simp only [Outline.build, List.map, hi, hc]
  have hp : scope.patternAt? 0 text = .ok p := by
    rw [patternAt?_eq, hr]
    rfl
  exact ⟨hs, hp, patternAt?_text hs hp⟩

end DocTypes.Scope
